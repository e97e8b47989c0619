import L4env.Events.Message

/-!
# Messages of the event server: the copies

The length of an event is the one that the sender says. The server copies as many bytes out of its buffer of
sixty bytes into a block of this length, and hands the block over as an object of sixty bytes.
-/

namespace L4env.Events

variable {cmd len eventCh eventNr i word : Nat} {evt event client : Event} {m : Message} {heap : Bytes}
  {short direct : Bool}

/-! ## Control words -/

theorem shiftLeft_or {a b n : Nat} (h : b < 2 ^ n) : a <<< n ||| b = a * 2 ^ n + b := by
  rw [← Nat.shiftLeft_add_eq_or_of_lt h, Nat.shiftLeft_eq]

theorem createControlWord_eq (cmd len eventCh eventNr : Nat) : createControlWord cmd len eventCh eventNr =
    ((cmd % 2 ^ 4 * 2 ^ 8 + len % 2 ^ 8) * 2 ^ 8 + eventCh % 2 ^ 8) * 2 ^ 12 + eventNr % 2 ^ 12 := by
  have hcmd : cmd &&& 0xf = cmd % 2 ^ 4 := Nat.and_two_pow_sub_one_eq_mod cmd 4
  have hlen : len &&& 0xff = len % 2 ^ 8 := Nat.and_two_pow_sub_one_eq_mod len 8
  have hch : eventCh &&& 0xff = eventCh % 2 ^ 8 := Nat.and_two_pow_sub_one_eq_mod eventCh 8
  have hnr : eventNr &&& 0xfff = eventNr % 2 ^ 12 := Nat.and_two_pow_sub_one_eq_mod eventNr 12
  rw [createControlWord, hcmd, hlen, hch, hnr, shiftLeft_or (Nat.mod_lt _ (by decide)),
    shiftLeft_or (Nat.mod_lt _ (by decide)), shiftLeft_or (Nat.mod_lt _ (by decide))]

theorem getLen_eq (word : Nat) : getLen word = word / 2 ^ 20 % 2 ^ 8 := by
  rw [getLen, Nat.shiftRight_eq_div_pow]
  exact Nat.and_two_pow_sub_one_eq_mod _ 8

theorem getLen_lt (word : Nat) : getLen word < 256 := by
  rw [getLen_eq]
  exact Nat.mod_lt _ (by decide)

@[simp] theorem getLen_create : getLen (createControlWord cmd len eventCh eventNr) = len % 256 := by
  rw [getLen_eq, createControlWord_eq]
  omega

@[simp] theorem getEventCh_create : getEventCh (createControlWord cmd len eventCh eventNr) = eventCh % 256 := by
  have hand : ∀ x, x &&& 0xff = x % 2 ^ 8 := fun x => Nat.and_two_pow_sub_one_eq_mod x 8
  rw [getEventCh, Nat.shiftRight_eq_div_pow, hand, createControlWord_eq]
  omega

@[simp] theorem getEventNr_create : getEventNr (createControlWord cmd len eventCh eventNr) = eventNr % 4096 := by
  have hand : ∀ x, x &&& 0xfff = x % 2 ^ 12 := fun x => Nat.and_two_pow_sub_one_eq_mod x 12
  rw [getEventNr, hand, createControlWord_eq]
  omega

theorem nextEventNr_lt (eventNr : Nat) : 0 < nextEventNr eventNr ∧ nextEventNr eventNr < 4096 := by
  rw [nextEventNr]
  split <;> omega

/-! ## Contents -/

/-- The thresholds of the server and of the receiver are the same. -/
theorem extract_eq (m : Message) (event : Event) : extract m event = receiveMessage false m event := by
  rw [extract, receiveMessage, if_neg Bool.false_ne_true]
  by_cases h : getLen m.cr < 5
  · have hle : getLen m.cr ≤ shortBufferSize := Nat.le_of_lt_succ h
    exact (if_pos h).trans (if_pos hle).symm
  · have hle : ¬ getLen m.cr ≤ shortBufferSize := fun hle => h (Nat.lt_succ_of_le hle)
    exact (if_neg h).trans (if_neg hle).symm

theorem receiveMessage_len (short : Bool) (m : Message) (e : Event) :
    (receiveMessage short m e).len = getLen m.cr := by
  rw [receiveMessage]
  split
  · rfl
  · dsimp only
    split <;> rfl

theorem receiveMessage_room (short : Bool) (m : Message) (e : Event) : (receiveMessage short m e).room = e.room := by
  have hstring : (e.receiveString m.string).room = e.room := by
    cases m.string <;> rfl
  rw [receiveMessage]
  split
  · rfl
  · dsimp only
    split
    · exact hstring
    · exact hstring

/-- An event of a message is received byte by byte. -/
theorem receiveMessage_str (hlen : evt.len ≤ maxBufferSize) (hshort : short = true → evt.len ≤ shortBufferSize)
    (hi : i < evt.len) (e : Event) :
    (receiveMessage short (eventMessage (createControlWord cmd evt.len eventCh eventNr) evt) e).str i =
      evt.str i := by
  simp only [maxBufferSize, shortBufferSize] at hlen hshort
  have hmod : evt.len % 256 = evt.len := Nat.mod_eq_of_lt (by omega)
  rw [receiveMessage, eventMessage]
  by_cases h : evt.len ≤ shortBufferSize
  · have hword : ∀ m : Bytes, m.store32 0 evt.firstWord i = evt.str i := fun m =>
      Bytes.store32_load32 m evt.str (by simp only [shortBufferSize] at h; omega)
    rw [if_pos h]
    dsimp only
    rw [getLen_create, hmod, if_pos h]
    split
    · exact hword _
    · exact hword _
  · have hlong : ¬ short = true := fun hs => h (hshort hs)
    rw [if_neg h, if_neg hlong]
    dsimp only
    rw [getLen_create, hmod, if_neg h]
    exact if_pos (by simp only [maxBufferSize]; omega)

/-! ## Copies -/

/-- The copies of `server_send_event`. -/
def SendInside (event : Event) (heap : Bytes) : Prop := CopyInside event (eventBlock event.len heap)

/-- The copies of an event for a receiver: into the buffer of the server, unless it is sent to a thread that waits,
and to the argument of `receive_event_reply`. -/
def DeliverInside (direct : Bool) (item : EventItem) (event : Event) : Prop :=
  (direct = false → CopyInside item.event event) ∧ maxBufferSize ≤ item.event.room

/-- What the receiver has is what the sender passed, and the sender is told the same number. -/
structure Received (evt : Event) (ch nr : Nat) (reply : Message) (client : Event) : Prop where
  len : client.len = evt.len
  bytes : ∀ i < evt.len, client.str i = evt.str i
  eventCh : getEventCh reply.cr = ch
  eventNr : getEventNr reply.cr = nr
  told : getEventNr (sendEventReply 0 nr).cr = nr

/-- The event that the server makes of a message. -/
def Message.item (m : Message) (event : Event) (eventNr : Nat) (heap : Bytes) : EventItem :=
  createEvent (getEventCh m.cr) eventNr (extract m event) heap

/-- The receiver with the control word `word` gets the event. -/
def EventItem.Goes (item : EventItem) (word : Nat) : Prop := Found item (getLen word) (getEventCh word)

/-- All copies of the event of a message. -/
def Message.Inside (m : Message) (event event' : Event) (eventNr word : Nat) (heap : Bytes) (direct : Bool) : Prop :=
  SendInside (extract m event) heap ∧
    ((m.item event eventNr heap).Goes word → DeliverInside direct (m.item event eventNr heap) event')

theorem extract_len (m : Message) (event : Event) : (extract m event).len = getLen m.cr := by
  rw [extract_eq, receiveMessage_len]

@[simp] theorem item_len : (m.item event eventNr heap).event.len = getLen m.cr := extract_len m event

@[simp] theorem item_room : (m.item event eventNr heap).event.room = getLen m.cr := extract_len m event

/-- The copies for any two control words. -/
theorem inside_iff (hroom : event.room = maxBufferSize) (hroom' : event'.room = maxBufferSize) :
    m.Inside event event' eventNr word heap direct ↔ getLen m.cr ≤ maxBufferSize ∧
      ((m.item event eventNr heap).Goes word → getLen m.cr = maxBufferSize) := by
  have hsize : (extract m event).room = maxBufferSize := by rw [extract_eq, receiveMessage_room, hroom]
  have hsend : SendInside (extract m event) heap ↔ getLen m.cr ≤ maxBufferSize := by
    rw [SendInside, CopyInside, extract_len, hsize]
    exact and_iff_left le_rfl
  rw [Message.Inside, hsend]
  refine and_congr_right fun hle => imp_congr_right fun _ => ?_
  rw [DeliverInside, CopyInside, hroom', item_len, item_room]
  exact ⟨fun h => hle.antisymm h.2, fun h => ⟨fun _ => ⟨le_rfl, h.le⟩, h.ge⟩⟩

/-! ## From a sender to a receiver -/

theorem eventMessage_cr (cr : Nat) (e : Event) : (eventMessage cr e).cr = cr := by
  rw [eventMessage]
  split <;> rfl

@[simp] theorem sendMessage_cr : (sendMessage cmd eventCh evt).cr = createControlWord cmd evt.len eventCh 0 :=
  eventMessage_cr _ _

@[simp] theorem receiveEventReply_cr (item : EventItem) :
    (receiveEventReply item).cr = createControlWord 0 item.event.len item.eventCh item.eventNr :=
  eventMessage_cr _ _

/-- An event of at most sixty bytes on one of the first 256 channels arrives as it was sent. -/
theorem received (hlen : evt.len ≤ maxBufferSize) (hch : eventCh < 256) (hnr : eventNr < 4096)
    (hshort : short = true → evt.len ≤ shortBufferSize) :
    Received evt eventCh eventNr (receiveEventReply ((sendMessage cmd eventCh evt).item event eventNr heap))
      (receiveMessage short (receiveEventReply ((sendMessage cmd eventCh evt).item event eventNr heap)) client) := by
  have hmod : evt.len % 256 = evt.len := Nat.mod_eq_of_lt (hlen.trans_lt (by decide))
  generalize hitem : (sendMessage cmd eventCh evt).item event eventNr heap = item
  have hsize : item.event.len = evt.len := by
    rw [← hitem, item_len, sendMessage_cr, getLen_create, hmod]
  have hbytes : ∀ i < evt.len, item.event.byValue.str i = evt.str i := fun i hi => by
    have hcopied : item.event.str i = (extract (sendMessage cmd eventCh evt) event).str i := by
      rw [← hitem] at hsize ⊢
      exact if_pos (hsize ▸ hi)
    show item.event.str i = _
    rw [hcopied, extract_eq]
    exact receiveMessage_str hlen (fun h => absurd h Bool.false_ne_true) hi event
  refine ⟨?_, fun i hi => ?_, ?_, ?_, ?_⟩
  · rw [receiveMessage_len, receiveEventReply_cr, getLen_create, hsize, hmod]
  · rw [← hbytes i hi]
    rw [← hsize] at hlen hshort hi
    rw [receiveEventReply]
    exact receiveMessage_str hlen hshort hi client
  · rw [receiveEventReply_cr, getEventCh_create, ← hitem]
    show getEventCh (sendMessage cmd eventCh evt).cr % 256 = eventCh
    rw [sendMessage_cr, getEventCh_create]
    omega
  · rw [receiveEventReply_cr, getEventNr_create, ← hitem]
    exact Nat.mod_eq_of_lt hnr
  · rw [sendEventReply, getEventNr_create]
    exact Nat.mod_eq_of_lt hnr

/-- If the receiver gets the event, it has what the sender passed. -/
def Message.Arrives (m : Message) (evt event client : Event) (eventCh eventNr word : Nat) (heap : Bytes)
    (short : Bool) : Prop :=
  (m.item event eventNr heap).Goes word → Received evt eventCh eventNr
    (receiveEventReply (m.item event eventNr heap))
    (receiveMessage short (receiveEventReply (m.item event eventNr heap)) client)

/-- A buffer of the server, filled with zeroes. -/
def zeroBuffer : Event := { len := 0, room := maxBufferSize, str := fun _ => 0 }

end L4env.Events
