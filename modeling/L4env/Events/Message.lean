import L4env.Util.Bytes

/-!
# Messages of the event server

The control word of a message has the command or the result, the length, the channel and the number of an
event (`events/server/include/lib.h`). An event of at most four bytes is sent in the second word, a longer one
as a string (`events/lib/src/libevents.c`, `lib.c` and `server.c` in `events/server/src`).

A copy goes through behind the end of an object; that it does not is a proposition of its own.
-/

namespace L4env.Events

/-- `SHORT_BUFFER_SIZE` -/
def shortBufferSize : Nat := 4

/-- `L4EVENTS_MAX_BUFFER_SIZE` -/
def maxBufferSize : Nat := 60

/-! ## Control words -/

/-- `create_control_word_for_call` and `create_control_word_for_reply` -/
def createControlWord (cmd len eventCh eventNr : Nat) : Nat :=
  ((((cmd &&& 0xf) <<< 8 ||| (len &&& 0xff)) <<< 8 ||| (eventCh &&& 0xff)) <<< 12) ||| (eventNr &&& 0xfff)

/-- `get_cmd` -/
def getCmd (word : Nat) : Nat := (word >>> 28) &&& 0xf

/-- `get_len` -/
def getLen (word : Nat) : Nat := (word >>> 20) &&& 0xff

/-- `get_event_ch` -/
def getEventCh (word : Nat) : Nat := (word >>> 12) &&& 0xff

/-- `get_event_nr` -/
def getEventNr (word : Nat) : Nat := word &&& 0xfff

/-! ## Events -/

/-- `l4events_event_t`: the object has `room` bytes for the text, and behind it is what else is in memory. -/
structure Event where
  len : Nat
  room : Nat
  str : Bytes

/-- `get_first_word` -/
def Event.firstWord (e : Event) : Nat := e.str.load32 0

/-- `set_first_word` -/
def Event.setFirstWord (word : Nat) (e : Event) : Event := { e with str := e.str.store32 0 word }

/-- `copy_evt_to_evt` -/
def copyEvtToEvt (src dst : Event) : Event :=
  { dst with len := src.len, str := fun i => if i < src.len then src.str i else dst.str i }

/-- The copy reads and writes in the objects only. -/
def CopyInside (src dst : Event) : Prop := src.len ≤ src.room ∧ src.len ≤ dst.room

/-! ## Messages -/

/-- A message: the two words in registers, and the string of a long one. -/
structure Message where
  cr : Nat
  w1 : Nat
  string : Option Bytes

/-- The kernel copies the string of a long message into the text of the event. -/
def Event.receiveString (s : Option Bytes) (e : Event) : Event :=
  match s with
  | none => e
  | some s => { e with str := fun i => if i < maxBufferSize then s i else e.str i }

/-- A message with an event. A long one has the size of the string in the second word. -/
def eventMessage (cr : Nat) (e : Event) : Message :=
  if e.len ≤ shortBufferSize then { cr, w1 := e.firstWord, string := none }
  else { cr, w1 := maxBufferSize, string := some e.str }

/-- `l4events_send`, where there is no number yet. -/
def sendMessage (cmd eventCh : Nat) (evt : Event) : Message :=
  eventMessage (createControlWord cmd evt.len eventCh 0) evt

/-- The end of `l4events_receive`. -/
def receiveMessage (short : Bool) (m : Message) (evt : Event) : Event :=
  if short then { evt.setFirstWord m.w1 with len := getLen m.cr }
  else
    let evt := { evt.receiveString m.string with len := getLen m.cr }
    if evt.len ≤ shortBufferSize then evt.setFirstWord m.w1 else evt

/-! ## The server -/

/-- The event that `server_loop` extracts from a message. -/
def extract (m : Message) (event : Event) : Event :=
  let event := { event.receiveString m.string with len := getLen m.cr }
  if event.len < 5 then event.setFirstWord m.w1 else event

/-- `event_item_t`, without the lists of tasks -/
structure EventItem where
  eventCh : Nat
  eventNr : Nat
  event : Event

/-- The block of the heap for an event: `heap` are the bytes at its text. -/
def eventBlock (len : Nat) (heap : Bytes) : Event := { len := 0, room := len, str := heap }

/-- The event that `server_send_event` creates. -/
def createEvent (eventCh eventNr : Nat) (event : Event) (heap : Bytes) : EventItem :=
  { eventCh, eventNr, event := copyEvtToEvt event (eventBlock event.len heap) }

/-- The number of the event after `eventNr`. -/
def nextEventNr (eventNr : Nat) : Nat := if eventNr + 1 ≥ 4096 then 1 else eventNr + 1

/-- The test of `server_receive_event`, and of `send_event_to_lower_priority` for a thread that waits. -/
def Found (item : EventItem) (len eventCh : Nat) : Prop :=
  item.event.len ≤ len ∧ (eventCh ≠ 0 ∧ item.eventCh = eventCh ∨ eventCh = 0)

/-- The event is handed to `receive_event_reply` by value. -/
def Event.byValue (e : Event) : Event := { e with room := maxBufferSize }

/-- `receive_event_reply`, with the result `L4EVENTS_OK` -/
def receiveEventReply (item : EventItem) : Message :=
  eventMessage (createControlWord 0 item.event.byValue.len item.eventCh item.eventNr) item.event.byValue

/-- `send_event_reply` -/
def sendEventReply (result eventNr : Nat) : Message := ⟨createControlWord result 0 0 eventNr, 0, none⟩

end L4env.Events
