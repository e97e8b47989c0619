import L4env.Dsi.PacketRun

/-!
# Data areas of DSI

`dsi_packet_add_data` checks the offset of an area and the sum of offset and size against the size of the
data area, in 32 bits. So an area that goes beyond the end of the address space and comes back below the
size passes the check. In the runs without such an area the receiver is told of areas inside the data only.
Both components have the same dataspace as data area.
-/

namespace L4env.Dsi

namespace Stream

variable {s s' : Stream} {p i : Nat} {addr size flags offs : BitVec 32}

/-- The range lies in the data of the stream and is not empty. -/
def InData (s : Stream) (offs size : BitVec 32) : Prop :=
  size ≠ 0 ∧ offs.toNat + size.toNat ≤ s.sender.dataSize.toNat

/-- The area passes the check although its end is beyond the end of the address space: the sum wraps
around. -/
def Wraps (s : Stream) (addr size flags : BitVec 32) : Prop :=
  kindOf flags = .data ∧ addr - s.sender.dataArea ≤ s.sender.dataSize ∧
    4294967296 ≤ (addr - s.sender.dataArea).toNat + size.toNat ∧
    addr - s.sender.dataArea + size ≤ s.sender.dataSize

/-- An event that adds no area which wraps around. -/
def Sound (s : Stream) : Event → Prop
  | .addData _ addr size flags => ¬ s.Wraps addr size flags
  | _ => True

/-- The states of a stream whose sender adds no area that wraps around. -/
inductive SoundReachable (cfg : StreamCfg) : Stream → Prop
  | init (sendArea sendSize recvArea : BitVec 32) :
      SoundReachable cfg (.init cfg sendArea sendSize recvArea)
  | step {s s' : Stream} {a : Event} (h : SoundReachable cfg s) (ha : s.Allowed a) (hsound : s.Sound a)
      (hrun : s.step a = .ok s') : SoundReachable cfg s'

theorem SoundReachable.reachable {cfg : StreamCfg} (H : SoundReachable cfg s) : Reachable cfg s := by
  induction H with
  | init sendArea sendSize recvArea => exact .init sendArea sendSize recvArea
  | step _ ha _ hrun ih => exact .step ih ha hrun

/-! ## The check -/

theorem kindOf_eq_data : kindOf flags = .data ↔
    flags &&& dataAreaGap = 0 ∧ flags &&& dataAreaEos = 0 ∧ flags &&& dataAreaPhys = 0 := by
  have hphys : flags &&& (dataAreaGap ||| dataAreaEos ||| dataAreaPhys) &&& dataAreaPhys =
      flags &&& dataAreaPhys := by
    rw [BitVec.and_assoc]
    rfl
  have hzero : flags &&& (dataAreaGap ||| dataAreaEos ||| dataAreaPhys) = 0 ↔
      (flags &&& dataAreaGap = 0 ∧ flags &&& dataAreaEos = 0) ∧ flags &&& dataAreaPhys = 0 := by
    rw [BitVec.and_or_distrib_left, BitVec.and_or_distrib_left]
    exact BitVec.or_eq_zero_iff.trans (and_congr_left' BitVec.or_eq_zero_iff)
  rw [← and_assoc, ← hzero, kindOf]
  constructor
  · intro h
    by_contra hne
    rw [if_neg hne] at h
    split at h
    · cases h
    · split at h <;> cases h
  · intro h
    rw [h]
    rfl

/-- What the check of a data area lets through lies in the data, unless it wraps around. -/
theorem inData_iff (hoffs : ¬ s.sender.dataSize < addr - s.sender.dataArea)
    (hsum : ¬ s.sender.dataSize < addr - s.sender.dataArea + size) (hsize : size ≠ 0)
    (hkind : kindOf flags = .data) :
    s.InData (addr - s.sender.dataArea) size ↔ ¬ s.Wraps addr size flags := by
  have hadd : (addr - s.sender.dataArea + size).toNat =
      ((addr - s.sender.dataArea).toNat + size.toNat) % 4294967296 := BitVec.toNat_add ..
  have hlt := (addr - s.sender.dataArea).isLt
  have hlt' := size.isLt
  rw [BitVec.not_lt, BitVec.le_def] at hoffs hsum
  simp only [InData, Wraps, hkind, BitVec.le_def, true_and, hsize, ne_eq, not_false_eq_true]
  rw [hadd] at hsum ⊢
  omega

/-! ## What is added -/

/-- The areas of data that were added, and the one that waits for an element, lie in the data. -/
structure AddsInside (s : Stream) : Prop where
  added : ∀ k, ∀ a ∈ s.sender.added k, a.kind = .data → s.InData a.addr a.size
  searching : ∀ p offs size flags i, s.sender.pc = .searching p offs size flags i →
    kindOf flags = .data → s.InData offs size

/-- A step that adds no area and begins no search. -/
theorem AddsInside.congr (A : s.AddsInside) (hsize : s'.sender.dataSize = s.sender.dataSize)
    (hadded : s'.sender.added = s.sender.added)
    (hpc : ∀ p offs size flags i, s'.sender.pc = .searching p offs size flags i →
      ∃ i, s.sender.pc = .searching p offs size flags i) : s'.AddsInside := by
  refine ⟨?_, fun p offs size flags i h hkind => ?_⟩
  · rw [hadded]
    simpa only [InData, hsize] using A.added
  · obtain ⟨i, h⟩ := hpc p offs size flags i h
    simpa only [InData, hsize] using A.searching p offs size flags i h hkind

theorem AddsInside.addData (A : s.AddsInside) (p : Nat) (hsound : ¬ s.Wraps addr size flags) :
    (s.addData p addr size flags).AddsInside := by
  -- the search of an element for an area that is inside if it is one of data
  have search : ∀ offs, (kindOf flags = .data → s.InData offs size) → AddsInside { s with
      sender := { s.sender with pc := .searching p offs size flags s.sender.nextSgElem } } := by
    intro offs hin
    refine ⟨A.added, fun p' offs' size' flags' i h hkind => ?_⟩
    cases h
    exact hin hkind
  simp only [Stream.addData]
  split
  · exact A
  · split
    · split
      · exact A
      · rename_i hcheck
        simp only [not_or] at hcheck
        exact search _ fun hkind => (inData_iff hcheck.1 hcheck.2.1 hcheck.2.2 hkind).mpr hsound
    · rename_i hkind
      rw [← kindOf_eq_data] at hkind
      split
      · exact search _ fun h => absurd h hkind
      · exact search _ fun h => absurd h hkind

theorem fillElem_sender (p : Nat) (offs size flags : BitVec 32) (e : Nat) :
    (s.fillElem p offs size flags e).sender = { s.sender with
      pc := .ready
      added := Function.update s.sender.added (s.sender.serial p)
        (s.sender.added (s.sender.serial p) ++ [{ kind := kindOf flags, addr := offs, size }]) } := by
  by_cases h : (s.packets p).sgLen = 0
  · simp [fillElem, setElem, setPacket, h]
  · simp [fillElem, setElem, setPacket, h]

theorem AddsInside.searchRound (A : s.AddsInside) (hpc : s.sender.pc = .searching p offs size flags i)
    (hrun : s.searchRound p offs size flags i = .ok s') : s'.AddsInside := by
  simp only [Stream.searchRound] at hrun
  split at hrun
  · split at hrun
    · cases hrun
    · cases hrun
      refine ⟨fun k a ha hkind => ?_, fun p' offs' size' flags' i' h => ?_⟩
      · rw [fillElem_sender] at ha
        rw [InData, fillElem_sender]
        by_cases hk : k = s.sender.serial p
        · have ha : a ∈ s.sender.added (s.sender.serial p) ∨
              a = { kind := kindOf flags, addr := offs, size } := by
            simpa [setElem, hk] using ha
          obtain h | rfl := ha
          · exact A.added _ a h hkind
          · exact A.searching _ _ _ _ _ hpc hkind
        · exact A.added k a (by simpa [setElem, hk] using ha) hkind
      · rw [fillElem_sender] at h
        cases h
  · split at hrun
    · cases hrun
    · cases hrun
      refine A.congr rfl rfl fun p' offs' size' flags' i' h => ?_
      cases h
      exact ⟨i, hpc⟩

theorem AddsInside.step (A : s.AddsInside) {a : Event} (hsound : s.Sound a)
    (hrun : s.step a = .ok s') : s'.AddsInside := by
  have same : ∀ {s'' : Stream}, (.ok s'' : Except Panic Stream) = .ok s' → s''.sender = s.sender →
      s'.AddsInside := by
    rintro _ ⟨⟩ hsender
    exact A.congr (by rw [hsender]) (by rw [hsender]) fun p offs size flags i h => ⟨i, hsender ▸ h⟩
  have free : ∀ {s'' : Stream}, (.ok s'' : Except Panic Stream) = .ok s' →
      s''.sender.dataSize = s.sender.dataSize → s''.sender.added = s.sender.added →
      (s''.sender.pc = .ready ∨ s''.sender.pc = .waiting ∨ s''.sender.pc = s.sender.pc) →
      s'.AddsInside := by
    rintro _ ⟨⟩ hsize hadded hpc
    refine A.congr hsize hadded fun p offs size flags i h => ?_
    rw [h] at hpc
    obtain hpc | hpc | hpc := hpc
    · cases hpc
    · cases hpc
    · exact ⟨i, hpc.symm⟩
  cases a with
  | sendGet block =>
    simp only [Stream.step, Stream.sendGet] at hrun
    split at hrun
    · split at hrun
      · exact free hrun rfl rfl (.inr (.inl rfl))
      · exact same hrun rfl
    · exact free hrun rfl rfl (.inl rfl)
  | sendWakeup => exact free hrun rfl rfl (.inl rfl)
  | addData p addr size flags =>
    cases hrun
    exact A.addData p hsound
  | search =>
    simp only [Stream.step] at hrun
    split at hrun
    · rename_i hpc
      exact A.searchRound hpc hrun
    · exact same hrun rfl
  | sendCommit p =>
    simp only [Stream.step, Stream.sendCommit] at hrun
    split at hrun
    · exact same hrun rfl
    · exact free hrun rfl rfl (.inr (.inr rfl))
  | recvGet block =>
    simp only [Stream.step, Stream.recvGet] at hrun
    split at hrun
    · split at hrun <;> exact same hrun rfl
    · exact same hrun rfl
  | recvWakeup => exact same hrun rfl
  | getData p =>
    refine same hrun ?_
    rw [Stream.getData]
    split <;> rfl
  | recvCommit p => exact same hrun rfl
  | release =>
    simp only [Stream.step] at hrun
    split at hrun
    · simp only [releaseRound] at hrun
      split at hrun
      · split at hrun
        · cases hrun
        · exact same hrun rfl
      · split at hrun
        · cases hrun
        · exact same hrun rfl
    · exact same hrun rfl

theorem SoundReachable.addsInside {cfg : StreamCfg} (H : SoundReachable cfg s) : s.AddsInside := by
  induction H with
  | init sendArea sendSize recvArea => exact ⟨nofun, nofun⟩
  | step _ _ hsound hrun ih => exact ih.step hsound hrun

/-! ## A single element -/

/-- No packet ever has an element. -/
structure Single (s : Stream) : Prop where
  numSgElems : s.numSgElems = 1
  nextSgElem : s.sender.nextSgElem = 0
  sgLen : ∀ p, (s.packets p).sgLen = 0
  rxSem : ∀ p, (s.packets p).rxSem ≤ 0
  waiting : s.receiver.pc = .waiting → (s.packets s.receiver.nextPacket).rxSem < 0
  holds : ∀ p, s.receiver.holds p = false
  searching : ∀ p offs size flags i, s.sender.pc = .searching p offs size flags i → i = 0

/-- The search comes back to the only element at once, or goes on behind it. -/
theorem Single.searchRound (S : s.Single) (hpc : s.sender.pc = .searching p offs size flags i) :
    s.searchRound p offs size flags i = .error .noSgElem := by
  obtain rfl := S.searching _ _ _ _ _ hpc
  simp only [Stream.searchRound, S.numSgElems, S.nextSgElem, Nat.mod_one, setElem, if_true, ite_self]

/-- A step of the sender that begins no search, or of the receiver, who gets no packet. -/
theorem Single.congr (S : s.Single) (hn : s'.numSgElems = s.numSgElems)
    (hnext : s'.sender.nextSgElem = s.sender.nextSgElem) (hrecv : s'.receiver.holds = s.receiver.holds)
    (hlen : ∀ p, (s'.packets p).sgLen = (s.packets p).sgLen ∨ (s'.packets p).sgLen = 0)
    (hsem : ∀ p, (s'.packets p).rxSem ≤ (s.packets p).rxSem)
    (hwait : s'.receiver.pc = .waiting → (s'.packets s'.receiver.nextPacket).rxSem < 0)
    (hpc : ∀ p offs size flags i, s'.sender.pc = .searching p offs size flags i → i = 0) : s'.Single where
  numSgElems := hn.trans S.numSgElems
  nextSgElem := hnext.trans S.nextSgElem
  sgLen p := (hlen p).elim (fun h => h.trans (S.sgLen p)) id
  rxSem p := (hsem p).trans (S.rxSem p)
  waiting := hwait
  holds p := hrecv ▸ S.holds p
  searching := hpc

theorem Single.setPacket (S : s.Single) (p : Nat) {f : Packet → Packet}
    (hlen : (f (s.packets p)).sgLen = 0) (hsem : (f (s.packets p)).rxSem ≤ (s.packets p).rxSem) :
    (s.setPacket p f).Single := by
  have hle : ∀ q, ((s.setPacket p f).packets q).rxSem ≤ (s.packets q).rxSem := by
    intro q
    by_cases hq : q = p
    · rw [hq]
      simpa [Stream.setPacket] using hsem
    · simp [Stream.setPacket, hq]
  refine S.congr rfl rfl rfl (fun q => ?_) hle (fun h => ?_) S.searching
  · by_cases hq : q = p
    · rw [hq]
      exact .inr (by simpa [Stream.setPacket] using hlen)
    · exact .inl (by simp [Stream.setPacket, hq])
  · exact (hle _).trans_lt (S.waiting h)

/-- The work thread of the sender goes on, but not with a search. -/
theorem Single.setSender (S : s.Single) {x : Sender} (hnext : x.nextSgElem = s.sender.nextSgElem)
    (hpc : ∀ p offs size flags i, x.pc = .searching p offs size flags i → i = 0) :
    Single { s with sender := x } :=
  S.congr rfl hnext rfl (fun _ => .inl rfl) (fun _ => le_rfl) S.waiting hpc

theorem Single.setReceiver (S : s.Single) {x : Receiver} (hholds : x.holds = s.receiver.holds)
    (hwait : x.pc = .waiting → (s.packets x.nextPacket).rxSem < 0) : Single { s with receiver := x } :=
  S.congr rfl rfl hholds (fun _ => .inl rfl) (fun _ => le_rfl) hwait S.searching

theorem Single.gotSendPacket (S : s.Single) : s.gotSendPacket.Single :=
  (S.setPacket s.sender.nextPacket rfl le_rfl).setSender rfl nofun

theorem Single.addData (S : s.Single) (p : Nat) : (s.addData p addr size flags).Single := by
  have search : ∀ offs, Single { s with
      sender := { s.sender with pc := .searching p offs size flags s.sender.nextSgElem } } := by
    refine fun offs => S.setSender rfl fun p' offs' size' flags' i h => ?_
    cases h
    exact S.nextSgElem
  simp only [Stream.addData]
  split
  · exact S
  · split
    · split
      · exact S
      · exact search _
    · split
      · exact search _
      · exact search _

theorem Single.step (S : s.Single) {a : Event} (ha : s.Allowed a) (hrun : s.step a = .ok s') :
    s'.Single := by
  cases a with
  | sendGet block =>
    have hdown : ∀ p, (s.setPacket p fun k => { k with txSem := k.txSem - 1 }).Single :=
      fun p => S.setPacket p (S.sgLen p) le_rfl
    simp only [Stream.step, Stream.sendGet] at hrun
    split at hrun
    · split at hrun
      · cases hrun
        exact (hdown _).setSender rfl (by simp)
      · cases hrun
        exact S
    · cases hrun
      exact (hdown _).gotSendPacket
  | sendWakeup =>
    cases hrun
    exact S.gotSendPacket
  | addData p addr size flags =>
    cases hrun
    exact S.addData p
  | search =>
    obtain ⟨p, offs, size, flags, i, hpc⟩ := ha
    simp only [Stream.step, hpc, S.searchRound hpc] at hrun
    cases hrun
  | sendCommit p =>
    simp only [Stream.step, Stream.sendCommit, S.sgLen p, if_true] at hrun
    cases hrun
    exact S
  | recvGet block =>
    simp only [Stream.step, Stream.recvGet, S.rxSem _, if_true] at hrun
    split at hrun
    · cases hrun
      have hsem := S.rxSem s.receiver.nextPacket
      have hlt : (s.packets s.receiver.nextPacket).rxSem - 1 < 0 := by omega
      refine (S.setPacket s.receiver.nextPacket (S.sgLen _) (Int.sub_le_self _ Int.one_nonneg)).setReceiver
        rfl fun _ => ?_
      simpa [Stream.setPacket] using hlt
    · cases hrun
      exact S
  | recvWakeup => exact absurd ha.2 (not_le_of_gt (S.waiting ha.1))
  | getData p => cases (S.holds p).symm.trans ha.2
  | recvCommit p => cases (S.holds p).symm.trans ha.2.1
  | release =>
    obtain ⟨p, h, i, hpc⟩ := ha
    simp only [Stream.step, hpc, releaseRound, S.sgLen p, Nat.not_lt_zero, if_false] at hrun
    split at hrun
    · cases hrun
    · cases hrun
      exact (S.setPacket p (S.sgLen p) le_rfl).setReceiver rfl (by simp)

theorem Reachable.single {cfg : StreamCfg} (H : Reachable cfg s)
    (hone : cfg.numPackets * cfg.maxSg = 1) : s.Single := by
  induction H with
  | init sendArea sendSize recvArea =>
    refine ⟨?_, rfl, fun _ => rfl, fun _ => le_rfl, nofun, fun _ => rfl, nofun⟩
    change cfg.numPackets * cfg.maxSg % 4294967296 = 1
    rw [hone]
  | step _ ha hrun ih => exact ih.step ha hrun

/-! ## No element -/

theorem fillElem_numSgElems (p : Nat) (offs size flags : BitVec 32) (e : Nat) :
    (s.fillElem p offs size flags e).numSgElems = s.numSgElems := by
  by_cases h : (s.packets p).sgLen = 0
  · simp [fillElem, setElem, setPacket, h]
  · simp [fillElem, setElem, setPacket, h]

theorem step_numSgElems {a : Event} (hrun : s.step a = .ok s') : s'.numSgElems = s.numSgElems := by
  cases a with
  | search =>
    simp only [Stream.step] at hrun
    split at hrun
    · simp only [Stream.searchRound] at hrun
      split at hrun <;> split at hrun <;> cases hrun
      · exact fillElem_numSgElems ..
      · rfl
    · cases hrun
      rfl
  | release =>
    simp only [Stream.step, releaseRound] at hrun
    repeat' split at hrun
    all_goals cases hrun <;> rfl
  | getData p =>
    cases hrun
    rw [Stream.getData]
    split <;> rfl
  | sendGet block =>
    simp only [Stream.step, Stream.sendGet] at hrun
    repeat' split at hrun
    all_goals cases hrun <;> rfl
  | addData p addr size flags =>
    simp only [Stream.step, Stream.addData] at hrun
    repeat' split at hrun
    all_goals cases hrun <;> rfl
  | sendCommit p =>
    simp only [Stream.step, Stream.sendCommit] at hrun
    split at hrun <;> cases hrun <;> rfl
  | recvGet block =>
    simp only [Stream.step, Stream.recvGet] at hrun
    repeat' split at hrun
    all_goals cases hrun <;> rfl
  | _ =>
    cases hrun
    rfl

theorem Reachable.numSgElems {cfg : StreamCfg} (H : Reachable cfg s) :
    s.numSgElems = cfg.numPackets * cfg.maxSg % 4294967296 := by
  induction H with
  | init sendArea sendSize recvArea => rfl
  | step _ _ hrun ih => exact (step_numSgElems hrun).trans ih

/-! ## The receiver -/

/-- What the receiver gets of a packet was added to a packet. -/
theorem Inv.getData_added {v : Nat → View} (I : s.Inv v) (hh : s.receiver.holds p = true)
    {data : AreaKind × BitVec 32 × BitVec 32} (hdata : (s.getData p).1 = some data) :
    ∃ k, s.areaOf data ∈ s.sender.added k := by
  obtain ⟨l, l', hv⟩ := I.core.view_receiving hh
  have hs := I.core.shows p (I.core.receiving_lt hh)
  rw [hv] at hs
  obtain ⟨-, -, -, -, -, -, -, hadded⟩ := hs
  cases l' with
  | nil =>
    rw [(I.core.readData hh (e := 0)).1 hv] at hdata
    cases hdata
  | cons e l' =>
    rw [((I.core.readData hh).2 l' hv).1] at hdata
    cases hdata
    rw [areaOf_elemData _ rfl]
    refine ⟨s.sender.serial p, ?_⟩
    rw [← hadded]
    exact List.mem_map_of_mem (List.mem_append_right l List.mem_cons_self)

/-- In every run in which the sender adds no area that wraps around, an area of data that the receiver gets
is not empty and lies in its data area. -/
theorem areas_inside {cfg : StreamCfg} (hfits : cfg.ctrlDsSize < 4294967296) (H : SoundReachable cfg s)
    (ha : s.Allowed (.getData p)) (hdata : (s.getData p).1 = some (.data, addr, size)) :
    s.InData (addr - s.receiver.dataArea) size := by
  obtain hlt | h2 := Nat.lt_or_ge (cfg.numPackets * cfg.maxSg) 2
  · obtain hzero | hone : cfg.numPackets * cfg.maxSg = 0 ∨ cfg.numPackets * cfg.maxSg = 1 := by omega
    · have hn : s.numSgElems = 0 := by rw [H.reachable.numSgElems, hzero]
      simp only [Stream.getData, hn, Nat.not_lt_zero, if_false] at hdata
      cases hdata
    · cases ((H.reachable.single hone).holds p).symm.trans ha.2
  · obtain ⟨v, I⟩ := H.reachable.inv h2 hfits
    obtain ⟨k, hk⟩ := I.getData_added ha.2 hdata
    exact H.addsInside.added k _ hk rfl

theorem areas_inside_page : ∃ s, SoundReachable { numPackets := 2, maxSg := 1 } s ∧
    s.InData (0x41000 - s.receiver.dataArea) 0x1000 := by
  have hget := SoundReachable.step
    (@SoundReachable.init { numPackets := 2, maxSg := 1 } 0x10000 0x2000 0x40000)
    (a := .sendGet true) rfl trivial rfl
  have hadd := hget.step (a := .addData 0 0x11000 0x1000 0) ⟨rfl, rfl⟩
    (fun h => absurd h.2.2.1 (by decide)) rfl
  have hfound := hadd.step (a := .search) ⟨_, _, _, _, _, rfl⟩ trivial rfl
  have hcommit := hfound.step (a := .sendCommit 0) ⟨rfl, rfl⟩ trivial rfl
  have hrecv := hcommit.step (a := .recvGet true) rfl trivial rfl
  exact ⟨_, hrecv, areas_inside (p := 0) (by decide) hrecv ⟨rfl, rfl⟩ rfl⟩

/-- The receiver is told of an area of nearly four gigabytes in a data area of two pages. -/
theorem areas_not_inside : ¬∀ s p addr size, Reachable { numPackets := 2, maxSg := 1 } s →
    s.Allowed (.getData p) → (s.getData p).1 = some (.data, addr, size) →
    s.InData (addr - s.receiver.dataArea) size := by
  intro H
  have hget := Reachable.step (@Reachable.init { numPackets := 2, maxSg := 1 } 0x10000 0x2000 0x40000)
    (a := .sendGet true) rfl rfl
  have hadd := hget.step (a := .addData 0 0x11000 0xfffff001 0) ⟨rfl, rfl⟩ rfl
  have hfound := hadd.step (a := .search) ⟨_, _, _, _, _, rfl⟩ rfl
  have hcommit := hfound.step (a := .sendCommit 0) ⟨rfl, rfl⟩ rfl
  have hrecv := hcommit.step (a := .recvGet true) rfl rfl
  exact absurd (H _ 0 0x41000 0xfffff001 hrecv ⟨rfl, rfl⟩ rfl).2 (by decide)

end Stream

end L4env.Dsi
