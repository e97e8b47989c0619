import L4env.Dsi.PacketInv

/-!
# Packets of DSI: runs

In every run of a well-behaved sender and a well-behaved receiver the packets in use have disjoint
lists, an area that is added finds an element, and the receiver reads what the sender has added. This
takes at least two elements in the control area: with a single one, `__get_sg_elem` takes the element it
has found for the end of an unsuccessful search.
-/

namespace L4env.Dsi

namespace Stream

variable {s s' : Stream} {v : Nat → View} {p q e h i : Nat} {l l' : List Nat}

/-- A step that changes nothing the lists depend on. -/
theorem Core.congr (C : s.Core v) {spc : SendPc} {rpc : RecvPc} (hn : s'.numPackets = s.numPackets)
    (he : s'.numSgElems = s.numSgElems) (hm : s'.maxSgLen = s.maxSgLen)
    (hsg : s'.sgLists = s.sgLists)
    (hpk : ∀ p, (s'.packets p).sgLen = (s.packets p).sgLen ∧
      (s'.packets p).sgList = (s.packets p).sgList ∧ (s'.packets p).sgIdx = (s.packets p).sgIdx)
    (hS : s'.sender = { s.sender with pc := spc }) (hR : s'.receiver = { s.receiver with pc := rpc })
    (hsearch : ∀ p offs size flags i, spc = .searching p offs size flags i →
      i < s.numSgElems ∧ s.sender.holds p = true ∧ (s.packets p).sgLen < s.maxSgLen ∧ s.Finds i)
    (hrel : ∀ p h i, s.receiver.pc = .releasing p h i ↔ rpc = .releasing p h i) : s'.Core v := by
  refine ⟨hn ▸ C.packets_pos, ?_, he ▸ C.two_le, he ▸ C.le_last,
    C.lists.congr hn he hm (fun e => by rw [hsg]) fun _ => rfl, fun p hp => ?_, fun p hp => ?_, ?_, ?_,
    ?_, ?_⟩
  · rw [hn, he, hm]
    exact C.elems_eq
  · refine (C.shows p (hn ▸ hp)).congr ⟨(hpk p).1, (hpk p).2.1, (hpk p).2.2, fun e _ => by rw [hsg], ?_, ?_,
      fun _ => ?_, ?_, ?_, fun _ => ?_, fun h i hpc => ?_⟩ <;> simp only [hS, hR]
    exact (hrel p h i).mp hpc
  · simp only [hS, hR]
    exact C.outside p (hn ▸ hp)
  · have R := C.ring
    refine ⟨?_, ?_, ?_, ?_, ?_, ?_, ?_, ?_, ?_⟩ <;> simp only [hn, hS, hR]
    · exact R.sendNext
    · exact R.recvNext
    · exact R.le
    · exact R.window
    · exact R.queued
    · exact R.received
    · exact R.fresh
    · exact R.unread
    · exact R.done
  · simp only [hS, he]
    exact C.nextElem
  · intro p offs size flags i hpc
    rw [hS] at hpc
    obtain ⟨h1, h2, h3, k, h4, h5⟩ := hsearch p offs size flags i hpc
    simp only [he, hm, hS, (hpk p).1]
    exact ⟨h1, h2, h3, k, by simpa only [he, hsg] using h4, by simpa only [he, hS] using h5⟩
  · intro p h i hpc
    rw [hR] at hpc
    rw [hn]
    exact C.releasing p h i ((hrel p h i).mpr hpc)

theorem Core.setSem (C : s.Core v) (q : Nat) {f : Packet → Packet}
    (hf : ∀ k, (f k).sgLen = k.sgLen ∧ (f k).sgList = k.sgList ∧ (f k).sgIdx = k.sgIdx) :
    (s.setPacket q f).Core v := by
  refine C.congr rfl rfl rfl rfl (fun p => ?_) rfl rfl C.searching fun _ _ _ => Iff.rfl
  by_cases hp : p = q
  · simpa [setPacket, hp] using hf _
  · simp [setPacket, hp]

theorem Core.nextSend_lt (C : s.Core v) : s.sender.nextPacket < s.numPackets := by
  rw [C.ring.sendNext]
  exact Nat.mod_lt _ C.packets_pos

theorem Core.nextRecv_lt (C : s.Core v) : s.receiver.nextPacket < s.numPackets := by
  rw [C.ring.recvNext]
  exact Nat.mod_lt _ C.packets_pos

/-! ## The sender gets and commits packets -/

theorem Ring.gotSend (R : s.Ring v) (hv : v s.sender.nextPacket = .free) :
    s.gotSendPacket.Ring (Function.update v s.sender.nextPacket (.sending [])) := by
  have hself : s.sender.gets % s.numPackets = s.sender.nextPacket := R.sendNext.symm
  have hne : ∀ p, (v p).Queued → p ≠ s.sender.nextPacket := by
    rintro p hp rfl
    rw [hv] at hp
    exact hp
  constructor
  · simp only [gotSendPacket, setPacket]
    rw [R.sendNext, Nat.mod_add_mod]
  · exact R.recvNext
  · exact R.le.trans (Nat.le_succ _)
  · intro k hk hlt
    obtain hlt | rfl := Nat.lt_succ_iff_lt_or_eq.mp hlt
    · obtain ⟨h1, h2⟩ := R.window k hk hlt
      have hkq := hne _ h1
      refine ⟨?_, ?_⟩
      · rw [Function.update_of_ne]
        · exact h1
        · exact hkq
      · simpa [gotSendPacket, setPacket, hkq] using h2
    · refine ⟨?_, ?_⟩
      · simp [gotSendPacket, setPacket, hself, View.Queued]
      · simp [gotSendPacket, setPacket, hself]
  · intro p hp hq
    by_cases hpq : p = s.sender.nextPacket
    · subst hpq
      simpa [gotSendPacket, setPacket, hself] using R.le
    · rw [Function.update_of_ne hpq] at hq
      obtain ⟨h1, h2, h3⟩ := R.queued p hp hq
      simp only [gotSendPacket, setPacket, Function.update_of_ne hpq]
      exact ⟨h1, h2.trans (Nat.lt_succ_self _), h3⟩
  · exact R.received
  · exact fun k hk => R.fresh k (Nat.le_of_succ_le hk)
  · exact R.unread
  · exact R.done

theorem Core.gotSend (C : s.Core v) (hv : v s.sender.nextPacket = .free) :
    s.gotSendPacket.Core (Function.update v s.sender.nextPacket (.sending [])) := by
  have hq := C.nextSend_lt
  have hfree := C.shows _ hq
  rw [hv] at hfree
  refine ⟨C.packets_pos, C.elems_eq, C.two_le, C.le_last,
    C.lists.congr rfl rfl rfl (fun _ => rfl) (elems_update (by rw [hv]; rfl)),
    C.shows_update rfl ?_ fun p _ hpq => ?_, fun p hp => ?_, ?_, C.nextElem, nofun, fun p h i hpc => ?_⟩
  · refine ⟨?_, hfree.2, ?_, ?_, ?_, ?_⟩
    · simp [gotSendPacket]
    · simp [gotSendPacket, setPacket]
    · simp [gotSendPacket, setPacket, Chain, IsSList, idx]
    · simp [gotSendPacket, setPacket, idx]
    · simpa [gotSendPacket, setPacket, areas] using (C.ring.fresh _ le_rfl).symm
  · constructor <;> simp [gotSendPacket, setPacket, hpq]
  · have hpq : p ≠ s.sender.nextPacket := (hq.trans_le hp).ne'
    simpa [gotSendPacket, setPacket, hpq] using C.outside p hp
  · exact C.ring.gotSend hv
  · obtain ⟨hp, l, hl⟩ := C.releasing p h i hpc
    have hpq : p ≠ s.sender.nextPacket := by
      rintro rfl
      rw [hv] at hl
      cases hl
    exact ⟨hp, l, by rw [Function.update_of_ne hpq, hl]⟩

theorem queued_update {w : View} (hw : w.Queued ↔ (v q).Queued) (p : Nat) :
    (Function.update v q w p).Queued ↔ (v p).Queued := by
  by_cases hp : p = q
  · rw [hp, Function.update_self]
    exact hw
  · rw [Function.update_of_ne hp]

/-- The views matter to the ring by the packets that are on their way. -/
theorem Ring.congr {v' : Nat → View} (R : s.Ring v) (hv : ∀ p, (v' p).Queued ↔ (v p).Queued) :
    s.Ring v' :=
  ⟨R.sendNext, R.recvNext, R.le, fun k hk hlt => ⟨(hv _).mpr (R.window k hk hlt).1, (R.window k hk hlt).2⟩,
    fun p hp hq => R.queued p hp ((hv p).mp hq), R.received, R.fresh, R.unread, R.done⟩

theorem Core.commitSend (C : s.Core v) (hpc : s.sender.pc = .ready) (hh : s.sender.holds p = true)
    (hlen : (s.packets p).sgLen ≠ 0) (hv : v p = .sending l) :
    (s.sendCommit p).Core (Function.update v p (.full l)) := by
  have hp := C.sending_lt hh
  have hs := C.shows p hp
  rw [hv] at hs
  obtain ⟨-, h2, h3, h4, -, h6⟩ := hs
  rw [sendCommit, if_neg hlen]
  have R : s.Ring (Function.update v p (.full l)) :=
    C.ring.congr (queued_update (by rw [hv]; exact Iff.rfl))
  refine ⟨C.packets_pos, C.elems_eq, C.two_le, C.le_last,
    C.lists.congr rfl rfl rfl (fun _ => rfl) (elems_update (by rw [hv]; rfl)),
    C.shows_update rfl ?_ fun q _ hqp => ?_, fun q hq => ?_,
    ⟨R.sendNext, R.recvNext, R.le, R.window, R.queued, R.received, R.fresh, R.unread, R.done⟩,
    C.nextElem, ?_, fun q h i hpc => ?_⟩
  · refine ⟨by simp, h2, ?_, ?_, h6⟩
    · simpa [setPacket] using h3
    · simpa [setPacket, Chain] using h4
  · constructor <;> simp [setPacket, hqp]
  · have hqp : q ≠ p := (hp.trans_le hq).ne'
    simpa [setPacket, hqp] using C.outside q hq
  · intro q offs size flags i hpc'
    cases hpc.symm.trans hpc'
  · obtain ⟨hq, l', hl'⟩ := C.releasing q h i hpc
    have hqp : q ≠ p := by
      rintro rfl
      cases hv.symm.trans hl'
    exact ⟨hq, l', by rw [Function.update_of_ne hqp, hl']⟩

/-! ## The receiver gets packets and reads them -/

theorem Ring.gotReceive (R : s.Ring v) (hn : 0 < s.numPackets)
    (hv : v s.receiver.nextPacket = .full l) (hhold : s.receiver.holds s.receiver.nextPacket = false) :
    s.gotReceivePacket.Ring (Function.update v s.receiver.nextPacket (.receiving [] l)) ∧
      s.sender.serial s.receiver.nextPacket = s.receiver.gets := by
  have hself : s.receiver.gets % s.numPackets = s.receiver.nextPacket := R.recvNext.symm
  have hq : s.receiver.nextPacket < s.numPackets := hself ▸ Nat.mod_lt _ hn
  have hqueued : (v s.receiver.nextPacket).Queued := by
    rw [hv]
    trivial
  obtain ⟨hle, hlt, -⟩ := R.queued _ hq hqueued
  have hserial : s.sender.serial s.receiver.nextPacket = s.receiver.gets := by
    have := (R.window s.receiver.gets le_rfl (hle.trans_lt hlt)).2
    rwa [hself] at this
  refine ⟨⟨R.sendNext, ?_, ?_, fun k hk hlt' => ?_, fun p hp hqp => ?_, fun p hp hh => ?_, R.fresh,
    fun k hk => R.unread k (Nat.le_of_succ_le hk), fun k hk => ?_⟩, hserial⟩
  · simp only [gotReceivePacket, setPacket]
    rw [R.recvNext, Nat.mod_add_mod]
  · exact hle.trans_lt hlt
  · obtain ⟨h1, h2⟩ := R.window k (Nat.le_of_succ_le hk) hlt'
    have hkq : k % s.numPackets ≠ s.receiver.nextPacket := by
      intro heq
      rw [heq, hserial] at h2
      exact Nat.not_succ_le_self _ (h2 ▸ hk)
    refine ⟨?_, h2⟩
    rw [Function.update_of_ne]
    · exact h1
    · exact hkq
  · have hpq : p ≠ s.receiver.nextPacket := by
      rintro rfl
      rw [Function.update_self] at hqp
      exact hqp
    rw [Function.update_of_ne hpq] at hqp
    obtain ⟨h1, h2, h3⟩ := R.queued p hp hqp
    refine ⟨Nat.lt_of_le_of_ne h1 fun heq => hpq ?_, h2, h3⟩
    have heq : s.receiver.gets = s.sender.serial p := heq
    rw [← hself, heq]
    exact h3.symm
  · by_cases hpq : p = s.receiver.nextPacket
    · subst hpq
      simp [gotReceivePacket, setPacket, hself]
    · have hh : s.receiver.holds p = true := by
        simpa [gotReceivePacket, setPacket, hpq] using hh
      obtain ⟨h1, h2⟩ := R.received p hp hh
      simp only [gotReceivePacket, setPacket, Function.update_of_ne hpq]
      exact ⟨h1.trans (Nat.lt_succ_self _), h2⟩
  · obtain hlt' | rfl := Nat.lt_succ_iff_lt_or_eq.mp hk
    · obtain ⟨p, hp, hh, hk⟩ | hk := R.done k hlt'
      · have hpq : p ≠ s.receiver.nextPacket := by
          rintro rfl
          cases hhold.symm.trans hh
        refine .inl ⟨p, hp, ?_, ?_⟩
        · simpa [gotReceivePacket, setPacket, hpq] using hh
        · simpa [gotReceivePacket, setPacket, hpq] using hk
      · exact .inr hk
    · exact .inl ⟨_, hq, by simp [gotReceivePacket], by simp [gotReceivePacket, setPacket]⟩

theorem Core.gotReceive (C : s.Core v) (hpc : ∀ p h i, s.receiver.pc ≠ .releasing p h i)
    (hv : v s.receiver.nextPacket = .full l) :
    s.gotReceivePacket.Core (Function.update v s.receiver.nextPacket (.receiving [] l)) := by
  have hq := C.nextRecv_lt
  have hs := C.shows _ hq
  rw [hv] at hs
  obtain ⟨h1, h2, h3, h4, h5⟩ := hs
  obtain ⟨R, hserial⟩ := C.ring.gotReceive C.packets_pos hv h2
  refine ⟨C.packets_pos, C.elems_eq, C.two_le, C.le_last,
    C.lists.congr rfl rfl rfl (fun _ => rfl) (elems_update (by rw [hv]; rfl)),
    C.shows_update rfl ?_ fun p _ hpq => ?_, fun p hp => ?_, R, C.nextElem,
    fun p offs size flags i hpc' => ?_, nofun⟩
  · refine ⟨h1, ?_, ?_, ?_, ?_, ?_, ?_, h5⟩
    · simp [gotReceivePacket]
    · simpa [gotReceivePacket, setPacket] using h3
    · simpa [gotReceivePacket, setPacket, Chain] using h4
    · simpa [gotReceivePacket, setPacket, Chain] using h4
    · simpa [gotReceivePacket, setPacket] using hserial.symm
    · simpa [gotReceivePacket, setPacket, areas] using (C.ring.unread _ le_rfl).symm
  · constructor <;> simp [gotReceivePacket, setPacket, hpq, hpc]
  · have hpq : p ≠ s.receiver.nextPacket := (hq.trans_le hp).ne'
    simpa [gotReceivePacket, setPacket, hpq] using C.outside p hp
  · obtain ⟨h1, h2, h3, h4⟩ := C.searching p offs size flags i hpc'
    refine ⟨h1, h2, ?_, h4⟩
    by_cases hpq : p = s.receiver.nextPacket
    · simpa [gotReceivePacket, setPacket, hpq] using hpq ▸ h3
    · simpa [gotReceivePacket, setPacket, hpq] using h3

/-- The receiver is told of the areas as the elements describe them. -/
theorem areaOf_elemData (x : SgElem) (hs : s'.receiver.dataArea = s.receiver.dataArea) :
    s'.areaOf (s.elemData x) = elemArea x := by
  unfold elemData elemArea
  have hsub : s.receiver.dataArea + x.addr - s.receiver.dataArea = x.addr := by
    rw [BitVec.add_comm, BitVec.add_sub_cancel]
  cases hk : kindOf x.flags <;> simp [areaOf, hs, hsub]

/-- The receiver has read the element `e`. -/
def didRead (s : Stream) (p e : Nat) : Stream :=
  { s.setPacket p (fun k => { k with sgIdx := (s.sgLists e).next }) with
    receiver := { s.receiver with
      read := Function.update s.receiver.read (s.receiver.serial p)
        (s.receiver.read (s.receiver.serial p) ++ [elemArea (s.sgLists e)]) } }

theorem getData_eq (hidx : (s.packets p).sgIdx = e) (he : e < s.numSgElems) :
    s.getData p = (some (s.elemData (s.sgLists e)), s.didRead p e) := by
  have harea : (s.setPacket p fun k => { k with sgIdx := (s.sgLists e).next }).areaOf
      (s.elemData (s.sgLists e)) = elemArea (s.sgLists e) := areaOf_elemData _ rfl
  simp only [getData, hidx, he, if_true, harea]
  rfl

theorem Core.readData (C : s.Core v) (hh : s.receiver.holds p = true) :
    (v p = .receiving l [] → s.getData p = (none, s)) ∧
    ∀ l', v p = .receiving l (e :: l') → (s.getData p).1 = some (s.elemData (s.sgLists e)) ∧
      (s.getData p).2.Core (Function.update v p (.receiving (l ++ [e]) l')) := by
  have hp := C.receiving_lt hh
  have hs := C.shows p hp
  constructor
  · intro hv
    rw [hv] at hs
    have hidx : (s.packets p).sgIdx = sgElemLast := idx_eq_none hs.2.2.2.2.1
    have hle := C.le_last
    rw [getData, hidx, if_neg (Nat.not_lt.mpr hle)]
  · intro l' hv
    rw [hv] at hs
    obtain ⟨h1, h2, h3, h4, h5, h6, h7, h8⟩ := hs
    obtain ⟨hidx, -⟩ := idx_eq_some h5.1
    have he : e < s.numSgElems := C.lists.bound p hp e (by simp [hv, View.elems])
    have hrest : s.Chain (s.sgLists e).next l' := h5.2
    rw [getData_eq hidx he]
    refine ⟨rfl, ?_⟩
    have hread : s.areas (l ++ [e]) =
        s.receiver.read (s.receiver.serial p) ++ [elemArea (s.sgLists e)] := by
      rw [← h7]
      simp [areas]
    have R : s.Ring (Function.update v p (.receiving (l ++ [e]) l')) :=
      C.ring.congr (queued_update (by rw [hv]; exact Iff.rfl))
    obtain ⟨hlt, -⟩ := C.ring.received p hp hh
    refine ⟨C.packets_pos, C.elems_eq, C.two_le, C.le_last,
      C.lists.congr rfl rfl rfl (fun _ => rfl) (elems_update (by simp [hv, View.elems])),
      C.shows_update rfl ?_ fun q hq hqp => ?_, C.outside,
      ⟨R.sendNext, R.recvNext, R.le, R.window, R.queued, R.received, R.fresh, fun k hk => ?_,
        fun k hk => ?_⟩, C.nextElem, fun q offs size flags i hpc => ?_, fun q h i hpc => ?_⟩
    · refine ⟨h1, h2, ?_, ?_, ?_, h6, ?_, ?_⟩
      · simpa [didRead, setPacket] using h3
      · simpa [didRead, setPacket, Chain] using h4
      · simpa [didRead, setPacket, Chain] using hrest
      · simpa [didRead, setPacket, areas] using hread
      · simpa [didRead, setPacket, areas] using h8
    · have hserial : s.receiver.holds q = true → s.receiver.serial q ≠ s.receiver.serial p := by
        intro hh' heq
        have h1 := (C.ring.received q hq hh').2
        have h2 := (C.ring.received p hp hh).2
        exact hqp (h1.symm.trans ((congrArg (· % s.numPackets) heq).trans h2))
      constructor <;> simp +contextual [didRead, setPacket, hqp, hserial]
    · have hne : k ≠ s.receiver.serial p := (hlt.trans_le hk).ne'
      simpa [didRead, hne] using R.unread k hk
    · obtain ⟨p', hp', hh', hk'⟩ | hdone := R.done k hk
      · exact .inl ⟨p', hp', hh', hk'⟩
      · by_cases hne : k = s.receiver.serial p
        · exact .inl ⟨p, hp, hh, hne.symm⟩
        · exact .inr (by simpa [didRead, setPacket, hne] using hdone)
    · obtain ⟨h1, h2, h3, h4⟩ := C.searching q offs size flags i hpc
      refine ⟨h1, h2, ?_, h4⟩
      by_cases hqp : q = p
      · simpa [didRead, setPacket, hqp] using hqp ▸ h3
      · simpa [didRead, setPacket, hqp] using h3
    · obtain ⟨hq, l'', hl''⟩ := C.releasing q h i hpc
      have hqp : q ≠ p := by
        rintro rfl
        cases hv.symm.trans hl''
      exact ⟨hq, l'', by rw [Function.update_of_ne hqp, hl'']⟩

/-! ## The receiver releases packets -/

theorem Core.commitReceive (C : s.Core v) (hpc : s.receiver.pc = .ready)
    (hh : s.receiver.holds p = true) (hv : v p = .receiving l []) :
    (s.recvCommit p).Core (Function.update v p (.releasing l)) := by
  have hp := C.receiving_lt hh
  have hs := C.shows p hp
  rw [hv] at hs
  obtain ⟨h1, -, h3, h4, -, h6, h7, h8⟩ := hs
  rw [List.append_nil] at h3 h4 h8
  have hread : s.receiver.read (s.receiver.serial p) = s.sender.added (s.receiver.serial p) := by
    rw [← h7, h8, h6]
  have R : s.Ring (Function.update v p (.releasing l)) :=
    C.ring.congr (queued_update (by rw [hv]; exact Iff.rfl))
  refine ⟨C.packets_pos, C.elems_eq, C.two_le, C.le_last,
    C.lists.congr rfl rfl rfl (fun _ => rfl) (elems_update (by simp [hv, View.elems])),
    C.shows_update rfl ?_ fun q _ hqp => ?_, fun q hq => ?_,
    ⟨R.sendNext, R.recvNext, R.le, R.window, R.queued, fun q hq hh' => ?_, R.fresh, R.unread,
      fun k hk => ?_⟩, C.nextElem, fun q offs size flags i hpc => ?_, fun q h i hpc' => ?_⟩
  · refine ⟨h1, by simp [recvCommit], _, 0, rfl, ?_, ?_⟩
    · simpa [recvCommit, setPacket, Chain] using h4
    · simpa [recvCommit, setPacket] using h3.symm
  · constructor <;> simp [recvCommit, setPacket, hqp, hpc]
  · have hqp : q ≠ p := (hp.trans_le hq).ne'
    simpa [recvCommit, setPacket, hqp] using C.outside q hq
  · by_cases hqp : q = p
    · simp [recvCommit, hqp] at hh'
    · exact R.received q hq (by simpa [recvCommit, setPacket, hqp] using hh')
  · obtain ⟨q, hq, hh', hk'⟩ | hdone := R.done k hk
    · by_cases hqp : q = p
      · subst hqp hk'
        exact .inr hread
      · exact .inl ⟨q, hq, by simpa [recvCommit, setPacket, hqp] using hh', hk'⟩
    · exact .inr hdone
  · obtain ⟨h1, h2, h3, h4⟩ := C.searching q offs size flags i hpc
    refine ⟨h1, h2, ?_, h4⟩
    by_cases hqp : q = p
    · simpa [recvCommit, setPacket, hqp] using hqp ▸ h3
    · simpa [recvCommit, setPacket, hqp] using h3
  · cases hpc'
    exact ⟨hp, l, Function.update_self ..⟩

/-- The first element of a packet that is released becomes unused. -/
theorem Lists.release (L : s.Lists v) (hp : p < s.numPackets) (hv : v p = .releasing (e :: l)) :
    (s.setElem e fun x => { x with flags := sgElemUnused }).Lists
      (Function.update v p (.releasing l)) := by
  have hnd := L.nodup p hp
  rw [hv] at hnd
  obtain ⟨hnot, hnd'⟩ := List.nodup_cons.mp hnd
  have hmem : e ∈ (v p).elems := by
    rw [hv]
    exact List.mem_cons_self
  have hsub : ∀ q, (Function.update v p (.releasing l) q).elems ⊆ (v q).elems := by
    intro q
    by_cases hqp : q = p
    · rw [hqp, Function.update_self, hv]
      exact List.subset_cons_self e l
    · rw [Function.update_of_ne hqp]
      exact List.Subset.refl _
  refine ⟨fun q hq => ?_, fun q hq q' hq' hne => ?_, fun q hq x hx => ?_, fun x hx => ?_, fun q hq => ?_⟩
  · by_cases hqp : q = p
    · rw [hqp, Function.update_self]
      exact hnd'
    · rw [Function.update_of_ne hqp]
      exact L.nodup q hq
  · exact fun x hx hx' => L.disjoint q hq q' hq' hne (hsub q hx) (hsub q' hx')
  · exact L.bound q hq x (hsub q hx)
  · by_cases hxe : x = e
    · subst hxe
      refine iff_of_true (by simp [setElem]) fun q hq hx' => ?_
      by_cases hqp : q = p
      · rw [hqp, Function.update_self] at hx'
        exact hnot hx'
      · rw [Function.update_of_ne hqp] at hx'
        exact L.disjoint q hq p hp hqp hx' hmem
    · have hflags : ((s.setElem e fun x => { x with flags := sgElemUnused }).sgLists x).flags =
          (s.sgLists x).flags := by simp [setElem, hxe]
      rw [hflags, L.unused x hx]
      refine forall₂_congr fun q hq => not_congr ?_
      by_cases hqp : q = p
      · rw [hqp, Function.update_self, hv]
        simp [View.elems, hxe]
      · rw [Function.update_of_ne hqp]
  · by_cases hqp : q = p
    · rw [hqp, Function.update_self]
      have hlen := L.length p hp
      rw [hv] at hlen
      exact (Nat.le_succ _).trans hlen
    · rw [Function.update_of_ne hqp]
      exact L.length q hq

/-- A round of the release. It is the last one where no element is left. -/
theorem Core.releaseRound (C : s.Core v) (hpc : s.receiver.pc = .releasing p h i) :
    ∃ l, v p = .releasing l ∧
      (l = [] → s.releaseRound p h i = .ok { s.setPacket p (fun k => { k with txSem := k.txSem + 1 }) with
          receiver := { s.receiver with pc := .ready } } ∧
        ({ s with receiver := { s.receiver with pc := .ready } } : Stream).Core
          (Function.update v p .free)) ∧
      ∀ e l', l = e :: l' → ∃ s', s.releaseRound p h i = .ok s' ∧
        s'.Core (Function.update v p (.releasing l')) ∧ s'.numPackets = s.numPackets ∧
        s'.packets = s.packets ∧ s'.sender = s.sender ∧ s'.receiver.nextPacket = s.receiver.nextPacket ∧
        s'.receiver.pc ≠ .waiting := by
  obtain ⟨hp, l, hv⟩ := C.releasing p h i hpc
  have hs := C.shows p hp
  rw [hv] at hs
  obtain ⟨h1, h2, h', i', hpc', hchain, hlen⟩ := hs
  cases hpc.symm.trans hpc'
  refine ⟨l, hv, ?_, ?_⟩
  · rintro rfl
    have hlast : h = sgElemLast := idx_eq_none hchain
    refine ⟨?_, ?_⟩
    · have hend : ¬i < (s.packets p).sgLen := by
        rw [← hlen]
        simp
      rw [Stream.releaseRound, if_neg hend, if_neg (not_not.mpr hlast)]
      rfl
    · have R : s.Ring (Function.update v p .free) :=
        C.ring.congr (queued_update (by rw [hv]; exact Iff.rfl))
      refine ⟨C.packets_pos, C.elems_eq, C.two_le, C.le_last,
        C.lists.congr rfl rfl rfl (fun _ => rfl) (elems_update (by rw [hv]; rfl)),
        C.shows_update rfl ⟨h1, h2⟩ fun q _ hqp => ?_, C.outside,
        ⟨R.sendNext, R.recvNext, R.le, R.window, R.queued, R.received, R.fresh, R.unread, R.done⟩,
        C.nextElem, C.searching, nofun⟩
      refine ⟨rfl, rfl, rfl, fun _ _ => rfl, rfl, rfl, fun _ => rfl, rfl, rfl, fun _ => rfl,
        fun h i hpc'' => ?_⟩
      cases hpc.symm.trans hpc''
      exact absurd rfl hqp
  · rintro e l' rfl
    obtain ⟨rfl, hne⟩ := idx_eq_some hchain.1
    have hrest : s.Chain (s.sgLists h).next l' := hchain.2
    have hnd := C.lists.nodup p hp
    rw [hv] at hnd
    obtain ⟨hnot, hnd'⟩ := List.nodup_cons.mp hnd
    have hmem : h ∈ (v p).elems := by
      rw [hv]
      exact List.mem_cons_self
    have hother : ∀ q < s.numPackets, q ≠ p → h ∉ (v q).elems := fun q hq hqp hm =>
      C.lists.disjoint q hq p hp hqp hm hmem
    have hmore : i < (s.packets p).sgLen := by
      rw [← hlen, List.length_cons]
      omega
    have R : s.Ring (Function.update v p (.releasing l')) :=
      C.ring.congr (queued_update (by rw [hv]; exact Iff.rfl))
    refine ⟨{ s.setElem h (fun x => { x with flags := sgElemUnused }) with
      receiver := { s.receiver with pc := .releasing p (s.sgLists h).next (i + 1) } }, ?_, ?_, rfl, rfl,
      rfl, rfl, fun hw => nomatch hw⟩
    · rw [Stream.releaseRound, if_pos hmore, if_neg hne]
      rfl
    have L := C.lists.release hp hv
    refine ⟨C.packets_pos, C.elems_eq, C.two_le, C.le_last, ?_,
      C.shows_update rfl ?_ fun q hq hqp => ?_, C.outside,
      ⟨R.sendNext, R.recvNext, R.le, R.window, R.queued, R.received, R.fresh, R.unread, R.done⟩,
      C.nextElem, fun q offs size flags j hpc'' => ?_, fun q h' j hpc'' => ?_⟩
    · exact ⟨L.nodup, L.disjoint, L.bound, L.unused, L.length⟩
    · refine ⟨h1, h2, _, _, rfl, hrest.congr fun x hx => ?_, ?_⟩
      · have hxh : x ≠ h := fun heq => hnot (heq ▸ hx)
        simp [setElem, hxh]
      · rw [List.length_cons] at hlen
        change i + 1 + l'.length = (s.packets p).sgLen
        omega
    · refine ⟨rfl, rfl, rfl, fun x hx => ?_, rfl, rfl, fun _ => rfl, rfl, rfl, fun _ => rfl,
        fun h' j hpc'' => ?_⟩
      · have hxh : x ≠ h := fun heq => hother q hq hqp (heq ▸ hx)
        simp [setElem, hxh]
      · cases hpc.symm.trans hpc''
        exact absurd rfl hqp
    · obtain ⟨g1, g2, g3, k, g4, g5⟩ := C.searching q offs size flags j hpc''
      refine ⟨g1, g2, g3, k, ?_, g5⟩
      by_cases hk : (j + k) % s.numSgElems = h
      · simp [setElem, hk]
      · simpa [setElem, hk] using g4
    · cases hpc''
      exact ⟨hp, l', Function.update_self ..⟩

/-! ## The sender adds areas -/

/-- The flags of an element tell the kind of the area that was added. -/
theorem kindOf_used (flags : BitVec 32) :
    kindOf (sgElemUsed ||| (flags &&& sgElemUserMask)) = kindOf flags := by
  have hmask : (sgElemUsed ||| (flags &&& sgElemUserMask)) &&&
      (dataAreaGap ||| dataAreaEos ||| dataAreaPhys) =
      flags &&& (dataAreaGap ||| dataAreaEos ||| dataAreaPhys) := by
    have h0 : sgElemUsed &&& (dataAreaGap ||| dataAreaEos ||| dataAreaPhys) = 0 := by decide
    have h1 : sgElemUserMask &&& (dataAreaGap ||| dataAreaEos ||| dataAreaPhys) =
        dataAreaGap ||| dataAreaEos ||| dataAreaPhys := by decide
    rw [BitVec.and_or_distrib_right, h0, BitVec.and_assoc, h1]
    exact BitVec.zero_or
  simp only [kindOf, hmask]

theorem used_ne_unused (flags : BitVec 32) :
    sgElemUsed ||| (flags &&& sgElemUserMask) ≠ sgElemUnused := by
  intro h
  have hbit := congrArg (fun x : BitVec 32 => x.getLsbD 31) h
  simp [sgElemUsed, sgElemUnused] at hbit

/-- The element `i` is at the end of the list of the packet `p`. -/
structure Filled (s s' : Stream) (p : Nat) (offs size flags : BitVec 32) (i : Nat) : Prop where
  numPackets : s'.numPackets = s.numPackets
  numSgElems : s'.numSgElems = s.numSgElems
  maxSgLen : s'.maxSgLen = s.maxSgLen
  packets : ∀ q, q ≠ p → s'.packets q = s.packets q
  packet : s'.packets p = { s.packets p with
    sgLen := (s.packets p).sgLen + 1, sgIdx := i,
    sgList := if (s.packets p).sgLen = 0 then i else (s.packets p).sgList }
  elem : s'.sgLists i = { addr := offs, size, flags := sgElemUsed ||| (flags &&& sgElemUserMask), next := sgElemLast }
  elems : ∀ e, e ≠ i → s'.sgLists e = { s.sgLists e with
    next := if (s.packets p).sgLen ≠ 0 ∧ e = (s.packets p).sgIdx then i else (s.sgLists e).next }
  sender : s'.sender = { s.sender with
    nextSgElem := (i + 1) % s.numSgElems
    pc := .ready
    added := Function.update s.sender.added (s.sender.serial p)
      (s.sender.added (s.sender.serial p) ++ [{ kind := kindOf flags, addr := offs, size }]) }
  receiver : s'.receiver = s.receiver

theorem searchRound_found (offs size flags : BitVec 32) (hfound : (s.sgLists i).flags = sgElemUnused)
    (hnext : i ≠ (i + 1) % s.numSgElems) (hi : (s.packets p).sgLen ≠ 0 → (s.packets p).sgIdx ≠ i) :
    ∃ s', s.searchRound p offs size flags i = .ok s' ∧ Filled s s' p offs size flags i := by
  refine ⟨_, by rw [searchRound, if_pos hfound]; exact if_neg hnext, ?_⟩
  by_cases hlen : (s.packets p).sgLen = 0
  · constructor <;> intros <;> simp [fillElem, setElem, setPacket, *]
  · have hne := hi hlen
    constructor
    case elems =>
      intro e he
      by_cases heq : e = (s.packets p).sgIdx
      · subst heq
        simp [fillElem, setElem, setPacket, hlen, he]
      · simp [fillElem, setElem, setPacket, hlen, he, heq]
    all_goals intros; simp [fillElem, setElem, setPacket, hne.symm, *]

/-- The element that was found is added to the elements of the packet. -/
theorem Lists.fill {offs size flags : BitVec 32} (L : s.Lists v) (F : Filled s s' p offs size flags i)
    (hp : p < s.numPackets) (hv : v p = .sending l) (hlen : l.length < s.maxSgLen)
    (hi : i < s.numSgElems) (hfound : (s.sgLists i).flags = sgElemUnused) :
    s'.Lists (Function.update v p (.sending (l ++ [i]))) := by
  have hfree := (L.unused i hi).mp hfound
  have hsub : ∀ q x, x ∈ (Function.update v p (.sending (l ++ [i])) q).elems →
      x ∈ (v q).elems ∨ (q = p ∧ x = i) := by
    intro q x hx
    by_cases hqp : q = p
    · rw [hqp, Function.update_self] at hx
      rw [hqp, hv]
      exact (List.mem_append.mp hx).imp_right fun h => ⟨rfl, List.mem_singleton.mp h⟩
    · rw [Function.update_of_ne hqp] at hx
      exact .inl hx
  constructor
  · intro q hq
    by_cases hqp : q = p
    · have hnd := L.nodup p hp
      have hnot := hfree p hp
      rw [hv] at hnd hnot
      rw [hqp, Function.update_self]
      exact List.nodup_append.mpr ⟨hnd, List.nodup_singleton i, fun x hx y hy h => hnot
        (List.mem_singleton.mp hy ▸ h ▸ hx)⟩
    · rw [Function.update_of_ne hqp]
      exact L.nodup q (F.numPackets ▸ hq)
  · intro q hq q' hq' hne x hx hx'
    rw [F.numPackets] at hq hq'
    obtain hxq | ⟨rfl, rfl⟩ := hsub q x hx
    · obtain hxq' | ⟨-, rfl⟩ := hsub q' x hx'
      · exact L.disjoint q hq q' hq' hne hxq hxq'
      · exact hfree q hq hxq
    · obtain hxq' | ⟨rfl, -⟩ := hsub q' x hx'
      · exact hfree q' hq' hxq'
      · exact hne rfl
  · intro q hq x hx
    rw [F.numPackets] at hq
    rw [F.numSgElems]
    obtain hx | ⟨-, rfl⟩ := hsub q x hx
    · exact L.bound q hq x hx
    · exact hi
  · intro x hx
    rw [F.numSgElems] at hx
    rw [F.numPackets]
    by_cases hxi : x = i
    · subst hxi
      rw [F.elem]
      refine iff_of_false (used_ne_unused flags) fun h => h p hp ?_
      rw [Function.update_self]
      exact List.mem_append_right _ (List.mem_singleton_self x)
    · rw [F.elems x hxi]
      refine (L.unused x hx).trans (forall₂_congr fun q _ => not_congr ?_)
      by_cases hqp : q = p
      · rw [hqp, Function.update_self, hv]
        simp [View.elems, hxi]
      · rw [Function.update_of_ne hqp]
  · intro q hq
    rw [F.maxSgLen]
    by_cases hqp : q = p
    · rw [hqp, Function.update_self]
      simpa [View.elems] using hlen
    · rw [Function.update_of_ne hqp]
      exact L.length q (F.numPackets ▸ hq)

/-- The element is at the end of the list, and its area at the end of what was added. -/
theorem Filled.shows {offs size flags : BitVec 32} (F : Filled s s' p offs size flags i)
    (H : s.Shows p (.sending l)) (hnd : l.Nodup)
    (hle : s.numSgElems ≤ sgElemLast) (hi : i < s.numSgElems) (hnot : i ∉ l) :
    s'.Shows p (.sending (l ++ [i])) := by
  obtain ⟨h1, h2, h3, h4, h5, h6⟩ := H
  have hidx : idx i = some i := idx_of_lt hi hle
  have hlen : (s.packets p).sgLen = 0 ↔ l = [] := by
    rw [h3, List.length_eq_zero_iff]
  have hlast : ∀ y, l.getLast? = some y ↔ (l ≠ [] ∧ y = (s.packets p).sgIdx) := by
    intro y
    rw [← h5]
    constructor
    · intro h
      refine ⟨?_, (idx_eq_some h).1.symm⟩
      rintro rfl
      cases h5.symm.trans h
    · rintro ⟨hne, rfl⟩
      obtain ⟨z, hz⟩ := Option.ne_none_iff_exists'.mp (mt List.getLast?_eq_none_iff.mp hne)
      rw [← h5] at hz
      rw [hz, (idx_eq_some hz).1]
  have hother : ∀ x ∈ l, x ≠ i := fun x hx h => hnot (h ▸ hx)
  refine ⟨?_, ?_, ?_, ?_, ?_, ?_⟩
  · rw [F.sender]
    exact h1
  · rw [F.receiver]
    exact h2
  · rw [F.packet]
    simpa using h3
  · rw [F.packet]
    have hpush : IsSList (fun e => idx (s'.sgLists e).next)
        (if l = [] then some i else idx (s.packets p).sgList) (l ++ [i]) := h4.push hnd ?_ ?_ ?_
    · have hhead : idx (if (s.packets p).sgLen = 0 then i else (s.packets p).sgList) =
          if l = [] then some i else idx (s.packets p).sgList := by
        by_cases hl : l = []
        · rw [if_pos (hlen.mpr hl), if_pos hl, hidx]
        · rw [if_neg (mt hlen.mp hl), if_neg hl]
      rw [Chain, hhead]
      exact hpush
    · rw [F.elem, idx, if_pos rfl]
    · intro y hy hne
      rw [F.elems y (hother y hy), if_neg]
      rintro ⟨hl, hy'⟩
      exact hne ((hlast y).mpr ⟨mt hlen.mpr hl, hy'⟩)
    · intro y hy
      obtain ⟨hl, hy'⟩ := (hlast y).mp hy
      rw [F.elems y (hother y (List.mem_of_getLast? hy)), if_pos ⟨mt hlen.mp hl, hy'⟩, hidx]
  · rw [F.packet, List.getLast?_concat]
    exact hidx
  · have hareas : s'.areas l = s.areas l := by
      refine List.map_congr_left fun x hx => ?_
      rw [F.elems x (hother x hx)]
      rfl
    have hnew : elemArea (s'.sgLists i) = { kind := kindOf flags, addr := offs, size } := by
      rw [F.elem, elemArea, kindOf_used]
    have hsum : s'.areas (l ++ [i]) = s.areas l ++ [{ kind := kindOf flags, addr := offs, size }] := by
      rw [← hareas, ← hnew]
      simp [areas]
    rw [hsum, F.sender, h6]
    simp

theorem Core.fill (C : s.Core v) {offs size flags : BitVec 32} (F : Filled s s' p offs size flags i)
    (hp : p < s.numPackets) (hv : v p = .sending l) (hlen : l.length < s.maxSgLen)
    (hi : i < s.numSgElems) (hfound : (s.sgLists i).flags = sgElemUnused) :
    s'.Core (Function.update v p (.sending (l ++ [i]))) := by
  have hfree := (C.lists.unused i hi).mp hfound
  have hs := C.shows p hp
  have hnd := C.lists.nodup p hp
  have hnot := hfree p hp
  rw [hv] at hs hnd hnot
  have hqueued : (v p).Queued := by
    rw [hv]
    trivial
  obtain ⟨hge, hlt, hmod⟩ := C.ring.queued p hp hqueued
  have R : s.Ring (Function.update v p (.sending (l ++ [i]))) :=
    C.ring.congr (queued_update (by rw [hv]; exact Iff.rfl))
  -- other packets with data have other numbers
  have hserial : ∀ q < s.numPackets, q ≠ p → (v q).InUse →
      s.sender.serial q ≠ s.sender.serial p := by
    intro q hq hqp huse heq
    have hmod' : s.sender.serial q % s.numPackets = q := by
      cases hvq : v q with
      | sending l' => exact (C.ring.queued q hq (by rw [hvq]; trivial)).2.2
      | full l' => exact (C.ring.queued q hq (by rw [hvq]; trivial)).2.2
      | receiving l' l'' =>
        have hsq := C.shows q hq
        rw [hvq] at hsq
        rw [← hsq.2.2.2.2.2.1]
        exact (C.ring.received q hq hsq.2.1).2
      | free => rw [hvq] at huse; exact huse.elim
      | releasing l' => rw [hvq] at huse; exact huse.elim
    rw [heq, hmod] at hmod'
    exact hqp hmod'.symm
  refine ⟨F.numPackets ▸ C.packets_pos, ?_, F.numSgElems ▸ C.two_le, F.numSgElems ▸ C.le_last,
    C.lists.fill F hp hv hlen hi hfound,
    C.shows_update F.numPackets (F.shows hs hnd C.le_last hi hnot) fun q hq hqp => ?_, fun q hq => ?_,
    ⟨?_, ?_, ?_, ?_, ?_, ?_, fun k hk => ?_, ?_, fun k hk => ?_⟩, ?_, fun q o z f j hpc => ?_, ?_⟩
  · rw [F.numPackets, F.numSgElems, F.maxSgLen]
    exact C.elems_eq
  · have helems : ∀ x ∈ (v q).elems, s'.sgLists x = s.sgLists x := by
      intro x hx
      have hxi : x ≠ i := fun h => hfree q hq (h ▸ hx)
      rw [F.elems x hxi, if_neg]
      rintro ⟨hne, rfl⟩
      obtain ⟨-, -, h3, -, h5, -⟩ := hs
      obtain ⟨z, hz⟩ := Option.ne_none_iff_exists'.mp (mt List.getLast?_eq_none_iff.mp
        fun h : l = [] => hne (by rw [h3, h]; rfl))
      rw [hz] at h5
      have hmem : (s.packets p).sgIdx ∈ (v p).elems := by
        rw [(idx_eq_some h5).1, hv]
        exact List.mem_of_getLast? hz
      exact C.lists.disjoint q hq p hp hqp hx hmem
    constructor
    case elems => exact helems
    case added =>
      intro huse
      rw [F.sender]
      exact Function.update_of_ne (hserial q hq hqp huse) ..
    all_goals simp [F.packets q hqp, F.sender, F.receiver]
  · rw [F.sender, F.receiver]
    exact C.outside q (F.numPackets ▸ hq)
  · rw [F.sender, F.numPackets]
    exact R.sendNext
  · rw [F.receiver, F.numPackets]
    exact R.recvNext
  · rw [F.sender, F.receiver]
    exact R.le
  · rw [F.sender, F.receiver, F.numPackets]
    exact R.window
  · rw [F.sender, F.receiver, F.numPackets]
    exact R.queued
  · rw [F.receiver, F.numPackets]
    exact R.received
  · rw [F.sender] at hk ⊢
    have hne : k ≠ s.sender.serial p := (hlt.trans_le hk).ne'
    exact (Function.update_of_ne hne ..).trans (R.fresh k hk)
  · rw [F.receiver]
    exact R.unread
  · rw [F.receiver, F.numPackets, F.sender]
    rw [F.receiver] at hk
    have hne : k ≠ s.sender.serial p := (hk.trans_le hge).ne
    refine (R.done k hk).imp_right fun h => h.trans ?_
    exact (Function.update_of_ne hne ..).symm
  · rw [F.sender, F.numSgElems]
    exact Nat.mod_lt _ ((Nat.zero_le i).trans_lt hi)
  · rw [F.sender] at hpc
    cases hpc
  · intro q h j hpc
    rw [F.receiver] at hpc
    obtain ⟨hq, l', hl'⟩ := C.releasing q h j hpc
    have hqp : q ≠ p := by
      rintro rfl
      cases hv.symm.trans hl'
    exact ⟨F.numPackets ▸ hq, l', by rw [Function.update_of_ne hqp, hl']⟩

/-- The search has found an element. With two elements or more the next one is another one. -/
theorem Core.searchRound_found (C : s.Core v) {offs size flags : BitVec 32}
    (hpc : s.sender.pc = .searching p offs size flags i)
    (hfound : (s.sgLists i).flags = sgElemUnused) :
    ∃ s' l, s.searchRound p offs size flags i = .ok s' ∧ Filled s s' p offs size flags i ∧
      v p = .sending l ∧ s'.Core (Function.update v p (.sending (l ++ [i]))) := by
  obtain ⟨hi, hh, hlen, -⟩ := C.searching p offs size flags i hpc
  have hp := C.sending_lt hh
  obtain ⟨l, hv⟩ := C.view_sending hh
  have hs := C.shows p hp
  have hnot := (C.lists.unused i hi).mp hfound p hp
  rw [hv] at hs hnot
  have hlen' : l.length < s.maxSgLen := hs.2.2.1 ▸ hlen
  have hnext : i ≠ (i + 1) % s.numSgElems := by
    have h2 := C.two_le
    obtain hlt | hge := Nat.lt_or_ge (i + 1) s.numSgElems
    · rw [Nat.mod_eq_of_lt hlt]
      omega
    · rw [Nat.mod_eq_sub_mod hge, Nat.mod_eq_of_lt (by omega)]
      omega
  have hlast : (s.packets p).sgLen ≠ 0 → (s.packets p).sgIdx ≠ i := by
    intro hne heq
    obtain ⟨-, -, h3, -, h5, -⟩ := hs
    rw [heq, idx_of_lt hi C.le_last] at h5
    exact hnot (List.mem_of_getLast? h5.symm)
  obtain ⟨s', hrun, F⟩ := Stream.searchRound_found offs size flags hfound hnext hlast
  exact ⟨s', l, hrun, F, hv, C.fill F hp hv hlen' hi hfound⟩

/-- The search goes on. -/
theorem Core.searchRound_next (C : s.Core v) {offs size flags : BitVec 32}
    (hpc : s.sender.pc = .searching p offs size flags i)
    (hfound : (s.sgLists i).flags ≠ sgElemUnused) :
    ∃ s', s.searchRound p offs size flags i = .ok s' ∧ s'.Core v ∧
      s' = { s with sender := { s.sender with
        pc := .searching p offs size flags ((i + 1) % s.numSgElems) } } := by
  obtain ⟨hi, hh, hlen, k, hfinds⟩ := C.searching p offs size flags i hpc
  cases k with
  | zero =>
    have hunused := hfinds.1
    rw [Nat.add_zero, Nat.mod_eq_of_lt hi] at hunused
    exact absurd hunused hfound
  | succ k =>
    obtain ⟨hgo, hfinds⟩ := hfinds.next
    refine ⟨_, ?_, ?_, rfl⟩
    · rw [searchRound, if_neg hfound]
      exact if_neg hgo
    · refine C.congr rfl rfl rfl rfl (fun _ => ⟨rfl, rfl, rfl⟩) rfl rfl ?_ fun _ _ _ => Iff.rfl
      intro p' offs' size' flags' i' hpc'
      cases hpc'
      exact ⟨Nat.mod_lt _ ((Nat.zero_le i).trans_lt hi), hh, hlen, k, hfinds⟩

/-- The sender searches up to `n` elements while the receiver does nothing. -/
def searchRounds : Nat → Stream → Except Panic Stream
  | 0, s => .ok s
  | n + 1, s =>
    match s.step .search with
    | .error e => .error e
    | .ok s' => searchRounds n s'

theorem Core.search_ends_found (C : s.Core v) {offs size flags : BitVec 32}
    (hpc : s.sender.pc = .searching p offs size flags i)
    (hfound : (s.sgLists i).flags = sgElemUnused) :
    ∃ n s', searchRounds n s = .ok s' ∧ s'.sender.pc = .ready ∧
      s'.sender.added (s.sender.serial p) =
        s.sender.added (s.sender.serial p) ++ [{ kind := kindOf flags, addr := offs, size }] := by
  obtain ⟨s', -, hrun, F, -⟩ := C.searchRound_found hpc hfound
  refine ⟨1, s', ?_, by rw [F.sender], by rw [F.sender]; exact Function.update_self ..⟩
  simp only [searchRounds, Stream.step, hpc, hrun]

/-- The search ends with the area added to the packet. -/
theorem Core.search_ends {k : Nat} (C : s.Core v) {offs size flags : BitVec 32}
    (hpc : s.sender.pc = .searching p offs size flags i) (hfinds : s.FindsIn i k) :
    ∃ n s', searchRounds n s = .ok s' ∧ s'.sender.pc = .ready ∧
      s'.sender.added (s.sender.serial p) =
        s.sender.added (s.sender.serial p) ++ [{ kind := kindOf flags, addr := offs, size }] := by
  induction k generalizing s i with
  | zero =>
    have hfound := hfinds.1
    rw [Nat.add_zero, Nat.mod_eq_of_lt (C.searching p offs size flags i hpc).1] at hfound
    exact C.search_ends_found hpc hfound
  | succ k ih =>
    by_cases hfound : (s.sgLists i).flags = sgElemUnused
    · exact C.search_ends_found hpc hfound
    · obtain ⟨s', hrun, C', rfl⟩ := C.searchRound_next hpc hfound
      obtain ⟨n, s'', hrun', hready, hadded⟩ := ih C' rfl hfinds.next.2
      refine ⟨n + 1, s'', ?_, hready, hadded⟩
      simp only [searchRounds, Stream.step, hpc, hrun, hrun']

/-! ## Steps and runs -/

theorem Sems.congr {v' : Nat → View} (S : s.Sems v) (hn : s'.numPackets = s.numPackets)
    (hv : ∀ q, (v' q).isFree = (v q).isFree ∧ (v' q).isFull = (v q).isFull)
    (hsem : ∀ q, (s'.packets q).txSem = (s.packets q).txSem ∧
      (s'.packets q).rxSem = (s.packets q).rxSem)
    (hsend : ∀ q, s'.sendWaits q = s.sendWaits q) (hrecv : ∀ q, s'.recvWaits q = s.recvWaits q) :
    s'.Sems v' := by
  constructor
  · intro q hq
    rw [(hsem q).1, (hv q).1, hsend]
    exact S.tx q (hn ▸ hq)
  · intro q hq
    rw [(hsem q).2, (hv q).2, hrecv]
    exact S.rx q (hn ▸ hq)

theorem sendWaits_eq_zero (h : s.sender.pc ≠ .waiting) (q : Nat) : s.sendWaits q = 0 :=
  if_neg fun hw => h hw.1

theorem recvWaits_eq_zero (h : s.receiver.pc ≠ .waiting) (q : Nat) : s.recvWaits q = 0 :=
  if_neg fun hw => h hw.1

theorem isFree_iff {w : View} : w.isFree = true ↔ w = .free := by
  cases w <;> simp [View.isFree]

theorem isFull_iff {w : View} : w.isFull = true ↔ ∃ l, w = .full l := by
  cases w <;> simp [View.isFull]

/-- A step that works on the packet `q`. -/
theorem Sems.update {w : View} (S : s.Sems v) (hn : s'.numPackets = s.numPackets)
    (hsem : ∀ p, p ≠ q → (s'.packets p).txSem = (s.packets p).txSem ∧
      (s'.packets p).rxSem = (s.packets p).rxSem)
    (hsend : ∀ p, p ≠ q → s'.sendWaits p = s.sendWaits p)
    (hrecv : ∀ p, p ≠ q → s'.recvWaits p = s.recvWaits p)
    (htx : (s'.packets q).txSem = (if w.isFree then 1 else 0) - s'.sendWaits q)
    (hrx : (s'.packets q).rxSem = (if w.isFull then 1 else 0) - s'.recvWaits q) :
    s'.Sems (Function.update v q w) := by
  constructor
  · intro p hp
    by_cases hpq : p = q
    · rw [hpq, Function.update_self]
      exact htx
    · rw [Function.update_of_ne hpq, (hsem p hpq).1, hsend p hpq]
      exact S.tx p (hn ▸ hp)
  · intro p hp
    by_cases hpq : p = q
    · rw [hpq, Function.update_self]
      exact hrx
    · rw [Function.update_of_ne hpq, (hsem p hpq).2, hrecv p hpq]
      exact S.rx p (hn ▸ hp)

theorem sendWaits_congr (hpc : s'.sender.pc = s.sender.pc)
    (hnext : s'.sender.nextPacket = s.sender.nextPacket) (p : Nat) : s'.sendWaits p = s.sendWaits p := by
  rw [sendWaits, sendWaits, hpc, hnext]

theorem recvWaits_congr (hpc : s'.receiver.pc = s.receiver.pc)
    (hnext : s'.receiver.nextPacket = s.receiver.nextPacket) (p : Nat) :
    s'.recvWaits p = s.recvWaits p := by
  rw [recvWaits, recvWaits, hpc, hnext]

theorem sendWaits_next (h : s.sender.pc = .waiting) : s.sendWaits s.sender.nextPacket = 1 :=
  if_pos ⟨h, rfl⟩

theorem recvWaits_next (h : s.receiver.pc = .waiting) : s.recvWaits s.receiver.nextPacket = 1 :=
  if_pos ⟨h, rfl⟩

theorem sendWaits_of_ne (h : p ≠ s.sender.nextPacket) : s.sendWaits p = 0 :=
  if_neg fun hw => h hw.2.symm

theorem recvWaits_of_ne (h : p ≠ s.receiver.nextPacket) : s.recvWaits p = 0 :=
  if_neg fun hw => h hw.2.symm

/-- The sender gets the next packet. Its semaphore is taken. -/
theorem Inv.gotSend (I : s.Inv v) (C : s'.Core v) (hn : s'.numPackets = s.numPackets)
    (hnext : s'.sender.nextPacket = s.sender.nextPacket) (hrecv : s'.receiver = s.receiver)
    (hsem : ∀ p, p ≠ s.sender.nextPacket → (s'.packets p).txSem = (s.packets p).txSem)
    (hrx : ∀ p, (s'.packets p).rxSem = (s.packets p).rxSem)
    (hfree : (v s.sender.nextPacket).isFree = true)
    (htx : (s'.packets s.sender.nextPacket).txSem = 0) : ∃ v', s'.gotSendPacket.Inv v' := by
  have hv := isFree_iff.mp hfree
  have hq := I.core.nextSend_lt
  have hready : s'.gotSendPacket.sender.pc ≠ .waiting := by simp [gotSendPacket]
  refine ⟨_, C.gotSend (hnext ▸ hv), ?_⟩
  rw [hnext]
  have hwaits : ∀ p, s'.gotSendPacket.recvWaits p = s.recvWaits p :=
    recvWaits_congr (congrArg Receiver.pc hrecv) (congrArg Receiver.nextPacket hrecv)
  refine I.sems.update hn (fun p hp => ?_) (fun p hp => ?_) (fun p _ => hwaits p) ?_ ?_
  · simp [gotSendPacket, setPacket, hnext, hp, hsem p hp, hrx]
  · rw [sendWaits_eq_zero hready, sendWaits_of_ne hp]
  · rw [sendWaits_eq_zero hready]
    simp [gotSendPacket, setPacket, hnext, htx, View.isFree]
  · have h := I.sems.rx _ hq
    rw [hv, ← hrx, ← hwaits] at h
    simpa [gotSendPacket, setPacket, hnext, View.isFull] using h

/-- The receiver gets the next packet. Its semaphore is taken. -/
theorem Inv.gotReceive (I : s.Inv v) (C : s'.Core v) (hn : s'.numPackets = s.numPackets)
    (hpc : ∀ p h i, s'.receiver.pc ≠ .releasing p h i)
    (hnext : s'.receiver.nextPacket = s.receiver.nextPacket) (hsend : s'.sender = s.sender)
    (hsem : ∀ p, p ≠ s.receiver.nextPacket → (s'.packets p).rxSem = (s.packets p).rxSem)
    (htx : ∀ p, (s'.packets p).txSem = (s.packets p).txSem)
    (hfull : (v s.receiver.nextPacket).isFull = true)
    (hrx : (s'.packets s.receiver.nextPacket).rxSem = 0) : ∃ v', s'.gotReceivePacket.Inv v' := by
  obtain ⟨l, hv⟩ := isFull_iff.mp hfull
  have hq := I.core.nextRecv_lt
  have hready : s'.gotReceivePacket.receiver.pc ≠ .waiting := by simp [gotReceivePacket]
  refine ⟨_, C.gotReceive hpc (hnext ▸ hv), ?_⟩
  rw [hnext]
  have hwaits : ∀ p, s'.gotReceivePacket.sendWaits p = s.sendWaits p :=
    sendWaits_congr (congrArg Sender.pc hsend) (congrArg Sender.nextPacket hsend)
  refine I.sems.update hn (fun p hp => ?_) (fun p _ => hwaits p) (fun p hp => ?_) ?_ ?_
  · simp [gotReceivePacket, setPacket, hnext, hp, hsem p hp, htx]
  · rw [recvWaits_eq_zero hready, recvWaits_of_ne hp]
  · have h := I.sems.tx _ hq
    rw [hv, ← htx, ← hwaits] at h
    simpa [gotReceivePacket, setPacket, hnext, View.isFree] using h
  · rw [recvWaits_eq_zero hready]
    simp [gotReceivePacket, setPacket, hnext, hrx, View.isFull]

theorem Inv.sendGet (I : s.Inv v) (block : Bool) (hpc : s.sender.pc = .ready) :
    ∃ v', (s.sendGet block).Inv v' := by
  have hq := I.core.nextSend_lt
  have htx := I.sems.tx _ hq
  rw [sendWaits_eq_zero (by simp [hpc]), sub_zero] at htx
  have C : (s.setPacket s.sender.nextPacket fun k => { k with txSem := k.txSem - 1 }).Core v :=
    I.core.setSem _ fun _ => ⟨rfl, rfl, rfl⟩
  by_cases hle : (s.packets s.sender.nextPacket).txSem ≤ 0
  · cases block with
    | false => exact ⟨v, by simpa [Stream.sendGet, hle] using I⟩
    | true =>
      refine ⟨Function.update v s.sender.nextPacket (v s.sender.nextPacket), ?_⟩
      simp only [Stream.sendGet, if_pos hle, if_true]
      refine ⟨?_, I.sems.update rfl (fun p hp => ?_) (fun p hp => ?_) (fun _ _ => rfl) ?_ ?_⟩
      · rw [Function.update_eq_self]
        exact C.congr rfl rfl rfl rfl (fun _ => ⟨rfl, rfl, rfl⟩) rfl rfl nofun fun _ _ _ => Iff.rfl
      · simp [setPacket, hp]
      · rw [sendWaits_of_ne hp, sendWaits_of_ne]
        exact hp
      · simp [setPacket, sendWaits, htx]
      · change _ = _ - s.recvWaits _
        simpa [setPacket] using I.sems.rx _ hq
  · have hfree : (v s.sender.nextPacket).isFree = true := by
      by_contra hne
      rw [htx, if_neg hne] at hle
      exact hle le_rfl
    rw [if_pos hfree] at htx
    simp only [Stream.sendGet, if_neg hle]
    refine I.gotSend C rfl rfl rfl (fun p hp => ?_) (fun p => ?_) hfree ?_
    · simp [setPacket, hp]
    · by_cases hp : p = s.sender.nextPacket
      · simp [setPacket, hp]
      · simp [setPacket, hp]
    · simp [setPacket, htx]

theorem Inv.sendWakeup (I : s.Inv v) (hpc : s.sender.pc = .waiting)
    (hsem : 0 ≤ (s.packets s.sender.nextPacket).txSem) : ∃ v', s.gotSendPacket.Inv v' := by
  have htx := I.sems.tx _ I.core.nextSend_lt
  rw [sendWaits_next hpc] at htx
  have hfree : (v s.sender.nextPacket).isFree = true := by
    by_contra hne
    rw [if_neg hne] at htx
    omega
  rw [if_pos hfree, sub_self] at htx
  exact I.gotSend I.core rfl rfl rfl (fun _ _ => rfl) (fun _ => rfl) hfree htx

theorem Inv.addData (I : s.Inv v) (addr size flags : BitVec 32) (hpc : s.sender.pc = .ready)
    (hh : s.sender.holds p = true) : (s.addData p addr size flags).Inv v := by
  have hp := I.core.sending_lt hh
  obtain ⟨l, hv⟩ := I.core.view_sending hh
  have hs := I.core.shows p hp
  rw [hv] at hs
  unfold Stream.addData
  by_cases hfull : s.maxSgLen ≤ (s.packets p).sgLen
  · rw [if_pos hfull]
    exact I
  have hlen : (s.packets p).sgLen < s.maxSgLen := Nat.lt_of_not_le hfull
  have hfinds := I.core.finds hp (by rw [hv]; exact hs.2.2.1 ▸ hlen)
  have hsearch : ∀ offs, ({ s with sender := { s.sender with
      pc := .searching p offs size flags s.sender.nextSgElem } } : Stream).Inv v := by
    intro offs
    refine ⟨I.core.congr rfl rfl rfl rfl (fun _ => ⟨rfl, rfl, rfl⟩) rfl rfl ?_ fun _ _ _ => Iff.rfl,
      I.sems.congr rfl (fun _ => ⟨rfl, rfl⟩) (fun _ => ⟨rfl, rfl⟩) (fun q => ?_) fun _ => rfl⟩
    · intro p' offs' size' flags' i' hpc'
      cases hpc'
      exact ⟨I.core.nextElem, hh, hlen, hfinds⟩
    · rw [sendWaits_eq_zero (by simp), sendWaits_eq_zero (by simp [hpc])]
  rw [if_neg hfull]
  dsimp only
  split_ifs
  · exact I
  · exact hsearch _
  · exact hsearch _
  · exact hsearch _

theorem Inv.search (I : s.Inv v) {offs size flags : BitVec 32}
    (hpc : s.sender.pc = .searching p offs size flags i) :
    ∃ s' v', s.searchRound p offs size flags i = .ok s' ∧ s'.Inv v' := by
  have hwait : s.sender.pc ≠ .waiting := by simp [hpc]
  by_cases hfound : (s.sgLists i).flags = sgElemUnused
  · obtain ⟨s', l, hrun, F, hv, C⟩ := I.core.searchRound_found hpc hfound
    refine ⟨s', _, hrun, C, I.sems.congr F.numPackets (fun q => ?_) (fun q => ?_) (fun q => ?_) fun q => ?_⟩
    · by_cases hqp : q = p
      · rw [hqp, Function.update_self, hv]
        exact ⟨rfl, rfl⟩
      · rw [Function.update_of_ne hqp]
        exact ⟨rfl, rfl⟩
    · by_cases hqp : q = p
      · rw [hqp, F.packet]
        exact ⟨rfl, rfl⟩
      · rw [F.packets q hqp]
        exact ⟨rfl, rfl⟩
    · rw [sendWaits_eq_zero (by simp [F.sender]), sendWaits_eq_zero hwait]
    · rw [recvWaits, recvWaits, F.receiver]
  · obtain ⟨s', hrun, C, rfl⟩ := I.core.searchRound_next hpc hfound
    refine ⟨_, v, hrun, C, I.sems.congr rfl (fun _ => ⟨rfl, rfl⟩) (fun _ => ⟨rfl, rfl⟩) (fun q => ?_)
      fun _ => rfl⟩
    rw [sendWaits_eq_zero (by simp), sendWaits_eq_zero hwait]

theorem Inv.sendCommit (I : s.Inv v) (hpc : s.sender.pc = .ready) (hh : s.sender.holds p = true) :
    ∃ v', (s.sendCommit p).Inv v' := by
  by_cases hlen : (s.packets p).sgLen = 0
  · exact ⟨v, by rw [Stream.sendCommit, if_pos hlen]; exact I⟩
  · have hp := I.core.sending_lt hh
    obtain ⟨l, hv⟩ := I.core.view_sending hh
    refine ⟨_, I.core.commitSend hpc hh hlen hv, ?_⟩
    rw [Stream.sendCommit, if_neg hlen]
    have htx := I.sems.tx p hp
    have hrx := I.sems.rx p hp
    rw [hv] at htx hrx
    refine I.sems.update rfl (fun q hq => ?_) (fun _ _ => rfl) (fun _ _ => rfl) ?_ ?_
    · simp [setPacket, hq]
    · change _ = _ - s.sendWaits p
      simpa [setPacket, View.isFree] using htx
    · change _ = _ - s.recvWaits p
      simp [setPacket, View.isFull, hrx]
      omega

theorem Inv.recvGet (I : s.Inv v) (block : Bool) (hpc : s.receiver.pc = .ready) :
    ∃ v', (s.recvGet block).Inv v' := by
  have hq := I.core.nextRecv_lt
  have hrx := I.sems.rx _ hq
  rw [recvWaits_eq_zero (by simp [hpc]), sub_zero] at hrx
  have C : (s.setPacket s.receiver.nextPacket fun k => { k with rxSem := k.rxSem - 1 }).Core v :=
    I.core.setSem _ fun _ => ⟨rfl, rfl, rfl⟩
  by_cases hle : (s.packets s.receiver.nextPacket).rxSem ≤ 0
  · cases block with
    | false => exact ⟨v, by simpa [Stream.recvGet, hle] using I⟩
    | true =>
      refine ⟨Function.update v s.receiver.nextPacket (v s.receiver.nextPacket), ?_⟩
      simp only [Stream.recvGet, if_pos hle, if_true]
      refine ⟨?_, I.sems.update rfl (fun p hp => ?_) (fun _ _ => rfl) (fun p hp => ?_) ?_ ?_⟩
      · rw [Function.update_eq_self]
        refine C.congr rfl rfl rfl rfl (fun _ => ⟨rfl, rfl, rfl⟩) rfl rfl C.searching
          fun p h i => ⟨fun hr => ?_, nofun⟩
        cases hpc.symm.trans hr
      · simp [setPacket, hp]
      · rw [recvWaits_of_ne hp, recvWaits_of_ne]
        exact hp
      · change _ = _ - s.sendWaits _
        simpa [setPacket] using I.sems.tx _ hq
      · simp [setPacket, recvWaits, hrx]
  · have hfull : (v s.receiver.nextPacket).isFull = true := by
      by_contra hne
      rw [hrx, if_neg hne] at hle
      exact hle le_rfl
    rw [if_pos hfull] at hrx
    simp only [Stream.recvGet, if_neg hle]
    refine I.gotReceive C rfl (fun p h i hr => ?_) rfl rfl (fun p hp => ?_) (fun p => ?_) hfull ?_
    · cases hpc.symm.trans hr
    · simp [setPacket, hp]
    · by_cases hp : p = s.receiver.nextPacket
      · simp [setPacket, hp]
      · simp [setPacket, hp]
    · simp [setPacket, hrx]

theorem Inv.recvWakeup (I : s.Inv v) (hpc : s.receiver.pc = .waiting)
    (hsem : 0 ≤ (s.packets s.receiver.nextPacket).rxSem) : ∃ v', s.gotReceivePacket.Inv v' := by
  have hrx := I.sems.rx _ I.core.nextRecv_lt
  rw [recvWaits_next hpc] at hrx
  have hfull : (v s.receiver.nextPacket).isFull = true := by
    by_contra hne
    rw [if_neg hne] at hrx
    omega
  rw [if_pos hfull, sub_self] at hrx
  refine I.gotReceive I.core rfl (fun p h i hr => ?_) rfl rfl (fun _ _ => rfl) (fun _ => rfl) hfull hrx
  cases hpc.symm.trans hr

theorem Inv.getData (I : s.Inv v) (hh : s.receiver.holds p = true) : ∃ v', (s.getData p).2.Inv v' := by
  have hp := I.core.receiving_lt hh
  obtain ⟨l, l', hv⟩ := I.core.view_receiving hh
  cases l' with
  | nil => exact ⟨v, by rw [(I.core.readData hh (e := 0)).1 hv]; exact I⟩
  | cons e l' =>
    have hs := I.core.shows p hp
    rw [hv] at hs
    obtain ⟨hidx, -⟩ := idx_eq_some hs.2.2.2.2.1.1
    have he : e < s.numSgElems := I.core.lists.bound p hp e (by simp [hv, View.elems])
    have htx := I.sems.tx p hp
    have hrx := I.sems.rx p hp
    rw [hv] at htx hrx
    refine ⟨_, ((I.core.readData hh).2 l' hv).2, ?_⟩
    rw [getData_eq hidx he]
    refine I.sems.update rfl (fun q hq => ?_) (fun _ _ => rfl) (fun _ _ => rfl) ?_ ?_
    · simp [didRead, setPacket, hq]
    · change _ = _ - s.sendWaits p
      simpa [didRead, setPacket, View.isFree] using htx
    · change _ = _ - s.recvWaits p
      simpa [didRead, setPacket, View.isFull] using hrx

theorem Inv.recvCommit (I : s.Inv v) (hpc : s.receiver.pc = .ready) (hh : s.receiver.holds p = true)
    (hlast : (s.packets p).sgIdx = sgElemLast) : ∃ v', (s.recvCommit p).Inv v' := by
  have hp := I.core.receiving_lt hh
  obtain ⟨l, l', hv⟩ := I.core.view_receiving hh
  have hs := I.core.shows p hp
  rw [hv] at hs
  have hnil : l' = [] := by
    have hchain : s.Chain (s.packets p).sgIdx l' := hs.2.2.2.2.1
    rw [Chain, hlast, idx, if_pos rfl] at hchain
    cases l' with
    | nil => rfl
    | cons e l' => cases hchain.1
  subst hnil
  have htx := I.sems.tx p hp
  have hrx := I.sems.rx p hp
  have hwait : s.recvWaits p = 0 := recvWaits_eq_zero (by simp [hpc]) p
  rw [hv] at htx hrx
  refine ⟨_, I.core.commitReceive hpc hh hv, ?_⟩
  refine I.sems.update rfl (fun q hq => ?_) (fun _ _ => rfl) (fun q _ => ?_) ?_ ?_
  · simp [Stream.recvCommit, setPacket, hq]
  · rw [recvWaits_eq_zero (by simp [Stream.recvCommit]), recvWaits_eq_zero (by simp [hpc])]
  · change _ = _ - s.sendWaits p
    simpa [Stream.recvCommit, setPacket, View.isFree] using htx
  · rw [recvWaits_eq_zero (by simp [Stream.recvCommit])]
    simpa [Stream.recvCommit, setPacket, View.isFull, hwait] using hrx

theorem Inv.release (I : s.Inv v) (hpc : s.receiver.pc = .releasing p h i) :
    ∃ s' v', s.releaseRound p h i = .ok s' ∧ s'.Inv v' := by
  obtain ⟨hp, -⟩ := I.core.releasing p h i hpc
  have hwait : ∀ q, s.recvWaits q = 0 := recvWaits_eq_zero (by simp [hpc])
  have htx := I.sems.tx p hp
  have hrx := I.sems.rx p hp
  obtain ⟨l, hv, hlast, hmore⟩ := I.core.releaseRound hpc
  rw [hv] at htx hrx
  cases l with
  | nil =>
    obtain ⟨hrun, C⟩ := hlast rfl
    refine ⟨_, _, hrun,
      C.setSem p (f := fun k => { k with txSem := k.txSem + 1 }) fun _ => ⟨rfl, rfl, rfl⟩, ?_⟩
    refine I.sems.update rfl (fun q hq => ?_) (fun _ _ => rfl) (fun q _ => ?_) ?_ ?_
    · simp [setPacket, hq]
    · rw [recvWaits_eq_zero (by simp), hwait]
    · change _ = _ - s.sendWaits p
      simp [setPacket, View.isFree, htx]
      omega
    · rw [recvWaits_eq_zero (by simp)]
      simpa [setPacket, View.isFull, hwait] using hrx
  | cons e l' =>
    obtain ⟨s', hrun, C, hn, hpk, hsend, -, hready⟩ := hmore e l' rfl
    refine ⟨s', _, hrun, C, ?_⟩
    refine I.sems.update hn (fun q _ => by rw [hpk]; exact ⟨rfl, rfl⟩) (fun q _ => ?_) (fun q _ => ?_) ?_ ?_
    · rw [sendWaits, sendWaits, hsend]
    · rw [recvWaits_eq_zero hready, hwait]
    · rw [hpk, sendWaits, hsend]
      exact htx
    · rw [hpk, recvWaits_eq_zero hready, hrx, hwait]
      rfl

/-- A step of a well-behaved component does not end in a panic. -/
theorem Inv.step (I : s.Inv v) {a : Event} (ha : s.Allowed a) :
    ∃ s' v', s.step a = .ok s' ∧ s'.Inv v' := by
  have hok : ∀ {s' : Stream}, (∃ v', s'.Inv v') →
      ∃ s'' v', (Except.ok s' : Except Panic Stream) = .ok s'' ∧ s''.Inv v' :=
    fun ⟨v', I'⟩ => ⟨_, v', rfl, I'⟩
  cases a with
  | sendGet block => exact hok (I.sendGet block ha)
  | sendWakeup => exact hok (I.sendWakeup ha.1 ha.2)
  | addData p addr size flags => exact hok ⟨v, I.addData addr size flags ha.1 ha.2⟩
  | search =>
    obtain ⟨p, offs, size, flags, i, hpc⟩ := ha
    simpa only [Stream.step, hpc] using I.search hpc
  | sendCommit p => exact hok (I.sendCommit ha.1 ha.2)
  | recvGet block => exact hok (I.recvGet block ha)
  | recvWakeup => exact hok (I.recvWakeup ha.1 ha.2)
  | getData p => exact hok (I.getData ha.2)
  | recvCommit p => exact hok (I.recvCommit ha.1 ha.2.1 ha.2.2)
  | release =>
    obtain ⟨p, h, i, hpc⟩ := ha
    simpa only [Stream.step, hpc] using I.release hpc

theorem init_inv {cfg : StreamCfg} (h2 : 2 ≤ cfg.numPackets * cfg.maxSg)
    (hfits : cfg.ctrlDsSize < 4294967296) (sendArea sendSize recvArea : BitVec 32) :
    (init cfg sendArea sendSize recvArea).Inv fun _ => .free := by
  have hpos : 0 < cfg.numPackets * cfg.maxSg := Nat.zero_lt_of_lt h2
  have hn : (init cfg sendArea sendSize recvArea).numSgElems = cfg.numPackets * cfg.maxSg :=
    Nat.mod_eq_of_lt (by rw [StreamCfg.ctrlDsSize] at hfits; omega)
  refine ⟨⟨Nat.pos_of_mul_pos_right hpos, hn, hn ▸ h2, ?_, ?_, fun _ _ => ⟨rfl, rfl⟩, fun _ _ => ⟨rfl, rfl⟩,
    ?_, hn ▸ hpos, nofun, nofun⟩, fun p _ => ?_, fun p _ => ?_⟩
  · rw [hn, sgElemLast]
    rw [StreamCfg.ctrlDsSize] at hfits
    omega
  · refine ⟨fun _ _ => List.nodup_nil, fun _ _ _ _ _ => List.disjoint_nil_left _, nofun, fun _ _ => ?_,
      fun _ _ => Nat.zero_le _⟩
    exact iff_of_true rfl nofun
  · refine ⟨(Nat.zero_mod _).symm, (Nat.zero_mod _).symm, le_rfl, nofun, nofun, nofun, fun _ _ => rfl,
      fun _ _ => rfl, nofun⟩
  · rfl
  · rfl

theorem Reachable.inv {cfg : StreamCfg} (H : Reachable cfg s) (h2 : 2 ≤ cfg.numPackets * cfg.maxSg)
    (hfits : cfg.ctrlDsSize < 4294967296) : ∃ v, s.Inv v := by
  induction H with
  | init sendArea sendSize recvArea => exact ⟨_, init_inv h2 hfits sendArea sendSize recvArea⟩
  | step _ ha hrun ih =>
    obtain ⟨v, I⟩ := ih
    obtain ⟨s'', v', hrun', I'⟩ := I.step ha
    cases hrun.symm.trans hrun'
    exact ⟨v', I'⟩

/-- A packet that a component holds, or that is on its way: it is committed, and the receiver who gets it
has not gone on yet. -/
def InUse (s : Stream) (p : Nat) : Prop :=
  s.sender.holds p = true ∨ s.receiver.holds p = true ∨
    (p < s.numPackets ∧ 0 < (s.packets p).rxSem + s.recvWaits p)

/-- The elements `l` are the list of the packet. -/
structure Lists.Of (s : Stream) (p : Nat) (l : List Nat) : Prop where
  chain : s.Chain (s.packets p).sgList l
  length : l.length = (s.packets p).sgLen
  nodup : l.Nodup
  used : ∀ e ∈ l, e < s.numSgElems ∧ (s.sgLists e).flags ≠ sgElemUnused

theorem Inv.view_inUse (I : s.Inv v) (h : s.InUse p) : p < s.numPackets ∧ (v p).InUse := by
  obtain hs | hr | ⟨hp, hfull⟩ := h
  · obtain ⟨l, hv⟩ := I.core.view_sending hs
    exact ⟨I.core.sending_lt hs, by rw [hv]; trivial⟩
  · obtain ⟨l, l', hv⟩ := I.core.view_receiving hr
    exact ⟨I.core.receiving_lt hr, by rw [hv]; trivial⟩
  · rw [I.sems.rx p hp, sub_add_cancel] at hfull
    have hfull : (v p).isFull = true := by
      by_contra hne
      rw [if_neg hne] at hfull
      exact hfull.false
    obtain ⟨l, hv⟩ := isFull_iff.mp hfull
    exact ⟨hp, by rw [hv]; trivial⟩

theorem Inv.list_of (I : s.Inv v) (h : s.InUse p) : Lists.Of s p (v p).elems := by
  obtain ⟨hp, huse⟩ := I.view_inUse h
  have L := I.core.lists
  have hs := I.core.shows p hp
  refine ⟨?_, ?_, L.nodup p hp, fun e he => ⟨L.bound p hp e he, fun hunused => ?_⟩⟩
  · cases hv : v p with
    | sending l => rw [hv] at hs; exact hs.2.2.2.1
    | full l => rw [hv] at hs; exact hs.2.2.2.1
    | receiving l l' => rw [hv] at hs; exact hs.2.2.2.1
    | free => rw [hv] at huse; exact huse.elim
    | releasing l => rw [hv] at huse; exact huse.elim
  · cases hv : v p with
    | sending l => rw [hv] at hs; exact hs.2.2.1.symm
    | full l => rw [hv] at hs; exact hs.2.2.1.symm
    | receiving l l' => rw [hv] at hs; exact hs.2.2.1.symm
    | free => rw [hv] at huse; exact huse.elim
    | releasing l => rw [hv] at huse; exact huse.elim
  · exact (L.unused e (L.bound p hp e he)).mp hunused p hp he

/-- What the receiver has read from a packet it holds is the first part of what the sender has added to
it, and all of it once there are no more data. -/
theorem Inv.read_prefix (I : s.Inv v) (hh : s.receiver.holds p = true) :
    s.receiver.read (s.receiver.serial p) <+: s.sender.added (s.receiver.serial p) ∧
      ((s.packets p).sgIdx = sgElemLast →
        s.receiver.read (s.receiver.serial p) = s.sender.added (s.receiver.serial p)) := by
  have hs := I.core.shows p (I.core.receiving_lt hh)
  obtain ⟨l, l', hv⟩ := I.core.view_receiving hh
  rw [hv] at hs
  obtain ⟨-, -, -, -, h5, h6, h7, h8⟩ := hs
  rw [← h7, h6, ← h8]
  refine ⟨⟨s.areas l', by simp [areas]⟩, fun hlast => ?_⟩
  have hnil : l' = [] := by
    rw [hlast, Chain, idx, if_pos rfl] at h5
    cases l' with
    | nil => rfl
    | cons e l' => cases h5.1
  rw [hnil, List.append_nil]

/-- What holds of a stream at any time. -/
structure Transports (s : Stream) : Prop where
  lists : ∃ l : Nat → List Nat, (∀ p, s.InUse p → Lists.Of s p (l p)) ∧
    ∀ p q, s.InUse p → s.InUse q → p ≠ q → (l p).Disjoint (l q)
  runs : ∀ a, s.Allowed a → ∃ s', s.step a = .ok s'
  finds : ∀ p offs size flags i, s.sender.pc = .searching p offs size flags i →
    ∃ n s', searchRounds n s = .ok s' ∧ s'.sender.pc = .ready ∧
      s'.sender.added (s.sender.serial p) =
        s.sender.added (s.sender.serial p) ++ [{ kind := kindOf flags, addr := offs, size }]
  reads : ∀ p, s.receiver.holds p = true →
    s.receiver.read (s.receiver.serial p) <+: s.sender.added (s.receiver.serial p) ∧
      ((s.packets p).sgIdx = sgElemLast →
        s.receiver.read (s.receiver.serial p) = s.sender.added (s.receiver.serial p))
  done : ∀ k < s.receiver.gets, (∃ p, s.receiver.holds p = true ∧ s.receiver.serial p = k) ∨
    s.receiver.read k = s.sender.added k

theorem Inv.transports (I : s.Inv v) : s.Transports where
  lists :=
    ⟨fun p => (v p).elems, fun _ h => I.list_of h, fun p q hp hq hne =>
      I.core.lists.disjoint p (I.view_inUse hp).1 q (I.view_inUse hq).1 hne⟩
  runs a ha := by
    obtain ⟨s', -, hrun, -⟩ := I.step ha
    exact ⟨s', hrun⟩
  finds p offs size flags i hpc := by
    obtain ⟨-, -, -, k, hfinds⟩ := I.core.searching p offs size flags i hpc
    exact I.core.search_ends hpc hfinds
  reads p hh := I.read_prefix hh
  done k hk := (I.core.ring.done k hk).imp_left fun ⟨p, _, hh, hk⟩ => ⟨p, hh, hk⟩

/-- With a single element the first area that is added finds it and ends in a panic. -/
theorem single_panics (sendArea sendSize recvArea : BitVec 32) : ∃ s a,
    Reachable { numPackets := 1, maxSg := 1 } s ∧ s.Allowed a ∧ s.step a = .error .noSgElem := by
  have hget := Reachable.step (@Reachable.init { numPackets := 1, maxSg := 1 } sendArea sendSize recvArea)
    (a := .sendGet true) rfl rfl
  have hadd := hget.step (a := .addData 0 0 0 dataAreaGap) ⟨rfl, rfl⟩ rfl
  refine ⟨_, .search, hadd, ⟨_, _, _, _, _, rfl⟩, ?_⟩
  simp [Stream.step, init, Stream.sendGet, gotSendPacket, Stream.addData, searchRound, setPacket, setElem,
    dataAreaGap, dataAreaEos]

end Stream

end L4env.Dsi
