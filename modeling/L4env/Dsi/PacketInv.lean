import L4env.Dsi.Packet
import Mathlib.Algebra.BigOperators.Group.Finset.Basic
import Mathlib.Algebra.Order.BigOperators.Group.Finset

/-!
# Packets of DSI: the lists of the packets

What a packet is used for, with the elements that are marked as used for it. A step of one component
takes the packet it works on from one use to the next and leaves the other packets as they are.
-/

namespace L4env.Dsi

/-- The use of a packet. A packet that is received has elements that are read already and others; one
that is released has elements that are not released yet. -/
inductive View where
  | free
  | sending (l : List Nat)
  | full (l : List Nat)
  | receiving (l l' : List Nat)
  | releasing (l : List Nat)

namespace View

def elems : View → List Nat
  | free => []
  | sending l | full l | releasing l => l
  | receiving l l' => l ++ l'

/-- The packet is on its way to the receiver. -/
def Queued : View → Prop
  | sending _ | full _ => True
  | _ => False

/-- The packet has data. -/
def InUse : View → Prop
  | sending _ | full _ | receiving _ _ => True
  | _ => False

def isFree : View → Bool
  | free => true
  | _ => false

def isFull : View → Bool
  | full _ => true
  | _ => false

end View

/-- An index of an element, or the end of a list. -/
def idx (i : Nat) : Option Nat := if i = sgElemLast then none else some i

theorem idx_of_lt {i n : Nat} (h : i < n) (hn : n ≤ sgElemLast) : idx i = some i := by
  rw [idx, if_neg (h.trans_le hn).ne]

theorem idx_eq_none {i : Nat} (h : idx i = none) : i = sgElemLast := by
  by_contra hne
  rw [idx, if_neg hne] at h
  cases h

theorem idx_eq_some {i e : Nat} (h : idx i = some e) : i = e ∧ i ≠ sgElemLast := by
  rw [idx] at h
  split at h
  · cases h
  · exact ⟨Option.some.inj h, by assumption⟩

namespace Stream

variable {s s' : Stream} {p q e h : Nat} {l l' : List Nat} {w w' : View}

/-- The elements `l` are a list that begins with the index `h`. -/
def Chain (s : Stream) (h : Nat) (l : List Nat) : Prop :=
  IsSList (fun e => idx (s.sgLists e).next) (idx h) l

/-- The area an element describes. -/
def elemArea (e : SgElem) : Area := { kind := kindOf e.flags, addr := e.addr, size := e.size }

def areas (s : Stream) (l : List Nat) : List Area := l.map fun e => elemArea (s.sgLists e)

/-- The state of a packet that is used as `w` says. -/
def Shows (s : Stream) (p : Nat) : View → Prop
  | .free => s.sender.holds p = false ∧ s.receiver.holds p = false
  | .sending l =>
    s.sender.holds p = true ∧ s.receiver.holds p = false ∧ (s.packets p).sgLen = l.length ∧
      s.Chain (s.packets p).sgList l ∧ idx (s.packets p).sgIdx = l.getLast? ∧
      s.areas l = s.sender.added (s.sender.serial p)
  | .full l =>
    s.sender.holds p = false ∧ s.receiver.holds p = false ∧ (s.packets p).sgLen = l.length ∧
      s.Chain (s.packets p).sgList l ∧ s.areas l = s.sender.added (s.sender.serial p)
  | .receiving l l' =>
    s.sender.holds p = false ∧ s.receiver.holds p = true ∧ (s.packets p).sgLen = (l ++ l').length ∧
      s.Chain (s.packets p).sgList (l ++ l') ∧ s.Chain (s.packets p).sgIdx l' ∧
      s.receiver.serial p = s.sender.serial p ∧ s.areas l = s.receiver.read (s.receiver.serial p) ∧
      s.areas (l ++ l') = s.sender.added (s.sender.serial p)
  | .releasing l =>
    s.sender.holds p = false ∧ s.receiver.holds p = false ∧
      ∃ h i, s.receiver.pc = .releasing p h i ∧ s.Chain h l ∧ i + l.length = (s.packets p).sgLen

/-- Nothing about the packet `p`, which is used as `w` says, has changed. -/
structure Same (s s' : Stream) (p : Nat) (w : View) : Prop where
  sgLen : (s'.packets p).sgLen = (s.packets p).sgLen
  sgList : (s'.packets p).sgList = (s.packets p).sgList
  sgIdx : (s'.packets p).sgIdx = (s.packets p).sgIdx
  elems : ∀ e ∈ w.elems, s'.sgLists e = s.sgLists e
  sendHolds : s'.sender.holds p = s.sender.holds p
  sendSerial : s'.sender.serial p = s.sender.serial p
  added : w.InUse → s'.sender.added (s.sender.serial p) = s.sender.added (s.sender.serial p)
  recvHolds : s'.receiver.holds p = s.receiver.holds p
  recvSerial : s'.receiver.serial p = s.receiver.serial p
  read : s.receiver.holds p = true →
    s'.receiver.read (s.receiver.serial p) = s.receiver.read (s.receiver.serial p)
  releasing : ∀ h i, s.receiver.pc = .releasing p h i → s'.receiver.pc = .releasing p h i

theorem Chain.congr (H : s.Chain h l) (he : ∀ e ∈ l, s'.sgLists e = s.sgLists e) : s'.Chain h l :=
  IsSList.congr H fun e hm => by rw [he e hm]

theorem areas_congr (he : ∀ e ∈ l, s'.sgLists e = s.sgLists e) : s'.areas l = s.areas l :=
  List.map_congr_left fun e hm => by rw [he e hm]

theorem Shows.congr (H : s.Shows p w) (F : Same s s' p w) : s'.Shows p w := by
  cases w with
  | free => exact ⟨F.sendHolds.trans H.1, F.recvHolds.trans H.2⟩
  | sending l =>
    obtain ⟨h1, h2, h3, h4, h5, h6⟩ := H
    have hareas : s'.areas l = s.areas l := areas_congr F.elems
    rw [Shows, F.sendHolds, F.recvHolds, F.sgLen, F.sgList, F.sgIdx, F.sendSerial, F.added trivial, hareas]
    exact ⟨h1, h2, h3, h4.congr F.elems, h5, h6⟩
  | full l =>
    obtain ⟨h1, h2, h3, h4, h5⟩ := H
    have hareas : s'.areas l = s.areas l := areas_congr F.elems
    rw [Shows, F.sendHolds, F.recvHolds, F.sgLen, F.sgList, F.sendSerial, F.added trivial, hareas]
    exact ⟨h1, h2, h3, h4.congr F.elems, h5⟩
  | receiving l l' =>
    obtain ⟨h1, h2, h3, h4, h5, h6, h7, h8⟩ := H
    have hl : ∀ e ∈ l, s'.sgLists e = s.sgLists e := fun e he => F.elems e (List.mem_append_left _ he)
    have hl' : ∀ e ∈ l', s'.sgLists e = s.sgLists e :=
      fun e he => F.elems e (List.mem_append_right _ he)
    have hareas : s'.areas (l ++ l') = s.areas (l ++ l') := areas_congr F.elems
    rw [Shows, F.sendHolds, F.recvHolds, F.sgLen, F.sgList, F.sgIdx, F.sendSerial, F.recvSerial,
      F.added trivial, F.read h2, areas_congr hl, hareas]
    exact ⟨h1, h2, h3, h4.congr F.elems, h5.congr hl', h6, h7, h8⟩
  | releasing l =>
    obtain ⟨h1, h2, h, i, h3, h4, h5⟩ := H
    rw [Shows, F.sendHolds, F.recvHolds, F.sgLen]
    exact ⟨h1, h2, h, i, F.releasing h i h3, h4.congr F.elems, h5⟩

/-! ## The lists -/

/-- The lists of the packets are disjoint, and their elements are the ones that are not unused. -/
structure Lists (s : Stream) (v : Nat → View) : Prop where
  nodup : ∀ p < s.numPackets, (v p).elems.Nodup
  disjoint : ∀ p < s.numPackets, ∀ q < s.numPackets, p ≠ q → (v p).elems.Disjoint (v q).elems
  bound : ∀ p < s.numPackets, ∀ e ∈ (v p).elems, e < s.numSgElems
  unused : ∀ e < s.numSgElems, (s.sgLists e).flags = sgElemUnused ↔
    ∀ p < s.numPackets, e ∉ (v p).elems
  length : ∀ p < s.numPackets, (v p).elems.length ≤ s.maxSgLen

/-- The ring of the packets: those on their way to the receiver were got by the sender and not yet by
the receiver. What the receiver has read from a packet it does not hold any more is what the sender has
added to the packet of the same number. -/
structure Ring (s : Stream) (v : Nat → View) : Prop where
  sendNext : s.sender.nextPacket = s.sender.gets % s.numPackets
  recvNext : s.receiver.nextPacket = s.receiver.gets % s.numPackets
  le : s.receiver.gets ≤ s.sender.gets
  window : ∀ k, s.receiver.gets ≤ k → k < s.sender.gets →
    (v (k % s.numPackets)).Queued ∧ s.sender.serial (k % s.numPackets) = k
  queued : ∀ p < s.numPackets, (v p).Queued → s.receiver.gets ≤ s.sender.serial p ∧
    s.sender.serial p < s.sender.gets ∧ s.sender.serial p % s.numPackets = p
  received : ∀ p < s.numPackets, s.receiver.holds p = true →
    s.receiver.serial p < s.receiver.gets ∧ s.receiver.serial p % s.numPackets = p
  fresh : ∀ k, s.sender.gets ≤ k → s.sender.added k = []
  unread : ∀ k, s.receiver.gets ≤ k → s.receiver.read k = []
  done : ∀ k < s.receiver.gets, (∃ p < s.numPackets, s.receiver.holds p = true ∧
    s.receiver.serial p = k) ∨ s.receiver.read k = s.sender.added k

/-- `k` rounds on the search is at an unused element, and it is not back before. -/
def FindsIn (s : Stream) (i k : Nat) : Prop :=
  (s.sgLists ((i + k) % s.numSgElems)).flags = sgElemUnused ∧
    ∀ j, 0 < j → j ≤ k → (i + j) % s.numSgElems ≠ s.sender.nextSgElem

def Finds (s : Stream) (i : Nat) : Prop := ∃ k, s.FindsIn i k

theorem FindsIn.next {i k : Nat} (F : s.FindsIn i (k + 1)) :
    (i + 1) % s.numSgElems ≠ s.sender.nextSgElem ∧ s.FindsIn ((i + 1) % s.numSgElems) k := by
  refine ⟨F.2 1 Nat.one_pos (Nat.le_add_left 1 k), ?_, fun j h0 hj => ?_⟩
  · rw [Nat.mod_add_mod, Nat.add_assoc, Nat.add_comm 1 k]
    exact F.1
  · rw [Nat.mod_add_mod, Nat.add_assoc, Nat.add_comm 1 j]
    exact F.2 (j + 1) (Nat.succ_pos j) (Nat.succ_le_succ hj)

/-- The invariant without the semaphores. -/
structure Core (s : Stream) (v : Nat → View) : Prop where
  packets_pos : 0 < s.numPackets
  elems_eq : s.numSgElems = s.numPackets * s.maxSgLen
  two_le : 2 ≤ s.numSgElems
  le_last : s.numSgElems ≤ sgElemLast
  lists : s.Lists v
  shows : ∀ p < s.numPackets, s.Shows p (v p)
  outside : ∀ p, s.numPackets ≤ p → s.sender.holds p = false ∧ s.receiver.holds p = false
  ring : s.Ring v
  nextElem : s.sender.nextSgElem < s.numSgElems
  searching : ∀ p offs size flags i, s.sender.pc = .searching p offs size flags i →
    i < s.numSgElems ∧ s.sender.holds p = true ∧ (s.packets p).sgLen < s.maxSgLen ∧ s.Finds i
  releasing : ∀ p h i, s.receiver.pc = .releasing p h i →
    p < s.numPackets ∧ ∃ l, v p = .releasing l

def sendWaits (s : Stream) (p : Nat) : Int :=
  if s.sender.pc = .waiting ∧ s.sender.nextPacket = p then 1 else 0

def recvWaits (s : Stream) (p : Nat) : Int :=
  if s.receiver.pc = .waiting ∧ s.receiver.nextPacket = p then 1 else 0

/-- The semaphores count the packets that are free or full, less the component that waits. -/
structure Sems (s : Stream) (v : Nat → View) : Prop where
  tx : ∀ p < s.numPackets, (s.packets p).txSem = (if (v p).isFree then 1 else 0) - s.sendWaits p
  rx : ∀ p < s.numPackets, (s.packets p).rxSem = (if (v p).isFull then 1 else 0) - s.recvWaits p

structure Inv (s : Stream) (v : Nat → View) : Prop where
  core : s.Core v
  sems : s.Sems v

/-! ## Elements in use -/

section
variable {v v' : Nat → View}

/-- A packet with less than the maximal number of elements leaves an element unused. -/
theorem Lists.exists_unused (L : s.Lists v) (heq : s.numSgElems = s.numPackets * s.maxSgLen)
    (hp : p < s.numPackets) (hlen : (v p).elems.length < s.maxSgLen) :
    ∃ e < s.numSgElems, (s.sgLists e).flags = sgElemUnused := by
  by_contra hnone
  push Not at hnone
  have hsub : Finset.range s.numSgElems ⊆
      (Finset.range s.numPackets).biUnion fun p => (v p).elems.toFinset := by
    intro e he
    have hused := mt (L.unused e (Finset.mem_range.mp he)).mpr (hnone e (Finset.mem_range.mp he))
    push Not at hused
    obtain ⟨q, hq, heq⟩ := hused
    exact Finset.mem_biUnion.mpr ⟨q, Finset.mem_range.mpr hq, List.mem_toFinset.mpr heq⟩
  have hlt : s.numSgElems < s.numPackets * s.maxSgLen :=
    calc s.numSgElems
        = (Finset.range s.numSgElems).card := (Finset.card_range _).symm
      _ ≤ ∑ p ∈ Finset.range s.numPackets, (v p).elems.toFinset.card :=
        (Finset.card_le_card hsub).trans Finset.card_biUnion_le
      _ ≤ ∑ p ∈ Finset.range s.numPackets, (v p).elems.length :=
        Finset.sum_le_sum fun q _ => List.toFinset_card_le _
      _ < ∑ _p ∈ Finset.range s.numPackets, s.maxSgLen :=
        Finset.sum_lt_sum (fun q hq => L.length q (Finset.mem_range.mp hq))
          ⟨p, Finset.mem_range.mpr hp, hlen⟩
      _ = s.numPackets * s.maxSgLen := by simp
  exact (heq ▸ hlt).false

/-- From any element on, the search comes by every other one before it is back. -/
theorem exists_steps {i n e : Nat} (hi : i < n) (he : e < n) :
    ∃ k, (i + k) % n = e ∧ ∀ j, 0 < j → j ≤ k → (i + j) % n ≠ i := by
  obtain hlt | hle := Nat.lt_or_ge e i
  · refine ⟨e + n - i, ?_, fun j h0 hj => ?_⟩
    · have hsum : i + (e + n - i) = e + n := by omega
      rw [hsum, Nat.add_mod_right, Nat.mod_eq_of_lt he]
    · obtain hj' | hj' := Nat.lt_or_ge (i + j) n
      · rw [Nat.mod_eq_of_lt hj']
        omega
      · rw [Nat.mod_eq_sub_mod hj', Nat.mod_eq_of_lt (by omega)]
        omega
  · refine ⟨e - i, ?_, fun j h0 hj => ?_⟩
    · rw [Nat.add_sub_cancel' hle, Nat.mod_eq_of_lt he]
    · rw [Nat.mod_eq_of_lt (by omega)]
      omega

theorem Core.finds (C : s.Core v) (hp : p < s.numPackets) (hlen : (v p).elems.length < s.maxSgLen) :
    s.Finds s.sender.nextSgElem := by
  obtain ⟨e, he, hunused⟩ := C.lists.exists_unused C.elems_eq hp hlen
  obtain ⟨k, hk, hsteps⟩ := exists_steps C.nextElem he
  exact ⟨k, by rw [hk]; exact hunused, hsteps⟩

/-- The elements stay with their packets. -/
theorem Lists.congr (L : s.Lists v) (hn : s'.numPackets = s.numPackets)
    (he : s'.numSgElems = s.numSgElems) (hm : s'.maxSgLen = s.maxSgLen)
    (hflags : ∀ e, (s'.sgLists e).flags = (s.sgLists e).flags)
    (hv : ∀ p, (v' p).elems = (v p).elems) : s'.Lists v' := by
  constructor
  · simpa only [hn, hv] using L.nodup
  · simpa only [hn, hv] using L.disjoint
  · simpa only [hn, he, hv] using L.bound
  · simpa only [hn, he, hv, hflags] using L.unused
  · simpa only [hn, hm, hv] using L.length

theorem elems_update (hw : w.elems = (v q).elems) (p : Nat) :
    (Function.update v q w p).elems = (v p).elems := by
  by_cases hp : p = q
  · rw [hp, Function.update_self, hw]
  · rw [Function.update_of_ne hp]

/-- A step that works on the packet `q`. -/
theorem Core.shows_update (C : s.Core v) (hn : s'.numPackets = s.numPackets) (hq : s'.Shows q w)
    (hothers : ∀ p < s.numPackets, p ≠ q → Same s s' p (v p)) :
    ∀ p < s'.numPackets, s'.Shows p (Function.update v q w p) := by
  intro p hp
  by_cases hpq : p = q
  · rw [hpq, Function.update_self]
    exact hq
  · rw [Function.update_of_ne hpq]
    exact (C.shows p (hn ▸ hp)).congr (hothers p (hn ▸ hp) hpq)

theorem Core.sending_lt (C : s.Core v) (h : s.sender.holds p = true) : p < s.numPackets := by
  by_contra hp
  rw [(C.outside p (Nat.le_of_not_lt hp)).1] at h
  cases h

theorem Core.receiving_lt (C : s.Core v) (h : s.receiver.holds p = true) : p < s.numPackets := by
  by_contra hp
  rw [(C.outside p (Nat.le_of_not_lt hp)).2] at h
  cases h

/-- A packet that the sender holds. -/
theorem Core.view_sending (C : s.Core v) (h : s.sender.holds p = true) : ∃ l, v p = .sending l := by
  have hs := C.shows p (C.sending_lt h)
  cases hv : v p with
  | sending l => exact ⟨l, rfl⟩
  | _ =>
    rw [hv] at hs
    cases h.symm.trans hs.1

theorem Core.view_receiving (C : s.Core v) (h : s.receiver.holds p = true) :
    ∃ l l', v p = .receiving l l' := by
  have hs := C.shows p (C.receiving_lt h)
  cases hv : v p with
  | receiving l l' => exact ⟨l, l', rfl⟩
  | free =>
    rw [hv] at hs
    cases h.symm.trans hs.2
  | _ =>
    rw [hv] at hs
    cases h.symm.trans hs.2.1

end

end Stream

end L4env.Dsi
