import L4env.Fiasco.TimeSlice
import L4env.Fiasco.SchedRun

/-!
# Consistency of time slices

The scheduling contexts of a context form a ring with the active one in it, and all but the active one are
full. The global time slice is the active one of its owner. Every call keeps this, so that the assertions
of `switch_sched` and of the timer hold.
-/

namespace L4env.Fiasco

variable {T S : Type} [DecidableEq T] [DecidableEq S]

/-- The scheduling contexts of `t` are its own one and those of `l`, linked in this order. -/
structure SliceRing (k : Sched T S) (used : S → Bool) (t : T) (l : List S) : Prop where
  ring : IsRing (fun s => some (k.slice s).next) (fun s => some (k.slice s).prev) (k.schedContext t :: l)
  nodup : (k.schedContext t :: l).Nodup
  owner : ∀ s ∈ k.schedContext t :: l, (k.slice s).owner = t
  used : ∀ s ∈ k.schedContext t :: l, used s = true
  active : k.sched t ∈ k.schedContext t :: l
  full : ∀ s ∈ k.schedContext t :: l, s ≠ k.sched t → (k.slice s).left = (k.slice s).quantum

structure SliceInv (k : Sched T S) (used : S → Bool) : Prop where
  rings : ∀ t, ∃ l, SliceRing k used t l
  global : ∀ s, k.currentSched = some s → k.sched (k.slice s).owner = s

/-- The scheduling contexts of a context, its own one first. -/
def Belongs (k : Sched T S) (used : S → Bool) (t : T) (s : S) : Prop :=
  ∃ l, SliceRing k used t l ∧ s ∈ k.schedContext t :: l

variable {k k' : Sched T S} {used used' : S → Bool} {t x : T} {s next : S} {l : List S}

omit [DecidableEq T] [DecidableEq S] in
theorem SliceRing.congr (h : SliceRing k used t l) (hc : k'.schedContext t = k.schedContext t)
    (hlinks : ∀ s ∈ k.schedContext t :: l, (k'.slice s).next = (k.slice s).next ∧
      (k'.slice s).prev = (k.slice s).prev ∧ (k'.slice s).owner = (k.slice s).owner)
    (hused : ∀ s ∈ k.schedContext t :: l, used' s = true) (hs : k'.sched t ∈ k.schedContext t :: l)
    (hfull : ∀ s ∈ k.schedContext t :: l, s ≠ k'.sched t → (k'.slice s).left = (k'.slice s).quantum) :
    SliceRing k' used' t l := by
  refine ⟨?_, ?_, ?_, ?_, ?_, ?_⟩
  · rw [hc]
    exact h.ring.congr (fun s hs => congrArg some (hlinks s hs).1) fun s hs =>
      congrArg some (hlinks s hs).2.1
  · rw [hc]
    exact h.nodup
  · rw [hc]
    exact fun s hs => (hlinks s hs).2.2.trans (h.owner s hs)
  · rw [hc]
    exact hused
  · rw [hc]
    exact hs
  · rw [hc]
    exact hfull

namespace SliceInv

omit [DecidableEq T] [DecidableEq S] in
theorem owner_sched (h : SliceInv k used) (t : T) : (k.slice (k.sched t)).owner = t := by
  obtain ⟨l, hl⟩ := h.rings t
  exact hl.owner _ hl.active

omit [DecidableEq T] [DecidableEq S] in
theorem own (h : SliceInv k used) (t : T) : Belongs k used t (k.schedContext t) := by
  obtain ⟨l, hl⟩ := h.rings t
  exact ⟨l, hl, List.mem_cons_self⟩

omit [DecidableEq T] [DecidableEq S] in
theorem active (h : SliceInv k used) (t : T) : Belongs k used t (k.sched t) := by
  obtain ⟨l, hl⟩ := h.rings t
  exact ⟨l, hl, hl.active⟩

end SliceInv

namespace Belongs

omit [DecidableEq T] [DecidableEq S] in
theorem succ (h : Belongs k used t s) : Belongs k used t (k.slice s).next := by
  obtain ⟨l, hl, hs⟩ := h
  exact ⟨l, hl, hl.ring.next_mem hs rfl⟩

omit [DecidableEq T] [DecidableEq S] in
theorem owner (h : Belongs k used t s) : (k.slice s).owner = t := by
  obtain ⟨l, hl, hs⟩ := h
  exact hl.owner s hs

omit [DecidableEq T] [DecidableEq S] in
theorem inUse (h : Belongs k used t s) : used s = true := by
  obtain ⟨l, hl, hs⟩ := h
  exact hl.used s hs

omit [DecidableEq T] [DecidableEq S] in
theorem full (h : Belongs k used t s) (hs : s ≠ k.sched t) : (k.slice s).left = (k.slice s).quantum := by
  obtain ⟨l, hl, hmem⟩ := h
  exact hl.full s hmem hs

omit [DecidableEq T] [DecidableEq S] in
/-- The ring of a context is known by its first scheduling context. -/
theorem mem (h : Belongs k used t s) (hl : SliceRing k used t l) : s ∈ k.schedContext t :: l := by
  obtain ⟨m, hm, hs⟩ := h
  rwa [hl.ring.unique hm.ring hl.nodup hm.nodup]

end Belongs

/-- The two states differ neither in the scheduling contexts nor in which of them are active. -/
structure SameSlices (k k' : Sched T S) : Prop where
  schedContext : k'.schedContext = k.schedContext
  sched : k'.sched = k.sched
  slice : k'.slice = k.slice
  currentSched : k'.currentSched = k.currentSched

namespace SameSlices

omit [DecidableEq T] [DecidableEq S] in
theorem trans {k₁ k₂ k₃ : Sched T S} (h : SameSlices k₁ k₂) (h' : SameSlices k₂ k₃) : SameSlices k₁ k₃ :=
  ⟨h'.1.trans h.1, h'.2.trans h.2, h'.3.trans h.3, h'.4.trans h.4⟩

omit [DecidableEq T] [DecidableEq S] in
theorem ofRelinked (h : Sched.Relinked k k') : SameSlices k k' :=
  ⟨h.schedContext, h.sched, h.slice, h.currentSched⟩

omit [DecidableEq T] [DecidableEq S] in
theorem inv (h : SameSlices k k') (hk : SliceInv k used) : SliceInv k' used := by
  refine ⟨fun t => ?_, fun s hs => ?_⟩
  · obtain ⟨l, hl⟩ := hk.rings t
    refine ⟨l, hl.congr (congrFun h.schedContext t) (fun s _ => ?_) hl.used ?_ ?_⟩
    · rw [h.slice]
      exact ⟨rfl, rfl, rfl⟩
    · rw [h.sched]
      exact hl.active
    · rw [h.sched, h.slice]
      exact hl.full
  · rw [h.slice, h.sched]
    exact hk.global s (h.currentSched.symm.trans hs)

omit [DecidableEq S] in
theorem readyEnqueue (k : Sched T S) (t : T) : SameSlices k (k.readyEnqueue t) :=
  ofRelinked (Sched.readyEnqueue_relinked k t)

omit [DecidableEq S] in
theorem readyDequeue (k : Sched T S) (t : T) : SameSlices k (k.readyDequeue t) :=
  ofRelinked (Sched.readyDequeue_relinked k t)

omit [DecidableEq S] in
theorem updateReadyList (k : Sched T S) : SameSlices k k.updateReadyList := by
  unfold Sched.updateReadyList
  split
  · exact readyEnqueue k _
  · exact ⟨rfl, rfl, rfl, rfl⟩

omit [DecidableEq S] in
theorem switchExecLocked (k : Sched T S) (run : Option T) : SameSlices k (k.switchExecLocked run) := by
  unfold Sched.switchExecLocked
  split
  · exact ⟨rfl, rfl, rfl, rfl⟩
  · split
    · exact (updateReadyList k).trans ⟨rfl, rfl, rfl, rfl⟩
    · exact ⟨rfl, rfl, rfl, rfl⟩

end SameSlices

/-! ## The active scheduling context -/

/-- What `switch_sched` does. A scheduling context of the priority 0 may stay the active one. -/
structure Switched (k k' : Sched T S) (t : T) (next : S) : Prop where
  current : k'.current = k.current
  ready : k'.ready = k.ready
  schedContext : k'.schedContext = k.schedContext
  slice : k'.slice = Function.update k.slice (k.sched t)
    { k.slice (k.sched t) with left := (k.slice (k.sched t)).quantum }
  currentSched : k'.currentSched = if k.currentSched = some (k.sched t) then none else k.currentSched
  sched : k'.sched = Function.update k.sched t next ∨ k'.sched = k.sched ∧ (k.slice next).prio = 0

omit [DecidableEq T] in
theorem leaveSched_currentSched (k : Sched T S) (t : T) : (k.leaveSched t).currentSched =
    if k.currentSched = some (k.sched t) then none else k.currentSched := by
  unfold Sched.leaveSched
  by_cases hcur : k.currentSched = some (k.sched t)
  · rw [if_pos hcur, if_pos hcur]
    rfl
  · rw [if_neg hcur, if_neg hcur]
    rfl

omit [DecidableEq T] in
theorem leaveSched_same (k : Sched T S) (t : T) : (k.leaveSched t).current = k.current ∧
    (k.leaveSched t).ready = k.ready ∧ (k.leaveSched t).schedContext = k.schedContext ∧
    (k.leaveSched t).sched = k.sched := by
  unfold Sched.leaveSched
  split <;> exact ⟨rfl, rfl, rfl, rfl⟩

theorem switchSched_switched (k : Sched T S) (t : T) (next : S) :
    Switched k (k.switchSched t next) t next := by
  obtain ⟨hcurrent, hready, hcontext, hsched⟩ := leaveSched_same k t
  have hslice := Sched.leaveSched_slice k t
  have hglobal := leaveSched_currentSched k t
  have hprio : ((k.leaveSched t).slice next).prio = (k.slice next).prio := by
    rw [hslice, Function.update_apply]
    split
    · rename_i e
      rw [e]
    · rfl
  have hupdate : ∀ {k₁ k₂ : Sched T S}, k₁.sched = k₂.sched →
      (k₁.setSched t next).sched = (k₂.setSched t next).sched := by
    intro k₁ k₂ e
    unfold Sched.setSched
    rw [e]
  -- the active scheduling context is set, and the ready list is edited
  have hset : ∀ k', Sched.Relinked ((k.leaveSched t).setSched t next) k' → Switched k k' t next :=
    fun k' h => ⟨h.current.trans hcurrent, h.ready.trans hready, h.schedContext.trans hcontext,
      h.slice.trans hslice, h.currentSched.trans hglobal,
      .inl (h.sched.trans (hupdate hsched))⟩
  unfold Sched.switchSched
  dsimp only
  split
  · exact hset _ (Sched.readyEnqueue_relinked _ t)
  · split
    · refine hset _ ?_
      have hd := Sched.readyDequeue_relinked (k.leaveSched t) t
      have he := Sched.readyEnqueue_relinked (((k.leaveSched t).readyDequeue t).setSched t next) t
      exact ⟨he.current.trans hd.current, he.ready.trans hd.ready, he.schedContext.trans hd.schedContext,
        he.sched.trans (hupdate hd.sched), he.slice.trans hd.slice,
        he.currentSched.trans hd.currentSched⟩
    · split
      · exact hset _ ⟨rfl, rfl, rfl, rfl, rfl, rfl⟩
      · rename_i hzero
        rw [not_not, hprio] at hzero
        exact ⟨hcurrent, hready, hcontext, hslice, hglobal, .inr ⟨hsched, hzero⟩⟩

omit [DecidableEq T] in
/-- The time slice that a context turns to is full. -/
theorem Belongs.assertion (hn : Belongs k used t next) :
    k.switchSchedAssertion t next := by
  unfold Sched.switchSchedAssertion
  rw [Sched.leaveSched_slice, Function.update_apply]
  split
  · rfl
  · rename_i hne
    exact hn.full hne

theorem SliceInv.switchSched (h : SliceInv k used) (hn : Belongs k used t next) :
    SliceInv (k.switchSched t next) used := by
  have hw := switchSched_switched k t next
  generalize k.switchSched t next = k' at hw
  have hactive : k'.sched t = next ∨ k'.sched t = k.sched t := by
    obtain hs | hs := hw.sched
    · left
      rw [hs, Function.update_self]
    · right
      rw [hs.1]
  have hother : ∀ x, x ≠ t → k'.sched x = k.sched x := by
    intro x hx
    obtain hs | hs := hw.sched
    · rw [hs, Function.update_of_ne hx]
    · rw [hs.1]
  have hkeep : ∀ s, (k'.slice s).next = (k.slice s).next ∧ (k'.slice s).prev = (k.slice s).prev ∧
      (k'.slice s).owner = (k.slice s).owner ∧ (k'.slice s).quantum = (k.slice s).quantum ∧
      (k'.slice s).left = if s = k.sched t then (k.slice s).quantum else (k.slice s).left := by
    intro s
    rw [hw.slice, Function.update_apply]
    split
    · rename_i e
      rw [e]
      exact ⟨rfl, rfl, rfl, rfl, rfl⟩
    · exact ⟨rfl, rfl, rfl, rfl, rfl⟩
  refine ⟨fun x => ?_, fun s hs => ?_⟩
  · obtain ⟨l, hl⟩ := h.rings x
    refine ⟨l, hl.congr (congrFun hw.schedContext x)
      (fun s _ => ⟨(hkeep s).1, (hkeep s).2.1, (hkeep s).2.2.1⟩) hl.used ?_ fun s hs hne => ?_⟩
    · by_cases hx : x = t
      · subst hx
        obtain e | e := hactive
        · rw [e]
          exact hn.mem hl
        · rw [e]
          exact hl.active
      · rw [hother x hx]
        exact hl.active
    · rw [(hkeep s).2.2.2.1, (hkeep s).2.2.2.2]
      split
      · rfl
      · rename_i hleft
        refine hl.full s hs fun e => ?_
        by_cases hx : x = t
        · exact hleft (e.trans (by rw [hx]))
        · exact hne (e.trans (hother x hx).symm)
  · rw [hw.currentSched] at hs
    split at hs
    · cases hs
    · rename_i hcur
      rw [(hkeep s).2.2.1]
      have hglobal := h.global s hs
      by_cases hx : (k.slice s).owner = t
      · rw [hx] at hglobal
        exact absurd (hs.trans (congrArg some hglobal.symm)) hcur
      · rw [hother _ hx]
        exact hglobal

omit [DecidableEq T] in
/-- Only the time that is left of the old global time slice changes. -/
theorem setCurrentSched_slice (k : Sched T S) (timeout : Int) (r s : S) :
    ((k.setCurrentSched timeout r).slice s).next = (k.slice s).next ∧
      ((k.setCurrentSched timeout r).slice s).prev = (k.slice s).prev ∧
      ((k.setCurrentSched timeout r).slice s).owner = (k.slice s).owner ∧
      ((k.setCurrentSched timeout r).slice s).quantum = (k.slice s).quantum ∧
      ((k.setCurrentSched timeout r).slice s).id = (k.slice s).id ∧
      (k.currentSched ≠ some s → ((k.setCurrentSched timeout r).slice s).left = (k.slice s).left) := by
  unfold Sched.setCurrentSched
  cases hcur : k.currentSched with
  | none => exact ⟨rfl, rfl, rfl, rfl, rfl, fun _ => rfl⟩
  | some g =>
    dsimp only [Sched.setLeft, Sched.setSlice]
    rw [Function.update_apply]
    split
    · rename_i e
      rw [e]
      exact ⟨rfl, rfl, rfl, rfl, rfl, fun hne => absurd rfl hne⟩
    · exact ⟨rfl, rfl, rfl, rfl, rfl, fun _ => rfl⟩

omit [DecidableEq T] in
theorem setCurrentSched_same (k : Sched T S) (timeout : Int) (r : S) :
    (k.setCurrentSched timeout r).schedContext = k.schedContext ∧
      (k.setCurrentSched timeout r).sched = k.sched ∧
      (k.setCurrentSched timeout r).current = k.current := by
  unfold Sched.setCurrentSched
  cases k.currentSched <;> exact ⟨rfl, rfl, rfl⟩

omit [DecidableEq T] in
/-- The timer is set for the active scheduling context of a context. -/
theorem SliceInv.setCurrentSched (h : SliceInv k used) (timeout : Int) (t : T) :
    SliceInv (k.setCurrentSched timeout (k.sched t)) used := by
  have hkeep := setCurrentSched_slice k timeout (k.sched t)
  have hsame := setCurrentSched_same k timeout (k.sched t)
  refine ⟨fun x => ?_, fun s hs => ?_⟩
  · obtain ⟨l, hl⟩ := h.rings x
    refine ⟨l, hl.congr (congrFun hsame.1 x)
      (fun s _ => ⟨(hkeep s).1, (hkeep s).2.1, (hkeep s).2.2.1⟩) hl.used ?_ fun s hs hne => ?_⟩
    · rw [hsame.2.1]
      exact hl.active
    · rw [hsame.2.1] at hne
      rw [(hkeep s).2.2.2.1, (hkeep s).2.2.2.2.2 ?_]
      · exact hl.full s hs hne
      · intro hcur
        have hglobal := h.global s hcur
        rw [hl.owner s hs] at hglobal
        exact hne hglobal.symm
  · have e : s = k.sched t := by
      cases hs
      rfl
    rw [(hkeep s).2.2.1, hsame.2.1, e, h.owner_sched]

theorem SliceInv.switchToLocked (h : SliceInv k used) (timeout : Int) (t : T) (run : Option T) :
    SliceInv (k.switchToLocked timeout t run) used := by
  unfold Sched.switchToLocked
  have hset : SliceInv (if k.currentSched = some (k.sched t) then k
      else k.setCurrentSched timeout (k.sched t)) used := by
    split
    · exact h
    · exact h.setCurrentSched timeout t
  generalize (if k.currentSched = some (k.sched t) then k
    else k.setCurrentSched timeout (k.sched t)) = k' at hset
  dsimp only
  split
  · exact hset
  · exact (SameSlices.switchExecLocked _ run).inv hset

/-! ## The parameters of time slices -/

omit [DecidableEq T] in
/-- The priority and the time of a scheduling context are exchanged; the time of one that is not active
starts anew. -/
theorem SliceInv.setSlice (h : SliceInv k used) {c : SchedContext T S} (hn : c.next = (k.slice s).next)
    (hp : c.prev = (k.slice s).prev) (ho : c.owner = (k.slice s).owner)
    (hfull : s ≠ k.sched (k.slice s).owner → c.left = c.quantum) : SliceInv (k.setSlice s c) used := by
  refine ⟨fun x => ?_, fun r hr => ?_⟩
  · obtain ⟨l, hl⟩ := h.rings x
    refine ⟨l, hl.congr rfl (fun r _ => ?_) hl.used hl.active fun r hr hne => ?_⟩
    · show (Function.update k.slice s c r).next = _ ∧ (Function.update k.slice s c r).prev = _ ∧
        (Function.update k.slice s c r).owner = _
      rw [Function.update_apply]
      split
      · rename_i e
        rw [e]
        exact ⟨hn, hp, ho⟩
      · exact ⟨rfl, rfl, rfl⟩
    · show (Function.update k.slice s c r).left = (Function.update k.slice s c r).quantum
      rw [Function.update_apply]
      split
      · rename_i e
        subst e
        rw [hl.owner r hr] at hfull
        exact hfull hne
      · exact hl.full r hr hne
  · show k.sched (Function.update k.slice s c r).owner = r
    rw [Function.update_apply]
    split
    · rename_i e
      subst e
      rw [ho]
      exact h.global r hr
    · exact h.global r hr

omit [DecidableEq T] in
theorem SliceInv.schedContextById (h : SliceInv k used) {fuel id : Nat}
    (hs : k.schedContextById fuel t id = some (some s)) : Belongs k used t s := by
  unfold Sched.schedContextById at hs
  split at hs
  · cases hs
    exact h.own t
  · obtain ⟨n, rfl⟩ := Sched.findSlice_eq hs
    clear hs
    induction n with
    | zero => exact (h.own t).succ
    | succ n ih =>
      rw [Function.iterate_succ_apply']
      exact ih.succ

/-- The two states agree in the active scheduling contexts, the owners and the identifiers. -/
structure Adjusted (k k' : Sched T S) : Prop where
  current : k'.current = k.current
  schedContext : k'.schedContext = k.schedContext
  sched : k'.sched = k.sched
  currentSched : k'.currentSched = k.currentSched
  id : ∀ s, (k'.slice s).id = (k.slice s).id
  owner : ∀ s, (k'.slice s).owner = (k.slice s).owner

namespace Adjusted

omit [DecidableEq T] [DecidableEq S] in
theorem refl (k : Sched T S) : Adjusted k k := ⟨rfl, rfl, rfl, rfl, fun _ => rfl, fun _ => rfl⟩

omit [DecidableEq T] [DecidableEq S] in
theorem trans {k₁ k₂ k₃ : Sched T S} (h : Adjusted k₁ k₂) (h' : Adjusted k₂ k₃) : Adjusted k₁ k₃ :=
  ⟨h'.1.trans h.1, h'.2.trans h.2, h'.3.trans h.3, h'.4.trans h.4, fun s => (h'.5 s).trans (h.5 s),
    fun s => (h'.6 s).trans (h.6 s)⟩

omit [DecidableEq T] [DecidableEq S] in
theorem ofRelinked (h : Sched.Relinked k k') : Adjusted k k' :=
  ⟨h.current, h.schedContext, h.sched, h.currentSched, fun s => by rw [h.slice], fun s => by rw [h.slice]⟩

omit [DecidableEq T] in
theorem setSlice {c : SchedContext T S} (hid : c.id = (k.slice s).id) (ho : c.owner = (k.slice s).owner) :
    Adjusted k (k.setSlice s c) := by
  have hkeep : ∀ r, ((k.setSlice s c).slice r).id = (k.slice r).id ∧
      ((k.setSlice s c).slice r).owner = (k.slice r).owner := by
    intro r
    unfold Sched.setSlice
    dsimp only
    rw [Function.update_apply]
    split
    · rename_i e
      rw [e]
      exact ⟨hid, ho⟩
    · exact ⟨rfl, rfl⟩
  exact ⟨rfl, rfl, rfl, rfl, fun r => (hkeep r).1, fun r => (hkeep r).2⟩

end Adjusted

/-- The priority of a scheduling context is set, where its context has left the ready list. -/
theorem SliceInv.setPrio (h : SliceInv k used) (hs : Belongs k used t s) (prio : Nat) :
    SliceInv ((if s = k.sched t then k.readyDequeue t else k).setSlice s
      { (if s = k.sched t then k.readyDequeue t else k).slice s with prio := prio }) used ∧
    Adjusted k ((if s = k.sched t then k.readyDequeue t else k).setSlice s
      { (if s = k.sched t then k.readyDequeue t else k).slice s with prio := prio }) := by
  have hd : SameSlices k (if s = k.sched t then k.readyDequeue t else k) ∧
      Adjusted k (if s = k.sched t then k.readyDequeue t else k) := by
    split
    · exact ⟨.readyDequeue k t, .ofRelinked (Sched.readyDequeue_relinked k t)⟩
    · exact ⟨⟨rfl, rfl, rfl, rfl⟩, .refl k⟩
  generalize (if s = k.sched t then k.readyDequeue t else k) = k₀ at hd
  obtain ⟨hsame, hadj⟩ := hd
  refine ⟨(hsame.inv h).setSlice rfl rfl rfl fun hne => ?_, hadj.trans (.setSlice rfl rfl)⟩
  rw [hsame.slice]
  rw [hsame.slice, hsame.sched, hs.owner] at hne
  exact hs.full hne

omit [DecidableEq T] in
/-- The quantum of a scheduling context is set, and its time unless it is the active one. -/
theorem SliceInv.setQuantum (h : SliceInv k used) (ho : (k.slice s).owner = t) (q : Nat) :
    SliceInv (if s ≠ k.sched t then (k.setSlice s { k.slice s with quantum := q }).setLeft s q
      else k.setSlice s { k.slice s with quantum := q }) used ∧
    Adjusted k (if s ≠ k.sched t then (k.setSlice s { k.slice s with quantum := q }).setLeft s q
      else k.setSlice s { k.slice s with quantum := q }) := by
  split
  · have hset : (k.setSlice s { k.slice s with quantum := q }).setLeft s q =
        k.setSlice s { k.slice s with quantum := q, left := q } := by
      unfold Sched.setLeft Sched.setSlice
      simp
    rw [hset]
    exact ⟨h.setSlice rfl rfl rfl fun _ => rfl, .setSlice rfl rfl⟩
  · rename_i hne
    rw [not_not] at hne
    refine ⟨h.setSlice rfl rfl rfl fun hne' => absurd ?_ hne', .setSlice rfl rfl⟩
    rw [ho]
    exact hne

theorem SliceInv.setScheduleParam (h : SliceInv k used) {fuel mcp id : Nat} {param : Sched.SchedParam}
    {r : Bool × Sched T S} (hr : k.setScheduleParam fuel t mcp param id = some r) :
    SliceInv r.2 used ∧ Adjusted k r.2 := by
  unfold Sched.setScheduleParam at hr
  split at hr
  · cases hr
    exact ⟨h, .refl k⟩
  · split at hr
    · cases hr
    · cases hr
      exact ⟨h, .refl k⟩
    · rename_i s hs
      have hmem := h.schedContextById hs
      have hprio : ∃ k₁, k₁ = (if (k.slice s).prio ≠ param.prio then
          (if s = k.sched t then k.readyDequeue t else k).setSlice s
            { (if s = k.sched t then k.readyDequeue t else k).slice s with prio := param.prio }
        else k) ∧ SliceInv k₁ used ∧ Adjusted k k₁ := by
        refine ⟨_, rfl, ?_⟩
        split
        · exact h.setPrio hmem param.prio
        · exact ⟨h, .refl k⟩
      obtain ⟨k₁, hk₁, hinv, hadj⟩ := hprio
      dsimp only at hr
      rw [← hk₁] at hr
      split at hr
      · cases hr
        exact ⟨hinv, hadj⟩
      · rename_i time _
        cases hr
        obtain ⟨hinv', hadj'⟩ := hinv.setQuantum ((hadj.owner s).trans hmem.owner)
          (Sched.roundQuantum time)
        exact ⟨hinv', hadj.trans hadj'⟩

/-! ## The ring of time slices -/

omit [DecidableEq T] in
/-- A field of the scheduling contexts after `enqueue_before` of a new one. -/
theorem enqueueBefore_apply {c : SchedContext T S} {sibling prev : S} (hs : s ≠ sibling)
    (hp : (k.slice sibling).prev = prev) (hsp : s ≠ prev) (r : S) :
    ((k.setSlice s c).enqueueBefore s sibling).slice r =
      if r = s then { c with next := sibling, prev := prev }
      else
        { k.slice r with
          next := if r = prev then s else (k.slice r).next
          prev := if r = sibling then s else (k.slice r).prev } := by
  have hs' : sibling ≠ s := hs.symm
  have hsp' : prev ≠ s := hsp.symm
  unfold Sched.enqueueBefore Sched.setSlice
  dsimp only
  rw [Function.update_of_ne hs', hp]
  by_cases hr : r = s
  · subst hr
    rw [if_pos rfl, Function.update_of_ne hsp, Function.update_of_ne hs, Function.update_self,
      Function.update_self]
  · rw [if_neg hr]
    by_cases hrp : r = prev
    · subst hrp
      rw [if_pos rfl, Function.update_self]
      by_cases hrs : r = sibling
      · subst hrs
        simp [Function.update_of_ne hs']
      · simp [Function.update_of_ne hr, hrs]
    · rw [if_neg hrp, Function.update_of_ne hrp]
      by_cases hrs : r = sibling
      · subst hrs
        simp [Function.update_of_ne hs']
      · simp [Function.update_of_ne hr, hrs]

omit [DecidableEq T] in
theorem dequeueSlice_apply (r : S) : (k.dequeueSlice s).slice r =
    { k.slice r with
      next := if r = (k.slice s).prev then (k.slice s).next else (k.slice r).next
      prev := if r = (k.slice s).next then (k.slice s).prev else (k.slice r).prev } := by
  unfold Sched.dequeueSlice Sched.setSlice
  dsimp only
  by_cases hn : r = (k.slice s).next
  · subst hn
    rw [Function.update_self, if_pos rfl]
    by_cases hp : (k.slice s).next = (k.slice s).prev
    · rw [hp, Function.update_self, if_pos rfl]
    · rw [Function.update_of_ne hp, if_neg hp]
  · rw [Function.update_of_ne hn, if_neg hn]
    by_cases hp : r = (k.slice s).prev
    · subst hp
      rw [Function.update_self, if_pos rfl]
    · rw [Function.update_of_ne hp, if_neg hp]

/-- A full time slice that was not in use is put at the end of the ring. -/
theorem SliceInv.enqueue (h : SliceInv k used) {c : SchedContext T S} (hs : used s = false)
    (ho : c.owner = t) (hfull : c.left = c.quantum) :
    SliceInv ((k.setSlice s c).enqueueBefore s (k.schedContext t)) (Function.update used s true) ∧
      ∀ r, r ≠ s → (((k.setSlice s c).enqueueBefore s (k.schedContext t)).slice r).id =
        (k.slice r).id := by
  obtain ⟨l, hl⟩ := h.rings t
  have hout : ∀ x r, Belongs k used x r → r ≠ s := by
    rintro x r hr rfl
    rw [hr.inUse] at hs
    cases hs
  have hprev : Belongs k used t (k.slice (k.schedContext t)).prev :=
    ⟨l, hl, hl.ring.prev_mem List.mem_cons_self rfl⟩
  have happly := enqueueBefore_apply (c := c) (hout t _ (h.own t)).symm rfl (hout t _ hprev).symm
  refine ⟨⟨fun x => ?_, fun r hr => ?_⟩, fun r hr => by rw [happly, if_neg hr]⟩
  · by_cases hx : x = t
    · subst hx
      have hsl : s ∉ k.schedContext x :: l := fun hmem => hout x s ⟨l, hl, hmem⟩ rfl
      have hkeep : ∀ r ∈ k.schedContext x :: l, r ≠ s := fun r hr => hout x r ⟨l, hl, hr⟩
      have hring := hl.ring.push_write hl.nodup rfl hsl
      have hback : ∀ r ∈ k.schedContext x :: (l ++ [s]), r ≠ s → r ∈ k.schedContext x :: l := by
        intro r hr hne
        simpa [hne] using hr
      refine ⟨l ++ [s], ?_, ?_, ?_, ?_, ?_, ?_⟩
      · refine hring.congr (fun r _ => ?_) fun r _ => ?_
        · simp only [writeAt]
          rw [happly, Function.update_apply, Function.update_apply]
          by_cases hr : r = s
          · subst hr
            rw [if_pos rfl, if_neg (hout x _ hprev).symm, if_pos rfl]
          · rw [if_neg hr, if_neg hr]
            exact apply_ite some _ _ _
        · rw [happly, Function.update_apply, Function.update_apply]
          by_cases hr : r = s
          · subst hr
            rw [if_pos rfl, if_neg (hout x _ (h.own x)).symm, if_pos rfl]
          · rw [if_neg hr, if_neg hr]
            split <;> rfl
      · exact List.nodup_append.mpr ⟨hl.nodup, List.nodup_singleton s, by
          intro a ha b hb e
          rw [List.mem_singleton] at hb
          exact hsl (hb ▸ e ▸ ha)⟩
      · intro r hr
        rw [happly]
        split
        · exact ho
        · rename_i hne
          exact hl.owner r (hback r hr hne)
      · intro r hr
        rw [Function.update_apply]
        split
        · rfl
        · rename_i hne
          exact hl.used r (hback r hr hne)
      · exact List.mem_append_left [s] hl.active
      · intro r hr hne
        rw [happly]
        split
        · exact hfull
        · rename_i hrs
          exact hl.full r (hback r hr hrs) hne
    · obtain ⟨m, hm⟩ := h.rings x
      have hother : ∀ r ∈ k.schedContext x :: m, ∀ a, Belongs k used t a → r ≠ a := by
        rintro r hr a ha rfl
        exact hx ((hm.owner r hr).symm.trans ha.owner)
      refine ⟨m, hm.congr rfl (fun r hr => ?_) (fun r hr => ?_) hm.active fun r hr hne => ?_⟩
      · rw [happly, if_neg (hout x r ⟨m, hm, hr⟩), if_neg (hother r hr _ hprev),
          if_neg (hother r hr _ (h.own t))]
        exact ⟨rfl, rfl, rfl⟩
      · rw [Function.update_of_ne (hout x r ⟨m, hm, hr⟩)]
        exact hm.used r hr
      · rw [happly, if_neg (hout x r ⟨m, hm, hr⟩)]
        exact hm.full r hr hne
  · have hglobal := h.global r hr
    have hrs : r ≠ s := by
      rw [← hglobal]
      exact hout _ _ (h.active _)
    rw [happly, if_neg hrs]
    exact hglobal

/-- The first real-time slice is removed. -/
theorem SliceInv.dequeue (h : SliceInv k used) (hl : SliceRing k used t (s :: l))
    (hs : k.sched t ≠ s) : SliceInv (k.dequeueSlice s) (Function.update used s false) ∧
      SliceRing (k.dequeueSlice s) (Function.update used s false) t l := by
  have hmem : s ∈ k.schedContext t :: s :: l := List.mem_cons_of_mem _ List.mem_cons_self
  have hprev : Belongs k used t (k.slice s).prev := ⟨s :: l, hl, hl.ring.prev_mem hmem rfl⟩
  have hnext : Belongs k used t (k.slice s).next := ⟨s :: l, hl, hl.ring.next_mem hmem rfl⟩
  have hperm : (k.schedContext t :: s :: l).Perm (s :: k.schedContext t :: l) := List.Perm.swap ..
  obtain ⟨hsl, hnodup⟩ := List.nodup_cons.mp (hperm.nodup_iff.mp hl.nodup)
  have hkeep : ∀ r ∈ k.schedContext t :: l, r ∈ k.schedContext t :: s :: l ∧ r ≠ s := by
    intro r hr
    exact ⟨hperm.mem_iff.mpr (List.mem_cons_of_mem _ hr), fun e => hsl (e ▸ hr)⟩
  have hself : SliceRing (k.dequeueSlice s) (Function.update used s false) t l := by
    have hcut : IsRing _ _ ([k.schedContext t] ++ s :: l) := hl.ring
    have hring := hcut.remove_write hl.nodup (v := some (k.slice s).next)
    refine ⟨?_, hnodup, fun r hr => ?_, fun r hr => ?_, ?_, fun r hr hne => ?_⟩
    · refine hring.congr (fun r hr => ?_) fun r _ => ?_
      · simp only [writeAt]
        rw [dequeueSlice_apply, Function.update_of_ne (hkeep r hr).2, Function.update_apply]
        exact apply_ite some _ _ _
      · simp only [writeAt]
        rw [dequeueSlice_apply, Function.update_apply]
        split <;> rfl
    · rw [dequeueSlice_apply]
      exact hl.owner r (hkeep r hr).1
    · rw [Function.update_of_ne (hkeep r hr).2]
      exact hl.used r (hkeep r hr).1
    · exact (List.mem_cons.mp (hperm.mem_iff.mp hl.active)).resolve_left hs
    · rw [dequeueSlice_apply]
      exact hl.full r (hkeep r hr).1 hne
  refine ⟨⟨fun x => ?_, fun r hr => ?_⟩, hself⟩
  · by_cases hx : x = t
    · subst hx
      exact ⟨l, hself⟩
    · obtain ⟨m, hm⟩ := h.rings x
      have hother : ∀ r ∈ k.schedContext x :: m, ∀ a, Belongs k used t a → r ≠ a := by
        rintro r hr a ha rfl
        exact hx ((hm.owner r hr).symm.trans ha.owner)
      refine ⟨m, hm.congr rfl (fun r hr => ?_) (fun r hr => ?_) hm.active fun r hr hne => ?_⟩
      · rw [dequeueSlice_apply, if_neg (hother r hr _ hprev), if_neg (hother r hr _ hnext)]
        exact ⟨rfl, rfl, rfl⟩
      · rw [Function.update_of_ne (hother r hr s ⟨s :: l, hl, hmem⟩)]
        exact hm.used r hr
      · rw [dequeueSlice_apply]
        exact hm.full r hr hne
  · rw [dequeueSlice_apply]
    exact h.global r hr

/-- `remove_realtime_param` comes to the end of the ring and leaves only the timesharing slice in it. -/
theorem SliceInv.removeLoop {c : TimeSlices T S} (h : SliceInv c.k c.used)
    (hl : SliceRing c.k c.used t l) (hs : c.k.sched t = c.k.schedContext t) :
    (∀ fuel, l.length < fuel → (c.removeLoop (c.k.schedContext t) fuel (c.firstRealtime t)).isSome) ∧
    ∀ fuel c', c.removeLoop (c.k.schedContext t) fuel (c.firstRealtime t) = some c' →
      SliceInv c'.k c'.used ∧ SliceRing c'.k c'.used t [] ∧ Adjusted c.k c'.k ∧
        c'.periodic = c.periodic ∧ c'.inSchedule = c.inSchedule := by
  induction l generalizing c with
  | nil =>
    have hend : c.firstRealtime t = c.k.schedContext t := by
      have hnext := hl.ring.next_first
      exact Option.some.inj hnext
    refine ⟨fun fuel hf => ?_, fun fuel c' hc => ?_⟩
    · cases fuel with
      | zero => cases hf
      | succ fuel =>
        unfold TimeSlices.removeLoop
        rw [if_pos hend]
        rfl
    · cases fuel with
      | zero => cases hc
      | succ fuel =>
        unfold TimeSlices.removeLoop at hc
        rw [if_pos hend] at hc
        cases hc
        exact ⟨h, hl, .refl _, rfl, rfl⟩
  | cons s l ih =>
    have hfirst : c.firstRealtime t = s := by
      have hnext := hl.ring.next_first
      exact Option.some.inj hnext
    have hne : s ≠ c.k.schedContext t := by
      rintro rfl
      exact (List.nodup_cons.mp hl.nodup).1 List.mem_cons_self
    obtain ⟨hinv, hring⟩ := h.dequeue hl fun e => hne (e.symm.trans hs)
    generalize hd : ({ c with k := c.k.dequeueSlice s, used := Function.update c.used s false } :
      TimeSlices T S) = d
    have hdk : d.k = c.k.dequeueSlice s := by rw [← hd]
    have hdu : d.used = Function.update c.used s false := by rw [← hd]
    have hcontext : d.k.schedContext = c.k.schedContext := by rw [hdk]; rfl
    have hsched : d.k.sched = c.k.sched := by rw [hdk]; rfl
    rw [← hdk, ← hdu] at hinv hring
    have hnext : (c.k.slice s).next = d.firstRealtime t := by
      have hnew := hring.ring.next_first
      have hcut : IsRing _ _ ([c.k.schedContext t] ++ s :: l) := hl.ring
      have hold := hcut.rotate.next_first
      have e : (l ++ [c.k.schedContext t]).head? = (l ++ [d.k.schedContext t]).head? := by rw [hcontext]
      have hold' : some (c.k.slice s).next = (l ++ [c.k.schedContext t]).head? := by
        rw [hold]
        cases l <;> simp
      exact Option.some.inj (hold'.trans (e.trans hnew.symm))
    obtain ⟨hends, hres⟩ := ih hinv hring (by rw [hsched, hcontext, hs])
    rw [hcontext] at hends hres
    have hround : ∀ fuel, c.removeLoop (c.k.schedContext t) (fuel + 1) (c.firstRealtime t) =
        d.removeLoop (c.k.schedContext t) fuel (d.firstRealtime t) := by
      intro fuel
      rw [hfirst, ← hnext, ← hd]
      conv_lhs => unfold TimeSlices.removeLoop
      rw [if_neg hne]
    refine ⟨fun fuel hf => ?_, fun fuel c' hc => ?_⟩
    · cases fuel with
      | zero => cases hf
      | succ fuel =>
        rw [hround]
        exact hends fuel (Nat.lt_of_succ_lt_succ hf)
    · cases fuel with
      | zero => cases hc
      | succ fuel =>
        rw [hround] at hc
        obtain ⟨hinv', hring', hun, hperiodic, hin⟩ := hres fuel c' hc
        have hadj : Adjusted c.k d.k := by
          rw [hdk]
          exact ⟨rfl, rfl, rfl, rfl, fun r => by rw [dequeueSlice_apply], fun r => by
            rw [dequeueSlice_apply]⟩
        exact ⟨hinv', hring', hadj.trans hun, hperiodic.trans (by rw [← hd]), hin.trans (by rw [← hd])⟩

end L4env.Fiasco
