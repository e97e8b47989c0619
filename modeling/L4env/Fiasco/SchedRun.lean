import L4env.Fiasco.SchedInv

/-!
# Runs of the scheduler

The ready list is consistent in every state of every run, and `schedule` selects a context of the
highest priority in the list.
-/

namespace L4env.Fiasco.Sched

variable {T S : Type} [DecidableEq T] [DecidableEq S] {k k' : Sched T S} {t : T} {s next : S}
  {p fuel mcp id : Nat} {param : SchedParam} {ok : Bool}

/-! ## Steps -/

omit [DecidableEq T] [DecidableEq S] in
/-- The first context of a ring gives way to the one behind it. -/
theorem Inv.rotate (h : Inv k) (ht : k.prioNext p = some t) :
    Inv { k with prioNext := Function.update k.prioNext p (k.readyNext t) } := by
  obtain ⟨l, hl⟩ := h.rings p
  obtain ⟨l', rfl⟩ := List.head?_eq_some_iff.mp (hl.head.symm.trans ht)
  have hn : k.readyNext t = (l' ++ [t]).head? := hl.ring.next_first
  have hring : IsRing k.readyNext k.readyPrev ([t] ++ l') := hl.ring
  have hsome : ((l' ++ [t]).head?).isSome := by
    cases l' with
    | nil => rfl
    | cons x l' => rfl
  refine ⟨h.edit (l := l' ++ [t]) (p := p) ⟨?_, ?_, ?_, ?_⟩ (fun _ => rfl) (fun _ _ => rfl)
    (fun _ _ => rfl) ?_, fun q hq => ?_, ?_, ⟨h.slices.active, h.slices.own⟩⟩
  · exact hring.rotate
  · exact List.perm_append_comm.nodup_iff.mp hl.nodup
  · rw [← hn]
    exact Function.update_self ..
  · intro x
    rw [List.perm_append_comm.mem_iff]
    exact hl.mem x
  · exact fun q hq => Function.update_of_ne hq _ _
  · have hq' := h.above q hq
    have hne : q ≠ p := by
      rintro rfl
      rw [ht] at hq'
      cases hq'
    exact (Function.update_of_ne hne _ _).trans hq'
  · refine h.highest.imp (fun h => h) fun htop => ?_
    show (Function.update k.prioNext p (k.readyNext t) k.prioHighest).isSome
    rw [Function.update_apply]
    split
    · rw [hn]
      exact hsome
    · exact htop

omit [DecidableEq T] in
theorem leaveSched_slice (k : Sched T S) (t : T) : (k.leaveSched t).slice =
    Function.update k.slice (k.sched t)
      { k.slice (k.sched t) with left := (k.slice (k.sched t)).quantum } := by
  unfold leaveSched
  by_cases hcur : k.currentSched = some (k.sched t)
  · rw [if_pos hcur]
    rfl
  · rw [if_neg hcur]
    rfl

omit [DecidableEq T] in
theorem leaveSched_owner (k : Sched T S) (t : T) (s : S) :
    ((k.leaveSched t).slice s).owner = (k.slice s).owner := by
  rw [leaveSched_slice, Function.update_apply]
  split
  · rename_i hs
    rw [hs]
  · rfl

theorem Inv.switchSched (h : Inv k) (ho : (k.slice next).owner = t) : Inv (k.switchSched t next) := by
  have h₁ := h.leaveSched t
  have ho₁ := (leaveSched_owner k t next).trans ho
  unfold Sched.switchSched
  generalize k.leaveSched t = k₁ at h₁ ho₁
  dsimp only
  split
  · rename_i hout
    have hout : k₁.inReadyList t = false := by simpa using hout
    refine (h₁.setSched ho₁ fun hin => ?_).readyEnqueue t
    rw [hout] at hin
    cases hin
  · split
    · obtain ⟨hd, hout⟩ := h₁.readyDequeue t
      refine (hd.setSched ?_ fun hin => ?_).readyEnqueue t
      · rw [(readyDequeue_relinked k₁ t).slice]
        exact ho₁
      · rw [hout] at hin
        cases hin
    · rename_i hsame
      rw [not_or, not_not, not_not] at hsame
      split
      · exact (h₁.setSched ho₁ fun _ => hsame.1.symm).rotate hsame.2
      · exact h₁

omit [DecidableEq T] in
/-- `sched_context` finds a scheduling context of the ring. -/
theorem findSlice_eq {stop s r : S} (h : k.findSlice stop id fuel s = some (some r)) :
    ∃ n, r = (fun s => (k.slice s).next)^[n] s := by
  induction fuel generalizing s with
  | zero => cases h
  | succ fuel ih =>
    unfold findSlice at h
    split at h
    · cases h
    · split at h
      · cases h
        exact ⟨0, rfl⟩
      · obtain ⟨n, hn⟩ := ih h
        exact ⟨n + 1, hn⟩

omit [DecidableEq T] in
theorem schedContextById_owner (h : Slices k) (hs : k.schedContextById fuel t id = some (some s)) :
    (k.slice s).owner = t := by
  unfold schedContextById at hs
  split at hs
  · cases hs
    exact h.own t 0
  · obtain ⟨n, rfl⟩ := findSlice_eq hs
    exact h.own t (n + 1)

/-- A context whose active scheduling context is about to get another priority leaves the list. -/
theorem Inv.unlinkFor (h : Inv k) (ho : (k.slice s).owner = t) :
    Inv (if s = k.sched t then k.readyDequeue t else k) ∧
    ∀ x, (if s = k.sched t then k.readyDequeue t else k).inReadyList x = true →
      (if s = k.sched t then k.readyDequeue t else k).sched x ≠ s := by
  split
  · rename_i hs
    obtain ⟨hd, hout⟩ := h.readyDequeue t
    refine ⟨hd, fun x hx e => ?_⟩
    rw [(readyDequeue_relinked k t).sched] at e
    rw [h.slices.unique (e.trans hs), hout] at hx
    cases hx
  · rename_i hs
    refine ⟨h, fun x _ e => hs ?_⟩
    have hx := h.slices.active x
    rw [e, ho] at hx
    rw [hx, e]

omit [DecidableEq T] in
/-- The time of a scheduling parameter is set once its priority is. -/
theorem Inv.setTime (h : Inv k)
    (hk : (match param.time with
      | none => some (true, k)
      | some time =>
        let q := roundQuantum time
        let k := k.setSlice s { k.slice s with quantum := q }
        some (true, if s ≠ k.sched t then k.setLeft s q else k)) = some (ok, k')) : Inv k' := by
  split at hk
  · cases hk
    exact h
  · rename_i time _
    cases hk
    have hquantum : Inv (k.setSlice s { k.slice s with quantum := roundQuantum time }) :=
      h.setSlice rfl rfl fun _ _ _ => rfl
    split
    · exact hquantum.setLeft _
    · exact hquantum

theorem Inv.setScheduleParam (h : Inv k)
    (hk : k.setScheduleParam fuel t mcp param id = some (ok, k')) : Inv k' := by
  unfold Sched.setScheduleParam at hk
  split at hk
  · cases hk
    exact h
  · split at hk
    · cases hk
    · cases hk
      exact h
    · rename_i s hs
      obtain ⟨hd, hfree⟩ := h.unlinkFor (schedContextById_owner h.slices hs)
      refine Inv.setTime (s := s) (t := t) ?_ hk
      split
      · exact hd.setSlice rfl rfl fun x hx e => absurd e (hfree x hx)
      · exact h

/-! ## Runs -/

/-- The calls of the ready list, and what else the kernel does: it may change anything but the ready
list, the active scheduling contexts, and the owners and priorities of scheduling contexts. -/
inductive Step : Sched T S → Sched T S → Prop
  | readyEnqueue {k : Sched T S} (t : T) : Step k (k.readyEnqueue t)
  | readyDequeue {k : Sched T S} (t : T) : Step k (k.readyDequeue t)
  | switchSched {k : Sched T S} (t : T) (next : S) : (k.slice next).owner = t →
    Step k (k.switchSched t next)
  | setScheduleParam {k k' : Sched T S} (fuel : Nat) (t : T) (mcp : Nat) (param : SchedParam)
      (id : Nat) (ok : Bool) :
    k.setScheduleParam fuel t mcp param id = some (ok, k') → Step k k'
  | other {k k' : Sched T S} : k'.readyNext = k.readyNext → k'.readyPrev = k.readyPrev →
    k'.prioNext = k.prioNext → k'.prioHighest = k.prioHighest →
    k'.sched = k.sched → k'.schedContext = k.schedContext →
    (∀ s, (k'.slice s).owner = (k.slice s).owner) → (∀ s, (k'.slice s).prio = (k.slice s).prio) →
    (∀ s, (k'.slice s).next = (k.slice s).next) → Step k k'

/-- The loop of `schedule` with the context it selects. Where a context is not ready, interrupts may
do any number of steps before the next round. -/
inductive Selects : Sched T S → T → Sched T S → Prop
  | run {k : Sched T S} {t : T} : k.scheduleRound = some (.inl t) → Selects k t k
  | again {k k₁ k₂ k' : Sched T S} {t : T} : k.scheduleRound = some (.inr k₁) → Relation.ReflTransGen Step k₁ k₂ → Selects k₂ t k' →
    Selects k t k'

/-- Contexts that run on their own scheduling context, none of them in the ready list. -/
structure Initial (k : Sched T S) : Prop where
  readyNext : ∀ t, k.readyNext t = none
  prioNext : ∀ p, k.prioNext p = none
  prioHighest : k.prioHighest = 0
  sched : k.sched = k.schedContext
  slices : Slices k

/-- The states of the runs: any steps in any order, and selections by `schedule` of the context that
runs next. -/
inductive Reachable : Sched T S → Prop
  | initial {k : Sched T S} : Initial k → Reachable k
  | step {k k' : Sched T S} : Reachable k → Step k k' → Reachable k'
  | schedule {k k' : Sched T S} {t : T} : Reachable k → Selects k.updateReadyList t k' →
    Reachable { k' with current := t }

theorem Inv.step (h : Inv k) (hs : Step k k') : Inv k' := by
  cases hs with
  | readyEnqueue t => exact h.readyEnqueue t
  | readyDequeue t => exact (h.readyDequeue t).1
  | switchSched t next ho => exact h.switchSched ho
  | setScheduleParam fuel t mcp param id ok hk => exact h.setScheduleParam hk
  | other hnext hprev hhead hhighest hsched hown ho hp hn =>
    refine h.congr (h.slices.congr hsched hown ho hn) hnext hprev hhead hhighest fun x _ => ?_
    unfold prio
    rw [hsched, hp]

theorem Inv.steps (h : Inv k) (hs : Relation.ReflTransGen Step k k') : Inv k' := by
  induction hs with
  | refl => exact h
  | tail _ hs ih => exact ih.step hs

omit [DecidableEq S] in
theorem Inv.updateReadyList (h : Inv k) : Inv k.updateReadyList := by
  unfold Sched.updateReadyList
  split
  · exact h.readyEnqueue _
  · exact h

theorem Inv.selects (h : Inv k) (hs : Selects k t k') :
    Inv k' ∧ k'.prioNext k'.prioHighest = some t ∧ k'.ready t = true := by
  induction hs with
  | @run k t hround =>
    unfold scheduleRound at hround
    split at hround
    · cases hround
    · rename_i x hx
      split at hround
      · rename_i hready
        cases hround
        exact ⟨h, hx, hready⟩
      · cases hround
  | @again k k₁ k₂ t k' hround hsteps _ ih =>
    unfold scheduleRound at hround
    split at hround
    · cases hround
    · rename_i x hx
      split at hround
      · cases hround
      · cases hround
        exact ih ((h.readyDequeue x).1.steps hsteps)

omit [DecidableEq T] [DecidableEq S] in
theorem Initial.inv (h : Initial k) : Inv k := by
  refine ⟨fun p => ⟨[], trivial, List.nodup_nil, h.prioNext p, fun t => ?_⟩, fun p _ => h.prioNext p,
    .inl h.prioHighest, h.slices⟩
  unfold inReadyList
  simp [h.readyNext]

theorem Reachable.inv (h : Reachable k) : Inv k := by
  induction h with
  | initial h => exact h.inv
  | step _ hs ih => exact ih.step hs
  | schedule _ hs ih =>
    have hinv := (ih.updateReadyList.selects hs).1
    exact hinv.congr ⟨hinv.slices.active, hinv.slices.own⟩ rfl rfl rfl rfl fun _ _ => rfl

omit [DecidableEq T] [DecidableEq S] in
/-- No context in the ready list has a higher priority than `_prio_highest`. -/
theorem Inv.prio_le (h : Inv k) (ht : k.inReadyList t = true) : k.prio t ≤ k.prioHighest := by
  obtain ⟨l, hl⟩ := h.rings (k.prio t)
  by_contra hlt
  have hnil := hl.head.symm.trans (h.above _ (Nat.not_le.mp hlt))
  rw [List.head?_eq_none_iff] at hnil
  have hmem := (hl.mem t).mpr ⟨ht, rfl⟩
  rw [hnil] at hmem
  cases hmem

omit [DecidableEq T] [DecidableEq S] in
theorem Inv.prioNext_spec (h : Inv k) (p : Nat) :
    (k.prioNext p = none ↔ ∀ t, k.inReadyList t = true → k.prio t ≠ p) ∧
    ∀ t, k.prioNext p = some t → k.inReadyList t = true ∧ k.prio t = p := by
  obtain ⟨l, hl⟩ := h.rings p
  rw [hl.head]
  refine ⟨?_, fun t ht => (hl.mem t).mp (List.mem_of_mem_head? ht)⟩
  rw [List.head?_eq_none_iff]
  constructor
  · rintro rfl t ht hp
    cases (hl.mem t).mpr ⟨ht, hp⟩
  · intro hall
    refine List.eq_nil_iff_forall_not_mem.mpr fun t ht => ?_
    obtain ⟨hin, hp⟩ := (hl.mem t).mp ht
    exact hall t hin hp

/-- Two contexts of the priorities 1 and 2, the first one running. -/
def twoContexts : Sched (Fin 2) (Fin 2) where
  current := 0
  readyNext _ := none
  readyPrev _ := none
  ready _ := true
  schedContext t := t
  sched t := t
  slice s := ⟨s, 0, s + 1, 10000, 10000, s, s⟩
  prioNext _ := none
  prioHighest := 0
  currentSched := none

end L4env.Fiasco.Sched
