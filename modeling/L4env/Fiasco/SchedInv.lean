import L4env.Fiasco.Sched

/-!
# Consistency of the ready list

The contexts in the ready list form one ring for each priority. `_prio_next` points into the ring of
its priority and `_prio_highest` is the last entry that is used. Every function that edits the list
changes the ring of one priority only, that of the context it is called for.
-/

namespace L4env.Fiasco.Sched

variable {T S : Type} [DecidableEq T] [DecidableEq S] {k k' : Sched T S} {t x : T} {s : S}
  {p q : Nat} {l m : List T} {c : SchedContext T S}

/-- The contexts of `l` are those of priority `p` in the ready list, linked in this order. -/
structure ReadyRing (k : Sched T S) (p : Nat) (l : List T) : Prop where
  ring : IsRing k.readyNext k.readyPrev l
  nodup : l.Nodup
  head : k.prioNext p = l.head?
  mem : ∀ t, t ∈ l ↔ k.inReadyList t = true ∧ k.prio t = p

/-- Scheduling contexts belong to the context in whose ring they are. -/
structure Slices (k : Sched T S) : Prop where
  active : ∀ t, (k.slice (k.sched t)).owner = t
  own : ∀ t n, (k.slice ((fun s => (k.slice s).next)^[n] (k.schedContext t))).owner = t

structure Inv (k : Sched T S) : Prop where
  rings : ∀ p, ∃ l, ReadyRing k p l
  above : ∀ p, k.prioHighest < p → k.prioNext p = none
  highest : k.prioHighest = 0 ∨ (k.prioNext k.prioHighest).isSome
  slices : Slices k

omit [DecidableEq T] [DecidableEq S] in
theorem Slices.congr (h : Slices k) (hs : k'.sched = k.sched) (hc : k'.schedContext = k.schedContext)
    (ho : ∀ s, (k'.slice s).owner = (k.slice s).owner)
    (hn : ∀ s, (k'.slice s).next = (k.slice s).next) : Slices k' := by
  refine ⟨fun t => ?_, fun t n => ?_⟩
  · rw [ho, hs]
    exact h.active t
  · rw [ho, hc, funext hn]
    exact h.own t n

omit [DecidableEq T] [DecidableEq S] in
theorem Slices.unique (h : Slices k) (hx : k.sched x = k.sched t) : x = t := by
  rw [← h.active x, hx, h.active t]

omit [DecidableEq T] [DecidableEq S] in
/-- Only the ring of one priority is edited. -/
theorem Inv.edit (h : Inv k) (hl : ReadyRing k' p l) (hprio : ∀ x, k'.prio x = k.prio x)
    (hnext : ∀ x, k.prio x ≠ p → k'.readyNext x = k.readyNext x)
    (hprev : ∀ x, k.prio x ≠ p → k'.readyPrev x = k.readyPrev x)
    (hhead : ∀ q, q ≠ p → k'.prioNext q = k.prioNext q) : ∀ q, ∃ l, ReadyRing k' q l := by
  intro q
  by_cases hq : q = p
  · exact ⟨l, hq ▸ hl⟩
  · obtain ⟨m, hm⟩ := h.rings q
    have hne : ∀ x ∈ m, k.prio x ≠ p := fun x hx e => hq (((hm.mem x).mp hx).2.symm.trans e)
    refine ⟨m, hm.ring.congr (fun x hx => hnext x (hne x hx)) (fun x hx => hprev x (hne x hx)),
      hm.nodup, (hhead q hq).trans hm.head, fun x => ?_⟩
    rw [hm.mem, hprio]
    refine and_congr_left fun hx => ?_
    unfold inReadyList
    rw [hnext x (hx ▸ hq)]

omit [DecidableEq T] [DecidableEq S] in
/-- A change that leaves the links, the array and the priorities in the list alone. -/
theorem Inv.congr (h : Inv k) (hslices : Slices k') (hnext : k'.readyNext = k.readyNext)
    (hprev : k'.readyPrev = k.readyPrev) (hhead : k'.prioNext = k.prioNext)
    (hhighest : k'.prioHighest = k.prioHighest)
    (hprio : ∀ t, k.inReadyList t = true → k'.prio t = k.prio t) : Inv k' := by
  refine ⟨fun p => ?_, ?_, ?_, hslices⟩
  · obtain ⟨l, hl⟩ := h.rings p
    refine ⟨l, ?_, hl.nodup, ?_, fun x => ?_⟩
    · rw [hnext, hprev]
      exact hl.ring
    · rw [hhead]
      exact hl.head
    · have hin : k'.inReadyList x = k.inReadyList x := by
        unfold inReadyList
        rw [hnext]
      rw [hl.mem, hin]
      refine and_congr_right fun hx => ?_
      rw [hprio x hx]
  · rw [hhighest, hhead]
    exact h.above
  · rw [hhighest, hhead]
    exact h.highest

/-- The two states differ in the ready list only. -/
structure Relinked (k k' : Sched T S) : Prop where
  current : k'.current = k.current
  ready : k'.ready = k.ready
  schedContext : k'.schedContext = k.schedContext
  sched : k'.sched = k.sched
  slice : k'.slice = k.slice
  currentSched : k'.currentSched = k.currentSched

omit [DecidableEq T] [DecidableEq S] in
theorem Relinked.refl (k : Sched T S) : Relinked k k := ⟨rfl, rfl, rfl, rfl, rfl, rfl⟩

omit [DecidableEq T] [DecidableEq S] in
theorem Relinked.prio (h : Relinked k k') (x : T) : k'.prio x = k.prio x := by
  unfold Sched.prio
  rw [h.slice, h.sched]

omit [DecidableEq T] [DecidableEq S] in
theorem Relinked.slices (h : Relinked k k') (hk : Slices k) : Slices k' :=
  hk.congr h.sched h.schedContext (fun s => by rw [h.slice]) fun s => by rw [h.slice]

/-! ## Enqueue -/

omit [DecidableEq S] in
theorem readyEnqueue_relinked (k : Sched T S) (t : T) : Relinked k (k.readyEnqueue t) := by
  unfold readyEnqueue
  split
  · exact .refl k
  · split
    · exact .refl k
    · dsimp only
      split
      · exact ⟨rfl, rfl, rfl, rfl, rfl, rfl⟩
      · exact ⟨rfl, rfl, rfl, rfl, rfl, rfl⟩

omit [DecidableEq S] in
/-- `ready_enqueue` does nothing, starts the ring of the priority, or puts the context behind its
last one. -/
theorem readyEnqueue_cases (k : Sched T S) (t : T) :
    k.readyEnqueue t = k ∨
    (k.readyNext t = none ∧ (k.readyEnqueue t).prioHighest = max k.prioHighest (k.prio t) ∧
      ((k.prioNext (k.prio t) = none ∧
        (k.readyEnqueue t).readyNext = Function.update k.readyNext t (some t) ∧
        (k.readyEnqueue t).readyPrev = Function.update k.readyPrev t (some t) ∧
        (k.readyEnqueue t).prioNext = Function.update k.prioNext (k.prio t) (some t)) ∨
      ∃ h, k.prioNext (k.prio t) = some h ∧
        (k.readyEnqueue t).readyNext =
          writeAt (Function.update k.readyNext t (some h)) (k.readyPrev h) (some t) ∧
        (k.readyEnqueue t).readyPrev =
          Function.update (Function.update k.readyPrev t (k.readyPrev h)) h (some t) ∧
        (k.readyEnqueue t).prioNext =
          if t = k.current then Function.update k.prioNext (k.prio t) (some t)
          else k.prioNext)) := by
  unfold readyEnqueue
  split
  · exact .inl rfl
  · rename_i hin
    have hout : k.readyNext t = none := by
      simpa [inReadyList] using hin
    split
    · exact .inl rfl
    · right
      dsimp only
      split
      · rename_i hnone
        exact ⟨hout, rfl, .inl ⟨hnone, rfl, rfl, rfl⟩⟩
      · rename_i h hsome
        exact ⟨hout, rfl, .inr ⟨h, hsome, rfl, rfl, rfl⟩⟩

omit [DecidableEq T] [DecidableEq S] in
/-- The highest priority is still right when a ring of another priority is started or kept. -/
theorem Inv.raise (h : Inv k) (hhighest : k'.prioHighest = max k.prioHighest p)
    (hsome : (k'.prioNext p).isSome) (hhead : ∀ q, q ≠ p → k'.prioNext q = k.prioNext q) :
    (∀ q, k'.prioHighest < q → k'.prioNext q = none) ∧
      (k'.prioHighest = 0 ∨ (k'.prioNext k'.prioHighest).isSome) := by
  rw [hhighest]
  refine ⟨fun q hq => ?_, ?_⟩
  · rw [hhead q (by omega)]
    exact h.above q (by omega)
  · obtain hle | hlt := Nat.le_total k.prioHighest p
    · rw [Nat.max_eq_right hle]
      exact .inr hsome
    · rw [Nat.max_eq_left hlt]
      by_cases hp : k.prioHighest = p
      · exact .inr (hp ▸ hsome)
      · rw [hhead _ hp]
        exact h.highest

omit [DecidableEq T] [DecidableEq S] in
/-- The ring that `ready_enqueue` has put a context into. -/
theorem Inv.enqueued (h : Inv k) (hl : ReadyRing k (k.prio t) l) (hsame : Relinked k k')
    (hhighest : k'.prioHighest = max k.prioHighest (k.prio t))
    (hring : IsRing k'.readyNext k'.readyPrev m) (hhead : k'.prioNext (k.prio t) = m.head?)
    (hnodup : m.Nodup) (hmem : ∀ x, x ∈ m ↔ x = t ∨ x ∈ l)
    (hin : ∀ x, k'.inReadyList x = true ↔ x = t ∨ k.inReadyList x = true)
    (hnext : ∀ x, k.prio x ≠ k.prio t → k'.readyNext x = k.readyNext x)
    (hprev : ∀ x, k.prio x ≠ k.prio t → k'.readyPrev x = k.readyPrev x)
    (hother : ∀ q, q ≠ k.prio t → k'.prioNext q = k.prioNext q) : Inv k' := by
  have hnew : ReadyRing k' (k.prio t) m := by
    refine ⟨hring, hnodup, hhead, fun x => ?_⟩
    rw [hmem, hl.mem, hin, hsame.prio]
    constructor
    · intro hx
      obtain rfl | ⟨hx, hp⟩ := hx
      · exact ⟨.inl rfl, rfl⟩
      · exact ⟨.inr hx, hp⟩
    · intro hx
      obtain ⟨rfl | hx, hp⟩ := hx
      · exact .inl rfl
      · exact .inr ⟨hx, hp⟩
  have hsome : (k'.prioNext (k.prio t)).isSome := by
    rw [hhead]
    have ht : t ∈ m := (hmem t).mpr (.inl rfl)
    cases m with
    | nil => exact absurd ht List.not_mem_nil
    | cons x m => rfl
  obtain ⟨habove, htop⟩ := h.raise hhighest hsome hother
  exact ⟨h.edit hnew hsame.prio hnext hprev hother, habove, htop, hsame.slices h.slices⟩

omit [DecidableEq S] in
theorem Inv.readyEnqueue (h : Inv k) (t : T) : Inv (k.readyEnqueue t) := by
  obtain ⟨l, hl⟩ := h.rings (k.prio t)
  have hsame := readyEnqueue_relinked k t
  have hnot : ∀ x, k.prio x ≠ k.prio t → x ≠ t := fun x hx e => hx (by rw [e])
  obtain e | ⟨hout, hhighest, ⟨hnone, hnext, hprev, hhead⟩ | ⟨a, ha, hnext, hprev, hhead⟩⟩ :=
    readyEnqueue_cases k t
  · rw [e]
    exact h
  · -- the first context of this priority
    have hnil : l = [] := List.head?_eq_none_iff.mp (hl.head.symm.trans hnone)
    refine h.enqueued (m := [t]) hl hsame hhighest ?_ ?_ (List.nodup_singleton t) (fun x => ?_)
      (fun x => ?_) (fun x hx => ?_) (fun x hx => ?_) fun q hq => ?_
    · rw [hnext, hprev]
      simp [IsRing]
    · rw [hhead, Function.update_self]
      rfl
    · simp [hnil]
    · unfold inReadyList
      rw [hnext, Function.update_apply]
      split <;> simp_all
    · rw [hnext, Function.update_of_ne (hnot x hx)]
    · rw [hprev, Function.update_of_ne (hnot x hx)]
    · rw [hhead, Function.update_of_ne hq]
  · -- behind the last context of this priority
    have hfirst : l.head? = some a := hl.head.symm.trans ha
    have hal : a ∈ l := List.mem_of_mem_head? hfirst
    have htl : t ∉ l := by
      intro ht
      have hin := ((hl.mem t).mp ht).1
      rw [inReadyList, hout] at hin
      cases hin
    have hpush := hl.ring.push_write hl.nodup hfirst htl
    rw [← hnext, ← hprev] at hpush
    have hprevIn : ∀ x, k.readyPrev a = some x → x ∈ l := fun x => hl.ring.prev_mem hal
    have hfar : ∀ x, k.prio x ≠ k.prio t → x ∉ l := fun x hx hxl => hx ((hl.mem x).mp hxl).2
    have hnext' : ∀ x, k.prio x ≠ k.prio t → (k.readyEnqueue t).readyNext x = k.readyNext x := by
      intro x hx
      rw [hnext, writeAt_of_ne fun e => hfar x hx (hprevIn x e), Function.update_of_ne (hnot x hx)]
    have hprev' : ∀ x, k.prio x ≠ k.prio t → (k.readyEnqueue t).readyPrev x = k.readyPrev x := by
      intro x hx
      have hxa : x ≠ a := fun e => hfar x hx (e ▸ hal)
      rw [hprev, Function.update_of_ne hxa, Function.update_of_ne (hnot x hx)]
    have hin : ∀ x, (k.readyEnqueue t).inReadyList x = true ↔ x = t ∨ k.inReadyList x = true := by
      intro x
      unfold inReadyList
      rw [hnext, writeAt_apply, Function.update_apply]
      split
      · rename_i hx
        have := ((hl.mem x).mp (hprevIn x hx)).1
        simpa [inReadyList] using .inr this
      · split <;> simp_all
    have hnodup : (l ++ [t]).Nodup := List.nodup_append.mpr ⟨hl.nodup, List.nodup_singleton t, by
      intro x hx y hy e
      rw [List.mem_singleton] at hy
      exact htl (hy ▸ e ▸ hx)⟩
    -- the running context becomes the first one, another one the last one
    by_cases hcur : t = k.current
    · rw [if_pos hcur] at hhead
      refine h.enqueued (m := [t] ++ l) hl hsame hhighest hpush.rotate ?_
        (List.perm_append_comm.nodup_iff.mp hnodup) (fun x => ?_) hin hnext' hprev' fun q hq => ?_
      · rw [hhead, Function.update_self]
        rfl
      · simp
      · rw [hhead, Function.update_of_ne hq]
    · rw [if_neg hcur] at hhead
      refine h.enqueued (m := l ++ [t]) hl hsame hhighest hpush ?_ hnodup (fun x => ?_) hin
        hnext' hprev' fun q hq => by rw [hhead]
      · rw [hhead, ha, List.head?_append, hfirst]
        rfl
      · simp [or_comm]

/-! ## Dequeue -/

omit [DecidableEq S] in
theorem readyDequeue_relinked (k : Sched T S) (t : T) : Relinked k (k.readyDequeue t) := by
  unfold readyDequeue
  split
  · exact ⟨rfl, rfl, rfl, rfl, rfl, rfl⟩
  · exact .refl k

omit [DecidableEq T] in
/-- The loop ends at the greatest used entry not above its start. -/
theorem lowerHighest_spec (prioNext : Nat → Option T) (n : Nat) :
    lowerHighest prioNext n ≤ n ∧ (∀ q, lowerHighest prioNext n < q → q ≤ n → prioNext q = none) ∧
      (lowerHighest prioNext n = 0 ∨ (prioNext (lowerHighest prioNext n)).isSome) := by
  induction n with
  | zero => exact ⟨Nat.le_refl 0, fun q h₁ h₂ => absurd h₁ (Nat.not_lt.mpr h₂), .inl rfl⟩
  | succ n ih =>
    obtain ⟨hle, hnone, htop⟩ := ih
    unfold lowerHighest
    split
    · rename_i hsome
      exact ⟨Nat.le_refl _, fun q h₁ h₂ => absurd h₁ (Nat.not_lt.mpr h₂), .inr hsome⟩
    · rename_i hsome
      refine ⟨Nat.le_succ_of_le hle, fun q h₁ h₂ => ?_, htop⟩
      obtain rfl | hlt := Nat.eq_or_lt_of_le h₂
      · exact Option.not_isSome_iff_eq_none.mp hsome
      · exact hnone q h₁ (Nat.lt_succ_iff.mp hlt)

omit [DecidableEq S] in
/-- What `ready_dequeue` leaves of a context that is in the list. -/
theorem readyDequeue_eq (hin : k.inReadyList t = true) :
    (k.readyDequeue t).readyNext =
      Function.update (writeAt k.readyNext (k.readyPrev t) (k.readyNext t)) t none ∧
    (k.readyDequeue t).readyPrev = writeAt k.readyPrev (k.readyNext t) (k.readyPrev t) ∧
    (k.readyDequeue t).prioHighest = lowerHighest (k.readyDequeue t).prioNext k.prioHighest ∧
    (k.readyDequeue t).prioNext = if k.prioNext (k.prio t) = some t then
      Function.update k.prioNext (k.prio t)
        (if k.readyNext t = some t then none else k.readyNext t) else k.prioNext := by
  unfold Sched.readyDequeue
  rw [if_pos hin]
  exact ⟨rfl, rfl, rfl, rfl⟩

omit [DecidableEq S] in
theorem Inv.readyDequeue (h : Inv k) (t : T) :
    Inv (k.readyDequeue t) ∧ (k.readyDequeue t).inReadyList t = false := by
  by_cases hin : k.inReadyList t = true
  · obtain ⟨l, hl⟩ := h.rings (k.prio t)
    obtain ⟨l₁, l₂, rfl⟩ := List.append_of_mem ((hl.mem t).mpr ⟨hin, rfl⟩)
    have hsame := readyDequeue_relinked k t
    obtain ⟨hnext, hprev, hhighest, hhead⟩ := readyDequeue_eq hin
    have hremove := hl.ring.remove_write hl.nodup (v := none)
    rw [← hnext, ← hprev] at hremove
    have hperm : (l₁ ++ t :: l₂).Perm (t :: (l₁ ++ l₂)) := List.perm_middle
    obtain ⟨hout, hnodup⟩ := List.nodup_cons.mp (hperm.nodup_iff.mp hl.nodup)
    have hprevIn : ∀ x, k.readyPrev t = some x → x ∈ l₁ ++ t :: l₂ := fun x hx =>
      hl.ring.prev_mem (List.mem_append_right _ List.mem_cons_self) hx
    have hnextIn : ∀ x, k.readyNext t = some x → x ∈ l₁ ++ t :: l₂ := fun x hx =>
      hl.ring.next_mem (List.mem_append_right _ List.mem_cons_self) hx
    have hin' : ∀ x, (k.readyDequeue t).inReadyList x = true ↔ x ≠ t ∧ k.inReadyList x = true := by
      intro x
      unfold inReadyList at hin ⊢
      rw [hnext, Function.update_apply, writeAt_apply]
      by_cases hx : x = t
      · simp [hx]
      · rw [if_neg hx]
        split
        · rename_i hx'
          have := ((hl.mem x).mp (hprevIn x hx')).1
          unfold inReadyList at this
          simp [hin, this, hx]
        · simp [hx]
    have hother : ∀ q, q ≠ k.prio t → (k.readyDequeue t).prioNext q = k.prioNext q := by
      intro q hq
      rw [hhead]
      split
      · exact Function.update_of_ne hq _ _
      · rfl
    have hfirst : (k.readyDequeue t).prioNext (k.prio t) = (l₁ ++ l₂).head? := by
      rw [hhead, ← hl.ring.head_remove hl.nodup, ← hl.head]
      split
      · rw [Function.update_self]
      · rfl
    have hfar : ∀ x, k.prio x ≠ k.prio t → x ∉ l₁ ++ t :: l₂ := fun x hx hxl =>
      hx ((hl.mem x).mp hxl).2
    have hrings : ∀ q, ∃ l, ReadyRing (k.readyDequeue t) q l := by
      refine h.edit ⟨hremove, hnodup, hfirst, fun x => ?_⟩ hsame.prio (fun x hx => ?_)
        (fun x hx => ?_) hother
      · rw [hin', hsame.prio, and_assoc, ← hl.mem, hperm.mem_iff, List.mem_cons]
        exact ⟨fun hx => ⟨fun e => hout (e ▸ hx), .inr hx⟩, fun hx => hx.2.resolve_left hx.1⟩
      · have hxt : x ≠ t := fun e => hx (by rw [e])
        rw [hnext, Function.update_of_ne hxt, writeAt_of_ne fun e => hfar x hx (hprevIn x e)]
      · rw [hprev, writeAt_of_ne fun e => hfar x hx (hnextIn x e)]
    obtain ⟨-, hnone, htop⟩ := lowerHighest_spec (k.readyDequeue t).prioNext k.prioHighest
    rw [← hhighest] at hnone htop
    have hle : k.prio t ≤ k.prioHighest := by
      by_contra hlt
      have hnil := hl.head.symm.trans (h.above _ (Nat.not_le.mp hlt))
      rw [List.head?_eq_none_iff] at hnil
      simp at hnil
    refine ⟨⟨hrings, fun q hq => ?_, htop, hsame.slices h.slices⟩, ?_⟩
    · by_cases hq' : q ≤ k.prioHighest
      · exact hnone q hq hq'
      · have hne : q ≠ k.prio t := fun e => hq' (e ▸ hle)
        rw [hother q hne]
        exact h.above q (Nat.not_le.mp hq')
    · unfold inReadyList
      rw [hnext, Function.update_self]
      rfl
  · have e : k.readyDequeue t = k := by
      unfold Sched.readyDequeue
      exact if_neg hin
    rw [e]
    exact ⟨h, by simpa using hin⟩

/-! ## Scheduling contexts -/

omit [DecidableEq S] in
/-- The active scheduling context is exchanged for another one of the context, in the ready list for
one of the same priority. -/
theorem Inv.setSched (h : Inv k) (ho : (k.slice s).owner = t)
    (hprio : k.inReadyList t = true → (k.slice s).prio = k.prio t) : Inv (k.setSched t s) := by
  refine h.congr ⟨fun x => ?_, h.slices.own⟩ rfl rfl rfl rfl fun x hx => ?_
  · unfold Sched.setSched
    dsimp only
    rw [Function.update_apply]
    split
    · rename_i e
      rw [e]
      exact ho
    · exact h.slices.active x
  · unfold Sched.setSched Sched.prio
    dsimp only
    rw [Function.update_apply]
    split
    · rename_i e
      rw [e]
      exact hprio (e ▸ hx)
    · rfl

omit [DecidableEq T] in
theorem Inv.setSlice (h : Inv k) (ho : c.owner = (k.slice s).owner) (hn : c.next = (k.slice s).next)
    (hprio : ∀ t, k.inReadyList t = true → k.sched t = s → c.prio = (k.slice s).prio) :
    Inv (k.setSlice s c) := by
  refine h.congr (h.slices.congr rfl rfl (fun x => ?_) fun x => ?_) rfl rfl rfl rfl fun x hx => ?_
  · unfold Sched.setSlice
    dsimp only
    rw [Function.update_apply]
    split
    · rename_i e
      rw [e, ho]
    · rfl
  · unfold Sched.setSlice
    dsimp only
    rw [Function.update_apply]
    split
    · rename_i e
      rw [e, hn]
    · rfl
  · unfold Sched.setSlice Sched.prio
    dsimp only
    rw [Function.update_apply]
    split
    · rename_i e
      rw [hprio x hx e, e]
    · rfl

omit [DecidableEq T] in
theorem Inv.setLeft (h : Inv k) (left : Nat) : Inv (k.setLeft s left) :=
  h.setSlice rfl rfl fun _ _ _ => rfl

omit [DecidableEq T] in
theorem Inv.leaveSched (h : Inv k) (t : T) : Inv (k.leaveSched t) := by
  unfold Sched.leaveSched
  refine Inv.setLeft ?_ _
  split
  · exact h.congr (h.slices.congr rfl rfl (fun _ => rfl) fun _ => rfl) rfl rfl rfl rfl fun _ _ => rfl
  · exact h

end L4env.Fiasco.Sched
