import L4env.Fiasco.Timeout
import L4env.Util.Returns

/-!
# Queues of timeouts

The ring of the timeout queue, as the eight lists of timeouts between its root nodes. The edits of
the ring are edits of one of these lists, which stays sorted by wakeup time.
-/

namespace L4env.Fiasco.TimeoutQ

open TimeoutNode

variable {α : Type} {q q' : TimeoutQ α} {Q Q' : Fin 8 → List α} {i j : Fin 8} {t u : α}
  {l l₁ l₂ : List α} {w : Nat}

/-! ## The ring -/

def queueNodes (Q : Fin 8 → List α) (i : Fin 8) : List (TimeoutNode α) :=
  root i :: (Q i).map timer

/-- The nodes behind those of the queue `i`. -/
def otherNodes (Q : Fin 8 → List α) (i : Fin 8) : List (TimeoutNode α) :=
  [1, 2, 3, 4, 5, 6, 7].flatMap fun j => queueNodes Q (i + j)

/-- The nodes of the ring, those of the queue `i` first. -/
def ringFrom (Q : Fin 8 → List α) (i : Fin 8) : List (TimeoutNode α) :=
  queueNodes Q i ++ otherNodes Q i

theorem otherNodes_congr (h : ∀ j, j ≠ i → Q' j = Q j) : otherNodes Q' i = otherNodes Q i := by
  have hne : ∀ i j : Fin 8, j ∈ [1, 2, 3, 4, 5, 6, 7] → i + j ≠ i := by decide
  refine List.flatMap_congr fun j hj => ?_
  unfold queueNodes
  rw [h _ (hne i j hj)]

theorem otherNodes_head (Q : Fin 8 → List α) (i : Fin 8) :
    ∃ l, otherNodes Q i = root (i + 1) :: l := ⟨_, rfl⟩

theorem ringFrom_next {n p : TimeoutNode α → Option (TimeoutNode α)}
    (h : IsRing n p (ringFrom Q i)) : IsRing n p (ringFrom Q (i + 1)) := by
  have hadd : ∀ i : Fin 8, i + 1 + 1 = i + 2 ∧ i + 1 + 2 = i + 3 ∧ i + 1 + 3 = i + 4 ∧
      i + 1 + 4 = i + 5 ∧ i + 1 + 5 = i + 6 ∧ i + 1 + 6 = i + 7 ∧ i + 1 + 7 = i := by decide
  obtain ⟨h₁, h₂, h₃, h₄, h₅, h₆, h₇⟩ := hadd i
  have heq : ringFrom Q (i + 1) = otherNodes Q i ++ queueNodes Q i := by
    simp only [ringFrom, otherNodes, List.flatMap_cons, List.flatMap_nil, List.append_nil,
      List.append_assoc, h₁, h₂, h₃, h₄, h₅, h₆, h₇]
  rw [heq]
  exact h.rotate

theorem ringFrom_all {n p : TimeoutNode α → Option (TimeoutNode α)}
    (h : IsRing n p (ringFrom Q i)) (j : Fin 8) : IsRing n p (ringFrom Q j) := by
  have hsteps : ∀ k : Nat, IsRing n p (ringFrom Q (i + Fin.ofNat 8 k)) := by
    intro k
    induction k with
    | zero => simpa using h
    | succ k ih =>
      have hk : i + Fin.ofNat 8 (k + 1) = i + Fin.ofNat 8 k + 1 := by
        rw [add_assoc]
        congr 1
        ext
        simp [Fin.val_add]
      rw [hk]
      exact ringFrom_next ih
  have hj : i + Fin.ofNat 8 (j - i).val = j := by
    rw [Fin.ofNat_val_eq_self]
    exact add_sub_cancel i j
  rw [← hj]
  exact hsteps _

/-- The queues of the ring are the lists `Q`, each sorted by wakeup time. -/
structure Queues (q : TimeoutQ α) (Q : Fin 8 → List α) : Prop where
  ring : ∀ i, IsRing q.next q.prev (ringFrom Q i)
  nodup : ∀ i, (Q i).Nodup
  sorted : ∀ i, (Q i).Pairwise fun t u => q.wakeup t ≤ q.wakeup u
  mem : ∀ t i, t ∈ Q i ↔ q.isSet t = true ∧ queueOf (q.wakeup t) = i

theorem Queues.mem_ringFrom (h : Queues q Q) {t : α} (ht : timer t ∈ ringFrom Q i) :
    q.isSet t = true := by
  have hmem : ∃ j, t ∈ Q j := by
    simp only [ringFrom, otherNodes, queueNodes, List.mem_append, List.mem_cons, List.mem_flatMap,
      List.mem_map, reduceCtorEq, false_or, timer.injEq, exists_eq_right] at ht
    rcases ht with ht | ⟨j, _, ht⟩
    · exact ⟨_, ht⟩
    · exact ⟨_, ht⟩
  obtain ⟨j, hj⟩ := hmem
  exact ((h.mem t j).mp hj).1

theorem Queues.nodup_ringFrom (h : Queues q Q) (i : Fin 8) : (ringFrom Q i).Nodup := by
  have heq : ringFrom Q i = [0, 1, 2, 3, 4, 5, 6, 7].flatMap fun j => queueNodes Q (i + j) := by
    rw [List.flatMap_cons, add_zero]
    rfl
  have hsep : ∀ i : Fin 8, [0, 1, 2, 3, 4, 5, 6, 7].Pairwise fun j k => i + j ≠ i + k := by decide
  rw [heq, List.nodup_flatMap]
  refine ⟨fun j _ => ?_, (hsep i).imp fun hne x hx hy => ?_⟩
  · have hnd := (h.nodup (i + j)).map (f := timer) fun t u e => timer.inj e
    exact List.nodup_cons.mpr ⟨by simp, hnd⟩
  · cases x with
    | root m =>
      simp only [queueNodes, List.mem_cons, root.injEq, List.mem_map, reduceCtorEq, and_false,
        exists_false, or_false] at hx hy
      exact hne (hx.symm.trans hy)
    | timer t =>
      simp only [queueNodes, List.mem_cons, reduceCtorEq, List.mem_map, timer.injEq,
        exists_eq_right, false_or] at hx hy
      exact hne (((h.mem t _).mp hx).2.symm.trans ((h.mem t _).mp hy).2)

/-- The queues are read from the links, the wakeup times and the flag `set`. -/
theorem Queues.congr (h : Queues q Q) (hn : q'.next = q.next) (hp : q'.prev = q.prev)
    (hs : q'.isSet = q.isSet) (hw : ∀ t, q.isSet t = true → q'.wakeup t = q.wakeup t) :
    Queues q' Q := by
  have hset : ∀ i, ∀ t ∈ Q i, q'.wakeup t = q.wakeup t :=
    fun i t ht => hw t ((h.mem t i).mp ht).1
  refine ⟨fun i => ?_, h.nodup, fun i => ?_, fun t i => ?_⟩
  · rw [hn, hp]
    exact h.ring i
  · refine (h.sorted i).imp_of_mem fun {t u} ht hu hle => ?_
    rw [hset i t ht, hset i u hu]
    exact hle
  · rw [h.mem, hs]
    refine and_congr_right fun ht => ?_
    rw [hw t ht]

/-- A timeout of its own wakeup time between those before and behind it. -/
theorem sorted_insert {f : α → Nat} (h : (l₁ ++ l₂).Pairwise fun t u => f t ≤ f u)
    (h₁ : ∀ u ∈ l₁, f u < f t) (h₂ : ∀ u ∈ l₂.head?, f t ≤ f u) :
    (l₁ ++ t :: l₂).Pairwise fun t u => f t ≤ f u := by
  rw [List.pairwise_append] at h ⊢
  obtain ⟨hl₁, hl₂, hcross⟩ := h
  have hall : ∀ u ∈ l₂, f t ≤ f u := by
    cases l₂ with
    | nil => simp
    | cons v l₂ =>
      have hv : f t ≤ f v := h₂ v rfl
      refine List.forall_mem_cons.mpr ⟨hv, fun u hu => hv.trans ?_⟩
      exact List.rel_of_pairwise_cons hl₂ hu
  refine ⟨hl₁, List.pairwise_cons.mpr ⟨hall, hl₂⟩, fun u hu v hv => ?_⟩
  rcases List.mem_cons.mp hv with rfl | hv
  · exact (h₁ u hu).le
  · exact hcross u hu v hv

/-- One queue is exchanged. -/
theorem Queues.edit (h : Queues q Q) (hring : IsRing q'.next q'.prev
      (root i :: l.map timer ++ otherNodes Q i))
    (hw : q'.wakeup = q.wakeup) (hnd : l.Nodup)
    (hsorted : l.Pairwise fun t u => q.wakeup t ≤ q.wakeup u)
    (hmem : ∀ t, t ∈ l ↔ q'.isSet t = true ∧ queueOf (q.wakeup t) = i)
    (hother : ∀ t, queueOf (q.wakeup t) ≠ i → q'.isSet t = q.isSet t) :
    Queues q' (Function.update Q i l) := by
  have hring' : IsRing q'.next q'.prev (ringFrom (Function.update Q i l) i) := by
    unfold ringFrom queueNodes
    rw [otherNodes_congr fun j hj => Function.update_of_ne hj l Q, Function.update_self]
    exact hring
  refine ⟨ringFrom_all hring', fun j => ?_, fun j => ?_, fun t j => ?_⟩
  · rcases eq_or_ne j i with rfl | hj
    · rw [Function.update_self]
      exact hnd
    · rw [Function.update_of_ne hj]
      exact h.nodup j
  · rw [hw]
    rcases eq_or_ne j i with rfl | hj
    · rw [Function.update_self]
      exact hsorted
    · rw [Function.update_of_ne hj]
      exact h.sorted j
  · rw [hw]
    rcases eq_or_ne j i with rfl | hj
    · rw [Function.update_self]
      exact hmem t
    · rw [Function.update_of_ne hj, h.mem]
      refine and_congr_left fun ht => ?_
      rw [hother t (ht ▸ hj)]

/-! ## Enqueue -/

section
variable [DecidableEq α]

/-- `enqueue` stops at the first timeout of the queue that does not wake up earlier. -/
theorem findPlace_spec {pre post : List (TimeoutNode α)} {x : TimeoutNode α}
    (hring : IsRing q.next q.prev (pre ++ x :: (l.map timer ++ root j :: post))) (w : Nat) :
    ∃ m m' pre' y, l = m ++ m' ∧ (∀ t ∈ m, q.wakeup t < w) ∧ (∀ t ∈ m'.head?, w ≤ q.wakeup t) ∧
      x :: m.map timer = pre' ++ [y] ∧ Returns (fun n => q.findPlace (root j) w n x) y := by
  induction l generalizing pre x with
  | nil =>
    have hnext : q.next x = some (root j) := hring.next_eq
    refine ⟨[], [], [], x, rfl, by simp, by simp, rfl, (Returns.const x).round fun n => ?_⟩
    simp [findPlace, hnext]
  | cons t l ih =>
    have hnext : q.next x = some (timer t) := hring.next_eq
    by_cases hlt : q.wakeup t < w
    · have hring' : IsRing q.next q.prev
          ((pre ++ [x]) ++ timer t :: (l.map timer ++ root j :: post)) := by simpa using hring
      obtain ⟨m, m', pre', y, rfl, hm, hm', hpre, hret⟩ := ih hring'
      refine ⟨t :: m, m', x :: pre', y, rfl, ?_, hm', by simpa using hpre, hret.round fun n => ?_⟩
      · exact List.forall_mem_cons.mpr ⟨hlt, hm⟩
      · simp [findPlace, hnext, wakeupOf, hlt]
    · refine ⟨[], t :: l, [], x, rfl, by simp, ?_, rfl, (Returns.const x).round fun n => ?_⟩
      · rintro u ⟨⟩
        exact Nat.le_of_not_lt hlt
      · simp [findPlace, hnext, wakeupOf, hlt]

theorem Queues.enqueue (h : Queues q Q) (ht : q.isSet t = false) :
    ∃ m m' q', Q (queueOf (q.wakeup t)) = m ++ m' ∧
      Returns (fun n => q.enqueue n t) q' ∧
      Queues q' (Function.update Q (queueOf (q.wakeup t)) (m ++ t :: m')) ∧
      q'.isSet = Function.update q.isSet t true ∧ q'.wakeup = q.wakeup ∧ q'.hasHit = q.hasHit ∧
      q'.oldClock = q.oldClock := by
  generalize hi : queueOf (q.wakeup t) = i
  let q₁ : TimeoutQ α := { q with isSet := Function.update q.isSet t true }
  obtain ⟨post, hpost⟩ := otherNodes_head Q i
  have hout : timer t ∉ ringFrom Q i := fun hmem => by
    rw [h.mem_ringFrom hmem] at ht
    cases ht
  have hnd := h.nodup_ringFrom i
  have hring := h.ring i
  have hring₁ : IsRing q₁.next q₁.prev
      ([] ++ root i :: ((Q i).map timer ++ root (i + 1) :: post)) := by
    rw [← hpost]
    exact hring
  obtain ⟨m, m', pre, y, hQ, hm, hm', hpre, hret⟩ := findPlace_spec hring₁ (q.wakeup t)
  have hnodes : ringFrom Q i = pre ++ y :: (m'.map timer ++ otherNodes Q i) := by
    rw [ringFrom, queueNodes, hQ, List.map_append, ← List.cons_append, hpre]
    simp
  rw [hnodes] at hout hnd hring
  have hlink := hring.insert_behind hnd hout
  refine ⟨m, m', q₁.linkBehind t y, hQ, ?_, ?_, rfl, rfl, rfl, rfl⟩
  · refine (hret.bind (k := fun _ y => some (q₁.linkBehind t y)) (Returns.const _)).congr fun n => ?_
    unfold TimeoutQ.enqueue
    rw [hi]
  · have htQ : t ∉ m ++ m' := fun hmem => by
      rw [← hQ, h.mem, ht] at hmem
      cases hmem.1
    have hperm : (m ++ t :: m').Perm (t :: (m ++ m')) := List.perm_middle
    have hsorted := h.sorted i
    rw [hQ] at hsorted
    refine h.edit (l := m ++ t :: m') ?_ rfl ?_ (sorted_insert hsorted hm hm') (fun u => ?_) ?_
    · have heq : root i :: (m ++ t :: m').map timer ++ otherNodes Q i =
          pre ++ y :: timer t :: (m'.map timer ++ otherNodes Q i) := by
        rw [List.map_append, ← List.cons_append, hpre]
        simp
      rw [heq]
      exact hlink
    · rw [hperm.nodup_iff, List.nodup_cons]
      exact ⟨htQ, hQ ▸ h.nodup i⟩
    · rw [hperm.mem_iff, List.mem_cons, ← hQ, h.mem]
      show _ ↔ Function.update q.isSet t true u = true ∧ _
      rcases eq_or_ne u t with rfl | hu
      · simp [hi]
      · simp [hu]
    · intro u hu
      refine Function.update_of_ne (fun e => hu ?_) _ _
      rw [e, hi]

/-! ## Removal -/

theorem Queues.unlink (h : Queues q Q) (ht : q.isSet t = true) :
    ∃ l₁ l₂, Q (queueOf (q.wakeup t)) = l₁ ++ t :: l₂ ∧
      Queues (q.unlink t) (Function.update Q (queueOf (q.wakeup t)) (l₁ ++ l₂)) := by
  generalize hi : queueOf (q.wakeup t) = i
  obtain ⟨l₁, l₂, hQ⟩ := List.append_of_mem ((h.mem t i).mpr ⟨ht, hi⟩)
  have hnodes : ringFrom Q i =
      (root i :: l₁.map timer) ++ timer t :: (l₂.map timer ++ otherNodes Q i) := by
    simp [ringFrom, queueNodes, hQ]
  have hring := h.ring i
  have hnd := h.nodup_ringFrom i
  rw [hnodes] at hring hnd
  have hunlink := hring.remove_write hnd
    (v := writeAt q.next (q.prev (timer t)) (q.next (timer t)) (timer t))
  rw [Function.update_eq_self] at hunlink
  have hperm : (l₁ ++ t :: l₂).Perm (t :: (l₁ ++ l₂)) := List.perm_middle
  have hndQ := h.nodup i
  rw [hQ, hperm.nodup_iff, List.nodup_cons] at hndQ
  have hsub : (l₁ ++ l₂).Sublist (l₁ ++ t :: l₂) :=
    (List.Sublist.refl l₁).append (List.sublist_cons_self t l₂)
  refine ⟨l₁, l₂, hQ, h.edit (l := l₁ ++ l₂) ?_ rfl hndQ.2 ?_ (fun u => ?_) ?_⟩
  · have heq : root i :: (l₁ ++ l₂).map timer ++ otherNodes Q i =
        (root i :: l₁.map timer) ++ (l₂.map timer ++ otherNodes Q i) := by simp
    rw [heq]
    exact hunlink
  · exact (hQ ▸ h.sorted i).sublist hsub
  · have hmem := h.mem u i
    rw [hQ, hperm.mem_iff, List.mem_cons] at hmem
    show _ ↔ Function.update q.isSet t false u = true ∧ _
    rcases eq_or_ne u t with rfl | hu
    · simp only [Function.update_self, Bool.false_eq_true, false_and, iff_false]
      exact hndQ.1
    · rw [Function.update_of_ne hu, ← hmem]
      simp [hu]
  · intro u hu
    refine Function.update_of_ne (fun e => hu ?_) _ _
    rw [e, hi]

end

end L4env.Fiasco.TimeoutQ
