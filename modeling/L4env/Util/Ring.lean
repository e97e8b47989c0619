import L4env.Util.Links

/-!
# Rings

A circular doubly linked list of the nodes `l`: each node is linked both ways to its neighbours in
`l`, and the last node to the first one. Where the ring is cut open does not matter, so an edit at a
node is shown on the ring that starts there.
-/

namespace L4env

variable {α : Type} {n p n' p' : α → Option α} {x a : α} {l l₁ l₂ : List α}

/-- The nodes of `l` form a ring in this order. -/
def IsRing (n p : α → Option α) (l : List α) : Prop := Links n p l.getLast? l l.head?

theorem IsRing.rotate (h : IsRing n p (l₁ ++ l₂)) : IsRing n p (l₂ ++ l₁) := by
  cases l₁ with
  | nil => simpa using h
  | cons x l₁ =>
    cases l₂ with
    | nil => simpa using h
    | cons y l₂ =>
      unfold IsRing at h ⊢
      rw [links_append] at h ⊢
      simp only [List.getLast?_append, List.head?_append] at h ⊢
      obtain ⟨h₁, h₂⟩ := h
      -- neither half is empty, so that each seam reads the same from both sides
      have hx : (x :: l₁).getLast?.isSome := by simp
      have hy : (y :: l₂).getLast?.isSome := by simp
      rw [Option.or_of_isSome hx] at h₂ ⊢
      rw [Option.or_of_isSome hy] at h₁ ⊢
      exact ⟨by simpa using h₂, by simpa using h₁⟩

theorem IsRing.next_eq (h : IsRing n p (l₁ ++ a :: l₂)) : n a = (l₂ ++ l₁ ++ [a]).head? := by
  have h := h.rotate.2.1
  rw [h]
  cases l₂ <;> cases l₁ <;> simp

theorem IsRing.next_first (h : IsRing n p (a :: l)) : n a = (l ++ [a]).head? := by
  rw [List.head?_append]
  exact h.2.1

theorem IsRing.prev_first (h : IsRing n p (a :: l)) : p a = (a :: l).getLast? := h.1

theorem IsRing.prev_eq (h : IsRing n p (l₁ ++ a :: l₂)) : p a = (a :: (l₂ ++ l₁)).getLast? := by
  have h := h.rotate.1
  simpa using h

theorem IsRing.next_mem (h : IsRing n p l) (hx : x ∈ l) (hy : n x = some a) : a ∈ l := by
  obtain ⟨l₁, l₂, rfl⟩ := List.append_of_mem hx
  rw [h.next_eq] at hy
  have hmem := List.mem_of_mem_head? hy
  simp only [List.mem_append, List.mem_cons, List.not_mem_nil, or_false] at hmem ⊢
  tauto

theorem IsRing.prev_mem (h : IsRing n p l) (hx : x ∈ l) (hy : p x = some a) : a ∈ l := by
  obtain ⟨l₁, l₂, rfl⟩ := List.append_of_mem hx
  rw [h.prev_eq] at hy
  have hmem := List.mem_of_getLast? hy
  simp only [List.mem_append, List.mem_cons] at hmem ⊢
  tauto

/-- Nodes before the node `x`, followed from the same place, are the same nodes. -/
theorem Links.unique_to {q q' : Option α} {l' : List α} (h : Links n p q l (some x))
    (h' : Links n p' q' l' (some x)) (hx : x ∉ l) (hx' : x ∉ l')
    (hhead : l.head?.or (some x) = l'.head?.or (some x)) : l = l' := by
  induction l generalizing q q' l' with
  | nil =>
    cases l' with
    | nil => rfl
    | cons b l' =>
      have hb : x = b := by simpa using hhead
      exact absurd (hb ▸ List.mem_cons_self) hx'
  | cons a l ih =>
    cases l' with
    | nil =>
      have ha : a = x := by simpa using hhead
      exact absurd (ha ▸ List.mem_cons_self) hx
    | cons b l' =>
      have hab : a = b := by simpa using hhead
      subst hab
      rw [ih h.2.2 h'.2.2 (fun h => hx (List.mem_cons_of_mem _ h))
        (fun h => hx' (List.mem_cons_of_mem _ h)) (h.2.1.symm.trans h'.2.1)]

/-- A ring is known by its first node. -/
theorem IsRing.unique {m : List α} (h : IsRing n p (x :: l)) (h' : IsRing n p' (x :: m))
    (hnd : (x :: l).Nodup) (hnd' : (x :: m).Nodup) : l = m :=
  Links.unique_to h.2.2 h'.2.2 (List.nodup_cons.mp hnd).1 (List.nodup_cons.mp hnd').1
    (h.2.1.symm.trans h'.2.1)

theorem IsRing.congr (h : IsRing n p l) (hn : ∀ x ∈ l, n' x = n x) (hp : ∀ x ∈ l, p' x = p x) :
    IsRing n' p' l := Links.congr h hn hp

section
variable [DecidableEq α]

/-- The writes that put the node `x` behind `a`, at the front of the list. -/
theorem IsRing.insert_front (h : IsRing n p (a :: l)) (hnd : (a :: l).Nodup) (hx : x ∉ a :: l) :
    IsRing (Function.update (Function.update n x (n a)) a (some x))
      (writeAt (Function.update p x (some a)) (n a) (some x)) (a :: x :: l) := by
  have hxa : x ≠ a := fun e => hx (by simp [e])
  cases l with
  | nil =>
    have hna : n a = some a := by simpa using h.2.1
    simp [IsRing, hna, hxa, writeAt]
  | cons b l =>
    have hna : n a = some b := by simpa using h.2.1
    have hpa : p a = (b :: l).getLast? := by simpa using h.1
    have hxb : x ≠ b := fun e => hx (by simp [e])
    have hab : a ≠ b := fun e => (List.nodup_cons.mp hnd).1 (by simp [e])
    have hrest : Links n p (some a) (b :: l) (some a) := by simpa using h.2.2
    refine ⟨?_, by simp, ?_, ?_, ?_⟩
    · simp [hna, writeAt, hab, Ne.symm hxa, hpa]
    · simp [hna, writeAt, hxb]
    · simp [hna, hxa]
    · refine hrest.relink_right (List.nodup_cons.mp hnd).2 ?_ ?_ ?_
      · intro y hy
        have hya : y ≠ a := fun e => (List.nodup_cons.mp hnd).1 (e ▸ hy)
        have hyx : y ≠ x := fun e => hx (List.mem_cons_of_mem _ (e ▸ hy))
        simp [hya, hyx]
      · intro y hy
        cases hy
        simp [hna]
      · intro y hy hne
        have hyx : y ≠ x := fun e => hx (List.mem_cons_of_mem _ (e ▸ hy))
        have hby : b ≠ y := fun e => hne (by simp [e])
        simp [hna, writeAt, hby.symm, hyx]

/-- The writes that put the node `x` behind `a`. -/
theorem IsRing.insert_behind (h : IsRing n p (l₁ ++ a :: l₂)) (hnd : (l₁ ++ a :: l₂).Nodup)
    (hx : x ∉ l₁ ++ a :: l₂) :
    IsRing (Function.update (Function.update n x (n a)) a (some x))
      (writeAt (Function.update p x (some a)) (n a) (some x)) (l₁ ++ a :: x :: l₂) := by
  have hnd' : (a :: (l₂ ++ l₁)).Nodup := by
    simpa using (List.perm_append_comm.nodup_iff.mp hnd : (a :: l₂ ++ l₁).Nodup)
  have hx' : x ∉ a :: (l₂ ++ l₁) := by
    simp only [List.mem_append, List.mem_cons, not_or] at hx ⊢
    exact ⟨hx.2.1, hx.2.2, hx.1⟩
  have h' : IsRing n p (a :: (l₂ ++ l₁)) := by simpa using h.rotate
  have hins := h'.insert_front hnd' hx'
  exact IsRing.rotate (by simpa using hins)

/-- The writes that put the node `x` behind the last one, where the first one is known. -/
theorem IsRing.push_write (h : IsRing n p l) (hnd : l.Nodup) (hhead : l.head? = some a)
    (hx : x ∉ l) :
    IsRing (writeAt (Function.update n x (some a)) (p a) (some x))
      (Function.update (Function.update p x (p a)) a (some x)) (l ++ [x]) := by
  have hne : l ≠ [] := by
    rintro rfl
    cases hhead
  obtain ⟨l₁, z, rfl⟩ : ∃ l₁ z, l = l₁ ++ [z] :=
    ⟨l.dropLast, l.getLast hne, (List.dropLast_append_getLast hne).symm⟩
  have hnz : n z = some a := by
    rw [h.next_eq]
    simpa using hhead
  have hpa : p a = some z := by
    obtain ⟨l', e⟩ := List.head?_eq_some_iff.mp hhead
    rw [e] at h
    rw [h.prev_first, ← e, List.getLast?_concat]
  have hins := h.insert_behind hnd hx
  rw [hnz] at hins
  rw [hpa]
  simpa [writeAt] using hins

/-- Where a ring begins once its node `x` is gone. -/
theorem IsRing.head_remove (h : IsRing n p (l₁ ++ x :: l₂)) (hnd : (l₁ ++ x :: l₂).Nodup) :
    (if (l₁ ++ x :: l₂).head? = some x then if n x = some x then none else n x
      else (l₁ ++ x :: l₂).head?) = (l₁ ++ l₂).head? := by
  cases l₁ with
  | nil =>
    have hn : n x = (l₂ ++ [x]).head? := h.next_first
    cases l₂ with
    | nil => simp_all
    | cons b l₂ =>
      have hb : b ≠ x := fun e => by simp [e] at hnd
      simp_all
  | cons b l₁ =>
    have hb : b ≠ x := fun e => by simp [e] at hnd
    simp [hb]

/-- The writes that take the node `x` out of the ring. -/
theorem IsRing.remove_write (h : IsRing n p (l₁ ++ x :: l₂)) (hnd : (l₁ ++ x :: l₂).Nodup)
    {v : Option α} :
    IsRing (Function.update (writeAt n (p x) (n x)) x v) (writeAt p (n x) (p x)) (l₁ ++ l₂) := by
  have hnd' : (x :: (l₂ ++ l₁)).Nodup := by
    simpa using (List.perm_append_comm.nodup_iff.mp hnd : (x :: l₂ ++ l₁).Nodup)
  have h' : IsRing n p (x :: (l₂ ++ l₁)) := by simpa using h.rotate
  suffices hrest : IsRing (Function.update (writeAt n (p x) (n x)) x v) (writeAt p (n x) (p x))
      (l₂ ++ l₁) from hrest.rotate
  generalize l₂ ++ l₁ = l at h' hnd'
  have hlinks : Links n p (some x) l (some x) := by simpa using h'.2.2
  obtain ⟨hxl, hnl⟩ := List.nodup_cons.mp hnd'
  have hne : ∀ y ∈ l, y ≠ x := fun y hy e => hxl (e ▸ hy)
  cases hl : l.getLast? with
  | none => simp [IsRing, List.getLast?_eq_none_iff.mp hl]
  | some z =>
    have hpx : p x = l.getLast? := by rw [h'.1, List.getLast?_cons, hl]; rfl
    have hnx : n x = l.head? := by
      obtain ⟨b, l', rfl⟩ := List.exists_cons_of_ne_nil (List.ne_nil_of_mem (List.mem_of_getLast? hl))
      simpa using h'.2.1
    have hleft : Links (Function.update (writeAt n (p x) (n x)) x v) p (some x) l l.head? := by
      refine hlinks.relink_left hnl ?_ ?_ fun y _ => rfl
      · intro y hy hlast
        rw [Function.update_of_ne (hne y hy), writeAt_of_ne (hpx ▸ hlast)]
      · intro y hy
        rw [Function.update_of_ne (hne y (List.mem_of_getLast? hy)), hpx, hy, writeAt_some, hnx]
    refine hleft.relink_right hnl (fun y _ => rfl) ?_ ?_
    · intro y hy
      rw [hnx, hy, writeAt_some, hpx]
    · intro y _ hhead
      rw [writeAt_of_ne (hnx ▸ hhead)]

end

end L4env
