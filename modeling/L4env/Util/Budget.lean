import Mathlib.Tactic
import Mathlib.Logic.Relation

/-!
# Budgets handed down a tree

A node spends a part of its budget itself and hands other parts of it down to its children. If no node
overdraws its own budget, what all the nodes below a node spend together does not exceed its budget.
-/

namespace L4env

variable {α M : Type} [DecidableEq α] [AddCommMonoid M] [Preorder M] [AddLeftMono M]
  {parent parent' : α → Option α} {spent budget : α → M} {a b x p : α} {l : List α}

/-- `x` is `a` or below it. -/
def Below (parent : α → Option α) (x a : α) : Prop := Relation.ReflTransGen (fun x y => parent x = some y) x a

/-- The nodes of a tree, the newest first: a node comes after its parent. -/
def Grown (parent : α → Option α) : List α → Prop
  | [] => True
  | x :: l => x ∉ l ∧ (∀ p, parent x = some p → p ∈ l) ∧ Grown parent l

/-- What `a` has handed down to its children. -/
def handedDown (parent : α → Option α) (budget : α → M) (l : List α) (a : α) : M :=
  (l.map fun x => if parent x = some a then budget x else 0).sum

omit [DecidableEq α] [AddCommMonoid M] [Preorder M] [AddLeftMono M] in
theorem below_iff : Below parent x a ↔ x = a ∨ ∃ p, parent x = some p ∧ Below parent p a :=
  ⟨fun h => h.cases_head, fun h => h.elim (fun e => e ▸ .refl) fun ⟨_, hp, hb⟩ => .head hp hb⟩

namespace Grown

omit [DecidableEq α] in
theorem nodup (h : Grown parent l) : l.Nodup := by
  induction l with
  | nil => exact .nil
  | cons x l ih => exact List.nodup_cons.mpr ⟨h.1, ih h.2.2⟩

omit [DecidableEq α] in
theorem parent_mem (h : Grown parent l) (hx : x ∈ l) (hp : parent x = some p) : p ∈ l := by
  induction l with
  | nil => cases hx
  | cons y l ih =>
    obtain rfl | hx := List.mem_cons.mp hx
    · exact List.mem_cons_of_mem _ (h.2.1 p hp)
    · exact List.mem_cons_of_mem _ (ih h.2.2 hx)

omit [DecidableEq α] in
theorem below_mem (h : Grown parent l) (hx : x ∈ l) (hb : Below parent x a) : a ∈ l := by
  induction hb with
  | refl => exact hx
  | tail _ hp ih => exact h.parent_mem ih hp

omit [DecidableEq α] in
theorem congr (h : Grown parent l) (hp : ∀ x ∈ l, parent' x = parent x) : Grown parent' l := by
  induction l with
  | nil => trivial
  | cons x l ih =>
    refine ⟨h.1, fun p hx => h.2.1 p ?_, ih h.2.2 fun y hy => hp y (List.mem_cons_of_mem _ hy)⟩
    rw [← hp x List.mem_cons_self]
    exact hx

omit [DecidableEq α] in
theorem last_parent (h : Grown parent (l ++ [a])) : parent a = none := by
  induction l with
  | nil => exact Option.eq_none_iff_forall_ne_some.mpr fun p hp => List.not_mem_nil (h.2.1 p hp)
  | cons x l ih => exact ih h.2.2

/-- A node without children may go. -/
theorem erase (h : Grown parent l) (ha : ∀ x ∈ l, parent x ≠ some a) : Grown parent (l.erase a) := by
  induction l with
  | nil => trivial
  | cons x l ih =>
    by_cases hx : x = a
    · subst hx
      simpa using h.2.2
    · rw [List.erase_cons_tail (by simpa using hx)]
      have ha' : ∀ y ∈ l, parent y ≠ some a := fun y hy => ha y (List.mem_cons_of_mem _ hy)
      refine ⟨fun hm => h.1 (List.mem_of_mem_erase hm), fun p hp => ?_, ih h.2.2 ha'⟩
      have hne : p ≠ a := fun e => ha x List.mem_cons_self (e ▸ hp)
      exact (List.mem_erase_of_ne hne).mpr (h.2.1 p hp)

end Grown

omit [Preorder M] [AddLeftMono M] in
theorem sum_single (hl : l.Nodup) (hp : p ∈ l) (f : α → M) :
    (l.map fun y => if y = p then f y else 0).sum = f p := by
  induction l with
  | nil => cases hp
  | cons x l ih =>
    obtain ⟨hx, hl⟩ := List.nodup_cons.mp hl
    rw [List.map_cons, List.sum_cons]
    obtain rfl | hp := List.mem_cons.mp hp
    · have hzero : (l.map fun y => if y = p then f y else 0).sum = 0 := by
        refine List.sum_eq_zero fun z hz => ?_
        obtain ⟨y, hy, rfl⟩ := List.mem_map.mp hz
        exact if_neg (ne_of_mem_of_not_mem hy hx)
      rw [hzero, if_pos rfl, add_zero]
    · rw [if_neg (ne_of_mem_of_not_mem hp hx).symm, zero_add]
      exact ih hl hp

open Classical in
omit [Preorder M] [AddLeftMono M] in
/-- What a new node has got from its parent counts as spent by the parent. -/
theorem spent_cons (h : Grown parent (x :: l)) (ha : a ∈ l) :
    (l.map fun y => if Below parent y a then spent y + (if parent x = some y then budget x else 0) else 0).sum =
      (l.map fun y => if Below parent y a then spent y else 0).sum +
        (if Below parent x a then budget x else 0) := by
  have hne : x ≠ a := fun e => h.1 (e ▸ ha)
  have hsplit : ∀ y, (if Below parent y a then spent y + (if parent x = some y then budget x else 0) else 0) =
      (if Below parent y a then spent y else 0) +
        (if Below parent y a then (if parent x = some y then budget x else 0) else 0) := by
    intro y
    split <;> simp
  simp only [hsplit, List.sum_map_add]
  congr 1
  cases hp : parent x with
  | none =>
    have hx : ¬ Below parent x a := by
      rw [below_iff]
      simp [hne, hp]
    simp [hx]
  | some p =>
    have hx : Below parent x a ↔ Below parent p a := by
      rw [below_iff]
      simp [hne, hp]
    have hpl := h.2.1 p hp
    by_cases hb : Below parent p a
    · rw [if_pos (hx.mpr hb)]
      refine Eq.trans ?_ (sum_single h.2.2.nodup hpl fun _ => budget x)
      congr 1
      refine List.map_congr_left fun y _ => ?_
      by_cases hy : y = p
      · subst hy
        simp [hb]
      · simp [hy, Ne.symm hy]
    · rw [if_neg (mt hx.mp hb)]
      refine List.sum_eq_zero fun z hz => ?_
      obtain ⟨y, _, rfl⟩ := List.mem_map.mp hz
      by_cases hy : p = y
      · subst hy
        simp [hb]
      · simp [hy]

open Classical in
/-- What is spent at `a` and below it stays within the budget of `a`. -/
theorem Grown.spent_le (h : Grown parent l)
    (hfit : ∀ a ∈ l, spent a + handedDown parent budget l a ≤ budget a) (ha : a ∈ l) :
    (l.map fun x => if Below parent x a then spent x else 0).sum ≤ budget a := by
  induction l generalizing spent with
  | nil => cases ha
  | cons x l ih =>
    have hself : parent x ≠ some x := fun hp => h.1 (h.2.1 x hp)
    have hchild : ∀ y ∈ l, parent y ≠ some x := fun y hy hp => h.1 (h.2.2.parent_mem hy hp)
    have hx : spent x ≤ budget x := by
      have hnone : handedDown parent budget (x :: l) x = 0 := by
        refine List.sum_eq_zero fun z hz => ?_
        obtain ⟨y, hy, rfl⟩ := List.mem_map.mp hz
        obtain rfl | hy := List.mem_cons.mp hy
        · exact if_neg hself
        · exact if_neg (hchild y hy)
      have hfit := hfit x List.mem_cons_self
      rwa [hnone, add_zero] at hfit
    rw [List.map_cons, List.sum_cons]
    obtain rfl | ha := List.mem_cons.mp ha
    · have hzero : (l.map fun y => if Below parent y a then spent y else 0).sum = 0 := by
        refine List.sum_eq_zero fun z hz => ?_
        obtain ⟨y, hy, rfl⟩ := List.mem_map.mp hz
        exact if_neg fun hb => h.1 (h.2.2.below_mem hy hb)
      rw [hzero, add_zero, if_pos .refl]
      exact hx
    · have hfit' : ∀ b ∈ l, spent b + (if parent x = some b then budget x else 0) +
          handedDown parent budget l b ≤ budget b := by
        intro b hb
        rw [add_assoc]
        exact hfit b (List.mem_cons_of_mem _ hb)
      have hrest := ih h.2.2 hfit' ha
      rw [spent_cons h ha] at hrest
      refine le_trans ?_ hrest
      rw [add_comm]
      gcongr
      split
      · exact hx
      · exact le_refl _

end L4env
