import Mathlib.Data.Set.Card
import Mathlib.Order.Interval.Finset.Nat

/-!
# Spans of ranges

`spans lo len l` are the numbers in the ranges of the elements of `l`; an element `a` has the range of
`len a` numbers from `lo a` on. Ranges that do not meet span as many numbers as their lengths add up to.
-/

namespace L4env

variable {α : Type}

/-- The numbers in the ranges of the elements of `l`. -/
def spans (lo len : α → Nat) (l : List α) : Set Nat := {x | ∃ a ∈ l, lo a ≤ x ∧ x < lo a + len a}

/-- The ranges of two elements do not meet. -/
def Apart (lo len : α → Nat) (a b : α) : Prop := lo a + len a ≤ lo b ∨ lo b + len b ≤ lo a

section
variable {lo len : α → Nat} {l l₁ l₂ : List α} {a : α} {x : Nat}

theorem mem_spans : x ∈ spans lo len l ↔ ∃ a ∈ l, lo a ≤ x ∧ x < lo a + len a := Iff.rfl

@[simp] theorem spans_nil : spans lo len [] = ∅ := by
  ext x
  simp [mem_spans]

theorem spans_cons : spans lo len (a :: l) = Set.Ico (lo a) (lo a + len a) ∪ spans lo len l := by
  ext x
  simp [mem_spans]

theorem finite_spans (lo len : α → Nat) (l : List α) : (spans lo len l).Finite := by
  induction l with
  | nil => rw [spans_nil]; exact Set.finite_empty
  | cons a l ih => rw [spans_cons]; exact (Set.finite_Ico _ _).union ih

theorem ncard_spans (h : l.Pairwise (Apart lo len)) : (spans lo len l).ncard = (l.map len).sum := by
  induction l with
  | nil => simp
  | cons a l ih =>
    obtain ⟨ha, hl⟩ := List.pairwise_cons.mp h
    have hdisj : Disjoint (Set.Ico (lo a) (lo a + len a)) (spans lo len l) := by
      rw [Set.disjoint_left]
      rintro x ⟨h1, h2⟩ ⟨b, hb, h3, h4⟩
      have := ha b hb
      unfold Apart at this
      omega
    have hcard : (Set.Ico (lo a) (lo a + len a)).ncard = len a := by
      rw [← Finset.coe_Ico, Set.ncard_coe_finset, Nat.card_Ico]
      omega
    rw [spans_cons, Set.ncard_union_eq hdisj (Set.finite_Ico _ _) (finite_spans lo len l), hcard,
      ih hl, List.map_cons, List.sum_cons]

/-- Ranges that end at `n` or below span at most `n` numbers. -/
theorem ncard_spans_le {n : Nat} (h : ∀ a ∈ l, lo a + len a ≤ n) : (spans lo len l).ncard ≤ n := by
  have hsub : spans lo len l ⊆ (Finset.range n : Set Nat) := by
    rintro x ⟨a, ha, -, h2⟩
    have := h a ha
    simp only [Finset.coe_range, Set.mem_Iio]
    omega
  have := Set.ncard_le_ncard hsub (Finset.finite_toSet _)
  rwa [Set.ncard_coe_finset, Finset.card_range] at this

end

end L4env
