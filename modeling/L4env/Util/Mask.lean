import Mathlib.Data.Finset.Card
import Mathlib.Data.BitVec
import Mathlib.Tactic

/-!
# Disjoint bit masks

Unions of lists of bit masks, for masks that are pairwise disjoint: how the union changes where a
mask is added or taken out, and how many non-empty masks there can be.
-/

namespace L4env.Mask

variable {w : Nat} {a b m : BitVec w} {l l₁ l₂ : List (BitVec w)}

def union (l : List (BitVec w)) : BitVec w := l.foldr (· ||| ·) 0

/-- The masks have no bit in common. -/
def Disjoint (a b : BitVec w) : Prop := a &&& b = 0

@[simp] theorem union_nil : union ([] : List (BitVec w)) = 0 := rfl

@[simp] theorem union_cons : union (a :: l) = a ||| union l := rfl

theorem union_append : union (l₁ ++ l₂) = union l₁ ||| union l₂ := by
  induction l₁ with
  | nil => simp
  | cons a l ih => rw [List.cons_append, union_cons, union_cons, ih, BitVec.or_assoc]

theorem getLsbD_union {i : Nat} : (union l).getLsbD i = true ↔ ∃ a ∈ l, a.getLsbD i = true := by
  induction l with
  | nil => simp
  | cons a l ih => simp [ih]

theorem and_eq_zero : a &&& b = 0 ↔ ∀ i, a.getLsbD i = true → b.getLsbD i = false := by
  constructor
  · intro h i ha
    have hi := congrArg (BitVec.getLsbD · i) h
    simpa [ha] using hi
  · intro h
    refine BitVec.eq_of_getLsbD_eq fun i hi => ?_
    cases ha : a.getLsbD i with
    | false => simp [ha]
    | true => simp [ha, h i ha]

theorem Disjoint.symm (h : Disjoint a b) : Disjoint b a := (BitVec.and_comm b a).trans h

/-- A mask meets the union if it meets one of the masks. -/
theorem union_and_eq_zero : union l &&& m = 0 ↔ ∀ a ∈ l, a &&& m = 0 := by
  simp only [and_eq_zero, getLsbD_union]
  constructor
  · intro h a ha i hi
    exact h i ⟨a, ha, hi⟩
  · rintro h i ⟨a, ha, hi⟩
    exact h a ha i hi

/-- One of several disjoint masks is taken out of their union. -/
theorem union_and_not (h : (l₁ ++ a :: l₂).Pairwise Disjoint) :
    union (l₁ ++ a :: l₂) &&& ~~~ a = union (l₁ ++ l₂) := by
  have hsplit := List.pairwise_append.mp h
  have hdisj : union (l₁ ++ l₂) &&& a = 0 := by
    refine union_and_eq_zero.mpr fun b hb => ?_
    rcases List.mem_append.mp hb with hb | hb
    · exact hsplit.2.2 b hb a List.mem_cons_self
    · exact Disjoint.symm (List.rel_of_pairwise_cons hsplit.2.1 hb)
  have hunion : union (l₁ ++ a :: l₂) = union (l₁ ++ l₂) ||| a := by
    rw [union_append, union_append, union_cons, BitVec.or_assoc, BitVec.or_comm a]
  rw [hunion]
  refine BitVec.eq_of_getLsbD_eq fun i hi => ?_
  have hbit := and_eq_zero.mp hdisj i
  cases hu : (union (l₁ ++ l₂)).getLsbD i <;> cases ha : a.getLsbD i <;> simp_all

/-- Disjoint masks with a bit below `k` each are at most `k`. -/
theorem length_le {k : Nat} (h : l.Pairwise Disjoint) (hne : ∀ a ∈ l, ∃ i < k, a.getLsbD i = true) :
    l.length ≤ k := by
  suffices hcard : l.length ≤ ((Finset.range k).filter fun i => (union l).getLsbD i = true).card by
    exact hcard.trans ((Finset.card_filter_le _ _).trans (Finset.card_range k).le)
  induction l with
  | nil => exact Nat.zero_le _
  | cons a l ih =>
    obtain ⟨ha, hl⟩ := List.pairwise_cons.mp h
    obtain ⟨i, hi, hbit⟩ := hne a List.mem_cons_self
    have hrest := ih hl fun b hb => hne b (List.mem_cons_of_mem _ hb)
    have hout : (union l).getLsbD i = false := by
      have hzero : union l &&& a = 0 :=
        union_and_eq_zero.mpr fun b hb => Disjoint.symm (ha b hb)
      exact and_eq_zero.mp ((BitVec.and_comm a (union l)).trans hzero) i hbit
    have hlt : ((Finset.range k).filter fun i => (union l).getLsbD i = true).card <
        ((Finset.range k).filter fun i => (union (a :: l)).getLsbD i = true).card := by
      refine Finset.card_lt_card ⟨?_, fun hsub => ?_⟩
      · intro j hj
        rw [Finset.mem_filter] at hj ⊢
        exact ⟨hj.1, by simp [hj.2]⟩
      · have hmem := hsub (Finset.mem_filter.mpr ⟨Finset.mem_range.mpr hi, by simp [hbit]⟩)
        rw [Finset.mem_filter, hout] at hmem
        cases hmem.2
    exact Nat.succ_le_of_lt (lt_of_le_of_lt hrest hlt)

end L4env.Mask
