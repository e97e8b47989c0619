import Mathlib.Algebra.BigOperators.Group.Finset.Basic
import Mathlib.Data.Fintype.BigOperators
import Mathlib.Data.Nat.Count

/-!
# Sums and counts

The sum of a number that depends on the value of a function at each point of a finite family, how it changes
where the function is updated, and the ranks of the points that are counted.
-/

namespace L4env

/-- Every number below the count is the rank of one of the points. -/
theorem exists_count_eq {p : Nat → Prop} [DecidablePred p] {n j : Nat} (h : j < Nat.count p n) :
    ∃ i < n, p i ∧ Nat.count p i = j := by
  induction n with
  | zero => simp at h
  | succ n ih =>
    rw [Nat.count_succ] at h
    by_cases hlt : j < Nat.count p n
    · obtain ⟨i, hi, hpi, heq⟩ := ih hlt
      exact ⟨i, by omega, hpi, heq⟩
    · split_ifs at h with hn
      · exact ⟨n, by omega, hn, by omega⟩
      · omega

/-- Between two points without another one in between the rank grows by one. -/
theorem count_eq_succ {p : Nat → Prop} [DecidablePred p] {m n : Nat} (hm : p m) (hmn : m < n)
    (h : ∀ k, m < k → k < n → ¬ p k) : Nat.count p n = Nat.count p m + 1 := by
  induction n with
  | zero => omega
  | succ n ih =>
    rw [Nat.count_succ]
    rcases (Nat.le_of_lt_succ hmn).eq_or_lt with rfl | hlt
    · rw [if_pos hm]
    · rw [ih hlt fun k hk hkn => h k hk (by omega), if_neg (h n hlt (by omega)), Nat.add_zero]

variable {ι α : Type} [Fintype ι] [DecidableEq ι]

theorem sum_update (f : α → Nat) (g : ι → α) (i : ι) (a : α) :
    ∑ j, f (Function.update g i a j) + f (g i) = ∑ j, f (g j) + f a := by
  have hother : ∀ j ∈ Finset.univ.erase i, f (Function.update g i a j) = f (g j) := by
    intro j hj
    rw [Function.update_of_ne (Finset.ne_of_mem_erase hj)]
  rw [← Finset.add_sum_erase _ _ (Finset.mem_univ i), Finset.sum_congr rfl hother,
    ← Finset.add_sum_erase Finset.univ (fun j => f (g j)) (Finset.mem_univ i),
    Function.update_self]
  omega

end L4env
