import Mathlib.Data.Prod.Lex
import Mathlib.Tactic

/-!
# Search with a preference

`pick` is a loop over the indices of an array. It ends at the first match that is not `late`; if there is
none, the result is the first match. This is the match of the least rank, where all late indices come
behind the others.
-/

namespace L4env

variable {p late : Nat → Bool} {n i j k m : Nat} {w : Option Nat}

/-- The loop, `n` indices from the end; `w` is the first late match it has passed. -/
def pick (p late : Nat → Bool) : (n i : Nat) → (w : Option Nat) → Option Nat
  | 0, _, w => w
  | n + 1, i, w =>
    if p i then
      if late i then pick p late n (i + 1) (if w = none then some i else w) else some i
    else pick p late n (i + 1) w

/-- The late indices come behind the others. -/
def rank (late : Nat → Bool) (i : Nat) : Bool ×ₗ Nat := toLex (late i, i)

theorem rank_le : rank late i ≤ rank late j ↔ late i < late j ∨ late i = late j ∧ i ≤ j :=
  Prod.Lex.toLex_le_toLex

theorem rank_lt : rank late i < rank late j ↔ late i < late j ∨ late i = late j ∧ i < j :=
  Prod.Lex.toLex_lt_toLex

theorem rank_injective : Function.Injective (rank late) := fun _ _ h => congrArg (fun r => (ofLex r).2) h

/-- With a match that is not late the one of the least rank is not late either. -/
theorem late_of_rank_le (h : rank late i ≤ rank late j) (hi : late i = true) : late j = true := by
  rcases rank_le.mp h with hlt | ⟨heq, -⟩
  · rw [hi] at hlt
    exact absurd hlt (by simp)
  · exact heq ▸ hi

/-- The match of the least rank in front of `m`. -/
def IsPick (p late : Nat → Bool) (m : Nat) : Option Nat → Prop
  | none => ∀ k < m, p k = false
  | some j => j < m ∧ p j = true ∧ ∀ k < m, p k = true → rank late j ≤ rank late k

theorem IsPick.skip (h : IsPick p late i w) (hp : p i = false) : IsPick p late (i + 1) w := by
  have hk : ∀ k < i + 1, p k = true → k < i := fun k hk hpk => by
    rcases Nat.lt_succ_iff_lt_or_eq.mp hk with hlt | rfl
    · exact hlt
    · rw [hp] at hpk
      cases hpk
  cases w with
  | none => exact fun k hki => Bool.eq_false_iff.mpr fun hpk => by simp [h k (hk k hki hpk)] at hpk
  | some j => exact ⟨Nat.lt_succ_of_lt h.1, h.2.1, fun k hki hpk => h.2.2 k (hk k hki hpk) hpk⟩

/-- The first late match is kept. -/
theorem IsPick.keep (h : IsPick p late i w) (hlate : ∀ k < i, p k = true → late k = true) (hp : p i = true)
    (hi : late i = true) : IsPick p late (i + 1) (if w = none then some i else w) := by
  cases w with
  | none =>
    refine ⟨Nat.lt_succ_self i, hp, fun k hk hpk => ?_⟩
    rcases Nat.lt_succ_iff_lt_or_eq.mp hk with hlt | rfl
    · rw [h k hlt] at hpk
      cases hpk
    · exact le_rfl
  | some j =>
    refine ⟨Nat.lt_succ_of_lt h.1, h.2.1, fun k hk hpk => ?_⟩
    rcases Nat.lt_succ_iff_lt_or_eq.mp hk with hlt | rfl
    · exact h.2.2 k hlt hpk
    · exact rank_le.mpr (.inr ⟨(hlate j h.1 h.2.1).trans hi.symm, h.1.le⟩)

/-- A match that is not late comes in front of the late ones before it and of all behind it. -/
theorem isPick_of_not_late (hlate : ∀ k < i, p k = true → late k = true) (hp : p i = true)
    (hi : late i = false) (hm : i < m) : IsPick p late m (some i) := by
  refine ⟨hm, hp, fun k _ hpk => rank_le.mpr ?_⟩
  cases hk : late k with
  | true => exact .inl (hi ▸ Bool.false_lt_true)
  | false =>
    refine .inr ⟨hi, Nat.le_of_not_lt fun hlt => ?_⟩
    rw [hlate k hlt hpk] at hk
    cases hk

theorem isPick_loop (h : IsPick p late i w) (hlate : ∀ k < i, p k = true → late k = true) :
    IsPick p late (i + n) (pick p late n i w) := by
  induction n generalizing i w with
  | zero => exact h
  | succ n ih =>
    have hnext : (p i = true → late i = true) → ∀ k < i + 1, p k = true → late k = true :=
      fun hi k hk hpk => by
        rcases Nat.lt_succ_iff_lt_or_eq.mp hk with hlt | rfl
        · exact hlate k hlt hpk
        · exact hi hpk
    rw [pick, show i + (n + 1) = i + 1 + n by omega]
    split
    next hp =>
      split
      next hi => exact ih (h.keep hlate hp hi) (hnext fun _ => hi)
      next hi => exact isPick_of_not_late hlate hp (Bool.eq_false_iff.mpr hi) (by omega)
    next hp => exact ih (h.skip (Bool.eq_false_iff.mpr hp)) (hnext fun hpi => absurd hpi hp)

theorem isPick_pick (p late : Nat → Bool) (m : Nat) : IsPick p late m (pick p late m 0 none) := by
  have h : IsPick p late (0 + m) (pick p late m 0 none) := isPick_loop nofun nofun
  rwa [Nat.zero_add] at h

end L4env
