import L4env.Util.Word

/-!
# Bit scans and aligned blocks

`k ≤ bsr n` and `k ≤ bsf n` in terms of division by `2 ^ k`. The block of size `2 ^ k` of a number
consists of the numbers with the same quotient by `2 ^ k`.
-/

namespace L4env.Word

variable {a b k n : Nat}

theorem bsr_eq (hn : n ≠ 0) : bsr n = n.log2 := if_neg hn

theorem le_bsr (hn : n ≠ 0) : (k : Int) ≤ bsr n ↔ 2 ^ k ≤ n := by
  rw [bsr_eq hn, Int.ofNat_le]
  exact Nat.le_log2 hn

theorem bsr_lt (hn : n < 2 ^ k) : bsr n < k := by
  unfold bsr
  split_ifs with h0
  · omega
  · exact Int.ofNat_lt.mpr ((Nat.log2_lt h0).mpr hn)

theorem bsf_eq (hn : n ≠ 0) (hw : n < 2 ^ 32) :
    ∃ i : Nat, bsf n = i ∧ n.testBit i = true ∧ ∀ j < i, n.testBit j = false := by
  unfold bsf
  split
  · rename_i i hi
    obtain ⟨hbit, hlow⟩ := List.find?_range_eq_some.mp hi
    exact ⟨i, rfl, hbit, fun j hj => by simpa using hlow.2 j hj⟩
  · rename_i hnone
    refine absurd (Nat.eq_of_testBit_eq fun i => ?_) hn
    rw [Nat.zero_testBit]
    by_cases hi : i < 32
    · simpa using List.find?_eq_none.mp hnone i (List.mem_range.mpr hi)
    · exact Nat.testBit_lt_two_pow
        (hw.trans_le (Nat.pow_le_pow_right (by decide) (Nat.le_of_not_lt hi)))

theorem dvd_iff_testBit : 2 ^ k ∣ n ↔ ∀ j < k, n.testBit j = false := by
  rw [Nat.dvd_iff_mod_eq_zero]
  constructor
  · intro h j hj
    have hbit := Nat.testBit_mod_two_pow n k j
    rw [h, Nat.zero_testBit, decide_eq_true hj, Bool.true_and] at hbit
    exact hbit.symm
  · intro h
    refine Nat.eq_of_testBit_eq fun j => ?_
    rw [Nat.testBit_mod_two_pow, Nat.zero_testBit]
    cases hj : decide (j < k) with
    | true => rw [h j (of_decide_eq_true hj), Bool.and_false]
    | false => rfl

theorem le_bsf (hn : n ≠ 0) (hw : n < 2 ^ 32) : (k : Int) ≤ bsf n ↔ 2 ^ k ∣ n := by
  obtain ⟨i, hi, hbit, hlow⟩ := bsf_eq hn hw
  rw [hi, Int.ofNat_le, dvd_iff_testBit]
  constructor
  · exact fun hk j hj => hlow j (Nat.lt_of_lt_of_le hj hk)
  · intro h
    by_contra hik
    rw [h i (Nat.lt_of_not_le hik)] at hbit
    cases hbit

/-- The highest bit in which two numbers differ. -/
theorem le_bsr_xor (hne : a ≠ b) : (k : Int) ≤ bsr (a ^^^ b) ↔ a / 2 ^ k ≠ b / 2 ^ k := by
  have hxor : a ^^^ b ≠ 0 := fun h => hne (Nat.xor_eq_zero_iff.mp h)
  rw [le_bsr hxor, ← Nat.xor_eq_zero_iff.ne, ← Nat.xor_div_two_pow, ne_eq, Nat.div_eq_zero_iff]
  have hpos : 0 < 2 ^ k := Nat.two_pow_pos k
  omega

/-- The lowest bit in which two numbers differ. -/
theorem le_bsf_xor (hne : a ≠ b) (ha : a < 2 ^ 32) (hb : b < 2 ^ 32) :
    (k : Int) ≤ bsf (a ^^^ b) ↔ a % 2 ^ k = b % 2 ^ k := by
  have hxor : a ^^^ b ≠ 0 := fun h => hne (Nat.xor_eq_zero_iff.mp h)
  rw [le_bsf hxor (Nat.xor_lt_two_pow ha hb), Nat.dvd_iff_mod_eq_zero, Nat.xor_mod_two_pow,
    Nat.xor_eq_zero_iff]

theorem le_bsf_or (hne : a ||| b ≠ 0) (ha : a < 2 ^ 32) (hb : b < 2 ^ 32) :
    (k : Int) ≤ bsf (a ||| b) ↔ 2 ^ k ∣ a ∧ 2 ^ k ∣ b := by
  rw [le_bsf hne (Nat.or_lt_two_pow ha hb)]
  simp only [dvd_iff_testBit, Nat.testBit_or, Bool.or_eq_false_iff]
  exact ⟨fun h => ⟨fun j hj => (h j hj).1, fun j hj => (h j hj).2⟩, fun h j hj => ⟨h.1 j hj, h.2 j hj⟩⟩

end L4env.Word
