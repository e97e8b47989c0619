import Mathlib.Data.Nat.Bitwise
import Mathlib.Tactic

/-!
# 32-bit machine words

Unsigned 32-bit arithmetic on natural numbers below `2 ^ 32`, the bit scans `bsr` and `bsf`, and
rounding to a power of two. Sums and differences wrap; a mask `~(a - 1)` is the word `2 ^ 32 - a`.
-/

namespace L4env.Word

/-- The sum of two words. -/
def add (a b : Nat) : Nat := (a + b) % 4294967296

/-- The difference of two words. -/
def sub (a b : Nat) : Nat := (a + (4294967296 - b % 4294967296)) % 4294967296

/-- The word `~(a - 1)`. -/
def mask (a : Nat) : Nat := (4294967296 - a % 4294967296) % 4294967296

/-- Index of the most significant bit, `-1` for the zero word. -/
def bsr (n : Nat) : Int := if n = 0 then -1 else (Nat.log2 n : Int)

/-- Index of the least significant bit, `-1` for the zero word. -/
def bsf (n : Nat) : Int :=
  match (List.range 32).find? n.testBit with
  | some i => i
  | none => -1

/-- `val & ~(alignment - 1)`. -/
def roundDown (val alignment : Nat) : Nat := val &&& mask alignment

/-- `(val + alignment - 1) & ~(alignment - 1)`. -/
def roundUp (val alignment : Nat) : Nat := sub (add val alignment) 1 &&& mask alignment

theorem add_lt (a b : Nat) : add a b < 4294967296 := Nat.mod_lt _ (by decide)

theorem add_le (a b : Nat) : add a b ≤ a + b := Nat.mod_le _ _

theorem sub_lt (a b : Nat) : sub a b < 4294967296 := Nat.mod_lt _ (by decide)

theorem add_eq (h : a + b < 4294967296) : add a b = a + b := Nat.mod_eq_of_lt h

theorem add_eq_zero (h : a + b = 4294967296) : add a b = 0 := by
  rw [add, h]

theorem sub_eq (h : b ≤ a) (ha : a < 4294967296) : sub a b = a - b := by
  unfold sub; omega

theorem sub_zero_left (h : 0 < b) (hb : b ≤ 4294967296) : sub 0 b = 4294967296 - b := by
  unfold sub; omega

theorem add_mod (a b : Nat) : add a b = (a + b) % 4294967296 := rfl

/-- The distance of a word from one behind it, which may have wrapped around. -/
theorem sub_wrapped (h : c < 4294967296) :
    sub ((b + c) % 4294967296) b = c := by
  unfold sub; omega

/-- The difference of two numbers that differ by less than `2 ^ 32`. -/
theorem sub_mod (h : b ≤ a) (h' : a < b + 4294967296) :
    sub (a % 4294967296) (b % 4294967296) = a - b := by
  unfold sub; omega

theorem sub_add_eq (h : b ≤ a) (ha : a < 4294967296) :
    add (sub a (c + b)) c = a - b := by
  unfold add sub; omega

/-! ## Rounding -/

theorem mask_two_pow (hk : k < 32) : mask (2 ^ k) = (2 ^ (32 - k) - 1) * 2 ^ k := by
  have hlt : 2 ^ k < 4294967296 := by
    calc 2 ^ k < 2 ^ 32 := Nat.pow_lt_pow_right (by decide) hk
      _ = 4294967296 := by decide
  have hpos : 0 < 2 ^ k := Nat.two_pow_pos k
  have hsplit : 2 ^ (32 - k) * 2 ^ k = 4294967296 := by
    rw [← pow_add, Nat.sub_add_cancel (by omega)]; rfl
  rw [mask, Nat.mod_eq_of_lt hlt, Nat.mod_eq_of_lt (by omega), Nat.sub_mul, hsplit, Nat.one_mul]

theorem roundDown_two_pow (hv : v < 4294967296) (hk : k < 32) :
    roundDown v (2 ^ k) = v / 2 ^ k * 2 ^ k := by
  rw [roundDown, mask_two_pow hk]
  apply Nat.eq_of_testBit_eq
  intro i
  rw [Nat.testBit_and, Nat.testBit_mul_two_pow, Nat.testBit_mul_two_pow]
  by_cases hi : k ≤ i
  · have hlow : (v / 2 ^ k).testBit (i - k) = v.testBit i := by
      rw [Nat.testBit_div_two_pow, Nat.sub_add_cancel hi]
    rw [Nat.testBit_two_pow_sub_one, hlow]
    by_cases h32 : i < 32
    · simp [hi, show i - k < 32 - k by omega]
    · have : v.testBit i = false := Nat.testBit_lt_two_pow <| by
        calc v < 2 ^ 32 := hv
          _ ≤ 2 ^ i := Nat.pow_le_pow_right (by decide) (by omega)
      simp [this]
  · simp [hi]

theorem roundDown_eq (hv : v < 4294967296) (hk : k < 32) :
    roundDown v (2 ^ k) = v - v % 2 ^ k := by
  rw [roundDown_two_pow hv hk]
  have := Nat.div_add_mod v (2 ^ k)
  rw [Nat.mul_comm] at this
  omega

/-- Rounding up, reduced to a word: past the last boundary the result is `0`. -/
theorem roundUp_two_pow (hv : v < 4294967296) (hk : k < 32) :
    roundUp v (2 ^ k) = (v + 2 ^ k - 1) / 2 ^ k * 2 ^ k % 4294967296 := by
  have hpos : 0 < 2 ^ k := Nat.two_pow_pos k
  have hlt : 2 ^ k < 4294967296 := Nat.pow_lt_pow_right (by decide) hk
  have hsplit : 4294967296 = 2 ^ (32 - k) * 2 ^ k := by
    rw [← pow_add, Nat.sub_add_cancel (by omega)]; rfl
  have hsum : sub (add v (2 ^ k)) 1 = (v + 2 ^ k - 1) % 4294967296 := by
    unfold sub add; omega
  rw [roundUp, hsum]
  refine (roundDown_two_pow (Nat.mod_lt _ (by decide)) hk).trans ?_
  rw [hsplit, Nat.mul_mod_mul_right, ← Nat.mod_mul_left_div_self]

theorem roundUp_eq (hk : k < 32) (h : v + 2 ^ k ≤ 4294967296) :
    roundUp v (2 ^ k) = (v + 2 ^ k - 1) / 2 ^ k * 2 ^ k := by
  have hpos : 0 < 2 ^ k := Nat.two_pow_pos k
  rw [roundUp_two_pow (by omega) hk, Nat.mod_eq_of_lt]
  calc (v + 2 ^ k - 1) / 2 ^ k * 2 ^ k ≤ v + 2 ^ k - 1 := Nat.div_mul_le_self _ _
    _ < 4294967296 := by omega

theorem roundUp_lt (hv : v < 4294967296) (hk : k < 32) : roundUp v (2 ^ k) < 4294967296 := by
  rw [roundUp_two_pow hv hk]
  exact Nat.mod_lt _ (by decide)

theorem dvd_roundDown (hv : v < 4294967296) (hk : k < 32) : 2 ^ k ∣ roundDown v (2 ^ k) := by
  rw [roundDown_two_pow hv hk]
  exact Nat.dvd_mul_left _ _

theorem roundDown_le (hv : v < 4294967296) (hk : k < 32) : roundDown v (2 ^ k) ≤ v := by
  rw [roundDown_two_pow hv hk]
  exact Nat.div_mul_le_self _ _

theorem le_roundDown (hv : v < 4294967296) (hk : k < 32) (hu : 2 ^ k ∣ u) (huv : u ≤ v) :
    u ≤ roundDown v (2 ^ k) := by
  rw [roundDown_two_pow hv hk, ← Nat.div_mul_cancel hu]
  exact Nat.mul_le_mul_right _ (Nat.div_le_div_right huv)

/-- Rounding up stays below the next boundary, unless there is none. -/
theorem roundUp_cases (hv : v < 4294967296) (hk : k < 32) :
    (roundUp v (2 ^ k) = 0 ∧ 0 < v) ∨
      (2 ^ k ∣ roundUp v (2 ^ k) ∧ v ≤ roundUp v (2 ^ k) ∧ roundUp v (2 ^ k) < v + 2 ^ k) := by
  have hpos : 0 < 2 ^ k := Nat.two_pow_pos k
  have hle := Nat.div_mul_le_self (v + 2 ^ k - 1) (2 ^ k)
  have hge := Nat.lt_div_mul_add hpos (a := v + 2 ^ k - 1)
  have hdvd : 2 ^ k ∣ (v + 2 ^ k - 1) / 2 ^ k * 2 ^ k := Nat.dvd_mul_left _ _
  have hbound : 2 ^ k < 4294967296 := Nat.pow_lt_pow_right (by decide) hk
  rw [roundUp_two_pow hv hk]
  generalize (v + 2 ^ k - 1) / 2 ^ k * 2 ^ k = w at *
  by_cases hlt : w < 4294967296
  · rw [Nat.mod_eq_of_lt hlt]
    exact .inr ⟨hdvd, by omega, by omega⟩
  · -- the boundary is a multiple of `2 ^ k` between `2 ^ 32` and `2 ^ 32 + 2 ^ k`
    left
    have hword : 2 ^ k ∣ 4294967296 := Nat.pow_dvd_pow 2 hk.le
    obtain ⟨c, hc⟩ := (Nat.dvd_sub hdvd hword)
    have : c = 0 := by
      by_contra h
      have : 2 ^ k * 1 ≤ 2 ^ k * c := Nat.mul_le_mul_left _ (by omega)
      omega
    rw [this, Nat.mul_zero] at hc
    constructor <;> omega

/-- A boundary behind a word is not in front of the next one. -/
theorem roundUp_le (hk : k < 32) (hu : 2 ^ k ∣ u) (huv : v ≤ u) (hlt : u < 4294967296) :
    v ≤ roundUp v (2 ^ k) ∧ roundUp v (2 ^ k) ≤ u := by
  have hpos : 0 < 2 ^ k := Nat.two_pow_pos k
  have hge := Nat.lt_div_mul_add hpos (a := v + 2 ^ k - 1)
  obtain ⟨c, rfl⟩ := hu
  have hle : (v + 2 ^ k - 1) / 2 ^ k * 2 ^ k ≤ 2 ^ k * c := by
    rw [Nat.mul_comm (2 ^ k) c]
    refine Nat.mul_le_mul_right _ (Nat.le_of_lt_succ ?_)
    rw [Nat.div_lt_iff_lt_mul hpos, Nat.succ_mul, Nat.mul_comm c]
    omega
  rw [roundUp_two_pow (by omega) hk, Nat.mod_eq_of_lt (by omega)]
  exact ⟨by omega, hle⟩

/-- Rounding up, where a whole block fits behind the word. -/
theorem roundUp_spec (hk : k < 32) (h : v + 2 ^ k ≤ 4294967296) :
    2 ^ k ∣ roundUp v (2 ^ k) ∧ v ≤ roundUp v (2 ^ k) ∧ roundUp v (2 ^ k) < v + 2 ^ k := by
  have hpos : 0 < 2 ^ k := Nat.two_pow_pos k
  have hle := Nat.div_mul_le_self (v + 2 ^ k - 1) (2 ^ k)
  have hge := Nat.lt_div_mul_add hpos (a := v + 2 ^ k - 1)
  rw [roundUp_eq hk h]
  exact ⟨Nat.dvd_mul_left _ _, by omega, by omega⟩

/-- The distance from a number to the next multiple of `2 ^ k`. -/
def gap (a k : Nat) : Nat := (2 ^ k - a % 2 ^ k) % 2 ^ k

theorem add_gap (a k : Nat) : a + gap a k = (a + 2 ^ k - 1) / 2 ^ k * 2 ^ k := by
  have hpos : 0 < 2 ^ k := Nat.two_pow_pos k
  have hmod := Nat.mod_lt a hpos
  have hdiv := Nat.div_add_mod a (2 ^ k)
  rw [gap]
  rcases Nat.eq_zero_or_pos (a % 2 ^ k) with h0 | h0
  · have hq : (a + 2 ^ k - 1) / 2 ^ k = a / 2 ^ k := by
      refine Nat.div_eq_of_lt_le ?_ ?_
      · rw [Nat.mul_comm]
        omega
      · rw [Nat.succ_mul, Nat.mul_comm]
        omega
    rw [h0, Nat.sub_zero, Nat.mod_self, hq, Nat.mul_comm]
    omega
  · have hq : (a + 2 ^ k - 1) / 2 ^ k = a / 2 ^ k + 1 := by
      refine Nat.div_eq_of_lt_le ?_ ?_
      · rw [Nat.succ_mul, Nat.mul_comm]
        omega
      · rw [Nat.succ_mul, Nat.succ_mul, Nat.mul_comm]
        omega
    rw [Nat.mod_eq_of_lt (by omega), hq, Nat.succ_mul, Nat.mul_comm]
    omega

theorem gap_lt (a k : Nat) : gap a k < 2 ^ k := Nat.mod_lt _ (Nat.two_pow_pos k)

theorem dvd_add_gap (a k : Nat) : 2 ^ k ∣ a + gap a k := by
  rw [add_gap]
  exact Nat.dvd_mul_left _ _

theorem add_gap_le (hb : 2 ^ k ∣ b) (hab : a ≤ b) : a + gap a k ≤ b := by
  have hpos : 0 < 2 ^ k := Nat.two_pow_pos k
  obtain ⟨c, rfl⟩ := hb
  rw [add_gap, Nat.mul_comm (2 ^ k) c]
  refine Nat.mul_le_mul_right _ (Nat.le_of_lt_succ ?_)
  rw [Nat.div_lt_iff_lt_mul hpos, Nat.succ_mul, Nat.mul_comm c]
  omega

theorem roundUp_gap (ha : a < 4294967296) (hk : k < 32) :
    roundUp a (2 ^ k) = (a + gap a k) % 4294967296 := by
  rw [roundUp_two_pow ha hk, add_gap]

theorem sub_roundUp (ha : a < 4294967296) (hk : k < 32) : sub (roundUp a (2 ^ k)) a = gap a k := by
  have hlt : 2 ^ k < 4294967296 := Nat.pow_lt_pow_right (by decide) hk
  rw [roundUp_gap ha hk, sub_wrapped ((gap_lt a k).trans hlt)]

/-- Two blocks of aligned powers of two: the smaller one lies inside the larger one or outside of it. -/
theorem blocks_nested (ha : 2 ^ i ∣ a) (hb : 2 ^ j ∣ b) (hij : i ≤ j) :
    b ≤ a ∧ a + 2 ^ i ≤ b + 2 ^ j ∨ a + 2 ^ i ≤ b ∨ b + 2 ^ j ≤ a := by
  have hpow := Nat.pow_dvd_pow 2 hij
  have hgap : ∀ {x y : Nat}, 2 ^ i ∣ x → 2 ^ i ∣ y → x < y → x + 2 ^ i ≤ y := fun hx hy hlt =>
    Nat.add_le_of_le_sub' hlt.le (Nat.le_of_dvd (by omega) (Nat.dvd_sub hy hx))
  by_cases hab : a < b
  · exact .inr (.inl (hgap ha (hpow.trans hb) hab))
  · by_cases hend : a < b + 2 ^ j
    · exact .inl ⟨by omega, hgap ha (Nat.dvd_add (hpow.trans hb) hpow) hend⟩
    · exact .inr (.inr (by omega))

-- unification must not look into the arithmetic of large literals
attribute [irreducible] add sub mask roundUp roundDown

end L4env.Word
