import Mathlib.Tactic

/-!
# Byte memory

Memory maps an address to a byte. `load32` and `store32` read and write a little-endian 32-bit word
at any address, aligned or not.
-/

namespace L4env

/-- The bytes of an address space. -/
abbrev Bytes := Nat → BitVec 8

namespace Bytes

/-- The word at `a`. -/
def load32 (m : Bytes) (a : Nat) : Nat :=
  (m a).toNat + 256 * (m (a + 1)).toNat + 65536 * (m (a + 2)).toNat +
    16777216 * (m (a + 3)).toNat

/-- The memory whose word at `a` is `v`. -/
def store32 (m : Bytes) (a v : Nat) : Bytes := fun i =>
  if i = a then BitVec.ofNat 8 v
  else if i = a + 1 then BitVec.ofNat 8 (v / 256)
  else if i = a + 2 then BitVec.ofNat 8 (v / 65536)
  else if i = a + 3 then BitVec.ofNat 8 (v / 16777216)
  else m i

variable {m m' : Bytes} {a b v : Nat}

theorem load32_lt (m : Bytes) (a : Nat) : m.load32 a < 4294967296 := by
  have h₀ := (m a).isLt
  have h₁ := (m (a + 1)).isLt
  have h₂ := (m (a + 2)).isLt
  have h₃ := (m (a + 3)).isLt
  unfold load32
  omega

/-- Only the four bytes of a word are read. -/
theorem load32_congr (h : ∀ i, a ≤ i → i < a + 4 → m' i = m i) : m'.load32 a = m.load32 a := by
  unfold load32
  rw [h a (by omega) (by omega), h (a + 1) (by omega) (by omega), h (a + 2) (by omega) (by omega),
    h (a + 3) (by omega) (by omega)]

/-- Only the four bytes of a word are written. -/
theorem store32_of_outside {i : Nat} (h : i < a ∨ a + 4 ≤ i) : m.store32 a v i = m i := by
  unfold store32
  rw [if_neg (by omega), if_neg (by omega), if_neg (by omega), if_neg (by omega)]

/-- The bytes of a word that is stored again. -/
theorem store32_load32 (m m' : Bytes) {i : Nat} (h : i < 4) : m.store32 0 (m'.load32 0) i = m' i := by
  have hbyte : ∀ {v : Nat} {b : BitVec 8}, v % 256 = b.toNat → BitVec.ofNat 8 v = b := fun h =>
    BitVec.eq_of_toNat_eq (by simpa using h)
  have h₀ := (m' 0).isLt
  have h₁ := (m' 1).isLt
  have h₂ := (m' 2).isLt
  have h₃ := (m' 3).isLt
  unfold store32 load32
  obtain rfl | rfl | rfl | rfl : i = 0 ∨ i = 1 ∨ i = 2 ∨ i = 3 := by omega
  · exact hbyte (by simp only [Nat.zero_add]; omega)
  · exact hbyte (by simp only [Nat.zero_add]; omega)
  · exact hbyte (by simp only [Nat.zero_add]; omega)
  · exact hbyte (by simp only [Nat.zero_add]; omega)

@[simp] theorem load32_store32 (hv : v < 4294967296) : (m.store32 a v).load32 a = v := by
  simp only [load32, store32, if_true, BitVec.toNat_ofNat]
  simp
  omega

theorem load32_store32_of_disjoint (h : a + 4 ≤ b ∨ b + 4 ≤ a) :
    (m.store32 a v).load32 b = m.load32 b :=
  load32_congr fun _ h₁ h₂ => store32_of_outside (by omega)

end Bytes

end L4env
