import L4env.Fiasco.SemaphoreExit
import Mathlib.Data.BitVec
import Mathlib.Data.Nat.Bitwise
import Mathlib.Tactic

/-!
# Absolute timeouts of IPC operations

A timeout is a word of 16 bits. That of an absolute timeout holds ten bits of the point in time from
bit `e` on, the bit behind them, and the granularity `e`. A reader takes the higher bits from the clock,
and the single bit tells whether the point is in the window of the clock or in the next one
(`l4_types.cpp` in the kernel, `__timeout.h` for the user level).
-/

namespace L4env.Fiasco

/-! ## The kernel -/

namespace TimeoutWord

/-- `Clock_mask`, `Man_mask` -/
def clockMask : BitVec 32 := 0x0400#32

def manMask : BitVec 32 := 0x3ff#32

def man (t : BitVec 16) : BitVec 32 := (t.setWidth 32 &&& manMask) >>> 0

def absExp (t : BitVec 16) : BitVec 32 := (t.setWidth 32 >>> 11) &&& 0xf#32

def absClock (t : BitVec 16) : Bool := t.setWidth 32 &&& clockMask ≠ 0

/-- The word that is compared with `abs_clock`. -/
def ofBool (b : Bool) : BitVec 64 := if b then 1 else 0

/-- `microsecs_abs`, with the widths of its operands: the shifts are done in 32 bits. -/
def microsecsAbs (t : BitVec 16) (clock : BitVec 64) : BitVec 64 :=
  let e := (absExp t).toNat
  let timeout := clock &&& (~~~((1#32 <<< (e + 10)) - 1)).signExtend 64 |||
    (man t <<< e).setWidth 64
  let timeout :=
    if (clock >>> (e + 10)) &&& 1#64 ≠ ofBool (absClock t) then
      timeout + (1#32 <<< (e + 10)).signExtend 64
    else timeout
  if timeout < clock then 0 else timeout

end TimeoutWord

/-! ## The user level -/

/-- `l4_timeout_abs`, where the granularity is one of the sixteen values of
`l4_timeout_abs_validity`. -/
def l4TimeoutAbs (pint : BitVec 64) (v : Fin 16) : BitVec 16 :=
  let e : BitVec 32 := BitVec.ofNat 32 v
  let m : BitVec 32 := (pint >>> v.val).setWidth 32
  let c : BitVec 32 := ((pint >>> (v.val + 10)) &&& 1#64).setWidth 32
  let m := m &&& 0x3ff#32
  (0x8000#32 ||| m ||| e <<< 11 ||| c <<< 10).setWidth 16

/-- `l4_timeout_abs_get` -/
def l4TimeoutAbsGet (cur : BitVec 64) (t : BitVec 16) : BitVec 64 :=
  let e := ((t.setWidth 32 >>> 11) &&& 0xf#32).toNat
  let timeout := (cur &&& (~~~((1#32 <<< (e + 10)) - 1)).signExtend 64) |||
    ((t.setWidth 32 &&& 0x3ff#32) <<< e).signExtend 64
  let timeout :=
    if (cur >>> (e + 10)) &&& 1#64 ≠ ((t.setWidth 32 >>> 10) &&& 1#32).setWidth 64 then
      timeout + (1#32 <<< (e + 10)).signExtend 64
    else timeout
  if timeout < cur then 0 else timeout

/-! ## The fields of a timeout -/

namespace TimeoutWord

variable {t : BitVec 16} {c p : BitVec 64} {e k : Nat}

theorem man_toNat (t : BitVec 16) : (man t).toNat = t.toNat % 1024 := by
  have ht : t.toNat < 4294967296 := by omega
  rw [man, manMask, BitVec.ushiftRight_zero, BitVec.toNat_and, BitVec.toNat_setWidth,
    Nat.mod_eq_of_lt ht]
  exact Nat.and_two_pow_sub_one_eq_mod t.toNat 10

theorem absExp_toNat (t : BitVec 16) : (absExp t).toNat = t.toNat / 2048 % 16 := by
  have ht : t.toNat < 4294967296 := by omega
  rw [absExp, BitVec.toNat_and, BitVec.toNat_ushiftRight, BitVec.toNat_setWidth,
    Nat.mod_eq_of_lt ht, Nat.shiftRight_eq_div_pow]
  exact Nat.and_two_pow_sub_one_eq_mod (t.toNat / 2 ^ 11) 4

theorem absExp_lt (t : BitVec 16) : (absExp t).toNat < 16 := by
  rw [absExp_toNat]
  exact Nat.mod_lt _ (by decide)

theorem absClock_eq (t : BitVec 16) : absClock t = t.getLsbD 10 := by
  have hmask : t.setWidth 32 &&& clockMask = (ofBool (t.getLsbD 10)).setWidth 32 <<< 10 := by
    refine BitVec.eq_of_getLsbD_eq fun i hi => ?_
    cases h : t[10] <;> interval_cases i <;> simp [clockMask, ofBool, h]
  rw [absClock, hmask]
  cases t.getLsbD 10 <;> decide

/-- The bit of the clock as the user level extracts it. -/
theorem ofBool_absClock (t : BitVec 16) :
    ofBool (absClock t) = ((t.setWidth 32 >>> 10) &&& 1#32).setWidth 64 := by
  rw [absClock_eq]
  refine BitVec.eq_of_getLsbD_eq fun i hi => ?_
  cases i with
  | zero => cases h : t[10] <;> simp [ofBool, h]
  | succ i => cases h : t[10] <;> simp [ofBool, h]

theorem ofBool_toNat (b : Bool) : (ofBool b).toNat = b.toNat := by
  cases b <;> rfl

/-! ## The window of the clock -/

theorem clockBit_toNat (c : BitVec 64) (k : Nat) :
    ((c >>> k) &&& 1#64).toNat = c.toNat / 2 ^ k % 2 := by
  rw [BitVec.toNat_and, BitVec.toNat_ushiftRight, Nat.shiftRight_eq_div_pow]
  exact Nat.and_two_pow_sub_one_eq_mod (c.toNat / 2 ^ k) 1

/-- The width of the window, an `int` that is extended to 64 bits. -/
theorem window_toNat (he : e < 16) :
    ((1#32 <<< (e + 10)).signExtend 64).toNat = 2 ^ (e + 10) := by
  interval_cases e <;> rfl

theorem getLsbD_windowMask (he : e < 16) {i : Nat} (hi : i < 64) :
    ((~~~((1#32 <<< (e + 10)) - 1)).signExtend 64).getLsbD i = decide (e + 10 ≤ i) := by
  interval_cases e <;> interval_cases i <;> rfl

/-- The start of the window. -/
theorem and_windowMask (he : e < 16) (c : BitVec 64) :
    (c &&& (~~~((1#32 <<< (e + 10)) - 1)).signExtend 64).toNat =
      c.toNat / 2 ^ (e + 10) * 2 ^ (e + 10) := by
  have hshift : c &&& (~~~((1#32 <<< (e + 10)) - 1)).signExtend 64 =
      (c >>> (e + 10)) <<< (e + 10) := by
    refine BitVec.eq_of_getLsbD_eq fun i hi => ?_
    rw [BitVec.getLsbD_and, getLsbD_windowMask he hi, BitVec.getLsbD_shiftLeft, decide_eq_true hi,
      BitVec.getLsbD_ushiftRight]
    cases Nat.lt_or_ge i (e + 10) with
    | inl hk => simp [hk, Nat.not_le.mpr hk]
    | inr hk => simp [hk, Nat.not_lt.mpr hk, Nat.add_sub_cancel' hk]
  have hle : c.toNat / 2 ^ (e + 10) * 2 ^ (e + 10) < 2 ^ 64 :=
    (Nat.div_mul_le_self _ _).trans_lt c.isLt
  rw [hshift, BitVec.toNat_shiftLeft, BitVec.toNat_ushiftRight, Nat.shiftRight_eq_div_pow,
    Nat.shiftLeft_eq, Nat.mod_eq_of_lt hle]

theorem man_shift_lt (he : e < 16) {m : BitVec 32} (hm : m.toNat < 1024) :
    m.toNat * 2 ^ e < 2 ^ (e + 10) ∧ m.toNat * 2 ^ e < 2 ^ 25 := by
  have hlt : m.toNat * 2 ^ e < 2 ^ (e + 10) := by
    rw [Nat.pow_add, Nat.mul_comm]
    exact Nat.mul_lt_mul_of_pos_left hm (Nat.two_pow_pos e)
  exact ⟨hlt, hlt.trans_le (Nat.pow_le_pow_right (by decide) (by omega))⟩

theorem shift_toNat (he : e < 16) {m : BitVec 32} (hm : m.toNat < 1024) :
    (m <<< e).toNat = m.toNat * 2 ^ e := by
  have hlt := (man_shift_lt he hm).2
  rw [BitVec.toNat_shiftLeft, Nat.shiftLeft_eq, Nat.mod_eq_of_lt (hlt.trans (by decide))]

/-- What the decoder puts together: the start of the window and the point in it. -/
theorem point_toNat {m : BitVec 32} (he : e < 16) (hm : m.toNat < 1024) (c : BitVec 64) :
    (c &&& (~~~((1#32 <<< (e + 10)) - 1)).signExtend 64 ||| (m <<< e).setWidth 64).toNat =
      c.toNat / 2 ^ (e + 10) * 2 ^ (e + 10) + m.toNat * 2 ^ e := by
  obtain ⟨hwindow, hlt⟩ := man_shift_lt he hm
  have hshift : ((m <<< e).setWidth 64).toNat = m.toNat * 2 ^ e := by
    rw [BitVec.toNat_setWidth, shift_toNat he hm, Nat.mod_eq_of_lt (hlt.trans (by decide))]
  rw [BitVec.toNat_or, and_windowMask he, hshift, ← Nat.shiftLeft_eq,
    ← Nat.shiftLeft_add_eq_or_of_lt hwindow]

theorem man_lt (t : BitVec 16) : (man t).toNat < 1024 := by
  rw [man_toNat]
  exact Nat.mod_lt _ (by decide)

/-- The user level has the shifted mantissa as an `int`, which is not negative. -/
theorem signExtend_man (t : BitVec 16) :
    (man t <<< (absExp t).toNat).signExtend 64 = (man t <<< (absExp t).toNat).setWidth 64 := by
  have hlt := (man_shift_lt (absExp_lt t) (man_lt t)).2
  refine BitVec.signExtend_eq_setWidth_of_msb_false ?_
  rw [BitVec.msb_eq_false_iff_two_mul_lt, shift_toNat (absExp_lt t) (man_lt t)]
  omega

theorem clamp_toNat (x c : BitVec 64) :
    (if x < c then 0 else x).toNat = if c.toNat ≤ x.toNat then x.toNat else 0 := by
  rcases Nat.lt_or_ge x.toNat c.toNat with h | h
  · rw [if_pos (BitVec.lt_def.mpr h), if_neg (Nat.not_le.mpr h)]
    rfl
  · rw [if_neg (mt BitVec.lt_def.mp (Nat.not_lt.mpr h)), if_pos h]

/-- The value of an absolute timeout in terms of its fields. -/
theorem microsecsAbs_toNat (t : BitVec 16) (c : BitVec 64) {e m n : Nat}
    (he : t.toNat / 2048 % 16 = e) (hm : t.toNat % 1024 = m)
    (hn : n = c.toNat / 2 ^ (e + 10) * 2 ^ (e + 10) + m * 2 ^ e +
      if c.toNat / 2 ^ (e + 10) % 2 = t.toNat / 1024 % 2 then 0 else 2 ^ (e + 10))
    (hlt : n < 2 ^ 64) :
    (microsecsAbs t c).toNat = if c.toNat ≤ n then n else 0 := by
  have hexp : (absExp t).toNat = e := (absExp_toNat t).trans he
  have he16 : e < 16 := hexp ▸ absExp_lt t
  have hman : (man t).toNat = m := (man_toNat t).trans hm
  have hpoint := point_toNat he16 (man_lt t) c
  have hbit : (c >>> (e + 10)) &&& 1#64 = ofBool (absClock t) ↔
      c.toNat / 2 ^ (e + 10) % 2 = t.toNat / 1024 % 2 := by
    rw [← BitVec.toNat_inj, clockBit_toNat, ofBool_toNat, absClock_eq, BitVec.getLsbD,
      Nat.toNat_testBit]
  have hsum : (if (c >>> (e + 10)) &&& 1#64 ≠ ofBool (absClock t) then
        (c &&& (~~~((1#32 <<< (e + 10)) - 1)).signExtend 64 ||| (man t <<< e).setWidth 64) +
          (1#32 <<< (e + 10)).signExtend 64
      else c &&& (~~~((1#32 <<< (e + 10)) - 1)).signExtend 64 |||
        (man t <<< e).setWidth 64).toNat = n := by
    rw [hman] at hpoint
    simp only [ne_eq, hbit, ite_not]
    split_ifs at hn ⊢
    · rw [hpoint, hn]
      rfl
    · rw [BitVec.toNat_add, hpoint, window_toNat he16, ← hn, Nat.mod_eq_of_lt hlt]
  simp only [microsecsAbs, hexp]
  rw [clamp_toNat, hsum]

theorem windowMask_eq (he : e < 16) :
    (~~~((1#32 <<< (e + 10)) - 1)).signExtend 64 = ~~~(1#64 <<< (e + 10) - 1) := by
  interval_cases e <;> rfl

theorem window_eq_shift (he : e < 16) : (1#32 <<< (e + 10)).signExtend 64 = 1#64 <<< (e + 10) := by
  interval_cases e <;> rfl

end TimeoutWord

namespace L4Timeout

theorem absExp_eq (t : L4Timeout) : (TimeoutWord.absExp t.raw).toNat = t.absExp := by
  rw [TimeoutWord.absExp_toNat, absExp, BitVec.toNat_and, BitVec.toNat_ushiftRight,
    Nat.shiftRight_eq_div_pow]
  exact (Nat.and_two_pow_sub_one_eq_mod _ 4).symm

theorem man_eq (t : L4Timeout) : (TimeoutWord.man t.raw).toNat = t.man := by
  rw [TimeoutWord.man_toNat, man, BitVec.toNat_and]
  exact (Nat.and_two_pow_sub_one_eq_mod _ 10).symm

theorem absClock_eq (t : L4Timeout) : TimeoutWord.absClock t.raw = t.absClock := by
  have hmask : t.raw &&& 0x0400#16 = (BitVec.ofBool (t.raw.getLsbD 10)).setWidth 16 <<< 10 := by
    refine BitVec.eq_of_getLsbD_eq fun i hi => ?_
    cases h : t.raw[10] <;> interval_cases i <;> simp [h]
  rw [TimeoutWord.absClock_eq]
  change _ = (t.raw &&& 0x0400#16 != 0)
  rw [hmask]
  cases t.raw.getLsbD 10 <;> decide

/-- The widths make no difference to the time that `block_locked` computes. -/
theorem microsecsAbs_eq (t : L4Timeout) (c : BitVec 64) :
    TimeoutWord.microsecsAbs t.raw c = t.microsecsAbs c := by
  have he : t.absExp < 16 := t.absExp_eq ▸ TimeoutWord.absExp_lt t.raw
  have hman : (TimeoutWord.man t.raw <<< t.absExp).setWidth 64 =
      BitVec.ofNat 64 t.man <<< t.absExp := by
    have hlt := TimeoutWord.man_shift_lt he (TimeoutWord.man_lt t.raw)
    refine BitVec.eq_of_toNat_eq ?_
    rw [BitVec.toNat_setWidth, TimeoutWord.shift_toNat he (TimeoutWord.man_lt t.raw),
      BitVec.toNat_shiftLeft, BitVec.toNat_ofNat, Nat.shiftLeft_eq, ← t.man_eq,
      Nat.mod_eq_of_lt (a := (TimeoutWord.man t.raw).toNat) (by omega)]
  have hclock : (c >>> (t.absExp + 10)) &&& 1#64 ≠ TimeoutWord.ofBool t.absClock ↔
      ((((c >>> (t.absExp + 10)) &&& 1) != 0) != t.absClock) = true := by
    have hbit : (c >>> (t.absExp + 10)) &&& 1#64 = 0#64 ∨ (c >>> (t.absExp + 10)) &&& 1#64 = 1#64 := by
      have := TimeoutWord.clockBit_toNat c (t.absExp + 10)
      simp only [← BitVec.toNat_inj, this]
      exact Nat.mod_two_eq_zero_or_one _
    obtain h | h := hbit <;> cases t.absClock <;> simp [h, TimeoutWord.ofBool]
  simp only [microsecsAbs, TimeoutWord.microsecsAbs, absExp_eq, absClock_eq,
    TimeoutWord.windowMask_eq he, TimeoutWord.window_eq_shift he, hman, hclock]

end L4Timeout

/-! ## Encoding -/

section
variable (p : BitVec 64) (v : Fin 16)

/-- The fields do not overlap. -/
theorem or_fields {m c e : Nat} (hm : m < 1024) (hc : c < 2) (he : e < 16) :
    32768 ||| m ||| e * 2048 ||| c * 1024 = 32768 + e * 2048 + c * 1024 + m := by
  have hclock : c * 1024 ||| m = c * 1024 + m := by
    rw [Nat.mul_comm]
    exact (Nat.two_pow_add_eq_or_of_lt (i := 10) hm c).symm
  have hexp : e * 2048 ||| (c * 1024 + m) = e * 2048 + (c * 1024 + m) := by
    rw [Nat.mul_comm]
    exact (Nat.two_pow_add_eq_or_of_lt (i := 11) (by omega) e).symm
  have habs : 32768 ||| (e * 2048 + (c * 1024 + m)) = 32768 + (e * 2048 + (c * 1024 + m)) :=
    (Nat.two_pow_add_eq_or_of_lt (i := 15) (by omega) 1).symm
  calc 32768 ||| m ||| e * 2048 ||| c * 1024
      = 32768 ||| (e * 2048 ||| (c * 1024 ||| m)) := by
        rw [Nat.lor_assoc, Nat.lor_assoc, Nat.lor_comm m, Nat.lor_assoc]
    _ = 32768 + e * 2048 + c * 1024 + m := by
        rw [hclock, hexp, habs]
        omega

theorem l4TimeoutAbs_toNat :
    (l4TimeoutAbs p v).toNat =
      32768 + v * 2048 + p.toNat / 2 ^ (v.val + 10) % 2 * 1024 + p.toNat / 2 ^ v.val % 1024 := by
  have hm : ((p >>> v.val).setWidth 32 &&& 0x3ff#32).toNat = p.toNat / 2 ^ v.val % 1024 := by
    rw [BitVec.toNat_and, BitVec.toNat_setWidth, BitVec.toNat_ushiftRight,
      Nat.shiftRight_eq_div_pow]
    refine (Nat.and_two_pow_sub_one_eq_mod _ 10).trans ?_
    omega
  have hc : (((p >>> (v.val + 10)) &&& 1#64).setWidth 32).toNat = p.toNat / 2 ^ (v.val + 10) % 2 := by
    rw [BitVec.toNat_setWidth, TimeoutWord.clockBit_toNat]
    omega
  have he : (BitVec.ofNat 32 v.val).toNat = v := by
    rw [BitVec.toNat_ofNat]
    omega
  have hfields := or_fields (m := p.toNat / 2 ^ v.val % 1024) (c := p.toNat / 2 ^ (v.val + 10) % 2)
    (Nat.mod_lt _ (by decide)) (Nat.mod_lt _ (by decide)) v.isLt
  rw [l4TimeoutAbs, BitVec.toNat_setWidth, BitVec.toNat_or, BitVec.toNat_or, BitVec.toNat_or, hm,
    BitVec.toNat_shiftLeft, BitVec.toNat_shiftLeft, he, hc, Nat.shiftLeft_eq, Nat.shiftLeft_eq,
    Nat.mod_eq_of_lt (a := v.val * 2 ^ 11) (by omega),
    Nat.mod_eq_of_lt (a := _ % 2 * 2 ^ 10) (by omega)]
  refine (congrArg (· % 2 ^ 16) hfields).trans (Nat.mod_eq_of_lt ?_)
  have := v.isLt
  omega

/-- The point in time, rounded down to the granularity, if the clock has not passed it. -/
def pointFrom (clock p e : Nat) : Nat :=
  if clock ≤ p / 2 ^ e * 2 ^ e then p / 2 ^ e * 2 ^ e else 0

/-- The window of a point in time is that of the clock or the next one. -/
theorem window_eq {c p w : Nat} (hw : 0 < w) (hle : c ≤ p) (hlt : p < c + w) :
    p / w * w = c / w * w + if c / w % 2 = p / w % 2 then 0 else w := by
  have hlo : c / w ≤ p / w := Nat.div_le_div_right hle
  have hhi : p / w ≤ c / w + 1 := by
    rw [← Nat.add_div_right c hw]
    exact Nat.div_le_div_right hlt.le
  obtain h | h : p / w = c / w ∨ p / w = c / w + 1 := by omega
  · rw [h, if_pos rfl, Nat.add_zero]
  · rw [h, if_neg (by omega), Nat.succ_mul]

/-- Absolute timeouts make a round trip, and the user level decodes them as the kernel does. -/
theorem absTimeout_roundtrip :
    (∀ (c p : BitVec 64) (e : Fin 16), c.toNat ≤ p.toNat → p.toNat < c.toNat + 2 ^ (e.val + 10) →
      (TimeoutWord.microsecsAbs (l4TimeoutAbs p e) c).toNat = pointFrom c.toNat p.toNat e) ∧
    ∀ (c : BitVec 64) (t : BitVec 16), l4TimeoutAbsGet c t = TimeoutWord.microsecsAbs t c := by
  refine ⟨fun c p e hle hlt => ?_, fun c t => ?_⟩
  · have ht := l4TimeoutAbs_toNat p e
    have hv := e.isLt
    have hround : p.toNat / 2 ^ e.val * 2 ^ e.val =
        p.toNat / 2 ^ (e.val + 10) * 2 ^ (e.val + 10) + p.toNat / 2 ^ e.val % 1024 * 2 ^ e.val := by
      rw [Nat.pow_add, ← Nat.div_div_eq_div_mul, Nat.mul_comm (2 ^ e.val) (2 ^ 10), ← Nat.mul_assoc,
        ← Nat.add_mul]
      exact congrArg (· * 2 ^ e.val) (Nat.div_add_mod' _ 1024).symm
    refine TimeoutWord.microsecsAbs_toNat _ c (e := e) (m := p.toNat / 2 ^ e.val % 1024) ?_ ?_ ?_ ?_
    · omega
    · omega
    · have hclock : (l4TimeoutAbs p e).toNat / 1024 % 2 = p.toNat / 2 ^ (e.val + 10) % 2 := by
        omega
      rw [hclock, hround, window_eq (Nat.two_pow_pos _) hle hlt]
      omega
    · exact (Nat.div_mul_le_self _ _).trans_lt p.isLt
  · have hman := TimeoutWord.signExtend_man t
    simp only [TimeoutWord.man, TimeoutWord.manMask, TimeoutWord.absExp, BitVec.ushiftRight_zero] at hman
    simp only [l4TimeoutAbsGet, TimeoutWord.microsecsAbs, TimeoutWord.ofBool_absClock, TimeoutWord.man,
      TimeoutWord.manMask, TimeoutWord.absExp, BitVec.ushiftRight_zero, hman]

/-- The clock is at the end of a window and the point in time in the next one. -/
theorem absTimeout_roundtrip_next :
    (TimeoutWord.microsecsAbs (l4TimeoutAbs 4294968300 2) 4294967295).toNat = 4294968300 :=
  absTimeout_roundtrip.1 4294967295 4294968300 2 (by decide) (by decide)

end

end L4env.Fiasco
