import L4env.Util.Word

/-!
# Flexpage windows

`Map_traits<SPACE>` of `kern/map_util.cpp`: which part of the sender's flexpage is transferred, and
where it goes in the receiver's. Sizes of flexpages are binary logarithms; words have 32 bits.
-/

namespace L4env.Fiasco

def mwordBits : Nat := 32

/-- The constants of an address-space type. -/
structure SpaceType where
  wholeSpace : Nat
  mapMaxAddress : Nat
  mapPageSize : Nat
  identityMap : Bool

inductive SpaceKind
  | mem
  | io
  | cap
  | obj
  deriving DecidableEq, Repr

/-- `Mem_space` (`mem_space.cpp`), `Io_space`, `Cap_space` and `Obj_space`. -/
def SpaceKind.type : SpaceKind → SpaceType
  | .mem => ⟨32, 0xc0000000, 4096, false⟩
  | .io => ⟨16, 0x10000, 1, true⟩
  | .cap => ⟨11, 2048, 1, true⟩
  | .obj => ⟨8, 256, 1, false⟩

/-- The address and the size of a flexpage, as `get_addr` and `size` return them. -/
structure Fpage where
  addr : Nat
  size : Nat
  addr_lt : addr < 4294967296
  size_lt : size < mwordBits

/-- What a call of `constraint` leaves in its reference arguments. -/
structure Transfer where
  sndAddr : Nat
  sndSize : Nat
  rcvAddr : Nat
  deriving DecidableEq, Repr

namespace SpaceType

/-- `prepare_fpage` -/
def prepareFpage (addr size : Nat) : Nat := Word.roundDown addr (2 ^ size)

/-- `calc_size` -/
def calcSize (S : SpaceType) (size : Nat) : Nat :=
  if S.wholeSpace ≤ size then S.mapMaxAddress else 2 ^ size

/-- `identity_constraint` -/
def identityConstraint (S : SpaceType) (sndAddr sndSize rcvAddr rcvSize : Nat) : Transfer :=
  let rcvSize := S.calcSize rcvSize
  let sndSize := S.calcSize sndSize
  let (addr, size) :=
    if sndAddr < rcvAddr then (rcvAddr, Word.sub sndSize (Word.sub rcvAddr sndAddr))
    else (sndAddr, sndSize)
  ⟨addr, if rcvSize < size then rcvSize else size, rcvAddr⟩

/-- The masks `rcv_m` and `snd_m` of `free_constraint`. -/
def sizeMask (size : Nat) : Nat := if mwordBits ≤ size then 4294967295 else 2 ^ size - 1

/-- `free_constraint` -/
def freeConstraint (S : SpaceType) (sndAddr sndSize rcvAddr rcvSize hotSpot : Nat) : Transfer :=
  let hotSpot := Word.roundDown hotSpot S.mapPageSize
  let rcvM := sizeMask rcvSize
  let sndM := sizeMask sndSize
  if sndSize ≤ rcvSize then
    ⟨sndAddr, S.calcSize sndSize, Word.add rcvAddr (hotSpot &&& rcvM &&& (4294967295 - sndM))⟩
  else
    -- reduce size of address range
    ⟨Word.add sndAddr (hotSpot &&& sndM &&& (4294967295 - rcvM)), S.calcSize rcvSize, rcvAddr⟩

/-- `constraint` -/
def constraint (S : SpaceType) (sndAddr sndSize rcvAddr rcvSize hotSpot : Nat) : Transfer :=
  if S.identityMap then S.identityConstraint sndAddr sndSize rcvAddr rcvSize
  else S.freeConstraint sndAddr sndSize rcvAddr rcvSize hotSpot

/-- The part of `mem_map`, `io_map`, `cap_map` and `obj_map` in front of the call of `map`: where the identity
holds, the position in the sender's space is the one in the receiver's. -/
def transfer (S : SpaceType) (snd rcv : Fpage) (hotSpot : Nat) : Transfer :=
  let t := S.constraint (prepareFpage snd.addr snd.size) snd.size (prepareFpage rcv.addr rcv.size) rcv.size
    hotSpot
  if S.identityMap then { t with rcvAddr := t.sndAddr } else t

end SpaceType

/-! ## Windows -/

/-- The addresses of a flexpage. -/
def Fpage.Has (f : Fpage) (x : Nat) : Prop :=
  SpaceType.prepareFpage f.addr f.size ≤ x ∧ x < SpaceType.prepareFpage f.addr f.size + 2 ^ f.size

/-- The addresses of a flexpage in a space, which is as large as its largest flexpage. -/
def Fpage.Covers (f : Fpage) (S : SpaceType) (x : Nat) : Prop :=
  SpaceType.prepareFpage f.addr f.size ≤ x ∧ x < SpaceType.prepareFpage f.addr f.size + S.calcSize f.size

/-- The range and its image are inside of the two flexpages. -/
def Transfer.Inside (t : Transfer) (snd rcv : Fpage) : Prop :=
  ∀ i < t.sndSize, snd.Has (t.sndAddr + i) ∧ rcv.Has (t.rcvAddr + i)

/-- The range is the intersection of the two flexpages. -/
def Transfer.Intersects (t : Transfer) (S : SpaceType) (snd rcv : Fpage) : Prop :=
  ∀ x, t.sndAddr ≤ x ∧ x < t.sndAddr + t.sndSize ↔ snd.Covers S x ∧ rcv.Covers S x

namespace SpaceType

variable {S : SpaceType} {a b i j : Nat}

/-- Two aligned windows of an identity-mapped space, clipped as the source does it. -/
theorem clip_iff (hi : i < 32) (hj : j < 32) (ha : 2 ^ i ∣ a) (hb : 2 ^ j ∣ b) (hal : a < 4294967296)
    (hbl : b < 4294967296) {s n : Nat}
    (hclip : (s, n) = if a < b then (b, min (2 ^ j) (Word.sub (2 ^ i) (Word.sub b a)))
      else (a, min (2 ^ j) (2 ^ i))) :
    (∀ x, s ≤ x ∧ x < s + n ↔ (a ≤ x ∧ x < a + 2 ^ i) ∧ b ≤ x ∧ x < b + 2 ^ j) ↔
      a < b + 2 ^ j ∧ b < a + 2 ^ i ∨ b = a + 2 ^ i := by
  have hpi := Nat.two_pow_pos i
  have hpj := Nat.two_pow_pos j
  have hli : 2 ^ i < 4294967296 := Nat.pow_lt_pow_right (by decide) hi
  have hlj : 2 ^ j < 4294967296 := Nat.pow_lt_pow_right (by decide) hj
  have hnest : (b ≤ a ∧ a + 2 ^ i ≤ b + 2 ^ j ∨ a + 2 ^ i ≤ b ∨ b + 2 ^ j ≤ a) ∨
      (a ≤ b ∧ b + 2 ^ j ≤ a + 2 ^ i ∨ b + 2 ^ j ≤ a ∨ a + 2 ^ i ≤ b) :=
    (Nat.le_total i j).imp (Word.blocks_nested ha hb) (Word.blocks_nested hb ha)
  generalize 2 ^ i = p at *
  generalize 2 ^ j = q at *
  split_ifs at hclip with hlt
  · obtain ⟨rfl, rfl⟩ := Prod.mk.inj hclip
    rw [Word.sub_eq hlt.le hbl]
    rcases Nat.lt_or_ge (a + p) s with hfar | hnear
    · -- the difference wraps around
      refine iff_of_false (fun h => ?_) (by omega)
      have hpos : 0 < Word.sub p (s - a) := by unfold Word.sub; omega
      have := (h s).mp ⟨le_rfl, by omega⟩
      omega
    · rw [Word.sub_eq (by omega) hli]
      exact iff_of_true (fun x => by omega) (by omega)
  · obtain ⟨rfl, rfl⟩ := Prod.mk.inj hclip
    rcases Nat.lt_or_ge s (b + q) with hnear | hfar
    · exact iff_of_true (fun x => by omega) (by omega)
    · refine iff_of_false (fun h => ?_) (by omega)
      have := (h s).mp ⟨le_rfl, by omega⟩
      omega

/-- An identity-mapped space is a power of two, and its flexpages are aligned to the addresses they cover. -/
theorem calcSize_identity (k : SpaceKind) (hid : k.type.identityMap = true) (f : Fpage) :
    ∃ i < 32, k.type.calcSize f.size = 2 ^ i ∧ 2 ^ i ≤ 2 ^ f.size ∧ 2 ^ i ∣ prepareFpage f.addr f.size := by
  have hdvd := Word.dvd_roundDown f.addr_lt f.size_lt
  obtain ⟨w, hw, hmax⟩ : ∃ w < 32, k.type.wholeSpace = w ∧ k.type.mapMaxAddress = 2 ^ w := by
    cases k with
    | io => exact ⟨16, by decide, rfl, rfl⟩
    | cap => exact ⟨11, by decide, rfl, rfl⟩
    | mem => cases hid
    | obj => cases hid
  unfold calcSize
  split_ifs with hle
  · rw [hmax.1] at hle
    exact ⟨w, hw, hmax.2, Nat.pow_le_pow_right (by decide) hle, (Nat.pow_dvd_pow 2 hle).trans hdvd⟩
  · exact ⟨f.size, f.size_lt, rfl, le_rfl, hdvd⟩

theorem calcSize_le (k : SpaceKind) {size : Nat} (hlt : size < 32) : k.type.calcSize size ≤ 2 ^ size := by
  unfold calcSize
  split_ifs with hle
  · cases k with
    | mem => exact absurd hle (by simp only [SpaceKind.type]; omega)
    | io => exact (Nat.pow_le_pow_right (by decide) hle : 2 ^ 16 ≤ 2 ^ size)
    | cap => exact (Nat.pow_le_pow_right (by decide) hle : 2 ^ 11 ≤ 2 ^ size)
    | obj => exact (Nat.pow_le_pow_right (by decide) hle : 2 ^ 8 ≤ 2 ^ size)
  · exact le_rfl

theorem prepareFpage_lt (f : Fpage) : prepareFpage f.addr f.size < 4294967296 :=
  (Word.roundDown_le f.addr_lt f.size_lt).trans_lt f.addr_lt

/-- The windows meet, or the receiver's begins where the sender's ends. -/
def Meet (S : SpaceType) (snd rcv : Fpage) : Prop :=
  (∃ x, snd.Covers S x ∧ rcv.Covers S x) ∨
    prepareFpage rcv.addr rcv.size = prepareFpage snd.addr snd.size + S.calcSize snd.size

theorem identity_iff (k : SpaceKind) (hid : k.type.identityMap = true) (snd rcv : Fpage) (hotSpot : Nat) :
    (k.type.transfer snd rcv hotSpot).Intersects k.type snd rcv ↔ k.type.Meet snd rcv := by
  obtain ⟨i, hi, hsi, -, hdi⟩ := calcSize_identity k hid snd
  obtain ⟨j, hj, hsj, -, hdj⟩ := calcSize_identity k hid rcv
  have hpi := Nat.two_pow_pos i
  have hpj := Nat.two_pow_pos j
  simp only [Transfer.Intersects, Meet, Fpage.Covers, hsi, hsj]
  refine (clip_iff hi hj hdi hdj (prepareFpage_lt snd) (prepareFpage_lt rcv) ?_).trans ?_
  · simp only [transfer, constraint, identityConstraint, hid, if_true, hsi, hsj]
    split_ifs <;> simp only [Prod.mk.injEq, true_and] <;> omega
  · refine or_congr_left ⟨fun h => ?_, ?_⟩
    · exact ⟨max (prepareFpage snd.addr snd.size) (prepareFpage rcv.addr rcv.size), by omega⟩
    · rintro ⟨x, hx⟩
      omega

/-- What of the hot spot is added to the address of the larger flexpage. -/
theorem hotSpot_offset {m n : Nat} (hmn : m ≤ n) (hn : n < 32) (hotSpot : Nat) :
    (hotSpot &&& sizeMask n &&& (4294967295 - sizeMask m)) + 2 ^ m ≤ 2 ^ n := by
  have hpow := Nat.pow_dvd_pow 2 hmn
  have hlt : 2 ^ n < 4294967296 := Nat.pow_lt_pow_right (by decide) hn
  have hle : 2 ^ m ≤ 2 ^ n := Nat.pow_le_pow_right (by decide) hmn
  have hpos := Nat.two_pow_pos m
  have hmask : 4294967295 - sizeMask m = Word.mask (2 ^ m) := by
    rw [sizeMask, if_neg (by simp only [mwordBits]; omega), Word.mask, Nat.mod_eq_of_lt (by omega),
      Nat.mod_eq_of_lt (by omega)]
    omega
  have hmod : hotSpot &&& sizeMask n = hotSpot % 2 ^ n := by
    rw [sizeMask, if_neg (by simp only [mwordBits]; omega), Nat.and_two_pow_sub_one_eq_mod]
  have hr := Nat.mod_lt hotSpot (Nat.two_pow_pos n)
  rw [hmask, hmod, ← Word.roundDown]
  have hdown := Word.roundDown_le (hr.trans hlt) (hmn.trans_lt hn)
  have hdvd := Word.dvd_roundDown (hr.trans hlt) (hmn.trans_lt hn)
  exact Nat.add_le_of_le_sub' (by omega) (Nat.le_of_dvd (by omega) (Nat.dvd_sub hpow hdvd))

theorem prepareFpage_add_le (f : Fpage) : prepareFpage f.addr f.size + 2 ^ f.size ≤ 4294967296 := by
  have hdvd := Word.dvd_roundDown f.addr_lt f.size_lt
  have hword : 2 ^ f.size ∣ 4294967296 := Nat.pow_dvd_pow 2 f.size_lt.le
  have hlt := prepareFpage_lt f
  exact Nat.add_le_of_le_sub' hlt.le
    (Nat.le_of_dvd (by omega) (Nat.dvd_sub hword hdvd))

/-- The aligned part of the receiver's window around the hot spot, or of the sender's if that is larger. -/
theorem free_inside (k : SpaceKind) (hid : k.type.identityMap = false) (snd rcv : Fpage) (hotSpot : Nat) :
    (k.type.transfer snd rcv hotSpot).Inside snd rcv := by
  have hs := prepareFpage_add_le snd
  have hr := prepareFpage_add_le rcv
  have hsl := snd.size_lt
  have hrl := rcv.size_lt
  simp only [mwordBits] at hsl hrl
  intro i hi
  simp only [transfer, constraint, freeConstraint, hid, Bool.false_eq_true, if_false] at hi ⊢
  simp only [Fpage.Has]
  generalize Word.roundDown hotSpot k.type.mapPageSize = h at *
  split_ifs at hi ⊢ with hle
  · have hoff := hotSpot_offset hle hrl h
    have hcalc := calcSize_le k hsl
    dsimp only at hi ⊢
    rw [Word.add_eq (by have := Nat.two_pow_pos snd.size; omega)]
    omega
  · have hoff := hotSpot_offset (Nat.le_of_not_le hle) hsl h
    have hcalc := calcSize_le k hrl
    dsimp only at hi ⊢
    rw [Word.add_eq (by have := Nat.two_pow_pos rcv.size; omega)]
    omega

/-- An intersection of flexpages is inside of both. -/
theorem identity_inside (k : SpaceKind) (hid : k.type.identityMap = true) (snd rcv : Fpage) (hotSpot : Nat)
    (h : (k.type.transfer snd rcv hotSpot).Intersects k.type snd rcv) :
    (k.type.transfer snd rcv hotSpot).Inside snd rcv := by
  obtain ⟨a, -, hsa, hla, -⟩ := calcSize_identity k hid snd
  obtain ⟨b, -, hsb, hlb, -⟩ := calcSize_identity k hid rcv
  have himg : (k.type.transfer snd rcv hotSpot).rcvAddr = (k.type.transfer snd rcv hotSpot).sndAddr := by
    simp only [transfer, hid, if_true]
  intro i hi
  have hx := (h ((k.type.transfer snd rcv hotSpot).sndAddr + i)).mp ⟨by omega, by omega⟩
  simp only [Fpage.Covers, hsa, hsb] at hx
  rw [himg]
  exact ⟨⟨hx.1.1, by omega⟩, hx.2.1, by omega⟩

/-- The transferred range is inside of both flexpages, and their intersection in an identity-mapped space,
except where the windows of such a space are apart. -/
theorem constraint_iff (k : SpaceKind) (snd rcv : Fpage) (hotSpot : Nat) :
    ((k.type.transfer snd rcv hotSpot).Inside snd rcv ∧
      (k.type.identityMap = true → (k.type.transfer snd rcv hotSpot).Intersects k.type snd rcv)) ↔
      (k.type.identityMap = true → k.type.Meet snd rcv) := by
  cases hid : k.type.identityMap with
  | true =>
    simp only [forall_const, ← identity_iff k hid snd rcv hotSpot]
    exact and_iff_right_of_imp (identity_inside k hid snd rcv hotSpot)
  | false => simpa using free_inside k hid snd rcv hotSpot

/-- Port 0 is sent to a receiver that takes port 2 only, and port 2 is mapped. -/
theorem io_transfer_apart : ¬∀ (k : SpaceKind) (snd rcv : Fpage) (hotSpot : Nat),
    (k.type.transfer snd rcv hotSpot).Inside snd rcv ∧
      (k.type.identityMap = true → (k.type.transfer snd rcv hotSpot).Intersects k.type snd rcv) := by
  intro h
  have hx := ((h .io ⟨0, 0, by decide, by decide⟩ ⟨2, 0, by decide, by decide⟩ 0).2 rfl 2).mp
    ⟨by decide +kernel, by decide +kernel⟩
  exact absurd hx.1.2 (by decide +kernel)

end SpaceType

end L4env.Fiasco
