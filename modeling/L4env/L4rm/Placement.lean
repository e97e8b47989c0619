import L4env.L4rm.RegionRun
import L4env.Util.BitScan

/-!
# L4RM: where a new region is placed

`l4rm_new_region` rounds the size to pages and looks for a free region of the area that has room, at a
given page or at the first address with the alignment that the flags ask for. All sums are those of a
32-bit machine, while the right answer is about numbers: the two agree if no sum is too large, and
if a given range does not end with the address space.
-/

namespace L4env.L4rm.Rm

variable {s : Rm} {l : List Cell} {c d : Cell} {addr size area : Nat} {flags : RmFlags}

/-- The number of bytes of a region. -/
def bytes (c : Cell) : Nat := c.last - c.start + 1

/-! ## What is asked for -/

/-- The size in whole pages. -/
def pagesSize (size : Nat) : Nat := (size + 4095) / 4096 * 4096

/-- The exponent of the alignment that the flags ask for. -/
def alignExp (size : Nat) (flags : RmFlags) : Nat :=
  let k := if flags.log2Aligned then Nat.clog 2 (pagesSize size) else 12
  if flags.superpageAligned then max k 22 else k

/-- The size of the block that the flags ask for. -/
def blockSize (size : Nat) (flags : RmFlags) : Nat :=
  if flags.log2Aligned && flags.log2Alloc then 2 ^ Nat.clog 2 (pagesSize size) else pagesSize size

/-- The free region has room for the block at `a`. -/
structure Block (c : Cell) (size area : Nat) (flags : RmFlags) (a : Nat) : Prop where
  free : c.reg.used = false
  area_eq : c.area = area
  aligned : 2 ^ alignExp size flags ∣ a
  start_le : c.start ≤ a
  le_last : a + blockSize size flags ≤ c.last + 1

/-- The bytes that the block takes behind the start of a region, with the gap in front of it. -/
def need (c : Cell) (size : Nat) (flags : RmFlags) : Nat :=
  blockSize size flags + Word.gap c.start (alignExp size flags)

/-- The free regions of the area in which the search errs. For a logarithm of 32 the shift gives 1,
and a rounded size of `2 ^ 32` is 0. Otherwise the sum of the size and the gap overflows to a number
that the region has room for, or the number of bytes of a region does. -/
def Misjudged (c : Cell) (size : Nat) (flags : RmFlags) : Prop :=
  if flags.log2Aligned = true ∧ 2 ^ 31 < pagesSize size then
    if pagesSize size = 2 ^ 32 then
      let gap := Word.gap c.start (if flags.superpageAligned then 22 else 31)
      if flags.log2Alloc then bytes c = 2 ^ 32 ∨ 2 ^ 31 + gap ≤ bytes c
      else bytes c < 2 ^ 32 ∧ gap ≤ bytes c
    else flags.log2Alloc = true ∨ bytes c = 2 ^ 32 ∨ c.start ≠ 0 ∧ pagesSize size ≤ bytes c
  else 2 ^ 32 ≤ need c size flags ∧ need c size flags - 2 ^ 32 ≤ bytes c ∧ bytes c < 2 ^ 32 ∨
    need c size flags < 2 ^ 32 ∧ bytes c = 2 ^ 32

/-! ## The search -/

theorem pagesSize_spec (hpos : 0 < size) (hsize : size < 2 ^ 32) :
    4096 ≤ pagesSize size ∧ pagesSize size ≤ 2 ^ 32 ∧
      Word.roundUp size pageSize = pagesSize size % 2 ^ 32 := by
  have hround : Word.roundUp size (2 ^ 12) = _ := Word.roundUp_two_pow hsize (by decide)
  refine ⟨?_, ?_, hround⟩ <;> unfold pagesSize <;> omega

/-- A block fits if there is room for it behind the gap. -/
theorem exists_block_iff (hc : c.start ≤ c.last) :
    (∃ a, Block c size area flags a) ↔
      c.reg.used = false ∧ c.area = area ∧ need c size flags ≤ bytes c := by
  unfold need bytes
  constructor
  · rintro ⟨a, hfree, harea, hal, hle, hlast⟩
    have := Word.add_gap_le hal hle
    exact ⟨hfree, harea, by omega⟩
  · rintro ⟨hfree, harea, hroom⟩
    exact ⟨c.start + Word.gap c.start (alignExp size flags), hfree, harea, Word.dvd_add_gap _ _,
      by omega, by omega⟩

/-- The test of `__find_free_region`. -/
theorem fits_iff {align : Int} {k n : Nat} (hk : (align % 32).toNat = k) (hc : c.start ≤ c.last)
    (hlast : c.last < 2 ^ 32) :
    fits c.reg (n % 2 ^ 32) area align = true ↔ c.reg.used = false ∧ c.area = area ∧
      (n + Word.gap c.start k) % 2 ^ 32 ≤ bytes c % 2 ^ 32 := by
  have hgap : Word.sub (alignedAddr c.reg align) c.reg.start = Word.gap c.start k := by
    rw [alignedAddr, shl1, hk]
    exact Word.sub_roundUp (a := c.start) (by omega) (by omega)
  have hbytes : Word.add (Word.sub c.reg.last c.reg.start) 1 = bytes c % 2 ^ 32 := by
    have hsub : Word.sub c.reg.last c.reg.start = c.last - c.start := Word.sub_eq hc hlast
    rw [hsub, Word.add_mod]
    rfl
  have hsum : Word.add (n % 2 ^ 32) (Word.gap c.start k) = (n + Word.gap c.start k) % 2 ^ 32 := by
    rw [Word.add_mod]
    exact Nat.mod_add_mod _ _ _
  simp only [fits, hgap, hbytes, hsum, Bool.and_eq_true, Bool.not_eq_true', decide_eq_true_eq]
  exact and_assoc

/-- `l4util_log2` rounded up. -/
theorem log2_up {n : Nat} (hn : 0 < n) (hle : n < 2 ^ 32) :
    (if shl1 (Word.bsr n) < n then Word.bsr n + 1 else Word.bsr n) = (Nat.clog 2 n : Int) := by
  have hlog : n.log2 < 32 := (Nat.log2_lt hn.ne').mpr hle
  have hlow : 2 ^ n.log2 ≤ n := Nat.log2_self_le hn.ne'
  have hhigh : n < 2 ^ (n.log2 + 1) := Nat.lt_log2_self
  have hshl : shl1 (Word.bsr n) = 2 ^ n.log2 := by
    rw [Word.bsr_eq hn.ne', shl1, show ((n.log2 : Int) % 32).toNat = n.log2 by omega]
  rw [hshl, Word.bsr_eq hn.ne']
  have hup : Nat.clog 2 n ≤ n.log2 + 1 := Nat.clog_le_of_le_pow hhigh.le
  split
  · rename_i hlt
    have := (Nat.lt_clog_iff_pow_lt (by decide)).mpr hlt
    omega
  · have hle : n ≤ 2 ^ n.log2 := by omega
    have := Nat.clog_le_of_le_pow hle
    have hge : n.log2 ≤ Nat.clog 2 n := by
      by_contra hgt
      have := Nat.le_pow_clog (b := 2) (by decide) n
      have hpow : 2 ^ Nat.clog 2 n < 2 ^ n.log2 := Nat.pow_lt_pow_right (by decide) (by omega)
      omega
    omega

theorem blockSize_le (flags : RmFlags) (hpos : 0 < size) (hsize : size < 2 ^ 32) :
    pagesSize size ≤ blockSize size flags ∧ blockSize size flags ≤ 2 ^ 32 := by
  obtain ⟨-, hle, -⟩ := pagesSize_spec hpos hsize
  have hclog : 2 ^ Nat.clog 2 (pagesSize size) ≤ 2 ^ 32 :=
    Nat.pow_le_pow_right (by decide) (Nat.clog_le_of_le_pow hle)
  have hpow := Nat.le_pow_clog (b := 2) (by decide) (pagesSize size)
  unfold blockSize
  split <;> omega

/-- The arguments of the search, for an alignment that is a word. -/
theorem findArgs_eq (hpos : 0 < size) (hsize : size < 2 ^ 32)
    (h : ¬(flags.log2Aligned = true ∧ 2 ^ 31 < pagesSize size)) :
    findArgs (pagesSize size % 2 ^ 32) flags =
      (blockSize size flags % 2 ^ 32, (alignExp size flags : Int)) ∧ alignExp size flags < 32 := by
  obtain ⟨hge, hle, -⟩ := pagesSize_spec hpos hsize
  cases hlog : flags.log2Aligned with
  | false =>
    have hexp : alignExp size flags = if flags.superpageAligned then 22 else 12 := by
      rw [alignExp, hlog, if_neg Bool.false_ne_true]
      rfl
    refine ⟨?_, ?_⟩
    · rw [hexp]
      simp only [findArgs, blockSize, hlog, Bool.false_and, Bool.false_eq_true, if_false]
      cases flags.superpageAligned <;> rfl
    · rw [hexp]
      split <;> omega
  | true =>
    have hsmall : pagesSize size ≤ 2 ^ 31 := by
      by_contra hgt
      exact h ⟨hlog, by omega⟩
    have hclog : Nat.clog 2 (pagesSize size) ≤ 31 := Nat.clog_le_of_le_pow hsmall
    have hshl : shl1 (Nat.clog 2 (pagesSize size) : Int) = 2 ^ Nat.clog 2 (pagesSize size) := by
      rw [shl1]
      congr 1
      omega
    have hpow : 2 ^ Nat.clog 2 (pagesSize size) < 2 ^ 32 := Nat.pow_lt_pow_right (by decide) (by omega)
    have hmod : pagesSize size % 2 ^ 32 = pagesSize size := Nat.mod_eq_of_lt (by omega)
    refine ⟨?_, ?_⟩
    · simp only [findArgs, hmod, log2_up (n := pagesSize size) (by omega) (by omega), hshl, blockSize,
        alignExp, hlog, if_true, Bool.true_and]
      refine Prod.ext ?_ ?_
      · dsimp only
        split
        · exact (Nat.mod_eq_of_lt hpow).symm
        · exact hmod.symm
      · dsimp only
        cases flags.superpageAligned with
        | false => rfl
        | true => simp; omega
    · simp only [alignExp, hlog, if_true]
      split <;> omega

theorem clog_large {n : Nat} (h : 2 ^ 31 < n) (h' : n ≤ 2 ^ 32) : Nat.clog 2 n = 32 := by
  have hup := Nat.clog_le_of_le_pow (b := 2) (y := 32) h'
  have := (Nat.lt_clog_iff_pow_lt (b := 2) (by decide)).mpr h
  omega

/-- The arguments of the search for a block of more than `2 ^ 31` bytes at a multiple of its size. -/
theorem findArgs_large (hlog : flags.log2Aligned = true) (hR : 2 ^ 31 < pagesSize size)
    (hlt : pagesSize size < 2 ^ 32) :
    findArgs (pagesSize size % 2 ^ 32) flags =
      (if flags.log2Alloc then 1 else pagesSize size, (32 : Int)) := by
  have hclog := clog_large hR hlt.le
  have hmod : pagesSize size % 2 ^ 32 = pagesSize size := Nat.mod_eq_of_lt hlt
  simp only [findArgs, hmod, log2_up (n := pagesSize size) (by omega) hlt, hclog, hlog, if_true,
    Bool.true_and]
  cases flags.superpageAligned <;> rfl

theorem findArgs_zero (hlog : flags.log2Aligned = true) :
    findArgs 0 flags = (if flags.log2Alloc then 2 ^ 31 else 0,
      if flags.superpageAligned then 22 else (-1 : Int)) := by
  simp only [findArgs, hlog, if_true, Bool.true_and]
  cases flags.superpageAligned <;> cases flags.log2Alloc <;> decide +kernel

/-- The test of `l4rm_new_region` for a region. -/
def fitsArgs (c : Cell) (size area : Nat) (flags : RmFlags) : Bool :=
  let (size, align) := findArgs (Word.roundUp size pageSize) flags
  fits c.reg size area align

theorem fitsArgs_free (h : fitsArgs c size area flags = true) :
    c.reg.used = false ∧ c.area = area := by
  simp only [fitsArgs, fits, Bool.and_eq_true, Bool.not_eq_true', decide_eq_true_eq] at h
  exact h.1

theorem alignExp_large (hlog : flags.log2Aligned = true) (hR : 2 ^ 31 < pagesSize size)
    (hle : pagesSize size ≤ 2 ^ 32) : Nat.clog 2 (pagesSize size) = 32 ∧ alignExp size flags = 32 := by
  have hclog := clog_large hR hle
  refine ⟨hclog, ?_⟩
  rw [alignExp, hlog, if_pos rfl, hclog]
  split <;> rfl

/-- A region is not misjudged if the test is the right one. -/
theorem fitsArgs_iff (hpos : 0 < size) (hsize : size < 2 ^ 32) (hc : c.start ≤ c.last)
    (hlast : c.last < 2 ^ 32) (hfree : c.reg.used = false) (harea : c.area = area) :
    (fitsArgs c size area flags = true ↔ need c size flags ≤ bytes c) ↔ ¬Misjudged c size flags := by
  obtain ⟨hge, hle, hround⟩ := pagesSize_spec hpos hsize
  have hbytes : bytes c = c.last - c.start + 1 := rfl
  have htest {align : Int} {k : Nat} (n : Nat) (hk : (align % 32).toNat = k) :
      fits c.reg (n % 2 ^ 32) area align = true ↔
        (n + Word.gap c.start k) % 2 ^ 32 ≤ bytes c % 2 ^ 32 :=
    (fits_iff hk hc hlast).trans ((and_iff_right hfree).trans (and_iff_right harea))
  rw [fitsArgs, hround, Misjudged]
  by_cases hlarge : flags.log2Aligned = true ∧ 2 ^ 31 < pagesSize size
  · rw [if_pos hlarge]
    obtain ⟨hlog, hR⟩ := hlarge
    obtain ⟨hclog, hexp⟩ := alignExp_large hlog hR hle
    have hblock : blockSize size flags = if flags.log2Alloc then 2 ^ 32 else pagesSize size := by
      rw [blockSize, hlog, hclog, Bool.true_and]
    have hgap : Word.gap c.start 32 = if c.start = 0 then 0 else 2 ^ 32 - c.start := by
      unfold Word.gap
      split <;> omega
    rw [need, hexp, hblock, hgap]
    by_cases hfull : pagesSize size = 2 ^ 32
    · rw [if_pos hfull, hfull, Nat.mod_self, findArgs_zero hlog]
      -- the search is for a block with the alignment of a superpage or of `2 ^ 31`
      have hk : ((if flags.superpageAligned then 22 else (-1 : Int)) % 32).toNat =
          if flags.superpageAligned then 22 else 31 := by
        cases flags.superpageAligned <;> rfl
      have hlt := Word.gap_lt c.start (if flags.superpageAligned then 22 else 31)
      have hbound : 2 ^ (if flags.superpageAligned then 22 else 31) ≤ 2 ^ 31 := by
        cases flags.superpageAligned <;> decide
      have hzero : c.start = 0 → Word.gap c.start (if flags.superpageAligned then 22 else 31) = 0 := by
        rintro h
        rw [h, Word.gap, Nat.zero_mod, Nat.sub_zero, Nat.mod_self]
      have hwrap : c.start + Word.gap c.start (if flags.superpageAligned then 22 else 31) ≤ 2 ^ 32 :=
        Word.add_gap_le (Nat.pow_dvd_pow 2 (by cases flags.superpageAligned <;> decide)) (by omega)
      have hfits (n : Nat) := htest n hk
      generalize Word.gap c.start (if flags.superpageAligned then 22 else 31) = gap at *
      cases flags.log2Alloc with
      | true =>
        have := hfits (2 ^ 31)
        rw [Nat.mod_eq_of_lt (by decide)] at this
        simp only [if_true, this]
        split <;> omega
      | false =>
        have := hfits 0
        rw [Nat.zero_mod] at this
        simp only [Bool.false_eq_true, if_false, this]
        split <;> omega
    · rw [if_neg hfull, findArgs_large hlog hR (by omega)]
      have hgap0 : Word.gap c.start 0 = 0 := Nat.lt_one_iff.mp (Word.gap_lt c.start 0)
      have hfits := htest (if flags.log2Alloc then 1 else pagesSize size) (show ((32 : Int) % 32).toNat = 0 from rfl)
      rw [hgap0, Nat.add_zero, Nat.mod_eq_of_lt (by split <;> omega)] at hfits
      rw [hfits]
      clear hfits hblock
      cases flags.log2Alloc with
      | true =>
        simp only [if_true, true_or, not_true_eq_false, iff_false]
        split <;> omega
      | false =>
        simp only [Bool.false_eq_true, if_false, false_or]
        split <;> omega
  · rw [if_neg hlarge]
    obtain ⟨hargs, hexp⟩ := findArgs_eq hpos hsize hlarge
    have hmod : ((alignExp size flags : Int) % 32).toNat = alignExp size flags := by omega
    have hfits := htest (blockSize size flags) hmod
    have hblock := blockSize_le flags hpos hsize
    have hneed : 0 < need c size flags ∧ need c size flags < 2 ^ 33 := by
      have hgap := Word.gap_lt c.start (alignExp size flags)
      have hpow : 2 ^ alignExp size flags ≤ 2 ^ 31 := Nat.pow_le_pow_right (by decide) (by omega)
      rw [need]
      omega
    have hsum : blockSize size flags + Word.gap c.start (alignExp size flags) = need c size flags := rfl
    rw [hsum] at hfits
    rw [hargs]
    dsimp only
    rw [hfits]
    constructor <;> intro h <;> omega

/-! ## The first region with room -/

/-- The region is free, in the area, and has room for a block. -/
def room (c : Cell) (size area : Nat) (flags : RmFlags) : Bool :=
  !c.reg.used && decide (c.area = area ∧ need c size flags ≤ bytes c)

theorem room_iff : room c size area flags = true ↔
    c.reg.used = false ∧ c.area = area ∧ need c size flags ≤ bytes c := by
  simp [room]

theorem room_iff_block (hc : c.start ≤ c.last) :
    room c size area flags = true ↔ ∃ a, Block c size area flags a :=
  room_iff.trans (exists_block_iff hc).symm

theorem alignedAddr_eq {align : Int} (hc : c.start < 2 ^ 32) :
    alignedAddr c.reg align = (c.start + Word.gap c.start (align % 32).toNat) % 2 ^ 32 :=
  Word.roundUp_gap (a := c.start) hc (by omega)

/-- In a region with room the search computes the first block. -/
theorem args_of_room (hpos : 0 < size) (hsize : size < 2 ^ 32) (hc : c.start ≤ c.last)
    (hlast : c.last < 2 ^ 32) (hfits : fitsArgs c size area flags = true)
    (hroom : room c size area flags = true) :
    (findArgs (Word.roundUp size pageSize) flags).1 = blockSize size flags % 2 ^ 32 ∧
      alignedAddr c.reg (findArgs (Word.roundUp size pageSize) flags).2 =
        c.start + Word.gap c.start (alignExp size flags) := by
  obtain ⟨hge, hle, hround⟩ := pagesSize_spec hpos hsize
  obtain ⟨hfree, harea, hneed⟩ := room_iff.mp hroom
  have hblock := blockSize_le flags hpos hsize
  have hbytes : bytes c = c.last - c.start + 1 := rfl
  have hright := ((fitsArgs_iff hpos hsize hc hlast hfree harea).mp
    (iff_of_true hfits hneed))
  rw [Misjudged] at hright
  rw [need] at hneed
  rw [alignedAddr_eq (by omega), hround]
  by_cases hlarge : flags.log2Aligned = true ∧ 2 ^ 31 < pagesSize size
  · rw [if_pos hlarge] at hright
    obtain ⟨hlog, hR⟩ := hlarge
    obtain ⟨hclog, hexp⟩ := alignExp_large hlog hR hle
    have hstart : c.start = 0 := by
      rw [hexp, Word.gap] at hneed
      omega
    have hzero (k : Nat) : Word.gap 0 k = 0 := by
      rw [Word.gap, Nat.zero_mod, Nat.sub_zero, Nat.mod_self]
    have halloc : flags.log2Alloc = false := by
      cases halloc : flags.log2Alloc with
      | false => rfl
      | true =>
        have hfull : blockSize size flags = 2 ^ 32 := by
          rw [blockSize, hlog, halloc, hclog]
          rfl
        rw [halloc] at hright
        simp only [if_true] at hright
        split at hright
        · exact absurd (.inl (by omega)) hright
        · exact absurd (.inl trivial) hright
    have hblock : blockSize size flags = pagesSize size := by
      rw [blockSize, halloc, Bool.and_false]
      rfl
    rw [hstart, hzero, hzero, hblock]
    refine ⟨?_, rfl⟩
    by_cases hfull : pagesSize size = 2 ^ 32
    · rw [hfull, Nat.mod_self, findArgs_zero hlog, halloc]
      rfl
    · rw [findArgs_large hlog hR (by omega), halloc]
      show pagesSize size = _
      exact (Nat.mod_eq_of_lt (by omega)).symm
  · obtain ⟨hargs, hexp⟩ := findArgs_eq hpos hsize hlarge
    rw [hargs]
    dsimp only
    rw [show ((alignExp size flags : Int) % 32).toNat = alignExp size flags by omega]
    exact ⟨rfl, Nat.mod_eq_of_lt (by omega)⟩

/-- Two searches in a list agree if they agree on the elements behind those that one of them passes. -/
theorem find?_eq_find?_iff {α : Type} {p q : α → Bool} {l : List α} :
    l.find? p = l.find? q ↔ ∀ l₁ c l₂, l = l₁ ++ c :: l₂ → (∀ d ∈ l₁, q d = false) → p c = q c := by
  induction l with
  | nil => simp
  | cons a l ih =>
    cases hp : p a <;> cases hq : q a
    · rw [List.find?_cons_of_neg (by simp [hp]), List.find?_cons_of_neg (by simp [hq]), ih]
      constructor
      · intro h l₁ c l₂ heq hl
        cases l₁ with
        | nil =>
          cases heq
          rw [hp, hq]
        | cons b l₁ =>
          cases heq
          exact h l₁ c l₂ rfl fun d hd => hl d (List.mem_cons_of_mem _ hd)
      · intro h l₁ c l₂ heq hl
        refine h (a :: l₁) c l₂ (by rw [heq]; rfl) fun d hd => ?_
        rcases List.mem_cons.mp hd with rfl | hd
        · exact hq
        · exact hl d hd
    · rw [List.find?_cons_of_neg (by simp [hp]), List.find?_cons_of_pos hq]
      refine iff_of_false (fun h => ?_) fun h => ?_
      · rw [List.find?_some h] at hp
        cases hp
      · have := h [] a l rfl nofun
        rw [hp, hq] at this
        cases this
    · rw [List.find?_cons_of_pos hp, List.find?_cons_of_neg (by simp [hq])]
      refine iff_of_false (fun h => ?_) fun h => ?_
      · rw [List.find?_some h.symm] at hq
        cases hq
      · have := h [] a l rfl nofun
        rw [hp, hq] at this
        cases this
    · rw [List.find?_cons_of_pos hp, List.find?_cons_of_pos hq]
      refine iff_of_true rfl fun l₁ c l₂ heq hl => ?_
      cases l₁ with
      | nil =>
        cases heq
        rw [hp, hq]
      | cons b l₁ =>
        cases heq
        rw [hl a List.mem_cons_self] at hq
        cases hq

/-- The answer of the search: the first region with a block, if there is one, and a block in it. -/
def Placed (l : List Cell) (size area : Nat) (flags : RmFlags) :
    Except RmRet (Ptr × Nat × Nat) → Prop
  | .error _ => ∀ c ∈ l, ¬∃ a, Block c size area flags a
  | .ok (rp, a, size') => ∃ l₁ c l₂, l = l₁ ++ c :: l₂ ∧ c.ptr = rp ∧ Block c size area flags a ∧
    Word.sub (Word.add a size') 1 + 1 = a + blockSize size flags ∧
    ∀ d ∈ l₁, ¬∃ b, Block d size area flags b

theorem place_find (S : s.Shows l) : s.place addrFind size area flags =
    .ok (match l.find? fun c => fitsArgs c size area flags with
      | none => .error .enomap
      | some c => .ok (c.ptr, alignedAddr c.reg (findArgs (Word.roundUp size pageSize) flags).2,
        (findArgs (Word.roundUp size pageSize) flags).1)) := by
  have hscan := S.scan_eq fun r => fits r (findArgs (Word.roundUp size pageSize) flags).1 area
    (findArgs (Word.roundUp size pageSize) flags).2
  simp only [place, if_true, findFreeRegion, hscan]
  cases hfind : l.find? fun c => fitsArgs c size area flags with
  | none =>
    have hfind : (l.find? fun c => fits c.reg (findArgs (Word.roundUp size pageSize) flags).1 area
      (findArgs (Word.roundUp size pageSize) flags).2) = none := hfind
    rw [hfind]
    rfl
  | some c =>
    have hreg := S.region c (List.mem_of_find?_eq_some hfind)
    have hfind : (l.find? fun c => fits c.reg (findArgs (Word.roundUp size pageSize) flags).1 area
      (findArgs (Word.roundUp size pageSize) flags).2) = some c := hfind
    rw [hfind]
    simp only [Option.map_some, hreg]
    rfl

/-- The search is right if it finds the first region with room. -/
theorem placed_iff (hpos : 0 < size) (hsize : size < 2 ^ 32) (S : s.Shows l)
    (hc : ∀ c ∈ l, c.start ≤ c.last ∧ c.last < 2 ^ 32) :
    Placed l size area flags (match l.find? fun c => fitsArgs c size area flags with
      | none => .error .enomap
      | some c => .ok (c.ptr, alignedAddr c.reg (findArgs (Word.roundUp size pageSize) flags).2,
        (findArgs (Word.roundUp size pageSize) flags).1)) ↔
      (l.find? fun c => fitsArgs c size area flags) = l.find? fun c => room c size area flags := by
  have hnot {c : Cell} (hm : c ∈ l) : room c size area flags = false ↔
      ¬∃ a, Block c size area flags a := by
    rw [← room_iff_block (hc c hm).1, Bool.not_eq_true]
  cases hfind : l.find? fun c => fitsArgs c size area flags with
  | none =>
    rw [eq_comm, List.find?_eq_none]
    exact forall₂_congr fun c hm => by rw [← hnot hm, Bool.not_eq_true]
  | some c =>
    have hm := List.mem_of_find?_eq_some hfind
    have hfits := List.find?_some hfind
    obtain ⟨hle, hlast⟩ := hc c hm
    rw [eq_comm, List.find?_eq_some_iff_append]
    constructor
    · rintro ⟨l₁, d, l₂, rfl, hptr, hblock, -, hbefore⟩
      have hd : d = c := List.inj_on_of_nodup_map S.nodup (by simp) hm hptr
      rw [← hd]
      refine ⟨(room_iff_block (hc d (by simp)).1).mpr ⟨_, hblock⟩, l₁, l₂, rfl, fun e he => ?_⟩
      rw [(hnot (by simp [he])).mpr (hbefore e he)]
      rfl
    · rintro ⟨hroom, l₁, l₂, rfl, hbefore⟩
      obtain ⟨hargs, haddr⟩ := args_of_room hpos hsize hle hlast hfits hroom
      obtain ⟨hfree, harea, hneed⟩ := room_iff.mp hroom
      have hb := blockSize_le flags hpos hsize
      have hge := (pagesSize_spec hpos hsize).1
      unfold need bytes at hneed
      refine ⟨l₁, c, l₂, rfl, rfl, ⟨hfree, harea, ?_, ?_, ?_⟩, ?_, fun d hd => ?_⟩
      · rw [haddr]
        exact Word.dvd_add_gap _ _
      · omega
      · omega
      · rw [hargs, haddr]
        unfold Word.sub Word.add
        omega
      · have := hbefore d hd
        rw [Bool.not_eq_true'] at this
        exact (hnot (by simp [hd])).mp this

/-! ## A given address -/

/-- The page of a given address, with the rounded size, lies in a free region of the area. -/
def Inside (c : Cell) (addr size area : Nat) : Prop :=
  c.reg.used = false ∧ c.area = area ∧ c.start ≤ addr / 4096 * 4096 ∧
    addr / 4096 * 4096 + pagesSize size ≤ c.last + 1

instance : Decidable (Inside c addr size area) := inferInstanceAs (Decidable (_ ∧ _ ∧ _ ∧ _))

/-- `__find_region` errs if the range goes beyond 4 GiB, and if it ends with the address space. -/
theorem findRegion'_iff (addr area : Nat) (hpos : 0 < size) (hsize : size < 2 ^ 32) (S : s.Shows l)
    (ht : Tiles Cell.start Cell.last s.vmStart l (s.vmEnd + 1))
    (hend : s.vmEnd < 2 ^ 32) :
    ∃ r, s.findRegion' (addr / 4096 * 4096) (pagesSize size % 2 ^ 32) area = .ok r ∧
      (((∃ rp, r = .ok rp) ↔ ∃ c ∈ l, Inside c addr size area) ↔
        ∀ c ∈ l, c.reg.used = false → c.area = area → c.start ≤ addr / 4096 * 4096 →
          addr / 4096 * 4096 ≤ c.last → addr / 4096 * 4096 + pagesSize size ≤ 2 ^ 32 ∧
            (c.last = s.vmEnd → addr / 4096 * 4096 + pagesSize size = s.vmEnd + 1 →
              s.vmEnd + 1 = 2 ^ 32)) := by
  obtain ⟨hge, hle, -⟩ := pagesSize_spec hpos hsize
  have hbounds {c : Cell} (hc : c ∈ l) := ht.bounds hc
  unfold Inside
  generalize addr / 4096 * 4096 = A at *
  generalize pagesSize size = R at *
  have hadd : Word.add A (R % 2 ^ 32) = (A + R) % 2 ^ 32 := by
    rw [Word.add_mod]
    exact Nat.add_mod_mod _ _ _
  have herr (e : RmRet) : (∃ rp : Ptr, Except.error e = .ok rp) ↔ False :=
    iff_false_intro fun ⟨_, h⟩ => nomatch h
  rw [findRegion', hadd]
  by_cases hout : A < s.vmStart ∨ s.vmEnd < A ∨ s.vmEnd < (A + R) % 2 ^ 32
  · rw [if_pos hout]
    refine ⟨_, rfl, ?_⟩
    rw [herr, false_iff]
    constructor
    · intro hnone c hc hfree harea hs hl
      have hb := hbounds hc
      have hword : A + R ≤ 2 ^ 32 := by omega
      exact ⟨hword, fun hlast hend => absurd ⟨c, hc, hfree, harea, hs, by omega⟩ hnone⟩
    · rintro hcond ⟨c, hc, hfree, harea, hs, hl⟩
      have hb := hbounds hc
      obtain ⟨-, hend⟩ := hcond c hc hfree harea hs (by omega)
      omega
  · rw [if_neg hout]
    push Not at hout
    obtain ⟨c, hc, hwalk, hs, hl⟩ := S.walk ht hout.1 (Nat.lt_succ_of_le hout.2.1)
    have hsame {d : Cell} (hd : d ∈ l) (h1 : d.start ≤ A) (h2 : A ≤ d.last) : d = c :=
      ht.unique hd hc h1 h2 hs hl
    have hb := hbounds hc
    have hbyte : (A + R) % 2 ^ 32 = 0 ∧ Word.sub ((A + R) % 2 ^ 32) 1 = 2 ^ 32 - 1 ∨
        (A + R) % 2 ^ 32 ≠ 0 ∧ Word.sub ((A + R) % 2 ^ 32) 1 = (A + R) % 2 ^ 32 - 1 := by
      by_cases h0 : (A + R) % 2 ^ 32 = 0
      · exact .inl ⟨h0, by rw [h0]; exact Word.sub_zero_left (by decide) (by decide)⟩
      · exact .inr ⟨h0, Word.sub_eq (by omega) (Nat.mod_lt _ (by decide))⟩
    simp only [hwalk, S.region c hc, ok_bind]
    generalize Word.sub ((A + R) % 2 ^ 32) 1 = byte at hbyte ⊢
    by_cases hused : c.reg.used = true ∨ c.reg.flags.area ≠ area ∨ c.reg.last < byte
    · rw [if_pos hused]
      refine ⟨_, rfl, ?_⟩
      rw [herr, false_iff]
      have hshort (hfree : c.reg.used = false) (harea : c.area = area) : c.last < byte := by
        rcases hused with hused | hused | hused
        · exact absurd (hfree.symm.trans hused) Bool.false_ne_true
        · exact absurd harea hused
        · exact hused
      constructor
      · intro _ d hd hfree harea h1 h2
        obtain rfl := hsame hd h1 h2
        have := hshort hfree harea
        omega
      · rintro _ ⟨d, hd, hfree, harea, h1, h2⟩
        obtain rfl := hsame hd h1 (by omega)
        have := hshort hfree harea
        omega
    · rw [if_neg hused]
      refine ⟨_, rfl, ?_⟩
      rw [iff_true_left (show ∃ rp, Except.ok c.ptr = (.ok rp : Except RmRet Ptr) from ⟨c.ptr, rfl⟩)]
      push Not at hused
      obtain ⟨hfree, harea, hlast⟩ := hused
      have hlast : byte ≤ c.last := hlast
      constructor
      · rintro ⟨d, hd, -, -, h1, h2⟩ e he - - he1 he2
        obtain rfl := hsame hd h1 (by omega)
        obtain rfl := hsame he he1 he2
        exact ⟨by omega, fun _ _ => by omega⟩
      · intro hcond
        obtain ⟨hword, -⟩ := hcond c hc (Bool.eq_false_of_not_eq_true hfree) harea hs hl
        exact ⟨c, hc, Bool.eq_false_of_not_eq_true hfree, harea, hs, by omega⟩

/-! ## The placement of a region -/

/-- The answer of `l4rm_new_region`'s search is the right one. -/
def PlacedRight (l : List Cell) (addr size area : Nat) (flags : RmFlags)
    (r : Except RmRet (Ptr × Nat × Nat)) : Prop :=
  if addr = addrFind then Placed l size area flags r
  else (∃ x, r = .ok x) ↔ ∃ c ∈ l, Inside c addr size area

/-- A search does not come to a region that it misjudges, before it comes to one with room. A given
range does not go beyond 4 GiB, and does not end with an address space that is smaller, if it begins in a
free region of the area. -/
def Regular (s : Rm) (l : List Cell) (addr size area : Nat) (flags : RmFlags) : Prop :=
  if addr = addrFind then
    ∀ l₁ c l₂, l = l₁ ++ c :: l₂ → (∀ d ∈ l₁, ¬∃ a, Block d size area flags a) →
      c.reg.used = false → c.area = area → ¬Misjudged c size flags
  else
    ∀ c ∈ l, c.reg.used = false → c.area = area → c.start ≤ addr / 4096 * 4096 →
      addr / 4096 * 4096 ≤ c.last → addr / 4096 * 4096 + pagesSize size ≤ 2 ^ 32 ∧
        (c.last = s.vmEnd → addr / 4096 * 4096 + pagesSize size = s.vmEnd + 1 → s.vmEnd + 1 = 2 ^ 32)

/-- A region is placed right in exactly the regular cases. -/
theorem place_right (S : s.Shows l) (ht : Tiles Cell.start Cell.last s.vmStart l (s.vmEnd + 1))
    (hend : s.vmEnd < 2 ^ 32) (haddr : addr < 2 ^ 32) (hpos : 0 < size) (hsize : size < 2 ^ 32) :
    (∃ r, s.place addr size area flags = .ok r ∧ PlacedRight l addr size area flags r) ↔
      s.Regular l addr size area flags := by
  have hc : ∀ c ∈ l, c.start ≤ c.last ∧ c.last < 2 ^ 32 := fun c hc => by
    have := ht.bounds hc
    omega
  unfold PlacedRight Regular
  by_cases hfind : addr = addrFind
  · simp only [if_pos hfind]
    rw [hfind, place_find S]
    have hrun {x : Except RmRet (Ptr × Nat × Nat)} : (∃ r, (Except.ok x : Except Fault _) = .ok r ∧
        Placed l size area flags r) ↔ Placed l size area flags x := by
      simp only [Except.ok.injEq, exists_eq_left']
    rw [hrun, placed_iff hpos hsize S hc, find?_eq_find?_iff]
    refine forall₃_congr fun l₁ c l₂ => forall_congr' fun heq => ?_
    have hm : c ∈ l := by simp [heq]
    have hbefore : (∀ d ∈ l₁, room d size area flags = false) ↔
        ∀ d ∈ l₁, ¬∃ a, Block d size area flags a :=
      forall₂_congr fun d hd => by
        rw [← room_iff_block (hc d (by simp [heq, hd])).1, Bool.not_eq_true]
    rw [hbefore]
    refine forall_congr' fun _ => ?_
    by_cases hin : c.reg.used = false ∧ c.area = area
    · obtain ⟨hfree, harea⟩ := hin
      rw [Bool.eq_iff_iff, room_iff, forall_prop_of_true hfree, forall_prop_of_true harea,
        ← fitsArgs_iff hpos hsize (hc c hm).1 (hc c hm).2 hfree harea]
      simp only [hfree, harea, true_and]
    · refine iff_of_true ?_ fun hfree harea => absurd ⟨hfree, harea⟩ hin
      have hfits : fitsArgs c size area flags = false :=
        Bool.eq_false_of_not_eq_true fun h => hin (fitsArgs_free h)
      have hroom : room c size area flags = false :=
        Bool.eq_false_of_not_eq_true fun h => hin ⟨(room_iff.mp h).1, (room_iff.mp h).2.1⟩
      rw [hfits, hroom]
  · simp only [if_neg hfind]
    have hA : Word.roundDown addr pageSize = addr / 4096 * 4096 :=
      Word.roundDown_two_pow (k := 12) haddr (by decide)
    obtain ⟨-, -, hR⟩ := pagesSize_spec hpos hsize
    obtain ⟨r, hrun, hiff⟩ := findRegion'_iff addr area hpos hsize S ht hend
    rw [← hiff]
    have hplace : s.place addr size area flags =
        .ok (r.map fun rp => (rp, addr / 4096 * 4096, pagesSize size % 2 ^ 32)) := by
      simp only [place, if_neg hfind, hA, hR, hrun]
      cases r <;> rfl
    have hok : (∃ x, (r.map fun rp => (rp, addr / 4096 * 4096, pagesSize size % 2 ^ 32)) = .ok x) ↔
        ∃ rp, r = .ok rp := by
      cases r with
      | error e => simp [Except.map]
      | ok rp => exact ⟨fun _ => ⟨rp, rfl⟩, fun _ => ⟨_, rfl⟩⟩
    rw [hplace, ← hok]
    simp only [Except.ok.injEq, exists_eq_left']

/-- The cell of the address space at the start. -/
def smallCell : Cell := ⟨1, ⟨4096, 3221225471, {}, .none⟩⟩

theorem smallVm_shows : smallVm.Shows [smallCell] :=
  (init_inv (by decide) (by decide) (by decide)).shows

theorem place_right_page :
    ∃ r, smallVm.place 8192 4096 0 {} = .ok r ∧ PlacedRight [smallCell] 8192 4096 0 {} r := by
  refine (place_right smallVm_shows ⟨rfl, by decide, rfl⟩ (by decide) (by decide) (by decide)
    (by decide)).mpr ?_
  rw [Regular, if_neg (by decide)]
  intro c hc _ _ _ _
  rw [List.mem_singleton.mp hc]
  decide

/-- The last page of the address space is refused. A range that goes beyond 4 GiB is accepted. A block of
more than 2 GiB at a multiple of its size is found at the start of the first region. -/
theorem place_wrong :
    (∃ r, smallVm.place 0xBFFFF000 0x1000 0 {} = .ok r ∧
      ¬PlacedRight [smallCell] 0xBFFFF000 0x1000 0 {} r) ∧
    (∃ r, smallVm.place 0x50000000 0xB1000000 0 {} = .ok r ∧
      ¬PlacedRight [smallCell] 0x50000000 0xB1000000 0 {} r) ∧
    ∃ r, smallVm.place addrFind 0x80000001 0 { log2Aligned := true } = .ok r ∧
      ¬PlacedRight [smallCell] addrFind 0x80000001 0 { log2Aligned := true } r := by
  refine ⟨⟨.error .einval, by decide +kernel, ?_⟩,
    ⟨.ok (1, 0x50000000, 0xB1000000), by decide +kernel, ?_⟩,
    ⟨.ok (1, 4096, 0x80001000), by decide +kernel, ?_⟩⟩
  · rw [PlacedRight, if_neg (by decide)]
    intro h
    obtain ⟨x, hx⟩ := h.mpr ⟨smallCell, List.mem_singleton.mpr rfl, by decide⟩
    cases hx
  · rw [PlacedRight, if_neg (by decide)]
    intro h
    obtain ⟨c, hc, hin⟩ := h.mp ⟨_, rfl⟩
    rw [List.mem_singleton.mp hc] at hin
    exact absurd hin (by decide)
  · rw [PlacedRight, if_pos rfl]
    intro h
    obtain ⟨_, _, _, _, _, hblock, _⟩ := h
    exact absurd hblock.aligned (by decide +kernel)

end L4env.L4rm.Rm
