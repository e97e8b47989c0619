import L4env.DMphys.Map
import L4env.DMphys.MemMapRun
import L4env.Util.BitScan
import L4env.Util.Meets

/-!
# DMphys: flexpages lie in their page area

What `__build_map_fpage` is called with is a `MapRequest`; `Fits` says that a flexpage is one that may
be mapped: it is a part of the page area, and the page that was asked for appears at the receive offset.
The search for the largest flexpage (`L4DM_MAP_MORE`) takes the page itself for a possible end of the
flexpage. The checks of the paranoia mode stop this, but not at the end of the address space, where the
end of the flexpage is the word `0`.
-/

namespace L4env.DMphys

/-- An offset in a page area and in a receive window. -/
structure MapRequest where
  areaStart : Nat
  areaSize : Nat
  offset : Nat
  rcvSize2 : Nat
  rcvOffs : Nat
  start_page : pageSize ∣ areaStart
  size_page : pageSize ∣ areaSize
  size_word : areaSize < 4294967296
  area_word : areaStart + areaSize ≤ 4294967296
  offset_page : pageSize ∣ offset
  offset_lt : offset < areaSize
  low_rcvSize2 : 12 ≤ rcvSize2
  rcvSize2_le : rcvSize2 ≤ 32
  rcvOffs_page : pageSize ∣ rcvOffs
  rcvOffs_lt : rcvOffs < 2 ^ rcvSize2

namespace MapRequest

/-- The address of the page. -/
def addr (r : MapRequest) : Nat := r.areaStart + r.offset

def areaEnd (r : MapRequest) : Nat := r.areaStart + r.areaSize

/-- A flexpage of size `2 ^ k` that may be mapped for the request. The kernel maps it at a multiple of
its size, the send base. -/
structure Fits (r : MapRequest) (f : SndFpage) (k : Nat) : Prop where
  size : f.fpage.size2 = k
  aligned : 2 ^ k ∣ f.fpage.addr
  low : r.areaStart ≤ f.fpage.addr
  high : f.fpage.addr + 2 ^ k ≤ r.areaEnd
  page_low : f.fpage.addr ≤ r.addr
  page_high : r.addr + pageSize ≤ f.fpage.addr + 2 ^ k
  base : 2 ^ k ∣ f.sndBase
  placed : f.sndBase + (r.addr - f.fpage.addr) = r.rcvOffs
  window : f.sndBase + 2 ^ k ≤ 2 ^ r.rcvSize2

/-- `__build_map_fpage` for a request. -/
def build (r : MapRequest) (m : MemMap) (size2 : Int) (flags : Nat) :
    Except Panic (Except Err SndFpage) :=
  buildMapFpage m r.areaStart r.areaSize r.offset size2 r.rcvSize2 r.rcvOffs flags

/-- The flexpage found reaches from the page to the end of the address space, the area does not. -/
def Overhangs (r : MapRequest) (size2 : Int) (flags : Nat) : Prop :=
  mapMore flags = true ∧ r.areaEnd < 4294967296 ∧
    ∃ k < 31, r.addr + 2 ^ k = 4294967296 ∧ r.addr < r.areaStart + 2 ^ k ∧ 2 ^ k ∣ r.rcvOffs ∧
      k ≤ r.rcvSize2 ∧ (size2 ≤ k ∨ mapPartial flags = true)

section
variable {r : MapRequest} {f : SndFpage} {k : Nat}

theorem addr_lt (r : MapRequest) : r.addr < r.areaEnd := Nat.add_lt_add_left r.offset_lt _

theorem areaEnd_le (r : MapRequest) : r.areaEnd ≤ 4294967296 := r.area_word

theorem addr_word (r : MapRequest) : r.addr < 4294967296 := r.addr_lt.trans_le r.areaEnd_le

theorem rcvOffs_word (r : MapRequest) : r.rcvOffs < 4294967296 :=
  r.rcvOffs_lt.trans_le (Nat.pow_le_pow_right (by decide) r.rcvSize2_le)

theorem add_offset (r : MapRequest) : Word.add r.areaStart r.offset = r.addr :=
  Word.add_eq r.addr_word

theorem addr_page (r : MapRequest) : pageSize ∣ r.addr := Nat.dvd_add r.start_page r.offset_page

theorem areaEnd_page (r : MapRequest) : pageSize ∣ r.areaEnd := Nat.dvd_add r.start_page r.size_page

/-! ## Blocks -/

/-- The start of the block of size `2 ^ k` with the page. -/
def block (r : MapRequest) (k : Nat) : Nat := r.addr / 2 ^ k * 2 ^ k

theorem block_le (r : MapRequest) (k : Nat) : r.block k ≤ r.addr := Nat.div_mul_le_self _ _

theorem lt_block_add (r : MapRequest) (k : Nat) : r.addr < r.block k + 2 ^ k :=
  Nat.lt_div_mul_add (Nat.two_pow_pos k)

theorem dvd_block (r : MapRequest) (k : Nat) : 2 ^ k ∣ r.block k := Nat.dvd_mul_left _ _

theorem block_eq {a : Nat} (ha : 2 ^ k ∣ a) (hlow : a ≤ r.addr) (hhigh : r.addr < a + 2 ^ k) :
    r.block k = a := by
  obtain ⟨c, rfl⟩ := ha
  have hc : r.addr / 2 ^ k = c :=
    Nat.div_eq_of_lt_le (by rw [Nat.mul_comm]; exact hlow)
      (by rw [Nat.add_mul, Nat.one_mul, Nat.mul_comm]; exact hhigh)
  rw [block, hc, Nat.mul_comm]

theorem block_mono {i j : Nat} (hij : i ≤ j) :
    r.block j ≤ r.block i ∧ r.block i + 2 ^ i ≤ r.block j + 2 ^ j := by
  obtain ⟨c, hc⟩ := Nat.pow_dvd_pow 2 hij
  obtain ⟨b, hb⟩ := r.dvd_block j
  have hpos : 0 < 2 ^ i := Nat.two_pow_pos i
  have h₁ := r.block_le j
  have h₂ := r.lt_block_add j
  rw [hb, hc, Nat.mul_assoc] at h₁ h₂
  have hlow : c * b ≤ r.addr / 2 ^ i := by
    rw [Nat.le_div_iff_mul_le hpos, Nat.mul_comm]
    exact h₁
  have hhigh : r.addr / 2 ^ i + 1 ≤ c * b + c := by
    rw [Nat.succ_le_iff, Nat.div_lt_iff_lt_mul hpos, Nat.mul_comm, Nat.mul_add]
    exact h₂
  constructor
  · rw [hb, hc, Nat.mul_assoc, block, Nat.mul_comm (2 ^ i)]
    exact Nat.mul_le_mul_right _ hlow
  · calc r.block i + 2 ^ i = (r.addr / 2 ^ i + 1) * 2 ^ i := by rw [block, Nat.add_mul, Nat.one_mul]
      _ ≤ (c * b + c) * 2 ^ i := Nat.mul_le_mul_right _ hhigh
      _ = r.block j + 2 ^ j := by rw [hb, hc]; ring

/-- The block and the receive window allow a flexpage of size `2 ^ k`. -/
def Common (r : MapRequest) (k : Nat) : Prop :=
  r.addr % 2 ^ k = r.rcvOffs % 2 ^ k ∧ k ≤ r.rcvSize2

theorem Fits.block (h : r.Fits f k) :
    r.Common k ∧ r.areaStart ≤ r.block k ∧ r.block k + 2 ^ k ≤ r.areaEnd := by
  have hpage : 0 < pageSize := by decide
  have hblock : r.block k = f.fpage.addr :=
    block_eq h.aligned h.page_low (by have := h.page_high; omega)
  have hmod : r.addr % 2 ^ k = r.addr - f.fpage.addr := by
    have := Nat.div_add_mod' r.addr (2 ^ k)
    rw [← hblock, MapRequest.block]
    omega
  refine ⟨⟨?_, ?_⟩, hblock ▸ h.low, hblock ▸ h.high⟩
  · obtain ⟨c, hc⟩ := h.base
    rw [hmod, ← h.placed, hc, Nat.mul_add_mod]
    refine (Nat.mod_eq_of_lt ?_).symm
    rw [← hmod]
    exact Nat.mod_lt _ (Nat.two_pow_pos k)
  · exact (Nat.pow_le_pow_iff_right (by decide)).mp ((Nat.le_add_left _ _).trans h.window)

/-- The flexpage that is built from a block. -/
theorem fits_block (hk : 12 ≤ k) (hc : r.Common k) (hlow : r.areaStart ≤ r.block k)
    (hhigh : r.block k + 2 ^ k ≤ r.areaEnd) (w : Bool) :
    r.Fits ⟨Word.sub r.rcvOffs (Word.sub r.addr (r.block k)), ⟨r.block k, k, w⟩⟩ k := by
  have hmod : r.addr - r.block k = r.addr % 2 ^ k := by
    have := Nat.div_add_mod' r.addr (2 ^ k)
    rw [block]
    omega
  have hsub : Word.sub r.addr (r.block k) = r.rcvOffs % 2 ^ k := by
    rw [Word.sub_eq (r.block_le k) r.addr_word, hmod, hc.1]
  have hbase : Word.sub r.rcvOffs (Word.sub r.addr (r.block k)) = r.rcvOffs / 2 ^ k * 2 ^ k := by
    rw [hsub, Word.sub_eq (Nat.mod_le _ _) r.rcvOffs_word]
    have := Nat.div_add_mod' r.rcvOffs (2 ^ k)
    omega
  obtain ⟨p, hp⟩ : pageSize ∣ 2 ^ k := Nat.pow_dvd_pow 2 hk
  refine ⟨rfl, r.dvd_block k, hlow, hhigh, r.block_le k, ?_, ?_, ?_, ?_⟩
  · obtain ⟨a, ha⟩ := r.addr_page
    obtain ⟨b, hb⟩ := (Dvd.intro _ hp.symm).trans (r.dvd_block k)
    have hlt := r.lt_block_add k
    show r.addr + pageSize ≤ r.block k + 2 ^ k
    rw [ha, hb, hp, ← Nat.mul_add] at hlt ⊢
    have hab := Nat.lt_of_mul_lt_mul_left hlt
    calc pageSize * a + pageSize = pageSize * (a + 1) := rfl
      _ ≤ pageSize * (b + p) := Nat.mul_le_mul_left _ hab
  · rw [hbase]
    exact Nat.dvd_mul_left _ _
  · show Word.sub r.rcvOffs (Word.sub r.addr (r.block k)) + (r.addr - r.block k) = r.rcvOffs
    rw [hbase, hmod, hc.1]
    exact Nat.div_add_mod' _ _
  · show Word.sub r.rcvOffs (Word.sub r.addr (r.block k)) + 2 ^ k ≤ 2 ^ r.rcvSize2
    rw [hbase]
    obtain ⟨c, hpow⟩ := Nat.pow_dvd_pow 2 hc.2
    have hlt := r.rcvOffs_lt
    rw [hpow] at hlt ⊢
    have hdiv : r.rcvOffs / 2 ^ k < c := (Nat.div_lt_iff_lt_mul (Nat.two_pow_pos k)).mpr
      (by rw [Nat.mul_comm]; exact hlt)
    calc r.rcvOffs / 2 ^ k * 2 ^ k + 2 ^ k = (r.rcvOffs / 2 ^ k + 1) * 2 ^ k := by ring
      _ ≤ c * 2 ^ k := Nat.mul_le_mul_right _ hdiv
      _ = 2 ^ k * c := Nat.mul_comm _ _

/-! ## The computation -/

theorem shl1_natCast (hk : k < 32) : shl1 k = 2 ^ k := by
  rw [shl1, Int.toNat_natCast, Nat.mod_eq_of_lt hk]

theorem truncTo_addr (r : MapRequest) (hk : k < 32) : truncTo r.addr k = r.block k := by
  rw [truncTo, shl1_natCast hk, Word.roundDown_two_pow r.addr_word hk]
  rfl

theorem le_alignAddr : (k : Int) ≤ alignAddr r.addr r.rcvSize2 r.rcvOffs ↔ r.Common k := by
  unfold alignAddr Common
  split_ifs with heq
  · rw [Int.ofNat_le, heq]
    exact ⟨fun h => ⟨rfl, h⟩, And.right⟩
  · rw [le_min_iff, Word.le_bsf_xor heq r.addr_word r.rcvOffs_word, Int.ofNat_le]

/-- The address of an area or its end, as a word. -/
theorem areaEnd_eq (r : MapRequest) : Word.add r.areaStart r.areaSize =
    if r.areaEnd = 4294967296 then 0 else r.areaEnd := by
  have hend := r.areaEnd_le
  split_ifs with h
  · exact Word.add_eq_zero h
  · exact Word.add_eq (by rw [areaEnd] at *; omega)

theorem block_end_eq (hk : k < 32) : Word.add (r.block k) (shl1 k) =
    if r.block k + 2 ^ k = 4294967296 then 0 else r.block k + 2 ^ k := by
  rw [shl1_natCast hk]
  have hle : r.block k + 2 ^ k ≤ 4294967296 := by
    obtain ⟨c, hc⟩ := r.dvd_block k
    obtain ⟨d, hd⟩ : 2 ^ k ∣ 4294967296 := Nat.pow_dvd_pow 2 hk.le
    have hlt := (r.block_le k).trans_lt r.addr_word
    rw [hc, hd] at hlt ⊢
    have hcd := Nat.lt_of_mul_lt_mul_left hlt
    calc 2 ^ k * c + 2 ^ k = 2 ^ k * (c + 1) := rfl
      _ ≤ 2 ^ k * d := Nat.mul_le_mul_left _ hcd
  split_ifs with h
  · exact Word.add_eq_zero h
  · exact Word.add_eq (by omega)

/-- The block ends in the area, or the word comparison does not notice. -/
def WordFits (r : MapRequest) (k : Nat) : Prop :=
  r.areaStart ≤ r.block k ∧
    (r.block k + 2 ^ k = 4294967296 ∨ r.block k + 2 ^ k ≤ r.areaEnd ∧ r.areaEnd < 4294967296)

theorem wordFits_iff (hk : k < 32) : r.areaStart ≤ truncTo r.addr k ∧
    Word.add (truncTo r.addr k) (shl1 k) ≤ Word.add r.areaStart r.areaSize ↔ r.WordFits k := by
  rw [r.truncTo_addr hk, block_end_eq hk, r.areaEnd_eq, WordFits]
  have hpos : 0 < 2 ^ k := Nat.two_pow_pos k
  have hend := r.areaEnd_le
  split_ifs <;> omega

/-- The smaller one of the two alignments in `__max_size`. -/
def maxAlign (r : MapRequest) : Int :=
  min (maxAddrAlign r.areaStart r.addr)
    (maxAddrAlign r.addr (Word.add r.areaStart r.areaSize))

theorem maxSize_eq (r : MapRequest) :
    maxSize r.areaStart r.areaSize r.offset r.rcvSize2 r.rcvOffs =
      if r.areaStart ≤ truncTo r.addr (r.maxAlign + 1) ∧
          Word.add (truncTo r.addr (r.maxAlign + 1)) (shl1 (r.maxAlign + 1)) ≤
            Word.add r.areaStart r.areaSize then throw .badFpage
      else pure (min r.maxAlign (alignAddr r.addr r.rcvSize2 r.rcvOffs)) := by
  rw [maxSize, r.add_offset]
  rfl

/-- The successful calls of `__build_map_fpage`. -/
theorem build_ok {m : MemMap} {size2 : Int} {flags : Nat} (hf : State.superPages flags = false) :
    r.build m size2 flags = .ok (.ok f) ↔ ∃ s : Int,
      fpageSize r.areaStart r.areaSize r.offset size2 r.rcvSize2 r.rcvOffs flags = .ok s ∧
      ¬(s < size2 ∧ mapPartial flags = false) ∧ r.areaStart ≤ truncTo r.addr s ∧
      Word.add (truncTo r.addr s) (shl1 s) ≤ Word.add r.areaStart r.areaSize ∧
      (truncTo r.addr s = r.addr ∨ mapMore flags = true) ∧ 12 ≤ s ∧
      f = ⟨Word.sub r.rcvOffs (Word.sub r.addr (truncTo r.addr s)),
        ⟨truncTo r.addr s, s, writeFlag flags⟩⟩ := by
  rw [build, buildMapFpage, r.add_offset]
  cases hs : fpageSize r.areaStart r.areaSize r.offset size2 r.rcvSize2 r.rcvOffs flags with
  | error e => simp [bind, Except.bind]
  | ok s =>
    have hsuper : superPagesOk m flags (truncTo r.addr s) s = .ok true := by
      rw [superPagesOk, hf]
      rfl
    simp only [ok_bind, hsuper, Except.ok.injEq, exists_eq_left', Bool.true_eq_false, if_false]
    by_cases hsize : s < size2 ∧ mapPartial flags = false
    · rw [if_pos hsize]
      exact ⟨nofun, fun h => absurd hsize h.1⟩
    rw [if_neg hsize]
    by_cases hbad : truncTo r.addr s < r.areaStart ∨
        Word.add r.areaStart r.areaSize < Word.add (truncTo r.addr s) (shl1 s) ∨
        truncTo r.addr s ≠ r.addr ∧ mapMore flags = false ∨ s < (log2PageSize : Nat)
    · rw [if_pos hbad]
      refine ⟨nofun, fun ⟨_, h₁, h₂, h₃, h₄, _⟩ => ?_⟩
      obtain h | h | ⟨hne, hless⟩ | h := hbad
      · exact absurd h₁ (Nat.not_le_of_lt h)
      · exact absurd h₂ (Nat.not_le_of_lt h)
      · exact h₃.elim (fun heq => absurd heq hne) fun hmore => by simp [hmore] at hless
      · exact absurd h₄ (Int.not_le_of_gt h)
    · rw [if_neg hbad]
      simp only [not_or, Nat.not_lt, not_and, Bool.not_eq_false, Int.not_lt] at hbad
      obtain ⟨h₁, h₂, h₃, h₄⟩ := hbad
      have h₃ : truncTo r.addr s = r.addr ∨ mapMore flags = true :=
        or_iff_not_imp_left.mpr fun hne => h₃ hne
      constructor
      · exact fun h => ⟨hsize, h₁, h₂, h₃, h₄, (Except.ok.inj (Except.ok.inj h)).symm⟩
      · rintro ⟨-, -, -, -, -, rfl⟩
        rfl

/-! ## Flexpages of a given address -/

theorem dvd_addr (hk : r.block k = r.addr) : 2 ^ k ∣ r.addr := hk ▸ r.dvd_block k

/-- Without `L4DM_MAP_MORE` the flexpage starts at the page. -/
theorem le_maxSizeAtOffs (h : (k : Int) ≤ maxSizeAtOffs r.areaStart r.areaSize r.offset r.rcvSize2
    r.rcvOffs) : r.Common k ∧ r.block k = r.addr ∧ r.addr + 2 ^ k ≤ r.areaEnd := by
  have hoffs := r.offset_lt
  rw [maxSizeAtOffs, r.add_offset, le_min_iff, Word.sub_eq r.offset_lt.le r.size_word,
    Word.le_bsr (Nat.sub_ne_zero_of_lt r.offset_lt)] at h
  obtain ⟨hsize, halign⟩ := h
  have hdvd : 2 ^ k ∣ r.addr ∧ 2 ^ k ∣ r.rcvOffs ∧ k ≤ r.rcvSize2 := by
    split_ifs at halign with h0
    · obtain ⟨ha, hr⟩ := Nat.or_eq_zero_iff.mp h0
      rw [ha, hr]
      exact ⟨Nat.dvd_zero _, Nat.dvd_zero _, Int.ofNat_le.mp halign⟩
    · rw [le_min_iff, Word.le_bsf_or h0 r.addr_word r.rcvOffs_word, Int.ofNat_le] at halign
      exact ⟨halign.1.1, halign.1.2, halign.2⟩
  obtain ⟨ha, hr, hrcv⟩ := hdvd
  refine ⟨⟨?_, hrcv⟩, block_eq ha (Nat.le_refl _) ?_, ?_⟩
  · rw [Nat.mod_eq_zero_of_dvd ha, Nat.mod_eq_zero_of_dvd hr]
  · have := Nat.two_pow_pos k
    omega
  · rw [addr, areaEnd]
    omega

/-! ## The largest flexpages -/

theorem maxAddrAlign_lt {start stop : Nat} (hstart : start < 4294967296) (hstop : stop < 4294967296)
    (h : start ≠ 0 ∨ stop ≠ 0) : maxAddrAlign start stop < 32 := by
  unfold maxAddrAlign
  split_ifs with hne h0
  · exact Word.bsr_lt (k := 32) (Nat.xor_lt_two_pow (Word.sub_lt _ _) hstop)
  · simp only [ne_eq, not_not] at hne
    omega
  · by_contra hge
    have hdvd := (Word.le_bsf (k := 32) h0 hstart).mp (not_lt.mp hge)
    exact h0 (Nat.eq_zero_of_dvd_of_lt hdvd hstart)

theorem maxAlign_lt (r : MapRequest) : r.maxAlign < 32 := by
  have hword := r.areaEnd_le
  have hlt := r.addr_lt
  have hsize := r.size_word
  rw [maxAlign, min_lt_iff, r.areaEnd_eq]
  by_cases h0 : r.addr = 0
  · -- the area does not cover the whole address space
    right
    have hstart : r.areaStart = 0 := by rw [addr] at h0; omega
    have hend : r.areaEnd ≠ 4294967296 := by rw [areaEnd]; omega
    rw [if_neg hend]
    exact maxAddrAlign_lt r.addr_word (by omega) (.inr (by omega))
  · left
    exact maxAddrAlign_lt (by rw [areaEnd] at hword; have := r.offset_lt; omega) r.addr_word (.inr h0)

/-- The search for the largest flexpage; a block of twice the size does not pass its check. -/
structure Largest (r : MapRequest) (k : Nat) : Prop where
  eq : min r.maxAlign (alignAddr r.addr r.rcvSize2 r.rcvOffs) = k
  check : ¬(r.areaStart ≤ truncTo r.addr (r.maxAlign + 1) ∧
    Word.add (truncTo r.addr (r.maxAlign + 1)) (shl1 (r.maxAlign + 1)) ≤
      Word.add r.areaStart r.areaSize)

theorem maxSize_ok : maxSize r.areaStart r.areaSize r.offset r.rcvSize2 r.rcvOffs = .ok (k : Int) ↔
    r.Largest k := by
  rw [r.maxSize_eq]
  split_ifs with hcheck
  · exact ⟨nofun, fun h => absurd hcheck h.check⟩
  · exact ⟨fun h => ⟨Except.ok.inj h, hcheck⟩, fun h => congrArg Except.ok h.eq⟩

theorem Largest.le_maxAlign (h : r.Largest k) : (k : Int) ≤ r.maxAlign :=
  h.eq ▸ min_le_left _ _

theorem Largest.lt (h : r.Largest k) : k < 32 := by
  have hle := h.le_maxAlign
  have hlt := r.maxAlign_lt
  omega

theorem Largest.common (h : r.Largest k) : r.Common k :=
  le_alignAddr.mp (h.eq ▸ min_le_right _ _)

/-- No flexpage of twice the size passes the check, if the alignments are what limits the size. -/
theorem Largest.not_wordFits (h : r.Largest k) (hmax : r.maxAlign = k) (hk : k < 31) :
    ¬r.WordFits (k + 1) := by
  have hcheck := h.check
  rw [hmax, ← Int.natCast_succ, wordFits_iff (Nat.succ_lt_succ hk)] at hcheck
  exact hcheck

theorem Largest.maximal (h : r.Largest k) (hfits : r.WordFits k) {k' : Nat} (hf : r.Fits f k') :
    k' ≤ k := by
  by_contra hlt
  rw [Nat.not_le] at hlt
  obtain ⟨hc, hlow, hhigh⟩ := hf.block
  have hword := r.areaEnd_le
  have hk' : k' < 32 := by
    have hle : 2 ^ k' ≤ r.areaSize := by rw [areaEnd] at hhigh; omega
    exact (Nat.pow_lt_pow_iff_right (by decide)).mp (hle.trans_lt r.size_word : 2 ^ k' < 2 ^ 32)
  have halign := le_alignAddr.mpr hc
  have hmax : r.maxAlign = k := by
    have heq := h.eq
    rw [min_def] at heq
    split_ifs at heq with hle
    · exact heq
    · omega
  refine h.not_wordFits hmax (by omega) ?_
  obtain ⟨h₁, h₂⟩ := block_mono (r := r) (Nat.succ_le_of_lt hlt)
  obtain ⟨-, h₃⟩ := block_mono (r := r) (Nat.le_succ k)
  refine ⟨hlow.trans h₁, ?_⟩
  obtain ⟨-, hend | ⟨-, hend⟩⟩ := hfits
  · exact .inl (Nat.le_antisymm ((h₂.trans hhigh).trans hword) (hend ▸ h₃))
  · exact .inr ⟨h₂.trans hhigh, hend⟩

/-! ## The end of the address space -/

/-- The page is the last block of size `2 ^ k` of the address space, the area ends in this block. -/
structure AtTop (r : MapRequest) (k : Nat) : Prop where
  lt : k < 32
  addr : r.addr + 2 ^ k = 4294967296
  areaEnd : r.areaEnd < 4294967296

theorem AtTop.dvd (h : r.AtTop k) : 2 ^ k ∣ r.addr := by
  have hword : 2 ^ k ∣ 4294967296 := Nat.pow_dvd_pow 2 h.lt.le
  exact (Nat.dvd_add_left (Nat.dvd_refl _)).mp (h.addr ▸ hword)

theorem AtTop.block (h : r.AtTop k) : r.block k = r.addr :=
  block_eq h.dvd (Nat.le_refl _) (Nat.lt_add_of_pos_right (Nat.two_pow_pos k))

theorem AtTop.pos (h : r.AtTop k) : 0 < r.addr := by
  have hpow : 2 ^ k < 2 ^ 32 := Nat.pow_lt_pow_right (by decide) h.lt
  have haddr := h.addr
  omega

/-- The two numbers whose difference `__max_addr_align` scans for the end of the flexpage. -/
theorem AtTop.maxAddrAlign_eq (h : r.AtTop k) :
    maxAddrAlign r.addr (Word.add r.areaStart r.areaSize) = Word.bsr ((r.addr - 1) ^^^ r.areaEnd) := by
  have hlt := r.addr_lt
  rw [r.areaEnd_eq, if_neg h.areaEnd.ne, maxAddrAlign, if_pos hlt.ne, Word.sub_eq h.pos r.addr_word]

theorem AtTop.le_maxAddrAlign (h : r.AtTop k) :
    (k : Int) ≤ maxAddrAlign r.addr (Word.add r.areaStart r.areaSize) := by
  have hlt := r.addr_lt
  have hpos := h.pos
  rw [h.maxAddrAlign_eq, Word.le_bsr_xor (by omega)]
  refine Nat.ne_of_lt (Nat.lt_of_lt_of_le ?_ (Nat.div_le_div_right hlt.le))
  rw [Nat.div_lt_iff_lt_mul (Nat.two_pow_pos k), Nat.div_mul_cancel h.dvd]
  omega

/-- Below the end of the address space the block of twice the size has no boundary. -/
theorem AtTop.maxAddrAlign_le (h : r.AtTop k) :
    maxAddrAlign r.addr (Word.add r.areaStart r.areaSize) ≤ k := by
  have hlt := r.addr_lt
  have hend := h.areaEnd
  have haddr := h.addr
  have hpos := h.pos
  have hpow : 2 ^ (k + 1) = 2 * 2 ^ k := by ring
  rw [← not_lt, ← Int.add_one_le_iff, ← Int.natCast_succ, h.maxAddrAlign_eq,
    Word.le_bsr_xor (by omega), not_not]
  have hquot : ∀ a, 4294967296 - 2 * 2 ^ k ≤ a → a < 4294967296 →
      a / 2 ^ (k + 1) = 4294967296 / 2 ^ (k + 1) - 1 := by
    intro a hlow hhigh
    obtain ⟨c, hc⟩ : 2 ^ (k + 1) ∣ 4294967296 := Nat.pow_dvd_pow 2 h.lt
    have hpos' : 0 < 2 ^ (k + 1) := Nat.two_pow_pos _
    rw [hc, Nat.mul_div_cancel_left _ hpos']
    rw [← hpow, hc] at hlow
    rw [hc] at hhigh
    have hc0 : c ≠ 0 := by rintro rfl; simp at hhigh
    obtain ⟨c, rfl⟩ := Nat.exists_eq_succ_of_ne_zero hc0
    refine Nat.div_eq_of_lt_le ?_ ?_
    · rw [Nat.succ_sub_one, Nat.mul_comm]
      rw [Nat.mul_succ, Nat.add_sub_cancel] at hlow
      exact hlow
    · rw [Nat.succ_sub_one, Nat.mul_comm]
      exact hhigh
  rw [hquot (r.addr - 1) (by omega) (by omega), hquot r.areaEnd (by omega) hend]

theorem AtTop.le_align_start (h : r.AtTop k) (hstart : r.areaStart ≠ 0) :
    (k : Int) ≤ maxAddrAlign r.areaStart r.addr := by
  have hle : r.areaStart ≤ r.addr := Nat.le_add_right _ _
  have hword := r.addr_word
  rw [maxAddrAlign]
  split_ifs with hne
  · rw [Word.sub_eq (by omega) (by omega), Word.le_bsr_xor (by omega)]
    refine Nat.ne_of_lt ?_
    rw [Nat.div_lt_iff_lt_mul (Nat.two_pow_pos k), Nat.div_mul_cancel h.dvd]
    omega
  · rw [not_not] at hne
    rw [Word.le_bsf hstart (by omega), hne]
    exact h.dvd

theorem AtTop.maxAlign_eq (h : r.AtTop k) (hstart : r.areaStart ≠ 0) : r.maxAlign = k := by
  have hlow := h.le_maxAddrAlign
  have hhigh := h.maxAddrAlign_le
  have hleft := h.le_align_start hstart
  rw [maxAlign]
  omega

/-- The block of twice the size is the last one of the address space, too. -/
theorem AtTop.wordFits_succ (h : r.AtTop k) :
    r.WordFits (k + 1) ↔ r.areaStart + 2 ^ k ≤ r.addr := by
  have haddr := h.addr
  have hpow : 2 ^ (k + 1) = 2 ^ k + 2 ^ k := by ring
  obtain ⟨c, hc⟩ : 2 ^ (k + 1) ∣ 4294967296 := Nat.pow_dvd_pow 2 h.lt
  have hle : 2 ^ (k + 1) ≤ 4294967296 := Nat.le_of_dvd (by decide) ⟨c, hc⟩
  have hpos : 0 < 2 ^ k := Nat.two_pow_pos k
  have hblock : r.block (k + 1) = 4294967296 - 2 ^ (k + 1) := by
    refine block_eq (Nat.dvd_sub ⟨c, hc⟩ (Nat.dvd_refl _)) ?_ ?_
    · omega
    · have := r.addr_word
      omega
  rw [WordFits, hblock]
  omega

theorem AtTop.largest (h : r.AtTop k) (hk : k < 31) (hstart : r.addr < r.areaStart + 2 ^ k)
    (hdvd : 2 ^ k ∣ r.rcvOffs) (hrcv : k ≤ r.rcvSize2) : r.Largest k := by
  have haddr := h.addr
  have hstart0 : r.areaStart ≠ 0 := by
    intro h0
    have hpow : 2 ^ k ≤ 2 ^ 30 := Nat.pow_le_pow_right (by decide) (Nat.le_of_lt_succ hk)
    generalize 2 ^ k = p at *
    omega
  have hcommon : r.Common k :=
    ⟨by rw [Nat.mod_eq_zero_of_dvd h.dvd, Nat.mod_eq_zero_of_dvd hdvd], hrcv⟩
  refine ⟨?_, ?_⟩
  · rw [h.maxAlign_eq hstart0]
    exact min_eq_left (le_alignAddr.mpr hcommon)
  · rw [h.maxAlign_eq hstart0, ← Int.natCast_succ, wordFits_iff (Nat.succ_lt_succ hk),
      h.wordFits_succ]
    omega

/-- The only way for a flexpage that passes the checks to leave the area. -/
theorem Largest.atTop (h : r.Largest k) (hend : r.block k + 2 ^ k = 4294967296)
    (harea : r.areaEnd < 4294967296) : r.AtTop k := by
  have hlt := r.addr_lt
  have hk := h.lt
  have hpow : 2 ^ k < 2 ^ 32 := Nat.pow_lt_pow_right (by decide) hk
  have hblock := r.block_le k
  refine ⟨hk, ?_, harea⟩
  have hpos : 0 < r.addr := by omega
  have halign : (k : Int) ≤ maxAddrAlign r.addr (Word.add r.areaStart r.areaSize) :=
    h.le_maxAlign.trans (min_le_right _ _)
  rw [r.areaEnd_eq, if_neg harea.ne, maxAddrAlign, if_pos hlt.ne, Word.sub_eq hpos r.addr_word,
    Word.le_bsr_xor (by omega)] at halign
  by_contra hne
  -- both numbers are in the last block
  have hquot : ∀ a, r.block k ≤ a → a < 4294967296 → a / 2 ^ k = r.addr / 2 ^ k := by
    intro a hlow hhigh
    refine Nat.div_eq_of_lt_le hlow ?_
    rw [Nat.add_mul, Nat.one_mul]
    exact hhigh.trans_eq hend.symm
  exact halign ((hquot _ (by omega) (by omega)).trans (hquot _ (by omega) harea).symm)

theorem Largest.top_spec (h : r.Largest k) (ht : r.AtTop k) (hfits : r.WordFits k) :
    k < 31 ∧ r.addr < r.areaStart + 2 ^ k ∧ 2 ^ k ∣ r.rcvOffs ∧ k ≤ r.rcvSize2 := by
  have hstart : r.areaStart ≠ 0 := by
    intro h0
    have haddr := ht.addr
    have hpos := ht.pos
    have halign : (k : Int) ≤ maxAddrAlign r.areaStart r.addr :=
      h.le_maxAlign.trans (min_le_left _ _)
    rw [h0, maxAddrAlign, if_pos hpos.ne, Word.le_bsr_xor (by
      rw [Word.sub_zero_left (by decide) (by decide)]
      have := r.addr_lt
      have := ht.areaEnd
      omega)] at halign
    refine halign ?_
    rw [Word.sub_zero_left (by decide) (by decide)]
    have hblock : r.addr / 2 ^ k * 2 ^ k = r.addr := ht.block
    refine Nat.div_eq_of_lt_le ?_ ?_
    · have := r.addr_word
      omega
    · rw [Nat.add_mul, Nat.one_mul, hblock, haddr]
      decide
  have hmax := ht.maxAlign_eq hstart
  obtain ⟨hmod, hrcv⟩ := h.common
  have hdvd : 2 ^ k ∣ r.rcvOffs := by
    rw [Nat.dvd_iff_mod_eq_zero, ← hmod]
    exact Nat.mod_eq_zero_of_dvd ht.dvd
  have hk : k < 31 := by
    have hlt := h.lt
    by_contra hge
    obtain rfl : k = 31 := by omega
    -- the shift by 32 is one by 0
    refine h.check ?_
    have hshl : shl1 (r.maxAlign + 1) = 2 ^ 0 := by
      rw [hmax]
      rfl
    have hlt := r.addr_lt
    have htrunc : truncTo r.addr (r.maxAlign + 1) = r.addr := by
      rw [truncTo, hshl, Word.roundDown_two_pow r.addr_word (by decide)]
      omega
    rw [htrunc, hshl, r.areaEnd_eq, if_neg ht.areaEnd.ne, Word.add_eq (by have := ht.areaEnd; omega)]
    exact ⟨Nat.le_add_right _ _, hlt⟩
  refine ⟨hk, ?_, hdvd, hrcv⟩
  have hnot := h.not_wordFits hmax hk
  rw [ht.wordFits_succ] at hnot
  omega

/-! ## Results -/

/-- The flexpage lies in the area, if the word comparison is right. -/
theorem WordFits.high (h : r.WordFits k) (htop : ¬(r.block k + 2 ^ k = 4294967296 ∧
    r.areaEnd < 4294967296)) : r.block k + 2 ^ k ≤ r.areaEnd := by
  have hend := r.areaEnd_le
  obtain ⟨-, hfull | ⟨hle, -⟩⟩ := h
  · by_contra hgt
    exact htop ⟨hfull, by omega⟩
  · exact hle

variable {m : MemMap} {size2 : Int} {flags : Nat}

/-- Without `L4DM_MAP_MORE` every flexpage fits. -/
theorem build_fits_at (hf : State.superPages flags = false) (hmore : mapMore flags = false)
    (h : r.build m size2 flags = .ok (.ok f)) : ∃ k, r.Fits f k := by
  obtain ⟨s, hs, -, hlow, hhigh, -, h12, rfl⟩ := (build_ok hf).mp h
  obtain ⟨k, rfl⟩ := Int.eq_ofNat_of_zero_le (show 0 ≤ s by omega)
  rw [fpageSize, if_neg (by simp [hmore])] at hs
  have hle : (k : Int) ≤ _ := (Except.ok.inj hs) ▸ min_le_left _ _
  obtain ⟨hc, hblock, hend⟩ := le_maxSizeAtOffs hle
  have hk : k < 32 := by
    have hpow : 2 ^ k < 2 ^ 32 := by
      have hword := r.size_word
      have hoffs := r.offset_lt
      rw [addr, areaEnd] at hend
      omega
    exact (Nat.pow_lt_pow_iff_right (by decide)).mp hpow
  rw [r.truncTo_addr hk] at hlow ⊢
  exact ⟨k, fits_block (Int.ofNat_le.mp h12) hc hlow (by rw [hblock]; exact hend) _⟩

/-- What is known of a successful call with `L4DM_MAP_MORE`. -/
theorem build_more (hf : State.superPages flags = false) (hmore : mapMore flags = true)
    (h : r.build m size2 flags = .ok (.ok f)) : ∃ k, r.Largest k ∧ r.WordFits k ∧ 12 ≤ k ∧
      (size2 ≤ k ∨ mapPartial flags = true) ∧
      f = ⟨Word.sub r.rcvOffs (Word.sub r.addr (r.block k)), ⟨r.block k, k, writeFlag flags⟩⟩ := by
  obtain ⟨s, hs, hsize, hlow, hhigh, -, h12, rfl⟩ := (build_ok hf).mp h
  obtain ⟨k, rfl⟩ := Int.eq_ofNat_of_zero_le (show 0 ≤ s by omega)
  rw [fpageSize, if_pos hmore] at hs
  have hl := maxSize_ok.mp hs
  refine ⟨k, hl, (wordFits_iff hl.lt).mp ⟨hlow, hhigh⟩, Int.ofNat_le.mp h12, ?_, ?_⟩
  · rw [not_and, Bool.not_eq_false] at hsize
    exact (lt_or_ge (k : Int) size2).symm.imp_right hsize
  · rw [r.truncTo_addr hl.lt]

end

/-- **The flexpages of `__build_map_fpage`**, without superpages: every flexpage that is built may be
mapped, and with `L4DM_MAP_MORE` it is the largest one that may, if and only if the request is not one
whose flexpage reaches from the page to the end of the address space. -/
theorem build_fits_iff (r : MapRequest) (m : MemMap) (size2 : Int) (flags : Nat)
    (hf : State.superPages flags = false) :
    (∀ f, r.build m size2 flags = .ok (.ok f) →
      ∃ k, r.Fits f k ∧ (mapMore flags = true → ∀ f' k', r.Fits f' k' → k' ≤ k)) ↔
      ¬r.Overhangs size2 flags := by
  constructor
  · rintro h ⟨hmore, harea, k, hk, haddr, hstart, hdvd, hrcv, hsize⟩
    have ht : r.AtTop k := ⟨hk.trans (by decide), haddr, harea⟩
    have hl := ht.largest hk hstart hdvd hrcv
    have hfits : r.WordFits k := by
      rw [WordFits, ht.block]
      exact ⟨Nat.le_add_right _ _, .inl haddr⟩
    have h12 : 12 ≤ k := by
      by_contra hlt
      have hpow : 2 ^ k < pageSize := Nat.pow_lt_pow_right (by decide) (Nat.lt_of_not_le hlt)
      have hpage : pageSize ∣ 2 ^ k := by
        refine (Nat.dvd_add_right r.addr_page).mp ?_
        rw [haddr]
        decide
      exact absurd (Nat.le_of_dvd (Nat.two_pow_pos k) hpage) (Nat.not_le_of_lt hpow)
    obtain ⟨hlow, hhigh⟩ := (wordFits_iff ht.lt).mpr hfits
    have hbuild : r.build m size2 flags = .ok (.ok _) := (build_ok hf).mpr ⟨k,
      by rw [fpageSize, if_pos hmore]; exact maxSize_ok.mpr hl,
      fun ⟨hlt, hpart⟩ => hsize.elim (fun hle => absurd hlt (Int.not_lt.mpr hle))
        fun hpart' => by simp [hpart'] at hpart,
      hlow, hhigh, .inr hmore, Int.ofNat_le.mpr h12, rfl⟩
    obtain ⟨k', hk', -⟩ := h _ hbuild
    obtain rfl : k = k' := Int.ofNat.inj hk'.size
    have hout := hk'.block.2.2
    rw [ht.block, haddr] at hout
    exact absurd harea (Nat.not_lt_of_le hout)
  · intro hnot f h
    cases hmore : mapMore flags with
    | false =>
      obtain ⟨k, hk⟩ := build_fits_at hf hmore h
      exact ⟨k, hk, nofun⟩
    | true =>
      obtain ⟨k, hl, hfits, h12, hsize, rfl⟩ := build_more hf hmore h
      have hhigh := hfits.high fun ⟨hend, harea⟩ => by
        have ht := hl.atTop hend harea
        obtain ⟨hk, hstart, hdvd, hrcv⟩ := hl.top_spec ht hfits
        exact hnot ⟨hmore, harea, k, hk, ht.addr, hstart, hdvd, hrcv, hsize⟩
      exact ⟨k, fits_block h12 hl.common hfits.1 hhigh _, fun _ _ _ hf' => hl.maximal hfits hf'⟩

/-- An area of four pages, a page in the middle of it and a receive window of one page. -/
def fourPages : MapRequest where
  areaStart := 4096
  areaSize := 16384
  offset := 8192
  rcvSize2 := 12
  rcvOffs := 0
  start_page := by decide
  size_page := by decide
  size_word := by decide
  area_word := by decide
  offset_page := by decide
  offset_lt := by decide
  low_rcvSize2 := by decide
  rcvSize2_le := by decide
  rcvOffs_page := by decide
  rcvOffs_lt := by decide

theorem build_fits_iff_fourPages :
    (∀ f, fourPages.build emptyMap 12 4096 = .ok (.ok f) →
      ∃ k, fourPages.Fits f k ∧ (mapMore 4096 = true → ∀ f' k', fourPages.Fits f' k' → k' ≤ k)) ↔
      ¬fourPages.Overhangs 12 4096 :=
  build_fits_iff fourPages emptyMap 12 4096 (by decide)

/-- An area of one page at the start of the last gigabyte, and a receive window of one gigabyte. -/
def lastGigabyte : MapRequest where
  areaStart := 0xC0000000
  areaSize := 4096
  offset := 0
  rcvSize2 := 30
  rcvOffs := 0
  start_page := by decide
  size_page := by decide
  size_word := by decide
  area_word := by decide
  offset_page := by decide
  offset_lt := by decide
  low_rcvSize2 := by decide
  rcvSize2_le := by decide
  rcvOffs_page := by decide
  rcvOffs_lt := by decide

/-- With `L4DM_MAP_MORE` the flexpage for this page is the whole gigabyte. -/
theorem build_leaves_area : ∃ f, lastGigabyte.build emptyMap 12 4096 = .ok (.ok f) ∧
    ¬∃ k, lastGigabyte.Fits f k := by
  refine ⟨⟨0, ⟨0xC0000000, 30, false⟩⟩, by decide +kernel, ?_⟩
  rintro ⟨k, hk⟩
  obtain rfl : 30 = k := Int.ofNat.inj hk.size
  exact absurd hk.high (by decide)

end MapRequest

end L4env.DMphys
