import L4env.Bootstrap.Region
import L4env.Util.Returns
import L4env.Util.Word

/-!
# The search for free memory

`Region_list::find_free` tries the start of the search range, rounded up, and then the end of the nearest region
behind it, rounded up, and so on (`bootstrap/server/src/region.cc`). Addresses have 64 bits, but the result of
`next_free` has 32. The region that is tested has the byte behind the block, too.
-/

namespace L4env.Bootstrap

/-- `Region_list::test_fit` -/
def testFit (regions : List Region) (start size : Nat) : Bool :=
  regions.all fun c => !c.overlaps (.mk' start ((start + size) % 2 ^ 64))

/-- The loop of `Region_list::next_free`: the nearest end of a region behind `start`. -/
def nextEnd (start : Nat) : List Region → Nat → Nat
  | [], s => s
  | c :: regions, s => nextEnd start regions (if c.endAddr > start ∧ c.endAddr < s then c.endAddr else s)

/-- `Region_list::next_free`, whose result is a word of 32 bits -/
def nextFree (regions : List Region) (start : Nat) : Nat := nextEnd start regions (2 ^ 64 - 1) % 2 ^ 32

/-- `(start + (1ULL << align) - 1) & ~((1ULL << align) - 1)` -/
def alignUp (start align : Nat) : Nat := (start + 2 ^ align - 1) % 2 ^ 64 / 2 ^ align * 2 ^ align

/-- The loop of `Region_list::find_free` -/
def findFreeFrom (regions : List Region) (endAddr size align : Nat) : Nat → Nat → Option Nat
  | 0, _ => none
  | fuel + 1, start =>
    if (alignUp start align + size + (2 ^ 64 - 1)) % 2 ^ 64 > endAddr then some 0
    else if testFit regions (alignUp start align) size then some (alignUp start align)
    else if nextFree regions (alignUp start align) = 2 ^ 32 - 1 then some 0
    else findFreeFrom regions endAddr size align fuel (nextFree regions (alignUp start align))

/-- `Region_list::find_free` -/
def findFree (regions : List Region) (search : Region) (size align fuel : Nat) : Option Nat :=
  findFreeFrom regions search.endAddr size align fuel search.beginAddr

variable {regions : List Region} {search : Region} {size align t t' x y s e r : Nat}

/-! ## Blocks -/

/-- An aligned block in the search range that overlaps no region. -/
structure FreeBlock (regions : List Region) (search : Region) (size align t : Nat) : Prop where
  aligned : 2 ^ align ∣ t
  first : search.beginAddr ≤ t
  last : t + size ≤ search.endAddr + 1
  disjoint : ∀ c ∈ regions, c.endAddr < t ∨ t + size ≤ c.beginAddr

/-- The search ends. What it finds is a free block, and if it finds none there is none. -/
def Finds (regions : List Region) (search : Region) (size align : Nat) : Prop :=
  ∃ r, Returns (fun fuel => findFree regions search size align fuel) r ∧
    (r ≠ 0 → FreeBlock regions search size align r) ∧ (r = 0 → ∀ t ≠ 0, ¬ FreeBlock regions search size align t)

/-! ## Candidates -/

/-- The least multiple of `2 ^ align` that is not below `x`. -/
def roundedUp (x align : Nat) : Nat := (x + 2 ^ align - 1) / 2 ^ align * 2 ^ align

/-- An address that the search can come to: the start of the range or the end of a region, rounded up. -/
def Candidate (regions : List Region) (search : Region) (align t : Nat) : Prop :=
  t = roundedUp search.beginAddr align ∨
    ∃ c ∈ regions, search.beginAddr ≤ c.endAddr ∧ t = roundedUp c.endAddr align

/-- The block and the byte behind it overlap no region. -/
structure FitsAt (regions : List Region) (search : Region) (size t : Nat) : Prop where
  last : t + size ≤ search.endAddr + 1
  disjoint : ∀ c ∈ regions, c.endAddr < t ∨ t + size < c.beginAddr

/-- The block is in the range, but does not fit. -/
def Fails (regions : List Region) (search : Region) (size t : Nat) : Prop :=
  t + size ≤ search.endAddr + 1 ∧ ¬ FitsAt regions search size t

/-- No candidate before `t` is the end of the search. -/
def Tried (regions : List Region) (search : Region) (size align t : Nat) : Prop :=
  Candidate regions search align t ∧ ∀ t' < t, Candidate regions search align t' → Fails regions search size t'

/-- The search comes to no address that does not fit into its variable. -/
structure Tame (regions : List Region) (search : Region) (size align : Nat) : Prop where
  start : search.beginAddr + 2 ^ align ≤ 2 ^ 64
  block : ∀ t, Tried regions search size align t →
    t + size ≤ 2 ^ 64 ∧ (t + size ≤ search.endAddr + 1 → t + size < 2 ^ 64)
  next : ∀ t, Tried regions search size align t → Fails regions search size t → ∀ c ∈ regions, t < c.endAddr →
    (∀ c' ∈ regions, t < c'.endAddr → c.endAddr ≤ c'.endAddr) → c.endAddr < 2 ^ 32 - 1

theorem roundedUp_eq (x align : Nat) : roundedUp x align = x + Word.gap x align := (Word.add_gap x align).symm

theorem dvd_roundedUp (x align : Nat) : 2 ^ align ∣ roundedUp x align := Nat.dvd_mul_left ..

theorem le_roundedUp (x align : Nat) : x ≤ roundedUp x align := by
  rw [roundedUp_eq]
  exact Nat.le_add_right ..

theorem roundedUp_lt (x align : Nat) : roundedUp x align < x + 2 ^ align := by
  rw [roundedUp_eq]
  exact Nat.add_lt_add_left (Word.gap_lt x align) x

theorem roundedUp_le (ht : 2 ^ align ∣ t) (h : x ≤ t) : roundedUp x align ≤ t := by
  rw [roundedUp_eq]
  exact Word.add_gap_le ht h

theorem roundedUp_mono (h : x ≤ y) : roundedUp x align ≤ roundedUp y align :=
  roundedUp_le (dvd_roundedUp y align) (h.trans (le_roundedUp y align))

theorem alignUp_eq (h : x + 2 ^ align ≤ 2 ^ 64) : alignUp x align = roundedUp x align := by
  have hpos := Nat.two_pow_pos align
  rw [alignUp, roundedUp, Nat.mod_eq_of_lt (by omega)]

theorem Candidate.aligned (h : Candidate regions search align t) : 2 ^ align ∣ t := by
  obtain rfl | ⟨c, -, -, rfl⟩ := h
  · exact dvd_roundedUp ..
  · exact dvd_roundedUp ..

theorem Candidate.le (h : Candidate regions search align t) : roundedUp search.beginAddr align ≤ t := by
  obtain rfl | ⟨c, -, hle, rfl⟩ := h
  · exact le_rfl
  · exact roundedUp_mono hle

/-- A candidate behind another one is the end of a region behind that one. -/
theorem Candidate.behind (h : Candidate regions search align t') (ht : Candidate regions search align t)
    (hlt : t < t') : ∃ c ∈ regions, t < c.endAddr ∧ t' = roundedUp c.endAddr align := by
  obtain rfl | ⟨c, hc, -, rfl⟩ := h
  · exact absurd ht.le (Nat.not_le.mpr hlt)
  · refine ⟨c, hc, ?_, rfl⟩
    by_contra hle
    exact absurd (roundedUp_le ht.aligned (Nat.not_lt.mp hle)) (Nat.not_le.mpr hlt)

/-- Below 4 GB all addresses fit. -/
theorem tame_of_low (hregions : ∀ c ∈ regions, c.endAddr < 2 ^ 32 - 1) (hbegin : search.beginAddr < 2 ^ 32)
    (hsize : size ≤ 2 ^ 32) (halign : align ≤ 32) : Tame regions search size align := by
  have hpow : 2 ^ align ≤ 2 ^ 32 := Nat.pow_le_pow_right (by decide) halign
  refine ⟨by omega, fun t ht => ?_, fun t _ _ c hc _ _ => hregions c hc⟩
  have hlt : t < 2 ^ 33 := by
    obtain rfl | ⟨c, hc, -, rfl⟩ := ht.1
    · have h := roundedUp_lt search.beginAddr align
      omega
    · have h := roundedUp_lt c.endAddr align
      have hc := hregions c hc
      omega
  omega

/-! ## One round -/

theorem testFit_eq (h : t + size < 2 ^ 64) :
    testFit regions t size = true ↔ ∀ c ∈ regions, c.endAddr < t ∨ t + size < c.beginAddr := by
  simp only [testFit, List.all_eq_true, Region.overlaps, Region.before, Region.mk', Nat.mod_eq_of_lt h]
  refine forall₂_congr fun c _ => ?_
  simp

/-- The nearest end is the least one, or the value before the loop. -/
theorem nextEnd_spec (start : Nat) (regions : List Region) (s : Nat) :
    (nextEnd start regions s = s ∨ ∃ c ∈ regions, start < c.endAddr ∧ nextEnd start regions s = c.endAddr) ∧
      nextEnd start regions s ≤ s ∧ ∀ c ∈ regions, start < c.endAddr → nextEnd start regions s ≤ c.endAddr := by
  induction regions generalizing s with
  | nil => exact ⟨.inl rfl, le_rfl, nofun⟩
  | cons c regions ih =>
    rw [nextEnd]
    split
    case isTrue h =>
      obtain ⟨hcases, hle, hleast⟩ := ih c.endAddr
      refine ⟨.inr ?_, hle.trans h.2.le, fun d hd hlt => ?_⟩
      · obtain heq | ⟨d, hd, hlt, heq⟩ := hcases
        · exact ⟨c, List.mem_cons_self .., h.1, heq⟩
        · exact ⟨d, .tail _ hd, hlt, heq⟩
      · obtain rfl | hd := List.mem_cons.mp hd
        · exact hle
        · exact hleast d hd hlt
    case isFalse h =>
      obtain ⟨hcases, hle, hleast⟩ := ih s
      refine ⟨hcases.imp_right fun ⟨d, hd, hlt, heq⟩ => ⟨d, .tail _ hd, hlt, heq⟩, hle, fun d hd hlt => ?_⟩
      obtain rfl | hd := List.mem_cons.mp hd
      · exact hle.trans (Nat.not_lt.mp fun hs => h ⟨hlt, hs⟩)
      · exact hleast d hd hlt

/-- After a candidate that fails the search ends, and there is no region behind; or it goes on at the nearest end
of a region. -/
theorem Tame.nextFree (T : Tame regions search size align) (ht : Tried regions search size align t)
    (hfails : Fails regions search size t) :
    (nextFree regions t = 2 ^ 32 - 1 ∧ ∀ c ∈ regions, c.endAddr ≤ t) ∨
      nextFree regions t < 2 ^ 32 - 1 ∧ (∃ c ∈ regions, nextFree regions t = c.endAddr) ∧
        t < nextFree regions t ∧ ∀ c ∈ regions, t < c.endAddr → nextFree regions t ≤ c.endAddr := by
  obtain ⟨hcases, -, hleast⟩ := nextEnd_spec t regions (2 ^ 64 - 1)
  have hnext : ∀ c ∈ regions, t < c.endAddr → nextEnd t regions (2 ^ 64 - 1) = c.endAddr → c.endAddr < 2 ^ 32 - 1 :=
    fun c hc hlt heq => T.next t ht hfails c hc hlt fun d hd hlt' => heq ▸ hleast d hd hlt'
  rw [Bootstrap.nextFree]
  by_cases hany : ∃ c ∈ regions, t < c.endAddr
  · obtain heq | ⟨c, hc, hlt, heq⟩ := hcases
    · -- an end of a region that is all ones is the nearest one
      obtain ⟨c, hc, hlt, hmin⟩ : ∃ c ∈ regions, t < c.endAddr ∧
          ∀ d ∈ regions, t < d.endAddr → c.endAddr ≤ d.endAddr := by
        obtain ⟨c, hc, hlt⟩ := hany
        have hne : ∃ e, ∃ c ∈ regions, t < c.endAddr ∧ c.endAddr = e := ⟨_, c, hc, hlt, rfl⟩
        obtain ⟨c, hc, hlt, heq⟩ := Nat.find_spec hne
        exact ⟨c, hc, hlt, fun d hd hlt' => heq ▸ Nat.find_min' hne ⟨d, hd, hlt', rfl⟩⟩
      have hsmall := T.next t ht hfails c hc hlt hmin
      have hle := hleast c hc hlt
      omega
    · have hsmall := hnext c hc hlt heq
      rw [heq, Nat.mod_eq_of_lt (by omega)]
      exact .inr ⟨hsmall, ⟨c, hc, rfl⟩, hlt, fun d hd hlt' => heq ▸ hleast d hd hlt'⟩
  · push Not at hany
    obtain heq | ⟨c, hc, hlt, -⟩ := hcases
    · exact .inl ⟨by rw [heq]; rfl, hany⟩
    · exact absurd (hany c hc) (Nat.not_le.mpr hlt)

/-! ## The whole search -/

/-- The result is the first candidate that fits, and 0 if there is none. -/
def FirstFit (regions : List Region) (search : Region) (size align r : Nat) : Prop :=
  Tried regions search size align r ∧ FitsAt regions search size r ∨
    r = 0 ∧ ∀ t, Candidate regions search align t → ¬ FitsAt regions search size t

/-- The number of regions that end behind `t`. -/
def regionsBehind (regions : List Region) (t : Nat) : Nat := regions.countP fun c => t < c.endAddr

theorem regionsBehind_lt {c : Region} (hc : c ∈ regions) (hlt : t < c.endAddr) (hle : c.endAddr ≤ t') :
    regionsBehind regions t' < regionsBehind regions t := by
  induction regions with
  | nil => cases hc
  | cons d regions ih =>
    have hmono : regionsBehind regions t' ≤ regionsBehind regions t :=
      List.countP_mono_left fun c _ h => by simp only [decide_eq_true_eq] at h ⊢; omega
    simp only [regionsBehind, List.countP_cons, decide_eq_true_eq] at ih hmono ⊢
    obtain rfl | hc := List.mem_cons.mp hc
    · rw [if_neg (by omega), if_pos hlt]
      omega
    · have hless := ih hc
      split <;> split <;> omega

theorem findFreeFrom_spec (T : Tame regions search size align) (halign : align < 64) (hsize : 0 < size)
    (hs : s + 2 ^ align ≤ 2 ^ 64) (ht : Tried regions search size align (roundedUp s align)) :
    ∃ r, Returns (fun fuel => findFreeFrom regions search.endAddr size align fuel s) r ∧
      FirstFit regions search size align r := by
  induction hn : regionsBehind regions (roundedUp s align) using Nat.strong_induction_on generalizing s with | _ n ih
  generalize hts : roundedUp s align = t at ht hn
  have halignUp : alignUp s align = t := (alignUp_eq hs).trans hts
  obtain ⟨hblock, hinside⟩ := T.block t ht
  have hlast : (t + size + (2 ^ 64 - 1)) % 2 ^ 64 = t + size - 1 := by omega
  have hround : ∀ fuel, findFreeFrom regions search.endAddr size align (fuel + 1) s =
      if t + size - 1 > search.endAddr then some 0
      else if testFit regions t size then some t
      else if nextFree regions t = 2 ^ 32 - 1 then some 0
      else findFreeFrom regions search.endAddr size align fuel (nextFree regions t) := fun fuel => by
    rw [findFreeFrom, halignUp, hlast]
  by_cases hrange : t + size ≤ search.endAddr + 1
  swap
  · refine ⟨0, (Returns.const _).round fun fuel => ?_, .inr ⟨rfl, fun t' ht' F => ?_⟩⟩
    · rw [hround, if_pos (by omega)]
    · by_cases hlt : t' < t
      · exact (ht.2 t' hlt ht').2 F
      · have hle := F.last
        omega
  have hfit : testFit regions t size = true ↔ ∀ c ∈ regions, c.endAddr < t ∨ t + size < c.beginAddr :=
    testFit_eq (hinside hrange)
  by_cases hdisjoint : ∀ c ∈ regions, c.endAddr < t ∨ t + size < c.beginAddr
  · refine ⟨t, (Returns.const _).round fun fuel => ?_, .inl ⟨ht, hrange, hdisjoint⟩⟩
    rw [hround, if_neg (by omega), if_pos (hfit.mpr hdisjoint)]
  have hfails : Fails regions search size t := ⟨hrange, fun F => hdisjoint F.disjoint⟩
  have hnofit : ¬ testFit regions t size = true := fun h => hdisjoint (hfit.mp h)
  obtain ⟨hnext, hnone⟩ | ⟨hnext, ⟨c, hc, heq⟩, hlt, hleast⟩ := T.nextFree ht hfails
  · refine ⟨0, (Returns.const _).round fun fuel => ?_, .inr ⟨rfl, fun t' ht' F => ?_⟩⟩
    · rw [hround, if_neg (by omega), if_neg hnofit, if_pos hnext]
    · obtain hlt | rfl | hgt := Nat.lt_trichotomy t' t
      · exact (ht.2 t' hlt ht').2 F
      · exact hfails.2 F
      · obtain ⟨c, hc, hlt, -⟩ := ht'.behind ht.1 hgt
        exact absurd (hnone c hc) (Nat.not_le.mpr hlt)
  · rw [heq] at hnext hlt hleast
    have hpow : 2 ^ align ≤ 2 ^ 63 := Nat.pow_le_pow_right (by decide) (by omega)
    have hbegin : search.beginAddr ≤ c.endAddr :=
      ((le_roundedUp _ align).trans ht.1.le).trans hlt.le
    have htried : Tried regions search size align (roundedUp c.endAddr align) := by
      refine ⟨.inr ⟨c, hc, hbegin, rfl⟩, fun t' hlt' ht' => ?_⟩
      obtain hless | rfl | hgt := Nat.lt_trichotomy t' t
      · exact ht.2 t' hless ht'
      · exact hfails
      · obtain ⟨d, hd, hlt, rfl⟩ := ht'.behind ht.1 hgt
        exact absurd (roundedUp_mono (hleast d hd hlt)) (Nat.not_le.mpr hlt')
    have hless : regionsBehind regions (roundedUp c.endAddr align) < n :=
      hn ▸ regionsBehind_lt hc hlt (le_roundedUp ..)
    obtain ⟨r, hrun, hr⟩ := ih _ hless (by omega) htried rfl
    refine ⟨r, hrun.round fun fuel => ?_, hr⟩
    rw [hround, if_neg (by omega), if_neg hnofit, heq, if_neg (by omega)]

theorem findFree_spec (T : Tame regions search size align) (halign : align < 64) (hsize : 0 < size) :
    ∃ r, Returns (fun fuel => findFree regions search size align fuel) r ∧
      FirstFit regions search size align r :=
  findFreeFrom_spec T halign hsize T.start
    ⟨.inl rfl, fun _ hlt ht => absurd ht.le (Nat.not_le.mpr hlt)⟩

/-- A search that comes to no address which is too large finds a block as it should if and only if there is no
free block, or one of the candidates fits with a byte behind it and the first of them is not at 0. -/
theorem finds_iff_fits (T : Tame regions search size align) (halign : align < 64) (hsize : 0 < size) :
    Finds regions search size align ↔ (∀ t ≠ 0, ¬ FreeBlock regions search size align t) ∨
      (∃ t, Candidate regions search align t ∧ FitsAt regions search size t) ∧
        ¬ (Candidate regions search align 0 ∧ FitsAt regions search size 0) := by
  obtain ⟨r, hrun, hr⟩ := findFree_spec T halign hsize
  constructor
  · rintro ⟨r', hrun', -, hcomplete⟩
    obtain rfl := hrun.unique hrun'
    by_cases hzero : r = 0
    · exact .inl (hcomplete hzero)
    · obtain ⟨ht, F⟩ | ⟨h, -⟩ := hr
      · exact .inr ⟨⟨r, ht.1, F⟩, fun ⟨hzero', F'⟩ => (ht.2 0 (Nat.pos_of_ne_zero hzero) hzero').2 F'⟩
      · exact absurd h hzero
  · intro H
    refine ⟨r, hrun, fun hzero => ?_, fun hzero => ?_⟩
    · obtain ⟨ht, F⟩ | ⟨h, -⟩ := hr
      · exact ⟨ht.1.aligned, (le_roundedUp _ align).trans ht.1.le, F.last,
          fun c hc => (F.disjoint c hc).imp_right Nat.le_of_lt⟩
      · exact absurd h hzero
    · obtain hnone | ⟨⟨t, ht, F⟩, hfirst⟩ := H
      · exact hnone
      · obtain ⟨ht', F'⟩ | ⟨-, hnone⟩ := hr
        · exact absurd ⟨hzero ▸ ht'.1, hzero ▸ F'⟩ hfirst
        · exact absurd F (hnone t ht)

end L4env.Bootstrap
