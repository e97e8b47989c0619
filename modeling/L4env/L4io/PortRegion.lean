import L4env.L4io.Res
import L4env.Util.Tiling

/-!
# Splitting a port region
-/

namespace L4env.L4io

variable {start length log2 k fuel fuel' : Nat} {chunks : List IoFpage}

/-! ## Alignment -/

theorem le_log2Start (start log2 : Nat) : start ≤ log2Start start log2 := by
  have hpos := Nat.two_pow_pos log2
  have h1 := Nat.div_add_mod (start + (2 ^ log2 - 1)) (2 ^ log2)
  have h2 := Nat.mod_lt (start + (2 ^ log2 - 1)) hpos
  rw [log2Start, Nat.mul_comm]
  omega

theorem log2Start_lt (start log2 : Nat) : log2Start start log2 < start + 2 ^ log2 := by
  have hpos := Nat.two_pow_pos log2
  have h1 := Nat.div_mul_le_self (start + (2 ^ log2 - 1)) (2 ^ log2)
  rw [log2Start]
  omega

theorem dvd_log2Start : 2 ^ log2 ∣ log2Start start log2 := Nat.dvd_mul_left _ _

/-- It is the first aligned address from `start` on. -/
theorem log2Start_le {c : Nat} (hc : 2 ^ log2 ∣ c) (h : start ≤ c) : log2Start start log2 ≤ c := by
  obtain ⟨q, rfl⟩ := hc
  have hpos := Nat.two_pow_pos log2
  rw [log2Start, Nat.mul_comm _ q]
  refine Nat.mul_le_mul_right _ (Nat.le_of_lt_succ ((Nat.div_lt_iff_lt_mul hpos).mpr ?_))
  rw [Nat.succ_mul, Nat.mul_comm]
  omega

theorem log2Start_eq_self (h : 2 ^ log2 ∣ start) : log2Start start log2 = start :=
  le_antisymm (log2Start_le h le_rfl) (le_log2Start start log2)

/-! ## The chunk -/

/-- The largest chunk inside the region, as far as sizes up to `2 ^ k` are concerned. -/
theorem findChunk_spec (start k : Nat) (hlen : 0 < length) :
    ∃ log2 ≤ k, findChunk start length k = some log2 ∧
      log2Start start log2 + 2 ^ log2 ≤ start + length ∧
      (log2 < k → start + length < log2Start start (log2 + 1) + 2 ^ (log2 + 1)) := by
  induction k with
  | zero =>
    have hfit : log2Start start 0 + 2 ^ 0 ≤ start + length := by
      rw [log2Start_eq_self (one_dvd _)]
      omega
    exact ⟨0, le_rfl, if_pos hfit, hfit, fun h => by omega⟩
  | succ k ih =>
    rw [findChunk]
    split_ifs with hfit
    · exact ⟨k + 1, le_rfl, rfl, hfit, fun h => by omega⟩
    · obtain ⟨log2, hle, heq, hfit', hmax⟩ := ih
      refine ⟨log2, by omega, heq, hfit', fun _ => ?_⟩
      rcases hle.eq_or_lt with rfl | hlt
      · exact Nat.lt_of_not_le hfit
      · exact hmax hlt

/-- One level of the recursion. -/
theorem processPortRegion_succ (hlen : length ≠ 0) {log2 : Nat}
    (hfind : findChunk start length length.log2 = some log2) {before behind : List IoFpage}
    (hbefore : processPortRegion fuel start (log2Start start log2 - start) = some before)
    (hbehind : processPortRegion fuel (log2Start start log2 + 2 ^ log2)
      (start + length - (log2Start start log2 + 2 ^ log2)) = some behind) :
    processPortRegion (fuel + 1) start length =
      some (before ++ iofpage (log2Start start log2) log2 :: behind) := by
  rw [processPortRegion, if_neg hlen, hfind]
  simp only [Option.bind_eq_bind, Option.bind_some, hbefore, hbehind]
  rfl

/-- The rest of the region on both sides is shorter, so the recursion ends. -/
theorem processPortRegion_total (start : Nat) (h : length < fuel) :
    ∃ chunks, processPortRegion fuel start length = some chunks := by
  induction fuel generalizing start length with
  | zero => omega
  | succ fuel ih =>
    rcases Nat.eq_zero_or_pos length with rfl | hlen
    · exact ⟨[], rfl⟩
    obtain ⟨log2, -, hfind, hfit, -⟩ := findChunk_spec start length.log2 hlen
    have hpos := Nat.two_pow_pos log2
    have hle := le_log2Start start log2
    obtain ⟨before, hbefore⟩ := ih start (show log2Start start log2 - start < fuel by omega)
    obtain ⟨behind, hbehind⟩ := ih (log2Start start log2 + 2 ^ log2)
      (show start + length - (log2Start start log2 + 2 ^ log2) < fuel by omega)
    exact ⟨_, processPortRegion_succ hlen.ne' hfind hbefore hbehind⟩

/-- The chunks of a region that is not empty are those around its largest one. -/
theorem processPortRegion_cases (hlen : 0 < length)
    (h : processPortRegion (fuel + 1) start length = some chunks) :
    ∃ log2 before behind, log2 ≤ length.log2 ∧ log2Start start log2 + 2 ^ log2 ≤ start + length ∧
      (log2 < length.log2 → start + length < log2Start start (log2 + 1) + 2 ^ (log2 + 1)) ∧
      processPortRegion fuel start (log2Start start log2 - start) = some before ∧
      processPortRegion fuel (log2Start start log2 + 2 ^ log2)
        (start + length - (log2Start start log2 + 2 ^ log2)) = some behind ∧
      chunks = before ++ iofpage (log2Start start log2) log2 :: behind := by
  obtain ⟨log2, hle, hfind, hfit, hmax⟩ := findChunk_spec start length.log2 hlen
  rw [processPortRegion, if_neg hlen.ne', hfind] at h
  simp only [Option.bind_eq_bind, Option.bind_some, Option.bind_eq_some_iff] at h
  obtain ⟨before, hbefore, behind, hbehind, heq⟩ := h
  exact ⟨log2, before, behind, hle, hfit, hmax, hbefore, hbehind, (Option.some.inj heq).symm⟩

/-! ## The chunks of a region -/

/-- A flexpage the kernel takes: its address is a multiple of its size. -/
def IoFpage.Aligned (p : IoFpage) : Prop := 2 ^ p.iosize ∣ p.iopage

theorem iofpage_eq {port size : Nat} (hp : port < 2 ^ 16) (hs : size < 2 ^ 6) :
    iofpage port size = ⟨port, size⟩ := by
  rw [iofpage, Nat.mod_eq_of_lt hp, Nat.mod_eq_of_lt hs]

/-- Inside the ports the chunks are aligned and follow each other without a gap. -/
theorem processPortRegion_tiles (hin : start + length ≤ 2 ^ 16)
    (h : processPortRegion fuel start length = some chunks) :
    Tiles IoFpage.iopage IoFpage.lastPort start chunks (start + length) ∧ ∀ p ∈ chunks, p.Aligned := by
  induction fuel generalizing start length chunks with
  | zero => cases h
  | succ fuel ih =>
    rcases Nat.eq_zero_or_pos length with rfl | hlen
    · obtain rfl : [] = chunks := Option.some.inj h
      exact ⟨rfl, nofun⟩
    obtain ⟨log2, before, behind, hle, hfit, -, hbefore, hbehind, rfl⟩ := processPortRegion_cases hlen h
    have hpos := Nat.two_pow_pos log2
    have hstart := le_log2Start start log2
    have hlog : log2 < 2 ^ 6 := by
      have : length.log2 < 17 := (Nat.log2_lt hlen.ne').mpr (by omega)
      omega
    obtain ⟨htb, hab⟩ := ih (by omega) hbefore
    obtain ⟨hte, hae⟩ := ih (by omega) hbehind
    have hchunk : iofpage (log2Start start log2) log2 = ⟨log2Start start log2, log2⟩ := iofpage_eq (by omega) hlog
    rw [hchunk]
    constructor
    · refine tiles_append.mpr ⟨log2Start start log2, ?_, rfl, ?_, ?_⟩
      · rw [Nat.add_sub_cancel' hstart] at htb
        exact htb
      · simp only [IoFpage.lastPort]
        omega
      · have hlast : log2Start start log2 + 2 ^ log2 - 1 + 1 = log2Start start log2 + 2 ^ log2 := by omega
        simp only [IoFpage.lastPort, hlast]
        rw [Nat.add_sub_cancel' hfit] at hte
        exact hte
    · intro p hp
      rcases List.mem_append.mp hp with hp | hp
      · exact hab p hp
      · rcases List.mem_cons.mp hp with rfl | hp
        · exact dvd_log2Start
        · exact hae p hp

/-! ## The number of chunks -/

/-- Where the region has at least `2 ^ log2` ports, `log2` is the largest size and a chunk of it fits, it is the
one that is found. -/
theorem log2_eq_of_fits {log2 : Nat} (hle : log2 ≤ length.log2)
    (hmax : log2 < length.log2 → start + length < log2Start start (log2 + 1) + 2 ^ (log2 + 1)) {c : Nat}
    (hc : 2 ^ length.log2 ∣ c) (hsc : start ≤ c) (hfit : c + 2 ^ length.log2 ≤ start + length) :
    log2 = length.log2 := by
  by_contra hne
  have hlt := hmax (by omega)
  have hdvd : 2 ^ (log2 + 1) ∣ c := (Nat.pow_dvd_pow 2 (by omega)).trans hc
  have h1 := log2Start_le hdvd hsc
  have h2 : 2 ^ (log2 + 1) ≤ 2 ^ length.log2 := Nat.pow_le_pow_right (by omega) (by omega)
  omega

theorem log2_bounds (hlen : 0 < length) : 2 ^ length.log2 ≤ length ∧ length < 2 ^ (length.log2 + 1) :=
  ⟨Nat.log2_self_le hlen.ne', Nat.lt_log2_self⟩

theorem processPortRegion_zero (h : processPortRegion fuel start 0 = some chunks) : chunks = [] := by
  cases fuel with
  | zero => cases h
  | succ fuel => exact (Option.some.inj h).symm

/-- A region from an aligned address on has at most one chunk of each size. -/
theorem length_of_aligned_start (hk : 2 ^ (k - 1) ∣ start) (hlen : length < 2 ^ k)
    (h : processPortRegion fuel start length = some chunks) : chunks.length ≤ k := by
  induction fuel generalizing start length chunks k with
  | zero => cases h
  | succ fuel ih =>
    rcases Nat.eq_zero_or_pos length with rfl | hpos
    · rw [processPortRegion_zero h]
      exact Nat.zero_le k
    obtain ⟨log2, before, behind, hle, hfit, hmax, hbefore, hbehind, rfl⟩ := processPortRegion_cases hpos h
    obtain ⟨hlow, hhigh⟩ := log2_bounds hpos
    have hlk : length.log2 < k := (Nat.log2_lt hpos.ne').mpr hlen
    have hdvd : 2 ^ length.log2 ∣ start := (Nat.pow_dvd_pow 2 (by omega)).trans hk
    obtain rfl := log2_eq_of_fits hle hmax hdvd le_rfl (by omega)
    rw [log2Start_eq_self hdvd] at hbefore hbehind
    rw [Nat.sub_self] at hbefore
    have hrest := ih (k := length.log2) ((Nat.pow_dvd_pow 2 (Nat.sub_le _ 1)).trans
      (Nat.dvd_add hdvd dvd_rfl)) (by rw [Nat.pow_succ] at hhigh; omega) hbehind
    rw [processPortRegion_zero hbefore, List.nil_append, List.length_cons]
    omega

/-- A region up to an aligned address has at most one chunk of each size. -/
theorem length_of_aligned_end (hk : 2 ^ (k - 1) ∣ start + length) (hlen : length < 2 ^ k)
    (h : processPortRegion fuel start length = some chunks) : chunks.length ≤ k := by
  induction fuel generalizing start length chunks k with
  | zero => cases h
  | succ fuel ih =>
    rcases Nat.eq_zero_or_pos length with rfl | hpos
    · rw [processPortRegion_zero h]
      exact Nat.zero_le k
    obtain ⟨log2, before, behind, hle, hfit, hmax, hbefore, hbehind, rfl⟩ := processPortRegion_cases hpos h
    obtain ⟨hlow, hhigh⟩ := log2_bounds hpos
    have hlk : length.log2 < k := (Nat.log2_lt hpos.ne').mpr hlen
    have hdvd : 2 ^ length.log2 ∣ start + length := (Nat.pow_dvd_pow 2 (by omega)).trans hk
    obtain ⟨c, hc⟩ : ∃ c, c + 2 ^ length.log2 = start + length := ⟨start + length - 2 ^ length.log2, by omega⟩
    have hdc : 2 ^ length.log2 ∣ c := (Nat.dvd_add_left dvd_rfl).mp (hc ▸ hdvd)
    obtain rfl := log2_eq_of_fits hle hmax hdc (by omega) hc.le
    -- the chunk is the last one
    have hstart : log2Start start length.log2 = c := by
      refine le_antisymm (log2Start_le hdc (by omega)) (Nat.le_of_not_lt fun hlt => ?_)
      have hgap := Nat.le_of_dvd (Nat.sub_pos_of_lt hlt) (Nat.dvd_sub hdc dvd_log2Start)
      have hge := le_log2Start start length.log2
      rw [Nat.pow_succ] at hhigh
      omega
    rw [hstart] at hbefore hbehind
    rw [hc, Nat.sub_self] at hbehind
    have hrest := ih (k := length.log2) (by
      rw [Nat.add_sub_cancel' (by omega)]
      exact (Nat.pow_dvd_pow 2 (Nat.sub_le _ 1)).trans hdc) (by rw [Nat.pow_succ] at hhigh; omega) hbefore
    rw [processPortRegion_zero hbehind, List.length_append, List.length_singleton]
    omega

/-- The array of flexpages has room for every region. -/
theorem length_le_maxFpages (hlen : length < 2 ^ 16)
    (h : processPortRegion fuel start length = some chunks) : chunks.length ≤ maxFpages := by
  cases fuel with
  | zero => cases h
  | succ fuel =>
    rcases Nat.eq_zero_or_pos length with rfl | hpos
    · rw [processPortRegion_zero h]
      exact Nat.zero_le _
    obtain ⟨log2, before, behind, hle, hfit, hmax, hbefore, hbehind, rfl⟩ := processPortRegion_cases hpos h
    obtain ⟨-, hhigh⟩ := log2_bounds hpos
    have hdvd : 2 ^ log2 ∣ log2Start start log2 := dvd_log2Start
    have hge := le_log2Start start log2
    have hlog : length.log2 < 16 := (Nat.log2_lt hpos.ne').mpr hlen
    have hfirst := length_of_aligned_end (k := log2) (by
      rw [Nat.add_sub_cancel' hge]
      exact (Nat.pow_dvd_pow 2 (Nat.sub_le _ 1)).trans hdvd)
      (by have := log2Start_lt start log2; omega) hbefore
    have hlast := length_of_aligned_start (k := log2 + 1) (Nat.dvd_add hdvd dvd_rfl) (by
      rcases hle.eq_or_lt with rfl | hlt
      · omega
      · -- a chunk of twice the size would begin here or at the next multiple of the size
        have hnext : log2Start start (log2 + 1) ≤ log2Start start log2 + 2 ^ log2 := by
          obtain ⟨q, hq⟩ := hdvd
          rcases Nat.even_or_odd' q with ⟨r, rfl | rfl⟩
          · refine (log2Start_le ⟨r, ?_⟩ hge).trans (Nat.le_add_right _ _)
            rw [hq, Nat.pow_succ]
            ring
          · have heq : log2Start start log2 + 2 ^ log2 = 2 ^ (log2 + 1) * (r + 1) := by
              rw [hq, Nat.pow_succ]
              ring
            exact log2Start_le ⟨r + 1, heq⟩ (hge.trans (Nat.le_add_right _ _))
        have := hmax hlt
        omega) hbehind
    rw [List.length_append, List.length_cons, maxFpages]
    omega

/-- `process_port_region`: it ends, the chunks fit into the array, and inside the ports they are aligned, disjoint
and cover the region. -/
structure Splits (start length : Nat) (chunks : List IoFpage) : Prop where
  result : processPortRegion (length + 1) start length = some chunks
  room : chunks.length ≤ maxFpages
  aligned : start + length ≤ 2 ^ 16 → ∀ p ∈ chunks, p.Aligned
  disjoint : start + length ≤ 2 ^ 16 → chunks.Pairwise fun p q => p.lastPort < q.iopage
  cover : start + length ≤ 2 ^ 16 → ∀ port, (∃ p ∈ chunks, p.iopage ≤ port ∧ port ≤ p.lastPort) ↔
    start ≤ port ∧ port < start + length

theorem exists_splits (start : Nat) (hlen : length < 2 ^ 16) : ∃ chunks, Splits start length chunks := by
  obtain ⟨chunks, h⟩ := processPortRegion_total start (Nat.lt_succ_self length)
  refine ⟨chunks, h, length_le_maxFpages hlen h, fun hin => (processPortRegion_tiles hin h).2, fun hin => ?_,
    fun hin port => ?_⟩
  · exact (processPortRegion_tiles hin h).1.pairwise
  · have ht := (processPortRegion_tiles hin h).1
    refine ⟨fun ⟨p, hp, h1, h2⟩ => ?_, fun ⟨h1, h2⟩ => ht.cover h1 h2⟩
    have := ht.bounds hp
    omega

end L4env.L4io
