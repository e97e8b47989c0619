import L4env.Roottask.Reserve

/-!
# What a reservation finds

Both searches visit the aligned chunks of a range in order and leave out only chunks with a page that
was in the way. So a chunk they find is the first one in their order, and if they find none there is
none.
-/

namespace L4env.Roottask.Memmap

variable {m m' : Memmap} {t : Owner} {a b n size align top low : Nat}

/-- All pages of the chunk at `b` can be taken, one by one. -/
def Chunk (m : Memmap) (t : Owner) (b size : Nat) : Prop :=
  ∀ x, 4096 ∣ x → b ≤ x → x < b + size → m.usable t x = true

theorem Chunk.of_pages (hb : 4096 ∣ b) (h : ∀ k < n, m.usable t (b + k * 4096) = true) :
    m.Chunk t b (n * 4096) := by
  intro x hx hle hlt
  have hk := h ((x - b) / 4096) (by omega)
  rwa [show b + (x - b) / 4096 * 4096 = x by omega] at hk

/-! ## One chunk -/

/-- The walk upwards goes through the pages in order. -/
theorem scanUp_spec (m : Memmap) (t : Owner) (size more a : Nat) (h : a + (more + 1) * 4096 < 2 ^ 32) :
    m.scanUp t size more a = .found (Word.sub (a + more * 4096) (Word.sub size 4096)) ∧
        (∀ k < more + 1, m.usable t (a + k * 4096) = true) ∨
      ∃ k < more + 1, m.scanUp t size more a = .stopped (a + k * 4096) ∧
        m.usable t (a + k * 4096) = false := by
  induction more generalizing a with
  | zero =>
    cases hu : m.usable t a with
    | true =>
      left
      refine ⟨by simp [scanUp, hu], fun k hk => ?_⟩
      rw [show k = 0 by omega, Nat.zero_mul, Nat.add_zero, hu]
    | false => exact .inr ⟨0, by omega, by simp [scanUp, hu], by simpa using hu⟩
  | succ more ih =>
    cases hu : m.usable t a with
    | true =>
      have hadd : Word.add a L4_PAGESIZE = a + 4096 := Word.add_eq (b := 4096) (by omega)
      have hnext : m.scanUp t size (more + 1) a = m.scanUp t size more (a + 4096) := by
        rw [scanUp, if_pos hu, hadd]
      rw [hnext]
      obtain ⟨hfound, hall⟩ | ⟨k, hk, hstop, hbad⟩ := ih (a + 4096) (by omega)
      · left
        refine ⟨by rw [hfound]; congr 2; omega, fun k hk => ?_⟩
        cases k with
        | zero => simpa using hu
        | succ k =>
          have := hall k (by omega)
          rwa [show a + (k + 1) * 4096 = a + 4096 + k * 4096 by omega]
      · right
        have heq : a + (k + 1) * 4096 = a + 4096 + k * 4096 := by omega
        exact ⟨k + 1, by omega, by rw [hstop, heq], by rw [heq]; exact hbad⟩
    | false => exact .inr ⟨0, by omega, by simp [scanUp, hu], by simpa using hu⟩

/-- The walk downwards goes through the pages from behind. -/
theorem scanDown_spec (m : Memmap) (t : Owner) (more b : Nat) (h : b + (more + 1) * 4096 < 2 ^ 32) :
    m.scanDown t more (b + (more + 1) * 4096) = .found b ∧
        (∀ k < more + 1, m.usable t (b + k * 4096) = true) ∨
      ∃ k < more + 1, m.scanDown t more (b + (more + 1) * 4096) = .stopped (b + k * 4096) ∧
        m.usable t (b + k * 4096) = false := by
  induction more generalizing b with
  | zero =>
    have hsub : Word.sub (b + (0 + 1) * 4096) L4_PAGESIZE = b :=
      (Word.sub_eq (b := 4096) (by omega) (by omega)).trans (by omega)
    cases hu : m.usable t b with
    | true =>
      left
      refine ⟨by simp only [scanDown, hsub, hu, if_true], fun k hk => ?_⟩
      rw [show k = 0 by omega, Nat.zero_mul, Nat.add_zero, hu]
    | false =>
      refine .inr ⟨0, by omega, ?_, by simpa using hu⟩
      simp only [scanDown, hsub, hu, Nat.zero_mul, Nat.add_zero]
      rfl
  | succ more ih =>
    have hnext : b + (more + 1 + 1) * 4096 = b + (more + 1) * 4096 + 4096 := by
      rw [Nat.add_mul (more + 1), Nat.one_mul, Nat.add_assoc]
    rw [hnext] at h ⊢
    have hsub : Word.sub (b + (more + 1) * 4096 + 4096) L4_PAGESIZE = b + (more + 1) * 4096 :=
      (Word.sub_eq (b := 4096) (Nat.le_add_left ..) h).trans (Nat.add_sub_cancel ..)
    cases hu : m.usable t (b + (more + 1) * 4096) with
    | true =>
      have hscan : m.scanDown t (more + 1) (b + (more + 1) * 4096 + 4096) =
          m.scanDown t more (b + (more + 1) * 4096) := by
        simp only [scanDown, hsub, hu, if_true]
      rw [hscan]
      obtain ⟨hfound, hall⟩ | ⟨k, hk, hstop, hbad⟩ := ih b (Nat.lt_of_le_of_lt (Nat.le_add_right ..) h)
      · left
        refine ⟨hfound, fun k hk => ?_⟩
        rcases Nat.lt_succ_iff_lt_or_eq.mp hk with hk | rfl
        · exact hall k hk
        · exact hu
      · exact .inr ⟨k, by omega, hstop, hbad⟩
    | false =>
      refine .inr ⟨more + 1, by omega, ?_, hu⟩
      simp only [scanDown, hsub, hu]
      rfl

/-! ## The searches -/

theorem dvd_of_align (hal : 12 ≤ align) (h : 2 ^ align ∣ b) : 4096 ∣ b :=
  (Nat.pow_dvd_pow (m := 12) 2 hal).trans h

/-- A chunk with a page that is in the way cannot be taken. -/
theorem not_chunk {x : Nat} (hx : 4096 ∣ x) (hbad : m.usable t x = false) (hle : b ≤ x)
    (hlt : x < b + size) : ¬m.Chunk t b size := fun h => by
  rw [h x hx hle hlt] at hbad
  cases hbad

/-- The search upwards finds the first chunk. -/
theorem searchUp_spec (hal : 12 ≤ align) (hal' : align < 32) (hsize : 0 < n)
    (hword : top + n * 4096 + 2 ^ align ≤ 2 ^ 32) (ha : 4096 ∣ a) (htop : a ≤ top + n * 4096) :
    ∃ r, Returns (fun fuel => m.searchUp t (n * 4096) align top fuel a) r ∧
      (∀ b, r = some b → 2 ^ align ∣ b ∧ a ≤ b ∧ b ≤ top ∧ m.Chunk t b (n * 4096)) ∧
      (r = none → ∀ b, 2 ^ align ∣ b → a ≤ b → b ≤ top → ¬m.Chunk t b (n * 4096)) := by
  -- what is left of the range gets smaller
  induction hd : top + n * 4096 - a using Nat.strong_induction_on generalizing a with
  | _ d ih =>
    obtain ⟨hdvd, hge, -⟩ := Word.roundUp_spec (v := a) hal' (by omega)
    have hup {b : Nat} (hb : 2 ^ align ∣ b) (hab : a ≤ b) (hbt : b ≤ top) :=
      (Word.roundUp_le hal' hb hab (by omega)).2
    generalize hbase : Word.roundUp a (2 ^ align) = base at hdvd hge hup
    by_cases hend : top < base
    · refine ⟨none, .round (.const none) fun fuel => ?_, nofun, fun _ b hb hab hbt _ => ?_⟩
      · simp only [searchUp, hbase, if_pos hend]
      · exact absurd (hup hb hab hbt) (by omega)
    · have hpage := dvd_of_align hal hdvd
      have hpages : n * 4096 / L4_PAGESIZE - 1 = n - 1 := by
        rw [Nat.mul_div_cancel n (by decide)]
      obtain ⟨hfound, hall⟩ | ⟨k, hk, hstop, hbad⟩ :=
        scanUp_spec m t (n * 4096) (n - 1) base (by omega)
      · have hat : Word.sub (base + (n - 1) * 4096) (Word.sub (n * 4096) 4096) = base := by
          rw [Word.sub_eq (b := 4096) (by omega) (by omega), Word.sub_eq (by omega) (by omega)]
          omega
        rw [hat] at hfound
        refine ⟨some base, .round (.const (some base)) fun fuel => ?_, fun b hb => ?_, nofun⟩
        · simp only [searchUp, hbase, if_neg hend, hpages, hfound]
        · cases hb
          exact ⟨hdvd, hge, by omega, .of_pages hpage fun k hk => hall k (by omega)⟩
      · -- the search goes on behind the page that is in the way
        have hnext : Word.add (base + k * 4096) L4_PAGESIZE = base + k * 4096 + 4096 :=
          Word.add_eq (b := 4096) (by omega)
        obtain ⟨r, hr, hsome, hnone⟩ :=
          ih _ (by omega) (a := base + k * 4096 + 4096) (by omega) (by omega) rfl
        refine ⟨r, hr.round fun fuel => ?_, fun b hb => ?_, fun hr b hb hab hbt => ?_⟩
        · simp only [searchUp, hbase, if_neg hend, hpages, hstop, hnext]
        · obtain ⟨hdvd, hle, htop, hchunk⟩ := hsome b hb
          exact ⟨hdvd, by omega, htop, hchunk⟩
        · have hbb := hup hb hab hbt
          have hbp := dvd_of_align hal hb
          by_cases hin : b ≤ base + k * 4096
          · exact not_chunk (by omega) hbad hin (by omega)
          · exact hnone hr b hb (by omega) hbt

/-- The search downwards finds the last chunk. It keeps to the lower end of the range if that is aligned. -/
theorem searchDown_spec (hal : 12 ≤ align) (hal' : align < 32) (hsize : 0 < n)
    (hlow : low + n * 4096 < 2 ^ 32) (ha : a < 2 ^ 32) :
    ∃ r, Returns (fun fuel => m.searchDown t (n * 4096) align low fuel a) r ∧
      (∀ b, r = some b → 2 ^ align ∣ b ∧ b + n * 4096 ≤ a ∧ (2 ^ align ∣ low → low ≤ b) ∧
        m.Chunk t b (n * 4096)) ∧
      (r = none → ∀ b, 2 ^ align ∣ b → low ≤ b → b + n * 4096 ≤ a → ¬m.Chunk t b (n * 4096)) := by
  induction a using Nat.strong_induction_on with
  | _ a ih =>
    have hend : Word.add low (n * 4096) = low + n * 4096 := Word.add_eq hlow
    by_cases hout : a < low + n * 4096
    · refine ⟨none, .round (.const none) fun fuel => ?_, nofun, fun _ b _ hlb hba _ => by omega⟩
      rw [searchDown, hend, if_pos hout]
    · have hsub : Word.sub a (n * 4096) = a - n * 4096 := Word.sub_eq (by omega) ha
      have hdvd := Word.dvd_roundDown (v := a - n * 4096) (by omega) hal'
      have hle := Word.roundDown_le (v := a - n * 4096) (by omega) hal'
      have hdown {b : Nat} (hb : 2 ^ align ∣ b) (hba : b ≤ a - n * 4096) :=
        Word.le_roundDown (v := a - n * 4096) (by omega) hal' hb hba
      generalize hbase : Word.roundDown (a - n * 4096) (2 ^ align) = base at hdvd hle hdown
      have hpage := dvd_of_align hal hdvd
      have hpages : n * 4096 / L4_PAGESIZE - 1 = n - 1 := by
        rw [Nat.mul_div_cancel n (by decide)]
      have hstart : Word.add base (n * 4096) = base + (n - 1 + 1) * 4096 := by
        rw [Word.add_eq (by omega), Nat.sub_add_cancel hsize]
      obtain ⟨hfound, hall⟩ | ⟨k, hk, hstop, hbad⟩ := scanDown_spec m t (n - 1) base (by omega)
      · refine ⟨some base, .round (.const (some base)) fun fuel => ?_, fun b hb => ?_, nofun⟩
        · simp only [searchDown, hend, if_neg hout, hsub, hbase, hpages, hstart, hfound]
        · cases hb
          exact ⟨hdvd, by omega, fun hal => hdown hal (by omega),
            .of_pages hpage fun k hk => hall k (by omega)⟩
      · -- the search goes on in front of the page that is in the way
        obtain ⟨r, hr, hsome, hnone⟩ := ih (base + k * 4096) (by omega) (by omega)
        refine ⟨r, hr.round fun fuel => ?_, fun b hb => ?_, fun hr b hb hlb hba => ?_⟩
        · simp only [searchDown, hend, if_neg hout, hsub, hbase, hpages, hstart, hstop]
        · obtain ⟨hdvd, hle, hlow, hchunk⟩ := hsome b hb
          exact ⟨hdvd, by omega, hlow, hchunk⟩
        · have hbb := hdown hb (by omega)
          by_cases hin : b + n * 4096 ≤ base + k * 4096
          · exact hnone hr b hb hlb hin
          · exact not_chunk (by omega) hbad (by omega) (by omega)

/-! ## The range -/

theorem reserveAlign_bounds (s : Nat) : 12 ≤ reserveAlign s ∧ reserveAlign s ≤ 28 := by
  unfold reserveAlign
  dsimp only
  split
  · omega
  · split <;> omega

theorem reserveSize_eq {s : Nat} (hs : s < 2 ^ 32) : reserveSize s = s / 4096 * 4096 :=
  Word.roundDown_two_pow (k := 12) hs (by decide)

/-- The end of a chunk is in front of `max_address` if it keeps to every limit. -/
theorem le_maxAddress {s high c : Nat} (hm : m.memHigh < 2 ^ 32) (hc : 4096 ∣ c) :
    c ≤ m.maxAddress s high ↔
      (high ≠ 0 → c ≤ high) ∧ c ≤ m.memHigh ∧ (reserveDma s = true → c ≤ 2 ^ 24) := by
  have hround {v : Nat} (hv : v < 2 ^ 32) : c ≤ Word.roundDown v L4_PAGESIZE ↔ c ≤ v :=
    ⟨fun h => h.trans (Word.roundDown_le (k := 12) hv (by decide)),
      fun h => Word.le_roundDown (k := 12) hv (by decide) hc h⟩
  unfold maxAddress
  dsimp only
  rw [hround (by split <;> split <;> omega)]
  split <;> split <;> simp_all <;> omega

theorem maxAddress_le (s high : Nat) (hm : m.memHigh < 2 ^ 32) :
    m.maxAddress s high ≤ m.memHigh ∧ 4096 ∣ m.maxAddress s high := by
  have hlt : (if reserveDma s then min (if high ≠ 0 then min m.memHigh high else m.memHigh) (2 ^ 24)
      else if high ≠ 0 then min m.memHigh high else m.memHigh) < 2 ^ 32 := by
    split <;> split <;> omega
  have hdvd : 4096 ∣ m.maxAddress s high := Word.dvd_roundDown (k := 12) hlt (by decide)
  exact ⟨((le_maxAddress hm hdvd).mp le_rfl).2.1, hdvd⟩

/-- A page-aligned address is behind the lower end of the range if it is behind `min_address`. -/
theorem minAddress_le {l b : Nat} (hl : l + 0xFFF < 2 ^ 32) (hb : 4096 ∣ b) :
    minAddress l ≤ b ↔ l ≤ b := by
  obtain ⟨hdvd, hle, hlt⟩ := Word.roundUp_spec (v := l) (k := 12) (by decide) (by omega)
  have hmin : minAddress l = Word.roundUp l (2 ^ 12) := rfl
  rw [hmin]
  generalize Word.roundUp l (2 ^ 12) = c at *
  constructor <;> intro h <;> omega

end L4env.Roottask.Memmap
