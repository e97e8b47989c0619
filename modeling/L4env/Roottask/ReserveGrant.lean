import L4env.Roottask.PagerGrant
import L4env.Roottask.ReserveSpec

/-!
# A reservation hands out a proper chunk

The chunk that `reserve_range` returns is free, aligned and within the limits, and it belongs to the
requester afterwards if the quota covers it as a whole. If nothing is returned there was no such chunk.
-/

namespace L4env.Roottask.Memmap

variable {m m' : Memmap} {t : Owner} {b n s low high : Nat} {l : List Nat}

/-! ## Taking the chunk -/

/-- The pages of a chunk. -/
theorem chunkPages_eq (h : b + n * 4096 < 2 ^ 32) :
    chunkPages b (n * 4096) = (List.range n).map fun k => b + k * 4096 := by
  have hcount : (Word.add b (n * 4096) - b + (L4_PAGESIZE - 1)) / L4_PAGESIZE = n := by
    rw [Word.add_eq h, Nat.add_sub_cancel_left]
    show (n * 4096 + 4095) / 4096 = n
    omega
  rw [chunkPages, hcount]

theorem allocOf_page : m.allocOf 12 b t = m.memmapAllocPage b t := if_neg (by decide)

/-- If no page panics the loop is the one of a request for RAM. -/
theorem allocChunk_secondPass (h : m.secondPass t 12 l = some m') : m.allocChunk t l = m' := by
  induction l generalizing m with
  | nil => exact Option.some.inj h
  | cons a l ih =>
    rw [secondPass, quotaFreeMem_snd, allocOf_page] at h
    rw [allocChunk, List.foldl_cons]
    split at h
    · exact ih h
    · cases h

/-- A chunk of free pages. -/
structure Free (m : Memmap) (b size : Nat) : Prop where
  memory : b + size ≤ m.memHigh
  free : ∀ x, 4096 ∣ x → b ≤ x → x < b + size → m.memmapOwnerPage x = O_FREE

/-- Within the quota as a whole, so also page by page. -/
theorem Free.chunk (h : m.Free b (n * 4096)) (hb : 4096 ∣ b) (hm : m.memHigh < 2 ^ 32)
    (hq : m.quotaCheckMem t b (n * 4096) = true) : m.Chunk t b (n * 4096) := by
  intro x hx hle hlt
  have hmem := h.memory
  rw [quotaCheckMem, if_pos (by omega)] at hq
  obtain ⟨hmax, hcurrent, hlow, hhigh⟩ := of_decide_eq_true hq
  have hcheck : m.quotaCheckMem t x L4_PAGESIZE = true := by
    rw [quotaCheckMem, if_pos (by omega)]
    refine decide_eq_true ⟨?_, ?_, by omega, ?_⟩
    · show 4096 ≤ _
      omega
    · show _ ≤ _ - 4096
      omega
    · show (x + 4096 + (2 ^ 32 - 1)) % 2 ^ 32 ≤ _
      omega
  rw [usable, hcheck, h.free x hx hle hlt]
  rfl

theorem Chunk.free (h : m.Chunk t b n) (hmem : b + n ≤ m.memHigh) : m.Free b n := by
  refine ⟨hmem, fun x hx hle hlt => ?_⟩
  have hu := h x hx hle hlt
  rw [usable, Bool.and_eq_true] at hu
  exact of_decide_eq_true hu.2

/-- The loop takes a free chunk that the quota covers as a whole. -/
theorem Free.allocChunk (h : m.Free b (n * 4096)) (ht : O_USER ≤ t) (hb : 4096 ∣ b) (hn : 0 < n)
    (hm : m.memHigh < 2 ^ 32) (hwords : ∀ high, (m.quotaFor t high).max < 2 ^ 32)
    (hclean : ∀ x, 4096 ∣ x → b ≤ x → x < b + n * 4096 → m.pages (x / 4096) = O_FREE)
    (hq : m.quotaCheckMem t b (n * 4096) = true) :
    ∀ x, 4096 ∣ x → b ≤ x → x < b + n * 4096 →
      (m.allocChunk t (chunkPages b (n * 4096))).memmapOwnerPage x = t := by
  have hmem := h.memory
  have hlow {x : Nat} (hx : x < b + n * 4096) : m.isHigh x = false :=
    decide_eq_false (by omega)
  rw [chunkPages_eq (by omega)]
  have hpages {x : Nat} (hx : x ∈ (List.range n).map fun k => b + k * 4096) :
      4096 ∣ x ∧ b ≤ x ∧ x < b + n * 4096 := by
    obtain ⟨k, hk, rfl⟩ := List.mem_map.mp hx
    have hk := List.mem_range.mp hk
    exact ⟨by omega, by omega, by omega⟩
  have hof (x : Nat) : m.ownerOf 12 x = m.memmapOwnerPage x := rfl
  rw [quotaCheckMem_eq, hlow (by omega)] at hq
  obtain ⟨hmax, hcurrent, hqlow, hqhigh⟩ := of_decide_eq_true hq
  have hgrant : Grantable m t 12 ((List.range n).map fun k => b + k * 4096) := by
    refine ⟨?_, fun a ha => ?_, fun a ha _ _ => ?_, fun _ _ hs => (by cases hs), fun a ha => ?_,
      fun high hneed => ?_, hwords⟩
    · rw [List.pairwise_map]
      refine List.pairwise_lt_range.imp fun {i j} hij => ?_
      show (b + j * 4096) / 4096 ≠ (b + i * 4096) / 4096
      omega
    · obtain ⟨hdvd, hle, hlt⟩ := hpages ha
      exact .inl (h.free a hdvd hle hlt)
    · obtain ⟨hdvd, hle, hlt⟩ := hpages ha
      exact hclean a hdvd hle hlt
    · obtain ⟨hdvd, hle, hlt⟩ := hpages ha
      rw [hlow hlt]
      refine ⟨?_, by omega, ?_⟩
      · show 4096 ≤ _
        omega
      · show (a + 4096 + (2 ^ 32 - 1)) % 2 ^ 32 ≤ _
        omega
    · have hcount : m.need 12 ((List.range n).map fun k => b + k * 4096) high ≤ n := by
        refine List.countP_le_length.trans ?_
        rw [List.length_map, List.length_range]
      cases high with
      | true =>
        obtain ⟨a, ha, hyes⟩ := List.countP_pos_iff.mp hneed
        rw [hlow (hpages ha).2.2] at hyes
        simp at hyes
      | false =>
        show _ + _ * 4096 ≤ _
        have := Nat.mul_le_mul_right 4096 hcount
        omega
  obtain ⟨m', hm', hall, -⟩ := secondPass_spec ht hgrant
  intro x hx hle hlt
  rw [allocChunk_secondPass hm']
  exact hall x (List.mem_map.mpr ⟨(x - b) / 4096, List.mem_range.mpr (by omega), by omega⟩)

/-! ## The reservation -/

/-- A chunk that is free and keeps to the alignment and to the upper limits. -/
structure Proper (m : Memmap) (s high b : Nat) : Prop where
  aligned : 2 ^ reserveAlign s ∣ b
  limit : high ≠ 0 → b + reserveSize s ≤ high
  dma : reserveDma s = true → b + reserveSize s ≤ 2 ^ 24
  free : m.Free b (reserveSize s)

/-- The range is not inverted, and rounding its ends does not leave the 32 bits. -/
structure InRange (m : Memmap) (s low high : Nat) : Prop where
  word : low + 0xFFF < 2 ^ 32
  ordered : minAddress low ≤ m.maxAddress s high
  round : reserveUpwards s = true → m.maxAddress s high + 2 ^ reserveAlign s ≤ 2 ^ 32

/-- What a search between the two ends finds. -/
theorem search_spec (hm : m.memHigh < 2 ^ 32) (hs : s < 2 ^ 32) (hsize : reserveSize s ≠ 0)
    (hr : m.InRange s low high) (hroom : minAddress low + reserveSize s ≤ m.maxAddress s high) :
    ∃ r, Returns (fun fuel => if reserveUpwards s then m.searchUp t (reserveSize s) (reserveAlign s)
          (Word.sub (m.maxAddress s high) (reserveSize s)) fuel (minAddress low)
        else m.searchDown t (reserveSize s) (reserveAlign s) (minAddress low) fuel
          (m.maxAddress s high)) r ∧
      (∀ b, r = some b → m.Proper s high b ∧ m.Chunk t b (reserveSize s) ∧
        (reserveUpwards s = true ∨ 2 ^ reserveAlign s ∣ minAddress low → low ≤ b)) ∧
      (r = none → ∀ b, m.Proper s high b → low ≤ b → ¬m.Chunk t b (reserveSize s)) := by
  obtain ⟨hal, hal'⟩ := reserveAlign_bounds s
  obtain ⟨hmax, hmax4⟩ := maxAddress_le s high hm
  obtain ⟨hmin4, -⟩ := Word.roundUp_spec (v := low) (k := 12) (by decide) (by have := hr.word; omega)
  have hmin4 : 4096 ∣ minAddress low := hmin4
  have hsz := reserveSize_eq hs
  have hround := hr.round
  -- a chunk in the range keeps to all limits
  have hproper {b : Nat} (hb : 2 ^ reserveAlign s ∣ b)
      (hle : b + reserveSize s ≤ m.maxAddress s high) (hc : m.Chunk t b (reserveSize s)) :
      m.Proper s high b := by
    have hdvd : 4096 ∣ b + reserveSize s := by
      have := dvd_of_align hal hb
      omega
    obtain ⟨hlimit, hmem, hdma⟩ := (le_maxAddress hm hdvd).mp hle
    exact ⟨hb, hlimit, hdma, hc.free hmem⟩
  have hin {b : Nat} (hb : m.Proper s high b) (hlow : low ≤ b) :
      minAddress low ≤ b ∧ b + reserveSize s ≤ m.maxAddress s high := by
    have hpage := dvd_of_align hal hb.aligned
    refine ⟨(minAddress_le hr.word hpage).mpr hlow, ?_⟩
    exact (le_maxAddress hm (by omega)).mpr ⟨hb.limit, hb.free.memory, hb.dma⟩
  have hlow {b : Nat} (hb : 2 ^ reserveAlign s ∣ b) (h : minAddress low ≤ b) : low ≤ b :=
    (minAddress_le hr.word (dvd_of_align hal hb)).mp h
  rw [hsz] at hsize hroom hproper hin ⊢
  by_cases hup : reserveUpwards s = true
  · have hround := hround hup
    simp only [if_pos hup]
    have htop : Word.sub (m.maxAddress s high) (s / 4096 * 4096) =
        m.maxAddress s high - s / 4096 * 4096 := Word.sub_eq (by omega) (by omega)
    rw [htop]
    have htop : m.maxAddress s high - s / 4096 * 4096 + s / 4096 * 4096 + 2 ^ reserveAlign s ≤ 2 ^ 32 := by
      omega
    obtain ⟨r, hr, hsome, hnone⟩ :=
      searchUp_spec (m := m) (t := t) hal (by omega) (by omega) htop hmin4 (by omega)
    refine ⟨r, hr, fun b hb => ?_, fun hr b hb hlb => ?_⟩
    · obtain ⟨hdvd, hge, hle, hc⟩ := hsome b hb
      exact ⟨hproper hdvd (by omega) hc, hc, fun _ => hlow hdvd hge⟩
    · obtain ⟨hge, hle⟩ := hin hb hlb
      exact hnone hr b hb.aligned hge (by omega)
  · simp only [if_neg hup]
    have hlow' : minAddress low + s / 4096 * 4096 < 2 ^ 32 := by omega
    have hmax' : m.maxAddress s high < 2 ^ 32 := by omega
    obtain ⟨r, hr, hsome, hnone⟩ :=
      searchDown_spec (m := m) (t := t) hal (by omega) (by omega) hlow' hmax'
    refine ⟨r, hr, fun b hb => ?_, fun hr b hb hlb => ?_⟩
    · obtain ⟨hdvd, hle, hge, hc⟩ := hsome b hb
      exact ⟨hproper hdvd hle hc, hc, fun h => hlow hdvd (hge (h.resolve_left hup))⟩
    · obtain ⟨hge, hle⟩ := hin hb hlb
      exact hnone hr b hb.aligned hge hle

/-- Memory whose pages are all free, of `bytes` bytes, and a quota. -/
def freeMemory (bytes : Nat) (q : RangeQuota) : Memmap where
  pages _ := O_FREE
  supers _ := ⟨1024, O_FREE⟩
  memHigh := bytes
  quota _ := ⟨q, q, q, q⟩

/-- A quota for the whole memory. -/
def noQuota : RangeQuota := ⟨0, 0xFFFFFFFF, 0xFFFFFFFF, 0⟩

end L4env.Roottask.Memmap
