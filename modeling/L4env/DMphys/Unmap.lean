import L4env.Util.BitScan
import L4env.Util.Meets
import L4env.Util.Tiling
import L4env.DMphys.Map

/-!
# DMphys: unmapping page areas

`__unmap_area` takes the pages of an area from all clients, one flexpage after the other. Each is the
largest one that its address and the rest of the size allow.
-/

namespace L4env.DMphys

/-- A part of `__unmap_area`: the size of the largest flexpage at `addr`. -/
def unmapSize (addr size : Nat) : Int :=
  let addrAlign : Int := if addr = 0 then 32 else Word.bsf addr
  if addrAlign < Word.bsr size then addrAlign else Word.bsr size

/-- The loop of `__unmap_area`: the flexpages of its calls of `l4_fpage_unmap`. -/
def unmapLoop : Nat → Nat → Nat → Except Panic (List Fpage)
  | 0, _, _ => throw .diverges
  | fuel + 1, addr, size =>
    if size = 0 then pure []
    else do
      let size2 := unmapSize addr size
      let l ← unmapLoop fuel (Word.add addr (shl1 size2)) (Word.sub size (shl1 size2))
      pure (⟨addr, size2, false⟩ :: l)

/-- `dmphys_unmap_area` -/
def unmapArea (addr size : Nat) : Except Panic (List Fpage) := unmapLoop (size + 1) addr size

/-- `dmphys_unmap_areas` -/
def State.unmapAreas (s : State) : Nat → Option Ptr → Except Panic (List Fpage)
  | 0, _ => throw .diverges
  | _ + 1, none => pure []
  | fuel + 1, some a => do
    let l ← unmapArea (s.addr a) (s.size a)
    let l' ← s.unmapAreas fuel (s.dsNext a)
    pure (l ++ l')

/-- The address is in the flexpage. -/
def Fpage.Has (p : Fpage) (x : Nat) : Prop := p.addr ≤ x ∧ x < p.addr + 2 ^ p.size2.toNat

/-- The flexpages `u` are aligned, and their pages are those of the pieces `l` of memory. -/
structure Unmaps (u : List Fpage) (l : List (Nat × Nat)) : Prop where
  aligned : ∀ p ∈ u, 2 ^ p.size2.toNat ∣ p.addr
  cover : ∀ x, (∃ p ∈ u, p.Has x) ↔ ∃ r ∈ l, r.1 ≤ x ∧ x < r.1 + r.2

section
variable {u u' : List Fpage} {l l' : List (Nat × Nat)} {addr size fuel : Nat}

theorem Unmaps.nil : Unmaps [] [] := ⟨by simp, by simp⟩

theorem Unmaps.append (h : Unmaps u l) (h' : Unmaps u' l') : Unmaps (u ++ u') (l ++ l') := by
  refine ⟨fun p hp => ?_, fun x => ?_⟩
  · rcases List.mem_append.mp hp with hp | hp
    · exact h.aligned p hp
    · exact h'.aligned p hp
  · simp only [List.mem_append, or_and_right, exists_or, h.cover, h'.cover]

/-- The first flexpage is aligned and not longer than the area, and not smaller than a block that
divides the address and fits into the area. -/
theorem unmapSize_eq (ha : addr < 4294967296) (hs : size ≠ 0) (hw : size < 4294967296) :
    ∃ k : Nat, unmapSize addr size = k ∧ shl1 k = 2 ^ k ∧ 2 ^ k ∣ addr ∧ 2 ^ k ≤ size ∧
      ∀ n, 2 ^ n ∣ addr → 2 ^ n ≤ size → n ≤ k := by
  have hlog : size.log2 < 32 := (Nat.log2_lt hs).mpr hw
  have hle : ∀ k : Nat, k ≤ size.log2 → shl1 k = 2 ^ k ∧ 2 ^ k ≤ size := by
    intro k hk
    refine ⟨?_, (Nat.le_log2 hs).mp hk⟩
    simp only [shl1, Int.toNat_natCast]
    rw [Nat.mod_eq_of_lt (by omega)]
  have hmax : ∀ n, 2 ^ n ≤ size → n ≤ size.log2 := fun n hn => (Nat.le_log2 hs).mpr hn
  unfold unmapSize
  simp only
  rw [Word.bsr_eq hs]
  split
  next h0 =>
    rw [if_neg (by omega)]
    exact ⟨_, rfl, (hle _ le_rfl).1, h0 ▸ Nat.dvd_zero _, (hle _ le_rfl).2, fun n _ hn => hmax n hn⟩
  next h0 =>
    obtain ⟨i, hi, -, -⟩ := Word.bsf_eq h0 ha
    rw [hi]
    split
    next hlt =>
      have hk := hle i (by omega)
      refine ⟨i, rfl, hk.1, (Word.le_bsf h0 ha).mp hi.ge, hk.2, fun n hn _ => ?_⟩
      have := (Word.le_bsf h0 ha).mpr hn
      omega
    next hge =>
      have hk := hle size.log2 le_rfl
      exact ⟨_, rfl, hk.1, (Word.le_bsf h0 ha).mp (by omega), hk.2, fun n _ hn => hmax n hn⟩

/-- The last address of a flexpage. -/
def Fpage.last (p : Fpage) : Nat := p.addr + 2 ^ p.size2.toNat - 1

theorem Fpage.has_iff {p : Fpage} {x : Nat} : p.Has x ↔ p.addr ≤ x ∧ x ≤ p.last := by
  have := Nat.two_pow_pos p.size2.toNat
  unfold Fpage.Has Fpage.last
  omega

/-- The flexpages follow each other. A block size that divides the area bounds their sizes. -/
theorem unmapLoop_tiles (h : addr + size ≤ 4294967296) (hw : size < 4294967296)
    (hf : size < fuel) :
    ∃ u, unmapLoop fuel addr size = .ok u ∧ Tiles Fpage.addr Fpage.last addr u (addr + size) ∧
      (∀ p ∈ u, 2 ^ p.size2.toNat ∣ p.addr) ∧
      ∀ n : Nat, 2 ^ n ∣ addr → 2 ^ n ∣ size → ∀ p ∈ u, (n : Int) ≤ p.size2 := by
  induction fuel generalizing addr size with
  | zero => omega
  | succ fuel ih =>
    unfold unmapLoop
    split
    next h0 =>
      subst h0
      exact ⟨[], rfl, rfl, by simp, by simp⟩
    next h0 =>
      have haddr : addr < 4294967296 := by omega
      obtain ⟨k, hk, hshl, hdvd, hle, hmax⟩ := unmapSize_eq haddr h0 hw
      have hpos := Nat.two_pow_pos k
      rw [hk]
      simp only [hshl]
      rw [Word.sub_eq hle hw]
      -- behind the last flexpage the address may have wrapped around
      obtain hrest | hrest := Nat.eq_zero_or_pos (size - 2 ^ k)
      · have hlen : size = 2 ^ k := by omega
        have hnil : unmapLoop fuel (Word.add addr (2 ^ k)) (size - 2 ^ k) = .ok [] := by
          cases fuel with
          | zero => omega
          | succ fuel => rw [hrest]; rfl
        rw [hnil]
        refine ⟨_, rfl, ⟨rfl, ?_, ?_⟩, ?_, ?_⟩
        · simp only [Fpage.last, Int.toNat_natCast]
          omega
        · simp only [Fpage.last, Int.toNat_natCast, tiles_nil]
          omega
        · simpa using hdvd
        · intro n hn hn' p hp
          rw [List.mem_singleton.mp hp]
          exact Int.ofNat_le.mpr (hmax n hn (Nat.le_of_dvd (by omega) hn'))
      · rw [Word.add_eq (by omega)]
        have hrest' : addr + 2 ^ k + (size - 2 ^ k) ≤ 4294967296 := by omega
        obtain ⟨u, hu, ht, ha, hn⟩ := ih hrest' (by omega) (by omega)
        rw [hu]
        refine ⟨_, rfl, ⟨rfl, ?_, ?_⟩, ?_, ?_⟩
        · simp only [Fpage.last, Int.toNat_natCast]
          omega
        · have hend : addr + 2 ^ k + (size - 2 ^ k) = addr + size := by omega
          have hnext : addr + 2 ^ k - 1 + 1 = addr + 2 ^ k := by omega
          rw [hend] at ht
          simpa only [Fpage.last, Int.toNat_natCast, hnext] using ht
        · rintro p (_ | ⟨_, hp⟩)
          · simpa using hdvd
          · exact ha p hp
        · intro n hn₁ hn₂
          have hnk : n ≤ k := hmax n hn₁ (Nat.le_of_dvd (by omega) hn₂)
          have hpow : 2 ^ n ∣ 2 ^ k := Nat.pow_dvd_pow 2 hnk
          rintro p (_ | ⟨_, hp⟩)
          · exact Int.ofNat_le.mpr hnk
          · exact hn n (Nat.dvd_add hn₁ hpow) (Nat.dvd_sub hn₂ hpow) p hp

theorem unmapArea_ok (h : addr + size < 4294967296) :
    ∃ u, unmapArea addr size = .ok u ∧ Unmaps u [(addr, size)] := by
  obtain ⟨u, hu, ht, ha, -⟩ := unmapLoop_tiles h.le (by omega) (Nat.lt_succ_self size)
  refine ⟨u, hu, ha, fun x => ?_⟩
  simp only [Fpage.has_iff, List.mem_singleton, exists_eq_left]
  constructor
  · rintro ⟨p, hp, h1, h2⟩
    have := ht.bounds hp
    omega
  · intro ⟨h1, h2⟩
    exact ht.cover h1 h2

end

end L4env.DMphys
