import L4env.Util.Tiling
import L4env.Fiasco.Buddy

/-!
# Consistency of the buddy allocator

The memory of the allocator is tiled by its blocks. A free block is on the list of its index, knows
its index and has its bit set. Nothing is known of the bit of an address inside a block: such a bit
may have stayed set when two blocks were merged. It is never consulted, because the block that
contains the buddy of a block begins there or contains both of them.
-/

namespace L4env.Fiasco.Buddy

/-! ## Sizes -/

theorem blockSize_pos (i : Nat) : 0 < blockSize i :=
  Nat.mul_pos (by decide) (Nat.two_pow_pos i)

theorem blockSize_succ (i : Nat) : blockSize (i + 1) = 2 * blockSize i := by
  unfold blockSize
  ring

theorem blockSize_dvd {i j : Nat} (h : i ≤ j) : blockSize i ∣ blockSize j :=
  Nat.mul_dvd_mul_left _ (Nat.pow_dvd_pow 2 h)

theorem blockSize_dvd_max {i : Nat} (h : i ≤ NUM_SIZES) : blockSize i ∣ MAX_SIZE :=
  blockSize_dvd (j := NUM_SIZES) h

theorem min_dvd_blockSize (i : Nat) : MIN_SIZE ∣ blockSize i := Nat.dvd_mul_right _ _

theorem blockSize_lt {i j : Nat} (h : i < j) : blockSize i < blockSize j :=
  Nat.mul_lt_mul_of_pos_left (Nat.pow_lt_pow_right (by decide) h) (by decide)

theorem blockSize_inj {i j : Nat} (h : blockSize i = blockSize j) : i = j := by
  obtain hlt | rfl | hlt := Nat.lt_trichotomy i j
  · exact absurd h (Nat.ne_of_lt (blockSize_lt hlt))
  · rfl
  · exact absurd h.symm (Nat.ne_of_lt (blockSize_lt hlt))

/-! ## Aligned addresses -/

theorem eq_of_aligned {d b c : Nat} (hb : d ∣ b) (hc : d ∣ c) (h₁ : c ≤ b) (h₂ : b < c + d) :
    b = c := by
  have hd : d ∣ b - c := Nat.dvd_sub hb hc
  have := Nat.eq_zero_of_dvd_of_lt hd (by omega)
  omega

/-- An aligned interval that contains an address contains the whole aligned block around it. -/
theorem aligned_contains {n b c s : Nat} (hc : n ∣ c) (hs : n ∣ s) (h₁ : c ≤ b) (h₂ : b < c + s) :
    c ≤ b / n * n ∧ b / n * n + n ≤ c + s := by
  obtain ⟨x, rfl⟩ := hc
  obtain ⟨y, rfl⟩ := hs
  have hn : 0 < n := by
    by_contra h0
    simp [Nat.eq_zero_of_not_pos h0] at h₂
  have hx : x ≤ b / n := (Nat.le_div_iff_mul_le hn).mpr (by rw [Nat.mul_comm]; exact h₁)
  have hy : b / n < x + y := by
    rw [Nat.div_lt_iff_lt_mul hn, Nat.add_mul, Nat.mul_comm x, Nat.mul_comm y]
    exact h₂
  refine ⟨?_, ?_⟩
  · rw [Nat.mul_comm n]
    exact Nat.mul_le_mul_right n hx
  · have := Nat.mul_le_mul_right n hy
    rw [Nat.succ_mul, Nat.add_mul, Nat.mul_comm x, Nat.mul_comm y] at this
    exact this

/-- The other half of the block of twice the size. -/
def buddyOf (a i : Nat) : Nat :=
  if a / blockSize (i + 1) * blockSize (i + 1) = a then a + blockSize i
  else a / blockSize (i + 1) * blockSize (i + 1)

theorem buddyOf_cases {a i : Nat} (h : blockSize i ∣ a) :
    (blockSize (i + 1) ∣ a ∧ buddyOf a i = a + blockSize i ∧
      a / blockSize (i + 1) * blockSize (i + 1) = a) ∨
    (blockSize (i + 1) ∣ buddyOf a i ∧ a = buddyOf a i + blockSize i ∧
      a / blockSize (i + 1) * blockSize (i + 1) = buddyOf a i) := by
  have hpos := blockSize_pos i
  unfold buddyOf
  split
  · rename_i he
    exact .inl ⟨⟨_, he.symm.trans (Nat.mul_comm _ _)⟩, rfl, he⟩
  · rename_i hne
    refine .inr ⟨Nat.dvd_mul_left _ _, ?_, rfl⟩
    rw [blockSize_succ] at hne ⊢
    obtain ⟨x, rfl⟩ := h
    rw [Nat.mul_comm 2, Nat.mul_div_mul_left _ _ hpos] at hne ⊢
    have hx : x / 2 * (blockSize i * 2) = blockSize i * (2 * (x / 2)) := by ring
    rw [hx] at hne ⊢
    have hodd : x = 2 * (x / 2) + 1 := by
      have : 2 * (x / 2) ≠ x := fun e => hne (by rw [e])
      omega
    calc blockSize i * x = blockSize i * (2 * (x / 2) + 1) := by rw [← hodd]
      _ = blockSize i * (2 * (x / 2)) + blockSize i := by ring

/-- Two blocks of one index in the same block of twice the size are equal or buddies. -/
theorem eq_buddyOf {a b i : Nat} (ha : blockSize i ∣ a) (hb : blockSize i ∣ b)
    (hp : a / blockSize (i + 1) = b / blockSize (i + 1)) (hne : b ≠ a) : b = buddyOf a i := by
  have hb' := buddyOf_cases hb
  rw [← hp] at hb'
  obtain ⟨-, h₁, h₂⟩ | ⟨-, h₁, h₂⟩ := buddyOf_cases ha
  · obtain ⟨-, -, h₃⟩ | ⟨-, h₃, h₄⟩ := hb'
    · omega
    · omega
  · obtain ⟨-, -, h₃⟩ | ⟨-, h₃, h₄⟩ := hb'
    · omega
    · omega

/-! ## The invariant -/

/-- A block of the memory, with its size index if it is free. -/
structure Tile where
  start : Nat
  size : Nat
  free : Option Nat

def Tile.last (t : Tile) : Nat := t.start + t.size - 1

def freeTile (a i : Nat) : Tile := ⟨a, blockSize i, some i⟩

def usedTile (a i : Nat) : Tile := ⟨a, blockSize i, none⟩

variable {m : Buddy} {bs l₁ l₂ xs ys : List Tile} {lo hi a b i j : Nat} {t u : Tile}
  {used : List (Nat × Nat)} {cur : Option (Nat × Nat)}

/-- The tiles, the lists and the bitmap agree. Allocated memory may be tiled in any way. -/
structure Core (m : Buddy) (bs : List Tile) (lo hi : Nat) : Prop where
  tiles : Tiles Tile.start Tile.last lo bs hi
  pos : ∀ t ∈ bs, 0 < t.size
  base : MAX_SIZE ∣ m.base
  low : m.base ≤ lo
  high : hi ≤ m.base + MAX_MEM
  lists : ∀ i, ∃ l, m.lists.IsList i l ∧ l.Nodup ∧ ∀ a, a ∈ l ↔ freeTile a i ∈ bs
  free : ∀ t ∈ bs, ∀ i, t.free = some i → t.size = blockSize i ∧ i < NUM_SIZES ∧
    blockSize i ∣ t.start ∧ m.index t.start = i ∧ m.bit t.start = true
  bits : ∀ n, m.freeMap n = true → lo ≤ m.base + MIN_SIZE * n ∧ m.base + MIN_SIZE * n < hi

theorem Core.unique (h : Core m bs lo hi) (ht : t ∈ bs) (hu : u ∈ bs) (ht₁ : t.start ≤ b)
    (ht₂ : b < t.start + t.size) (hu₁ : u.start ≤ b) (hu₂ : b < u.start + u.size) : t = u := by
  refine h.tiles.unique ht hu ht₁ ?_ hu₁ ?_
  · unfold Tile.last
    omega
  · unfold Tile.last
    omega

theorem Core.eq_of_start (h : Core m bs lo hi) (ht : t ∈ bs) (hu : u ∈ bs)
    (he : t.start = u.start) : t = u := by
  have hpt := h.pos t ht
  have hpu := h.pos u hu
  exact h.unique (b := t.start) ht hu (Nat.le_refl _) (by omega) (by omega) (by omega)

theorem Core.base_dvd (h : Core m bs lo hi) (hi : i ≤ NUM_SIZES) : blockSize i ∣ m.base :=
  (blockSize_dvd_max hi).trans h.base

theorem Core.mem_bounds (h : Core m bs lo hi) (ht : t ∈ bs) :
    lo ≤ t.start ∧ t.start + t.size ≤ hi := by
  have := h.tiles.bounds ht
  have hp := h.pos t ht
  unfold Tile.last at this
  omega

/-- The bits of two aligned addresses are different. -/
theorem bit_setBit {v : Bool} (hbase : MIN_SIZE ∣ m.base) (ha : MIN_SIZE ∣ a) (hb : MIN_SIZE ∣ b)
    (ha' : m.base ≤ a) (hb' : m.base ≤ b) :
    (m.setBit a v).bit b = if b = a then v else m.bit b := by
  unfold bit setBit
  dsimp only
  rw [Function.update_apply]
  obtain ⟨x, hx⟩ := hbase
  obtain ⟨y, rfl⟩ := ha
  obtain ⟨z, rfl⟩ := hb
  have hiff : (MIN_SIZE * z - m.base) / MIN_SIZE = (MIN_SIZE * y - m.base) / MIN_SIZE ↔
      MIN_SIZE * z = MIN_SIZE * y := by
    rw [hx, ← Nat.mul_sub, ← Nat.mul_sub, Nat.mul_div_cancel_left _ (by decide),
      Nat.mul_div_cancel_left _ (by decide)]
    unfold MIN_SIZE at *
    omega
  by_cases he : MIN_SIZE * z = MIN_SIZE * y
  · rw [if_pos (hiff.mpr he), if_pos he]
  · rw [if_neg fun e => he (hiff.mp e), if_neg he]

/-- Allocated memory is cut into other tiles. -/
theorem Core.retile (l₁ xs ys l₂ : List Tile) (h : Core m (l₁ ++ (xs ++ l₂)) lo hi) (hx : ∀ t ∈ xs, t.free = none)
    (hy : ∀ t ∈ ys, t.free = none ∧ 0 < t.size)
    (hxy : ∀ b c, Tiles Tile.start Tile.last b xs c → Tiles Tile.start Tile.last b ys c) :
    Core m (l₁ ++ (ys ++ l₂)) lo hi := by
  have hmem : ∀ t, t.free ≠ none → (t ∈ l₁ ++ (ys ++ l₂) ↔ t ∈ l₁ ++ (xs ++ l₂)) := by
    intro t ht
    have h₁ : t ∉ xs := fun hm => ht (hx t hm)
    have h₂ : t ∉ ys := fun hm => ht (hy t hm).1
    simp [h₁, h₂]
  refine ⟨h.tiles.splice hxy, fun t ht => ?_, h.base, h.low, h.high, fun i => ?_, fun t ht i hf => ?_,
    h.bits⟩
  · simp only [List.mem_append] at ht
    obtain ht | ht | ht := ht
    · exact h.pos t (by simp [ht])
    · exact (hy t ht).2
    · exact h.pos t (by simp [ht])
  · obtain ⟨l, hl, hnd, hiff⟩ := h.lists i
    refine ⟨l, hl, hnd, fun a => ?_⟩
    rw [hiff, hmem]
    rintro ⟨⟩
  · have hne : t.free ≠ none := by
      rw [hf]
      rintro ⟨⟩
    exact h.free t ((hmem t hne).mp ht) i hf

theorem freeTile_inj (h : freeTile a i = freeTile b j) : a = b ∧ i = j := by
  unfold freeTile at h
  rw [Tile.mk.injEq] at h
  exact ⟨h.1, blockSize_inj h.2.1⟩

theorem usedTile_inj (h : usedTile a i = usedTile b j) : a = b ∧ i = j := by
  unfold usedTile at h
  rw [Tile.mk.injEq] at h
  exact ⟨h.1, blockSize_inj h.2.1⟩

/-- A tile is exchanged for one that is free or not. -/
theorem Core.tiles_exchange (h : Tiles Tile.start Tile.last lo (l₁ ++ t :: l₂) hi)
    (hs : u.start = t.start) (hz : u.size = t.size) :
    Tiles Tile.start Tile.last lo (l₁ ++ u :: l₂) hi := by
  refine Tiles.splice (m := [t]) (n := [u]) h fun b c hbc => ?_
  simp only [tiles_cons, tiles_nil] at hbc ⊢
  unfold Tile.last at *
  rw [hs, hz]
  exact hbc

theorem Core.aligned (h : Core m bs lo hi) (hi : i ≤ NUM_SIZES) (ha : blockSize i ∣ a) :
    MIN_SIZE ∣ m.base ∧ MIN_SIZE ∣ a :=
  ⟨(min_dvd_blockSize i).trans (h.base_dvd hi), (min_dvd_blockSize i).trans ha⟩

/-- A block of allocated memory is put on a list. -/
theorem Core.toFree (h : Core m (l₁ ++ usedTile a i :: l₂) lo hi) (hin : i < NUM_SIZES)
    (ha : blockSize i ∣ a) :
    Core ((m.link i a).setBit a true) (l₁ ++ freeTile a i :: l₂) lo hi := by
  have hmem : usedTile a i ∈ l₁ ++ usedTile a i :: l₂ := List.mem_append_right _ List.mem_cons_self
  obtain ⟨hlow, hhigh⟩ := h.mem_bounds hmem
  have hbound : m.base ≤ a := h.low.trans hlow
  obtain ⟨hbase, hmin⟩ := h.aligned hin.le ha
  have hnew : ∀ x j, freeTile x j ∈ l₁ ++ freeTile a i :: l₂ ↔
      (x = a ∧ j = i) ∨ freeTile x j ∈ l₁ ++ usedTile a i :: l₂ := by
    intro x j
    have hne : freeTile x j ≠ usedTile a i := by
      unfold freeTile usedTile
      simp
    have heq : freeTile x j = freeTile a i ↔ x = a ∧ j = i :=
      ⟨freeTile_inj, fun e => by rw [e.1, e.2]⟩
    simp only [List.mem_append, List.mem_cons, hne, heq, false_or]
    tauto
  have hstart : ∀ u ∈ l₁ ++ usedTile a i :: l₂, u.free ≠ none → u.start ≠ a := by
    intro u hu hf e
    rw [h.eq_of_start hu hmem e] at hf
    exact hf rfl
  refine ⟨Core.tiles_exchange h.tiles rfl rfl, fun t ht => ?_, h.base, h.low, h.high, fun j => ?_,
    fun t ht j hf => ?_, fun n hn => ?_⟩
  · rw [List.mem_append, List.mem_cons] at ht
    obtain ht | rfl | ht := ht
    · exact h.pos t (by simp [ht])
    · exact blockSize_pos i
    · exact h.pos t (by simp [ht])
  · obtain ⟨l, hl, hnd, hiff⟩ := h.lists j
    have hal : a ∉ l := fun hx => hstart _ ((hiff a).mp hx) (by unfold freeTile; simp) rfl
    by_cases hj : j = i
    · subst hj
      refine ⟨a :: l, hl.push hnd hal, List.nodup_cons.mpr ⟨hal, hnd⟩, fun x => ?_⟩
      rw [List.mem_cons, hiff, hnew]
      tauto
    · obtain ⟨l', hl', -, hiff'⟩ := h.lists i
      refine ⟨l, hl.push_other hj hal fun y hy hyl => ?_, hnd, fun x => ?_⟩
      · have hyl' : y ∈ l' := List.mem_of_mem_head? (hl'.1 ▸ hy)
        have he := h.eq_of_start ((hiff y).mp hyl) ((hiff' y).mp hyl') rfl
        exact hj (freeTile_inj he).2
      · rw [hiff, hnew]
        tauto
  · show t.size = blockSize j ∧ j < NUM_SIZES ∧ blockSize j ∣ t.start ∧
      Function.update m.index a i t.start = j ∧ ((m.link i a).setBit a true).bit t.start = true
    by_cases he : t.start = a
    · have hta : t = freeTile a i := by
        rw [List.mem_append, List.mem_cons] at ht
        obtain ht | rfl | ht := ht
        · exact absurd he (hstart t (by simp [ht]) (by simp [hf]))
        · rfl
        · exact absurd he (hstart t (by simp [ht]) (by simp [hf]))
      subst hta
      cases hf
      refine ⟨rfl, hin, ha, Function.update_self .., ?_⟩
      exact (bit_setBit (m := m.link i a) hbase hmin hmin hbound hbound).trans (if_pos rfl)
    · have hold : t ∈ l₁ ++ usedTile a i :: l₂ := by
        rw [List.mem_append, List.mem_cons] at ht ⊢
        obtain ht | rfl | ht := ht
        · exact .inl ht
        · exact absurd rfl he
        · exact .inr (.inr ht)
      obtain ⟨h₁, h₂, h₃, h₄, h₅⟩ := h.free t hold j hf
      refine ⟨h₁, h₂, h₃, (Function.update_of_ne he _ _).trans h₄, ?_⟩
      refine (bit_setBit (m := m.link i a) hbase hmin (h.aligned h₂.le h₃).2 hbound ?_).trans ?_
      · exact h.low.trans (h.mem_bounds hold).1
      · rw [if_neg he]
        exact h₅
  · have hn : Function.update m.freeMap ((a - m.base) / MIN_SIZE) true n = true := hn
    rw [Function.update_apply] at hn
    split at hn
    · rename_i e
      have hpos := blockSize_pos i
      have hsize : (usedTile a i).size = blockSize i := rfl
      have hstart : (usedTile a i).start = a := rfl
      have haddr : m.base + MIN_SIZE * n = a := by
        rw [e, Nat.mul_div_cancel' (Nat.dvd_sub hmin hbase)]
        omega
      show lo ≤ m.base + MIN_SIZE * n ∧ m.base + MIN_SIZE * n < hi
      omega
    · exact h.bits n hn

/-- A free block is taken off its list. -/
theorem Core.toUsed (h : Core m (l₁ ++ freeTile a i :: l₂) lo hi) :
    Core (m.unlink a) (l₁ ++ usedTile a i :: l₂) lo hi := by
  have hmem : freeTile a i ∈ l₁ ++ freeTile a i :: l₂ := List.mem_append_right _ List.mem_cons_self
  have hnot : freeTile a i ∉ l₁ ++ usedTile a i :: l₂ := by
    intro hx
    have hnd : ∀ t ∈ l₁ ++ l₂, t.start ≠ a := by
      intro t ht e
      have hmid := h.tiles.middle
      have hpos := blockSize_pos i
      unfold Tile.last freeTile at hmid
      dsimp only at hmid
      rw [List.mem_append] at ht
      obtain ht | ht := ht
      · have h₁ := hmid.2.1 t ht
        have h₂ := h.pos t (by simp [ht])
        omega
      · have h₁ := hmid.2.2 t ht
        omega
    rw [List.mem_append, List.mem_cons] at hx
    obtain hx | hx | hx := hx
    · exact hnd _ (List.mem_append_left _ hx) rfl
    · unfold freeTile usedTile at hx
      simp at hx
    · exact hnd _ (List.mem_append_right _ hx) rfl
  have hold : ∀ t, t.free ≠ none → (t ∈ l₁ ++ usedTile a i :: l₂ ↔
      t ≠ freeTile a i ∧ t ∈ l₁ ++ freeTile a i :: l₂) := by
    intro t hf
    have hne : t ≠ usedTile a i := by
      rintro rfl
      exact hf rfl
    constructor
    · intro ht
      refine ⟨fun e => hnot (e ▸ ht), ?_⟩
      simp only [List.mem_append, List.mem_cons, hne, false_or] at ht ⊢
      tauto
    · rintro ⟨hta, ht⟩
      simp only [List.mem_append, List.mem_cons, hta, false_or] at ht ⊢
      tauto
  obtain ⟨l, hl, hnd, hiff⟩ := h.lists i
  obtain ⟨k₁, k₂, rfl⟩ := List.append_of_mem ((hiff a).mpr hmem)
  refine ⟨Core.tiles_exchange h.tiles rfl rfl, fun t ht => ?_, h.base, h.low, h.high, fun j => ?_,
    fun t ht j hf => ?_, h.bits⟩
  · rw [List.mem_append, List.mem_cons] at ht
    obtain ht | rfl | ht := ht
    · exact h.pos t (by simp [ht])
    · exact blockSize_pos i
    · exact h.pos t (by simp [ht])
  · by_cases hj : j = i
    · subst hj
      obtain ⟨hout, hnd'⟩ := List.nodup_cons.mp (List.perm_middle.nodup_iff.mp hnd)
      refine ⟨k₁ ++ k₂, hl.unlink hnd, hnd', fun x => ?_⟩
      rw [hold _ (by unfold freeTile; simp), ← hiff, List.perm_middle.mem_iff, List.mem_cons]
      constructor
      · intro hx
        refine ⟨fun e => hout ?_, .inr hx⟩
        rw [← (freeTile_inj e).1]
        exact hx
      · rintro ⟨hne, rfl | hx⟩
        · exact absurd rfl hne
        · exact hx
    · obtain ⟨l', hl', hnd', hiff'⟩ := h.lists j
      refine ⟨l', hl.unlink_other hl' hj fun y hy hyl => ?_, hnd', fun x => ?_⟩
      · have he := h.eq_of_start ((hiff' y).mp hy) ((hiff y).mp hyl) rfl
        exact hj (freeTile_inj he).2
      · rw [hiff', hold _ (by unfold freeTile; simp)]
        exact ⟨fun hx => ⟨fun e => hj (freeTile_inj e).2, hx⟩, fun hx => hx.2⟩
  · exact h.free t ((hold t (by simp [hf])).mp ht).2 j hf

/-- The bit at the start of allocated memory may be cleared. -/
theorem Core.clearBit (h : Core m bs lo hi) (ht : t ∈ bs) (hf : t.free = none)
    (ha : MIN_SIZE ∣ t.start) : Core (m.setBit t.start false) bs lo hi := by
  have hbase : MIN_SIZE ∣ m.base := (min_dvd_blockSize 0).trans (h.base_dvd (by decide))
  refine ⟨h.tiles, h.pos, h.base, h.low, h.high, h.lists, fun u hu i hi => ?_, fun n hn => ?_⟩
  · obtain ⟨h₁, h₂, h₃, h₄, h₅⟩ := h.free u hu i hi
    refine ⟨h₁, h₂, h₃, h₄, ?_⟩
    have hne : u.start ≠ t.start := by
      intro e
      rw [h.eq_of_start hu ht e, hf] at hi
      cases hi
    rw [bit_setBit hbase ha (h.aligned h₂.le h₃).2 (h.low.trans (h.mem_bounds ht).1)
      (h.low.trans (h.mem_bounds hu).1), if_neg hne]
    exact h₅
  · have hn : Function.update m.freeMap ((t.start - m.base) / MIN_SIZE) false n = true := hn
    rw [Function.update_apply] at hn
    split at hn
    · cases hn
    · exact h.bits n hn

/-! ## Allocated blocks -/

/-- The tiles that are not free are the allocated blocks, whose bits are clear, and the block `cur`
that is about to be freed. No two free buddies lie side by side. -/
structure Inv (m : Buddy) (bs : List Tile) (used : List (Nat × Nat)) (lo hi : Nat)
    (cur : Option (Nat × Nat)) : Prop extends Core m bs lo hi where
  nodup : used.Nodup
  blocks : ∀ t ∈ bs, t.free = none → ∃ a i, t = usedTile a i ∧ i < NUM_SIZES ∧ blockSize i ∣ a ∧
    ((a, i) ∈ used ∨ cur = some (a, i))
  allocated : ∀ p ∈ used, usedTile p.1 p.2 ∈ bs ∧ m.bit p.1 = false
  current : ∀ p, cur = some p → usedTile p.1 p.2 ∈ bs ∧ p ∉ used
  apart : ∀ a b i, i + 1 < NUM_SIZES → freeTile a i ∈ bs → freeTile b i ∈ bs →
    a / blockSize (i + 1) = b / blockSize (i + 1) → a = b

theorem Inv.aligned_used (h : Inv m bs used lo hi cur) (hu : usedTile a i ∈ bs) :
    i < NUM_SIZES ∧ blockSize i ∣ a := by
  obtain ⟨b, j, he, hj, hb, -⟩ := h.blocks _ hu rfl
  obtain ⟨rfl, rfl⟩ := usedTile_inj he
  exact ⟨hj, hb⟩

/-- Every tile is an aligned block. -/
theorem Inv.aligned_tile (h : Inv m bs used lo hi cur) (ht : t ∈ bs) :
    ∃ j, t.size = blockSize j ∧ blockSize j ∣ t.start := by
  cases hf : t.free with
  | none =>
    obtain ⟨b, j, rfl, -, hb, -⟩ := h.blocks t ht hf
    exact ⟨j, rfl, hb⟩
  | some j =>
    obtain ⟨hz, -, hd, -, -⟩ := h.free t ht j hf
    exact ⟨j, hz, hd⟩

theorem buddyOf_parent (ha : blockSize i ∣ a) :
    buddyOf a i / blockSize (i + 1) = a / blockSize (i + 1) := by
  have hlt : blockSize i < blockSize (i + 1) := blockSize_lt (Nat.lt_succ_self i)
  have hpos := blockSize_pos (i + 1)
  have hhalf : ∀ c, blockSize (i + 1) ∣ c →
      (c + blockSize i) / blockSize (i + 1) = c / blockSize (i + 1) := by
    rintro c ⟨k, rfl⟩
    rw [Nat.mul_add_div hpos, Nat.div_eq_of_lt hlt, Nat.mul_div_cancel_left _ hpos, Nat.add_zero]
  obtain ⟨hd, hb, -⟩ | ⟨hd, hb, -⟩ := buddyOf_cases ha
  · rw [hb, hhalf a hd]
  · conv_rhs => rw [hb]
    rw [hhalf _ hd]

/-- If the bit at the buddy of a block is set and the index is right, there is a free block: the
tile around that address begins there, because a larger one would contain the block as well. -/
theorem Inv.buddy_free (h : Inv m bs used lo hi (some (a, i))) (hin : i + 1 < NUM_SIZES)
    (hb : m.bit (buddyOf a i) = true) (hindex : m.index (buddyOf a i) = i) :
    freeTile (buddyOf a i) i ∈ bs := by
  have hcur : usedTile a i ∈ bs := (h.current _ rfl).1
  obtain ⟨-, ha⟩ := h.aligned_used hcur
  have hlow : lo ≤ a := (h.mem_bounds hcur).1
  have hhigh : a + blockSize i ≤ hi := (h.mem_bounds hcur).2
  have hparent := buddyOf_parent ha
  have hpos := blockSize_pos i
  have hsucc := blockSize_succ i
  have hbi : blockSize i ∣ buddyOf a i := by
    obtain ⟨-, e, -⟩ | ⟨hd, -, -⟩ := buddyOf_cases ha
    · rw [e]
      exact Nat.dvd_add ha (Nat.dvd_refl _)
    · exact (blockSize_dvd (Nat.le_succ i)).trans hd
  have hne : buddyOf a i ≠ a := by
    obtain ⟨-, e, -⟩ | ⟨-, e, -⟩ := buddyOf_cases ha
    · omega
    · omega
  have hle : a / blockSize (i + 1) * blockSize (i + 1) ≤ buddyOf a i := by
    rw [← hparent]
    exact Nat.div_mul_le_self _ _
  have hbase : m.base ≤ a / blockSize (i + 1) * blockSize (i + 1) := by
    refine (aligned_contains (s := MAX_MEM) (h.base_dvd hin.le) ?_ (h.low.trans hlow) ?_).1
    · exact (blockSize_dvd_max hin.le).trans (by decide)
    · exact Nat.lt_of_lt_of_le (by omega) (hhigh.trans h.high)
  have hrange : lo ≤ buddyOf a i ∧ buddyOf a i < hi := by
    obtain ⟨hmb, hmin⟩ := h.aligned (by omega : i ≤ NUM_SIZES) hbi
    have hbits := h.bits _ hb
    rw [Nat.mul_div_cancel' (Nat.dvd_sub hmin hmb)] at hbits
    omega
  obtain ⟨t, ht, ht₁, ht₂⟩ := h.tiles.cover hrange.1 hrange.2
  have htpos := h.pos t ht
  unfold Tile.last at ht₂
  obtain ⟨j, hsize, hdvd⟩ := h.aligned_tile ht
  by_cases hj : j ≤ i
  · have hstart : buddyOf a i = t.start :=
      eq_of_aligned ((blockSize_dvd hj).trans hbi) hdvd ht₁ (by omega)
    cases hf : t.free with
    | none =>
      obtain ⟨c, k, rfl, -, -, hu⟩ := h.blocks t ht hf
      obtain hu | hu := hu
      · have hclear := (h.allocated _ hu).2
        rw [hstart] at hb
        exact absurd hclear (by rw [show m.bit (c, k).1 = true from hb]; decide)
      · cases hu
        exact absurd hstart hne
    | some k =>
      obtain ⟨hz, -, -, hk, -⟩ := h.free t ht k hf
      have hki : k = i := by
        rw [← hk, ← hstart, hindex]
      subst hki
      have htile : t = freeTile (buddyOf a k) k := by
        cases t
        simp_all [freeTile]
      rw [← htile]
      exact ht
  · -- a larger tile around the buddy contains the block itself
    have hdouble : blockSize (i + 1) ∣ blockSize j := blockSize_dvd (by omega)
    have hcontains := aligned_contains (s := t.size) (hdouble.trans hdvd) (hsize ▸ hdouble) ht₁
      (by omega)
    rw [hparent] at hcontains
    have hup : a < a / blockSize (i + 1) * blockSize (i + 1) + blockSize (i + 1) :=
      Nat.lt_div_mul_add (blockSize_pos _)
    have hdown : a / blockSize (i + 1) * blockSize (i + 1) ≤ a := Nat.div_mul_le_self _ _
    have he := h.unique (b := a) ht hcur (by omega) (by omega) (Nat.le_refl a)
      (show a < a + blockSize i by omega)
    rw [he] at hsize
    have hij : i = j := blockSize_inj hsize
    omega

end L4env.Fiasco.Buddy
