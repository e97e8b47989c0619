import L4env.Fiasco.BuddyInv

/-!
# Runs of the buddy allocator

Each step keeps the memory tiled: a round of `free` joins two tiles, `split` frees the tiles the rest
of a block was cut into, and `add_mem` frees tiles that are new.
-/

namespace L4env.Fiasco.Buddy

variable {m m' : Buddy} {bs l₁ l₂ : List Tile} {lo hi a b i j n s f new : Nat} {t u : Tile}
  {used : List (Nat × Nat)} {cur : Option (Nat × Nat)}

/-! ## Free -/

theorem buddy_eq (m : Buddy) (a i : Nat) : m.buddy a i =
    if NUM_SIZES ≤ i + 1 then none
    else if m.bit (buddyOf a i) = true ∧ m.index (buddyOf a i) = i then
      some (buddyOf a i, a / blockSize (i + 1) * blockSize (i + 1))
    else none := by
  have hnew : a - a % blockSize (i + 1) = a / blockSize (i + 1) * blockSize (i + 1) := by
    have := Nat.div_add_mod a (blockSize (i + 1))
    rw [Nat.mul_comm] at this
    omega
  have hbuddy : (if a / blockSize (i + 1) * blockSize (i + 1) = a then
      a / blockSize (i + 1) * blockSize (i + 1) + blockSize i
      else a / blockSize (i + 1) * blockSize (i + 1)) = buddyOf a i := by
    unfold buddyOf
    split
    · rename_i e
      rw [e]
    · rfl
  unfold buddy
  dsimp only
  rw [← blockSize_succ, hnew, hbuddy]

/-- What is known of the buddy that the code finds. -/
theorem buddy_some (h : m.buddy a i = some (b, new)) : i + 1 < NUM_SIZES ∧ b = buddyOf a i ∧
    new = a / blockSize (i + 1) * blockSize (i + 1) ∧ m.bit b = true ∧ m.index b = i := by
  rw [buddy_eq] at h
  split at h
  · cases h
  · rename_i hin
    split at h
    · rename_i hb
      obtain ⟨rfl, rfl⟩ := Prod.mk.inj (Option.some.inj h)
      exact ⟨Nat.not_le.mp hin, rfl, rfl, hb⟩
    · cases h

theorem buddy_none (h : m.buddy a i = none) (hin : i + 1 < NUM_SIZES) :
    ¬ (m.bit (buddyOf a i) = true ∧ m.index (buddyOf a i) = i) := by
  intro hb
  rw [buddy_eq, if_neg (Nat.not_le.mpr hin), if_pos hb] at h
  cases h

/-- The elements of a list without two neighbours. -/
theorem mem_cut {α : Type} {l₁ l₂ : List α} {x y z : α} (hnd : (l₁ ++ x :: y :: l₂).Nodup) :
    z ∈ l₁ ++ l₂ ↔ z ∈ l₁ ++ x :: y :: l₂ ∧ z ≠ x ∧ z ≠ y := by
  have hperm : (l₁ ++ x :: y :: l₂).Perm (x :: y :: (l₁ ++ l₂)) :=
    List.perm_middle.trans (List.Perm.cons x List.perm_middle)
  have hnd' := hperm.nodup_iff.mp hnd
  rw [List.nodup_cons, List.nodup_cons, List.mem_cons, not_or] at hnd'
  rw [hperm.mem_iff, List.mem_cons, List.mem_cons]
  constructor
  · intro hz
    exact ⟨.inr (.inr hz), fun e => hnd'.1.2 (e ▸ hz), fun e => hnd'.2.1 (e ▸ hz)⟩
  · rintro ⟨rfl | rfl | hz, hx, hy⟩
    · exact absurd rfl hx
    · exact absurd rfl hy
    · exact hz

/-- The block to be freed and its free buddy are joined. -/
theorem Inv.join (h : Inv m bs used lo hi (some (a, i))) (hb : freeTile b i ∈ bs)
    (hc : Core m' (l₁ ++ usedTile new (i + 1) :: l₂) lo hi)
    (hsub : ∀ t, t ∈ l₁ ++ l₂ ↔ t ∈ bs ∧ t ≠ usedTile a i ∧ t ≠ freeTile b i)
    (hbits : m'.bit = m.bit) (hin : i + 1 < NUM_SIZES) (hnew : blockSize (i + 1) ∣ new)
    (hstart : new = a ∨ new = b) :
    Inv m' (l₁ ++ usedTile new (i + 1) :: l₂) used lo hi (some (new, i + 1)) := by
  have hcur := h.current _ rfl
  have hmem : ∀ t, t ∈ l₁ ++ usedTile new (i + 1) :: l₂ ↔
      t = usedTile new (i + 1) ∨ t ∈ l₁ ++ l₂ := by
    intro t
    simp only [List.mem_append, List.mem_cons]
    tauto
  have hfree : ∀ c k, freeTile c k ∈ l₁ ++ usedTile new (i + 1) :: l₂ → freeTile c k ∈ bs := by
    intro c k hck
    obtain e | hck := (hmem _).mp hck
    · unfold freeTile usedTile at e
      simp at e
    · exact ((hsub _).mp hck).1
  refine ⟨hc, h.nodup, fun t ht hf => ?_, fun p hp => ?_, fun p hp => ?_, fun c d k hk hcf hdf => ?_⟩
  · obtain rfl | ht := (hmem t).mp ht
    · exact ⟨new, i + 1, rfl, hin, hnew, .inr rfl⟩
    · obtain ⟨ht, hta, -⟩ := (hsub t).mp ht
      obtain ⟨c, k, rfl, hk, hd, hu⟩ := h.blocks t ht hf
      obtain hu | hu := hu
      · exact ⟨c, k, rfl, hk, hd, .inl hu⟩
      · cases hu
        exact absurd rfl hta
  · obtain ⟨hpt, hpb⟩ := h.allocated p hp
    rw [hbits]
    refine ⟨(hmem _).mpr (.inr ((hsub _).mpr ⟨hpt, fun e => ?_, fun e => ?_⟩)), hpb⟩
    · obtain ⟨h₁, h₂⟩ := usedTile_inj e
      exact hcur.2 (by rw [← Prod.mk.eta (p := p), h₁, h₂] at hp; exact hp)
    · unfold freeTile usedTile at e
      simp at e
  · cases hp
    refine ⟨(hmem _).mpr (.inl rfl), fun hp => ?_⟩
    have hpt := (h.allocated _ hp).1
    obtain rfl | rfl := hstart
    · exact absurd (usedTile_inj (h.eq_of_start hpt hcur.1 rfl)).2 (Nat.succ_ne_self i)
    · have e := h.eq_of_start hpt hb rfl
      unfold freeTile usedTile at e
      simp at e
  · exact h.apart c d k hk (hfree c k hcf) (hfree d k hdf)

/-- Two halves tile what the whole block tiles. -/
theorem tiles_join {c d : Nat} (hb : b = a + blockSize i)
    (h : Tiles Tile.start Tile.last c [usedTile a i, usedTile b i] d) :
    Tiles Tile.start Tile.last c [usedTile a (i + 1)] d := by
  have hpos := blockSize_pos i
  have hsucc := blockSize_succ i
  simp only [tiles_cons, tiles_nil] at h ⊢
  unfold Tile.last usedTile at *
  dsimp only at *
  omega

/-- A round of the loop in `free`. -/
theorem Inv.mergeRound (h : Inv m bs used lo hi (some (a, i))) (hm : m.buddy a i = some (b, new)) :
    ∃ bs', Inv (m.unlink b) bs' used lo hi (some (new, i + 1)) := by
  obtain ⟨hin, rfl, rfl, hbit, hindex⟩ := buddy_some hm
  have hb := h.buddy_free hin hbit hindex
  have hcur : usedTile a i ∈ bs := (h.current _ rfl).1
  obtain ⟨-, ha⟩ := h.aligned_used hcur
  have hpos := blockSize_pos i
  have hnone : ∀ x y : Nat, ∀ t ∈ [usedTile x i, usedTile y i], t.free = none := by simp [usedTile]
  have hwhole : ∀ x : Nat, ∀ t ∈ [usedTile x (i + 1)], t.free = none ∧ 0 < t.size := by
    simp [usedTile, blockSize_pos]
  obtain ⟨hd, hbuddy, hnew⟩ | ⟨hd, hbuddy, hnew⟩ := buddyOf_cases ha
  · -- the buddy is the upper half
    obtain ⟨l₁, l₂, rfl⟩ := h.tiles.consecutive hcur hb (by
      unfold Tile.last usedTile freeTile
      dsimp only
      omega)
    have hcore := h.toCore
    rw [List.append_cons] at hcore
    have hused := hcore.toUsed
    rw [List.append_assoc] at hused
    have hjoined := Core.retile l₁ [usedTile a i, usedTile (buddyOf a i) i] [usedTile a (i + 1)] l₂
      hused (hnone _ _) (hwhole a) fun c d hcd => tiles_join hbuddy hcd
    rw [hnew]
    exact ⟨_, h.join hb hjoined (fun t => mem_cut h.tiles.nodup) rfl hin hd (.inl rfl)⟩
  · -- the buddy is the lower half
    obtain ⟨l₁, l₂, rfl⟩ := h.tiles.consecutive hb hcur (by
      unfold Tile.last usedTile freeTile
      dsimp only
      omega)
    have hjoined := Core.retile l₁ [usedTile (buddyOf a i) i, usedTile a i]
      [usedTile (buddyOf a i) (i + 1)] l₂ h.toUsed (hnone _ _) (hwhole (buddyOf a i))
      fun c d hcd => tiles_join hbuddy hcd
    rw [hnew]
    refine ⟨_, h.join hb hjoined (fun t => ?_) rfl hin hd (.inr rfl)⟩
    exact (mem_cut h.tiles.nodup).trans (and_congr_right fun _ => and_comm)

/-- The loop of `free` ends with a block that has no free buddy. -/
theorem Inv.merge (h : Inv m bs used lo hi (some (a, i))) (hn : i + n = NUM_SIZES) :
    ∃ bs', Inv (m.merge n a i).1 bs' used lo hi (some (m.merge n a i).2) ∧
      (m.merge n a i).1.buddy (m.merge n a i).2.1 (m.merge n a i).2.2 = none := by
  induction n generalizing m bs a i with
  | zero =>
    have hin := (h.aligned_used (h.current _ rfl).1).1
    omega
  | succ n ih =>
    unfold Buddy.merge
    cases hm : m.buddy a i with
    | none => exact ⟨bs, h, hm⟩
    | some p =>
      obtain ⟨b, new⟩ := p
      obtain ⟨bs', h'⟩ := h.mergeRound hm
      exact ih h' (by omega)

/-- The bit of another block is not touched. -/
theorem Inv.bit_other {v : Bool} (h : Inv m bs used lo hi cur) (ht : t ∈ bs) (ha : blockSize i ∣ a)
    (hbound : m.base ≤ a) (hne : t.start ≠ a) : (m.setBit a v).bit t.start = m.bit t.start := by
  obtain ⟨j, -, hd⟩ := h.aligned_tile ht
  have hbase : MIN_SIZE ∣ m.base := (min_dvd_blockSize 0).trans (h.base_dvd (by decide))
  rw [bit_setBit hbase ((min_dvd_blockSize i).trans ha) ((min_dvd_blockSize j).trans hd) hbound
    (h.low.trans (h.mem_bounds ht).1), if_neg hne]

theorem merge_base (m : Buddy) (n a i : Nat) : (m.merge n a i).1.base = m.base := by
  induction n generalizing m a i with
  | zero => rfl
  | succ n ih =>
    unfold Buddy.merge
    cases m.buddy a i with
    | none => rfl
    | some p => exact ih (m.unlink p.1) p.2 (i + 1)

/-- A block without a free buddy is put on its list. -/
theorem Inv.release (h : Inv m bs used lo hi (some (a, i))) (hm : m.buddy a i = none) :
    ∃ bs', Inv ((m.link i a).setBit a true) bs' used lo hi none := by
  have hcur := h.current _ rfl
  have hmemcur : usedTile a i ∈ bs := hcur.1
  obtain ⟨hin, ha⟩ := h.aligned_used hmemcur
  have hbound : m.base ≤ a := h.low.trans (h.mem_bounds hmemcur).1
  obtain ⟨l₁, l₂, rfl⟩ := List.append_of_mem hmemcur
  obtain ⟨hout, -⟩ := List.nodup_cons.mp (List.perm_middle.nodup_iff.mp h.tiles.nodup)
  have hmem : ∀ t, t ∈ l₁ ++ freeTile a i :: l₂ ↔
      t = freeTile a i ∨ (t ∈ l₁ ++ usedTile a i :: l₂ ∧ t ≠ usedTile a i) := by
    intro t
    rw [List.perm_middle.mem_iff, List.perm_middle.mem_iff, List.mem_cons, List.mem_cons]
    constructor
    · rintro (rfl | ht)
      · exact .inl rfl
      · exact .inr ⟨.inr ht, fun e => hout (e ▸ ht)⟩
    · rintro (rfl | ⟨rfl | ht, hne⟩)
      · exact .inl rfl
      · exact absurd rfl hne
      · exact .inr ht
  -- a free block next to it would have been found
  have hapart : ∀ c, i + 1 < NUM_SIZES → freeTile c i ∈ l₁ ++ usedTile a i :: l₂ →
      a / blockSize (i + 1) ≠ c / blockSize (i + 1) := by
    intro c hk hc hp
    obtain ⟨-, -, hd, hindex, hbit⟩ := h.free _ hc i rfl
    have hne : c ≠ a := by
      rintro rfl
      have e := h.eq_of_start hc hmemcur rfl
      unfold freeTile usedTile at e
      simp at e
    have hca : c = buddyOf a i := eq_buddyOf ha hd hp hne
    exact buddy_none hm hk ⟨hca ▸ hbit, hca ▸ hindex⟩
  refine ⟨l₁ ++ freeTile a i :: l₂, h.toFree hin ha, h.nodup, fun t ht hf => ?_, fun p hp => ?_,
    fun p hp => (by cases hp), fun c d k hk hc hd hp => ?_⟩
  · obtain rfl | ⟨ht, hne⟩ := (hmem t).mp ht
    · cases hf
    · obtain ⟨c, k, rfl, hk, hd, hu⟩ := h.blocks t ht hf
      obtain hu | hu := hu
      · exact ⟨c, k, rfl, hk, hd, .inl hu⟩
      · cases hu
        exact absurd rfl hne
  · obtain ⟨hpt, hpb⟩ := h.allocated p hp
    have hne : usedTile p.1 p.2 ≠ usedTile a i := by
      intro e
      obtain ⟨h₁, h₂⟩ := usedTile_inj e
      exact hcur.2 (by rw [← Prod.mk.eta (p := p), h₁, h₂] at hp; exact hp)
    refine ⟨(hmem _).mpr (.inr ⟨hpt, hne⟩), ?_⟩
    have hstart : (usedTile p.1 p.2).start ≠ a := fun e => hne (h.eq_of_start hpt hmemcur e)
    exact (h.bit_other (v := true) hpt ha hbound hstart).trans hpb
  · obtain e | ⟨hc, -⟩ := (hmem _).mp hc
    · obtain ⟨rfl, rfl⟩ := freeTile_inj e
      obtain e | ⟨hd, -⟩ := (hmem _).mp hd
      · exact (freeTile_inj e).1.symm
      · exact absurd hp (hapart d hk hd)
    · obtain e | ⟨hd, -⟩ := (hmem _).mp hd
      · obtain ⟨rfl, rfl⟩ := freeTile_inj e
        exact absurd hp.symm (hapart c hk hc)
      · exact h.apart c d k hk hc hd hp

theorem sizeIndexLoop_blockSize (hj : j ≤ i) (hn : i < j + n) :
    sizeIndexLoop (blockSize i) n j = some i := by
  induction n generalizing j with
  | zero => omega
  | succ n ih =>
    unfold sizeIndexLoop
    obtain rfl | hlt := Nat.eq_or_lt_of_le hj
    · exact if_neg (Nat.lt_irrefl _)
    · rw [if_pos (blockSize_lt hlt)]
      exact ih hlt (by omega)

theorem sizeIndex_blockSize (hi : i < NUM_SIZES) : sizeIndex (blockSize i) = some i :=
  sizeIndexLoop_blockSize (Nat.zero_le i) (Nat.lt_of_lt_of_le hi (by decide))

/-- `free` passes its assertions. -/
theorem Inv.freeBlock (h : Inv m bs used lo hi (some (a, i))) (hbit : m.bit a = false) :
    ∃ m' bs', m.freeBlock a (blockSize i) = some m' ∧ m'.base = m.base ∧
      Inv m' bs' used lo hi none := by
  have hcur := (h.current _ rfl).1
  obtain ⟨hin, ha⟩ := h.aligned_used hcur
  have hlow : lo ≤ a := (h.mem_bounds hcur).1
  have hhigh : a + blockSize i ≤ hi := (h.mem_bounds hcur).2
  have hpos := blockSize_pos i
  have hl := h.low
  have hh := h.high
  obtain ⟨bs₁, h₁, hnone⟩ := h.merge (n := NUM_SIZES - i) (by omega)
  obtain ⟨bs₂, h₂⟩ := Inv.release h₁ hnone
  refine ⟨_, bs₂, ?_, ?_, h₂⟩
  · unfold Buddy.freeBlock
    rw [if_pos ⟨by omega, by omega, hbit⟩, sizeIndex_blockSize hin]
    exact if_pos rfl
  · exact merge_base m (NUM_SIZES - i) a i

/-! ## Alloc -/

/-- The rest of a block whose first part is handed out: `n` blocks of growing size. -/
def pieces (tile : Nat → Nat → Tile) (f : Nat) : Nat → Nat → List Tile
  | 0, _ => []
  | n + 1, s => tile (f + blockSize s) s :: pieces tile f n (s + 1)

theorem mem_pieces {tile : Nat → Nat → Tile} :
    t ∈ pieces tile f n s ↔ ∃ k, s ≤ k ∧ k < s + n ∧ t = tile (f + blockSize k) k := by
  induction n generalizing s with
  | zero =>
    refine ⟨fun ht => (by cases ht), ?_⟩
    rintro ⟨k, h₁, h₂, -⟩
    omega
  | succ n ih =>
    rw [pieces, List.mem_cons, ih]
    constructor
    · rintro (rfl | ⟨k, h₁, h₂, rfl⟩)
      · exact ⟨s, Nat.le_refl s, by omega, rfl⟩
      · exact ⟨k, by omega, by omega, rfl⟩
    · rintro ⟨k, h₁, h₂, rfl⟩
      obtain rfl | hlt := Nat.eq_or_lt_of_le h₁
      · exact .inl rfl
      · exact .inr ⟨k, hlt, by omega, rfl⟩

theorem tiles_pieces (f n s : Nat) :
    Tiles Tile.start Tile.last (f + blockSize s) (pieces usedTile f n s) (f + blockSize (s + n)) := by
  induction n generalizing s with
  | zero => rfl
  | succ n ih =>
    have hpos := blockSize_pos s
    have hsucc := blockSize_succ s
    have hend : f + blockSize s + blockSize s - 1 + 1 = f + blockSize (s + 1) := by omega
    have hrest := ih (s + 1)
    refine ⟨rfl, ?_, ?_⟩
    · unfold Tile.last usedTile
      dsimp only
      omega
    · show Tiles Tile.start Tile.last (f + blockSize s + blockSize s - 1 + 1) _ _
      rw [hend, show s + (n + 1) = s + 1 + n by omega]
      exact hrest

/-- `split` frees the pieces. -/
theorem Core.split (h : Core m (l₁ ++ (pieces usedTile f n s ++ l₂)) lo hi)
    (hf : blockSize (s + n) ∣ f) (hn : s + n ≤ NUM_SIZES) :
    Core (m.split f n s) (l₁ ++ (pieces freeTile f n s ++ l₂)) lo hi := by
  induction n generalizing m l₁ s with
  | zero => exact h
  | succ n ih =>
    have hd : blockSize s ∣ f + blockSize s :=
      Nat.dvd_add ((blockSize_dvd (by omega)).trans hf) (Nat.dvd_refl _)
    have h : Core m (l₁ ++ usedTile (f + blockSize s) s :: (pieces usedTile f n (s + 1) ++ l₂)) lo hi :=
      h
    have hfree := h.toFree (by omega) hd
    rw [List.append_cons] at hfree
    have hrest := ih hfree (by rw [show s + 1 + n = s + (n + 1) by omega]; exact hf) (by omega)
    rw [List.append_assoc] at hrest
    exact hrest

/-- `split` sets no other bits than those of the pieces. -/
theorem split_bit (hbase : MIN_SIZE ∣ m.base) (hf : MIN_SIZE ∣ f) (hb : MIN_SIZE ∣ b)
    (hf' : m.base ≤ f) (hb' : m.base ≤ b)
    (hne : ∀ k, s ≤ k → k < s + n → b ≠ f + blockSize k) : (m.split f n s).bit b = m.bit b := by
  induction n generalizing m s with
  | zero => rfl
  | succ n ih =>
    have hround := bit_setBit (m := m.link s (f + blockSize s)) (v := true) hbase
      (Nat.dvd_add hf (min_dvd_blockSize s)) hb (hf'.trans (Nat.le_add_right f _)) hb'
    rw [if_neg (hne s (Nat.le_refl s) (by omega))] at hround
    refine (ih ?_ ?_ ?_ fun k h₁ h₂ => hne k (by omega) (by omega)).trans hround
    · exact hbase
    · exact hf'
    · exact hb'

/-- A block of the list `i` is split, and its first part handed out as a block of the index `s`. -/
theorem Inv.take (h : Inv m bs used lo hi none) (hf : freeTile f i ∈ bs) (hs : s ≤ i) :
    (f, s) ∉ used ∧ ∃ bs', Inv (((m.unlink f).split f (i - s) s).setBit f false) bs'
      ((f, s) :: used) lo hi none := by
  obtain ⟨-, hin, hd', -, -⟩ := h.free _ hf i rfl
  have hd : blockSize i ∣ f := hd'
  have hlow : m.base ≤ f := h.low.trans (h.mem_bounds hf).1
  obtain ⟨l₁, l₂, rfl⟩ := List.append_of_mem hf
  obtain ⟨hout, -⟩ := List.nodup_cons.mp (List.perm_middle.nodup_iff.mp h.tiles.nodup)
  have hold : ∀ t, t ∈ l₁ ++ l₂ → t ∈ l₁ ++ freeTile f i :: l₂ := by
    intro t ht
    rw [List.perm_middle.mem_iff]
    exact List.mem_cons_of_mem _ ht
  have hpos := blockSize_pos s
  have hsi : s + (i - s) = i := by omega
  have hcut := Core.retile l₁ [usedTile f i] (usedTile f s :: pieces usedTile f (i - s) s) l₂
    h.toUsed (by simp [usedTile]) (fun t ht => ?_) (fun c d hcd => ?_)
  · rw [List.cons_append, List.append_cons] at hcut
    have hsplit := Core.split hcut (by rw [hsi]; exact hd) (by omega)
    rw [List.append_assoc, List.singleton_append] at hsplit
    have hmem : ∀ t, t ∈ l₁ ++ usedTile f s :: (pieces freeTile f (i - s) s ++ l₂) ↔
        t = usedTile f s ∨ (∃ k, s ≤ k ∧ k < i ∧ t = freeTile (f + blockSize k) k) ∨
          t ∈ l₁ ++ l₂ := by
      intro t
      rw [List.perm_middle.mem_iff, List.mem_cons, List.mem_append, List.mem_append, mem_pieces, hsi,
        List.mem_append]
      exact or_congr_right or_left_comm
    have hmin : MIN_SIZE ∣ f := (min_dvd_blockSize i).trans hd
    have hclear := hsplit.clearBit (t := usedTile f s) ((hmem _).mpr (.inl rfl)) rfl hmin
    -- the blocks that were allocated before lie outside of the block that is split
    have hbefore : ∀ p ∈ used, usedTile p.1 p.2 ∈ l₁ ++ l₂ ∧
        ¬ (f ≤ p.1 ∧ p.1 < f + blockSize i) := by
      intro p hp
      have hpt := (h.allocated p hp).1
      have hne : usedTile p.1 p.2 ≠ freeTile f i := by
        unfold freeTile usedTile
        simp
      refine ⟨?_, fun hx => hne ?_⟩
      · rw [List.perm_middle.mem_iff, List.mem_cons] at hpt
        exact hpt.resolve_left hne
      · have hp₂ := blockSize_pos p.2
        exact h.unique (b := p.1) hpt hf (Nat.le_refl p.1) (show p.1 < p.1 + blockSize p.2 by omega)
          hx.1 hx.2
    have hnot : (f, s) ∉ used := by
      intro hp
      have hpos' := blockSize_pos i
      exact (hbefore _ hp).2 ⟨Nat.le_refl f, by omega⟩
    refine ⟨hnot, _, hclear, List.nodup_cons.mpr ⟨hnot, h.nodup⟩, fun t ht hn => ?_,
      fun p hp => ?_, fun p hp => (by cases hp), fun c d k hk hc hd hp => ?_⟩
    · obtain rfl | ⟨k, -, -, rfl⟩ | ht := (hmem t).mp ht
      · exact ⟨f, s, rfl, by omega, (blockSize_dvd hs).trans hd, .inl List.mem_cons_self⟩
      · cases hn
      · obtain ⟨c, k, rfl, hk, hd, hu⟩ := h.blocks t (hold t ht) hn
        obtain hu | hu := hu
        · exact ⟨c, k, rfl, hk, hd, .inl (List.mem_cons_of_mem _ hu)⟩
        · cases hu
    · have hbase := (min_dvd_blockSize 0).trans (hsplit.base_dvd (by decide))
      have hlow' := hsplit.low.trans (hsplit.mem_bounds ((hmem _).mpr (.inl rfl))).1
      obtain rfl | hp := List.mem_cons.mp hp
      · exact ⟨(hmem _).mpr (.inl rfl), (bit_setBit hbase hmin hmin hlow' hlow').trans (if_pos rfl)⟩
      · obtain ⟨hpt, hfar⟩ := hbefore p hp
        have hpt' := (hmem _).mpr (.inr (.inr hpt))
        have hlowp := hsplit.low.trans (hsplit.mem_bounds hpt').1
        have hminp : MIN_SIZE ∣ p.1 := (min_dvd_blockSize p.2).trans (h.aligned_used (hold _ hpt)).2
        have hne : p.1 ≠ f := by
          intro e
          have hpos' := blockSize_pos i
          exact hfar ⟨by omega, by omega⟩
        refine ⟨hpt', (bit_setBit hbase hmin hminp hlow' hlowp).trans ?_⟩
        rw [if_neg hne, split_bit (m := m.unlink f)]
        · exact (h.allocated p hp).2
        · exact (min_dvd_blockSize 0).trans (h.base_dvd (by decide))
        · exact hmin
        · exact hminp
        · exact hlow
        · exact h.low.trans (h.mem_bounds (hold _ hpt)).1
        · intro k hk₁ hk₂ e
          have hlt : blockSize k < blockSize i := blockSize_lt (by omega)
          exact hfar ⟨by omega, by omega⟩
    · have hcase : ∀ c, freeTile c k ∈ l₁ ++ usedTile f s :: (pieces freeTile f (i - s) s ++ l₂) →
          (k < i ∧ c = f + blockSize k) ∨ freeTile c k ∈ l₁ ++ l₂ := by
        intro c hc
        obtain e | ⟨j, -, hj, e⟩ | hc := (hmem _).mp hc
        · unfold freeTile usedTile at e
          simp at e
        · obtain ⟨rfl, rfl⟩ := freeTile_inj e
          exact .inl ⟨hj, rfl⟩
        · exact .inr hc
      -- a free block outside is never the buddy of a piece
      have hfar : ∀ c, k < i → freeTile c k ∈ l₁ ++ l₂ →
          (f + blockSize k) / blockSize (k + 1) ≠ c / blockSize (k + 1) := by
        intro c hki hc hp
        have hk₁ := blockSize_pos k
        have hk₂ := blockSize_succ k
        have hk₃ : blockSize (k + 1) ≤ blockSize i :=
          Nat.le_of_dvd (blockSize_pos i) (blockSize_dvd (Nat.succ_le_of_lt hki))
        have hpos' := blockSize_pos (k + 1)
        obtain ⟨q, hq⟩ : blockSize (k + 1) ∣ f := (blockSize_dvd (Nat.succ_le_of_lt hki)).trans hd'
        rw [hq, Nat.mul_add_div hpos', Nat.div_eq_of_lt (by omega), Nat.add_zero] at hp
        have hc₁ := Nat.div_mul_le_self c (blockSize (k + 1))
        have hc₂ := Nat.lt_div_mul_add (a := c) hpos'
        rw [← hp, Nat.mul_comm, ← hq] at hc₁ hc₂
        have e := h.unique (b := c) (hold _ hc) hf (Nat.le_refl c)
          (show c < c + blockSize k by omega) hc₁ (show c < f + blockSize i by omega)
        exact hout (e ▸ hc)
      obtain ⟨hki, rfl⟩ | hc := hcase c hc
      · obtain ⟨-, rfl⟩ | hd := hcase d hd
        · rfl
        · exact absurd hp (hfar d hki hd)
      · obtain ⟨hki, rfl⟩ | hd := hcase d hd
        · exact absurd hp.symm (hfar c hki hc)
        · exact h.apart c d k hk (hold _ hc) (hold _ hd) hp
  · obtain rfl | ht := List.mem_cons.mp ht
    · exact ⟨rfl, hpos⟩
    · obtain ⟨k, -, -, rfl⟩ := mem_pieces.mp ht
      exact ⟨rfl, blockSize_pos k⟩
  · have hrest := tiles_pieces f (i - s) s
    rw [hsi] at hrest
    have hpos' := blockSize_pos i
    obtain ⟨rfl, -, he⟩ := hcd
    have he : f + blockSize i - 1 + 1 = d := he
    have hd' : f + blockSize i = d := by omega
    have hfirst : f + blockSize s - 1 + 1 = f + blockSize s := by omega
    refine ⟨rfl, ?_, ?_⟩
    · unfold Tile.last usedTile
      dsimp only
      omega
    · show Tiles Tile.start Tile.last (f + blockSize s - 1 + 1) _ d
      rw [hfirst, ← hd']
      exact hrest

theorem Inv.allocFrom (h : Inv m bs used lo hi none) (hs : s ≤ i) :
    m.allocFrom s n i = (none, m) ∨ ∃ f m' bs', m.allocFrom s n i = (some f, m') ∧
      (f, s) ∉ used ∧ Inv m' bs' ((f, s) :: used) lo hi none := by
  induction n generalizing i with
  | zero => exact .inl rfl
  | succ n ih =>
    unfold Buddy.allocFrom
    cases hhead : m.lists.head i with
    | none => exact ih (Nat.le_succ_of_le hs)
    | some f =>
      obtain ⟨l, hl, -, hiff⟩ := h.lists i
      have hf : freeTile f i ∈ bs := (hiff f).mp (List.mem_of_mem_head? (hl.1 ▸ hhead))
      obtain ⟨hnot, bs', h'⟩ := h.take hf hs
      exact .inr ⟨f, _, bs', rfl, hnot, h'⟩

/-! ## Memory -/

/-- The owners of allocated blocks write what they like into them. -/
structure Writes (m : Buddy) (used : List (Nat × Nat)) (m' : Buddy) : Prop where
  base : m'.base = m.base
  freeMap : m'.freeMap = m.freeMap
  head : m'.lists.head = m.lists.head
  memory : ∀ a, (∀ p ∈ used, ¬ (p.1 ≤ a ∧ a < p.1 + blockSize p.2)) →
    m'.index a = m.index a ∧ m'.lists.next a = m.lists.next a ∧
      m'.lists.prevNext a = m.lists.prevNext a

theorem Inv.writes (h : Inv m bs used lo hi none) (hw : Writes m used m') :
    Inv m' bs used lo hi none := by
  have hbit : m'.bit = m.bit := by
    funext a
    unfold bit
    rw [hw.base, hw.freeMap]
  have hfar : ∀ t ∈ bs, t.free ≠ none → ∀ p ∈ used,
      ¬ (p.1 ≤ t.start ∧ t.start < p.1 + blockSize p.2) := by
    intro t ht hf p hp hin
    have hpos := h.pos t ht
    have e := h.unique (b := t.start) ht (h.allocated p hp).1 (Nat.le_refl _) (by omega) hin.1 hin.2
    rw [e] at hf
    exact hf rfl
  refine ⟨⟨h.tiles, h.pos, hw.base ▸ h.base, hw.base ▸ h.low, hw.base ▸ h.high, fun i => ?_,
    fun t ht i hf => ?_, fun n hn => ?_⟩, h.nodup, h.blocks, fun p hp => ?_, h.current, h.apart⟩
  · obtain ⟨l, hl, hnd, hiff⟩ := h.lists i
    have hmem : ∀ a ∈ l, ∀ p ∈ used, ¬ (p.1 ≤ a ∧ a < p.1 + blockSize p.2) := fun a ha =>
      hfar _ ((hiff a).mp ha) (by unfold freeTile; simp)
    exact ⟨l, hl.congr (congrFun hw.head i) (fun a ha => (hw.memory a (hmem a ha)).2.1)
      fun a ha => (hw.memory a (hmem a ha)).2.2, hnd, hiff⟩
  · obtain ⟨h₁, h₂, h₃, h₄, h₅⟩ := h.free t ht i hf
    have hne : t.free ≠ none := by
      rw [hf]
      rintro ⟨⟩
    rw [hbit, (hw.memory _ (hfar t ht hne)).1]
    exact ⟨h₁, h₂, h₃, h₄, h₅⟩
  · rw [hw.base]
    exact h.bits n (hw.freeMap ▸ hn)
  · rw [hbit]
    exact h.allocated p hp

/-- New memory behind the old one, as a block that is about to be freed. -/
theorem Inv.extend (h : Inv m bs used lo hi none) (hhi : MIN_SIZE ∣ hi)
    (hmax : hi + MIN_SIZE ≤ m.base + MAX_MEM) :
    Inv m (bs ++ [usedTile hi 0]) used lo (hi + MIN_SIZE) (some (hi, 0)) ∧ m.bit hi = false := by
  have hzero : blockSize 0 = MIN_SIZE := rfl
  have hle := h.tiles.le
  have hbefore : ∀ t ∈ bs, t.start < hi := by
    intro t ht
    have hb := h.mem_bounds ht
    have hpos := h.pos t ht
    omega
  have hmem : ∀ t, t.start < hi → (t ∈ bs ++ [usedTile hi 0] ↔ t ∈ bs) := by
    intro t ht
    have hne : t ≠ usedTile hi 0 := by
      rintro rfl
      exact absurd ht (Nat.lt_irrefl hi)
    simp [hne]
  have hfree : ∀ a i, freeTile a i ∈ bs ++ [usedTile hi 0] ↔ freeTile a i ∈ bs := by
    intro a i
    have hne : freeTile a i ≠ usedTile hi 0 := by
      unfold freeTile usedTile
      simp
    simp [hne]
  refine ⟨⟨⟨?_, fun t ht => ?_, h.base, h.low, hmax, fun i => ?_, fun t ht i hf => ?_, fun n hn => ?_⟩,
    h.nodup, fun t ht hf => ?_, fun p hp => ?_, fun p hp => ?_, fun a b i hi ha hb => ?_⟩, ?_⟩
  · refine tiles_append.mpr ⟨hi, h.tiles, rfl, ?_, ?_⟩
    · unfold Tile.last usedTile
      dsimp only
      have := blockSize_pos 0
      omega
    · show hi + blockSize 0 - 1 + 1 = hi + MIN_SIZE
      have := blockSize_pos 0
      omega
  · obtain ht | ht := List.mem_append.mp ht
    · exact h.pos t ht
    · rw [List.mem_singleton.mp ht]
      exact blockSize_pos 0
  · obtain ⟨l, hl, hnd, hiff⟩ := h.lists i
    exact ⟨l, hl, hnd, fun a => (hiff a).trans (hfree a i).symm⟩
  · obtain ht | ht := List.mem_append.mp ht
    · exact h.free t ht i hf
    · rw [List.mem_singleton.mp ht] at hf
      cases hf
  · have := h.bits n hn
    omega
  · obtain ht | ht := List.mem_append.mp ht
    · obtain ⟨c, k, e, hk, hd, hu⟩ := h.blocks t ht hf
      obtain hu | hu := hu
      · exact ⟨c, k, e, hk, hd, .inl hu⟩
      · cases hu
    · exact ⟨hi, 0, List.mem_singleton.mp ht, by decide, hhi, .inr rfl⟩
  · obtain ⟨hp, hb⟩ := h.allocated p hp
    exact ⟨List.mem_append_left _ hp, hb⟩
  · cases hp
    refine ⟨List.mem_append_right _ (List.mem_singleton_self _), fun hp => ?_⟩
    exact Nat.lt_irrefl hi (hbefore _ (h.allocated _ hp).1)
  · exact h.apart a b i hi ((hfree a i).mp ha) ((hfree b i).mp hb)
  · have hbase : MIN_SIZE ∣ m.base := (min_dvd_blockSize 0).trans (h.base_dvd (by decide))
    have hlow := h.low
    by_contra hbit
    have hbits := h.bits _ (Bool.of_not_eq_false hbit)
    rw [Nat.mul_div_cancel' (Nat.dvd_sub hhi hbase)] at hbits
    omega

/-- An allocator without memory. -/
structure Fresh (m : Buddy) : Prop where
  base : MAX_SIZE ∣ m.base
  head : ∀ i, m.lists.head i = none
  freeMap : ∀ n, m.freeMap n = false

theorem Fresh.inv (h : Fresh m) (hlow : m.base ≤ lo) (hhigh : lo ≤ m.base + MAX_MEM) :
    Inv m [] [] lo lo none := by
  refine ⟨⟨rfl, fun t ht => (by cases ht), h.base, hlow, hhigh, fun i => ⟨[], ⟨h.head i, trivial⟩,
    List.nodup_nil, fun a => ?_⟩, fun t ht => (by cases ht), fun n hn => ?_⟩, List.nodup_nil,
    fun t ht => (by cases ht), fun p hp => (by cases hp), fun p hp => (by cases hp),
    fun a b i _ ha => (by cases ha)⟩
  · exact ⟨fun ha => (by cases ha), fun ha => (by cases ha)⟩
  · rw [h.freeMap n] at hn
    cases hn

theorem Inv.addBlocks (h : Inv m bs [] lo hi none) (hhi : MIN_SIZE ∣ hi)
    (hmax : hi + MIN_SIZE * n ≤ m.base + MAX_MEM) : ∃ m' bs', m.addBlocks n hi = some m' ∧
      Inv m' bs' [] lo (hi + MIN_SIZE * n) none := by
  induction n generalizing m bs hi with
  | zero => exact ⟨m, bs, rfl, h⟩
  | succ n ih =>
    have hmax : hi + (MIN_SIZE * n + MIN_SIZE) ≤ m.base + MAX_MEM := hmax
    have hmul : MIN_SIZE * (n + 1) = MIN_SIZE * n + MIN_SIZE := Nat.mul_succ MIN_SIZE n
    rw [hmul]
    generalize MIN_SIZE * n = size at hmax ih ⊢
    have hfit : hi + MIN_SIZE ≤ m.base + MAX_MEM :=
      Nat.le_trans (Nat.add_le_add_left (Nat.le_add_left MIN_SIZE size) hi) hmax
    obtain ⟨hext, hbit⟩ := h.extend hhi hfit
    obtain ⟨m₁, bs₁, e, hbase, h₁⟩ := hext.freeBlock hbit
    have hnext : MIN_SIZE ∣ hi + MIN_SIZE := Nat.dvd_add hhi (Nat.dvd_refl MIN_SIZE)
    obtain ⟨m₂, bs₂, e₂, h₂⟩ := ih h₁ hnext (by rw [hbase]; omega)
    refine ⟨m₂, bs₂, ?_, ?_⟩
    · unfold Buddy.addBlocks
      have e' : m.freeBlock hi MIN_SIZE = some m₁ := e
      rw [e']
      exact e₂
    · rw [Nat.add_comm size, ← Nat.add_assoc]
      exact h₂

/-! ## Runs -/

/-- The whole blocks of a region. -/
theorem region_bounds {start size : Nat} (hbase : MAX_SIZE ∣ m.base) (hlow : m.base ≤ start)
    (hhigh : start + size ≤ m.base + MAX_MEM) : MIN_SIZE ∣ alignedStart start ∧
    m.base ≤ alignedStart start ∧
    alignedStart start + MIN_SIZE * wholeBlocks start size ≤ m.base + MAX_MEM := by
  obtain ⟨k, hk⟩ := hbase
  have hstart : start ≤ alignedStart start ∧ alignedStart start < start + 1024 := by
    unfold alignedStart
    dsimp only [MIN_SIZE]
    omega
  refine ⟨Nat.dvd_mul_left _ _, hlow.trans hstart.1, ?_⟩
  unfold wholeBlocks
  dsimp only [MIN_SIZE, MAX_MEM, MAX_SIZE] at *
  split
  · unfold alignedStart at *
    dsimp only [MIN_SIZE] at *
    omega
  · have := Nat.mul_div_le (size - (alignedStart start - start)) 1024
    omega

/-- The states of an allocator with the blocks that are handed out. The whole blocks of its memory
reach from `lo` to `hi`. -/
inductive Reachable (lo hi : Nat) : Buddy → List (Nat × Nat) → Prop
  | addMem {m m' : Buddy} {start size : Nat} : Fresh m → m.base ≤ start →
    start + size ≤ m.base + MAX_MEM → m.addMem start size = some m' → lo = alignedStart start →
    hi = lo + MIN_SIZE * wholeBlocks start size → Reachable lo hi m' []
  | alloc {m m' : Buddy} {used : List (Nat × Nat)} {size i : Nat} {f : Option Nat} :
    Reachable lo hi m used → m.alloc size = some (f, i, m') →
    Reachable lo hi m' (f.toList.map (·, i) ++ used)
  | free {m m' : Buddy} {used : List (Nat × Nat)} {a i : Nat} :
    Reachable lo hi m used → (a, i) ∈ used → m.freeBlock a (blockSize i) = some m' →
    Reachable lo hi m' (used.erase (a, i))
  | writes {m m' : Buddy} {used : List (Nat × Nat)} :
    Reachable lo hi m used → Writes m used m' → Reachable lo hi m' used

/-- A block is freed by its owner. -/
theorem Inv.toCurrent (h : Inv m bs used lo hi none) (hp : (a, i) ∈ used) :
    Inv m bs (used.erase (a, i)) lo hi (some (a, i)) ∧ m.bit a = false := by
  refine ⟨⟨h.toCore, h.nodup.erase _, fun t ht hf => ?_, fun p hp' => ?_, fun p hp' => ?_, h.apart⟩,
    (h.allocated _ hp).2⟩
  · obtain ⟨c, k, e, hk, hd, hu⟩ := h.blocks t ht hf
    refine ⟨c, k, e, hk, hd, ?_⟩
    obtain hu | hu := hu
    · by_cases hck : (c, k) = (a, i)
      · exact .inr (by rw [hck])
      · exact .inl ((List.mem_erase_of_ne hck).mpr hu)
    · cases hu
  · exact h.allocated p (List.mem_of_mem_erase hp')
  · cases hp'
    exact ⟨(h.allocated _ hp).1, fun hmem => (h.nodup.mem_erase_iff.mp hmem).1 rfl⟩

theorem Reachable.inv (h : Reachable lo hi m used) : ∃ bs, Inv m bs used lo hi none := by
  induction h with
  | @addMem m m' start size hfresh hlow hhigh hadd hlo hhi =>
    subst hlo hhi
    obtain ⟨hmin, hlow', hhigh'⟩ := region_bounds hfresh.base hlow hhigh
    obtain ⟨m₁, bs, e, hinv⟩ := (hfresh.inv hlow' (by omega)).addBlocks hmin hhigh'
    cases e.symm.trans hadd
    exact ⟨bs, hinv⟩
  | @alloc m m' used size i f _ halloc ih =>
    obtain ⟨bs, hinv⟩ := ih
    unfold Buddy.alloc at halloc
    split at halloc
    · cases halloc
    · rename_i index _
      obtain e | ⟨c, m₁, bs₁, e, -, h₁⟩ := hinv.allocFrom (n := NUM_SIZES - index) (Nat.le_refl index)
      · rw [e] at halloc
        cases halloc
        exact ⟨bs, hinv⟩
      · rw [e] at halloc
        cases halloc
        exact ⟨bs₁, h₁⟩
  | @free m m' used a i _ hp hfree ih =>
    obtain ⟨bs, hinv⟩ := ih
    obtain ⟨hcur, hbit⟩ := hinv.toCurrent hp
    obtain ⟨m₁, bs₁, e, -, h₁⟩ := hcur.freeBlock hbit
    cases e.symm.trans hfree
    exact ⟨bs₁, h₁⟩
  | writes _ hw ih =>
    obtain ⟨bs, hinv⟩ := ih
    exact ⟨bs, hinv.writes hw⟩

/-- The block at `a` is on the list of the index `i`. -/
def OnList (m : Buddy) (i a : Nat) : Prop := ∃ l, m.lists.IsList i l ∧ a ∈ l

/-- The blocks of the lists and the blocks that are handed out, as address, index, and whether the
block is free. -/
def Block (m : Buddy) (used : List (Nat × Nat)) (b : Nat × Nat × Bool) : Prop :=
  if b.2.2 then m.OnList b.2.1 b.1 else (b.1, b.2.1) ∈ used

/-- What holds of an allocator between two calls. -/
structure Sound (m : Buddy) (used : List (Nat × Nat)) (lo hi : Nat) : Prop where
  lists : ∀ i, ∃ l, m.lists.IsList i l ∧ l.Nodup ∧ ∀ a ∈ l, m.index a = i
  once : ∀ a i j, m.OnList i a → m.OnList j a → i = j
  nodup : used.Nodup
  aligned : ∀ b, Block m used b → b.2.1 < NUM_SIZES ∧ blockSize b.2.1 ∣ b.1
  inside : ∀ b, Block m used b → lo ≤ b.1 ∧ b.1 + blockSize b.2.1 ≤ hi
  cover : ∀ x, lo ≤ x → x < hi →
    ∃! b : Nat × Nat × Bool, Block m used b ∧ b.1 ≤ x ∧ x < b.1 + blockSize b.2.1
  apart : ∀ a i, i + 1 < NUM_SIZES → m.OnList i a → ¬ m.OnList i (buddyOf a i)
  freeable : ∀ p ∈ used, m.bit p.1 = false ∧ (m.freeBlock p.1 (blockSize p.2)).isSome

theorem Core.onList (h : Core m bs lo hi) (a i : Nat) : m.OnList i a ↔ freeTile a i ∈ bs := by
  obtain ⟨l, hl, -, hiff⟩ := h.lists i
  rw [← hiff]
  constructor
  · rintro ⟨l', hl', ha⟩
    rw [hl.unique hl']
    exact ha
  · exact fun ha => ⟨l, hl, ha⟩

/-- The blocks are the tiles. -/
theorem Inv.block (h : Inv m bs used lo hi none) (a i : Nat) (fr : Bool) :
    Block m used (a, i, fr) ↔ (if fr then freeTile a i else usedTile a i) ∈ bs := by
  cases fr with
  | true => exact h.onList a i
  | false =>
    refine ⟨fun hp => (h.allocated _ hp).1, fun ht => ?_⟩
    obtain ⟨c, k, e, -, -, hu⟩ := h.blocks _ ht rfl
    obtain ⟨rfl, rfl⟩ := usedTile_inj e
    obtain hu | hu := hu
    · exact hu
    · cases hu

/-- The tile of a block. -/
def tileOf (b : Nat × Nat × Bool) : Tile :=
  if b.2.2 then freeTile b.1 b.2.1 else usedTile b.1 b.2.1

theorem tileOf_spec (b : Nat × Nat × Bool) :
    (tileOf b).start = b.1 ∧ (tileOf b).size = blockSize b.2.1 := by
  unfold tileOf
  split
  · exact ⟨rfl, rfl⟩
  · exact ⟨rfl, rfl⟩

theorem tileOf_inj {b c : Nat × Nat × Bool} (h : tileOf b = tileOf c) : b = c := by
  obtain ⟨a, i, fr⟩ := b
  obtain ⟨d, j, gr⟩ := c
  have hi : i = j := blockSize_inj (by rw [← (tileOf_spec (a, i, fr)).2, h, (tileOf_spec _).2])
  have ha : a = d := (tileOf_spec (a, i, fr)).1.symm.trans (h ▸ (tileOf_spec (d, j, gr)).1)
  subst hi ha
  cases fr with
  | true =>
    cases gr with
    | true => rfl
    | false => cases h
  | false =>
    cases gr with
    | true => cases h
    | false => rfl

theorem Inv.tile_mem (h : Inv m bs used lo hi none) (b : Nat × Nat × Bool) :
    Block m used b ↔ tileOf b ∈ bs := h.block b.1 b.2.1 b.2.2

theorem buddyOf_ne (ha : blockSize i ∣ a) : buddyOf a i ≠ a := by
  have hpos := blockSize_pos i
  obtain ⟨-, e, -⟩ | ⟨-, e, -⟩ := buddyOf_cases ha
  · omega
  · omega

theorem Inv.sound (h : Inv m bs used lo hi none) : Sound m used lo hi := by
  refine ⟨fun i => ?_, fun a i j hi hj => ?_, h.nodup, fun b hb => ?_, fun b hb => ?_,
    fun x hlo hhi => ?_, fun a i hin ha hb => ?_, fun p hp => ?_⟩
  · obtain ⟨l, hl, hnd, hiff⟩ := h.lists i
    exact ⟨l, hl, hnd, fun a ha => (h.free _ ((hiff a).mp ha) i rfl).2.2.2.1⟩
  · have e := h.eq_of_start ((h.onList a i).mp hi) ((h.onList a j).mp hj) rfl
    exact (freeTile_inj e).2
  · have ht := (h.tile_mem b).mp hb
    unfold tileOf at ht
    split at ht
    · obtain ⟨-, hin, hd, -, -⟩ := h.free _ ht b.2.1 rfl
      exact ⟨hin, hd⟩
    · exact h.aligned_used ht
  · have hbounds := h.mem_bounds ((h.tile_mem b).mp hb)
    rw [(tileOf_spec b).1, (tileOf_spec b).2] at hbounds
    exact hbounds
  · obtain ⟨t, ht, ht₁, ht₂⟩ := h.tiles.cover hlo hhi
    have hpos := h.pos t ht
    unfold Tile.last at ht₂
    have hform : ∃ b, t = tileOf b := by
      cases hf : t.free with
      | none =>
        obtain ⟨c, k, rfl, -⟩ := h.blocks t ht hf
        exact ⟨(c, k, false), rfl⟩
      | some k =>
        refine ⟨(t.start, k, true), ?_⟩
        have hz := (h.free t ht k hf).1
        cases t
        simp_all [tileOf, freeTile]
    obtain ⟨b, rfl⟩ := hform
    obtain ⟨hstart, hsize⟩ := tileOf_spec b
    refine ⟨b, ⟨(h.tile_mem b).mpr ht, by omega, by omega⟩, ?_⟩
    rintro c ⟨hc, hc₁, hc₂⟩
    obtain ⟨hstart', hsize'⟩ := tileOf_spec c
    exact tileOf_inj (h.unique (b := x) ((h.tile_mem c).mp hc) ht (by omega) (by omega) (by omega)
      (by omega))
  · have ha := (h.onList a i).mp ha
    have hb := (h.onList _ i).mp hb
    have hd : blockSize i ∣ a := (h.free _ ha i rfl).2.2.1
    exact buddyOf_ne hd (h.apart _ _ i hin hb ha (buddyOf_parent hd))
  · obtain ⟨hcur, hbit⟩ := h.toCurrent (a := p.1) (i := p.2) hp
    obtain ⟨m', bs', e, -, -⟩ := hcur.freeBlock hbit
    refine ⟨hbit, ?_⟩
    rw [e]
    rfl

/-- `add_mem` passes the assertions of `free`, and in every state of every run the free and the
allocated blocks are aligned, tile the memory, no free buddies are left apart, and every block that
is handed out can be freed. -/
theorem buddy_sound :
    (∀ m start size, Fresh m → m.base ≤ start → start + size ≤ m.base + MAX_MEM →
      (m.addMem start size).isSome) ∧
    ∀ lo hi m used, Reachable lo hi m used → Sound m used lo hi := by
  refine ⟨fun m start size hfresh hlow hhigh => ?_, fun lo hi m used hr => ?_⟩
  · obtain ⟨hmin, hlow', hhigh'⟩ := region_bounds hfresh.base hlow hhigh
    obtain ⟨m₁, bs, e, -⟩ := (hfresh.inv hlow' (by omega)).addBlocks hmin hhigh'
    unfold addMem
    rw [e]
    rfl
  · obtain ⟨bs, hinv⟩ := hr.inv
    exact hinv.sound

/-- An allocator at the address 0. -/
def fresh : Buddy where
  base := 0
  lists := ⟨fun _ => none, fun _ => none, fun _ => .head 0⟩
  index _ := 0
  freeMap _ := false

theorem buddy_sound_fresh : ∃ m, fresh.addMem 100 5000 = some m ∧ Sound m [] 1024 (1024 + 1024 * 3) := by
  have hfresh : Fresh fresh := ⟨Nat.dvd_zero _, fun _ => rfl, fun _ => rfl⟩
  have hhigh : 100 + 5000 ≤ fresh.base + MAX_MEM := by decide
  obtain ⟨m, hm⟩ := Option.isSome_iff_exists.mp
    (buddy_sound.1 fresh 100 5000 hfresh (Nat.zero_le _) hhigh)
  exact ⟨m, hm, buddy_sound.2 _ _ m [] (.addMem hfresh (Nat.zero_le _) hhigh hm rfl rfl)⟩

end L4env.Fiasco.Buddy
