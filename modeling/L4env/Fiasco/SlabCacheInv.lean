import L4env.Fiasco.SlabCache

/-!
# Consistency of slab caches

The entries of a slab are at equal distances behind its header, and each one is either in the list of
free entries or handed out. In the list of slabs the full ones come first, then those partially used,
then the empty ones.
-/

namespace L4env.Fiasco.SlabCache

variable {c c' : SlabCache} {s e : Nat} {out : Set Nat}

/-! ## Geometry -/

/-- The parameters of a cache: powers of two for the size of a slab and the alignment, elements of at
least one byte, and room for one of them behind the header. -/
structure Geometry (c : SlabCache) : Prop where
  elemSize : 0 < c.elemSize
  slabSize : ∃ k ≤ 31, c.slabSize = 2 ^ k
  alignment : ∃ k, c.alignment = 2 ^ k
  fits : (slabDataSize + slabEntrySize + c.alignment - 1) / c.alignment * c.alignment -
    slabEntrySize + (slabEntrySize + c.elemSize + c.alignment - 1) / c.alignment * c.alignment ≤
      c.slabSize

theorem alignUp_eq {a x : Nat} (h : x + a ≤ 2 ^ 32) :
    alignUp a x = (x + a - 1) / a * a := by
  have hlt : x + a - 1 < 2 ^ 32 := by omega
  have hdiv := Nat.div_add_mod (x + a - 1) a
  rw [Nat.mul_comm] at hdiv
  unfold alignUp
  rw [Nat.mod_eq_of_lt hlt]
  omega

theorem le_alignUp {a x : Nat} (h : x + a ≤ 2 ^ 32) (ha : 0 < a) :
    x ≤ alignUp a x ∧ alignUp a x < x + a ∧ a ∣ alignUp a x := by
  have hlt : x + a - 1 < 2 ^ 32 := by omega
  have hmod := Nat.mod_lt (x + a - 1) ha
  refine ⟨?_, ?_, ?_⟩
  · unfold alignUp
    rw [Nat.mod_eq_of_lt hlt]
    omega
  · unfold alignUp
    rw [Nat.mod_eq_of_lt hlt]
    omega
  · rw [alignUp_eq h]
    exact Nat.dvd_mul_left _ _

/-- What the constructors of slabs compute from the parameters. -/
structure Layout (c : SlabCache) : Prop where
  elemSize : 0 < c.elemSize
  header : slabDataSize ≤ c.offsetFirstElem
  entry : slabEntrySize + c.elemSize ≤ c.entrySize
  num : 1 ≤ c.elemNum
  fits : c.offsetFirstElem + c.entrySize * c.elemNum ≤ c.slabSize
  short : 1 ≤ short c.elemNum

/-- The number of the entries of a slab is no multiple of 2^16: as the slab has a size that is a power
of two, the header would have to fill the rest of more than 2^16 times the alignment. -/
theorem elemNum_mod {S A off e : Nat} (hS : ∃ k ≤ 31, S = 2 ^ k) (hA : ∃ k, A = 2 ^ k) (he : A ∣ e)
    (hpos : 0 < e) (hoff : 20 ≤ off) (hlt : off + 4 < 24 + A) (hfits : off + e ≤ S) :
    1 ≤ (S - off) / e % 2 ^ 16 := by
  by_contra hzero
  obtain ⟨q, hq⟩ : 2 ^ 16 ∣ (S - off) / e := Nat.dvd_of_mod_eq_zero (by omega)
  have hnum : 1 ≤ (S - off) / e := (Nat.one_le_div_iff hpos).mpr (by omega)
  have hqpos : 1 ≤ q := by omega
  have hdiv := Nat.div_add_mod (S - off) e
  have hmod := Nat.mod_lt (S - off) hpos
  obtain ⟨k, hk, rfl⟩ := hS
  obtain ⟨a, rfl⟩ := hA
  obtain ⟨e', rfl⟩ := he
  rw [hq] at hdiv
  generalize (2 ^ k - off) % (2 ^ a * e') = r at hdiv hmod
  have hsum : 2 ^ k = off + r + 2 ^ a * 2 ^ 16 * (e' * q) := by
    have : 2 ^ a * e' * (2 ^ 16 * q) = 2 ^ a * 2 ^ 16 * (e' * q) := by ring
    omega
  have hprod : 1 ≤ e' * q := Nat.mul_pos (Nat.pos_of_mul_pos_left hpos) hqpos
  have hbig : 2 ^ a * 2 ^ 16 ≤ 2 ^ k := by
    have := Nat.le_mul_of_pos_right (2 ^ a * 2 ^ 16) hprod
    omega
  have hdvd : 2 ^ a * 2 ^ 16 ∣ 2 ^ k := by
    rw [← pow_add] at hbig ⊢
    exact Nat.pow_dvd_pow 2 ((Nat.pow_le_pow_iff_right (by decide)).mp hbig)
  have hrest : 2 ^ a * 2 ^ 16 ∣ off + r := by
    rw [hsum] at hdvd
    exact (Nat.dvd_add_left (Nat.dvd_mul_right _ _)).mp hdvd
  have hle := Nat.le_of_dvd (by omega) hrest
  have hentry : 65517 ≤ 2 ^ a * e' := by omega
  have htotal : 65517 * 2 ^ 16 ≤ 2 ^ a * e' * (2 ^ 16 * q) :=
    Nat.mul_le_mul hentry (Nat.le_mul_of_pos_right _ hqpos)
  have hmax : 2 ^ k ≤ 2 ^ 31 := Nat.pow_le_pow_right (by decide) hk
  omega

theorem Geometry.layout (h : Geometry c) : Layout c := by
  obtain ⟨a, ha⟩ := h.alignment
  obtain ⟨k, hk, hS⟩ := h.slabSize
  have hA : 0 < c.alignment := by
    rw [ha]
    exact Nat.two_pow_pos a
  have hmax : c.slabSize ≤ 2 ^ 31 := by
    rw [hS]
    exact Nat.pow_le_pow_right (by decide) hk
  have hfits := h.fits
  have hround : ∀ x, 1 ≤ x → x ≤ (x + c.alignment - 1) / c.alignment * c.alignment ∧
      c.alignment ≤ (x + c.alignment - 1) / c.alignment * c.alignment := by
    intro x hx
    have hone : 1 ≤ (x + c.alignment - 1) / c.alignment := (Nat.one_le_div_iff hA).mpr (by omega)
    have hdiv := Nat.div_add_mod (x + c.alignment - 1) c.alignment
    have hmod := Nat.mod_lt (x + c.alignment - 1) hA
    rw [Nat.mul_comm] at hdiv
    exact ⟨by omega, Nat.le_mul_of_pos_left _ hone⟩
  have hhead := hround (slabDataSize + slabEntrySize) (by decide)
  have hentry := hround (slabEntrySize + c.elemSize) (by unfold slabEntrySize; omega)
  have h₁ : slabDataSize + slabEntrySize + c.alignment ≤ 2 ^ 32 := by
    unfold slabDataSize slabEntrySize at *
    omega
  have h₂ : slabEntrySize + c.elemSize + c.alignment ≤ 2 ^ 32 := by
    unfold slabDataSize slabEntrySize at *
    omega
  rw [← alignUp_eq h₁, ← alignUp_eq h₂] at hfits
  have hoff := le_alignUp h₁ hA
  have hsize := le_alignUp h₂ hA
  have hpos : 0 < c.entrySize := Nat.lt_of_lt_of_le (by unfold slabEntrySize; omega) hsize.1
  have hheader : slabDataSize ≤ c.offsetFirstElem := Nat.le_sub_of_add_le hoff.1
  have hroom : c.offsetFirstElem + c.entrySize ≤ c.slabSize := hfits
  have hnum : 1 ≤ c.elemNum := (Nat.one_le_div_iff hpos).mpr (by omega)
  refine ⟨h.elemSize, hheader, hsize.1, hnum, ?_, ?_⟩
  · have hmul := Nat.mul_div_le (c.slabSize - c.offsetFirstElem) c.entrySize
    unfold elemNum
    omega
  · refine elemNum_mod h.slabSize h.alignment hsize.2.2 hpos hheader ?_ hroom
    have hlt := hoff.2.1
    unfold offsetFirstElem
    unfold slabDataSize slabEntrySize at *
    omega

/-! ## Entries -/

/-- The entries of the slab `s` whose first one is `color` bytes behind the first place for it. -/
def entries (c : SlabCache) (s color : Nat) : List Nat :=
  (List.range c.elemNum).map fun i => s + c.offsetFirstElem + color + c.entrySize * i

theorem mem_entries {color : Nat} : e ∈ c.entries s color ↔
    ∃ i < c.elemNum, e = s + c.offsetFirstElem + color + c.entrySize * i := by
  simp only [entries, List.mem_map, List.mem_range]
  exact exists_congr fun i => and_congr_right fun _ => eq_comm

/-- The entries from `data` on are put in front of the list. -/
theorem linkEntries_spec (size num data : Nat) (nf : Nat → Option Nat) (h : Option Nat)
    (F : List Nat) (hpos : 0 < size) (hF : IsSList nf h F) (hlt : ∀ x ∈ F, x < data) :
    ∃ F', IsSList (linkEntries size num nf h data).2 (linkEntries size num nf h data).1 F' ∧
      F'.Perm ((List.range num).map (fun i => data + size * i) ++ F) ∧
      ∀ y, (∀ i < num, y ≠ data + size * i) → (linkEntries size num nf h data).2 y = nf y := by
  induction num generalizing nf h F data with
  | zero => exact ⟨F, hF, .refl _, fun _ _ => rfl⟩
  | succ num ih =>
    have hF₁ : IsSList (Function.update nf data h) (some data) (data :: F) := by
      refine ⟨rfl, ?_⟩
      rw [Function.update_self]
      exact hF.congr fun x hx => Function.update_of_ne (Nat.ne_of_lt (hlt x hx)) _ _
    have hlt₁ : ∀ x ∈ data :: F, x < data + size := by
      intro x hx
      rcases List.mem_cons.mp hx with rfl | hx
      · omega
      · have := hlt x hx
        omega
    obtain ⟨F', hF', hperm, hframe⟩ := ih _ _ _ _ hF₁ hlt₁
    refine ⟨F', hF', hperm.trans ?_, fun y hy => ?_⟩
    · rw [List.range_succ_eq_map, List.map_cons, List.map_map, Nat.mul_zero, Nat.add_zero]
      have hmap : (List.range num).map ((fun i => data + size * i) ∘ Nat.succ) =
          (List.range num).map fun i => data + size + size * i := by
        refine List.map_congr_left fun i _ => ?_
        simp only [Function.comp_apply, Nat.mul_succ]
        omega
      rw [hmap]
      exact List.perm_middle
    · refine (hframe y fun i hi => ?_).trans ?_
      · have hne := hy (i + 1) (Nat.succ_lt_succ hi)
        rwa [Nat.mul_succ, Nat.add_comm (size * i), ← Nat.add_assoc] at hne
      · have hne := hy 0 (Nat.succ_pos num)
        exact Function.update_of_ne hne _ _

/-- The entries of the slab `s`: those of `F` are free, those of `U` are handed out. -/
structure SlabParts (c : SlabCache) (out : Set Nat) (s color : Nat) (F U : List Nat) : Prop where
  aligned : c.slabSize ∣ s
  fits : c.offsetFirstElem + color + c.entrySize * c.elemNum ≤ c.slabSize
  entries : (F ++ U).Perm (c.entries s color)
  chain : IsSList c.nextFree (c.firstFree s) F
  taken : ∀ y, s ≤ y → y < s + c.slabSize → (y ∈ out ↔ ∃ e ∈ U, y = e + slabEntrySize)
  inUse : c.inUse s = U.length
  count : c.inUse s + c.free s = short c.elemNum

/-- What holds of each slab of a cache whose elements `out` are handed out. -/
def SlabOk (c : SlabCache) (out : Set Nat) (s : Nat) : Prop := ∃ color F U, SlabParts c out s color F U

/-- The caches have the same parameters. -/
structure SameLayout (c c' : SlabCache) : Prop where
  slabSize : c'.slabSize = c.slabSize
  elemSize : c'.elemSize = c.elemSize
  alignment : c'.alignment = c.alignment

theorem SameLayout.offsetFirstElem (h : SameLayout c c') :
    c'.offsetFirstElem = c.offsetFirstElem := by
  unfold SlabCache.offsetFirstElem
  rw [h.alignment]

theorem SameLayout.entrySize (h : SameLayout c c') : c'.entrySize = c.entrySize := by
  unfold SlabCache.entrySize
  rw [h.alignment, h.elemSize]

theorem SameLayout.elemNum (h : SameLayout c c') : c'.elemNum = c.elemNum := by
  unfold SlabCache.elemNum
  rw [h.slabSize, h.offsetFirstElem, h.entrySize]

theorem SameLayout.entries (h : SameLayout c c') (s color : Nat) :
    c'.entries s color = c.entries s color := by
  unfold SlabCache.entries
  rw [h.offsetFirstElem, h.entrySize, h.elemNum]

theorem SameLayout.geometry (h : SameLayout c c') (hg : Geometry c) : Geometry c' := by
  refine ⟨?_, ?_, ?_, ?_⟩
  · rw [h.elemSize]
    exact hg.elemSize
  · rw [h.slabSize]
    exact hg.slabSize
  · rw [h.alignment]
    exact hg.alignment
  · rw [h.slabSize, h.elemSize, h.alignment]
    exact hg.fits

theorem slabOf_eq {y : Nat} (hs : c.slabSize ∣ s) (hle : s ≤ y) (hlt : y < s + c.slabSize) :
    c.slabOf y = s := by
  obtain ⟨k, rfl⟩ := hs
  obtain ⟨d, rfl⟩ := Nat.exists_eq_add_of_le hle
  unfold slabOf
  rw [Nat.mul_add_mod, Nat.mod_eq_of_lt (by omega)]
  omega

section
variable {color : Nat} {F U : List Nat}

/-- An entry lies behind the header and ends inside the slab. -/
theorem SlabParts.bounds (h : SlabParts c out s color F U) (hl : Layout c) (he : e ∈ F ++ U) :
    s + slabDataSize ≤ e ∧ e + slabEntrySize + c.elemSize ≤ s + c.slabSize := by
  obtain ⟨i, hi, rfl⟩ := mem_entries.mp (h.entries.mem_iff.mp he)
  have hmul : c.entrySize * (i + 1) ≤ c.entrySize * c.elemNum := Nat.mul_le_mul_left _ hi
  rw [Nat.mul_succ] at hmul
  have hfits := h.fits
  have hheader := hl.header
  have hentry := hl.entry
  omega

theorem SlabParts.nodup (h : SlabParts c out s color F U) (hl : Layout c) : (F ++ U).Nodup := by
  rw [h.entries.nodup_iff]
  refine List.Nodup.map (fun i j hij => ?_) List.nodup_range
  have hentry := hl.entry
  have hpos : 0 < c.entrySize := Nat.lt_of_lt_of_le (by unfold slabEntrySize; omega) hentry
  exact Nat.eq_of_mul_eq_mul_left hpos (Nat.add_left_cancel hij)

theorem SlabParts.length (h : SlabParts c out s color F U) : F.length + U.length = c.elemNum := by
  rw [← List.length_append, h.entries.length_eq, SlabCache.entries, List.length_map,
    List.length_range]

/-- A slab is not touched by changes elsewhere. -/
theorem SlabOk.congr {out' : Set Nat} (h : SlabOk c out s) (hl : Layout c) (hc : SameLayout c c')
    (hff : c'.firstFree s = c.firstFree s) (huse : c'.inUse s = c.inUse s)
    (hfree : c'.free s = c.free s)
    (hnf : ∀ e, s ≤ e → e < s + c.slabSize → c'.nextFree e = c.nextFree e)
    (hout : ∀ y, s ≤ y → y < s + c.slabSize → (y ∈ out' ↔ y ∈ out)) : SlabOk c' out' s := by
  obtain ⟨color, F, U, h⟩ := h
  refine ⟨color, F, U, ?_, ?_, ?_, ?_, fun y hle hlt => ?_, ?_, ?_⟩
  · rw [hc.slabSize]
    exact h.aligned
  · rw [hc.offsetFirstElem, hc.entrySize, hc.elemNum, hc.slabSize]
    exact h.fits
  · rw [hc.entries]
    exact h.entries
  · rw [hff]
    refine h.chain.congr fun e he => ?_
    have hb := h.bounds hl (List.mem_append_left U he)
    have helem := hl.elemSize
    exact hnf e (by omega) (by omega)
  · rw [hc.slabSize] at hlt
    rw [hout y hle hlt]
    exact h.taken y hle hlt
  · rw [huse]
    exact h.inUse
  · rw [huse, hfree, hc.elemNum]
    exact h.count

theorem short_lt (x : Nat) : short x < 2 ^ 16 := Nat.mod_lt x (by decide)

theorem short_of_lt {x : Nat} (h : x < 2 ^ 16) : short x = x := Nat.mod_eq_of_lt h

theorem short_pred {x : Nat} (h : 0 < x) (hx : x < 2 ^ 16) : short (x + (2 ^ 16 - 1)) = x - 1 := by
  unfold short
  omega

/-- The free entry `e` in front of the list of the slab `s` is taken. -/
def takeEntry (c : SlabCache) (s e : Nat) : SlabCache :=
  { c with
    firstFree := Function.update c.firstFree s (c.nextFree e)
    inUse := Function.update c.inUse s (c.inUse s + 1)
    free := Function.update c.free s (c.free s - 1) }

/-- The entry `e` is put in front of the list of the slab `s`. -/
def putEntry (c : SlabCache) (s e : Nat) : SlabCache :=
  { c with
    nextFree := Function.update c.nextFree e (c.firstFree s)
    firstFree := Function.update c.firstFree s (some e)
    inUse := Function.update c.inUse s (c.inUse s - 1)
    free := Function.update c.free s (c.free s + 1) }

theorem takeEntry_layout (c : SlabCache) (s e : Nat) : SameLayout c (c.takeEntry s e) :=
  ⟨rfl, rfl, rfl⟩

theorem putEntry_layout (c : SlabCache) (s e : Nat) : SameLayout c (c.putEntry s e) :=
  ⟨rfl, rfl, rfl⟩

/-- An entry is taken from a slab that is not full. -/
theorem SlabOk.alloc (h : SlabOk c out s) (hl : Layout c) (hfull : c.isFull s = false) :
    ∃ e, c.slabAlloc s = (some (e + slabEntrySize), c.takeEntry s e) ∧ e + slabEntrySize ∉ out ∧
      s + slabDataSize ≤ e ∧ e + slabEntrySize + c.elemSize ≤ s + c.slabSize ∧
      SlabOk (c.takeEntry s e) (insert (e + slabEntrySize) out) s := by
  obtain ⟨color, F, U, h⟩ := h
  have hfree : 0 < c.free s := Nat.pos_of_ne_zero fun e => by simp [isFull, e] at hfull
  have hlt := short_lt c.elemNum
  have hcount := h.count
  have hlen := h.length
  have huse := h.inUse
  have hle : short c.elemNum ≤ c.elemNum := Nat.mod_le _ _
  obtain ⟨e, F', rfl⟩ : ∃ e F', F = e :: F' := by
    refine List.exists_cons_of_ne_nil fun hnil => ?_
    rw [hnil, List.length_nil] at hlen
    omega
  have hhead : c.firstFree s = some e := h.chain.1
  have hb := h.bounds hl (e := e) (by simp)
  have helem := hl.elemSize
  have hnd := h.nodup hl
  have hout : e ∉ U := fun hmem => (List.disjoint_of_nodup_append hnd) (by simp) hmem
  have hnew : e + slabEntrySize ∉ out := by
    rw [h.taken _ (by omega) (by omega)]
    rintro ⟨e', he', heq⟩
    exact hout (Nat.add_right_cancel heq ▸ he')
  have hsame := takeEntry_layout c s e
  refine ⟨e, ?_, hnew, hb.1, hb.2, color, F', e :: U, h.aligned, h.fits, ?_, ?_,
    fun y hge hy => ?_, ?_, ?_⟩
  · unfold slabAlloc
    rw [hhead, short_of_lt (by omega), short_pred hfree (by omega)]
    rfl
  · rw [hsame.entries]
    exact List.perm_middle.trans h.entries
  · show IsSList c.nextFree (Function.update c.firstFree s (c.nextFree e) s) F'
    rw [Function.update_self]
    exact h.chain.2
  · rw [Set.mem_insert_iff, h.taken y hge hy, List.exists_mem_cons_iff]
  · show Function.update c.inUse s (c.inUse s + 1) s = _
    rw [Function.update_self, huse]
    rfl
  · show Function.update c.inUse s (c.inUse s + 1) s + Function.update c.free s (c.free s - 1) s = _
    rw [Function.update_self, Function.update_self, hsame.elemNum]
    omega

/-- An element is given back to its slab. -/
theorem SlabOk.free {y : Nat} (h : SlabOk c out s) (hl : Layout c) (hy : y ∈ out) (hle : s ≤ y)
    (hlt : y < s + c.slabSize) :
    ∃ e, s ≤ e ∧ e < s + c.slabSize ∧ c.slabFree s y = some (c.putEntry s e) ∧
      SlabOk (c.putEntry s e) (out \ {y}) s ∧ 0 < c.inUse s := by
  obtain ⟨color, F, U, h⟩ := h
  obtain ⟨e, he, rfl⟩ := (h.taken y hle hlt).mp hy
  have hcountlt := short_lt c.elemNum
  have hcount := h.count
  have huse := h.inUse
  have hpos : 0 < c.inUse s := by
    rw [huse]
    exact List.length_pos_of_mem he
  have hb := h.bounds hl (List.mem_append_right F he)
  have hnd := h.nodup hl
  have hout : e ∉ F := fun hmem => (List.disjoint_of_nodup_append hnd) hmem he
  have hndU : U.Nodup := (List.nodup_append.mp hnd).2.1
  have hsame := putEntry_layout c s e
  refine ⟨e, by omega, by omega, ?_, ⟨color, e :: F, U.erase e, h.aligned, h.fits, ?_, ?_,
    fun y hge hy => ?_, ?_, ?_⟩, hpos⟩
  · unfold slabFree
    rw [if_neg (Nat.pos_iff_ne_zero.mp hpos), Nat.add_sub_cancel,
      short_pred hpos (by omega), short_of_lt (by omega)]
    rfl
  · rw [hsame.entries]
    exact (List.perm_middle.symm.trans ((List.perm_cons_erase he).symm.append_left F)).trans h.entries
  · show IsSList (Function.update c.nextFree e (c.firstFree s))
      (Function.update c.firstFree s (some e) s) (e :: F)
    rw [Function.update_self]
    refine ⟨rfl, ?_⟩
    rw [Function.update_self]
    refine h.chain.congr fun x hx => Function.update_of_ne ?_ _ _
    rintro rfl
    exact hout hx
  · rw [Set.mem_sdiff, Set.mem_singleton_iff, h.taken y hge hy]
    constructor
    · rintro ⟨⟨e', he', rfl⟩, hne⟩
      exact ⟨e', (List.mem_erase_of_ne fun heq => hne (by rw [heq])).mpr he', rfl⟩
    · rintro ⟨e', he', rfl⟩
      obtain ⟨hne, he'⟩ := (List.Nodup.mem_erase_iff hndU).mp he'
      exact ⟨⟨e', he', rfl⟩, fun heq => hne (Nat.add_right_cancel heq)⟩
  · show Function.update c.inUse s (c.inUse s - 1) s = _
    rw [Function.update_self, huse, List.length_erase_of_mem he]
  · show Function.update c.inUse s (c.inUse s - 1) s + Function.update c.free s (c.free s + 1) s = _
    rw [Function.update_self, Function.update_self, hsame.elemNum]
    omega

/-- The constructor makes a slab of its block, all of whose entries are free. -/
theorem construct_ok (hl : Layout c) (hs : c.slabSize ∣ s)
    (hfits : c.offsetFirstElem + c.latestOffset + c.entrySize * c.elemNum ≤ c.slabSize)
    (hout : ∀ y ∈ out, ¬ (s ≤ y ∧ y < s + c.slabSize)) :
    SlabOk (c.construct s) out s ∧
    ∀ e, ¬ (s ≤ e ∧ e < s + c.slabSize) → (c.construct s).nextFree e = c.nextFree e := by
  have hentry := hl.entry
  have hpos : 0 < c.entrySize := Nat.lt_of_lt_of_le (by unfold slabEntrySize; omega) hentry
  obtain ⟨F, hF, hperm, hframe⟩ := linkEntries_spec c.entrySize c.elemNum
    (s + c.offsetFirstElem + c.latestOffset) c.nextFree none [] hpos rfl (by simp)
  have hsame : SameLayout c (c.construct s) := ⟨rfl, rfl, rfl⟩
  refine ⟨⟨c.latestOffset, F, [], hs, hfits, ?_, ?_, fun y hle hlt => ?_, ?_, ?_⟩, fun e he => ?_⟩
  · rw [List.append_nil, hsame.entries]
    rw [List.append_nil] at hperm
    exact hperm
  · show IsSList _ (Function.update c.firstFree s _ s) F
    rw [Function.update_self]
    exact hF
  · simpa using fun hy : y ∈ out => hout y hy ⟨hle, hlt⟩
  · show Function.update c.inUse s 0 s = 0
    exact Function.update_self ..
  · show Function.update c.inUse s 0 s + Function.update c.free s (short c.elemNum) s = _
    rw [Function.update_self, Function.update_self, hsame.elemNum, Nat.zero_add]
  · refine hframe e fun i hi heq => he ?_
    have hmul : c.entrySize * (i + 1) ≤ c.entrySize * c.elemNum := Nat.mul_le_mul_left _ hi
    rw [Nat.mul_succ] at hmul
    omega

end

end L4env.Fiasco.SlabCache
