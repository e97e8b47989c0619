import L4env.L4rm.RegionInv

/-!
# L4RM: the operations keep the invariant

`Roomy` is what a request for a new region has to satisfy: neither the rounded size nor the sums of
addresses and sizes that the search computes wrap around. Then the region that is found contains the
new region. The operations follow the order of the source files: the search for a place, the new
region, the region that is freed, the area that is released.
-/

namespace L4env.L4rm

namespace Rm
variable {s s' : Rm} {l : List Cell} {T : Tree} {c d : Cell} {addr size area x : Nat}
  {flags : RmFlags} {env : Env}

/-- The free regions to which `l4rm_new_region` would compare the request, and what must hold for
them. -/
def RoomyIn (r : Region) (addr size area : Nat) (flags : RmFlags) : Prop :=
  let size := Word.roundUp size pageSize
  if addr = addrFind then
    let (size, align) := findArgs size flags
    fits r size area align →
      0 < size ∧ pageSize ∣ size ∧ Word.sub (alignedAddr r align) r.start + size < 4294967296
  else
    let addr := Word.roundDown addr pageSize
    r.used = false → r.flags.area = area → r.start ≤ addr → addr ≤ r.last →
      0 < size ∧ addr + size ≤ 4294967296

/-- The request for a region does not wrap around. -/
def Roomy (s : Rm) (addr size area : Nat) (flags : RmFlags) : Prop :=
  ∀ p ∈ s.live, RoomyIn (s.region p) addr size area flags

/-- The free region `c` has room for the new region. -/
structure Room (c : Cell) (area mapAddr size : Nat) : Prop where
  free : c.reg.used = false
  area_eq : c.area = area
  start_le : c.start ≤ mapAddr
  le_last : mapAddr + size ≤ c.last + 1
  pos : 0 < size
  aligned : pageSize ∣ mapAddr
  pages : pageSize ∣ size

theorem dvd_roundUp_pageSize (h : size < 4294967296) : pageSize ∣ Word.roundUp size pageSize := by
  obtain ⟨h, -⟩ | ⟨h, -⟩ := Word.roundUp_cases (k := 12) h (by decide)
  · exact h ▸ Nat.dvd_zero _
  · exact h

/-- Rounding a page boundary up gives a page boundary. -/
theorem alignedAddr_spec {r : Region} (align : Int) (hr : r.start < 4294967296)
    (h : pageSize ∣ r.start) :
    pageSize ∣ alignedAddr r align ∧ alignedAddr r align < 4294967296 ∧
      (alignedAddr r align = 0 ∧ 0 < r.start ∨ r.start ≤ alignedAddr r align) := by
  have hk : (align % 32).toNat < 32 := by omega
  rw [alignedAddr, shl1]
  generalize (align % 32).toNat = k at hk
  have hlt := Word.roundUp_lt hr hk
  obtain ⟨h0, hpos⟩ | ⟨hdvd, hle, -⟩ := Word.roundUp_cases hr hk
  · exact ⟨h0 ▸ Nat.dvd_zero _, hlt, .inl ⟨h0, hpos⟩⟩
  refine ⟨?_, hlt, .inr hle⟩
  cases le_or_gt 12 k with
  | inl h12 => exact (Nat.pow_dvd_pow 2 h12).trans hdvd
  | inr h12 =>
    -- a page boundary is already aligned
    obtain ⟨q, hq⟩ := (Nat.pow_dvd_pow 2 h12.le).trans h
    have hpos := Nat.two_pow_pos k
    have hdiv : (r.start + 2 ^ k - 1) / 2 ^ k = q := by
      rw [hq, Nat.add_sub_assoc hpos, Nat.mul_add_div hpos, Nat.div_eq_of_lt (by omega), add_zero]
    rw [Word.roundUp_two_pow hr hk, hdiv, Nat.mul_comm, ← hq, Nat.mod_eq_of_lt hr]
    exact h

theorem fits_room {align : Int} (hc : c.start ≤ c.last) (hlast : c.last < 4294967296)
    (halign : pageSize ∣ c.start) (hfits : fits c.reg size area align = true)
    (hroom : 0 < size ∧ pageSize ∣ size ∧
      Word.sub (alignedAddr c.reg align) c.reg.start + size < 4294967296) :
    Room c area (alignedAddr c.reg align) size := by
  obtain ⟨hpos, hpages, hlt⟩ := hroom
  simp only [fits, Bool.and_eq_true, Bool.not_eq_true', decide_eq_true_eq] at hfits
  obtain ⟨⟨hfree, harea⟩, hle⟩ := hfits
  simp only [Cell.start, Cell.last] at *
  obtain ⟨hdvd, hword, hcases⟩ := alignedAddr_spec align (by omega) halign
  rw [Word.add_eq (by omega), Word.sub_eq hc hlast] at hle
  have hsize : Word.add (c.reg.last - c.reg.start) 1 ≤ c.reg.last - c.reg.start + 1 :=
    Word.add_le _ _
  have hroom : c.reg.start ≤ alignedAddr c.reg align ∧
      alignedAddr c.reg align + size ≤ c.reg.last + 1 := by
    obtain ⟨h0, hstart⟩ | hstart := hcases
    · have : Word.sub (alignedAddr c.reg align) c.reg.start = 4294967296 - c.reg.start := by
        rw [h0, Word.sub_zero_left hstart (by omega)]
      omega
    · rw [Word.sub_eq hstart hword] at hle
      omega
  exact ⟨hfree, harea, hroom.1, hroom.2, hpos, hdvd, hpages⟩

theorem findFreeRegion_spec (I : s.Inv l T) {align : Int}
    (hroom : ∀ c ∈ l, fits c.reg size area align = true → 0 < size ∧ pageSize ∣ size ∧
      Word.sub (alignedAddr c.reg align) c.reg.start + size < 4294967296) :
    s.findFreeRegion size area align = .ok (.error .enomap) ∨
    ∃ c ∈ l, ∃ mapAddr, s.findFreeRegion size area align = .ok (.ok (c.ptr, mapAddr)) ∧
      Room c area mapAddr size := by
  have hscan := I.shows.scan_eq fun r => fits r size area align
  rw [findFreeRegion, hscan]
  cases hfind : l.find? fun c => fits c.reg size area align with
  | none => exact .inl rfl
  | some c =>
    have hc := List.mem_of_find?_eq_some hfind
    have hfits := List.find?_some hfind
    have hle := I.last_le hc
    have hbound := I.bound
    refine .inr ⟨c, hc, alignedAddr c.reg align, ?_, ?_⟩
    · simp only [Option.map_some, I.shows.region c hc]
      rfl
    · exact fits_room hle.1 (by omega) (I.layout.aligned c hc) hfits (hroom c hc hfits)

theorem findRegion'_spec (I : s.Inv l T) (hd : pageSize ∣ addr)
    (hpages : pageSize ∣ size)
    (hroom : ∀ c ∈ l, c.reg.used = false → c.area = area → c.start ≤ addr → addr ≤ c.last →
      0 < size ∧ addr + size ≤ 4294967296) :
    (∃ e, e ≠ RmRet.ok ∧ s.findRegion' addr size area = .ok (.error e)) ∨
    ∃ c ∈ l, s.findRegion' addr size area = .ok (.ok c.ptr) ∧ Room c area addr size := by
  have hbound := I.bound
  rw [findRegion']
  by_cases hout : addr < s.vmStart ∨ s.vmEnd < addr ∨ s.vmEnd < Word.add addr size
  · rw [if_pos hout]
    exact .inl ⟨.einval, nofun, rfl⟩
  rw [if_neg hout]
  push Not at hout
  obtain ⟨c, hc, hwalk, hs, hl⟩ := I.walk hout.1 hout.2.1
  simp only [hwalk, I.shows.region c hc, ok_bind]
  by_cases hused : c.reg.used = true ∨ c.reg.flags.area ≠ area ∨
      c.reg.last < Word.sub (Word.add addr size) 1
  · rw [if_pos hused]
    exact .inl ⟨.eused, nofun, rfl⟩
  rw [if_neg hused]
  push Not at hused
  obtain ⟨hfree, harea, hle⟩ := hused
  have hfree : c.reg.used = false := by simpa using hfree
  obtain ⟨hpos, hend⟩ := hroom c hc hfree harea hs hl
  refine .inr ⟨c, hc, rfl, hfree, harea, hs, ?_, hpos, hd, hpages⟩
  rcases eq_or_lt_of_le hend with he | he
  · rw [Word.add_eq_zero he, Word.sub_zero_left (by omega) (by omega)] at hle
    simp only [Cell.last]
    omega
  · rw [Word.add_eq he, Word.sub_eq (by omega) he] at hle
    simp only [Cell.last]
    omega

theorem place_spec (I : s.Inv l T) (haddr : addr < 4294967296) (hsize : size < 4294967296)
    (hroom : ∀ c ∈ l, RoomyIn c.reg addr size area flags) :
    (∃ e, e ≠ RmRet.ok ∧ s.place addr size area flags = .ok (.error e)) ∨
    ∃ c ∈ l, ∃ mapAddr size', s.place addr size area flags = .ok (.ok (c.ptr, mapAddr, size')) ∧
      Room c area mapAddr size' := by
  rw [place]
  by_cases hfind : addr = addrFind
  · simp only [RoomyIn, if_pos hfind] at hroom ⊢
    obtain hrun | ⟨c, hc, mapAddr, hrun, hr⟩ := findFreeRegion_spec I hroom
    · exact .inl ⟨.enomap, nofun, by rw [hrun]; rfl⟩
    · exact .inr ⟨c, hc, mapAddr, _, by rw [hrun]; rfl, hr⟩
  · simp only [RoomyIn, if_neg hfind] at hroom ⊢
    have hd : pageSize ∣ Word.roundDown addr pageSize := Word.dvd_roundDown (k := 12) haddr (by decide)
    obtain ⟨e, he, hrun⟩ | ⟨c, hc, hrun, hr⟩ :=
      findRegion'_spec I hd (dvd_roundUp_pageSize hsize) hroom
    · exact .inl ⟨e, he, by rw [hrun]; rfl⟩
    · exact .inr ⟨c, hc, _, _, by rw [hrun]; rfl, hr⟩

/-! ## The region tree -/

theorem entry_inj (S : s.Shows l) {d : Cell} (hc : c ∈ l) (hd : d ∈ l) (h : c.entry = d.entry) :
    c = d := by
  have hptr : c.ptr = d.ptr := congrArg Entry.data h
  obtain ⟨p, r⟩ := c
  obtain ⟨q, r'⟩ := d
  simp only at hptr
  subst hptr
  have hr : r = r' := (S.region _ hc).symm.trans (S.region _ hd)
  rw [hr]

/-- Entries of the tree that overlap are the same: their regions are. -/
theorem InvBut.overlap {x : Nat} (I : s.InvBut x l T) {e : Entry} (hc : c ∈ l)
    (he : e ∈ T.toList) (ho : c.entry.key.Overlaps e.key) : e = c.entry := by
  obtain ⟨d, hd, -, rfl⟩ := I.entries e he
  have h1 := I.last_le hc
  have h2 := I.last_le hd
  simp only [Key.Overlaps, Cell.entry] at ho
  rcases le_total c.start d.start with hcd | hcd
  · rw [I.layout.tiles.unique hd hc le_rfl h2.1 hcd ho.2]
  · rw [I.layout.tiles.unique hd hc hcd ho.1 le_rfl h1.1]

/-- Another tree whose entries belong to used regions. -/
theorem InvBut.setTree {x : Nat} {t : Avl} {T' : Tree} (I : s.InvBut x l T) (ht : t.Inv T')
    (he : ∀ e ∈ T'.toList, Used l e) : InvBut x { s with tree := t } l T' :=
  ⟨⟨I.shows.dlist, I.shows.region, I.shows.nodup, I.shows.live⟩, I.nodup, I.layout, I.bound,
    I.chain, I.areas, ht, he⟩

/-- `__add_region` for a used region that is not in the tree. -/
theorem addRegion_spec {node : Option Ptr} (I : s.Inv l T) (hc : c ∈ l)
    (hused : c.reg.used = true) (hnew : c.entry ∉ T.toList)
    (hnode : ∀ q, node = some q → q ≠ 0 ∧ s.tree.node q = none) :
    (node = none ∧ s.addRegion c.entry.key c.ptr node = .ok (.enomem, s)) ∨
    ∃ s' T', s.addRegion c.entry.key c.ptr node = .ok (.ok, s') ∧ s'.Inv l T' ∧
      ∀ e, e ∈ T'.toList ↔ e = c.entry ∨ e ∈ T.toList := by
  have hkey : c.entry.key.start ≤ c.entry.key.last := (I.last_le hc).1
  obtain ⟨⟨e, he, ho⟩, -⟩ | ⟨-, ⟨hn, hrun⟩ | ⟨t, T', l₁, l₂, -, hrun, ht, hT, hT'⟩⟩ :=
    Avl.insert_spec c.ptr I.tree hkey hnode
  · exact absurd (I.overlap hc he ho ▸ he) hnew
  · refine .inl ⟨hn, ?_⟩
    rw [addRegion, hrun]
    rfl
  · have hmem : ∀ e, e ∈ T'.toList ↔ e = c.entry ∨ e ∈ T.toList := by
      intro e
      rw [hT, hT', List.mem_append, List.mem_cons, List.mem_append]
      exact or_left_comm
    refine .inr ⟨{ s with tree := t }, T', ?_, I.setTree ht fun e he => ?_, hmem⟩
    · rw [addRegion, hrun]
      rfl
    · obtain rfl | he := (hmem e).mp he
      · exact ⟨c, hc, hused, rfl⟩
      · exact I.entries e he

/-- `__remove_region`: nothing is found, the region has another type, or it leaves the tree. -/
theorem removeRegion_spec (addr : Nat) (type : RegionType) (I : s.Inv l T) :
    (∃ e, e ≠ RmRet.ok ∧ s.removeRegion addr type = .ok (.error e, s)) ∨
    ∃ c ∈ l, ∃ s' T', s.removeRegion addr type = .ok (.ok c.ptr, s') ∧ s'.Inv l T' ∧
      c.reg.used = true ∧ c.reg.flags.type = type ∧
      ∀ e, e ∈ T'.toList ↔ e ∈ T.toList ∧ e ≠ c.entry := by
  rw [removeRegion]
  have hkey : (⟨addr, addr⟩ : Key).start ≤ (⟨addr, addr⟩ : Key).last := le_rfl
  obtain ⟨e, he, -, hfind⟩ | ⟨-, hfind⟩ := Avl.find_spec I.tree hkey
  · obtain ⟨c, hc, hused, rfl⟩ := I.entries e he
    have hreg : s.region c.entry.data = c.reg := I.shows.region c hc
    simp only [hfind, ok_bind, hreg]
    by_cases htype : c.reg.flags.type = type
    · rw [if_pos htype]
      obtain ⟨hno, -⟩ | ⟨t, T', l₁, l₂, d, hrun, ht, hT, hT'⟩ :=
        Avl.remove_spec ⟨c.reg.start, c.reg.last⟩ I.tree
      · exact absurd rfl (hno _ he)
      have hd : (⟨⟨c.reg.start, c.reg.last⟩, d⟩ : Entry) = c.entry :=
        I.overlap hc (by rw [hT]; simp) ⟨(I.last_le hc).1, (I.last_le hc).1⟩
      rw [hd] at hT
      have hnd : (l₁ ++ c.entry :: l₂).Nodup := hT ▸ I.tree.ordered.nodup
      have hmem : ∀ e, e ∈ T'.toList ↔ e ∈ T.toList ∧ e ≠ c.entry := by
        intro e
        have hout := (List.nodup_cons.mp (List.nodup_middle.mp hnd)).1
        rw [hT, hT', List.perm_middle.mem_iff, List.mem_cons]
        constructor
        · exact fun he => ⟨.inr he, fun h => hout (h ▸ he)⟩
        · rintro ⟨he, hne⟩
          exact he.resolve_left hne
      refine .inr ⟨c, hc, { s with tree := t }, T', ?_, I.setTree ht ?_, hused, htype, hmem⟩
      · rw [hrun]
        rfl
      · exact fun e he => I.entries e ((hmem e).mp he).1
    · rw [if_neg htype]
      exact .inl ⟨.einval, (by simp), rfl⟩
  · rw [hfind]
    exact .inl ⟨.enotfound, (by simp), rfl⟩


/-! ## Regions that become free -/

theorem Used.congr {l' : List Cell} (h : ∀ d, (d ∈ l' ∧ d.reg.used = true) ↔
    (d ∈ l ∧ d.reg.used = true)) {e : Entry} : Used l' e ↔ Used l e := by
  constructor
  · intro ⟨d, hd, hu, he⟩
    obtain ⟨hd, hu⟩ := (h d).mp ⟨hd, hu⟩
    exact ⟨d, hd, hu, he⟩
  · intro ⟨d, hd, hu, he⟩
    obtain ⟨hd, hu⟩ := (h d).mpr ⟨hd, hu⟩
    exact ⟨d, hd, hu, he⟩

/-- New flags for the cell `c`, which may make it a free region or take it out of the area `x`. -/
theorem layout_setFlags {l₁ l₂ : List Cell} {f : RegionFlags} {a e : Nat}
    (L : Layout a e (l₁ ++ c :: l₂)) :
    Layout a e (l₁ ++ ⟨c.ptr, { c.reg with flags := f }⟩ :: l₂) := by
  refine ⟨Tiles.splice (m := [c]) (n := [⟨c.ptr, { c.reg with flags := f }⟩]) L.tiles ?_, ?_⟩
  · exact fun k n h => h
  · intro d hd
    simp only [List.mem_append, List.mem_cons] at hd
    obtain hd | rfl | hd := hd
    · exact L.aligned d (by simp [hd])
    · exact L.aligned c (by simp)
    · exact L.aligned d (by simp [hd])

theorem areas_setFlags {l₁ l₂ : List Cell} {f : RegionFlags} {x : Nat}
    (H : Areas x (l₁ ++ c :: l₂)) (hf : f.area = c.area ∨ c.area = x ∧ f.area = defaultArea) :
    Areas x (l₁ ++ ⟨c.ptr, { c.reg with flags := f }⟩ :: l₂) := by
  have hsame : ∀ d ∈ l₁ ++ ⟨c.ptr, { c.reg with flags := f }⟩ :: l₂, d.area ≠ defaultArea →
      d.area ≠ x → ∃ d' ∈ l₁ ++ c :: l₂, d'.area = d.area ∧ d'.start = d.start := by
    intro d hd h0 hx
    simp only [List.mem_append, List.mem_cons] at hd
    obtain hd | rfl | hd := hd
    · exact ⟨d, by simp [hd], rfl, rfl⟩
    · obtain hf | ⟨-, hf⟩ := hf
      · exact ⟨c, by simp, hf.symm, rfl⟩
      · exact absurd hf h0
    · exact ⟨d, by simp [hd], rfl, rfl⟩
  intro d hd h0 hx
  obtain ⟨d', hd', harea, hstart⟩ := hsame d hd h0 hx
  rw [← harea] at h0 hx ⊢
  obtain ⟨hle, d'', hd'', ha, h1, h2⟩ := H d' hd' h0 hx
  refine ⟨hstart ▸ hle, ?_⟩
  simp only [List.mem_append, List.mem_cons] at hd''
  obtain hd'' | rfl | hd'' := hd''
  · exact ⟨d'', by simp [hd''], ha, h1, h2⟩
  · obtain hf | ⟨hf, -⟩ := hf
    · exact ⟨⟨d''.ptr, { d''.reg with flags := f }⟩, by simp, hf.trans ha, h1, h2⟩
    · exact absurd (ha.symm.trans hf) hx
  · exact ⟨d'', by simp [hd''], ha, h1, h2⟩


/-- The number of regions of an area. -/
def areaCount (x : Nat) (l : List Cell) : Nat := l.countP fun c => c.area = x

theorem areaCount_joins {x : Nat} {l' : List Cell} (h : Relation.ReflTransGen Joins l l') :
    areaCount x l' ≤ areaCount x l := by
  induction h with
  | refl => exact le_rfl
  | tail _ hj ih =>
    refine le_trans ?_ ih
    cases hj with
    | @join l₁ l₂ a b c hfree hflags hstart hlast hc =>
      have harea : c.area = a.area := by rw [Cell.area, hc, Cell.area]
      simp only [areaCount, List.countP_append, List.countP_cons, harea]
      omega

section
variable {x : Nat} {l₁ l₂ : List Cell} {f : RegionFlags}

theorem used_setFlags {e : Entry} (h : Used (l₁ ++ c :: l₂) e)
    (hf : e ≠ c.entry ∨ f.type = c.reg.flags.type) :
    Used (l₁ ++ ⟨c.ptr, { c.reg with flags := f }⟩ :: l₂) e := by
  obtain ⟨d, hd, hu, he⟩ := h
  simp only [List.mem_append, List.mem_cons] at hd
  obtain hd | rfl | hd := hd
  · exact ⟨d, by simp [hd], hu, he⟩
  · obtain hf | hf := hf
    · exact absurd he hf
    · refine ⟨⟨d.ptr, { d.reg with flags := f }⟩, by simp, ?_, he⟩
      simp only [Region.used, hf]
      exact hu
  · exact ⟨d, by simp [hd], hu, he⟩

theorem isChain_setFlags_used (H : (l₁ ++ c :: l₂).IsChain Apart)
    (hf : f.type ≠ .free) :
    (l₁ ++ ⟨c.ptr, { c.reg with flags := f }⟩ :: l₂).IsChain Apart := by
  obtain ⟨H1, H2⟩ := List.isChain_split.mp H
  have hu : Region.used { c.reg with flags := f } = true := by simpa [Region.used] using hf
  refine List.isChain_split.mpr ⟨isChain_concat.mpr ⟨(isChain_concat.mp H1).1, ?_⟩, ?_⟩
  · intro b _ _ h
    cases hu.symm.trans h
  · cases l₂ with
    | nil => exact .singleton _
    | cons b l =>
      refine List.isChain_cons_cons.mpr ⟨fun h => ?_, (List.isChain_cons_cons.mp H2).2⟩
      cases hu.symm.trans h

/-- A region gets new flags and is then joined with its neighbours: how `l4rm_free_region` and
`l4rm_reset_area` call `__modify_region`. -/
theorem InvBut.refile (I : s.InvBut x (l₁ ++ c :: l₂) T)
    (harea : f.area = c.area ∨ c.area = x ∧ f.area = defaultArea)
    (hf : f.type = .free ∧ c.entry ∉ T.toList ∨ f.type = c.reg.flags.type) :
    ∃ l s', (s.setFlags c.ptr f).modifyRegion c.ptr f = .ok s' ∧ s'.InvBut x l T ∧
      (∀ e, Used l e ↔ Used (l₁ ++ ⟨c.ptr, { c.reg with flags := f }⟩ :: l₂) e) ∧
      (∀ y, areaCount y l ≤ areaCount y (l₁ ++ ⟨c.ptr, { c.reg with flags := f }⟩ :: l₂)) ∧
      (∀ k t, TypeAt l k t ↔ TypeAt (l₁ ++ ⟨c.ptr, { c.reg with flags := f }⟩ :: l₂) k t) ∧
      ∀ e, e.reg.used = true ∨ e.reg.flags ≠ f →
        (e ∈ l ↔ e ∈ l₁ ++ ⟨c.ptr, { c.reg with flags := f }⟩ :: l₂) := by
  have S := I.shows.setFlags (f := f)
  have L := layout_setFlags (f := f) I.layout
  have H := areas_setFlags I.areas harea
  have hentries : ∀ e ∈ T.toList, Used (l₁ ++ ⟨c.ptr, { c.reg with flags := f }⟩ :: l₂) e := by
    intro e he
    refine used_setFlags (I.entries e he) ?_
    obtain ⟨-, hc⟩ | hf := hf
    · exact .inl fun h => hc (h ▸ he)
    · exact .inr hf
  by_cases hfree : f.type = .free
  · obtain ⟨l, s', hrun, S', hF, hnd, hj, hch, hkeep⟩ := modifyRegion_free S I.nodup hfree
    have hch := hch (isChain_concat.mp (List.isChain_split.mp I.chain).1).1
      (List.isChain_cons.mp (List.isChain_split.mp I.chain).2).2
    obtain ⟨L', H', hu⟩ := joins_keep hj L H
    have hvs : s'.vmStart = s.vmStart := hF.vmStart
    have hve : s'.vmEnd = s.vmEnd := hF.vmEnd
    have ht : s'.tree = s.tree := hF.tree
    refine ⟨l, s', hrun, ⟨S', hnd, hvs ▸ hve ▸ L', hve ▸ I.bound, hch, H', ht ▸ I.tree, ?_⟩,
      fun e => Used.congr hu, fun y => areaCount_joins hj, fun k t => (joins_typeAt hj L).2,
      fun e he => hkeep e (he.elim (fun h h' => ?_) id)⟩
    · exact fun e he => (Used.congr hu).mpr (hentries e he)
    · simp [Region.used, h', hfree] at h
  · refine ⟨l₁ ++ ⟨c.ptr, { c.reg with flags := f }⟩ :: l₂, _, modifyRegion_used hfree,
      ⟨S.setFlags, I.nodup, L, I.bound, isChain_setFlags_used I.chain hfree, H, I.tree, hentries⟩,
      fun e => Iff.rfl, fun y => le_rfl, fun k t => Iff.rfl, fun e _ => Iff.rfl⟩

end

/-- `l4rm_free_region` for a used region that is not in the tree any more. -/
theorem freeRegion_spec (I : s.Inv l T) (hc : c ∈ l) (hused : c.reg.used = true)
    (htree : c.entry ∉ T.toList) :
    ∃ l' s', s.freeRegion c.ptr = .ok s' ∧ s'.Inv l' T ∧
      ∀ e, Used l' e → Used l e ∧ e ≠ c.entry := by
  have S := I.shows
  have hreg := I.shows.region c hc
  obtain ⟨l₁, l₂, rfl⟩ := List.append_of_mem hc
  obtain ⟨l', s', hrun, I', hu, -⟩ := I.refile (f := { c.reg.flags with type := .free })
    (.inl rfl) (.inl ⟨rfl, htree⟩)
  refine ⟨l', s', ?_, I', fun e he => ?_⟩
  · have hflags : ((s.setFlags c.ptr { c.reg.flags with type := .free }).region c.ptr).flags =
        { c.reg.flags with type := .free } := by simp [Rm.setFlags, setRegion]
    simp only [freeRegion, hreg, hused, Bool.true_eq_false, if_false, hflags]
    exact hrun
  · obtain ⟨d, hd, hdu, rfl⟩ := (hu e).mp he
    have hd' : d ∈ l₁ ∨ d ∈ l₂ := by
      simp only [List.mem_append, List.mem_cons] at hd
      obtain hd | rfl | hd := hd
      · exact .inl hd
      · simp [Region.used] at hdu
      · exact .inr hd
    have hdm : d ∈ l₁ ++ c :: l₂ := by
      simp only [List.mem_append, List.mem_cons]
      exact hd'.imp_right .inr
    refine ⟨⟨d, hdm, hdu, rfl⟩, fun h => ?_⟩
    have hdc := entry_inj S hdm hc h
    subst hdc
    have := S.ptr_notMem
    obtain hd' | hd' := hd'
    · exact this.1 (List.mem_map_of_mem hd')
    · exact this.2 (List.mem_map_of_mem hd')


/-! ## Areas that are released -/

/-- What the release of the area `x` does to the regions: the addresses keep their types, and so do the
regions of other areas, except for free ones of the default area, which may grow. -/
structure Released (x : Nat) (l l' : List Cell) : Prop where
  used : ∀ e, Used l' e ↔ Used l e
  types : ∀ k t, TypeAt l' k t ↔ TypeAt l k t
  others : ∀ c, c.area ≠ x → c.reg.used = true ∨ c.area ≠ defaultArea → c ∈ l → c ∈ l'
  areas : ∀ c, c.area ≠ x → c.area ≠ defaultArea → c ∈ l' → c ∈ l

theorem Released.refl (x : Nat) (l : List Cell) : Released x l l :=
  ⟨fun _ => Iff.rfl, fun _ _ => Iff.rfl, fun _ _ _ h => h, fun _ _ _ h => h⟩

theorem Released.trans {x : Nat} {l l' l'' : List Cell} (h : Released x l l')
    (h' : Released x l' l'') : Released x l l'' :=
  ⟨fun e => (h'.used e).trans (h.used e), fun k t => (h'.types k t).trans (h.types k t),
    fun c hx hc hm => h'.others c hx hc (h.others c hx hc hm),
    fun c hx h0 hm => h.areas c hx h0 (h'.areas c hx h0 hm)⟩

theorem typeAt_setFlags {l₁ l₂ : List Cell} {f : RegionFlags} (hf : f.type = c.reg.flags.type)
    {k : Nat} {t : RegionType} :
    TypeAt (l₁ ++ ⟨c.ptr, { c.reg with flags := f }⟩ :: l₂) k t ↔ TypeAt (l₁ ++ c :: l₂) k t := by
  have hat : Cell.At ⟨c.ptr, { c.reg with flags := f }⟩ k ↔ c.At k := Iff.rfl
  simp only [TypeAt, List.mem_append, List.mem_cons, or_and_right, exists_or, exists_eq_left, hat, hf]

/-- One round of `l4rm_reset_area`. -/
theorem reset_step {x : Nat} (I : s.InvBut x l T) (hc : c ∈ l) (harea : c.area = x) :
    ∃ l' s', (s.setFlags c.ptr { c.reg.flags with area := defaultArea }).modifyRegion c.ptr
        { c.reg.flags with area := defaultArea } = .ok s' ∧ s'.InvBut x l' T ∧
      Released x l l' ∧ (x ≠ defaultArea → areaCount x l' < areaCount x l) := by
  obtain ⟨l₁, l₂, rfl⟩ := List.append_of_mem hc
  obtain ⟨l', s', hrun, I', hu, hcount, htypes, hkeep⟩ :=
    I.refile (f := { c.reg.flags with area := defaultArea }) (.inr ⟨harea, rfl⟩) (.inr rfl)
  refine ⟨l', s', hrun, I', ⟨fun e => (hu e).trans ⟨fun h => ?_, fun h => ?_⟩, fun k t => ?_,
    fun e hx he hm => ?_, fun e hx h0 hm => ?_⟩, fun hx => ?_⟩
  · have := used_setFlags (f := c.reg.flags) h (.inr rfl)
    exact this
  · exact used_setFlags h (.inr rfl)
  · exact (htypes k t).trans (typeAt_setFlags (f := { c.reg.flags with area := defaultArea }) rfl)
  · have hne : e ≠ c := fun h => hx (h ▸ harea)
    have hflags : e.reg.used = true ∨ e.reg.flags ≠ { c.reg.flags with area := defaultArea } :=
      he.imp_right fun h0 hf => h0 (congrArg RegionFlags.area hf)
    refine (hkeep e hflags).mpr ?_
    simp only [List.mem_append, List.mem_cons, hne, false_or] at hm ⊢
    exact hm.imp_right .inr
  · have hne : e ≠ ⟨c.ptr, { c.reg with flags := { c.reg.flags with area := defaultArea } }⟩ :=
      fun h => h0 (h ▸ rfl)
    have hflags : e.reg.flags ≠ { c.reg.flags with area := defaultArea } :=
      fun hf => h0 (congrArg RegionFlags.area hf)
    have hm := (hkeep e (.inr hflags)).mp hm
    simp only [List.mem_append, List.mem_cons, hne, false_or] at hm ⊢
    exact hm.imp_right .inr
  · have hx' : ¬defaultArea = x := fun h => hx h.symm
    refine (hcount x).trans_lt ?_
    simp only [areaCount, List.countP_append, List.countP_cons, harea]
    simp [Cell.area, hx']

theorem resetLoop_spec {x : Nat} (n : Nat) (I : s.InvBut x l T)
    (hn : x ≠ defaultArea → areaCount x l < n) :
    Meets (resetLoop x n s)
      (fun s' => ∃ l', s'.Inv l' T ∧ Released x l l' ∧ ∀ c ∈ l', c.area ≠ x)
      fun e => e = .diverges ∧ x = defaultArea := by
  induction n generalizing s l with
  | zero =>
    refine ⟨rfl, ?_⟩
    by_contra hx
    cases hn hx
  | succ n ih =>
    have hscan := I.shows.scan_eq fun r => r.flags.area = x
    rw [resetLoop, hscan]
    cases hfind : l.find? fun c => decide (c.reg.flags.area = x) with
    | none =>
      -- no region of the area is left
      have hnone : ∀ c ∈ l, c.area ≠ x := fun c hc hx =>
        List.find?_eq_none.mp hfind c hc (decide_eq_true hx)
      exact ⟨l, ⟨I.shows, I.nodup, I.layout, I.bound, I.chain,
        fun c hc h0 _ => I.areas c hc h0 (hnone c hc), I.tree, I.entries⟩, .refl x l, hnone⟩
    | some c =>
      have hc := List.mem_of_find?_eq_some hfind
      have hstop := List.find?_some hfind
      have harea : c.area = x := of_decide_eq_true hstop
      obtain ⟨l', s', hrun, I', hr, hcount⟩ := reset_step I hc harea
      have hflags : ((s.setFlags c.ptr { c.reg.flags with area := defaultArea }).region
          c.ptr).flags = { c.reg.flags with area := defaultArea } := by
        simp [Rm.setFlags, setRegion]
      simp only [Option.map_some, I.shows.region c hc, hflags]
      refine Meets.bind_ok hrun ?_
      refine (ih I' fun hx => ?_).imp ?_
      · have h1 := hcount hx
        have h2 := hn hx
        omega
      · rintro s'' ⟨l'', I'', hr', hnone⟩
        exact ⟨l'', I'', hr.trans hr', hnone⟩

/-- `l4rm_reset_area` ends for every area but the default one. -/
theorem resetArea_released {x : Nat} (I : s.Inv l T) :
    Meets (s.resetArea x) (fun s' => ∃ l', s'.Inv l' T ∧ Released x l l' ∧ ∀ c ∈ l', c.area ≠ x)
      fun e => e = .diverges ∧ x = defaultArea := by
  refine resetLoop_spec _ ⟨I.shows, I.nodup, I.layout, I.bound, I.chain, ?_, I.tree, I.entries⟩ ?_
  · exact fun c hc h0 _ => I.areas c hc h0 h0
  · intro _
    have h1 := I.shows.length_lt
    have h2 : areaCount x l ≤ l.length := List.countP_le_length
    rw [List.length_map] at h1
    exact h2.trans_lt h1

theorem resetArea_spec {x : Nat} (I : s.Inv l T) :
    Meets (s.resetArea x) (fun s' => ∃ l', s'.Inv l' T ∧ ∀ e, Used l' e ↔ Used l e)
      fun e => e = .diverges ∧ x = defaultArea :=
  (resetArea_released I).imp fun _ ⟨l', I', hr, _⟩ => ⟨l', I', hr.used⟩


/-! ## New regions -/

/-- Changes outside of the region list. -/
theorem InvBut.outside {x : Nat} (I : s.InvBut x l T) (hhead : s'.head = s.head)
    (hcells : ∀ c ∈ l, s'.region c.ptr = s.region c.ptr ∧ s'.next c.ptr = s.next c.ptr ∧
      s'.prev c.ptr = s.prev c.ptr ∧ c.ptr ∈ s'.live)
    (hnd : s'.live.Nodup) (hF : s.Frame s') : s'.InvBut x l T := by
  refine ⟨⟨⟨hhead.trans I.shows.dlist.1, I.shows.dlist.2.congr ?_ ?_⟩, ?_, I.shows.nodup, ?_⟩, hnd,
    ?_, ?_, I.chain, I.areas, ?_, I.entries⟩
  · intro q hq
    obtain ⟨c, hc, rfl⟩ := List.mem_map.mp hq
    exact (hcells c hc).2.1
  · intro q hq
    obtain ⟨c, hc, rfl⟩ := List.mem_map.mp hq
    exact (hcells c hc).2.2.1
  · exact fun c hc => (hcells c hc).1.trans (I.shows.region c hc)
  · exact fun c hc => (hcells c hc).2.2.2
  · rw [hF.vmStart, hF.vmEnd]
    exact I.layout
  · rw [hF.vmEnd]
    exact I.bound
  · rw [hF.tree]
    exact I.tree

section
variable {p : Ptr} {r : Region} {l₁ l₂ m : List Cell} {mapAddr : Nat}

theorem ptr_ne (hp : p ∉ l.map Cell.ptr) (hc : c ∈ l) : c.ptr ≠ p :=
  fun h => hp (h ▸ List.mem_map_of_mem hc)

theorem InvBut.setRegion_new (I : s.Inv l T) (hp : p ∉ l.map Cell.ptr) :
    (s.setRegion p r).Inv l T := by
  refine I.outside rfl (fun c hc => ⟨?_, rfl, rfl, I.shows.live c hc⟩) I.nodup ⟨rfl, rfl, rfl⟩
  exact Function.update_of_ne (ptr_ne hp hc) _ _

theorem InvBut.descFree_new (I : s.Inv l T) (hp : p ∉ l.map Cell.ptr) : (s.descFree p).Inv l T := by
  refine I.outside rfl (fun c hc => ⟨rfl, rfl, rfl, ?_⟩) (I.nodup.erase _) ⟨rfl, rfl, rfl⟩
  exact (List.mem_erase_of_ne (ptr_ne hp hc)).mpr (I.shows.live c hc)

/-- A new area has another number than all areas in use. -/
theorem InvBut.newArea (I : s.Inv l T) (hc : c ∈ l) (hd : d ∈ l) (hs : c.start ≤ x * pageSize)
    (hl : x * pageSize ≤ c.last) (h0 : x ≠ defaultArea) (hne : c.area ≠ x) : d.area ≠ x := by
  intro hx
  obtain ⟨-, d', hd', harea, h1, h2⟩ := I.areas d hd (hx ▸ h0) (hx ▸ h0)
  rw [hx] at harea h1 h2
  exact hne (I.layout.tiles.unique hc hd' hs hl h1 h2 ▸ harea)

theorem flags_eq_of_free {r r' : Region} (h : r.used = false) (h' : r'.used = false)
    (harea : r.flags.area = r'.flags.area) : r.flags = r'.flags := by
  obtain ⟨_, _, ⟨t, a⟩, _⟩ := r
  obtain ⟨_, _, ⟨t', a'⟩, _⟩ := r'
  simp_all [Region.used]

/-- The new region keeps the invariant. -/
theorem InvBut.cut (I : s.Inv (l₁ ++ c :: l₂) T) (S : s'.Shows (l₁ ++ (m ++ l₂))) (hF : s.Frame s')
    (hnd : s'.live.Nodup) (hcut : Cut c p r m) (hR : Room c area mapAddr size)
    (hstart : r.start = mapAddr) (hlast : r.last + 1 = mapAddr + size)
    (harea : r.flags.area = c.area ∨ r.flags.area * pageSize = r.start)
    (hfree : r.used = false → r.flags ≠ c.reg.flags ∧ c.area = defaultArea ∧
      r.flags.area * pageSize = r.start) :
    s'.Inv (l₁ ++ (m ++ l₂)) T ∧
      ∀ e, Used (l₁ ++ (m ++ l₂)) e ↔
        Used (l₁ ++ c :: l₂) e ∨ (e = (⟨p, r⟩ : Cell).entry ∧ r.used = true) := by
  have hle : r.start ≤ r.last := by
    have := hR.pos
    omega
  have hused : ∀ e, Used (l₁ ++ (m ++ l₂)) e ↔
      Used (l₁ ++ c :: l₂) e ∨ (e = (⟨p, r⟩ : Cell).entry ∧ r.used = true) := by
    intro e
    constructor
    · intro ⟨d, hd, hu, he⟩
      obtain ⟨hd, hu⟩ | ⟨rfl, hu⟩ := (hcut.used hR.free).mp ⟨hd, hu⟩
      · exact .inl ⟨d, hd, hu, he⟩
      · exact .inr ⟨he, hu⟩
    · intro h
      obtain ⟨d, hd, hu, he⟩ | ⟨he, hu⟩ := h
      · obtain ⟨hd, hu⟩ := (hcut.used hR.free).mpr (.inl ⟨hd, hu⟩)
        exact ⟨d, hd, hu, he⟩
      · have hp : (⟨p, r⟩ : Cell) ∈ l₁ ++ (m ++ l₂) ∧ r.used = true :=
          (hcut.used hR.free).mpr (.inr ⟨rfl, hu⟩)
        exact ⟨_, hp.1, hp.2, he⟩
  -- a new area does not border on a region with its flags
  have hapart : r.used = false → ∀ d ∈ l₁ ++ c :: l₂, d.reg.flags ≠ r.flags := by
    intro hr d hd hflags
    obtain ⟨hne, hc0, hr0⟩ := hfree hr
    have hRs := hR.start_le
    have hRl := hR.le_last
    have hcfree := hR.free
    have hne' : c.area ≠ r.flags.area := by
      intro h
      exact hne (flags_eq_of_free hr hcfree h.symm)
    refine I.newArea (c := c) (x := r.flags.area) (by simp) hd (by omega) ?_ ?_ hne'
      (congrArg RegionFlags.area hflags)
    · simp only [Cell.last] at *
      omega
    · exact fun h => hne' (hc0.trans h.symm)
  refine ⟨⟨S, hnd, ?_, ?_, ?_, hcut.areas I.areas hle harea, ?_, ?_⟩, hused⟩
  · rw [hF.vmStart, hF.vmEnd]
    exact hcut.layout I.layout hle (hstart ▸ hR.aligned)
      (hlast ▸ (Nat.dvd_add_right hR.aligned).mpr hR.pages)
  · rw [hF.vmEnd]
    exact I.bound
  · refine hcut.chain I.chain ?_ ?_ ?_
    · exact fun _ hr => hapart hr c (by simp)
    · exact fun d hd _ hr => hapart hr d (by simp [List.mem_of_getLast? hd])
    · exact fun d hd hr _ => (hapart hr d (by simp [List.mem_of_mem_head? hd])).symm
  · rw [hF.tree]
    exact I.tree
  · exact fun e he => (hused e).mpr (.inl (I.entries e he))

/-- The call of the region mapper that adds a region to the tree succeeds. -/
def Reliable (flags : RmFlags) (env : Env) : Prop :=
  env.node.isSome ∧ (flags.modifyDirect = true ∨ env.ipcLost = false ∧ env.replyLost = false)

theorem treeInsertRegion_eq (hr : Reliable flags env) :
    ∃ q, env.node = some q ∧ ∀ ret s', s.addRegion ⟨(s.region p).start, (s.region p).last⟩ p
      (some q) = .ok (ret, s') → s.treeInsertRegion p flags env = .ok (ret, s') := by
  obtain ⟨hnode, hipc⟩ := hr
  obtain ⟨q, hq⟩ := Option.isSome_iff_exists.mp hnode
  refine ⟨q, hq, fun ret s' hrun => ?_⟩
  rw [treeInsertRegion, hq]
  obtain hdirect | ⟨h1, h2⟩ := hipc
  · simp only [hdirect, if_true]
    exact hrun
  · split
    · exact hrun
    · simp only [h1, h2, Bool.false_eq_true, if_false, hrun]
      rfl

/-- The end of the new region, in machine words. -/
theorem new_last (hpos : 0 < size) (hle : mapAddr + size ≤ 4294967296) :
    Word.sub (Word.add mapAddr size) 1 + 1 = mapAddr + size := by
  rcases eq_or_lt_of_le hle with h | h
  · rw [Word.add_eq_zero h, Word.sub_zero_left (by omega) (by omega)]
    omega
  · rw [Word.add_eq h, Word.sub_eq (by omega) h]
    omega

/-- The area number that is stored in the descriptor is not cut off. -/
theorem InvBut.area_mod (I : s.Inv l T) (hc : c ∈ l) : c.area % 1048576 = c.area := by
  refine Nat.mod_eq_of_lt ?_
  have hle := I.last_le hc
  have hbound := I.bound
  by_cases h0 : c.area = defaultArea
  · rw [h0]
    decide
  · have h1 := (I.areas c hc h0 h0).1
    simp only [pageSize] at h1
    omega

theorem insertRegion_assert {q : Ptr} {tmp : Option Ptr}
    (h : (s.region p).flags = (s.region q).flags) : s.insertRegion p q tmp = .error .assertion := by
  simp [insertRegion, Avl.assert, h]
  rfl

/-- The region `p`, placed into the free region `c`, is entered into the list. -/
theorem insertNew_spec {tmp : Option Ptr} (I : s.Inv l T) (hp : p ∉ l.map Cell.ptr)
    (hlive : p ∈ s.live) (htmp : ∀ t, tmp = some t → t ∉ s.live) (hc : c ∈ l)
    (hR : Room c area mapAddr size) (hstart : (s.region p).start = mapAddr)
    (hlast : (s.region p).last + 1 = mapAddr + size)
    (harea : (s.region p).flags.area = c.area ∨
      (s.region p).flags.area * pageSize = (s.region p).start)
    (hfree : (s.region p).used = false → c.area = defaultArea ∧
      (s.region p).flags.area * pageSize = (s.region p).start) :
    (s.insertRegion p c.ptr tmp = .error .assertion ∧ (s.region p).used = false) ∨
    s.insertRegion p c.ptr tmp = .ok (.enomem, s) ∨
    ∃ l' s', s.insertRegion p c.ptr tmp = .ok (.ok, s') ∧ s'.Inv l' T ∧ s'.tree = s.tree ∧
      ⟨p, s.region p⟩ ∈ l' ∧ ∀ e, Used l' e ↔
        Used l e ∨ (e = (⟨p, s.region p⟩ : Cell).entry ∧ (s.region p).used = true) := by
  have hcreg := I.shows.region c hc
  by_cases hflags : (s.region p).flags = c.reg.flags
  · refine .inl ⟨insertRegion_assert (by rw [hcreg, hflags]), ?_⟩
    rw [used_eq hflags, hR.free]
  refine .inr ?_
  have hclast := I.last_le hc
  have hbound := I.bound
  have hRs := hR.start_le
  have hRl := hR.le_last
  have hpos := hR.pos
  obtain ⟨l₁, l₂, rfl⟩ := List.append_of_mem hc
  simp only [Cell.start, Cell.last] at hclast hRs hRl
  obtain hrun | ⟨m, s', hrun, hcut, S', hF, hnd⟩ := insertRegion_spec I.shows
    (by simpa only [List.map_append, List.map_cons] using hp) hlive I.nodup htmp hflags
    (by omega) (by omega) (by omega) (by omega)
  · exact .inl hrun
  · obtain ⟨I', hused⟩ := I.cut S' hF hnd hcut hR hstart hlast harea
      fun h => ⟨hflags, hfree h⟩
    refine .inr ⟨_, s', hrun, I', hF.tree, ?_, hused⟩
    have : ⟨p, s.region p⟩ ∈ m := by cases hcut <;> simp
    simp [this]

/-- What a request for a new region asks for: a used region that is entered into the tree, or an
area of its own. -/
inductive Kind (type : RegionType) (area : Nat) (flags : RmFlags) (env : Env) : Prop
  | used (htype : type ≠ .free) (htree : flags.treeInsert = true) (h : Reliable flags env)
  | area (htype : type = .free) (htree : flags.treeInsert = false) (hset : flags.setArea = true)
      (h : area = defaultArea)

theorem newRegion_spec (I : s.Inv l T) (hp : p ∉ l.map Cell.ptr) (hlive : p ∈ s.live)
    (haddr : addr < 4294967296) (hsize : size < 4294967296)
    (hroom : ∀ c ∈ l, RoomyIn c.reg addr size area flags)
    (htmp : ∀ t, env.tmp = some t → t ∉ s.live)
    (hnode : ∀ q, env.node = some q → q ≠ 0 ∧ s.tree.node q = none)
    (hkind : Kind (s.region p).flags.type area flags env) :
    Meets (s.newRegion p addr size area flags env)
      (fun q => (q.1 ≠ .ok ∧ q.2.Inv l T) ∨
        q.1 = .ok ∧ ∃ l' T', q.2.Inv l' T' ∧ (Complete l T → Complete l' T'))
      fun e => e = .assertion ∧ (s.region p).flags.type = .free := by
  obtain ⟨e, he, hrun⟩ | ⟨c, hc, mapAddr, size', hrun, hR⟩ := place_spec I haddr hsize hroom
  · refine Meets.bind_ok hrun ?_
    exact .inl ⟨he, I⟩
  refine Meets.bind_ok hrun ?_
  have hbound := I.bound
  have hclast := I.last_le hc
  have hRl := hR.le_last
  have hlast := new_last hR.pos (by omega : mapAddr + size' ≤ 4294967296)
  have hnum : mapAddr / pageSize % 1048576 * pageSize = mapAddr := by
    rw [Nat.mod_eq_of_lt, Nat.div_mul_cancel hR.aligned]
    have hpos := hR.pos
    simp only [pageSize]
    omega
  dsimp only
  generalize harea' : (if flags.setArea = true then mapAddr / pageSize else area) = area'
  generalize hr : ({ s.region p with
      start := mapAddr
      last := Word.sub (Word.add mapAddr size') 1
      flags := { (s.region p).flags with area := area' % 1048576 } } : Region) = r
  have hreg : (s.setRegion p r).region p = r := Function.update_self _ _ _
  have I₁ : (s.setRegion p r).Inv l T := I.setRegion_new hp
  have hused : r.used = (s.region p).used := by rw [← hr]; rfl
  have hset : flags.setArea = true → r.flags.area * pageSize = r.start := by
    intro h
    rw [if_pos h] at harea'
    rw [← hr, ← harea']
    exact hnum
  have hkeep : flags.setArea = false → r.flags.area = c.area := by
    intro h
    rw [if_neg (by simp [h])] at harea'
    rw [← hr, ← harea', ← hR.area_eq]
    exact I.area_mod hc
  have hinsert := insertNew_spec I₁ hp hlive htmp hc hR (by rw [hreg, ← hr])
    (by rw [hreg, ← hr]; exact hlast) ?_ ?_
  · rw [hreg, hused] at hinsert
    obtain ⟨hfail, hfree⟩ | hrun | ⟨l', s₂, hrun, I₂, htree, hpl, hu⟩ := hinsert
    · rw [hfail]
      exact ⟨rfl, by simpa [Region.used] using hfree⟩
    · refine Meets.bind_ok hrun ?_
      exact .inl ⟨(by simp), I₁⟩
    refine Meets.bind_ok hrun ?_
    have hp₂ : s₂.region p = r := I₂.shows.region _ hpl
    rw [if_neg (by simp)]
    cases hkind with
    | used htype hins hrel =>
      have hused' : r.used = true := by
        rw [hused]
        simpa [Region.used] using htype
      have hnew : (⟨p, r⟩ : Cell).entry ∉ T.toList := by
        intro h
        obtain ⟨d, hd, -, he⟩ := I.entries _ h
        exact ptr_ne hp hd (congrArg Entry.data he).symm
      obtain ⟨q, hq, hcall⟩ := treeInsertRegion_eq (s := s₂) (p := p) hrel
      rw [hp₂] at hcall
      obtain ⟨hnone, -⟩ | ⟨s₃, T', hadd, I₃, hT'⟩ := addRegion_spec I₂ hpl hused' hnew
        (fun q' hq' => htree ▸ hnode q' (hq.trans hq'))
      · cases hnone
      rw [if_pos hins]
      refine Meets.bind_ok (hcall _ _ hadd) ?_
      refine .inr ⟨rfl, l', T', I₃, fun H e he => (hT' e).mpr ?_⟩
      obtain he | ⟨he, -⟩ := (hu e).mp he
      · exact .inr (H e he)
      · exact .inl he
    | area htype hins hset' harea =>
      rw [if_neg (by simp [hins])]
      refine .inr ⟨rfl, l', T, I₂, fun H e he => ?_⟩
      obtain he | ⟨-, h⟩ := (hu e).mp he
      · exact H e he
      · simp [Region.used, htype] at h
  · rw [hreg]
    cases hs : flags.setArea with
    | true => exact .inr (hset hs)
    | false => exact .inl (hkeep hs)
  · rw [hreg]
    intro hfree
    cases hkind with
    | used htype _ _ =>
      rw [hused] at hfree
      simp [Region.used, htype] at hfree
    | area htype hins hset' harea => exact ⟨hR.area_eq.trans harea, hset hset'⟩

end

end Rm

end L4env.L4rm
