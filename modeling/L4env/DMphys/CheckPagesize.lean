import L4env.DMphys.MemMap

/-!
# DMphys: the page size of a range

`dmphys_memmap_check_pagesize` walks over the areas of the memory map from the one that holds the start
of a range until it has got as many bytes as the range has. A hole in the map adds to these bytes like
an area.
-/

namespace L4env.DMphys

namespace MemMap

variable {m : MemMap} {l l₁ l₂ : List Ptr} {a b : Ptr} {addr size pagesize cur got stop fuel : Nat}

/-- The end of an area, which is a word. -/
def stopOf (m : MemMap) (a : Ptr) : Nat := m.addr a + m.size a

/-- The areas of the map are in order and not empty, and end below the end of the memory. -/
structure Ordered (m : MemMap) (l : List Ptr) : Prop where
  links : IsSList m.next m.mem l
  nodup : l.Nodup
  live : ∀ a ∈ l, a ∈ m.live
  sorted : l.Pairwise fun a b => m.stopOf a ≤ m.addr b
  size_pos : ∀ a ∈ l, 0 < m.size a
  high : ∀ a ∈ l, m.stopOf a ≤ m.physMemHigh
  word : m.physMemHigh < 4294967296

/-- The area is mapped with the page size or a larger one. -/
def Serves (m : MemMap) (pagesize : Nat) (a : Ptr) : Prop :=
  m.flags a = .mapped ∧ pagesize ≤ (m.area a).pagesize

/-- The address is in the area. -/
def Has (m : MemMap) (a : Ptr) (x : Nat) : Prop := m.addr a ≤ x ∧ x < m.stopOf a

/-- The range is aligned, and all of it is mapped with the page size or a larger one. -/
def Mapped (m : MemMap) (l : List Ptr) (addr size pagesize : Nat) : Prop :=
  2 ^ pagesize ∣ addr ∧ 2 ^ pagesize ∣ size ∧
    ∀ x, addr ≤ x → x < addr + size → ∃ a ∈ l, m.Serves pagesize a ∧ m.Has a x

/-- No hole of the map is in the range. -/
def Covered (m : MemMap) (l : List Ptr) (addr size : Nat) : Prop :=
  ∀ x, addr ≤ x → x < addr + size → ∃ a ∈ l, m.Has a x

/-- The loop gets to the area: it is behind the start of the range, and no area in front of it ends
at the end of the range or behind it. -/
def Reached (m : MemMap) (l : List Ptr) (addr size : Nat) (a : Ptr) : Prop :=
  addr < m.stopOf a ∧ ∀ b ∈ l, addr + size ≤ m.stopOf b → m.addr a ≤ m.addr b

/-- The loop gets to an area that does not serve, or to the end of the map. -/
def Refused (m : MemMap) (l : List Ptr) (addr size pagesize : Nat) : Prop :=
  (∃ a ∈ l, m.Reached l addr size a ∧ ¬m.Serves pagesize a) ∨
    ∀ a ∈ l, m.stopOf a < addr + size

/-! ## The loop -/

/-- What is left of the area behind `cur`, or with the hole in front of it if `cur` is there. -/
theorem rest_eq {x s : Nat} (hcur : cur < x + s) (h : x + s < 4294967296) :
    Word.sub s (Word.sub cur x) = x + s - cur := by
  unfold Word.sub
  omega

theorem checkLoop_end (hf : 0 < fuel) (h : size ≤ got) (p : Option Ptr) :
    m.checkLoop size pagesize fuel p cur got = .ok true := by
  obtain ⟨fuel, rfl⟩ : ∃ k, fuel = k + 1 := ⟨fuel - 1, by omega⟩
  cases p with
  | none => simp [checkLoop, h, pure, Except.pure]
  | some a => simp [checkLoop, h, pure, Except.pure]

/-- One round of the loop, for an area that ends behind `cur`. -/
theorem checkLoop_cons (h : ¬addr + size ≤ cur) (haddr : addr ≤ cur) (hcur : cur < m.stopOf a)
    (hword : m.stopOf a < 4294967296) :
    m.checkLoop size pagesize (fuel + 1) (some a) cur (cur - addr) =
      if m.flags a = .mapped ∧ pagesize ≤ (m.area a).pagesize then
        m.checkLoop size pagesize fuel (m.next a) (m.stopOf a) (m.stopOf a - addr)
      else .ok false := by
  have hrest : Word.sub (m.size a) (Word.sub cur (m.addr a)) = m.stopOf a - cur :=
    rest_eq hcur hword
  have hnext : Word.add cur (m.stopOf a - cur) = m.stopOf a := by
    rw [Word.add_eq (by omega)]
    omega
  have hgot : Word.add (cur - addr) (m.stopOf a - cur) = m.stopOf a - addr := by
    rw [Word.add_eq (by omega)]
    omega
  rw [checkLoop, if_neg (by omega), hrest]
  simp only [hnext, hgot]
  by_cases hflags : m.flags a = .mapped
  · by_cases hps : pagesize ≤ (m.area a).pagesize
    · simp [hflags, hps, Nat.not_lt.mpr hps]
    · simp [hflags, hps, Nat.lt_of_not_le hps, pure, Except.pure]
  · simp [hflags, pure, Except.pure]

/-- The loop goes over the areas `l`, of which all end behind `cur`. -/
theorem checkLoop_iff (size pagesize : Nat) {p : Option Ptr} (hl : IsSList m.next p l)
    (hsorted : l.Pairwise fun a b => m.stopOf a ≤ m.addr b) (hpos : ∀ a ∈ l, 0 < m.size a)
    (hword : ∀ a ∈ l, m.stopOf a < 4294967296) (hcur : ∀ a ∈ l, cur < m.stopOf a)
    (haddr : addr ≤ cur) (hf : l.length < fuel) :
    ∃ r, m.checkLoop size pagesize fuel p cur (cur - addr) = .ok r ∧
      (r = true ↔ addr + size ≤ cur ∨ (∃ a ∈ l, addr + size ≤ m.stopOf a) ∧
        ∀ a ∈ l, (∀ b ∈ l, addr + size ≤ m.stopOf b → m.addr a ≤ m.addr b) →
          m.Serves pagesize a) := by
  by_cases hend : addr + size ≤ cur
  · exact ⟨true, checkLoop_end (by omega) (by omega) p, by simp [hend]⟩
  induction l generalizing p cur fuel with
  | nil =>
    obtain ⟨fuel, rfl⟩ : ∃ k, fuel = k + 1 := ⟨fuel - 1, by simp at hf; omega⟩
    obtain rfl : p = none := hl
    refine ⟨false, ?_, by simp [hend]⟩
    have hgot : ¬size ≤ cur - addr := by omega
    simp [checkLoop, hgot, pure, Except.pure]
  | cons a l ih =>
    obtain ⟨fuel, rfl⟩ : ∃ k, fuel = k + 1 := ⟨fuel - 1, by simp at hf; omega⟩
    obtain ⟨rfl, hl⟩ := hl
    obtain ⟨ha, hsorted⟩ := List.pairwise_cons.mp hsorted
    have hwa := hword a List.mem_cons_self
    have hca := hcur a List.mem_cons_self
    rw [checkLoop_cons hend haddr hca hwa]
    -- an area behind `a` starts behind it
    have hbehind : ∀ b ∈ l, m.addr a < m.addr b := by
      intro b hb
      have h1 := ha b hb
      have h2 := hpos a List.mem_cons_self
      unfold stopOf at h1
      omega
    have hself : (∀ b ∈ a :: l, addr + size ≤ m.stopOf b → m.addr a ≤ m.addr b) := by
      rintro b (_ | ⟨_, hb⟩) -
      · exact le_rfl
      · exact (hbehind b hb).le
    by_cases hs : m.flags a = .mapped ∧ pagesize ≤ (m.area a).pagesize
    · rw [if_pos hs]
      by_cases hlast : addr + size ≤ m.stopOf a
      · refine ⟨true, checkLoop_end (by simp at hf; omega) (by omega) _, ?_⟩
        refine iff_of_true rfl (.inr ⟨⟨a, List.mem_cons_self, hlast⟩, ?_⟩)
        rintro c (_ | ⟨_, hc⟩) hreach
        · exact hs
        · have h1 := hreach a List.mem_cons_self hlast
          have h2 := hbehind c hc
          omega
      · have hnext : ∀ b ∈ l, m.stopOf a < m.stopOf b := by
          intro b hb
          have h1 := ha b hb
          have h2 := hpos b (List.mem_cons_of_mem _ hb)
          change m.stopOf a < m.addr b + m.size b
          omega
        have hf' : l.length < fuel := Nat.lt_of_succ_lt_succ hf
        obtain ⟨r, hr, hiff⟩ := ih hl hsorted (fun b hb => hpos b (List.mem_cons_of_mem _ hb))
          (fun b hb => hword b (List.mem_cons_of_mem _ hb)) hnext (by omega) hf' hlast
        refine ⟨r, hr, hiff.trans ?_⟩
        simp only [hend, hlast, false_or, List.mem_cons, exists_eq_or_imp, forall_eq_or_imp,
          false_imp_iff, true_and]
        exact and_congr_right fun _ => (and_iff_right fun _ => hs).symm
    · rw [if_neg hs]
      refine ⟨false, rfl, iff_of_false (by simp) ?_⟩
      rintro (h | ⟨-, h⟩)
      · exact hend h
      · exact hs (h a List.mem_cons_self hself)

/-! ## The whole function -/

theorem Ordered.areaEnd_eq (O : m.Ordered l) (ha : a ∈ l) : m.areaEnd a = m.stopOf a := by
  have h1 := O.high a ha
  have h2 := O.word
  exact Word.add_eq (show m.addr a + m.size a < 4294967296 by unfold stopOf at h1; omega)

theorem Ordered.length_le (O : m.Ordered l) : l.length ≤ m.live.length :=
  (O.nodup.subperm fun a ha => O.live a ha).length_le

/-- `__find_addr` returns the first area that ends behind the address. -/
theorem Ordered.findAddr (O : m.Ordered l) (addr : Nat) :
    (m.findAddr addr = .ok none ∧ ∀ a ∈ l, m.stopOf a ≤ addr) ∨
    ∃ l₁ a l₂, l = l₁ ++ a :: l₂ ∧ m.findAddr addr = .ok (some a) ∧ addr < m.stopOf a ∧
      ∀ b ∈ l₁, m.stopOf b ≤ addr := by
  unfold MemMap.findAddr
  split
  next hhigh => exact .inl ⟨rfl, fun a ha => (O.high a ha).trans hhigh⟩
  next hhigh =>
    have hlen : l.length < m.listFuel := Nat.lt_succ_of_le O.length_le
    rw [O.links.scan_eq hlen]
    cases hfind : l.find? fun mp => !decide (m.areaEnd mp ≤ addr) with
    | none =>
      refine .inl ⟨rfl, fun a ha => ?_⟩
      have := List.find?_eq_none.mp hfind a ha
      rw [← O.areaEnd_eq ha]
      simpa using this
    | some a =>
      obtain ⟨hstop, l₁, l₂, rfl, hall⟩ := List.find?_eq_some_iff_append.mp hfind
      refine .inr ⟨l₁, a, l₂, rfl, rfl, ?_, fun b hb => ?_⟩
      · rw [← O.areaEnd_eq (by simp)]
        simpa using hstop
      · rw [← O.areaEnd_eq (by simp [hb])]
        simpa using hall b hb

/-- The answer for an aligned range. -/
theorem Ordered.check_iff (O : m.Ordered l) (hps : 12 ≤ pagesize ∧ pagesize ≤ 31)
    (halign : 2 ^ pagesize ∣ addr ∧ 2 ^ pagesize ∣ size) :
    ∃ r, m.checkPagesize addr size pagesize = .ok r ∧
      (r = true ↔ size = 0 ∨ (∃ a ∈ l, addr + size ≤ m.stopOf a) ∧
        ∀ a ∈ l, m.Reached l addr size a → m.Serves pagesize a) := by
  have hpage : ¬(31 < pagesize ∨ pagesize < log2PageSize) := by
    have : log2PageSize = 12 := rfl
    omega
  have hdvd : ¬(addr % 2 ^ pagesize ≠ 0 ∨ size % 2 ^ pagesize ≠ 0) := by
    rintro (h | h)
    · exact h (Nat.mod_eq_zero_of_dvd halign.1)
    · exact h (Nat.mod_eq_zero_of_dvd halign.2)
  have hgot : addr - addr = 0 := Nat.sub_self _
  rw [checkPagesize, if_neg hpage, if_neg hdvd]
  obtain ⟨hfind, hlow⟩ | ⟨l₁, a, l₂, rfl, hfind, ha, hlow⟩ := O.findAddr addr
  · have hnil : IsSList m.next none [] := rfl
    have hfuel : ([] : List Ptr).length < m.listFuel := Nat.succ_pos _
    obtain ⟨r, hr, hiff⟩ := checkLoop_iff size pagesize hnil .nil (by simp) (by simp) (by simp)
      (le_refl addr) hfuel
    rw [hgot] at hr
    refine ⟨r, (congrArg (· >>= _) hfind).trans hr, hiff.trans ?_⟩
    constructor
    · rintro (h | ⟨⟨b, hb, -⟩, -⟩)
      · exact .inl (by omega)
      · cases hb
    · rintro (h | ⟨⟨b, hb, h⟩, -⟩)
      · exact .inl (by omega)
      · have := hlow b hb
        exact .inl (by omega)
  · have hsorted := (List.pairwise_append.mp O.sorted).2.1
    have hbehind : ∀ b ∈ a :: l₂, addr < m.stopOf b := by
      rintro b (_ | ⟨_, hb⟩)
      · exact ha
      · have := (List.pairwise_cons.mp hsorted).1 b hb
        have hle : m.addr b ≤ m.stopOf b := Nat.le_add_right _ _
        omega
    have hword : ∀ b ∈ a :: l₂, m.stopOf b < 4294967296 := fun b hb =>
      (O.high b (List.mem_append_right _ hb)).trans_lt O.word
    have hlen := O.length_le
    have hlinks : IsSList m.next (some a) (a :: l₂) := ⟨rfl, O.links.tail_at⟩
    have hfuel : (a :: l₂).length < m.listFuel := by
      simp only [List.length_append, List.length_cons] at hlen ⊢
      unfold listFuel
      omega
    obtain ⟨r, hr, hiff⟩ := checkLoop_iff size pagesize hlinks hsorted
      (fun b hb => O.size_pos b (List.mem_append_right _ hb)) hword hbehind le_rfl hfuel
    rw [hgot] at hr
    refine ⟨r, (congrArg (· >>= _) hfind).trans hr, hiff.trans ?_⟩
    by_cases hsize : size = 0
    · simp [hsize]
    -- the areas of `l₁` end before the range
    have hsuffix : ∀ b ∈ l₁ ++ a :: l₂, addr < m.stopOf b → b ∈ a :: l₂ := by
      intro b hb hlt
      refine (List.mem_append.mp hb).resolve_left fun hb => ?_
      have := hlow b hb
      omega
    have hmem : ∀ b ∈ a :: l₂, b ∈ l₁ ++ a :: l₂ := fun b hb => List.mem_append_right _ hb
    have hne : ¬addr + size ≤ addr := by omega
    simp only [hsize, hne, false_or]
    constructor
    · rintro ⟨⟨b, hb, hend⟩, hall⟩
      refine ⟨⟨b, hmem b hb, hend⟩, fun c hc hreach => ?_⟩
      exact hall c (hsuffix c hc hreach.1) fun d hd => hreach.2 d (hmem d hd)
    · rintro ⟨⟨b, hb, hend⟩, hall⟩
      refine ⟨⟨b, hsuffix b hb (by omega), hend⟩, fun c hc hreach => ?_⟩
      refine hall c (hmem c hc) ⟨hbehind c hc, fun d hd hd' => ?_⟩
      exact hreach d (hsuffix d hd (by omega)) hd'

/-! ## What the answer means -/

theorem Ordered.apart (O : m.Ordered l) (ha : a ∈ l) (hb : b ∈ l) :
    a = b ∨ m.stopOf a ≤ m.addr b ∨ m.stopOf b ≤ m.addr a := by
  obtain ⟨l₁, l₂, rfl⟩ := List.append_of_mem ha
  obtain ⟨-, hs, hcross⟩ := List.pairwise_append.mp O.sorted
  rcases List.mem_append.mp hb with hb | hb
  · exact .inr (.inr (hcross b hb a List.mem_cons_self))
  · obtain _ | ⟨_, hb⟩ := hb
    · exact .inl rfl
    · exact .inr (.inl ((List.pairwise_cons.mp hs).1 b hb))

/-- An address is in one area only. -/
theorem Ordered.unique (O : m.Ordered l) {x : Nat} (ha : a ∈ l) (hb : b ∈ l) (hxa : m.Has a x)
    (hxb : m.Has b x) : a = b := by
  have h1 := hxa.1
  have h2 := hxa.2
  have h3 := hxb.1
  have h4 := hxb.2
  exact (O.apart ha hb).resolve_right (by omega)

/-- Without a hole in the range the loop gets to just the areas that overlap it. -/
theorem Ordered.reached_iff (O : m.Ordered l) (hsize : 0 < size) (hcov : m.Covered l addr size)
    (ha : a ∈ l) : m.Reached l addr size a ↔ ∃ x, addr ≤ x ∧ x < addr + size ∧ m.Has a x := by
  constructor
  · intro ⟨hlt, hfirst⟩
    obtain ⟨b, hb, hb1, hb2⟩ := hcov (addr + size - 1) (by omega) (by omega)
    have := hfirst b hb (by omega)
    have := O.size_pos a ha
    have hstop : m.stopOf a = m.addr a + m.size a := rfl
    exact ⟨max addr (m.addr a), by omega, by omega, by omega, by omega⟩
  · intro ⟨x, hx1, hx2, hx⟩
    have h1 := hx.1
    have h2 := hx.2
    refine ⟨by omega, fun b hb hend => ?_⟩
    rcases O.apart ha hb with rfl | h | h
    · exact le_rfl
    · have hstop : m.stopOf a = m.addr a + m.size a := rfl
      omega
    · omega

/-- The answer is right for an aligned range exactly if no hole of the map is in it, or if the
function refuses it anyway. -/
theorem Ordered.check_mapped (O : m.Ordered l) (hps : 12 ≤ pagesize ∧ pagesize ≤ 31)
    (halign : 2 ^ pagesize ∣ addr ∧ 2 ^ pagesize ∣ size) :
    (m.checkPagesize addr size pagesize = .ok true ↔ m.Mapped l addr size pagesize) ↔
      m.Covered l addr size ∨ m.Refused l addr size pagesize := by
  obtain ⟨r, hr, hiff⟩ := O.check_iff hps halign
  have hcheck : m.checkPagesize addr size pagesize = .ok true ↔ size = 0 ∨
      (∃ a ∈ l, addr + size ≤ m.stopOf a) ∧
        ∀ a ∈ l, m.Reached l addr size a → m.Serves pagesize a := by
    rw [hr, ← hiff, Except.ok.injEq]
  by_cases hsize : size = 0
  · subst hsize
    refine iff_of_true (iff_of_true (hcheck.mpr (.inl rfl)) ⟨halign.1, halign.2, ?_⟩) (.inl ?_)
    · exact fun x h1 h2 => absurd h2 (by omega)
    · exact fun x h1 h2 => absurd h2 (by omega)
  have hpos : 0 < size := Nat.pos_of_ne_zero hsize
  have hrefused : ¬m.Refused l addr size pagesize ↔ m.checkPagesize addr size pagesize = .ok true := by
    simp only [hcheck, hsize, false_or, Refused, not_or, not_exists, not_and, not_forall, not_lt,
      not_not, exists_prop]
    exact and_comm
  by_cases hcov : m.Covered l addr size
  · refine iff_of_true ?_ (.inl hcov)
    have hend : ∃ a ∈ l, addr + size ≤ m.stopOf a := by
      obtain ⟨a, ha, -, h2⟩ := hcov (addr + size - 1) (by omega) (by omega)
      exact ⟨a, ha, by omega⟩
    rw [hcheck]
    simp only [hsize, hend, false_or, true_and]
    constructor
    · refine fun hall => ⟨halign.1, halign.2, fun x h1 h2 => ?_⟩
      obtain ⟨a, ha, hx⟩ := hcov x h1 h2
      exact ⟨a, ha, hall a ha ((O.reached_iff hpos hcov ha).mpr ⟨x, h1, h2, hx⟩), hx⟩
    · intro hm a ha hreach
      obtain ⟨x, h1, h2, hx⟩ := (O.reached_iff hpos hcov ha).mp hreach
      obtain ⟨b, hb, hserves, hxb⟩ := hm.2.2 x h1 h2
      exact O.unique ha hb hx hxb ▸ hserves
  · have hnot : ¬m.Mapped l addr size pagesize := by
      refine fun hm => hcov fun x h1 h2 => ?_
      obtain ⟨a, ha, -, hx⟩ := hm.2.2 x h1 h2
      exact ⟨a, ha, hx⟩
    rw [or_iff_right hcov, ← hrefused, iff_false_right hnot, not_not]

/-- The answer is right exactly if the range is not aligned, no hole of the map is in it, or the
function refuses it anyway. -/
theorem check_pagesize_truthful_iff (O : m.Ordered l) (hps : 12 ≤ pagesize ∧ pagesize ≤ 31) :
    (m.checkPagesize addr size pagesize = .ok true ↔ m.Mapped l addr size pagesize) ↔
      ¬(2 ^ pagesize ∣ addr ∧ 2 ^ pagesize ∣ size) ∨ m.Covered l addr size ∨
        m.Refused l addr size pagesize := by
  by_cases halign : 2 ^ pagesize ∣ addr ∧ 2 ^ pagesize ∣ size
  · rw [O.check_mapped hps halign]
    tauto
  · refine iff_of_true (iff_of_false ?_ fun h => halign ⟨h.1, h.2.1⟩) (.inl halign)
    have hpage : ¬(31 < pagesize ∨ pagesize < log2PageSize) := by
      have : log2PageSize = 12 := rfl
      omega
    have hmod : addr % 2 ^ pagesize ≠ 0 ∨ size % 2 ^ pagesize ≠ 0 := by
      by_contra h
      simp only [not_or, not_not] at h
      exact halign ⟨Nat.dvd_of_mod_eq_zero h.1, Nat.dvd_of_mod_eq_zero h.2⟩
    rw [checkPagesize, if_neg hpage, if_pos hmod]
    simp [pure, Except.pure]

/-- Two superpages that are mapped, with a hole of the same size between them. -/
def holeMap : MemMap where
  area p := if p = 1 then ⟨0x400000, 0x400000, 22, 0, .mapped⟩ else ⟨0xc00000, 0x400000, 22, 0, .mapped⟩
  prev p := if p = 2 then some 1 else none
  next p := if p = 1 then some 2 else none
  live := [1, 2]
  pick live := live.sum + 1
  pick_not_mem := sum_succ_not_mem
  mem := some 1
  physMemLow := 0
  physMemHigh := 0x1000000
  memLow := 0
  memHigh := 0x1000000

theorem holeMap_ordered : holeMap.Ordered [1, 2] where
  links := ⟨rfl, rfl, rfl⟩
  nodup := by decide
  live := by decide
  sorted := by decide
  size_pos := by decide
  high := by decide
  word := by decide

/-- The first superpage alone. -/
theorem check_pagesize_truthful_iff_first :
    holeMap.checkPagesize 0x400000 0x400000 22 = .ok true ↔
      holeMap.Mapped [1, 2] 0x400000 0x400000 22 := by
  refine (check_pagesize_truthful_iff holeMap_ordered (by decide)).mpr (.inr (.inl fun x h1 h2 => ?_))
  exact ⟨1, by decide, h1, h2⟩

/-- Two superpages from the first one on: the second one is the hole. -/
theorem check_pagesize_hole :
    holeMap.Ordered [1, 2] ∧ holeMap.checkPagesize 0x400000 0x800000 22 = .ok true ∧
      ¬holeMap.Mapped [1, 2] 0x400000 0x800000 22 := by
  refine ⟨holeMap_ordered, by decide +kernel, fun h => ?_⟩
  obtain ⟨a, ha, -, h1, h2⟩ := h.2.2 0x800000 (by decide) (by decide)
  have hlo : holeMap.addr 2 = 0xc00000 := rfl
  have hhi : holeMap.stopOf 1 = 0x800000 := rfl
  obtain rfl | rfl : a = 1 ∨ a = 2 := by simpa using ha
  · omega
  · omega

end MemMap

end L4env.DMphys
