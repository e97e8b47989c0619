import L4env.Roottask.MemmapInv

/-!
# Runs of the memory map

Every call that meets its condition keeps the two levels of the map in agreement and moves pages
only between the caller and the free memory. The conditions leave out the calls that make the
levels disagree: a page allocation that the quota refuses although the whole superpage is free, the
release of a superpage that was put together from single pages, and `memmap_set_page` on a page that
has an owner.
-/

namespace L4env.Roottask

namespace Memmap

variable {m m' : Memmap} {i p a n : Nat} {o : Owner} {pages : Nat → Owner} {supers : Nat → Superpage}

/-- Pages that are neither free nor owned by `o` keep their owner. -/
def Moves (o : Owner) (m m' : Memmap) : Prop :=
  ∀ p, m.own p ≠ O_FREE → m.own p ≠ o → m'.own p = m.own p

/-- What a call of the owner `o` may do. -/
structure Fine (n : Nat) (o : Owner) (m m' : Memmap) : Prop where
  inv : Inv n m'
  moves : Moves o m m'
  memHigh : m'.memHigh = m.memHigh

theorem own_congr (hs : m'.supers (p / 1024) = m.supers (p / 1024)) (hp : m'.pages p = m.pages p) :
    m'.own p = m.own p := by
  simp only [own, hs, hp]

theorem Inv.fine_refl (h : Inv n m) : Fine n o m m := ⟨h, fun _ _ _ => rfl, rfl⟩

/-- Calls that change neither level. -/
theorem Inv.same (h : Inv n m) (hw : Wrote m m' m.pages m.supers) : Fine n o m m' where
  inv := {
    aligned := by rw [hw.memHigh]; exact h.aligned
    covers := by rw [hw.memHigh]; exact h.covers
    agree := fun i hi hn =>
      (h.agree i hi hn).congr (congrFun hw.supers i) fun p _ => congrFun hw.pages p
    high := by rw [hw.memHigh, hw.pages]; exact h.high }
  moves := fun p _ _ => own_congr (congrFun hw.supers _) (congrFun hw.pages p)
  memHigh := hw.memHigh

/-- Calls that write the entries of one superpage and of its pages. -/
theorem Inv.edit (h : Inv n m) (hw : Wrote m m' pages (Function.update m.supers i s))
    (hpages : ∀ p, p / 1024 ≠ i → pages p = m.pages p) (hagree : m'.Agree i)
    (hhigh : ∀ p, p / 1024 = i → m.memHigh ≤ p * 4096 → pages p = m.pages p)
    (hmoves : ∀ p, p / 1024 = i → m.own p ≠ O_FREE → m.own p ≠ o → m'.own p = m.own p) :
    Fine n o m m' where
  inv := {
    aligned := by rw [hw.memHigh]; exact h.aligned
    covers := by rw [hw.memHigh]; exact h.covers
    agree := by
      intro j hj hn
      by_cases hji : j = i
      · exact hji ▸ hagree
      · refine (h.agree j hj hn).congr ?_ fun p hp => ?_
        · rw [hw.supers, Function.update_of_ne hji]
        · rw [hw.pages, hpages p (by rw [mem_pagesOf.mp hp]; exact hji)]
    high := by
      intro p hp
      rw [hw.memHigh] at hp
      rw [hw.pages]
      by_cases hpi : p / 1024 = i
      · rw [hhigh p hpi hp, h.high p hp]
      · rw [hpages p hpi, h.high p hp] }
  moves := by
    intro p hf ho
    by_cases hpi : p / 1024 = i
    · exact hmoves p hpi hf ho
    · refine own_congr ?_ ?_
      · rw [hw.supers, Function.update_of_ne hpi]
      · rw [hw.pages, hpages p hpi]
  memHigh := hw.memHigh

theorem decr_eq (h : 1 ≤ a) (h' : a ≤ 1024) : decr a = a - 1 := by
  unfold decr
  omega

theorem incr_eq (h : a ≤ 1024) : incr a = a + 1 := by
  unfold incr
  omega

theorem page_div (a : Nat) : a / 4096 / 1024 = a / 0x400000 := by
  rw [Nat.div_div_eq_div_mul]

theorem own_of_free (h : m.Agree i) (hi : p / 1024 = i)
    (hs : (m.supers i).owner = O_FREE ∨ (m.supers i).owner = O_RESERVED) : m.own p = m.pages p := by
  obtain hs | hs := hs
  · rw [own, hi, if_neg (by rw [hs]; exact free_ne_reserved), hs,
      h.free hs p (mem_pagesOf.mpr hi)]
  · rw [own, hi, if_pos hs]

theorem own_of_reserved (hi : p / 1024 = i) (hs : (m.supers i).owner = O_RESERVED) :
    m.own p = m.pages p := by
  rw [own, hi, if_pos hs]

theorem own_of_owner (hi : p / 1024 = i) (hs : (m.supers i).owner = o) (ho : o ≠ O_RESERVED) :
    m.own p = o := by
  rw [own, hi, if_neg (by rw [hs]; exact ho), hs]

/-- A free page becomes owned, in a superpage that is free or of which some pages are free. -/
theorem Inv.take (h : Inv n m) (ha : a < m.memHigh) (hi : a / 0x400000 < 1024)
    (hfree : m.pages (a / 4096) = O_FREE) (ho : o ≠ O_FREE)
    (hs : (m.supers (a / 0x400000)).owner = O_FREE ∨ (m.supers (a / 0x400000)).owner = O_RESERVED)
    {w : Owner} (hwhole : w = O_RESERVED ∨ w = o ∧
      ∀ p ∈ pagesOf (a / 0x400000), Function.update m.pages (a / 4096) o p = o)
    (hw : Wrote m m' (Function.update m.pages (a / 4096) o)
      (Function.update m.supers (a / 0x400000)
        ⟨decr (m.supers (a / 0x400000)).freePages, w⟩)) :
    Fine n o m m' ∧ m'.own (a / 4096) = o := by
  have hn := h.covers _ hi (by omega)
  have hagree := h.agree _ hi hn
  have hsuper : m'.supers (a / 0x400000) = ⟨decr (m.supers (a / 0x400000)).freePages, w⟩ := by
    rw [hw.supers, Function.update_self]
  have hmem : a / 4096 ∈ m.freeSet (a / 0x400000) := mem_freeSet.mpr ⟨page_div a, hfree⟩
  have hset := freeSet_erase hfree ho hw.pages (page_div a)
  have hcard : (m'.freeSet (a / 0x400000)).card + 1 = (m.freeSet (a / 0x400000)).card := by
    rw [hset]
    exact Finset.card_erase_add_one hmem
  have hle := freeSet_card_le (m := m) (i := a / 0x400000)
  have hcount : (m'.supers (a / 0x400000)).freePages = (m'.freeSet (a / 0x400000)).card := by
    rw [hsuper]
    show decr (m.supers (a / 0x400000)).freePages = _
    rw [hagree.count hs, decr_eq (by omega) hle]
    omega
  have hagree' : m'.Agree (a / 0x400000) := by
    obtain rfl | ⟨rfl, hall⟩ := hwhole
    · refine .of_count hcount ?_
      rw [if_neg (by omega), hsuper]
    · by_cases hres : w = O_RESERVED
      · refine .of_count hcount ?_
        rw [if_neg (by omega), hsuper, hres]
      · have howner : (m'.supers (a / 0x400000)).owner = w := by rw [hsuper]
        refine ⟨fun e => absurd (howner.symm.trans e) ho, fun e => absurd (howner.symm.trans e) hres,
          fun e => ?_, fun _ _ q hq => .inr ?_⟩
        · obtain e | e := e
          · exact absurd (howner.symm.trans e) ho
          · exact absurd (howner.symm.trans e) hres
        · rw [hw.pages, hall q hq, howner]
  have hown : ∀ q, q / 1024 = a / 0x400000 → m'.own q = Function.update m.pages (a / 4096) o q := by
    intro q hq
    rw [own, hq, hsuper, hw.pages]
    split
    · rfl
    · rename_i hne
      obtain rfl | ⟨rfl, hall⟩ := hwhole
      · exact absurd rfl hne
      · exact (hall q (mem_pagesOf.mpr hq)).symm
  refine ⟨h.edit hw ?_ hagree' ?_ ?_, ?_⟩
  · intro q hq
    refine Function.update_of_ne ?_ _ _
    rintro rfl
    exact hq (page_div a)
  · intro q _ hlt
    refine Function.update_of_ne ?_ _ _
    rintro rfl
    omega
  · intro q hq hfree' _
    rw [own_of_free hagree hq hs] at hfree' ⊢
    rw [hown q hq, Function.update_of_ne]
    rintro rfl
    exact hfree' hfree
  · rw [hown _ (page_div a), Function.update_self]

/-- An owned page becomes free. -/
theorem Inv.release (h : Inv n m) (ha : a < m.memHigh) (hi : a / 0x400000 < 1024)
    (hp : m.pages (a / 4096) = o) (ho : o ≠ O_FREE)
    (hs : (m.supers (a / 0x400000)).owner = O_RESERVED)
    (hw : Wrote m m' (Function.update m.pages (a / 4096) O_FREE)
      (Function.update m.supers (a / 0x400000) ⟨incr (m.supers (a / 0x400000)).freePages,
        if incr (m.supers (a / 0x400000)).freePages = 1024 then O_FREE else O_RESERVED⟩)) :
    Fine n o m m' := by
  have hagree := h.agree _ hi (h.covers _ hi (by omega))
  have hsuper := congrFun hw.supers (a / 0x400000)
  rw [Function.update_self] at hsuper
  have hnot : a / 4096 ∉ m.freeSet (a / 0x400000) := by
    rw [mem_freeSet, hp]
    exact fun e => ho e.2
  have hset := freeSet_insert hw.pages (page_div a)
  have hcard : (m'.freeSet (a / 0x400000)).card = (m.freeSet (a / 0x400000)).card + 1 := by
    rw [hset]
    exact Finset.card_insert_of_notMem hnot
  have hle := freeSet_card_le (m := m) (i := a / 0x400000)
  rw [hagree.count (.inr hs), incr_eq hle, ← hcard] at hsuper
  have hagree' : m'.Agree (a / 0x400000) := .of_count (by rw [hsuper]) (by rw [hsuper])
  have hs' : (m'.supers (a / 0x400000)).owner = O_FREE ∨
      (m'.supers (a / 0x400000)).owner = O_RESERVED := by
    rw [hsuper]
    dsimp only
    split
    · exact .inl rfl
    · exact .inr rfl
  refine h.edit hw ?_ hagree' ?_ ?_
  · intro q hq
    refine Function.update_of_ne ?_ _ _
    rintro rfl
    exact hq (page_div a)
  · intro q _ hlt
    refine Function.update_of_ne ?_ _ _
    rintro rfl
    omega
  · intro q hq _ hne
    rw [own_of_reserved hq hs] at hne ⊢
    rw [own_of_free hagree' hq hs', hw.pages, Function.update_of_ne]
    rintro rfl
    exact hne hp

/-- The entry of a superpage that is owned as a whole, with pages that are free or were the owner's. -/
theorem Inv.whole (h : Inv n m)
    (ho : o ≠ O_FREE ∧ o ≠ O_RESERVED)
    (hpages : ∀ p, p / 1024 = a / 0x400000 → m.own p = O_FREE ∨ m.own p = o)
    (hbelow : (a / 0x400000 + 1) * 0x400000 ≤ m.memHigh)
    (hw : Wrote m m' pages (Function.update m.supers (a / 0x400000) ⟨k, o⟩))
    (hold : ∀ p, p / 1024 ≠ a / 0x400000 → pages p = m.pages p)
    (hnew : ∀ p, p / 1024 = a / 0x400000 → pages p = O_FREE) :
    Fine n o m m' ∧ ∀ p, p / 1024 = a / 0x400000 → m'.own p = o := by
  have hsuper : (m'.supers (a / 0x400000)).owner = o := by
    rw [hw.supers, Function.update_self]
  have hown : ∀ p, p / 1024 = a / 0x400000 → m'.own p = o := fun p hp =>
    own_of_owner hp hsuper ho.2
  refine ⟨h.edit hw hold ?_ ?_ ?_, hown⟩
  · refine ⟨fun e => absurd (hsuper.symm.trans e) ho.1, fun e => absurd (hsuper.symm.trans e) ho.2,
      fun e => ?_, fun _ _ p hp => .inl ?_⟩
    · obtain e | e := e
      · exact absurd (hsuper.symm.trans e) ho.1
      · exact absurd (hsuper.symm.trans e) ho.2
    · rw [hw.pages, hnew p (mem_pagesOf.mp hp)]
  · intro p hp hlt
    omega
  · intro p hp hf hne
    obtain e | e := hpages p hp
    · exact absurd e hf
    · exact absurd e hne

/-! ## Calls -/

/-- The functions that change the map. The owner is a task, or a mark where the boot code uses one. -/
inductive Op
  | setRange (start stop : Nat) (o : Owner)
  | setPage (addr : Nat) (o : Owner)
  | freePage (addr : Nat) (o : Owner)
  | allocPage (addr : Nat) (o : Owner)
  | freeSuperpage (addr : Nat) (o : Owner)
  | allocSuperpage (addr : Nat) (o : Owner)

def Op.owner : Op → Owner
  | .setRange _ _ o => o
  | .setPage _ o => o
  | .freePage _ o => o
  | .allocPage _ o => o
  | .freeSuperpage _ o => o
  | .allocSuperpage _ o => o

def step (m : Memmap) : Op → Bool × Memmap
  | .setRange start stop o => (true, m.memmapSetRange start stop o)
  | .setPage addr o => m.memmapSetPage addr o
  | .freePage addr o => m.memmapFreePage addr o
  | .allocPage addr o => m.memmapAllocPage addr o
  | .freeSuperpage addr o => m.memmapFreeSuperpage addr o
  | .allocSuperpage addr o => m.memmapAllocSuperpage addr o

/-- The condition under which a call keeps the levels in agreement. -/
def Op.Proper (m : Memmap) : Op → Prop
  | .setRange start stop o => (m.memmapSetRange start stop o).pages = m.pages
  | .setPage addr o => o ≠ O_FREE ∧ (m.pages (addr / L4_PAGESIZE) = O_FREE ∨
      m.pages (addr / L4_PAGESIZE) = o ∨ m.memHigh ≤ addr ∨
      m.memmapOwnerSuperpage addr ≠ O_FREE ∧ m.memmapOwnerSuperpage addr ≠ O_RESERVED)
  | .freePage _ _ => True
  | .allocPage addr o => o ≠ O_FREE ∧ o ≠ O_RESERVED ∧
      (addr < m.memHigh → m.memmapOwnerSuperpage addr = O_FREE → O_USER ≤ o →
        m.quotaCheckMem o addr L4_PAGESIZE = true)
  | .freeSuperpage addr o => o ≠ O_FREE ∧ o ≠ O_RESERVED ∧
      (m.memmapOwnerSuperpage addr = o → ∀ p ∈ pagesOf (addr / L4_SUPERPAGESIZE), m.pages p = O_FREE)
  | .allocSuperpage addr o => o ≠ O_FREE ∧ o ≠ O_RESERVED ∧
      (addr - addr % L4_SUPERPAGESIZE < m.memHigh ∨
        (m.memmapOwnerSuperpage addr ≠ O_FREE ∧ m.memmapOwnerSuperpage addr ≠ o))

theorem ownerSuperpage_eq (hi : a / 0x400000 < 1024) :
    m.memmapOwnerSuperpage a = (m.supers (a / 0x400000)).owner := by
  unfold memmapOwnerSuperpage
  exact if_neg (Nat.not_le.mpr hi)

theorem ownerPage_eq (ha : a < m.memHigh) (hi : a / 0x400000 < 1024) :
    m.memmapOwnerPage a = m.own (a / 4096) := by
  unfold memmapOwnerPage
  dsimp only [L4_PAGESIZE, L4_SUPERPAGESIZE, SUPERPAGE_MAX]
  rw [if_neg (Nat.not_le.mpr hi), if_neg (Nat.not_le.mpr ha), own, page_div]

theorem ownerPage_high (h : 1024 ≤ a / 0x400000 ∨ m.memHigh ≤ a) :
    m.memmapOwnerPage a = O_RESERVED := by
  unfold memmapOwnerPage
  dsimp only [L4_PAGESIZE, L4_SUPERPAGESIZE, SUPERPAGE_MAX]
  split
  · rfl
  · rename_i hi
    rw [if_pos (h.resolve_left hi)]

theorem Inv.memmapSetPage (h : Inv n m) (hp : (Op.setPage a o).Proper m) :
    Fine n o m (m.memmapSetPage a o).2 := by
  obtain ⟨b, e⟩ | ⟨ha, hi, hne, hs, m', e, hw⟩ := memmapSetPage_cases m a o
  · rw [e]
    exact h.fine_refl
  · obtain ⟨ho, hfree⟩ := hp
    have hfree : m.pages (a / 4096) = O_FREE := by
      rw [ownerSuperpage_eq hi] at hfree
      obtain hfree | hsame | hhigh | ⟨h₁, h₂⟩ := hfree
      · exact hfree
      · exact absurd hsame hne
      · exact absurd hhigh (Nat.not_le.mpr ha)
      · obtain hs | hs := hs
        · exact absurd hs h₁
        · exact absurd hs h₂
    rw [e]
    exact (h.take ha hi hfree ho hs (.inl rfl) hw).1

theorem Inv.memmapFreePage (h : Inv n m) : Fine n o m (m.memmapFreePage a o).2 := by
  obtain ⟨b, e⟩ | ⟨ha, hi, hp, ho, hs, m', e, hw⟩ := memmapFreePage_cases m a o
  · rw [e]
    exact h.fine_refl
  · rw [e]
    exact h.release ha hi hp ho hs hw

/-- `memmap_alloc_page` gives the page to the caller if it returns 1. -/
theorem Inv.memmapAllocPage (h : Inv n m) (hp : (Op.allocPage a o).Proper m) :
    Fine n o m (m.memmapAllocPage a o).2 ∧ ((m.memmapAllocPage a o).1 = true →
      a < m.memHigh ∧ a / 0x400000 < 1024 ∧ (m.memmapAllocPage a o).2.own (a / 4096) = o) := by
  obtain ⟨ho, hres, hquota⟩ := hp
  obtain ⟨b, e, htrue, -⟩ | ⟨ha, hi, hfree, -, hs, hcases⟩ := memmapAllocPage_cases m a o
  · rw [e]
    refine ⟨h.fine_refl, fun hb => ?_⟩
    obtain ⟨ha, hi, hown⟩ := htrue hb
    refine ⟨ha, hi, ?_⟩
    have hagree := h.agree _ hi (h.covers _ hi (by omega))
    by_cases hw : (m.supers (a / 0x400000)).owner = o
    · exact own_of_owner (page_div a) hw hres
    · have hpage := hown.resolve_right hw
      by_cases hr : (m.supers (a / 0x400000)).owner = O_RESERVED
      · rw [own_of_reserved (page_div a) hr, hpage]
      · by_cases hf : (m.supers (a / 0x400000)).owner = O_FREE
        · have := hagree.free hf _ (mem_pagesOf.mpr (page_div a))
          exact absurd (hpage.symm.trans this) ho
        · obtain e | e := hagree.exclusive hf hr _ (mem_pagesOf.mpr (page_div a))
          · exact absurd (hpage.symm.trans e) ho
          · exact absurd (e.symm.trans hpage) hw
  · obtain ⟨hu, hrefuse, m', e, hw⟩ | ⟨-, m', w, e, hwhole, hw⟩ := hcases
    · -- the quota is asked only after the superpage has been marked
      have hs : (m.supers (a / 0x400000)).owner = O_RESERVED := by
        refine hs.resolve_left fun hf => ?_
        have := hquota ha ((ownerSuperpage_eq hi).trans hf) hu
        rw [hrefuse] at this
        cases this
      rw [e]
      refine ⟨h.same ⟨hw.pages, ?_, hw.memHigh⟩, nofun⟩
      rw [hw.supers, Function.update_eq_self_iff, ← hs]
    · rw [e]
      have htake := h.take ha hi hfree ho hs hwhole hw
      exact ⟨htake.1, fun _ => ⟨ha, hi, htake.2⟩⟩

theorem Inv.memmapFreeSuperpage (h : Inv n m)
    (hp : (Op.freeSuperpage a o).Proper m) : Fine n o m (m.memmapFreeSuperpage a o).2 := by
  obtain ⟨ho, hres, hpages⟩ := hp
  obtain ⟨b, e⟩ | ⟨hi, hs, -, m', e, hw⟩ := memmapFreeSuperpage_cases m a o
  · rw [e]
    exact h.fine_refl
  · rw [e]
    have hfree := hpages ((ownerSuperpage_eq hi).trans hs)
    have hsuper : m'.supers (a / 0x400000) = ⟨1024, O_FREE⟩ := by
      rw [hw.supers, Function.update_self]
    have hcard : (m'.freeSet (a / 0x400000)).card = 1024 := by
      refine freeSet_card_eq.mpr fun p hp => ?_
      rw [hw.pages]
      exact hfree p hp
    refine h.edit hw (fun _ _ => rfl) (.of_count ?_ ?_) (fun _ _ _ => rfl) ?_
    · rw [hsuper, hcard]
    · rw [if_pos hcard, hsuper]
    · intro p hp _ hne
      exact absurd (own_of_owner hp hs hres) hne

/-- `memmap_alloc_superpage` gives all pages of the superpage to the caller if it returns 1. -/
theorem Inv.memmapAllocSuperpage (h : Inv n m) (hp : (Op.allocSuperpage a o).Proper m) :
    Fine n o m (m.memmapAllocSuperpage a o).2 ∧ ((m.memmapAllocSuperpage a o).1 = true →
      a / 0x400000 < 1024 ∧ (a / 0x400000 + 1) * 0x400000 ≤ m.memHigh ∧
      ∀ p, p / 1024 = a / 0x400000 → (m.memmapAllocSuperpage a o).2.own p = o) := by
  obtain ⟨ho, hres, hlow⟩ := hp
  have hlow : a / 0x400000 < 1024 → (m.supers (a / 0x400000)).owner = O_FREE ∨
      (m.supers (a / 0x400000)).owner = o → a / 0x400000 * 0x400000 < m.memHigh := by
    intro hi hs
    rw [ownerSuperpage_eq hi] at hlow
    obtain hlow | ⟨h₁, h₂⟩ := hlow
    · have hlow : a - a % 0x400000 < m.memHigh := hlow
      omega
    · obtain hs | hs := hs
      · exact absurd hs h₁
      · exact absurd hs h₂
  obtain ⟨b, m', e, hw, htrue⟩ | ⟨hi, m', e, hcases⟩ := memmapAllocSuperpage_cases m a o
  · rw [e]
    refine ⟨h.same hw, fun hb => ?_⟩
    obtain ⟨hi, hs⟩ := htrue hb
    have hn := h.covers _ hi (hlow hi (.inr hs))
    refine ⟨hi, h.below hi hn (by rw [hs]; exact hres), fun p hp => ?_⟩
    exact own_of_owner hp (by rw [hw.supers, hs]) hres
  · rw [e]
    obtain ⟨hs, -, hw⟩ | ⟨hs, hmap, hexcl, hw⟩ := hcases
    · have hn := h.covers _ hi (hlow hi (.inl hs))
      have hagree := h.agree _ hi hn
      have hbelow := h.below hi hn (by rw [hs]; exact free_ne_reserved)
      have hwhole := h.whole ⟨ho, hres⟩ (fun p hp => .inl ?_) hbelow hw (fun _ _ => rfl)
        fun p hp => hagree.free hs p (mem_pagesOf.mpr hp)
      · exact ⟨hwhole.1, fun _ => ⟨hi, hbelow, hwhole.2⟩⟩
      · rw [own_of_free hagree hp (.inl hs)]
        exact hagree.free hs p (mem_pagesOf.mpr hp)
    · have hn := h.covers _ hi (by omega)
      have hbelow : (a / 0x400000 + 1) * 0x400000 ≤ m.memHigh := by
        by_contra hlt
        obtain ⟨k, hk⟩ := h.aligned
        have hlast := h.high (a / 0x400000 * 1024 + 1023) (by omega)
        obtain e | e := hexcl (a / 0x400000 * 1024 + 1023) (mem_pagesOf.mpr (by omega))
        · exact free_ne_reserved (e.symm.trans hlast)
        · exact hres (e.symm.trans hlast)
      have hwhole := h.whole ⟨ho, hres⟩ (fun p hp => ?_) hbelow hw
        (fun p hp => if_neg hp) fun p hp => if_pos hp
      · exact ⟨hwhole.1, fun _ => ⟨hi, hbelow, hwhole.2⟩⟩
      · rw [own_of_reserved hp hs]
        exact hexcl p (mem_pagesOf.mpr hp)

/-! ## Boot and runs -/

/-- The calls of the boot code while it fetches the memory and reserves its own. -/
def Op.boot : Op → Prop
  | .freePage _ o => o = O_RESERVED
  | .setPage _ o => o = O_RESERVED ∨ o = O_DEBUG
  | _ => False

/-- The states of the boot code up to `free_high_ram`. The map grows with the memory it receives. -/
inductive Booting : Memmap → Prop
  | init {m : Memmap} : 4096 ∣ m.memHigh → Booting m.memmapInit
  | grow {m : Memmap} {h : Nat} : Booting m → m.memHigh ≤ h → 4096 ∣ h →
    Booting { m with memHigh := h }
  | call {m : Memmap} {op : Op} : Booting m → op.boot → op.Proper m → Booting (m.step op).2

/-- The states that any sequence of calls leads to, if each of them meets its condition. -/
inductive Reachable : Memmap → Prop
  | boot {m : Memmap} : Booting m → Reachable m.freeHighRam
  | step {m : Memmap} {op : Op} : Reachable m → op.Proper m → Reachable (m.step op).2

theorem Inv.step {op : Op} (h : Inv n m) (hp : op.Proper m) : Fine n op.owner m (m.step op).2 := by
  cases op with
  | setRange start stop o => exact h.same ⟨hp, rfl, rfl⟩
  | setPage addr o => exact h.memmapSetPage hp
  | freePage addr o => exact h.memmapFreePage
  | allocPage addr o => exact (h.memmapAllocPage hp).1
  | freeSuperpage addr o => exact h.memmapFreeSuperpage hp
  | allocSuperpage addr o => exact (h.memmapAllocSuperpage hp).1

theorem Booting.inv (h : Booting m) : Inv (2 ^ 32) m := by
  induction h with
  | @init m hal =>
    refine ⟨hal, fun i hi _ => by omega, fun i _ _ => ?_, fun _ _ => rfl⟩
    have hempty : m.memmapInit.freeSet i = ∅ := by
      ext p
      simp [mem_freeSet, memmapInit, free_ne_reserved.symm]
    refine .of_count ?_ ?_
    · rw [hempty]
      rfl
    · rw [hempty]
      rfl
  | @grow m h hb hle hal ih =>
    refine ⟨hal, fun i hi _ => by omega, fun i hi hn => ?_, fun p hp => ih.high p (hle.trans hp)⟩
    exact (ih.agree i hi hn).congr rfl fun _ _ => rfl
  | call hb _ hp ih => exact (ih.step hp).inv

/-- The superpages behind the map become free, the rest stays as it is. -/
theorem freeHigh_foldl (l : List Nat) {first : Nat} (hl : ∀ i ∈ l, first ≤ i) (m : Memmap) :
    let m' := l.foldl
      (fun m i => (m.memmapFreeSuperpage (i * L4_SUPERPAGESIZE) O_RESERVED).2) m
    m'.pages = m.pages ∧ m'.memHigh = m.memHigh ∧ ∀ i < first, m'.supers i = m.supers i := by
  induction l generalizing m with
  | nil => exact ⟨rfl, rfl, fun _ _ => rfl⟩
  | cons j l ih =>
    obtain ⟨hp, hm, hs⟩ := ih (fun i hi => hl i (List.mem_cons_of_mem _ hi))
      (m.memmapFreeSuperpage (j * L4_SUPERPAGESIZE) O_RESERVED).2
    have hj := hl j List.mem_cons_self
    obtain ⟨b, e⟩ | ⟨-, -, -, m', e, hw⟩ :=
      memmapFreeSuperpage_cases m (j * L4_SUPERPAGESIZE) O_RESERVED
    · rw [e] at hp hm hs
      rw [List.foldl_cons, e]
      exact ⟨hp, hm, hs⟩
    · rw [e] at hp hm hs
      rw [List.foldl_cons, e]
      refine ⟨hp.trans hw.pages, hm.trans hw.memHigh, fun i hi => (hs i hi).trans ?_⟩
      have hdiv : j * L4_SUPERPAGESIZE / 0x400000 = j := Nat.mul_div_cancel _ (by decide)
      rw [hw.supers, hdiv, Function.update_of_ne]
      omega

/-- `free_high_ram` touches neither the map of the pages nor the superpages that begin below its
end. -/
theorem freeHighRam_spec (m : Memmap) : m.freeHighRam.pages = m.pages ∧
    m.freeHighRam.memHigh = m.memHigh ∧
    ∀ i, i * L4_SUPERPAGESIZE < m.memHigh → m.freeHighRam.supers i = m.supers i := by
  have hloop : m.freeHighRam = (List.range' m.firstHigh (SUPERPAGE_MAX - m.firstHigh)).foldl
    (fun m i => (m.memmapFreeSuperpage (i * L4_SUPERPAGESIZE) O_RESERVED).2) m := rfl
  obtain ⟨hp, hm, hs⟩ := freeHigh_foldl (List.range' m.firstHigh (SUPERPAGE_MAX - m.firstHigh))
    (fun i hi => (List.mem_range'_1.mp hi).1) m
  rw [← hloop] at hp hm hs
  refine ⟨hp, hm, fun i hi => hs i ?_⟩
  unfold firstHigh
  rw [Nat.lt_div_iff_mul_lt (by decide), Nat.add_sub_cancel]
  exact hi

theorem Inv.freeHighRam (h : Inv (2 ^ 32) m) : Inv m.freeHighRam.memHigh m.freeHighRam := by
  obtain ⟨hp, hm, hs⟩ := freeHighRam_spec m
  rw [hm]
  refine ⟨hm ▸ h.aligned, fun i _ hi => hm ▸ hi, fun i hi hn => ?_, fun p hlt => ?_⟩
  · exact (h.agree i hi (by omega)).congr (hs i hn) fun p _ => congrFun hp p
  · rw [hm] at hlt
    rw [hp]
    exact h.high p hlt

theorem Reachable.inv (h : Reachable m) : Inv m.memHigh m := by
  induction h with
  | boot hb => exact hb.inv.freeHighRam
  | step _ hp ih =>
    have hfine := ih.step hp
    rw [hfine.memHigh]
    exact hfine.inv

/-- The entry of the superpage `i` says what the entries of its pages say. -/
structure Levels (m : Memmap) (i : Nat) : Prop where
  free : (m.supers i).owner = O_FREE ↔ ∀ a, a / L4_SUPERPAGESIZE = i → m.memmapOwnerPage a = O_FREE
  freePages : (m.supers i).owner = O_FREE ∨ (m.supers i).owner = O_RESERVED →
    (m.supers i).freePages = ((pagesOf i).filter fun p => m.pages p = O_FREE).card
  exclusive : (m.supers i).owner ≠ O_RESERVED →
    ∀ p ∈ pagesOf i, m.pages p = O_FREE ∨ m.pages p = (m.supers i).owner

theorem Inv.levels (h : Inv n m) (hi : i < 1024) (hm : i * 0x400000 < m.memHigh) : Levels m i := by
  have hn := h.covers i hi hm
  have hagree := h.agree i hi hn
  refine ⟨?_, hagree.count, fun hr p hp => ?_⟩
  · constructor
    · intro hs a ha
      have hbelow := h.below hi hn (by rw [hs]; exact free_ne_reserved)
      have ha : a / 0x400000 = i := ha
      rw [ownerPage_eq (by omega) (by omega), own_of_free hagree (by rw [page_div, ha]) (.inl hs)]
      exact hagree.free hs _ (mem_pagesOf.mpr (by rw [page_div, ha]))
    · intro hall
      have hown : ∀ p ∈ pagesOf i, m.own p = O_FREE := by
        intro p hp
        have hp := mem_pagesOf.mp hp
        have hdiv : p * 4096 / L4_SUPERPAGESIZE = i := by
          show p * 4096 / 0x400000 = i
          omega
        have hfree := hall (p * 4096) hdiv
        have hdiv : p * 4096 / 0x400000 = i := hdiv
        have hlt : p * 4096 < m.memHigh := by
          by_contra hge
          rw [ownerPage_high (.inr (Nat.not_lt.mp hge))] at hfree
          exact free_ne_reserved hfree.symm
        rw [ownerPage_eq hlt (by omega), Nat.mul_div_cancel _ (by decide)] at hfree
        exact hfree
      by_contra hne
      by_cases hr : (m.supers i).owner = O_RESERVED
      · obtain ⟨p, hp, hpf⟩ := hagree.reserved hr
        have := hown p hp
        rw [own_of_reserved (mem_pagesOf.mp hp) hr] at this
        exact hpf this
      · have hfirst : i * 1024 ∈ pagesOf i := mem_pagesOf.mpr (by omega)
        have := hown _ hfirst
        rw [own_of_owner (mem_pagesOf.mp hfirst) rfl hr] at this
        exact hne this
  · by_cases hf : (m.supers i).owner = O_FREE
    · exact .inl (hagree.free hf p hp)
    · exact hagree.exclusive hf hr p hp

/-- Free pages can be allocated. -/
theorem Inv.alloc_free (h : Inv n m) (hfree : m.memmapOwnerPage a = O_FREE)
    (hq : m.quotaCheckMem o a L4_PAGESIZE = true) : (m.memmapAllocPage a o).1 = true := by
  have hi : a / 0x400000 < 1024 := by
    by_contra hge
    rw [ownerPage_high (.inl (Nat.not_lt.mp hge))] at hfree
    exact free_ne_reserved hfree.symm
  have ha : a < m.memHigh := by
    by_contra hge
    rw [ownerPage_high (.inr (Nat.not_lt.mp hge))] at hfree
    exact free_ne_reserved hfree.symm
  have hagree := h.agree _ hi (h.covers _ hi (by omega))
  rw [ownerPage_eq ha hi] at hfree
  have hs : (m.supers (a / 0x400000)).owner = O_FREE ∨ (m.supers (a / 0x400000)).owner = O_RESERVED := by
    by_contra hne
    push Not at hne
    rw [own_of_owner (page_div a) rfl hne.2] at hfree
    exact hne.1 hfree
  rw [own_of_free hagree (page_div a) hs] at hfree
  obtain ⟨b, e, -, hfalse⟩ | ⟨-, -, -, -, -, hcases⟩ := memmapAllocPage_cases m a o
  · rw [e]
    cases b with
    | true => rfl
    | false =>
      obtain hlt | hlt | hne | hne := hfalse rfl
      · omega
      · omega
      · exact absurd hfree hne
      · obtain hs | hs := hs
        · exact absurd hs hne.1
        · exact absurd hs hne.2
  · obtain ⟨-, hrefuse, -⟩ | ⟨-, m', w, e, -⟩ := hcases
    · rw [hrefuse] at hq
      cases hq
    · rw [e]

/-- A PC with 8 MiB of memory, before `memmap_init`. -/
def bootMap : Memmap where
  pages _ := O_FREE
  supers _ := ⟨0, O_FREE⟩
  memHigh := 0x800000
  quota _ := ⟨⟨0, 0, 0, 0⟩, ⟨0, 0, 0, 0⟩, ⟨0, 0, 0, 0⟩, ⟨0, 0, 0, 0⟩⟩

theorem setRange_uncounted (hs : m.supers i = ⟨0, O_RESERVED⟩) (hp : p ∈ pagesOf i)
    (hfree : (m.memmapSetRange start stop O_FREE).pages p = O_FREE) :
    ¬ Levels (m.memmapSetRange start stop O_FREE) i := by
  intro h
  have hsuper : (m.memmapSetRange start stop O_FREE).supers i = ⟨0, O_RESERVED⟩ := hs
  have hcount := h.freePages (.inr (by rw [hsuper]))
  rw [hsuper] at hcount
  have hempty := Finset.card_eq_zero.mp hcount.symm
  have hmem : p ∈ (pagesOf i).filter fun p => (m.memmapSetRange start stop O_FREE).pages p = O_FREE :=
    Finset.mem_filter.mpr ⟨hp, hfree⟩
  rw [hempty] at hmem
  exact absurd hmem (Finset.notMem_empty _)

theorem setRange_pages (hp : start / L4_PAGESIZE ≤ p ∧ p < start / L4_PAGESIZE +
    (stop - (start - start % L4_PAGESIZE) + (L4_PAGESIZE - 1)) / L4_PAGESIZE) :
    (m.memmapSetRange start stop o).pages p = o :=
  if_pos hp

end Memmap

end L4env.Roottask
