import L4env.Roottask.Pager

/-!
# Requests are granted as a whole or not at all

A request for RAM is denied without effect or granted as a whole if the pages that the task does not
have yet are within its quota together. A request for ports is if no port in front of the first one
that belongs to somebody else is free.
-/

namespace L4env.Roottask

namespace Memmap

variable {m m' : Memmap} {t : Owner} {a b size : Nat} {l : List Nat}

/-! ## Quotas -/

/-- The quota for an address. -/
def quotaFor (m : Memmap) (t : Owner) (high : Bool) : RangeQuota :=
  if high then (m.quota t).himem else (m.quota t).mem

/-- The address is behind the map of the pages. -/
def isHigh (m : Memmap) (a : Nat) : Bool := decide (m.memHigh ≤ a)

theorem quotaCheckMem_eq (amount : Nat) :
    m.quotaCheckMem t a amount = quotaCheck (m.quotaFor t (m.isHigh a)) a amount := by
  rw [quotaCheckMem, quotaFor, isHigh]
  by_cases h : a < m.memHigh
  · rw [if_pos h, decide_eq_false (Nat.not_le.mpr h), if_neg Bool.false_ne_true]
  · rw [if_neg h, decide_eq_true (Nat.not_lt.mp h), if_pos rfl]

theorem quotaAllocMem_quotaFor {amount : Nat} (h : m.quotaCheckMem t a amount = true) (high : Bool) :
    (m.quotaAllocMem t a amount).1 = true ∧ (m.quotaAllocMem t a amount).2.quotaFor t high =
      if m.isHigh a = high then (m.quotaFor t high).charge amount else m.quotaFor t high := by
  refine ⟨quotaAllocMem_fst.trans h, ?_⟩
  rw [quotaCheckMem] at h
  by_cases hlow : a < m.memHigh
  · rw [if_pos hlow] at h
    cases high <;> simp [quotaAllocMem, isHigh, quotaFor, setQuota, hlow, h]
  · rw [if_neg hlow] at h
    cases high <;> simp [quotaAllocMem, isHigh, quotaFor, setQuota, hlow, h]

theorem quotaAllocMem_congr (t : Owner) (a amount : Nat) (hq : m'.quota = m.quota)
    (hm : m'.memHigh = m.memHigh) :
    (m'.quotaAllocMem t a amount).1 = (m.quotaAllocMem t a amount).1 ∧
      (m'.quotaAllocMem t a amount).2.quota = (m.quotaAllocMem t a amount).2.quota := by
  simp only [quotaAllocMem, setQuota, hq, hm]
  split <;> split <;> first | exact ⟨rfl, rfl⟩ | exact ⟨rfl, hq⟩

/-! ## One page -/

theorem user_ne (ht : O_USER ≤ t) : t ≠ O_FREE ∧ t ≠ O_RESERVED := by
  constructor <;> intro h <;> rw [h] at ht <;> exact absurd ht (by decide)

/-- The page is not free in name only: its own entry is free as well. -/
def Clean (m : Memmap) (size b : Nat) : Prop :=
  isSuper size = false → m.memmapOwnerPage b = O_FREE → m.pages (b / 4096) = O_FREE

theorem Clean.of_own (ht : O_USER ≤ t) (h : m.ownerOf size b = t) : m.Clean size b := by
  intro hsize hfree
  rw [ownerOf, hsize, if_neg Bool.false_ne_true, hfree] at h
  rw [← h] at ht
  exact absurd ht (by decide)

/-- What the allocation of a page leaves. -/
structure Took (m : Memmap) (t : Owner) (size a : Nat) (m' : Memmap) : Prop where
  own : m'.ownerOf size a = t
  others : ∀ b, b / pageSize size ≠ a / pageSize size → m.Clean size b →
    m'.ownerOf size b = m.ownerOf size b ∧ m'.Clean size b
  memHigh : m'.memHigh = m.memHigh
  quota : ∀ high, m'.quotaFor t high =
    if m.ownerOf size a = O_FREE ∧ m.isHigh a = high then
      (m.quotaFor t high).charge (pageSize size) else m.quotaFor t high

theorem ownerPage_bounds (h : m.memmapOwnerPage a ≠ O_RESERVED) :
    a < m.memHigh ∧ a / 0x400000 < 1024 := by
  by_contra hout
  exact h (ownerPage_high (by omega))

/-- The page is the task's already. -/
theorem memmapAllocPage_own (hres : t ≠ O_RESERVED) (h : m.memmapOwnerPage a = t) :
    m.memmapAllocPage a t = (true, m) := by
  obtain ⟨ha, hi⟩ := ownerPage_bounds (by rw [h]; exact hres)
  rw [ownerPage_eq ha hi, own, page_div] at h
  have hhave : m.pages (a / L4_PAGESIZE) = t ∨ (m.supers (a / L4_SUPERPAGESIZE)).owner = t := by
    split at h
    · exact .inl h
    · exact .inr h
  rw [memmapAllocPage]
  exact (if_neg (Nat.not_le.mpr hi)).trans ((if_neg (Nat.not_le.mpr ha)).trans (if_pos hhave))

/-- A free page is allocated and charged. -/
theorem memmapAllocPage_free (ht : O_USER ≤ t) (h : m.memmapOwnerPage a = O_FREE)
    (hclean : m.pages (a / 4096) = O_FREE) (hq : m.quotaCheckMem t a 4096 = true) :
    (m.memmapAllocPage a t).1 = true ∧
      (m.memmapAllocPage a t).2.quota = (m.quotaAllocMem t a 4096).2.quota := by
  obtain ⟨ha, hi⟩ := ownerPage_bounds (by rw [h]; exact free_ne_reserved)
  have hfree := (user_ne ht).1
  have hs : (m.supers (a / 0x400000)).owner = O_FREE ∨ (m.supers (a / 0x400000)).owner = O_RESERVED := by
    rw [ownerPage_eq ha hi, own, page_div] at h
    split at h
    · exact .inr ‹_›
    · exact .inl h
  have hnot : ¬(m.pages (a / 4096) = t ∨ (m.supers (a / 0x400000)).owner = t) := by
    rintro (e | e)
    · exact hfree (e.symm.trans hclean)
    · rw [e] at hs
      rcases hs with hs | hs
      · exact hfree hs
      · rw [hs] at ht
        exact absurd ht (by decide)
  have hmarked : ¬((m.supers (a / 0x400000)).owner ≠ O_FREE ∧
      (m.supers (a / 0x400000)).owner ≠ O_RESERVED) := by tauto
  have hsuper : (m.setSuper (a / 0x400000)
      { m.supers (a / 0x400000) with owner := O_RESERVED }).quota = m.quota := rfl
  obtain ⟨hok, hquota⟩ := quotaAllocMem_congr t a 4096 hsuper rfl
  rw [quotaAllocMem_fst.trans hq] at hok
  unfold memmapAllocPage
  dsimp only [L4_PAGESIZE, L4_SUPERPAGESIZE, SUPERPAGE_MAX]
  rw [if_neg (Nat.not_le.mpr hi), if_neg (Nat.not_le.mpr ha), if_neg hnot, if_neg (not_not.mpr hclean),
    if_neg hmarked, if_pos ht, hok]
  simp only [Bool.not_true, Bool.false_eq_true, if_false]
  split <;> exact ⟨rfl, hquota⟩

theorem quotaFor_congr (h : m'.quota = m.quota) (high : Bool) :
    m'.quotaFor t high = m.quotaFor t high := by
  rw [quotaFor, quotaFor, h]

/-- The owners of other pages when a free page is taken: an entry that was in force stays in force. -/
theorem ownerPage_other {w : Owner} {n : Nat}
    (hs : (m.supers (a / 0x400000)).owner = O_FREE ∨ (m.supers (a / 0x400000)).owner = O_RESERVED)
    (hw : w = O_RESERVED ∨
      w = t ∧ ∀ p ∈ pagesOf (a / 0x400000), Function.update m.pages (a / 4096) t p = t)
    (hm : Wrote m m' (Function.update m.pages (a / 4096) t)
      (Function.update m.supers (a / 0x400000) ⟨n, w⟩))
    (hb : b / 4096 ≠ a / 4096) (hclean : m.memmapOwnerPage b = O_FREE → m.pages (b / 4096) = O_FREE) :
    m'.memmapOwnerPage b = m.memmapOwnerPage b ∧
      (m'.memmapOwnerPage b = O_FREE → m'.pages (b / 4096) = O_FREE) := by
  have hpages : m'.pages (b / 4096) = m.pages (b / 4096) := by
    rw [hm.pages, Function.update_of_ne hb]
  suffices hsame : m'.memmapOwnerPage b = m.memmapOwnerPage b by
    exact ⟨hsame, fun h => hpages.trans (hclean (hsame.symm.trans h))⟩
  by_cases hin : b < m.memHigh ∧ b / 0x400000 < 1024
  · have hhigh := hm.memHigh
    rw [ownerPage_eq hin.1 hin.2] at hclean ⊢
    rw [ownerPage_eq (by omega) hin.2, own, own, hpages, page_div]
    rw [own, page_div] at hclean
    by_cases hsame : b / 0x400000 = a / 0x400000
    · rw [hm.supers, hsame, Function.update_self]
      rw [hsame] at hclean
      -- the entry of the page was in force before, or it was free in a free superpage
      have hval : (if (m.supers (a / 0x400000)).owner = O_RESERVED then m.pages (b / 4096)
          else (m.supers (a / 0x400000)).owner) = m.pages (b / 4096) := by
        rcases hs with hs | hs
        · rw [hs, if_neg free_ne_reserved] at hclean ⊢
          exact (hclean rfl).symm
        · rw [if_pos hs]
      rw [hval]
      rcases hw with rfl | ⟨rfl, hall⟩
      · rw [if_pos rfl]
      · have hp := hall (b / 4096) (mem_pagesOf.mpr (by rw [page_div, hsame]))
        rw [Function.update_of_ne hb] at hp
        rw [hp]
        exact ite_self w
    · rw [hm.supers, Function.update_of_ne hsame]
  · have hout : 1024 ≤ b / 0x400000 ∨ m.memHigh ≤ b := by omega
    rw [ownerPage_high hout, ownerPage_high (by rw [hm.memHigh]; exact hout)]

/-- `memmap_alloc_page` on a page that is free or the task's. -/
theorem memmapAllocPage_took (ht : O_USER ≤ t) (hsize : isSuper size = false)
    (howner : m.memmapOwnerPage a = O_FREE ∨ m.memmapOwnerPage a = t) (hclean : m.Clean size a)
    (hq : m.memmapOwnerPage a = O_FREE → m.quotaCheckMem t a 4096 = true) :
    (m.memmapAllocPage a t).1 = true ∧ Took m t size a (m.memmapAllocPage a t).2 := by
  obtain ⟨hfree, hres⟩ := user_ne ht
  have hof (m : Memmap) (b : Nat) : m.ownerOf size b = m.memmapOwnerPage b := by
    rw [ownerOf, hsize, if_neg Bool.false_ne_true]
  have hpage : pageSize size = 4096 := by rw [pageSize, hsize]; rfl
  by_cases hown : m.memmapOwnerPage a = t
  · rw [memmapAllocPage_own hres hown]
    refine ⟨rfl, (hof m a).trans hown, fun b _ hb => ⟨rfl, hb⟩, rfl, fun high => ?_⟩
    rw [if_neg]
    rintro ⟨h, -⟩
    exact hfree (hown.symm.trans ((hof m a).symm.trans h))
  · have howner := howner.resolve_right hown
    have hentry := hclean hsize howner
    obtain ⟨hok, hquota⟩ := memmapAllocPage_free ht howner hentry (hq howner)
    obtain ⟨b, e, htrue, -⟩ | ⟨ha, hi, -, -, hs, hcases⟩ := memmapAllocPage_cases m a t
    · rw [e] at hok
      obtain ⟨ha, hi, hhave⟩ := htrue hok
      rw [ownerPage_eq ha hi, own, page_div] at howner
      exfalso
      rcases hhave with hhave | hhave
      · exact hfree (hhave.symm.trans hentry)
      · rw [hhave, if_neg hres] at howner
        exact hfree howner
    · obtain ⟨-, hrefuse, -⟩ | ⟨-, m', w, e, hw, hm⟩ := hcases
      · rw [hq howner] at hrefuse
        cases hrefuse
      · rw [e] at hquota ⊢
        refine ⟨rfl, ?_, fun b hb hcb => ?_, hm.memHigh, fun high => ?_⟩
        · rw [hof, ownerPage_eq (by rw [hm.memHigh]; exact ha) hi, own, page_div, hm.supers,
            Function.update_self, hm.pages, Function.update_self]
          rcases hw with rfl | ⟨rfl, -⟩
          · rw [if_pos rfl]
          · exact ite_self w
        · rw [hpage] at hb
          obtain ⟨hsame, hnew⟩ := ownerPage_other hs hw hm hb (hcb hsize)
          exact ⟨by rw [hof, hof, hsame], fun _ => hnew⟩
        · rw [quotaFor_congr hquota, (quotaAllocMem_quotaFor (hq howner) high).2, hof, hpage]
          simp only [howner, true_and]

@[simp] theorem setSuper_self (m : Memmap) (i : Nat) (s : Superpage) : (m.setSuper i s).supers i = s :=
  Function.update_self ..

theorem setSuper_of_ne {i j : Nat} (s : Superpage) (h : j ≠ i) :
    (m.setSuper i s).supers j = m.supers j := Function.update_of_ne h ..

/-- `memmap_alloc_superpage` on a superpage that is free or the task's. -/
theorem memmapAllocSuperpage_took (ht : O_USER ≤ t) (hsize : isSuper size = true)
    (howner : m.memmapOwnerSuperpage a = O_FREE ∨ m.memmapOwnerSuperpage a = t)
    (halign : a % 0x400000 = 0)
    (hq : m.memmapOwnerSuperpage a = O_FREE → m.quotaCheckMem t a 0x400000 = true) :
    (m.memmapAllocSuperpage a t).1 = true ∧ Took m t size a (m.memmapAllocSuperpage a t).2 := by
  obtain ⟨hfree, hres⟩ := user_ne ht
  have hof (m : Memmap) (b : Nat) : m.ownerOf size b = m.memmapOwnerSuperpage b := by
    rw [ownerOf, hsize, if_pos rfl]
  have hpage : pageSize size = 0x400000 := by rw [pageSize, hsize]; rfl
  have hi : a / 0x400000 < 1024 := by
    by_contra hge
    have hout : m.memmapOwnerSuperpage a = O_RESERVED := if_pos (Nat.not_lt.mp hge)
    rw [hout] at howner
    exact howner.elim (fun h => free_ne_reserved h.symm) fun h => hres h.symm
  have hbase : a - a % 0x400000 = a := by omega
  by_cases hown : m.memmapOwnerSuperpage a = t
  · have hsame : m.memmapAllocSuperpage a t = (true, m) := by
      rw [memmapAllocSuperpage]
      exact (if_neg (Nat.not_le.mpr hi)).trans (if_pos ((ownerSuperpage_eq hi).symm.trans hown))
    rw [hsame]
    refine ⟨rfl, (hof m a).trans hown, fun b _ hb => ⟨rfl, hb⟩, rfl, fun high => ?_⟩
    rw [if_neg]
    rintro ⟨h, -⟩
    exact hfree (hown.symm.trans ((hof m a).symm.trans h))
  · have howner := howner.resolve_right hown
    have hs : (m.supers (a / 0x400000)).owner = O_FREE := (ownerSuperpage_eq hi).symm.trans howner
    have hcheck := hq howner
    have hres' : m.memmapAllocSuperpage a t = (true, (m.quotaAllocMem t a 0x400000).2.setSuper
        (a / 0x400000) ⟨(m.supers (a / 0x400000)).freePages, t⟩) := by
      have hok := quotaAllocMem_fst.trans hcheck
      unfold memmapAllocSuperpage
      dsimp only [L4_SUPERPAGESIZE, SUPERPAGE_MAX]
      rw [if_neg (Nat.not_le.mpr hi), if_neg (by rw [hs]; exact hfree.symm), if_neg (not_not.mpr hs),
        if_pos ht, hbase, hok]
      rfl
    obtain ⟨-, hsupers, hmem⟩ := @quotaAllocMem_map m a 0x400000 t
    rw [hres']
    refine ⟨rfl, ?_, fun b hb _ => ⟨?_, fun h => ?_⟩, hmem, fun high => ?_⟩
    · rw [hof, ownerSuperpage_eq hi, setSuper_self]
    · rw [hpage] at hb
      rw [hof, hof, memmapOwnerSuperpage, memmapOwnerSuperpage, setSuper_of_ne _ hb, hsupers]
    · rw [hsize] at h
      cases h
    · have hquota := (quotaAllocMem_quotaFor hcheck high).2
      rw [hof, hpage]
      simp only [howner, true_and]
      exact hquota

/-- The next page of the second loop is allocated. -/
theorem allocOf_took (ht : O_USER ≤ t) (howner : m.ownerOf size a = O_FREE ∨ m.ownerOf size a = t)
    (hclean : m.Clean size a) (halign : isSuper size = true → a % 0x400000 = 0)
    (hq : m.ownerOf size a = O_FREE → m.quotaCheckMem t a (pageSize size) = true) :
    (m.allocOf size a t).1 = true ∧ Took m t size a (m.allocOf size a t).2 := by
  rw [allocOf]
  rw [ownerOf, pageSize] at *
  split
  · rename_i h
    rw [if_pos h, if_pos h] at *
    exact memmapAllocSuperpage_took ht h howner (halign h) hq
  · rename_i h
    rw [if_neg h, if_neg h] at *
    exact memmapAllocPage_took ht (Bool.eq_false_of_not_eq_true h) howner hclean hq

/-! ## All pages -/

/-- The number of pages of a list that the task still has to be charged for. -/
def need (m : Memmap) (size : Nat) (l : List Nat) (high : Bool) : Nat :=
  l.countP fun a => decide (m.ownerOf size a = O_FREE ∧ m.isHigh a = high)

/-- The pages of a list that are free are within the quota of the task together. -/
def Affords (m : Memmap) (t : Owner) (size : Nat) (l : List Nat) : Prop :=
  ∀ high, 0 < m.need size l high →
    (m.quotaFor t high).current + m.need size l high * pageSize size ≤ (m.quotaFor t high).max

/-- The parts of a quota that a charge leaves alone allow the address. -/
def RangeQuota.Allows (q : RangeQuota) (addr amount : Nat) : Prop :=
  amount ≤ q.max ∧ q.low ≤ addr ∧ (addr + amount + (2 ^ 32 - 1)) % 2 ^ 32 ≤ q.high

/-- What the second loop finds. -/
structure Grantable (m : Memmap) (t : Owner) (size : Nat) (l : List Nat) : Prop where
  distinct : l.Pairwise fun a b => b / pageSize size ≠ a / pageSize size
  owner : ∀ a ∈ l, m.ownerOf size a = O_FREE ∨ m.ownerOf size a = t
  clean : ∀ a ∈ l, m.Clean size a
  aligned : ∀ a ∈ l, isSuper size = true → a % 0x400000 = 0
  allows : ∀ a ∈ l, RangeQuota.Allows (m.quotaFor t (m.isHigh a)) a (pageSize size)
  affords : m.Affords t size l
  words : ∀ high, (m.quotaFor t high).max < 2 ^ 32

theorem need_cons (m : Memmap) (size a : Nat) (l : List Nat) (high : Bool) :
    m.need size (a :: l) high =
      m.need size l high + if m.ownerOf size a = O_FREE ∧ m.isHigh a = high then 1 else 0 := by
  rw [need, List.countP_cons]
  simp only [decide_eq_true_eq]
  rfl

/-- A page that is still free can be charged. -/
theorem Grantable.check (h : Grantable m t size (a :: l)) (hfree : m.ownerOf size a = O_FREE) :
    m.quotaCheckMem t a (pageSize size) = true := by
  obtain ⟨hmax, hlow, hhigh⟩ := h.allows a List.mem_cons_self
  have hneed := need_cons m size a l (m.isHigh a)
  rw [if_pos ⟨hfree, rfl⟩] at hneed
  have hsum := h.affords (m.isHigh a) (by omega)
  have hone : pageSize size ≤ m.need size (a :: l) (m.isHigh a) * pageSize size :=
    Nat.le_mul_of_pos_left _ (by omega)
  rw [quotaCheckMem_eq]
  exact decide_eq_true ⟨hmax, by omega, hlow, hhigh⟩

theorem Took.need (h : Took m t size a m') (hg : Grantable m t size (a :: l)) (high : Bool) :
    m'.need size l high = m.need size l high := by
  refine List.countP_congr fun b hb => ?_
  have hne := List.rel_of_pairwise_cons hg.distinct hb
  have hsame := (h.others b hne (hg.clean b (List.mem_cons_of_mem _ hb))).1
  rw [hsame, isHigh, isHigh, h.memHigh]

/-- What the second loop finds after one page. -/
theorem Grantable.took (hg : Grantable m t size (a :: l)) (h : Took m t size a m') :
    Grantable m' t size l := by
  have hmem {b : Nat} (hb : b ∈ l) : b ∈ a :: l := List.mem_cons_of_mem _ hb
  have hother {b : Nat} (hb : b ∈ l) :=
    h.others b (List.rel_of_pairwise_cons hg.distinct hb) (hg.clean b (hmem hb))
  have hfields (high : Bool) : (m'.quotaFor t high).max = (m.quotaFor t high).max ∧
      (m'.quotaFor t high).low = (m.quotaFor t high).low ∧
      (m'.quotaFor t high).high = (m.quotaFor t high).high := by
    rw [h.quota high]
    split <;> exact ⟨rfl, rfl, rfl⟩
  refine ⟨hg.distinct.of_cons, fun b hb => ?_, fun b hb => (hother hb).2,
    fun b hb => hg.aligned b (hmem hb), fun b hb => ?_, fun high hneed => ?_, fun high => ?_⟩
  · rw [(hother hb).1]
    exact hg.owner b (hmem hb)
  · obtain ⟨hmax, hlow, hhigh⟩ := hfields (m.isHigh b)
    have hsame : m'.isHigh b = m.isHigh b := by rw [isHigh, isHigh, h.memHigh]
    rw [RangeQuota.Allows, hsame, hmax, hlow, hhigh]
    exact hg.allows b (hmem hb)
  · rw [h.need hg] at hneed ⊢
    rw [(hfields high).1]
    have hcons := need_cons m size a l high
    have hsum := hg.affords high (by omega)
    have hword := hg.words high
    rw [h.quota high]
    by_cases hfree : m.ownerOf size a = O_FREE ∧ m.isHigh a = high
    · rw [if_pos hfree] at hcons ⊢
      rw [hcons, Nat.add_mul, Nat.one_mul] at hsum
      rw [RangeQuota.charge, Nat.mod_eq_of_lt (by omega)]
      show (m.quotaFor t high).current + pageSize size + _ ≤ _
      omega
    · rw [if_neg hfree] at hcons ⊢
      rw [hcons] at hsum
      exact hsum
  · rw [(hfields high).1]
    exact hg.words high

/-- The second loop allocates every page. -/
theorem secondPass_spec (ht : O_USER ≤ t) (hg : Grantable m t size l) :
    ∃ m', m.secondPass t size l = some m' ∧ (∀ a ∈ l, m'.ownerOf size a = t) ∧
      ∀ b, (∀ a ∈ l, b / pageSize size ≠ a / pageSize size) → m.Clean size b →
        m'.ownerOf size b = m.ownerOf size b := by
  induction l generalizing m with
  | nil => exact ⟨m, rfl, nofun, fun _ _ _ => rfl⟩
  | cons a l ih =>
    obtain ⟨hok, htook⟩ := allocOf_took ht (hg.owner a List.mem_cons_self)
      (hg.clean a List.mem_cons_self) (hg.aligned a List.mem_cons_self) hg.check
    obtain ⟨m', hm', hall, hothers⟩ := ih (hg.took htook)
    refine ⟨m', ?_, fun b hb => ?_, fun b hb hclean => ?_⟩
    · rw [secondPass, quotaFreeMem_snd, hok]
      exact hm'
    · rcases List.mem_cons.mp hb with rfl | hb
      · have hfar : ∀ c ∈ l, b / pageSize size ≠ c / pageSize size := fun c hc =>
          (List.rel_of_pairwise_cons hg.distinct hc).symm
        rw [hothers b hfar (.of_own ht htook.own), htook.own]
      · exact hall b hb
    · obtain ⟨hsame, hnew⟩ := htook.others b (hb a List.mem_cons_self) hclean
      rw [hothers b (fun c hc => hb c (List.mem_cons_of_mem _ hc)) hnew, hsame]

/-! ## Requests for RAM -/

theorem firstPass_iff {addr : Nat} : m.firstPass t addr size = true ↔ ∀ a ∈ pageAddrs addr size,
    (m.ownerOf size a = O_FREE ∨ m.ownerOf size a = t) ∧ m.quotaCheckMem t a (pageSize size) = true := by
  simp only [firstPass, List.all_eq_true, Bool.and_eq_true, decide_eq_true_eq]

theorem quotaCheck_allows {q : RangeQuota} {addr amount : Nat} (h : quotaCheck q addr amount = true) :
    RangeQuota.Allows q addr amount :=
  have h := of_decide_eq_true h
  ⟨h.1, h.2.2.1, h.2.2.2⟩

/-- A request that passes the first loop: it is for whole pages, superpages where it is for superpages,
and the pages that are free are free in both maps and within the quota together. -/
structure Affordable (m : Memmap) (t : Owner) (addr size : Nat) : Prop where
  page : 12 ≤ size ∧ size < 32
  aligned : if isSuper size then 0x400000 ∣ addr else 0x1000 ∣ addr
  clean : ∀ a ∈ pageAddrs addr size, m.Clean size a
  affords : m.Affords t size (pageAddrs addr size)

theorem pageSize_cases (size : Nat) : pageSize size = 0x400000 ∧ isSuper size = true ∨
    pageSize size = 0x1000 ∧ isSuper size = false := by
  rw [pageSize]
  cases isSuper size with
  | true => exact .inl ⟨rfl, rfl⟩
  | false => exact .inr ⟨rfl, rfl⟩

/-- A flexpage of at least a page is made of the pages of the loops. -/
theorem pageCount_mul (h : 12 ≤ size ∧ size < 32) : pageCount size * pageSize size = 2 ^ size := by
  rw [pageCount, flexpage, Nat.mod_eq_of_lt h.2]
  refine Nat.div_mul_cancel ?_
  rw [pageSize]
  split
  · rename_i hs
    exact Nat.pow_dvd_pow (m := 22) 2 (of_decide_eq_true hs)
  · exact Nat.pow_dvd_pow (m := 12) 2 h.1

theorem mem_pageAddrs {addr : Nat} (h : 12 ≤ size ∧ size < 32) :
    a ∈ pageAddrs addr size ↔ ∃ x < 2 ^ size, pageSize size ∣ x ∧ a = (addr + x) % 2 ^ 32 := by
  have hpos : 0 < pageSize size := by
    obtain ⟨hp, -⟩ | ⟨hp, -⟩ := pageSize_cases size <;> rw [hp] <;> decide
  rw [pageAddrs, List.mem_map]
  constructor
  · rintro ⟨k, hk, rfl⟩
    refine ⟨k * pageSize size, ?_, Nat.dvd_mul_left _ _, rfl⟩
    rw [← pageCount_mul h]
    exact Nat.mul_lt_mul_of_pos_right (List.mem_range.mp hk) hpos
  · rintro ⟨x, hx, ⟨k, rfl⟩, rfl⟩
    rw [← pageCount_mul h, Nat.mul_comm] at hx
    exact ⟨k, List.mem_range.mpr (Nat.lt_of_mul_lt_mul_right hx), by rw [Nat.mul_comm]⟩

/-- The pages of the loops are different ones, also where the addresses wrap around. -/
theorem pageAddrs_distinct {addr : Nat} (h : 12 ≤ size ∧ size < 32) (ha : pageSize size ∣ addr) :
    (pageAddrs addr size).Pairwise fun a b => b / pageSize size ≠ a / pageSize size := by
  have hcount := pageCount_mul h
  have hpow : 2 ^ size ≤ 2 ^ 31 := Nat.pow_le_pow_right (by decide) (by omega)
  rw [pageAddrs, List.pairwise_map]
  refine List.pairwise_lt_range.imp_of_mem fun {j k} _ hk hlt => ?_
  have hk := List.mem_range.mp hk
  obtain ⟨hp, -⟩ | ⟨hp, -⟩ := pageSize_cases size
  · rw [hp] at ha hcount ⊢
    omega
  · rw [hp] at ha hcount ⊢
    omega

theorem Affordable.grantable {addr : Nat} (h : m.Affordable t addr size)
    (hwords : ∀ high, (m.quotaFor t high).max < 2 ^ 32) (hpass : m.firstPass t addr size = true) :
    Grantable m t size (pageAddrs addr size) := by
  have hpass := firstPass_iff.mp hpass
  have halign : pageSize size ∣ addr := by
    have hal := h.aligned
    obtain ⟨hp, hs⟩ | ⟨hp, hs⟩ := pageSize_cases size <;> rw [hs] at hal <;> rw [hp] <;> exact hal
  refine ⟨pageAddrs_distinct h.page halign, fun a ha => (hpass a ha).1, h.clean, fun a ha hs => ?_,
    fun a ha => ?_, h.affords, hwords⟩
  · obtain ⟨x, -, hx, rfl⟩ := (mem_pageAddrs h.page).mp ha
    obtain ⟨hp, -⟩ | ⟨-, hn⟩ := pageSize_cases size
    · rw [hp] at halign hx
      omega
    · rw [hs] at hn
      cases hn
  · have hcheck := (hpass a ha).2
    rw [quotaCheckMem_eq] at hcheck
    exact quotaCheck_allows hcheck

/-- A request for RAM is denied without effect, or all its pages are allocated. -/
theorem fpageRam_spec {addr : Nat} (ht : O_USER ≤ t)
    (hwords : ∀ high, (m.quotaFor t high).max < 2 ^ 32)
    (h : m.firstPass t addr size = true → m.Affordable t addr size) :
    m.fpageRam t addr size = (.denied, m) ∨
      ∃ m', m.fpageRam t addr size = (.granted addr size, m') ∧
        ∀ x < 2 ^ size, pageSize size ∣ x → m'.ownerOf size ((addr + x) % 2 ^ 32) = t := by
  rw [fpageRam]
  cases hpass : m.firstPass t addr size with
  | false => exact .inl rfl
  | true =>
    have hafford := h hpass
    obtain ⟨m', hm', hall, -⟩ := secondPass_spec ht (hafford.grantable hwords hpass)
    refine .inr ⟨m', ?_, fun x hx hdvd => ?_⟩
    · rw [hm']
      rfl
    · exact hall _ ((mem_pageAddrs hafford.page).mpr ⟨x, hx, hdvd, rfl⟩)

end Memmap

/-! ## Requests for ports -/

namespace Iomap

variable {io : Iomap} {t : Owner} {port n : Nat}

/-- The ports in front of the first one that belongs to somebody else are the task's already, or there is
none and all ports are within the I/O space. -/
def PortsFit (io : Iomap) (t : Owner) (port n : Nat) : Prop :=
  (∀ i, port ≤ i → i < port + n → i < RMGR_IO_MAX ∧ (io i = O_FREE ∨ io i = t)) ∨
    ∃ j, port ≤ j ∧ j < port + n ∧ j < RMGR_IO_MAX ∧ io j ≠ O_FREE ∧ io j ≠ t ∧
      ∀ i, port ≤ i → i < j → io i = t

theorem iomapAllocPort_taken (h : io port = O_FREE ∨ io port = t) :
    io.iomapAllocPort port t = (true, Function.update io port t) := by
  rw [iomapAllocPort]
  split
  · rename_i hown
    rw [← hown, Function.update_eq_self]
  · rename_i hown
    rw [if_neg (not_not.mpr (h.resolve_right hown))]

theorem allocPorts_granted (h : ∀ i, port ≤ i → i < port + n →
    i < RMGR_IO_MAX ∧ (io i = O_FREE ∨ io i = t)) :
    ∃ b io', io.allocPorts t port n = (.granted b 0, io') ∧
      ∀ i, io' i = if port ≤ i ∧ i < port + n then t else io i := by
  induction n generalizing io port with
  | zero =>
    refine ⟨port, io, rfl, fun i => ?_⟩
    rw [if_neg (by omega)]
  | succ n ih =>
    obtain ⟨hin, hfirst⟩ := h port (Nat.le_refl _) (by omega)
    have hrest : ∀ i, port + 1 ≤ i → i < port + 1 + n → i < RMGR_IO_MAX ∧
        (Function.update io port t i = O_FREE ∨ Function.update io port t i = t) := by
      intro i hle hlt
      rw [Function.update_of_ne (by omega)]
      exact h i (by omega) (by omega)
    obtain ⟨b, io', heq, hall⟩ := ih hrest
    refine ⟨b, io', ?_, fun i => ?_⟩
    · rw [allocPorts, if_neg (Nat.not_le.mpr hin), iomapAllocPort_taken hfirst]
      exact heq
    · rw [hall]
      by_cases hi : i = port
      · rw [hi, if_neg (by omega), if_pos (by omega), Function.update_self]
      · rw [Function.update_of_ne hi]
        exact if_congr (by omega) rfl rfl

theorem allocPorts_denied {j : Nat} (hj : port ≤ j) (hn : j < port + n) (hin : j < RMGR_IO_MAX)
    (hfree : io j ≠ O_FREE) (hown : io j ≠ t) (h : ∀ i, port ≤ i → i < j → io i = t) :
    io.allocPorts t port n = (.denied, io) := by
  induction n generalizing port with
  | zero => omega
  | succ n ih =>
    rw [allocPorts, if_neg (by omega)]
    by_cases heq : port = j
    · subst heq
      rw [iomapAllocPort, if_neg hown, if_pos hfree]
      rfl
    · have hfirst := h port (Nat.le_refl _) (by omega)
      rw [iomapAllocPort, if_pos hfirst]
      exact ih (by omega) (by omega) fun i hle hlt => h i (by omega) hlt

/-- A request for ports is denied without effect, or all its ports are allocated. -/
theorem handleIo_spec {haveIo allowCli : Bool} {size : Nat}
    (hwhole : haveIo = true → allowCli = true → port = 0 → size ≠ L4_WHOLE_IOADDRESS_SPACE)
    (h : haveIo = true → ¬(port = 0 ∧ size = L4_WHOLE_IOADDRESS_SPACE) →
      io.PortsFit t port (flexpage size)) :
    io.handleIo haveIo allowCli t port size = (.denied, io) ∨
      ∃ io', io.handleIo haveIo allowCli t port size = (.granted port size, io') ∧
        ∀ i, port ≤ i → i < port + flexpage size → io' i = t := by
  rw [handleIo]
  cases haveIo with
  | false => exact .inl rfl
  | true =>
    by_cases hcli : port = 0 ∧ size = L4_WHOLE_IOADDRESS_SPACE
    · cases allowCli with
      | false =>
        left
        rw [if_pos hcli]
        rfl
      | true => exact absurd hcli.2 (hwhole rfl rfl hcli.1)
    · rw [if_neg hcli]
      rcases h rfl hcli with hall | ⟨j, hj, hn, hin, hfree, hown, hbefore⟩
      · obtain ⟨b, io', heq, hports⟩ := allocPorts_granted hall
        refine .inr ⟨io', ?_, fun i hle hlt => (hports i).trans (if_pos ⟨hle, hlt⟩)⟩
        rw [heq]
        rfl
      · left
        rw [allocPorts_denied hj hn hin hfree hown hbefore]
        rfl

end Iomap

open Memmap Iomap

/-- Two free pages, and a quota on the bytes of memory. -/
def twoPages (bytes : Nat) : Memmap where
  pages p := if p < 2 then O_FREE else O_RESERVED
  supers _ := ⟨2, O_RESERVED⟩
  memHigh := 0x2000
  quota _ := ⟨⟨0, 0xFFFFFFFF, bytes, 0⟩, ⟨0, 0, 0, 0⟩, ⟨0, 0, 0, 0⟩, ⟨0, 0, 0, 0⟩⟩

end L4env.Roottask
