import L4env.Roottask.Memmap

/-!
# Agreement of the two levels of the memory map

`Agree m i` says what the entry of the superpage `i` and the entries of its pages have to do with
each other, and `own m p` is the owner of the page `p` that they stand for. Each function of the
memory map is first described by the fields it writes; from this follows that it keeps the levels
in agreement and that it moves pages only between the caller and the free memory.
-/

namespace L4env.Roottask

/-- The pages of the superpage `i`. -/
def pagesOf (i : Nat) : Finset Nat := Finset.Ico (i * 1024) (i * 1024 + 1024)

theorem mem_pagesOf {i p : Nat} : p ∈ pagesOf i ↔ p / 1024 = i := by
  simp only [pagesOf, Finset.mem_Ico]
  omega

namespace Memmap

variable {m m' : Memmap} {i p a n : Nat} {o : Owner}

/-- The free pages of the superpage `i`, by their own entries. -/
def freeSet (m : Memmap) (i : Nat) : Finset Nat := (pagesOf i).filter fun p => m.pages p = O_FREE

/-- The entry of the superpage `i` agrees with the entries of its pages. -/
structure Agree (m : Memmap) (i : Nat) : Prop where
  free : (m.supers i).owner = O_FREE → ∀ p ∈ pagesOf i, m.pages p = O_FREE
  reserved : (m.supers i).owner = O_RESERVED → ∃ p ∈ pagesOf i, m.pages p ≠ O_FREE
  count : (m.supers i).owner = O_FREE ∨ (m.supers i).owner = O_RESERVED →
    (m.supers i).freePages = (m.freeSet i).card
  exclusive : (m.supers i).owner ≠ O_FREE → (m.supers i).owner ≠ O_RESERVED →
    ∀ p ∈ pagesOf i, m.pages p = O_FREE ∨ m.pages p = (m.supers i).owner

/-- The owner of a page that has an entry in the page map. -/
def own (m : Memmap) (p : Nat) : Owner :=
  if (m.supers (p / 1024)).owner = O_RESERVED then m.pages p else (m.supers (p / 1024)).owner

/-- The superpages that start below `n` are in agreement, and nobody owns a page behind the map. -/
structure Inv (n : Nat) (m : Memmap) : Prop where
  aligned : 4096 ∣ m.memHigh
  covers : ∀ i < 1024, i * 0x400000 < m.memHigh → i * 0x400000 < n
  agree : ∀ i < 1024, i * 0x400000 < n → m.Agree i
  high : ∀ p, m.memHigh ≤ p * 4096 → m.pages p = O_RESERVED

theorem free_ne_reserved : O_FREE ≠ O_RESERVED := by decide

theorem freeSet_card_le : (m.freeSet i).card ≤ 1024 := by
  refine (Finset.card_filter_le _ _).trans ?_
  simp [pagesOf]

theorem mem_freeSet : p ∈ m.freeSet i ↔ p / 1024 = i ∧ m.pages p = O_FREE := by
  simp [freeSet, mem_pagesOf]

theorem freeSet_card_eq : (m.freeSet i).card = 1024 ↔ ∀ p ∈ pagesOf i, m.pages p = O_FREE := by
  have hcard : (pagesOf i).card = 1024 := by simp [pagesOf]
  rw [freeSet, ← hcard, Finset.card_filter_eq_iff]

/-- The entry of a page that becomes owned. -/
theorem freeSet_erase (hp : m.pages p = O_FREE) (ho : o ≠ O_FREE)
    (hm : m'.pages = Function.update m.pages p o) (hi : p / 1024 = i) :
    m'.freeSet i = (m.freeSet i).erase p := by
  ext q
  rw [Finset.mem_erase, mem_freeSet, mem_freeSet, hm]
  by_cases hq : q = p
  · subst hq
    simp [ho]
  · simp [hq]

/-- The entry of a page that becomes free. -/
theorem freeSet_insert (hm : m'.pages = Function.update m.pages p O_FREE) (hi : p / 1024 = i) :
    m'.freeSet i = insert p (m.freeSet i) := by
  ext q
  rw [Finset.mem_insert, mem_freeSet, mem_freeSet, hm]
  by_cases hq : q = p
  · subst hq
    simp [hi]
  · simp [hq]

theorem freeSet_congr (h : ∀ p ∈ pagesOf i, m'.pages p = m.pages p) : m'.freeSet i = m.freeSet i := by
  refine Finset.filter_congr fun p hp => ?_
  rw [h p hp]

/-- Superpages that an operation does not touch stay in agreement. -/
theorem Agree.congr (h : m.Agree i) (hs : m'.supers i = m.supers i)
    (hp : ∀ p ∈ pagesOf i, m'.pages p = m.pages p) : m'.Agree i where
  free := fun e p hm => (hp p hm).trans (h.free (hs ▸ e) p hm)
  reserved := fun e => by
    obtain ⟨p, hm, hne⟩ := h.reserved (hs ▸ e)
    exact ⟨p, hm, by rw [hp p hm]; exact hne⟩
  count := fun e => by
    rw [hs] at e ⊢
    rw [freeSet_congr hp, h.count e]
  exclusive := fun e e' p hm => by
    rw [hs] at e e' ⊢
    rw [hp p hm]
    exact h.exclusive e e' p hm

/-- The entry of a superpage of which some pages are owned, or none. -/
theorem Agree.of_count (hcount : (m.supers i).freePages = (m.freeSet i).card)
    (ho : (m.supers i).owner = if (m.freeSet i).card = 1024 then O_FREE else O_RESERVED) :
    m.Agree i := by
  by_cases hc : (m.freeSet i).card = 1024
  · rw [if_pos hc] at ho
    have hne : (m.supers i).owner ≠ O_RESERVED := by
      rw [ho]
      exact free_ne_reserved
    exact ⟨fun _ => freeSet_card_eq.mp hc, fun e => absurd e hne, fun _ => hcount,
      fun e => absurd ho e⟩
  · rw [if_neg hc] at ho
    have hne : (m.supers i).owner ≠ O_FREE := by
      rw [ho]
      exact free_ne_reserved.symm
    refine ⟨fun e => absurd e hne, fun _ => ?_, fun _ => hcount, fun _ e => absurd ho e⟩
    rw [freeSet_card_eq] at hc
    push Not at hc
    exact hc

/-- The superpages that are not reserved as a whole are part of the map. -/
theorem Inv.below (h : Inv n m) (hi : i < 1024) (hn : i * 0x400000 < n)
    (ho : (m.supers i).owner ≠ O_RESERVED) : (i + 1) * 0x400000 ≤ m.memHigh := by
  have hagree := h.agree i hi hn
  by_contra hlt
  -- the last page of the superpage has no entry in the map
  have hlast : i * 1024 + 1023 ∈ pagesOf i := by
    rw [mem_pagesOf]
    omega
  obtain ⟨k, hk⟩ := h.aligned
  have hres := h.high (i * 1024 + 1023) (by omega)
  by_cases hfree : (m.supers i).owner = O_FREE
  · have := hagree.free hfree _ hlast
    rw [hres] at this
    exact free_ne_reserved this.symm
  · obtain e | e := hagree.exclusive hfree ho _ hlast
    · rw [hres] at e
      exact free_ne_reserved e.symm
    · rw [hres] at e
      exact ho e.symm

/-! ## What the functions write -/

section
variable {addr amount : Nat} {t : Owner}

theorem quotaAllocMem_fst : (m.quotaAllocMem t addr amount).1 = m.quotaCheckMem t addr amount := by
  simp only [quotaAllocMem, quotaCheckMem]
  split
  · split
    · rename_i h
      exact h.symm
    · rename_i h
      simpa using h
  · split
    · rename_i h
      exact h.symm
    · rename_i h
      simpa using h

/-- Charging a quota leaves the map alone. -/
theorem quotaAllocMem_map : (m.quotaAllocMem t addr amount).2.pages = m.pages ∧
    (m.quotaAllocMem t addr amount).2.supers = m.supers ∧
    (m.quotaAllocMem t addr amount).2.memHigh = m.memHigh := by
  simp only [quotaAllocMem]
  split <;> split <;> exact ⟨rfl, rfl, rfl⟩

/-- The owners from `O_USER` on are charged, the others are not asked. -/
theorem charge_cases {r : Bool × Memmap}
    (hr : (if O_USER ≤ t then m.quotaAllocMem t addr amount else (true, m)) = r) :
    r.2.pages = m.pages ∧ r.2.supers = m.supers ∧ r.2.memHigh = m.memHigh ∧
      (r.1 = false → O_USER ≤ t ∧ m.quotaCheckMem t addr amount = false) ∧
      (r.1 = true → O_USER ≤ t → m.quotaCheckMem t addr amount = true) := by
  subst hr
  split
  · rename_i h
    obtain ⟨hp, hs, hm⟩ := @quotaAllocMem_map m addr amount t
    refine ⟨hp, hs, hm, fun e => ⟨h, ?_⟩, fun e _ => ?_⟩
    · rw [← quotaAllocMem_fst, e]
    · rw [← quotaAllocMem_fst, e]
  · rename_i h
    exact ⟨rfl, rfl, rfl, nofun, fun _ e => absurd e h⟩

theorem quotaFreeMem_snd : (m.quotaFreeMem t addr amount).2 = m := by
  simp only [quotaFreeMem]
  split <;> rfl

theorem quotaCheckMem_congr (hq : m'.quota = m.quota) (hm : m'.memHigh = m.memHigh) :
    m'.quotaCheckMem t addr amount = m.quotaCheckMem t addr amount := by
  simp only [quotaCheckMem, hq, hm]

end

/-- The pages and superpages of `m'` are those of `m` with the given entries. -/
structure Wrote (m m' : Memmap) (pages : Nat → Owner) (supers : Nat → Superpage) : Prop where
  pages : m'.pages = pages
  supers : m'.supers = supers
  memHigh : m'.memHigh = m.memHigh

theorem forall_range_iff {P : Nat → Prop} :
    (∀ j < 1024, P (i * 1024 + j)) ↔ ∀ p ∈ pagesOf i, P p := by
  constructor
  · intro h p hp
    rw [mem_pagesOf] at hp
    have hj := h (p - i * 1024) (by omega)
    rwa [Nat.add_sub_cancel' (by omega)] at hj
  · intro h j hj
    exact h _ (mem_pagesOf.mpr (by omega))

theorem wholeSuper_iff : m.wholeSuper i o = true ↔ ∀ p ∈ pagesOf i, m.pages p = o := by
  rw [← forall_range_iff]
  simp [wholeSuper]

theorem exclusive_iff :
    m.exclusive i o = true ↔ ∀ p ∈ pagesOf i, m.pages p = O_FREE ∨ m.pages p = o := by
  rw [← forall_range_iff]
  simp [Memmap.exclusive]

/-- The outcome of `memmap_set_page` for the page `p` in the superpage `i`. -/
theorem memmapSetPage_cases (m : Memmap) (a : Nat) (o : Owner) :
    (∃ b, m.memmapSetPage a o = (b, m)) ∨
    (a < m.memHigh ∧ a / 0x400000 < 1024 ∧ m.pages (a / 4096) ≠ o ∧
      ((m.supers (a / 0x400000)).owner = O_FREE ∨ (m.supers (a / 0x400000)).owner = O_RESERVED) ∧
      ∃ m', m.memmapSetPage a o = (true, m') ∧ Wrote m m' (Function.update m.pages (a / 4096) o)
        (Function.update m.supers (a / 0x400000)
          ⟨decr (m.supers (a / 0x400000)).freePages, O_RESERVED⟩)) := by
  unfold memmapSetPage
  dsimp only [L4_PAGESIZE, L4_SUPERPAGESIZE, SUPERPAGE_MAX]
  by_cases h₁ : 1024 ≤ a / 0x400000
  · exact .inl ⟨_, if_pos h₁⟩
  by_cases h₂ : m.memHigh ≤ a
  · exact .inl ⟨_, by rw [if_neg h₁, if_pos h₂]⟩
  by_cases h₃ : m.pages (a / 4096) = o
  · exact .inl ⟨_, by rw [if_neg h₁, if_neg h₂, if_pos h₃]⟩
  by_cases h₄ : (m.supers (a / 0x400000)).owner ≠ O_FREE ∧ (m.supers (a / 0x400000)).owner ≠ O_RESERVED
  · exact .inl ⟨_, by rw [if_neg h₁, if_neg h₂, if_neg h₃, if_pos h₄]⟩
  refine .inr ⟨Nat.not_le.mp h₂, Nat.not_le.mp h₁, h₃, by tauto, ?_⟩
  rw [if_neg h₁, if_neg h₂, if_neg h₃, if_neg h₄]
  exact ⟨_, rfl, rfl, rfl, rfl⟩

/-- The outcome of `memmap_free_page`. -/
theorem memmapFreePage_cases (m : Memmap) (a : Nat) (o : Owner) :
    (∃ b, m.memmapFreePage a o = (b, m)) ∨
    (a < m.memHigh ∧ a / 0x400000 < 1024 ∧ m.pages (a / 4096) = o ∧ o ≠ O_FREE ∧
      (m.supers (a / 0x400000)).owner = O_RESERVED ∧
      ∃ m', m.memmapFreePage a o = (true, m') ∧
        Wrote m m' (Function.update m.pages (a / 4096) O_FREE)
          (Function.update m.supers (a / 0x400000)
            ⟨incr (m.supers (a / 0x400000)).freePages,
              if incr (m.supers (a / 0x400000)).freePages = 1024 then O_FREE else O_RESERVED⟩)) := by
  unfold memmapFreePage
  dsimp only [L4_PAGESIZE, L4_SUPERPAGESIZE, SUPERPAGE_MAX, pagesPerSuper]
  by_cases h₁ : 1024 ≤ a / 0x400000
  · exact .inl ⟨_, if_pos h₁⟩
  by_cases h₂ : (m.supers (a / 0x400000)).owner = O_FREE
  · exact .inl ⟨_, by rw [if_neg h₁, if_pos h₂]⟩
  by_cases h₃ : (m.supers (a / 0x400000)).owner ≠ O_RESERVED
  · exact .inl ⟨_, by rw [if_neg h₁, if_neg h₂, if_pos h₃]⟩
  by_cases h₄ : m.memHigh ≤ a
  · exact .inl ⟨_, by rw [if_neg h₁, if_neg h₂, if_neg h₃, if_pos h₄]⟩
  by_cases h₅ : m.pages (a / 4096) = O_FREE
  · exact .inl ⟨_, by rw [if_neg h₁, if_neg h₂, if_neg h₃, if_neg h₄, if_pos h₅]⟩
  by_cases h₆ : m.pages (a / 4096) ≠ o
  · exact .inl ⟨_, by rw [if_neg h₁, if_neg h₂, if_neg h₃, if_neg h₄, if_neg h₅, if_pos h₆]⟩
  have h₃ := not_not.mp h₃
  have h₆ := not_not.mp h₆
  have hquota : (if O_USER ≤ o then (m.quotaFreeMem o a 4096).2 else m) = m := by
    split
    · exact quotaFreeMem_snd
    · rfl
  refine .inr ⟨Nat.not_le.mp h₄, Nat.not_le.mp h₁, h₆, h₆ ▸ h₅, h₃, ?_⟩
  rw [if_neg h₁, if_neg h₂, if_neg (not_not.mpr h₃), if_neg h₄, if_neg h₅, if_neg (not_not.mpr h₆),
    hquota]
  refine ⟨_, rfl, rfl, ?_, rfl⟩
  simp only [setSuper, setPageOwner, h₃, ite_self]

/-- The outcome of `memmap_alloc_page`. A refused quota leaves the superpage marked as reserved. -/
theorem memmapAllocPage_cases (m : Memmap) (a : Nat) (o : Owner) :
    (∃ b, m.memmapAllocPage a o = (b, m) ∧
      (b = true → a < m.memHigh ∧ a / 0x400000 < 1024 ∧
        (m.pages (a / 4096) = o ∨ (m.supers (a / 0x400000)).owner = o)) ∧
      (b = false → m.memHigh ≤ a ∨ 1024 ≤ a / 0x400000 ∨ m.pages (a / 4096) ≠ O_FREE ∨
        ((m.supers (a / 0x400000)).owner ≠ O_FREE ∧ (m.supers (a / 0x400000)).owner ≠ O_RESERVED))) ∨
    (a < m.memHigh ∧ a / 0x400000 < 1024 ∧ m.pages (a / 4096) = O_FREE ∧ o ≠ O_FREE ∧
      ((m.supers (a / 0x400000)).owner = O_FREE ∨ (m.supers (a / 0x400000)).owner = O_RESERVED) ∧
      ((O_USER ≤ o ∧ m.quotaCheckMem o a 4096 = false ∧
          ∃ m', m.memmapAllocPage a o = (false, m') ∧ Wrote m m' m.pages
            (Function.update m.supers (a / 0x400000)
              ⟨(m.supers (a / 0x400000)).freePages, O_RESERVED⟩)) ∨
        ((O_USER ≤ o → m.quotaCheckMem o a 4096 = true) ∧
          ∃ m' w, m.memmapAllocPage a o = (true, m') ∧
            (w = O_RESERVED ∨
              w = o ∧ ∀ p ∈ pagesOf (a / 0x400000), Function.update m.pages (a / 4096) o p = o) ∧
            Wrote m m' (Function.update m.pages (a / 4096) o)
              (Function.update m.supers (a / 0x400000)
                ⟨decr (m.supers (a / 0x400000)).freePages, w⟩)))) := by
  unfold memmapAllocPage
  dsimp only [L4_PAGESIZE, L4_SUPERPAGESIZE, SUPERPAGE_MAX]
  by_cases h₁ : 1024 ≤ a / 0x400000
  · exact .inl ⟨false, if_pos h₁, nofun, fun _ => .inr (.inl h₁)⟩
  by_cases h₂ : m.memHigh ≤ a
  · exact .inl ⟨false, by rw [if_neg h₁, if_pos h₂], nofun, fun _ => .inl h₂⟩
  by_cases h₃ : m.pages (a / 4096) = o ∨ (m.supers (a / 0x400000)).owner = o
  · exact .inl ⟨true, by rw [if_neg h₁, if_neg h₂, if_pos h₃],
      fun _ => ⟨Nat.not_le.mp h₂, Nat.not_le.mp h₁, h₃⟩, nofun⟩
  by_cases h₄ : m.pages (a / 4096) ≠ O_FREE
  · exact .inl ⟨false, by rw [if_neg h₁, if_neg h₂, if_neg h₃, if_pos h₄], nofun,
      fun _ => .inr (.inr (.inl h₄))⟩
  by_cases h₅ : (m.supers (a / 0x400000)).owner ≠ O_FREE ∧
      (m.supers (a / 0x400000)).owner ≠ O_RESERVED
  · exact .inl ⟨false, by rw [if_neg h₁, if_neg h₂, if_neg h₃, if_neg h₄, if_pos h₅], nofun,
      fun _ => .inr (.inr (.inr h₅))⟩
  have hfree := not_not.mp h₄
  refine .inr ⟨Nat.not_le.mp h₂, Nat.not_le.mp h₁, hfree, fun e => h₃ (.inl (hfree.trans e.symm)),
    by tauto, ?_⟩
  rw [if_neg h₁, if_neg h₂, if_neg h₃, if_neg h₄, if_neg h₅]
  have hcheck : (m.setSuper (a / 0x400000) ⟨(m.supers (a / 0x400000)).freePages,
      O_RESERVED⟩).quotaCheckMem o a 4096 = m.quotaCheckMem o a 4096 := quotaCheckMem_congr rfl rfl
  generalize hm₀ : m.setSuper (a / 0x400000) ⟨(m.supers (a / 0x400000)).freePages, O_RESERVED⟩ = m₀
    at hcheck ⊢
  generalize hr : (if O_USER ≤ o then m₀.quotaAllocMem o a 4096 else (true, m₀)) = r
  obtain ⟨hpages, hsupers, hhigh, hno, hyes⟩ := charge_cases hr
  obtain ⟨ok, m₁⟩ := r
  rw [hcheck] at hno hyes
  subst hm₀
  dsimp only at hpages hsupers hhigh hno hyes ⊢
  cases ok with
  | false =>
    obtain ⟨ho, hq⟩ := hno rfl
    exact .inl ⟨ho, hq, m₁, rfl, hpages, hsupers, hhigh⟩
  | true =>
    refine .inr ⟨hyes rfl, ?_⟩
    have hsupers' : ∀ s, Function.update m₁.supers (a / 0x400000) s =
        Function.update m.supers (a / 0x400000) s := by
      intro s
      rw [hsupers]
      exact Function.update_idem ..
    rw [if_neg (by simp)]
    split
    · rename_i hwhole
      refine ⟨_, o, rfl, .inr ⟨rfl, fun p hp => ?_⟩, congrArg (Function.update · _ _) hpages, ?_, hhigh⟩
      · have hall := wholeSuper_iff.mp hwhole.2 p hp
        simp only [setPageOwner, setSuper] at hall
        rw [hpages] at hall
        exact hall
      · exact (Function.update_idem ..).trans (hsupers' _)
    · exact ⟨_, O_RESERVED, rfl, .inl rfl, congrArg (Function.update · _ _) hpages, hsupers' _, hhigh⟩

/-- The outcome of `memmap_free_superpage`. -/
theorem memmapFreeSuperpage_cases (m : Memmap) (a : Nat) (o : Owner) :
    (∃ b, m.memmapFreeSuperpage a o = (b, m)) ∨
    (a / 0x400000 < 1024 ∧ (m.supers (a / 0x400000)).owner = o ∧ o ≠ O_FREE ∧
      ∃ m', m.memmapFreeSuperpage a o = (true, m') ∧
        Wrote m m' m.pages (Function.update m.supers (a / 0x400000) ⟨1024, O_FREE⟩)) := by
  unfold memmapFreeSuperpage
  dsimp only [L4_SUPERPAGESIZE, SUPERPAGE_MAX, pagesPerSuper]
  by_cases h₁ : 1024 ≤ a / 0x400000
  · exact .inl ⟨_, if_pos h₁⟩
  by_cases h₂ : (m.supers (a / 0x400000)).owner = O_FREE
  · exact .inl ⟨_, by rw [if_neg h₁, if_pos h₂]⟩
  by_cases h₃ : (m.supers (a / 0x400000)).owner ≠ o
  · exact .inl ⟨_, by rw [if_neg h₁, if_neg h₂, if_pos h₃]⟩
  have h₃ := not_not.mp h₃
  have hquota : (if O_USER ≤ o then (m.quotaFreeMem o a 0x400000).2 else m) = m := by
    split
    · exact quotaFreeMem_snd
    · rfl
  refine .inr ⟨Nat.not_le.mp h₁, h₃, h₃ ▸ h₂, ?_⟩
  rw [if_neg h₁, if_neg h₂, if_neg (not_not.mpr h₃), hquota]
  exact ⟨_, rfl, rfl, rfl, rfl⟩

/-- The outcome of `memmap_alloc_superpage`. -/
theorem memmapAllocSuperpage_cases (m : Memmap) (a : Nat) (o : Owner) :
    (∃ b m', m.memmapAllocSuperpage a o = (b, m') ∧ Wrote m m' m.pages m.supers ∧
      (b = true → a / 0x400000 < 1024 ∧ (m.supers (a / 0x400000)).owner = o)) ∨
    (a / 0x400000 < 1024 ∧ ∃ m', m.memmapAllocSuperpage a o = (true, m') ∧
      ((m.supers (a / 0x400000)).owner = O_FREE ∧
          (O_USER ≤ o → m.quotaCheckMem o (a - a % 0x400000) 0x400000 = true) ∧
          Wrote m m' m.pages (Function.update m.supers (a / 0x400000)
            ⟨(m.supers (a / 0x400000)).freePages, o⟩) ∨
        (m.supers (a / 0x400000)).owner = O_RESERVED ∧ a - a % 0x400000 < m.memHigh ∧
          (∀ p ∈ pagesOf (a / 0x400000), m.pages p = O_FREE ∨ m.pages p = o) ∧
          Wrote m m' (fun p => if p / 1024 = a / 0x400000 then O_FREE else m.pages p)
            (Function.update m.supers (a / 0x400000)
              ⟨(m.supers (a / 0x400000)).freePages, o⟩))) := by
  unfold memmapAllocSuperpage
  dsimp only [L4_SUPERPAGESIZE, SUPERPAGE_MAX, pagesPerSuper]
  have hsame : Wrote m m m.pages m.supers := ⟨rfl, rfl, rfl⟩
  by_cases h₁ : 1024 ≤ a / 0x400000
  · exact .inl ⟨false, m, if_pos h₁, hsame, nofun⟩
  have hlt := Nat.not_le.mp h₁
  by_cases h₂ : (m.supers (a / 0x400000)).owner = o
  · exact .inl ⟨true, m, by rw [if_neg h₁, if_pos h₂], hsame, fun _ => ⟨hlt, h₂⟩⟩
  rw [if_neg h₁, if_neg h₂]
  by_cases h₃ : (m.supers (a / 0x400000)).owner ≠ O_FREE
  · rw [if_pos h₃]
    by_cases h₄ : (m.supers (a / 0x400000)).owner ≠ O_RESERVED
    · exact .inl ⟨false, m, if_pos h₄, hsame, nofun⟩
    by_cases h₅ : m.memHigh ≤ a - a % 0x400000
    · exact .inl ⟨false, m, by rw [if_neg h₄, if_pos h₅], hsame, nofun⟩
    by_cases h₆ : (!m.exclusive (a / 0x400000) o) = true
    · exact .inl ⟨false, m, by rw [if_neg h₄, if_neg h₅, if_pos h₆], hsame, nofun⟩
    rw [if_neg h₄, if_neg h₅, if_neg h₆]
    have hexcl := exclusive_iff.mp (by simpa using h₆)
    have hgrant : ∀ m₁ : Memmap, Wrote m m₁ m.pages m.supers →
        Wrote m ((m₁.clearPages (a / 0x400000)).setSuper (a / 0x400000)
            { (m.supers (a / 0x400000)) with owner := o })
          (fun p => if p / 1024 = a / 0x400000 then O_FREE else m.pages p)
          (Function.update m.supers (a / 0x400000) ⟨(m.supers (a / 0x400000)).freePages, o⟩) := by
      intro m₁ h
      refine ⟨funext fun p => ?_, congrArg (Function.update · _ _) h.supers, h.memHigh⟩
      show (if p / 1024 = a / 0x400000 then O_FREE else m₁.pages p) = _
      rw [h.pages]
    by_cases hu : O_USER ≤ o
    · rw [if_pos hu]
      have hfree : (if m.alreadyHave (a / 0x400000) o ≠ 0 then
          (m.quotaFreeMem o (a - a % 0x400000) (m.alreadyHave (a / 0x400000) o)).2 else m) = m := by
        split
        · exact quotaFreeMem_snd
        · rfl
      rw [hfree]
      have hmap := @quotaAllocMem_map m (a - a % 0x400000) 0x400000 o
      generalize m.quotaAllocMem o (a - a % 0x400000) 0x400000 = r at hmap ⊢
      obtain ⟨ok, m₁⟩ := r
      have hwrote : Wrote m m₁ m.pages m.supers := ⟨hmap.1, hmap.2.1, hmap.2.2⟩
      cases ok with
      | false =>
        refine .inl ⟨false, _, rfl, ?_, nofun⟩
        split
        · exact ⟨hwrote.pages, hwrote.supers, hwrote.memHigh⟩
        · exact hwrote
      | true =>
        exact .inr ⟨hlt, _, rfl, .inr
          ⟨not_not.mp h₄, Nat.not_le.mp h₅, hexcl, hgrant m₁ hwrote⟩⟩
    · rw [if_neg hu]
      exact .inr ⟨hlt, _, rfl, .inr ⟨not_not.mp h₄, Nat.not_le.mp h₅, hexcl, hgrant m hsame⟩⟩
  · rw [if_neg h₃]
    have h₃ := not_not.mp h₃
    generalize hr : (if O_USER ≤ o then _ else (true, m)) = r
    obtain ⟨hpages, hsupers, hhigh, hno, hyes⟩ := charge_cases hr
    obtain ⟨ok, m₁⟩ := r
    dsimp only at hpages hsupers hhigh hno hyes ⊢
    cases ok with
    | false => exact .inl ⟨false, m₁, rfl, ⟨hpages, hsupers, hhigh⟩, nofun⟩
    | true =>
      refine .inr ⟨hlt, _, rfl, .inl ⟨h₃, hyes rfl, hpages, ?_, hhigh⟩⟩
      exact congrArg (Function.update · _ _) hsupers

end Memmap

end L4env.Roottask
