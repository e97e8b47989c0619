import L4env.DMphys.Pages

/-!
# The area lists

`AreaLists s L` says that `area_list` of every pool `P` links the descriptors `L P`, sorted by
address, disjoint, page aligned and not empty. `AreaInv s A` hides the order: `A P` is the set of
areas of pool `P`. `__add_area` and `__remove_area` add a descriptor to this set and take one out.
-/

namespace L4env.DMphys

/-- The ranges a page area may have: whole pages, at least one, that end below `2 ^ 32`. -/
structure PageArea (addr size : Nat) : Prop where
  addr_aligned : addr % pageSize = 0
  size_aligned : size % pageSize = 0
  pos : 0 < size
  bound : addr + size < 4294967296

structure AreaLists (s : State) (L : Nat → List Ptr) : Prop where
  links : ∀ P, IsDList s.areaNext s.areaPrev (s.pools P).areaList (L P)
  nodup : ∀ P, (L P).Nodup
  disj : ∀ P Q a, a ∈ L P → a ∈ L Q → P = Q
  sorted : ∀ P, (L P).Pairwise fun a b => s.addr a + s.size a ≤ s.addr b
  range : ∀ P, ∀ a ∈ L P, PageArea (s.addr a) (s.size a)

/-- The areas of every pool, in no order. -/
def AreaInv (s : State) (A : Nat → Set Ptr) : Prop :=
  ∃ L, AreaLists s L ∧ ∀ P a, a ∈ L P ↔ a ∈ A P

/-- The areas of pool `P` after the descriptor `a` was added to it. -/
def addTo (A : Nat → Set Ptr) (P : Nat) (a : Ptr) : Nat → Set Ptr :=
  fun Q => {b | b ∈ A Q ∨ Q = P ∧ b = a}

/-- The areas of every pool without the descriptor `a`. -/
def without (A : Nat → Set Ptr) (a : Ptr) : Nat → Set Ptr := fun Q => {b | b ∈ A Q ∧ b ≠ a}

@[simp] theorem mem_addTo {A : Nat → Set Ptr} : b ∈ addTo A P a Q ↔ b ∈ A Q ∨ Q = P ∧ b = a :=
  Iff.rfl

@[simp] theorem mem_without {A : Nat → Set Ptr} : b ∈ without A a Q ↔ b ∈ A Q ∧ b ≠ a := Iff.rfl

section
variable {s : State} {L : Nat → List Ptr} {A : Nat → Set Ptr} {P : Nat} {a b : Ptr}

/-! ## Positions in a sorted list -/

theorem AreaLists.pos (H : AreaLists s L) (ha : a ∈ L P) : 0 < s.size a := (H.range P a ha).pos

theorem AreaLists.split (H : AreaLists s L) (h : L P = l₁ ++ a :: l₂) :
    (∀ b ∈ l₁, s.addr b + s.size b ≤ s.addr a) ∧ ∀ b ∈ l₂, s.addr a + s.size a ≤ s.addr b := by
  have hs := H.sorted P
  rw [h, List.pairwise_append] at hs
  exact ⟨fun b hb => hs.2.2 b hb a (by simp), (List.pairwise_cons.mp hs.2.1).1⟩

/-- Two areas of a pool do not overlap. -/
theorem AreaLists.apart (H : AreaLists s L) (ha : a ∈ L P) (hb : b ∈ L P) (hne : a ≠ b) :
    s.addr a + s.size a ≤ s.addr b ∨ s.addr b + s.size b ≤ s.addr a := by
  obtain ⟨l₁, l₂, h⟩ := List.append_of_mem ha
  obtain ⟨h1, h2⟩ := H.split h
  rw [h] at hb
  simp only [List.mem_append, List.mem_cons] at hb
  rcases hb with hb | rfl | hb
  · exact .inr (h1 b hb)
  · exact absurd rfl hne
  · exact .inl (h2 b hb)

theorem AreaInv.range (H : AreaInv s A) (ha : a ∈ A P) : PageArea (s.addr a) (s.size a) := by
  obtain ⟨L, H, hm⟩ := H
  exact H.range P a ((hm P a).mpr ha)

theorem AreaInv.apart (H : AreaInv s A) (ha : a ∈ A P) (hb : b ∈ A P) (hne : a ≠ b) :
    s.addr a + s.size a ≤ s.addr b ∨ s.addr b + s.size b ≤ s.addr a := by
  obtain ⟨L, H, hm⟩ := H
  exact H.apart ((hm P a).mpr ha) ((hm P b).mpr hb) hne

theorem AreaInv.disj (H : AreaInv s A) (ha : a ∈ A P) (hb : a ∈ A Q) : P = Q := by
  obtain ⟨L, H, hm⟩ := H
  exact H.disj P Q a ((hm P a).mpr ha) ((hm Q a).mpr hb)

/-- The next area of the list is the one with the least address past `a`. -/
theorem AreaInv.next (H : AreaInv s A) (ha : a ∈ A P) (hn : s.areaNext a = some b) :
    b ∈ A P ∧ s.addr a + s.size a ≤ s.addr b ∧
      ∀ c ∈ A P, s.addr a + s.size a ≤ s.addr c → s.addr b ≤ s.addr c := by
  obtain ⟨L, H, hm⟩ := H
  obtain ⟨l₁, l₂, h⟩ := List.append_of_mem ((hm P a).mpr ha)
  have hlink := (H.links P).2
  rw [h] at hlink
  have hhead : l₂.head? = some b := by
    rw [hlink.middle.2, Option.or_none] at hn; exact hn
  obtain ⟨l₂, rfl⟩ : ∃ l, l₂ = b :: l := by
    cases l₂ with
    | nil => simp at hhead
    | cons x l => simp at hhead; exact ⟨l, by rw [hhead]⟩
  have hb : b ∈ L P := by rw [h]; simp
  refine ⟨(hm P b).mp hb, (H.split h).2 b (by simp), fun c hc hac => ?_⟩
  rw [← hm, h] at hc
  have h' : L P = (l₁ ++ [a]) ++ b :: l₂ := by simp [h]
  simp only [List.mem_append, List.mem_cons] at hc
  have hcpos : ∀ c ∈ L P, 0 < s.size c := fun c hc => H.pos hc
  rcases hc with hc | rfl | rfl | hc
  · have := (H.split h).1 c hc
    have := hcpos c (by simp [h, hc])
    have := hcpos a (by simp [h])
    omega
  · have := hcpos c (by simp [h])
    omega
  · exact le_rfl
  · have := (H.split h').2 c hc
    omega

theorem AreaInv.next_none (H : AreaInv s A) (ha : a ∈ A P) (hn : s.areaNext a = none) :
    ∀ c ∈ A P, s.addr c ≤ s.addr a := by
  obtain ⟨L, H, hm⟩ := H
  obtain ⟨l₁, l₂, h⟩ := List.append_of_mem ((hm P a).mpr ha)
  have hlink := (H.links P).2
  rw [h] at hlink
  have hnil : l₂ = [] := by
    rw [hlink.middle.2, Option.or_none] at hn; exact List.head?_eq_none_iff.mp hn
  subst hnil
  intro c hc
  rw [← hm, h] at hc
  simp only [List.mem_append, List.mem_singleton] at hc
  rcases hc with hc | rfl
  · have := (H.split h).1 c hc
    omega
  · exact le_rfl

/-- The previous area of the list is the one with the greatest address before `a`. -/
theorem AreaInv.prev (H : AreaInv s A) (ha : a ∈ A P) (hn : s.areaPrev a = some b) :
    b ∈ A P ∧ s.addr b + s.size b ≤ s.addr a ∧
      ∀ c ∈ A P, s.addr c + s.size c ≤ s.addr a → s.addr c ≤ s.addr b := by
  obtain ⟨L, H, hm⟩ := H
  obtain ⟨l₁, l₂, h⟩ := List.append_of_mem ((hm P a).mpr ha)
  have hlink := (H.links P).2
  rw [h] at hlink
  have hlast : l₁.getLast? = some b := by
    rw [hlink.middle.1, Option.or_none] at hn; exact hn
  obtain ⟨l₁, rfl⟩ : ∃ l, l₁ = l ++ [b] := by
    rcases List.eq_nil_or_concat l₁ with rfl | ⟨l, x, rfl⟩
    · simp at hlast
    · simp at hlast; exact ⟨l, by simp [hlast]⟩
  have hb : b ∈ L P := by rw [h]; simp
  refine ⟨(hm P b).mp hb, (H.split h).1 b (by simp), fun c hc hca => ?_⟩
  rw [← hm, h] at hc
  have h' : L P = l₁ ++ b :: a :: l₂ := by simp [h]
  simp only [List.mem_append, List.mem_cons, List.not_mem_nil, or_false] at hc
  have hcpos : ∀ c ∈ L P, 0 < s.size c := fun c hc => H.pos hc
  rcases hc with (hc | rfl) | rfl | hc
  · have := (H.split h').1 c hc
    omega
  · exact le_rfl
  · have := hcpos c (by simp [h])
    omega
  · have := (H.split h).2 c hc
    have := hcpos c (by simp [h, hc])
    have := hcpos a (by simp [h])
    omega

theorem AreaInv.prev_none (H : AreaInv s A) (ha : a ∈ A P) (hn : s.areaPrev a = none) :
    ∀ c ∈ A P, s.addr a ≤ s.addr c := by
  obtain ⟨L, H, hm⟩ := H
  obtain ⟨l₁, l₂, h⟩ := List.append_of_mem ((hm P a).mpr ha)
  have hlink := (H.links P).2
  rw [h] at hlink
  have hnil : l₁ = [] := by
    rw [hlink.middle.1, Option.or_none] at hn; exact List.getLast?_eq_none_iff.mp hn
  subst hnil
  intro c hc
  rw [← hm, h] at hc
  simp only [List.nil_append, List.mem_cons] at hc
  rcases hc with rfl | hc
  · exact le_rfl
  · have := (H.split h).2 c hc
    omega

/-! ## Insertion -/

/-- The state after the links of the area list of pool `P` were written. -/
def State.withAreaList (s : State) (P : Nat) (an ap : Ptr → Option Ptr) (al : Option Ptr) : State :=
  { s with areaNext := an, areaPrev := ap }.setPool P { s.pools P with areaList := al }

section
variable (s : State) (P : Nat) (an ap : Ptr → Option Ptr) (al : Option Ptr)

@[simp] theorem State.withAreaList_addr : (s.withAreaList P an ap al).addr = s.addr := rfl
@[simp] theorem State.withAreaList_size : (s.withAreaList P an ap al).size = s.size := rfl
@[simp] theorem State.withAreaList_used : (s.withAreaList P an ap al).used = s.used := rfl
@[simp] theorem State.withAreaList_dsNext : (s.withAreaList P an ap al).dsNext = s.dsNext := rfl
@[simp] theorem State.withAreaList_freePrev : (s.withAreaList P an ap al).freePrev = s.freePrev := rfl
@[simp] theorem State.withAreaList_freeNext : (s.withAreaList P an ap al).freeNext = s.freeNext := rfl
@[simp] theorem State.withAreaList_live : (s.withAreaList P an ap al).live = s.live := rfl
@[simp] theorem State.withAreaList_memPool : (s.withAreaList P an ap al).memPool = s.memPool := rfl
@[simp] theorem State.withAreaList_numFree : (s.withAreaList P an ap al).numFree = s.numFree := rfl
@[simp] theorem State.withAreaList_freedAreas : (s.withAreaList P an ap al).freedAreas = s.freedAreas := rfl
@[simp] theorem State.withAreaList_slabPages : (s.withAreaList P an ap al).slabPages = s.slabPages := rfl
@[simp] theorem State.withAreaList_slab : (s.withAreaList P an ap al).slab = s.slab := rfl

theorem State.withAreaList_pools : (s.withAreaList P an ap al).pools =
    Function.update s.pools P { s.pools P with areaList := al } := rfl

@[simp] theorem State.withAreaList_free (Q : Nat) :
    ((s.withAreaList P an ap al).pools Q).free = (s.pools Q).free := by
  by_cases h : Q = P
  · subst h; simp [State.withAreaList_pools]
  · simp [State.withAreaList_pools, h]

@[simp] theorem State.withAreaList_reserved (Q : Nat) :
    ((s.withAreaList P an ap al).pools Q).reserved = (s.pools Q).reserved := by
  by_cases h : Q = P
  · subst h; simp [State.withAreaList_pools]
  · simp [State.withAreaList_pools, h]

@[simp] theorem State.withAreaList_freeList (Q : Nat) :
    ((s.withAreaList P an ap al).pools Q).freeList = (s.pools Q).freeList := by
  by_cases h : Q = P
  · subst h; simp [State.withAreaList_pools]
  · simp [State.withAreaList_pools, h]

end

theorem AreaLists.relink (H : AreaLists s L) {l : List Ptr} (hl : IsDList an ap al l)
    (hnd : l.Nodup) (hdisj : ∀ b ∈ l, ∀ Q, Q ≠ P → b ∉ L Q)
    (hsort : l.Pairwise fun a b => s.addr a + s.size a ≤ s.addr b)
    (hrange : ∀ b ∈ l, PageArea (s.addr b) (s.size b))
    (hframe : ∀ Q, Q ≠ P → ∀ b ∈ L Q, an b = s.areaNext b ∧ ap b = s.areaPrev b) :
    AreaLists (s.withAreaList P an ap al) (Function.update L P l) := by
  constructor
  · intro Q
    by_cases hQ : Q = P
    · subst hQ; simpa [State.withAreaList, State.setPool] using hl
    · have h := H.links Q
      simp only [State.withAreaList, State.setPool, Function.update_of_ne hQ]
      exact ⟨h.1, h.2.congr (fun b hb => (hframe Q hQ b hb).1) fun b hb => (hframe Q hQ b hb).2⟩
  · intro Q
    by_cases hQ : Q = P
    · subst hQ; simpa using hnd
    · simpa [hQ] using H.nodup Q
  · intro Q R b hb hb'
    by_cases hQ : Q = P <;> by_cases hR : R = P
    · rw [hQ, hR]
    · subst hQ; simp [hR] at hb hb'; exact absurd hb' (hdisj b hb R hR)
    · subst hR; simp [hQ] at hb hb'; exact absurd hb (hdisj b hb' Q hQ)
    · simp [hQ, hR] at hb hb'; exact H.disj Q R b hb hb'
  · intro Q
    by_cases hQ : Q = P
    · subst hQ; simpa using hsort
    · simpa [hQ] using H.sorted Q
  · intro Q
    by_cases hQ : Q = P
    · subst hQ; simpa using hrange
    · simpa [hQ] using H.range Q

/-- `__add_area` links a new area that overlaps no area of the pool. -/
theorem AreaLists.addArea (H : AreaLists s L) (hnew : ∀ Q, a ∉ L Q)
    (hr : PageArea (s.addr a) (s.size a))
    (hap : ∀ b ∈ L P, s.addr b + s.size b ≤ s.addr a ∨ s.addr a + s.size a ≤ s.addr b)
    (hf : (L P).length < s.listFuel) :
    ∃ an ap al l, s.addArea P a = .ok (s.withAreaList P an ap al) ∧ l.Perm (a :: L P) ∧
      AreaLists (s.withAreaList P an ap al) (Function.update L P l) := by
  have hlt : s.addr a + s.size a < 4294967296 := hr.bound
  have hpos := hr.pos
  have hsum : ∀ b ∈ L P, Word.add (s.addr b) (s.size b) = s.addr b + s.size b :=
    fun b hb => Word.add_eq (H.range P b hb).bound
  have hother : ∀ Q, Q ≠ P → ∀ b ∈ L Q, b ≠ a ∧ b ∉ L P := by
    intro Q hQ b hb
    exact ⟨fun e => hnew Q (e ▸ hb), fun h => hQ (H.disj Q P b hb h)⟩
  have hnotP : ∀ b ∈ a :: L P, ∀ Q, Q ≠ P → b ∉ L Q := by
    intro b hb Q hQ hbQ
    have := hother Q hQ b hbQ
    simp_all
  have hrange : ∀ b ∈ a :: L P, PageArea (s.addr b) (s.size b) := by
    intro b hb
    rcases List.mem_cons.mp hb with rfl | hb
    · exact hr
    · exact H.range P b hb
  obtain ⟨hhead, hlink⟩ := H.links P
  have hnd := H.nodup P
  have hsort := H.sorted P
  unfold State.addArea
  rw [Word.add_eq hlt]
  cases hL : L P with
  | nil =>
    simp only [hL, List.head?_nil] at hhead
    refine ⟨_, _, some a, [a], by simp only [hhead]; rfl, by simp, ?_⟩
    refine H.relink ⟨rfl, ?_⟩ (by simp) (fun b hb => hnotP b (by simp_all)) (by simp)
      (fun b hb => hrange b (by simp_all)) ?_
    · simp
    · intro Q hQ b hb
      simp [(hother Q hQ b hb).1]
  | cons c l =>
    simp only [hL, List.head?_cons] at hhead
    simp only [hhead]
    split
    next hle =>
      refine ⟨_, _, some a, a :: L P, rfl, by simp [hL], ?_⟩
      refine H.relink ⟨rfl, ?_⟩ ?_ hnotP ?_ hrange ?_
      · refine hlink.cons_head (hnew P) ?_ (by simp [hL]) ?_ ?_ ?_ hnd
        · intro y hy
          have : y ≠ a := fun e => hnew P (e ▸ hy)
          simp [this]
        · intro y hy hyc
          have : y ≠ a := fun e => hnew P (e ▸ hy)
          have : y ≠ c := by rintro rfl; simp [hL] at hyc
          simp [*]
        · have : a ≠ c := fun e => hnew P (by simp [hL, e])
          simp [this]
        · intro y hy
          simp [hL] at hy
          simp [hy]
      · exact List.nodup_cons.mpr ⟨hnew P, hnd⟩
      · refine List.pairwise_cons.mpr ⟨fun b hb => ?_, hsort⟩
        rcases hap b hb with h | h
        · have := H.pos hb
          have : s.addr c ≤ s.addr b := by
            rw [hL] at hb hsort
            rcases List.mem_cons.mp hb with rfl | hb
            · exact le_rfl
            · have := (List.pairwise_cons.mp hsort).1 b hb
              omega
          omega
        · exact h
      · intro Q hQ b hb
        have hb' := hother Q hQ b hb
        have : b ≠ c := fun e => hb'.2 (by simp [hL, e])
        simp [*]
    next hlt' =>
      have hne : ∀ y ∈ L P, y ≠ a := fun y hy e => hnew P (e ▸ hy)
      have hlink' : Links (Function.update s.areaNext a none) (Function.update s.areaPrev a none)
          none (L P) none :=
        hlink.congr (fun y hy => by simp [hne y hy]) fun y hy => by simp [hne y hy]
      have hlen : l.length < s.listFuel := by simp [hL] at hf; omega
      obtain ⟨l₁, b, l₂, hsplit, hwalk, hbefore, hafter⟩ :=
        @Links.walkWhile_eq _ _ _ _ (fun b => decide (s.addr b < s.addr a)) _ _ _ (hL ▸ hlink') hlen
      have hfuel : ∀ x y, State.listFuel { s with areaPrev := x, areaNext := y } = s.listFuel :=
        fun _ _ => rfl
      simp only [hfuel, hwalk]
      have hLb : L P = l₁ ++ b :: l₂ := by rw [hL, hsplit]
      have hb : b ∈ L P := by simp [hLb]
      have hmid : Function.update s.areaNext a none b = l₂.head? := by
        have := (hLb ▸ hlink').middle.2
        simpa using this
      have hc : s.addr c + s.size c ≤ s.addr a := by
        rcases hap c (by simp [hL]) with h | h
        · exact h
        · exact absurd h hlt'
      have hba : s.addr b + s.size b ≤ s.addr a := by
        rcases hbefore b (by simp) with rfl | h
        · exact hc
        · simp at h
          rcases hap b hb with h' | h' <;> omega
      have hnx : ∀ y ∈ l₂.head?, s.addr a + s.size a ≤ s.addr y := by
        intro y hy
        have h := hafter y hy
        have hyP : y ∈ L P := by simp [hLb, List.mem_of_mem_head? hy]
        have := H.pos hyP
        simp at h
        rcases hap y hyP with h' | h' <;> omega
      have hover : l₂.head?.any (fun y => decide (s.addr y < s.addr a + s.size a)) = false := by
        cases h : l₂.head? with
        | none => rfl
        | some y => have := hnx y h; simpa using this
      rw [hmid, hsum b hb, hover, if_neg (by simp; omega)]
      have hperm : (l₁ ++ b :: a :: l₂).Perm (a :: L P) := by
        rw [hLb, show l₁ ++ b :: a :: l₂ = (l₁ ++ [b]) ++ a :: l₂ by simp]
        exact List.perm_middle.trans (by simp)
      refine ⟨Function.update (Function.update (Function.update s.areaNext a none) a l₂.head?) b
          (some a), Function.update (writeAt (Function.update s.areaPrev a none) l₂.head? (some a)) a
          (some b), some c, l₁ ++ b :: a :: l₂, ?_, hL ▸ hperm, ?_⟩
      · rw [State.withAreaList, State.setPool, ← hhead, Function.update_eq_self]; rfl
      refine H.relink ⟨?_, ?_⟩ ?_ ?_ ?_ ?_ ?_
      · have : (l₁ ++ b :: a :: l₂).head? = (c :: l).head? := by rw [hsplit]; cases l₁ <;> rfl
        simp [this]
      · exact (hLb ▸ hlink).insert_after_write (hLb ▸ hnd) (hLb ▸ hnew P)
      · exact hperm.nodup_iff.mpr (List.nodup_cons.mpr ⟨hnew P, hnd⟩)
      · exact fun y hy => hnotP y (hperm.mem_iff.mp hy)
      · -- everything before `b` ends before `b`, everything after it starts after the new area
        have hall := H.split hLb
        refine pairwise_insert_after (hLb ▸ hsort) ?_ hba ?_
        · intro y hy
          have := hall.1 y hy
          omega
        · cases hl₂ : l₂ with
          | nil => simp
          | cons z l₃ =>
            have hz := hnx z (by simp [hl₂])
            have hz' := (H.split (show L P = (l₁ ++ [b]) ++ z :: l₃ by simp [hLb, hl₂])).2
            intro y hy
            rcases List.mem_cons.mp hy with rfl | hy
            · exact hz
            · have := hz' y hy
              omega
      · exact fun y hy => hrange y (hperm.mem_iff.mp hy)
      · intro Q hQ y hy
        obtain ⟨hya, hyP⟩ := hother Q hQ y hy
        have hyb : y ≠ b := fun e => hyP (e ▸ hb)
        have hy2 : l₂.head? ≠ some y := fun e => hyP (by simp [hLb, List.mem_of_mem_head? e])
        rw [Function.update_of_ne hyb, Function.update_of_ne hya, Function.update_of_ne hya,
          Function.update_of_ne hya, writeAt_of_ne hy2, Function.update_of_ne hya]
        exact ⟨rfl, rfl⟩

/-! ## Removal -/

/-- `__remove_area` unlinks an area of the pool. -/
theorem AreaLists.removeArea (H : AreaLists s L) (ha : a ∈ L P) :
    ∃ an ap al, s.removeArea P a = .ok (s.withAreaList P an ap al) ∧
      AreaLists (s.withAreaList P an ap al) (Function.update L P ((L P).erase a)) := by
  obtain ⟨hhead, hlink⟩ := H.links P
  have hnd := H.nodup P
  have hsort := H.sorted P
  obtain ⟨l₁, l₂, hL⟩ := List.append_of_mem ha
  have ha1 : a ∉ l₁ := by
    rw [hL] at hnd
    exact fun h => (List.nodup_append.mp hnd).2.2 a h a (by simp) rfl
  have herase : (L P).erase a = l₁ ++ l₂ := by
    rw [hL, List.erase_append_right _ ha1, List.erase_cons_head]
  have hsub : (l₁ ++ l₂).Sublist (L P) := herase ▸ List.erase_sublist
  rw [hL] at hlink hhead
  obtain ⟨hprev, hnext⟩ := hlink.middle
  simp only [Option.or_none] at hprev hnext
  have hrel : AreaLists (s.withAreaList P (writeAt s.areaNext l₁.getLast? l₂.head?)
      (writeAt s.areaPrev l₂.head? l₁.getLast?) (l₁ ++ l₂).head?)
      (Function.update L P (l₁ ++ l₂)) := by
    refine H.relink ⟨rfl, hlink.remove_write (hL ▸ hnd)⟩ (hnd.sublist hsub)
      (fun b hb Q hQ hbQ => hQ (H.disj Q P b hbQ (hsub.subset hb))) (hsort.sublist hsub)
      (fun b hb => H.range P b (hsub.subset hb)) ?_
    intro Q hQ b hb
    have hbP : b ∉ L P := fun h => hQ (H.disj Q P b hb h)
    rw [hL] at hbP
    refine ⟨writeAt_of_ne fun e => hbP ?_, writeAt_of_ne fun e => hbP ?_⟩
    · simp [List.mem_of_getLast? e]
    · simp [List.mem_of_mem_head? e]
  rw [herase]
  refine ⟨_, _, _, ?_, hrel⟩
  unfold State.removeArea
  rcases List.eq_nil_or_concat l₁ with rfl | ⟨l, c, rfl⟩
  · have h : (s.pools P).areaList = some a := by simpa using hhead
    simp only [h, if_true, hnext]
    rfl
  · have hca : c ≠ a := fun e => ha1 (by simp [e])
    have hpool : (s.pools P).areaList = (l.concat c ++ l₂).head? := by
      rw [hhead]; cases l <;> simp
    have hne : some a ≠ (s.pools P).areaList := by
      rw [hpool]
      cases l with
      | nil => simpa using hca.symm
      | cons d l => intro e; simp at e; exact ha1 (by simp [e])
    have hp : s.areaPrev a = some c := by rw [hprev]; simp
    simp only [hne, if_false, hp, hnext, State.withAreaList, State.setPool, ← hpool,
      Function.update_eq_self]
    simp [writeAt]
    rfl

/-! ## The set of areas -/

/-- Only the ranges, the links and the heads of the lists matter. -/
theorem AreaInv.congr {s' : State} (H : AreaInv s A)
    (haddr : ∀ P, ∀ a ∈ A P, s'.addr a = s.addr a) (hsize : ∀ P, ∀ a ∈ A P, s'.size a = s.size a)
    (hn : ∀ P, ∀ a ∈ A P, s'.areaNext a = s.areaNext a)
    (hp : ∀ P, ∀ a ∈ A P, s'.areaPrev a = s.areaPrev a)
    (hl : ∀ P, (s'.pools P).areaList = (s.pools P).areaList) : AreaInv s' A := by
  obtain ⟨L, H, hm⟩ := H
  refine ⟨L, ⟨fun P => ⟨(hl P).trans (H.links P).1, ?_⟩, H.nodup, H.disj, fun P => ?_, ?_⟩, hm⟩
  · exact (H.links P).2.congr (fun b hb => hn P b ((hm P b).mp hb))
      fun b hb => hp P b ((hm P b).mp hb)
  · refine (H.sorted P).imp_of_mem fun {b c} hb hc h => ?_
    rw [haddr P b ((hm P b).mp hb), haddr P c ((hm P c).mp hc), hsize P b ((hm P b).mp hb)]
    exact h
  · intro P b hb
    rw [haddr P b ((hm P b).mp hb), hsize P b ((hm P b).mp hb)]
    exact H.range P b hb

theorem AreaInv.addArea (H : AreaInv s A) (hnew : ∀ Q, a ∉ A Q)
    (hr : PageArea (s.addr a) (s.size a))
    (hap : ∀ b ∈ A P, s.addr b + s.size b ≤ s.addr a ∨ s.addr a + s.size a ≤ s.addr b)
    (hlive : ∀ b ∈ A P, b ∈ s.live) :
    ∃ an ap al, s.addArea P a = .ok (s.withAreaList P an ap al) ∧
      AreaInv (s.withAreaList P an ap al) (addTo A P a) := by
  obtain ⟨L, H, hm⟩ := H
  have hlen : (L P).length ≤ s.live.length :=
    ((H.nodup P).subperm fun b hb => hlive b ((hm P b).mp hb)).length_le
  obtain ⟨an, ap, al, l, heq, hperm, H'⟩ := H.addArea (fun Q h => hnew Q ((hm Q a).mp h)) hr
    (fun b hb => hap b ((hm P b).mp hb)) (by simp only [State.listFuel]; omega)
  refine ⟨an, ap, al, heq, _, H', fun Q b => ?_⟩
  by_cases hQ : Q = P
  · subst hQ; simp [hperm.mem_iff, hm, or_comm]
  · simp [hQ, hm]

theorem AreaInv.removeArea (H : AreaInv s A) (ha : a ∈ A P) :
    ∃ an ap al, s.removeArea P a = .ok (s.withAreaList P an ap al) ∧
      AreaInv (s.withAreaList P an ap al) (without A a) := by
  obtain ⟨L, H, hm⟩ := H
  have haL := (hm P a).mpr ha
  obtain ⟨an, ap, al, heq, H'⟩ := H.removeArea haL
  refine ⟨an, ap, al, heq, _, H', fun Q b => ?_⟩
  by_cases hQ : Q = P
  · subst hQ; simp [(H.nodup Q).mem_erase_iff, hm, and_comm]
  · have : b ∈ L Q → b ≠ a := fun hb e => hQ (H.disj Q P b hb (e ▸ haL))
    simp only [Function.update_of_ne hQ, mem_without, ← hm]
    tauto

/-- A new range for the area `a` that stays between its neighbours. -/
theorem AreaInv.setRange (H : AreaInv s A) (ha : a ∈ A P) (hr : PageArea x n)
    (hlo : ∀ b ∈ A P, s.addr b + s.size b ≤ s.addr a → s.addr b + s.size b ≤ x)
    (hhi : ∀ b ∈ A P, s.addr a + s.size a ≤ s.addr b → x + n ≤ s.addr b) :
    AreaInv (s.setRange a x n) A := by
  obtain ⟨L, H, hm⟩ := H
  have haL := (hm P a).mpr ha
  refine ⟨L, ⟨H.links, H.nodup, H.disj, fun Q => ?_, ?_⟩, hm⟩
  · refine ((H.sorted Q).and (H.nodup Q)).imp_of_mem fun {b c} hb hc h => ?_
    obtain ⟨hbc, hne⟩ := h
    have hQ : b = a ∨ c = a → Q = P := by
      rintro (rfl | rfl)
      · exact H.disj Q P _ hb haL
      · exact H.disj Q P _ hc haL
    by_cases hba : b = a
    · subst hba
      cases hQ (.inl rfl)
      simpa [State.setRange, Ne.symm hne] using hhi c ((hm _ c).mp hc) hbc
    · by_cases hca : c = a
      · subst hca
        cases hQ (.inr rfl)
        simpa [State.setRange, hne] using hlo b ((hm _ b).mp hb) hbc
      · simpa [State.setRange, hba, hca] using hbc
  · intro Q b hb
    by_cases hba : b = a
    · subst hba; simpa [State.setRange] using hr
    · simpa [State.setRange, hba] using H.range Q b hb

/-- A scan of the area list ends, with an area of the pool if it finds one. -/
theorem AreaInv.scan (H : AreaInv s A) (hlive : ∀ b ∈ A P, b ∈ s.live) (stop : Ptr → Bool) :
    ∃ r, scan s.areaNext stop s.listFuel (s.pools P).areaList = some r ∧
      ∀ b, r = some b → b ∈ A P ∧ stop b = true := by
  obtain ⟨L, H, hm⟩ := H
  have hlen : (L P).length ≤ s.live.length :=
    ((H.nodup P).subperm fun b hb => hlive b ((hm P b).mp hb)).length_le
  refine ⟨(L P).find? stop, ?_, fun b hb => ?_⟩
  · rw [(H.links P).1]
    exact (H.links P).2.isSList.scan_eq (by simp only [State.listFuel]; omega)
  · exact ⟨(hm P b).mp (List.mem_of_find?_eq_some hb), List.find?_some hb⟩

end

end L4env.DMphys
