import L4env.Util.Meets
import L4env.DMphys.FreeList

/-!
# Descriptor memory

The page areas that back the slab caches are in `mem_pool`, in the table of freed areas or held by a
cache (`internalAreas`). Growing a cache and taking a page back from it move an area between these
three places and touch no page area. The only panic is an empty pool (`Enough` excludes it).
-/

namespace L4env.DMphys

/-- What an entry of `mem_pool` may hold: only an initial entry has a page without an area. -/
structure IntPool.Ok (i : Nat) (e : IntPool) : Prop where
  mapped : e.available = true → e.mapAddr ≠ none
  unmapped : e.mapAddr = none → e.area = none
  initial : e.area = none → e.mapAddr ≠ none → i < intPoolInitial
  extra : e.area ≠ none → intPoolInitial ≤ i

namespace State

/-- The page areas the descriptor memory holds. -/
def internalAreas (s : State) : List Ptr :=
  s.memPool.filterMap (·.area) ++ s.freedAreas ++ s.slabPages.filterMap (·.2)

def MemPoolOk (s : State) : Prop := ∀ i e, s.memPool[i]? = some e → IntPool.Ok i e

/-- `mem_pool` has a page for every growth of the slab caches. -/
def Enough (s : State) : Prop := s.slab.grow.count true ≤ s.memPool.countP (·.available)

/-- The table of freed areas has an entry for every page that the slab caches hand back. -/
def Room (s : State) : Prop :=
  s.freedAreas.length + s.slab.back.countP (·.isSome) ≤ intMaxFreed

instance (s : State) : Decidable s.Enough := inferInstanceAs (Decidable (_ ≤ _))

instance (s : State) : Decidable s.Room := inferInstanceAs (Decidable (_ ≤ _))

/-- The pages from sigma0; they are in no pool. -/
def initialPages (s : State) : List Nat := (s.memPool.take intPoolInitial).filterMap (·.mapAddr)

/-- The descriptor memory has the pages it needs as before, room for those it gets back, and still its
first pages. -/
structure Steady (s s' : State) : Prop where
  enough : s.Enough → s'.Enough
  room : s.Room → s'.Room
  initial : s'.initialPages = s.initialPages

theorem Steady.refl (s : State) : s.Steady s := ⟨id, id, rfl⟩

theorem Steady.trans {s s' s'' : State} (h : s.Steady s') (h' : s'.Steady s'') : s.Steady s'' :=
  ⟨fun he => h'.enough (h.enough he), fun hr => h'.room (h.room hr), h'.initial.trans h.initial⟩

/-- A bound on the number of areas that a release may still hand back. -/
def backlog (s : State) : Nat := s.freedAreas.length + 2 * s.slabPages.length

/-- The entries of `mem_pool` without a page are still as they were. -/
def OnlyGrown (s s' : State) : Prop :=
  ∀ (i : Nat) (e : IntPool), s.memPool[i]? = some e → e.mapAddr = none → s'.memPool[i]? = some e

theorem OnlyGrown.refl (s : State) : s.OnlyGrown s := fun _ _ h _ => h

theorem OnlyGrown.trans {s s' s'' : State} (h : s.OnlyGrown s') (h' : s'.OnlyGrown s'') :
    s.OnlyGrown s'' := fun i e he hm => h' i e (h i e he hm) hm

/-- The descriptor memory takes no page area and keeps the ranges of those it holds; what the pools
reserve stays. -/
structure Retains (s s' : State) : Prop where
  areas : ∀ a ∈ s'.internalAreas, a ∈ s.internalAreas
  range : ∀ a ∈ s'.internalAreas, s'.addr a = s.addr a ∧ s'.size a = s.size a
  reserved : ∀ P, (s'.pools P).reserved = (s.pools P).reserved

theorem Retains.refl (s : State) : s.Retains s := ⟨fun _ h => h, fun _ _ => ⟨rfl, rfl⟩, fun _ => rfl⟩

theorem Retains.trans {s s' s'' : State} (h : s.Retains s') (h' : s'.Retains s'') : s.Retains s'' where
  areas a ha := h.areas a (h'.areas a ha)
  range a ha := by
    obtain ⟨h1, h2⟩ := h'.range a ha
    obtain ⟨h3, h4⟩ := h.range a (h'.areas a ha)
    exact ⟨h1.trans h3, h2.trans h4⟩
  reserved P := (h'.reserved P).trans (h.reserved P)

/-- The descriptor memory holds the same page areas as before. -/
structure KeepsInternal (s s' : State) : Prop extends Retains s s' where
  all : ∀ a ∈ s.internalAreas, a ∈ s'.internalAreas

theorem KeepsInternal.refl (s : State) : s.KeepsInternal s := ⟨.refl s, fun _ h => h⟩

theorem KeepsInternal.trans {s s' s'' : State} (h : s.KeepsInternal s') (h' : s'.KeepsInternal s'') :
    s.KeepsInternal s'' :=
  ⟨h.toRetains.trans h'.toRetains, fun a ha => h'.all a (h.all a ha)⟩

/-- The state with another descriptor memory. -/
def withInternal (s : State) (mp : List IntPool) (nf : Int) (fa : List Ptr)
    (sp : List (Nat × Option Ptr)) (sl : Slab) : State :=
  { s with memPool := mp, numFree := nf, freedAreas := fa, slabPages := sp, slab := sl }

section
variable (s : State) (mp : List IntPool) (nf : Int) (fa : List Ptr) (sp : List (Nat × Option Ptr))
  (sl : Slab)

@[simp] theorem withInternal_addr : (s.withInternal mp nf fa sp sl).addr = s.addr := rfl
@[simp] theorem withInternal_size : (s.withInternal mp nf fa sp sl).size = s.size := rfl
@[simp] theorem withInternal_used : (s.withInternal mp nf fa sp sl).used = s.used := rfl
@[simp] theorem withInternal_dsNext : (s.withInternal mp nf fa sp sl).dsNext = s.dsNext := rfl
@[simp] theorem withInternal_areaPrev : (s.withInternal mp nf fa sp sl).areaPrev = s.areaPrev := rfl
@[simp] theorem withInternal_areaNext : (s.withInternal mp nf fa sp sl).areaNext = s.areaNext := rfl
@[simp] theorem withInternal_freePrev : (s.withInternal mp nf fa sp sl).freePrev = s.freePrev := rfl
@[simp] theorem withInternal_freeNext : (s.withInternal mp nf fa sp sl).freeNext = s.freeNext := rfl
@[simp] theorem withInternal_live : (s.withInternal mp nf fa sp sl).live = s.live := rfl
@[simp] theorem withInternal_pools : (s.withInternal mp nf fa sp sl).pools = s.pools := rfl

end

@[simp] theorem withAreaList_internalAreas (s : State) (P : Nat) (an ap : Ptr → Option Ptr)
    (al : Option Ptr) : (s.withAreaList P an ap al).internalAreas = s.internalAreas := rfl

@[simp] theorem withFreeList_internalAreas (s : State) (P : Nat) (fn fp : Ptr → Option Ptr)
    (fl : Nat → Option Ptr) (free : Nat) :
    (s.withFreeList P fn fp fl free).internalAreas = s.internalAreas := rfl

/-- A step of the descriptor memory: the same page areas, now held in other places. -/
structure IntStep (s s' : State) : Prop where
  eq : ∃ mp nf fa sp sl, s' = s.withInternal mp nf fa sp sl
  perm : s'.internalAreas.Perm s.internalAreas
  ok : s.MemPoolOk → s'.MemPoolOk
  steady : s.Steady s'

section
variable {s s' : State}

theorem filterMap_set_perm {α β : Type} [DecidableEq β] {f : α → Option β} {l : List α} {i : Nat}
    {e : α} (h : l[i]? = some e) (e' : α) :
    ((l.set i e').filterMap f ++ (f e).toList).Perm (l.filterMap f ++ (f e').toList) := by
  induction l generalizing i with
  | nil => simp at h
  | cons x l ih =>
    cases i with
    | zero =>
      simp at h
      subst h
      rw [List.perm_iff_count]
      intro z
      cases hf : f x <;> cases hf' : f e' <;> 
        simp [hf, hf', List.count_cons]
      omega
    | succ i =>
      simp at h
      cases hf : f x <;> simp [hf, ih h]

theorem filterMap_set_eq {α β : Type} {f : α → Option β} {l : List α} {i : Nat} {e e' : α}
    (h : l[i]? = some e) (hf : f e' = f e) : (l.set i e').filterMap f = l.filterMap f := by
  induction l generalizing i with
  | nil => rfl
  | cons x l ih =>
    cases i with
    | zero =>
      simp at h
      subst h
      simp [List.filterMap_cons, hf]
    | succ i =>
      simp at h
      simp [List.filterMap_cons, ih h]

theorem countP_set {α : Type} {f : α → Bool} {l : List α} {i : Nat} {e : α}
    (h : l[i]? = some e) (e' : α) :
    (l.set i e').countP f + (if f e then 1 else 0) = l.countP f + (if f e' then 1 else 0) := by
  induction l generalizing i with
  | nil => simp at h
  | cons x l ih =>
    cases i with
    | zero =>
      simp at h
      subst h
      simp [List.countP_cons]
      omega
    | succ i =>
      simp at h
      have := ih h
      simp [List.countP_cons]
      omega

theorem MemPoolOk.set {i : Nat} {e' : IntPool} (H : s.MemPoolOk) (h : IntPool.Ok i e') :
    ∀ j e, (s.memPool.set i e')[j]? = some e → IntPool.Ok j e := by
  intro j e hj
  rw [List.getElem?_set] at hj
  split at hj
  · rename_i hij
    split at hj
    · cases hj; exact hij ▸ h
    · cases hj
  · exact H j e hj

/-- Writing an entry that keeps the page from sigma0, if the entry has one. -/
theorem initialPages_set {i : Nat} {e e' : IntPool} (he : s.memPool[i]? = some e)
    (hkeep : i < intPoolInitial → e'.mapAddr = e.mapAddr) :
    ((s.memPool.set i e').take intPoolInitial).filterMap (·.mapAddr) = s.initialPages := by
  unfold initialPages
  rw [List.take_set]
  by_cases hi : i < intPoolInitial
  · exact filterMap_set_eq (by rw [List.getElem?_take_of_lt hi, he]) (hkeep hi)
  · rw [List.set_eq_of_length_le (by simp; omega)]

/-- `__allocate` takes an available page, if there is one. -/
theorem intAllocate_meets (H : s.MemPoolOk) : Meets s.intAllocate
    (fun s' => (∃ mp nf sp, s' = s.withInternal mp nf s.freedAreas sp s.slab) ∧
      s'.internalAreas.Perm s.internalAreas ∧ s'.MemPoolOk ∧ s.OnlyGrown s' ∧
      s'.initialPages = s.initialPages ∧
      s'.memPool.countP (·.available) + 1 = s.memPool.countP (·.available))
    (fun e => e = .noInternalPage ∧ s.memPool.countP (·.available) = 0) := by
  unfold intAllocate
  cases hi : s.memPool.findIdx? (·.available) with
  | none =>
    refine ⟨rfl, ?_⟩
    rw [List.findIdx?_eq_none_iff] at hi
    exact List.countP_eq_zero.mpr fun e he => by simp [hi e he]
  | some i =>
    obtain ⟨hlt, hav, -⟩ := List.findIdx?_eq_some_iff_getElem.mp hi
    obtain ⟨e, he⟩ : ∃ e, s.memPool[i]? = some e := ⟨_, List.getElem?_eq_getElem hlt⟩
    have hav : e.available = true := by
      rw [List.getElem?_eq_getElem hlt] at he; cases he; exact hav
    have hok := H i e he
    obtain ⟨page, hpage⟩ := Option.ne_none_iff_exists'.mp (hok.mapped hav)
    obtain ⟨av, ma, ar⟩ := e
    cases hav
    cases hpage
    have hgrown : ∀ e' (j : Nat) (e : IntPool), s.memPool[j]? = some e → e.mapAddr = none →
        (s.memPool.set i e')[j]? = some e := by
      intro e' j e hj hmap
      rw [List.getElem?_set_ne, hj]
      rintro rfl
      rw [he] at hj
      cases hj
      cases hmap
    simp only [he]
    cases ar with
    | none =>
      simp only [hok.initial rfl (by simp), if_true]
      refine ⟨⟨_, _, _, rfl⟩, ?_, ?_, hgrown _, initialPages_set he fun _ => rfl, ?_⟩
      · have := @filterMap_set_perm _ _ _ (·.area) _ _ _ he ⟨false, some page, none⟩
        simp only [Option.toList_none, List.append_nil] at this
        simp only [internalAreas, List.append_assoc]
        exact this.append_right _
      · exact H.set ⟨by simp, by simp, hok.initial, by simp⟩
      · have := @countP_set _ (·.available) _ _ _ he ⟨false, some page, none⟩
        simpa using this
    | some area =>
      refine ⟨⟨_, _, _, rfl⟩, ?_, ?_, hgrown _, initialPages_set he fun hi => ?_, ?_⟩
      · have := @filterMap_set_perm _ _ _ (·.area) _ _ _ he {}
        rw [List.perm_iff_count] at this ⊢
        intro z
        have := this z
        simp [internalAreas, List.count_cons] at this ⊢
        omega
      · exact H.set ⟨by simp, by simp, by simp, by simp⟩
      · have := hok.extra (by simp)
        omega
      · have := @countP_set _ (·.available) _ _ _ he {}
        simpa using this

/-- A released page is kept; the table of freed areas must have room for it. -/
theorem intRelease_eq (H : s.MemPoolOk) (page : Nat) (area : Option Ptr)
    (hroom : s.freedAreas.length < intMaxFreed) :
    (∃ mp nf fa, s.intRelease page area = s.withInternal mp nf fa s.slabPages s.slab ∧
      fa.length ≤ s.freedAreas.length + 1) ∧
      (s.intRelease page area).internalAreas.Perm (area.toList ++ s.internalAreas) ∧
      (s.intRelease page area).MemPoolOk ∧ (s.intRelease page area).initialPages = s.initialPages ∧
      s.memPool.countP (·.available) ≤ (s.intRelease page area).memPool.countP (·.available) := by
  cases area with
  | none =>
    unfold intRelease
    simp only
    cases hi : (s.memPool.take intPoolInitial).findIdx? (·.mapAddr == some page) with
    | none => exact ⟨⟨_, _, _, rfl, by simp⟩, by simp, H, rfl, le_rfl⟩
    | some i =>
      cases he : s.memPool[i]? with
      | none =>
        simp only [he]
        exact ⟨⟨_, _, _, rfl, by simp⟩, by simp, H, trivial, le_rfl⟩
      | some e =>
        simp only [he]
        obtain ⟨hlt, hmap, -⟩ := List.findIdx?_eq_some_iff_getElem.mp hi
        have hmap : e.mapAddr = some page := by
          have h := List.getElem?_eq_getElem hlt
          rw [List.getElem?_take_of_lt (by simp at hlt; omega), he] at h
          cases h
          simpa using hmap
        have hok := H i e he
        refine ⟨⟨_, _, _, rfl, by simp⟩, ?_, ?_, initialPages_set he fun _ => rfl, ?_⟩
        · have := @filterMap_set_perm _ _ _ (·.area) _ _ _ he { e with available := true }
          rw [List.perm_append_right_iff] at this
          simp only [internalAreas, List.append_assoc]
          exact this.append_right _
        · exact H.set ⟨by simp [hmap], hok.unmapped, hok.initial, hok.extra⟩
        · have := @countP_set _ (·.available) _ _ _ he { e with available := true }
          simp at this ⊢
          split at this <;> omega
  | some area =>
    unfold intRelease
    simp only
    cases hi : s.unusedEntry with
    | none =>
      simp only [hroom, if_true]
      refine ⟨⟨_, _, _, rfl, by simp⟩, ?_, H, rfl, le_rfl⟩
      rw [List.perm_iff_count]
      intro z
      simp [internalAreas, List.count_cons]
      omega
    | some i =>
      obtain ⟨hmem, e, he, hmap⟩ : i ∈ List.range' intPoolInitial intPoolMaxAlloc ∧
          ∃ e, s.memPool[i]? = some e ∧ e.mapAddr = none := by
        refine ⟨List.mem_of_find?_eq_some hi, ?_⟩
        have := List.find?_some hi
        cases he : s.memPool[i]? with
        | none => simp [he] at this
        | some e => exact ⟨e, rfl, by simpa [he] using this⟩
      have hok := H i e he
      have harea := hok.unmapped hmap
      have hav : e.available = false := by
        cases h : e.available with
        | false => rfl
        | true => exact absurd hmap (hok.mapped h)
      have hi : intPoolInitial ≤ i := (List.mem_range'_1.mp hmem).1
      refine ⟨⟨_, _, _, rfl, by simp⟩, ?_, ?_, initialPages_set he fun h => absurd h (by omega), ?_⟩
      · have := @filterMap_set_perm _ _ _ (·.area) _ _ _ he
          ⟨true, some (s.addr area), some area⟩
        rw [List.perm_iff_count] at this ⊢
        intro z
        have := this z
        simp [internalAreas, List.count_cons, harea] at this ⊢
        omega
      · exact H.set ⟨by simp, by simp, by simp, fun _ => hi⟩
      · have := @countP_set _ (·.available) _ _ _ he ⟨true, some (s.addr area), some area⟩
        simp [hav] at this ⊢
        omega

/-- A failure of the descriptor memory. -/
def NoPage (s : State) (e : Panic) : Prop := e = .noInternalPage ∧ ¬s.Enough

theorem IntStep.noPage (h : IntStep s s') {e : Panic} (he : s'.NoPage e) : s.NoPage e :=
  ⟨he.1, fun hs => he.2 (h.steady.enough hs)⟩

theorem slabGrow_meets (H : s.MemPoolOk) : Meets s.slabGrow
    (fun s' => IntStep s s' ∧ s.OnlyGrown s') s.NoPage := by
  unfold slabGrow
  cases hg : s.slab.grow with
  | nil => exact ⟨⟨⟨_, _, _, _, _, rfl⟩, .rfl, id, by simp [Enough], id, rfl⟩, .refl s⟩
  | cons b g =>
    cases b with
    | false => exact ⟨⟨⟨_, _, _, _, _, rfl⟩, .rfl, id, by simp [Enough, hg], id, rfl⟩, .refl s⟩
    | true =>
      simp only [List.headD_cons, if_true, List.tail_cons]
      refine (@intAllocate_meets { s with slab := { s.slab with grow := g } } H).mono ?_ ?_
      · rintro s' ⟨⟨mp, nf, sp, rfl⟩, hperm, hok, hgrown, hinit, hcount⟩
        refine ⟨⟨⟨_, _, _, _, _, rfl⟩, hperm, fun _ => hok, fun he => ?_, id, hinit⟩, hgrown⟩
        simp only [Enough, hg, List.count_cons_self] at he
        simp only [Enough, withInternal] at hcount ⊢
        omega
      · rintro e ⟨rfl, h0⟩
        refine ⟨rfl, fun he => ?_⟩
        simp only [Enough, hg, List.count_cons_self] at he
        simp only at h0
        omega

theorem slabBack_step (H : s.MemPoolOk) (hroom : s.Room) :
    IntStep s s.slabBack ∧ s.slabBack.backlog ≤ s.backlog := by
  have htail : ∀ n, s.slab.back.headD none = some n →
      s.slab.back.tail.countP (·.isSome) + 1 = s.slab.back.countP (·.isSome) := by
    intro n hn
    cases hb : s.slab.back with
    | nil => simp [hb] at hn
    | cons o l => simp [hb] at hn; simp [hn]
  have htail' : s.slab.back.tail.countP (·.isSome) ≤ s.slab.back.countP (·.isSome) :=
    (List.tail_sublist _).countP_le
  have hkeep : s.freedAreas.length + s.slab.back.tail.countP (·.isSome) ≤ intMaxFreed := by
    simp only [Room] at hroom
    omega
  unfold slabBack
  cases hb : s.slab.back.headD none with
  | none => exact ⟨⟨⟨_, _, _, _, _, rfl⟩, .rfl, id, id, fun _ => hkeep, rfl⟩, le_rfl⟩
  | some i =>
    cases hp : s.slabPages[i]? with
    | none =>
      simp only [hp]
      exact ⟨⟨⟨_, _, _, _, _, rfl⟩, .rfl, id, id, fun _ => hkeep, rfl⟩, le_rfl⟩
    | some pa =>
      obtain ⟨page, area⟩ := pa
      simp only [hp]
      obtain ⟨hlt, hget⟩ := List.getElem?_eq_some_iff.mp hp
      have hcnt := htail i hb
      generalize ht : ({ s with
        slab := { s.slab with back := s.slab.back.tail }
        slabPages := s.slabPages.eraseIdx i } : State) = t
      have htok : t.MemPoolOk := by subst ht; exact H
      have htfree : t.freedAreas = s.freedAreas := by subst ht; rfl
      obtain ⟨⟨mp, nf, fa, heq, hlen⟩, hperm, hok, hinit, hcount⟩ :=
        intRelease_eq htok page area (by rw [htfree]; simp only [Room] at hroom; omega)
      have hpages : (t.intRelease page area).slabPages = s.slabPages.eraseIdx i := by
        rw [heq]; subst ht; rfl
      have hfreed : (t.intRelease page area).freedAreas.length ≤ s.freedAreas.length + 1 := by
        rw [heq]; subst ht; exact hlen
      have hareas : (area.toList ++ t.internalAreas).Perm s.internalAreas := by
        have he := (List.getElem_cons_eraseIdx_perm hlt).filterMap (·.2)
        rw [hget] at he
        rw [List.perm_iff_count] at he ⊢
        intro z
        have := he z
        subst ht
        cases area <;> simp [internalAreas, List.count_cons] at this ⊢ <;> omega
      refine ⟨⟨?_, hperm.trans hareas, fun _ => hok, ?_, fun _ => ?_, ?_⟩, ?_⟩
      · rw [heq]; subst ht; exact ⟨_, _, _, _, _, rfl⟩
      · intro he
        have : (t.intRelease page area).slab.grow = s.slab.grow := by rw [heq]; subst ht; rfl
        have hc : t.memPool = s.memPool := by subst ht; rfl
        simp only [Enough, this] at he ⊢
        rw [hc] at hcount
        omega
      · have : (t.intRelease page area).slab.back = s.slab.back.tail := by
          rw [heq]; subst ht; rfl
        simp only [Room, this] at hroom ⊢
        omega
      · rw [hinit]; subst ht; rfl
      · simp only [backlog, hpages, List.length_eraseIdx_of_lt hlt]
        omega

/-- `__alloc_area_desc` returns a descriptor that is not in use. -/
theorem allocAreaDesc_meets (H : s.MemPoolOk) : Meets s.allocAreaDesc
    (fun r => r.1 ∉ s.live ∧ ∃ s₁, IntStep s s₁ ∧ s.OnlyGrown s₁ ∧
      r.2 = { s₁ with live := r.1 :: s.live }) s.NoPage := by
  refine (slabGrow_meets H).bind fun s₁ ⟨hstep, hgrown⟩ => ?_
  obtain ⟨mp, nf, fa, sp, sl, rfl⟩ := hstep.eq
  exact ⟨sl.pick_not_mem _, _, hstep, hgrown, rfl⟩

theorem releaseAreaDesc_step (H : s.MemPoolOk) (hroom : s.Room) (a : Ptr) :
    ∃ s₁, IntStep s s₁ ∧ s₁.backlog ≤ s.backlog ∧
      s.releaseAreaDesc a = { s₁ with live := s.live.erase a } := by
  obtain ⟨hstep, hback⟩ := @slabBack_step { s with live := s.live.erase a } H hroom
  obtain ⟨mp, nf, fa, sp, sl, heq⟩ := hstep.eq
  have hrel : s.releaseAreaDesc a =
      { s.withInternal mp nf fa sp sl with live := s.live.erase a } := heq
  rw [heq] at hstep hback
  exact ⟨s.withInternal mp nf fa sp sl,
    ⟨⟨_, _, _, _, _, rfl⟩, hstep.perm, hstep.ok,
      hstep.steady.enough, hstep.steady.room, hstep.steady.initial⟩, hback, hrel⟩

end

end State

end L4env.DMphys
