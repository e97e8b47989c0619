import Mathlib.Algebra.BigOperators.Group.Finset.Piecewise
import L4env.DMphys.AreaList

/-!
# The free lists

`FreeLists s F` says that free list `k` of pool `P` links the descriptors `F P k`, sorted by size,
that all of them have the size class `k`, and that `free` is the sum of their sizes, as a word.
`FreeInv s D` hides the lists: `D P` is the set of areas that are in a free list of pool `P`.
-/

namespace L4env.DMphys

structure FreeLists (s : State) (F : Nat → Nat → List Ptr) : Prop where
  links : ∀ P k, IsDList s.freeNext s.freePrev ((s.pools P).freeList k) (F P k)
  nodup : ∀ P k, (F P k).Nodup
  disj : ∀ P k Q j a, a ∈ F P k → a ∈ F Q j → P = Q ∧ k = j
  cls : ∀ P k, ∀ a ∈ F P k, getFreeList (s.size a) = k
  sorted : ∀ P k, (F P k).Pairwise fun a b => s.size a ≤ s.size b
  sum : ∀ P, (s.pools P).free =
    (∑ k ∈ Finset.range numFreeLists, ((F P k).map s.size).sum) % 4294967296

/-- The free areas of every pool, in no order. -/
def FreeInv (s : State) (D : Nat → Set Ptr) : Prop :=
  ∃ F, FreeLists s F ∧ ∀ P a, (∃ k, a ∈ F P k) ↔ a ∈ D P

theorem getFreeList_lt (size : Nat) : getFreeList size < numFreeLists := by
  unfold getFreeList numFreeLists
  simp only
  split
  · omega
  · split
    · omega
    · omega

/-- The state after the free list links and the free list heads of pool `P` were written. -/
def State.withFreeList (s : State) (P : Nat) (fn fp : Ptr → Option Ptr) (fl : Nat → Option Ptr)
    (free : Nat) : State :=
  { s with freeNext := fn, freePrev := fp }.setPool P
    { s.pools P with free := free, freeList := fl }

section
variable (s : State) (P : Nat) (fn fp : Ptr → Option Ptr) (fl : Nat → Option Ptr) (free : Nat)

@[simp] theorem State.withFreeList_addr : (s.withFreeList P fn fp fl free).addr = s.addr := rfl
@[simp] theorem State.withFreeList_size : (s.withFreeList P fn fp fl free).size = s.size := rfl
@[simp] theorem State.withFreeList_used : (s.withFreeList P fn fp fl free).used = s.used := rfl
@[simp] theorem State.withFreeList_dsNext : (s.withFreeList P fn fp fl free).dsNext = s.dsNext := rfl
@[simp] theorem State.withFreeList_areaPrev : (s.withFreeList P fn fp fl free).areaPrev = s.areaPrev := rfl
@[simp] theorem State.withFreeList_areaNext : (s.withFreeList P fn fp fl free).areaNext = s.areaNext := rfl
@[simp] theorem State.withFreeList_live : (s.withFreeList P fn fp fl free).live = s.live := rfl
@[simp] theorem State.withFreeList_memPool : (s.withFreeList P fn fp fl free).memPool = s.memPool := rfl
@[simp] theorem State.withFreeList_numFree : (s.withFreeList P fn fp fl free).numFree = s.numFree := rfl
@[simp] theorem State.withFreeList_freedAreas : (s.withFreeList P fn fp fl free).freedAreas = s.freedAreas := rfl
@[simp] theorem State.withFreeList_slabPages : (s.withFreeList P fn fp fl free).slabPages = s.slabPages := rfl
@[simp] theorem State.withFreeList_slab : (s.withFreeList P fn fp fl free).slab = s.slab := rfl

theorem State.withFreeList_pools : (s.withFreeList P fn fp fl free).pools =
    Function.update s.pools P { s.pools P with free := free, freeList := fl } := rfl

@[simp] theorem State.withFreeList_areaList (Q : Nat) :
    ((s.withFreeList P fn fp fl free).pools Q).areaList = (s.pools Q).areaList := by
  by_cases h : Q = P
  · subst h; simp [State.withFreeList_pools]
  · simp [State.withFreeList_pools, h]

@[simp] theorem State.withFreeList_reserved (Q : Nat) :
    ((s.withFreeList P fn fp fl free).pools Q).reserved = (s.pools Q).reserved := by
  by_cases h : Q = P
  · subst h; simp [State.withFreeList_pools]
  · simp [State.withFreeList_pools, h]

end

section
variable {s : State} {F : Nat → Nat → List Ptr} {D : Nat → Set Ptr} {P : Nat} {a b : Ptr}

theorem FreeLists.relink (H : FreeLists s F) {k : Nat} {l : List Ptr}
    (hl : IsDList fn fp h l) (hnd : l.Nodup)
    (hdisj : ∀ b ∈ l, ∀ Q j, b ∈ F Q j → Q = P ∧ j = k)
    (hcls : ∀ b ∈ l, getFreeList (s.size b) = k)
    (hsort : l.Pairwise fun a b => s.size a ≤ s.size b)
    (hfree : (free + ((F P k).map s.size).sum) % 4294967296 =
      ((s.pools P).free + (l.map s.size).sum) % 4294967296) (hword : free < 4294967296)
    (hk : k < numFreeLists)
    (hframe : ∀ Q j, ¬(Q = P ∧ j = k) → ∀ b ∈ F Q j, fn b = s.freeNext b ∧ fp b = s.freePrev b) :
    FreeLists (s.withFreeList P fn fp (Function.update (s.pools P).freeList k h) free)
      (Function.update F P (Function.update (F P) k l)) := by
  have hF : ∀ Q j, Function.update F P (Function.update (F P) k l) Q j =
      if Q = P ∧ j = k then l else F Q j := by
    intro Q j
    by_cases hQ : Q = P
    · subst hQ
      by_cases hj : j = k
      · subst hj; simp
      · simp [hj]
    · simp [hQ]
  constructor
  · intro Q j
    rw [hF]
    by_cases hQ : Q = P ∧ j = k
    · obtain ⟨rfl, rfl⟩ := hQ
      simpa [State.withFreeList, State.setPool] using hl
    · have hh : ((s.withFreeList P fn fp (Function.update (s.pools P).freeList k h) free).pools
          Q).freeList j = (s.pools Q).freeList j := by
        by_cases hQP : Q = P
        · subst hQP
          have : j ≠ k := fun e => hQ ⟨rfl, e⟩
          simp [State.withFreeList_pools, this]
        · simp [State.withFreeList_pools, hQP]
      rw [if_neg hQ, hh]
      exact ⟨(H.links Q j).1, (H.links Q j).2.congr (fun b hb => (hframe Q j hQ b hb).1)
        fun b hb => (hframe Q j hQ b hb).2⟩
  · intro Q j
    rw [hF]
    split
    · exact hnd
    · exact H.nodup Q j
  · intro Q j R i b
    rw [hF, hF]
    split <;> split
    · rename_i h1 h2
      exact fun _ _ => ⟨h1.1.trans h2.1.symm, h1.2.trans h2.2.symm⟩
    · rename_i h1 h2
      exact fun hb hb' => absurd (hdisj b hb R i hb') h2
    · rename_i h1 h2
      exact fun hb hb' => absurd (hdisj b hb' Q j hb) h1
    · exact H.disj Q j R i b
  · intro Q j
    rw [hF]
    split
    · rename_i h1
      rw [h1.2]; exact hcls
    · exact H.cls Q j
  · intro Q j
    rw [hF]
    split
    · exact hsort
    · exact H.sorted Q j
  · intro Q
    by_cases hQ : Q = P
    · subst hQ
      have hsum := H.sum Q
      have hmem : k ∈ Finset.range numFreeLists := Finset.mem_range.mpr hk
      have hupd : (fun j => ((Function.update (F Q) k l j).map s.size).sum) =
          Function.update (fun j => ((F Q j).map s.size).sum) k (l.map s.size).sum := by
        funext j
        by_cases hj : j = k
        · subst hj; simp
        · simp [hj]
      have hnew := Finset.sum_update_of_mem hmem (fun j => ((F Q j).map s.size).sum)
        (l.map s.size).sum
      have hold := Finset.sum_eq_add_sum_sdiff_singleton_of_mem hmem
        fun j => ((F Q j).map s.size).sum
      simp only [State.withFreeList_pools, Function.update_self, State.withFreeList_size, hupd, hnew]
      rw [hold] at hsum
      omega
    · simpa [State.withFreeList_pools, hQ] using H.sum Q

/-- `__add_free` links an area that is in no free list. -/
theorem FreeLists.addFree (H : FreeLists s F) (hnew : ∀ Q k, a ∉ F Q k)
    (hf : (F P (getFreeList (s.size a))).length < s.listFuel) :
    ∃ fn fp fl free l, s.addFree P a = .ok (s.withFreeList P fn fp fl free) ∧
      l.Perm (a :: F P (getFreeList (s.size a))) ∧
      FreeLists (s.withFreeList P fn fp fl free)
        (Function.update F P (Function.update (F P) (getFreeList (s.size a)) l)) := by
  have hklt := getFreeList_lt (s.size a)
  generalize hk : getFreeList (s.size a) = k at *
  obtain ⟨hhead, hlink⟩ := H.links P k
  have hnd := H.nodup P k
  have hsort := H.sorted P k
  have hne : ∀ Q j, ∀ y ∈ F Q j, y ≠ a := fun Q j y hy e => hnew Q j (e ▸ hy)
  -- the conditions of `relink` that hold for every place in the list
  have key : ∀ (l : List Ptr) (fn fp : Ptr → Option Ptr) (h : Option Ptr),
      l.Perm (a :: F P k) → IsDList fn fp h l →
      (l.Pairwise fun a b => s.size a ≤ s.size b) →
      (∀ Q j, ¬(Q = P ∧ j = k) → ∀ b ∈ F Q j, fn b = s.freeNext b ∧ fp b = s.freePrev b) →
      FreeLists (s.withFreeList P fn fp (Function.update (s.pools P).freeList k h)
        (Word.add (s.pools P).free (s.size a)))
        (Function.update F P (Function.update (F P) k l)) := by
    intro l fn fp h hperm hl hs hframe
    refine H.relink hl ?_ ?_ ?_ hs ?_ (Word.add_lt _ _) hklt hframe
    · exact hperm.nodup_iff.mpr (List.nodup_cons.mpr ⟨hnew P k, hnd⟩)
    · intro y hy Q j hyQ
      rcases List.mem_cons.mp (hperm.mem_iff.mp hy) with rfl | hy
      · exact absurd hyQ (hnew Q j)
      · exact H.disj Q j P k y hyQ hy
    · intro y hy
      rcases List.mem_cons.mp (hperm.mem_iff.mp hy) with rfl | hy
      · exact hk
      · exact H.cls P k y hy
    · rw [(hperm.map s.size).sum_eq, List.map_cons, List.sum_cons, Word.add]
      omega
  unfold State.addFree
  simp only [hk]
  cases hF : F P k with
  | nil =>
    simp only [hF, List.head?_nil] at hhead
    refine ⟨_, _, _, _, [a], by simp only [hhead]; rfl, by simp, ?_⟩
    refine key [a] _ _ _ (by simp [hF]) ⟨rfl, by simp⟩ (by simp) ?_
    intro Q j _ y hy
    simp [hne Q j y hy]
  | cons c l =>
    simp only [hF, List.head?_cons] at hhead
    simp only [hhead]
    split
    next hlt =>
      refine ⟨_, _, _, _, a :: F P k, rfl, by simp [hF], ?_⟩
      refine key (a :: F P k) _ _ _ (by simp) ⟨rfl, ?_⟩ ?_ ?_
      · refine hlink.cons_head (hnew P k) ?_ (by simp [hF]) ?_ ?_ ?_ hnd
        · intro y hy
          simp [hne P k y hy]
        · intro y hy hyc
          have : y ≠ c := by rintro rfl; simp [hF] at hyc
          simp [hne P k y hy, this]
        · have : a ≠ c := fun e => hnew P k (by simp [hF, e])
          simp [this]
        · intro y hy
          simp [hF] at hy
          simp [hy]
      · refine List.pairwise_cons.mpr ⟨fun y hy => ?_, hsort⟩
        rw [hF] at hy hsort
        rcases List.mem_cons.mp hy with rfl | hy
        · exact hlt.le
        · exact hlt.le.trans ((List.pairwise_cons.mp hsort).1 y hy)
      · intro Q j hQ y hy
        have : y ≠ c := by
          rintro rfl
          exact hQ (H.disj Q j P k y hy (by simp [hF]))
        simp [hne Q j y hy, this]
    next hge =>
      have hlink' : Links (Function.update s.freeNext a none) (Function.update s.freePrev a none)
          none (F P k) none :=
        hlink.congr (fun y hy => by simp [hne P k y hy]) fun y hy => by simp [hne P k y hy]
      have hlen : l.length < s.listFuel := by simp [hF] at hf; omega
      obtain ⟨l₁, b, l₂, hsplit, hwalk, hbefore, hafter⟩ :=
        @Links.walkWhile_eq _ _ _ _ (fun b => decide (s.size b < s.size a)) _ _ _ (hF ▸ hlink') hlen
      have hfuel : ∀ x y, State.listFuel { s with freePrev := x, freeNext := y } = s.listFuel :=
        fun _ _ => rfl
      simp only [hfuel, hwalk]
      have hFb : F P k = l₁ ++ b :: l₂ := by rw [hF, hsplit]
      have hb : b ∈ F P k := by simp [hFb]
      have hmid : Function.update s.freeNext a none b = l₂.head? := by
        have := (hFb ▸ hlink').middle.2
        simpa using this
      have hperm : (l₁ ++ b :: a :: l₂).Perm (a :: F P k) := by
        rw [hFb, show l₁ ++ b :: a :: l₂ = (l₁ ++ [b]) ++ a :: l₂ by simp]
        exact List.perm_middle.trans (by simp)
      have hle : ∀ y ∈ l₁ ++ [b], s.size y ≤ s.size a := by
        intro y hy
        rcases hbefore y hy with rfl | h
        · omega
        · simp at h; omega
      rw [hmid]
      have hlist : Function.update (s.pools P).freeList k (some c) = (s.pools P).freeList := by
        rw [← hhead, Function.update_eq_self]
      refine ⟨_, _, _, _, l₁ ++ b :: a :: l₂, rfl, hF ▸ hperm, ?_⟩
      rw [← hlist]
      refine key _ _ _ _ hperm ⟨?_, ?_⟩ ?_ ?_
      · have : (l₁ ++ b :: a :: l₂).head? = (c :: l).head? := by rw [hsplit]; cases l₁ <;> rfl
        simp [this]
      · exact (hFb ▸ hlink).insert_after_write (hFb ▸ hnd) (hFb ▸ hnew P k)
      · refine pairwise_insert_after (hFb ▸ hsort) (fun y hy => hle y (by simp [hy]))
          (hle b (by simp)) ?_
        cases hl₂ : l₂ with
        | nil => simp
        | cons z l₃ =>
          have hz := hafter z (by simp [hl₂])
          simp at hz
          have hs := hFb ▸ hsort
          simp only [hl₂, List.pairwise_append, List.pairwise_cons] at hs
          intro y hy
          rcases List.mem_cons.mp hy with rfl | hy
          · exact hz
          · exact hz.trans (hs.2.1.2.1 y hy)
      · intro Q j hQ y hy
        have hyP : y ∉ F P k := fun h => hQ (H.disj Q j P k y hy h)
        have hya := hne Q j y hy
        have hyb : y ≠ b := fun e => hyP (e ▸ hb)
        have hy2 : l₂.head? ≠ some y := fun e => hyP (by simp [hFb, List.mem_of_mem_head? e])
        rw [Function.update_of_ne hyb, Function.update_of_ne hya, Function.update_of_ne hya,
          Function.update_of_ne hya, writeAt_of_ne hy2, Function.update_of_ne hya]
        exact ⟨rfl, rfl⟩

/-- `__remove_free` unlinks an area from the free list of its size class. -/
theorem FreeLists.removeFree (H : FreeLists s F) (ha : a ∈ F P k) :
    ∃ fn fp fl free, s.removeFree P a = .ok (s.withFreeList P fn fp fl free) ∧
      FreeLists (s.withFreeList P fn fp fl free)
        (Function.update F P (Function.update (F P) k ((F P k).erase a))) := by
  have hk := H.cls P k a ha
  have hklt : k < numFreeLists := hk ▸ getFreeList_lt _
  obtain ⟨hhead, hlink⟩ := H.links P k
  have hnd := H.nodup P k
  obtain ⟨l₁, l₂, hF⟩ := List.append_of_mem ha
  have ha1 : a ∉ l₁ := by
    rw [hF] at hnd
    exact fun h => (List.nodup_append.mp hnd).2.2 a h a (by simp) rfl
  have herase : (F P k).erase a = l₁ ++ l₂ := by
    rw [hF, List.erase_append_right _ ha1, List.erase_cons_head]
  have hsub : (l₁ ++ l₂).Sublist (F P k) := herase ▸ List.erase_sublist
  rw [hF] at hlink hhead
  obtain ⟨hprev, hnext⟩ := hlink.middle
  simp only [Option.or_none] at hprev hnext
  have hsumF : ((F P k).map s.size).sum = ((l₁ ++ l₂).map s.size).sum + s.size a := by
    simp [hF]; omega
  have hrel : FreeLists (s.withFreeList P (writeAt s.freeNext l₁.getLast? l₂.head?)
      (writeAt s.freePrev l₂.head? l₁.getLast?)
      (Function.update (s.pools P).freeList k (l₁ ++ l₂).head?)
      (Word.sub (s.pools P).free (s.size a)))
      (Function.update F P (Function.update (F P) k (l₁ ++ l₂))) := by
    refine H.relink ⟨rfl, hlink.remove_write (hF ▸ hnd)⟩ (hnd.sublist hsub)
      (fun b hb Q j hbQ => H.disj Q j P k b hbQ (hsub.subset hb))
      (fun b hb => H.cls P k b (hsub.subset hb)) ((H.sorted P k).sublist hsub) ?_ (Word.sub_lt _ _)
      hklt ?_
    · rw [hsumF, Word.sub]
      omega
    · intro Q j hQ b hb
      have hbP : b ∉ F P k := fun h => hQ (H.disj Q j P k b hb h)
      rw [hF] at hbP
      refine ⟨writeAt_of_ne fun e => hbP ?_, writeAt_of_ne fun e => hbP ?_⟩
      · simp [List.mem_of_getLast? e]
      · simp [List.mem_of_mem_head? e]
  rw [herase]
  refine ⟨_, _, _, _, ?_, hrel⟩
  unfold State.removeFree
  simp only [hk]
  rcases List.eq_nil_or_concat l₁ with rfl | ⟨l, c, rfl⟩
  · have h : (s.pools P).freeList k = some a := by simpa using hhead
    simp only [h, if_true, hnext]
    rfl
  · have hca : c ≠ a := fun e => ha1 (by simp [e])
    have hpool : (s.pools P).freeList k = (l.concat c ++ l₂).head? := by
      rw [hhead]; cases l <;> simp
    have hne : some a ≠ (s.pools P).freeList k := by
      rw [hpool]
      cases l with
      | nil => simpa using hca.symm
      | cons d l => intro e; simp at e; exact ha1 (by simp [e])
    have hp : s.freePrev a = some c := by rw [hprev]; simp
    simp only [hne, if_false, hp, hnext, State.withFreeList, State.setPool, ← hpool,
      Function.update_eq_self]
    simp [writeAt]
    rfl

/-! ## The set of free areas -/

theorem FreeInv.congr {s' : State} (H : FreeInv s D) (hsize : ∀ P, ∀ a ∈ D P, s'.size a = s.size a)
    (hn : ∀ P, ∀ a ∈ D P, s'.freeNext a = s.freeNext a)
    (hp : ∀ P, ∀ a ∈ D P, s'.freePrev a = s.freePrev a)
    (hl : ∀ P, (s'.pools P).freeList = (s.pools P).freeList)
    (hfree : ∀ P, (s'.pools P).free = (s.pools P).free) : FreeInv s' D := by
  obtain ⟨F, H, hm⟩ := H
  have hD : ∀ P k, ∀ b ∈ F P k, b ∈ D P := fun P k b hb => (hm P b).mp ⟨k, hb⟩
  refine ⟨F, ⟨fun P k => ⟨?_, ?_⟩, H.nodup, H.disj, fun P k b hb => ?_, fun P k => ?_,
    fun P => ?_⟩, hm⟩
  · rw [hl]; exact (H.links P k).1
  · exact (H.links P k).2.congr (fun b hb => hn P b (hD P k b hb)) fun b hb => hp P b (hD P k b hb)
  · rw [hsize P b (hD P k b hb)]; exact H.cls P k b hb
  · refine (H.sorted P k).imp_of_mem fun {b c} hb hc h => ?_
    rw [hsize P b (hD P k b hb), hsize P c (hD P k c hc)]
    exact h
  · have hsum : ∑ k ∈ Finset.range numFreeLists, ((F P k).map s'.size).sum =
        ∑ k ∈ Finset.range numFreeLists, ((F P k).map s.size).sum := by
      refine Finset.sum_congr rfl fun k _ => ?_
      rw [List.map_congr_left fun b hb => hsize P b (hD P k b hb)]
    rw [hfree, H.sum P, hsum]

theorem FreeInv.addFree (H : FreeInv s D) (hnew : ∀ Q, a ∉ D Q) (hlive : ∀ b ∈ D P, b ∈ s.live) :
    ∃ fn fp fl free, s.addFree P a = .ok (s.withFreeList P fn fp fl free) ∧
      FreeInv (s.withFreeList P fn fp fl free) (addTo D P a) := by
  obtain ⟨F, H, hm⟩ := H
  have hlen : (F P (getFreeList (s.size a))).length ≤ s.live.length :=
    ((H.nodup P _).subperm fun b hb => hlive b ((hm P b).mp ⟨_, hb⟩)).length_le
  obtain ⟨fn, fp, fl, free, l, heq, hperm, H'⟩ := @FreeLists.addFree s F P a H
    (fun Q k h => hnew Q ((hm Q a).mp ⟨k, h⟩)) (by simp only [State.listFuel]; omega)
  refine ⟨fn, fp, fl, free, heq, _, H', fun Q b => ?_⟩
  by_cases hQ : Q = P
  · subst hQ
    simp only [mem_addTo, ← hm, Function.update_self, true_and]
    constructor
    · rintro ⟨k, hk⟩
      by_cases hke : k = getFreeList (s.size a)
      · subst hke
        rw [Function.update_self, hperm.mem_iff, List.mem_cons] at hk
        exact hk.elim .inr fun h => .inl ⟨_, h⟩
      · rw [Function.update_of_ne hke] at hk
        exact .inl ⟨k, hk⟩
    · rintro (⟨k, hk⟩ | rfl)
      · refine ⟨k, ?_⟩
        by_cases hke : k = getFreeList (s.size a)
        · subst hke
          rw [Function.update_self, hperm.mem_iff]
          exact List.mem_cons_of_mem _ hk
        · rwa [Function.update_of_ne hke]
      · exact ⟨_, by rw [Function.update_self, hperm.mem_iff]; simp⟩
  · simp [hQ, ← hm]

theorem FreeInv.removeFree (H : FreeInv s D) (ha : a ∈ D P) :
    ∃ fn fp fl free, s.removeFree P a = .ok (s.withFreeList P fn fp fl free) ∧
      FreeInv (s.withFreeList P fn fp fl free) (without D a) := by
  obtain ⟨F, H, hm⟩ := H
  obtain ⟨k, haF⟩ := (hm P a).mpr ha
  obtain ⟨fn, fp, fl, free, heq, H'⟩ := H.removeFree haF
  refine ⟨fn, fp, fl, free, heq, _, H', fun Q b => ?_⟩
  have hmem : ∀ j, b ∈ Function.update F P (Function.update (F P) k ((F P k).erase a)) Q j ↔
      b ∈ F Q j ∧ b ≠ a := by
    intro j
    by_cases hQ : Q = P ∧ j = k
    · obtain ⟨rfl, rfl⟩ := hQ
      simp [(H.nodup Q j).mem_erase_iff, and_comm]
    · have hF : Function.update F P (Function.update (F P) k ((F P k).erase a)) Q j = F Q j := by
        by_cases hQP : Q = P
        · subst hQP
          have : j ≠ k := fun e => hQ ⟨rfl, e⟩
          simp [this]
        · simp [hQP]
      rw [hF]
      exact ⟨fun hb => ⟨hb, fun e => hQ (H.disj Q j P k b hb (e ▸ haF))⟩, And.left⟩
  simp [hmem, ← hm]

/-- A scan of a free list ends, with a free area if it finds one, and it misses no area of the class. -/
theorem FreeInv.scan (H : FreeInv s D) (hlive : ∀ b ∈ D P, b ∈ s.live) (stop : Ptr → Bool)
    (k : Nat) : ∃ r, scan s.freeNext stop s.listFuel ((s.pools P).freeList k) = some r ∧
      (∀ b, r = some b → b ∈ D P ∧ stop b = true) ∧
      (r = none → ∀ b ∈ D P, getFreeList (s.size b) = k → stop b = false) := by
  obtain ⟨F, H, hm⟩ := H
  have hlen : (F P k).length ≤ s.live.length :=
    ((H.nodup P k).subperm fun b hb => hlive b ((hm P b).mp ⟨k, hb⟩)).length_le
  refine ⟨(F P k).find? stop, ?_, fun b hb => ?_, fun hnone b hb hcls => ?_⟩
  · rw [(H.links P k).1]
    exact (H.links P k).2.isSList.scan_eq (by simp only [State.listFuel]; omega)
  · exact ⟨(hm P b).mp ⟨k, List.mem_of_find?_eq_some hb⟩, List.find?_some hb⟩
  · obtain ⟨j, hj⟩ := (hm P b).mpr hb
    obtain rfl : j = k := (H.cls P j b hj).symm.trans hcls
    simpa using List.find?_eq_none.mp hnone b hj

theorem FreeInv.head_mem (H : FreeInv s D) (h : (s.pools P).freeList k = some a) : a ∈ D P := by
  obtain ⟨F, H, hm⟩ := H
  rw [(H.links P k).1] at h
  exact (hm P a).mp ⟨k, List.mem_of_mem_head? h⟩

end

end L4env.DMphys
