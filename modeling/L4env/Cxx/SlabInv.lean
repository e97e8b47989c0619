import L4env.Cxx.Slab
import Mathlib.Data.Finset.Image
import Mathlib.Algebra.BigOperators.Group.Finset.Basic

/-!
# Slab allocator of the C++ library: slabs and their lists

Each object of a slab is in its list of free objects or handed out, and a slab is in the list that the
number of its free objects tells.
-/

namespace L4env.Cxx

namespace SlabParams

variable {k : SlabParams} {s a i j : Nat}

/-- An object has room for a pointer, and a slab for an object. -/
structure Valid (k : SlabParams) : Prop where
  ptrSize : 0 < k.ptrSize
  objectSize : k.ptrSize ≤ k.objectSize
  slabSize : k.headSize + k.objectSize ≤ k.slabSize

theorem Valid.objectSize_pos (K : k.Valid) : 0 < k.objectSize := K.ptrSize.trans_le K.objectSize

theorem Valid.objectsPerSlab_pos (K : k.Valid) : 0 < k.objectsPerSlab :=
  Nat.div_pos (by have := K.slabSize; omega) K.objectSize_pos

/-- The objects end before the head of the slab. -/
theorem Valid.object_end (K : k.Valid) (hi : i < k.objectsPerSlab) :
    k.object s i + k.objectSize ≤ s + (k.slabSize - k.headSize) := by
  have hle : k.objectSize * (i + 1) ≤ k.objectSize * k.objectsPerSlab := Nat.mul_le_mul_left _ hi
  have hmul : k.objectSize * k.objectsPerSlab ≤ k.slabSize - k.headSize := Nat.mul_div_le _ _
  rw [Nat.mul_succ] at hle
  unfold object
  omega

theorem Valid.slabOf_eq (hs : k.slabSize ∣ s) (hle : s ≤ a) (hlt : a < s + k.slabSize) :
    k.slabOf a = s := by
  obtain ⟨q, rfl⟩ := hs
  have hdiv : a / k.slabSize = q := Nat.div_eq_of_lt_le (by rwa [Nat.mul_comm] at hle) (by
    rw [Nat.succ_mul, Nat.mul_comm]
    exact hlt)
  rw [slabOf, hdiv, Nat.mul_comm]

theorem Valid.slabOf_object (K : k.Valid) (hs : k.slabSize ∣ s) (hi : i < k.objectsPerSlab) :
    k.slabOf (k.object s i) = s := by
  have hend := K.object_end (s := s) hi
  have hpos := K.objectSize_pos
  exact slabOf_eq hs (Nat.le_add_right _ _) (by omega)

theorem Valid.object_injective (K : k.Valid) (s : Nat) : Function.Injective (k.object s) :=
  fun _ _ h => Nat.eq_of_mul_eq_mul_left K.objectSize_pos (Nat.add_left_cancel h)

def objects (k : SlabParams) (s : Nat) : Finset Nat := (Finset.range k.objectsPerSlab).image (k.object s)

theorem mem_objects : a ∈ k.objects s ↔ ∃ i < k.objectsPerSlab, k.object s i = a := by
  simp [objects]

theorem Valid.card_objects (K : k.Valid) (s : Nat) : (k.objects s).card = k.objectsPerSlab := by
  rw [objects, Finset.card_image_of_injective _ (K.object_injective s), Finset.card_range]

theorem Valid.slabOf_of_mem (K : k.Valid) (hs : k.slabSize ∣ s) (ha : a ∈ k.objects s) :
    k.slabOf a = s := by
  obtain ⟨i, hi, rfl⟩ := mem_objects.mp ha
  exact K.slabOf_object hs hi

/-- Objects of aligned slabs are the same or do not overlap. -/
theorem Valid.objects_apart (K : k.Valid) {s' a' : Nat} (hs : k.slabSize ∣ s) (hs' : k.slabSize ∣ s')
    (ha : a ∈ k.objects s) (ha' : a' ∈ k.objects s') (hlt : a < a') : a + k.objectSize ≤ a' := by
  obtain ⟨i, hi, rfl⟩ := mem_objects.mp ha
  obtain ⟨j, hj, rfl⟩ := mem_objects.mp ha'
  obtain ⟨q, rfl⟩ := hs
  obtain ⟨q', rfl⟩ := hs'
  obtain hq | rfl | hq := Nat.lt_trichotomy q q'
  · have hend := K.object_end (s := k.slabSize * q) hi
    have hmul : k.slabSize * (q + 1) ≤ k.slabSize * q' := Nat.mul_le_mul_left _ hq
    rw [Nat.mul_succ] at hmul
    unfold object at hend ⊢
    omega
  · have hij : i < j := by
      unfold object at hlt
      exact Nat.lt_of_mul_lt_mul_left (Nat.lt_of_add_lt_add_left hlt)
    have hmul : k.objectSize * (i + 1) ≤ k.objectSize * j := Nat.mul_le_mul_left _ hij
    rw [Nat.mul_succ] at hmul
    unfold object
    omega
  · have hend := K.object_end (s := k.slabSize * q') hj
    have hmul : k.slabSize * (q' + 1) ≤ k.slabSize * q := Nat.mul_le_mul_left _ hq
    rw [Nat.mul_succ] at hmul
    unfold object at hend hlt
    omega

end SlabParams

namespace BaseSlab

/-- The lists of a cache. -/
inductive Kind where
  | full
  | partly
  | empty
  deriving DecidableEq

def heads (c : BaseSlab) : Kind → Option Nat
  | .full => c.fullSlabs
  | .partly => c.partialSlabs
  | .empty => c.emptySlabs

/-- A slab with so many free objects belongs to the list. -/
def Fits (k : SlabParams) : Kind → Nat → Prop
  | .full, num => num = 0
  | .partly, num => 0 < num ∧ num < k.objectsPerSlab
  | .empty, num => num = k.objectsPerSlab

/-! ## The three lists -/

structure Lists (m : ListItems) (h : Kind → Option Nat) (l : Kind → List Nat) : Prop where
  ring : ∀ i, m.Ring (h i) (l i)
  disjoint : ∀ i j, i ≠ j → (l i).Disjoint (l j)

section
variable {m : ListItems} {h : Kind → Option Nat} {l : Kind → List Nat} {i : Kind} {x : Nat}
  {l₁ l₂ : List Nat}

theorem mem_push {y : Nat} {j : Kind} :
    y ∈ Function.update l i (x :: l i) j ↔ (j = i ∧ y = x) ∨ y ∈ l j := by
  by_cases hj : j = i
  · subst hj
    simp
  · rw [Function.update_of_ne hj]
    simp [hj]

theorem mem_remove {y : Nat} {j : Kind} (hl : l i = l₁ ++ x :: l₂) :
    y ∈ l j ↔ (j = i ∧ y = x) ∨ y ∈ Function.update l i (l₁ ++ l₂) j := by
  by_cases hj : j = i
  · subst hj
    rw [hl, Function.update_self]
    simp only [List.mem_append, List.mem_cons, true_and]
    exact or_left_comm
  · rw [Function.update_of_ne hj]
    simp [hj]

theorem Lists.push (L : Lists m h l) (hs : m.Single x) (hx : ∀ j, x ∉ l j) :
    Lists (m.pushFront (h i) x).2 (Function.update h i (m.pushFront (h i) x).1)
      (Function.update l i (x :: l i)) := by
  obtain ⟨hring, hkeeps⟩ := (L.ring i).pushFront hs (hx i)
  refine ⟨fun j => ?_, fun j j' hne y hy hy' => ?_⟩
  · by_cases hj : j = i
    · rw [hj, Function.update_self, Function.update_self]
      exact hring
    · rw [Function.update_of_ne hj, Function.update_of_ne hj]
      refine hkeeps.ring (L.ring j) fun y hy hmem => ?_
      obtain rfl | hmem := List.mem_cons.mp hmem
      · exact hx j hy
      · exact L.disjoint j i hj hy hmem
  · obtain ⟨rfl, rfl⟩ | hold := mem_push.mp hy
    · obtain ⟨rfl, -⟩ | hold' := mem_push.mp hy'
      · exact hne rfl
      · exact hx j' hold'
    · obtain ⟨rfl, rfl⟩ | hold' := mem_push.mp hy'
      · exact hx j hold
      · exact L.disjoint j j' hne hold hold'

theorem Lists.remove (L : Lists m h l) (hl : l i = l₁ ++ x :: l₂) :
    Lists (m.remove (h i) x).2 (Function.update h i (m.remove (h i) x).1)
      (Function.update l i (l₁ ++ l₂)) ∧ (m.remove (h i) x).2.Single x ∧
      ∀ j, x ∉ Function.update l i (l₁ ++ l₂) j := by
  have hr := L.ring i
  rw [hl] at hr
  obtain ⟨hring, hsingle, hkeeps⟩ := hr.remove
  have hx : x ∉ l₁ ++ l₂ := (List.nodup_cons.mp (List.nodup_middle.mp hr.nodup)).1
  have hmem : x ∈ l i := by
    rw [hl]
    exact List.mem_append_right _ List.mem_cons_self
  have hsub : ∀ j, Function.update l i (l₁ ++ l₂) j ⊆ l j := fun j y hy => (mem_remove hl).mpr (.inr hy)
  refine ⟨⟨fun j => ?_, fun j j' hne y hy hy' => L.disjoint j j' hne (hsub j hy) (hsub j' hy')⟩,
    hsingle, fun j hj => ?_⟩
  · by_cases hj : j = i
    · rw [hj, Function.update_self, Function.update_self]
      exact hring
    · rw [Function.update_of_ne hj, Function.update_of_ne hj]
      refine hkeeps.ring (L.ring j) fun y hy hmem => ?_
      rw [← hl] at hmem
      exact L.disjoint j i hj hy hmem
  · by_cases hji : j = i
    · rw [hji, Function.update_self] at hj
      exact hx hj
    · exact L.disjoint j i hji (hsub j hj) hmem

end

/-! ## Slabs -/

/-- The objects `L` of the slab `s` are free, and the others are handed out. -/
structure FreeList (k : SlabParams) (c : BaseSlab) (out : Finset Nat) (s : Nat) (L : List Nat) : Prop where
  chain : IsSList c.next (c.slabFree s) L
  nodup : L.Nodup
  length : c.slabNumFree s = L.length
  objects : ∀ a, a ∈ k.objects s ↔ a ∈ L ∨ (a ∈ out ∧ k.slabOf a = s)
  free : ∀ a ∈ L, a ∉ out

/-- What holds of a slab in the list `i`. -/
structure SlabOk (k : SlabParams) (c : BaseSlab) (out : Finset Nat) (i : Kind) (s : Nat) : Prop where
  pos : 0 < s
  aligned : k.slabSize ∣ s
  cache : c.cache s = some k.this
  fits : Fits k i (c.slabNumFree s)
  list : ∃ L, FreeList k c out s L

section
variable {k : SlabParams} {c c' : BaseSlab} {out out' : Finset Nat} {i : Kind} {s x o a : Nat}
  {L : List Nat}

theorem FreeList.mem_objects (F : FreeList k c out s L) (ha : a ∈ L) : a ∈ k.objects s :=
  (F.objects a).mpr (.inl ha)

theorem FreeList.card (F : FreeList k c out s L) (K : k.Valid) :
    c.slabNumFree s + (out.filter fun a => k.slabOf a = s).card = k.objectsPerSlab := by
  have hunion : k.objects s = L.toFinset ∪ out.filter fun a => k.slabOf a = s := by
    ext a
    simp [F.objects a]
  have hdisj : Disjoint L.toFinset (out.filter fun a => k.slabOf a = s) := by
    refine Finset.disjoint_left.mpr fun a ha ha' => ?_
    exact F.free a (List.mem_toFinset.mp ha) (Finset.mem_filter.mp ha').1
  rw [← K.card_objects s, hunion, Finset.card_union_of_disjoint hdisj,
    List.toFinset_card_of_nodup F.nodup, F.length]

/-- The slab is not touched. -/
theorem SlabOk.congr (S : SlabOk k c out i s) (K : k.Valid) (hfree : c'.slabFree s = c.slabFree s)
    (hnum : c'.slabNumFree s = c.slabNumFree s) (hcache : c'.cache s = c.cache s)
    (hnext : ∀ a ∈ k.objects s, a ∉ out → c'.next a = c.next a)
    (hout : ∀ a, k.slabOf a = s → (a ∈ out' ↔ a ∈ out)) : SlabOk k c' out' i s := by
  obtain ⟨L, F⟩ := S.list
  refine ⟨S.pos, S.aligned, hcache.trans S.cache, hnum ▸ S.fits, L, ?_, F.nodup, hnum.trans F.length,
    fun a => ?_, fun a ha => ?_⟩
  · rw [hfree]
    exact F.chain.congr fun a ha => hnext a (F.mem_objects ha) (F.free a ha)
  · rw [F.objects a]
    exact or_congr_right (and_congr_left fun h => (hout a h).symm)
  · have hslab := K.slabOf_of_mem S.aligned (F.mem_objects ha)
    exact fun h => F.free a ha ((hout a hslab).mp h)

/-- The slabs of the lists `l`. -/
def Slabs (k : SlabParams) (c : BaseSlab) (out : Finset Nat) (l : Kind → List Nat) : Prop :=
  ∀ i, ∀ s ∈ l i, SlabOk k c out i s

/-- The number of slabs. -/
def total (l : Kind → List Nat) : Nat := (l .full).length + (l .partly).length + (l .empty).length

/-- A cache with the slabs `l` in its lists. -/
structure Inv (k : SlabParams) (c : BaseSlab) (out blocks : Finset Nat) (l : Kind → List Nat) :
    Prop where
  lists : Lists c.items c.heads l
  slabs : Slabs k c out l
  mem_blocks : ∀ s, s ∈ blocks ↔ ∃ i, s ∈ l i
  out : ∀ o ∈ out, k.slabOf o ∈ blocks
  numFree : c.numFree = (l .empty).length
  numSlabs : c.numSlabs = total l

theorem heads_pushFull : (c.pushFull s).heads =
    Function.update c.heads .full (c.items.pushFront (c.heads .full) s).1 := by
  funext i
  cases i <;> rfl

theorem heads_pushPartial : (c.pushPartial s).heads =
    Function.update c.heads .partly (c.items.pushFront (c.heads .partly) s).1 := by
  funext i
  cases i <;> rfl

theorem heads_pushEmpty : (c.pushEmpty s).heads =
    Function.update c.heads .empty (c.items.pushFront (c.heads .empty) s).1 := by
  funext i
  cases i <;> rfl

theorem heads_removeFull : (c.removeFull s).heads =
    Function.update c.heads .full (c.items.remove (c.heads .full) s).1 := by
  funext i
  cases i <;> rfl

theorem heads_removePartial : (c.removePartial s).heads =
    Function.update c.heads .partly (c.items.remove (c.heads .partly) s).1 := by
  funext i
  cases i <;> rfl

theorem heads_removeEmpty : (c.removeEmpty s).heads =
    Function.update c.heads .empty (c.items.remove (c.heads .empty) s).1 := by
  funext i
  cases i <;> rfl

/-! ## A new slab -/

theorem initFree_spec (K : k.Valid) (next : Nat → Option Nat) (n : Nat) :
    (initFree k s next (n + 1)).2 = k.object s n ∧
      IsSList (Function.update (initFree k s next (n + 1)).1 (initFree k s next (n + 1)).2 none)
        (some (k.object s 0)) ((List.range (n + 1)).map (k.object s)) := by
  induction n with
  | zero => exact ⟨rfl, rfl, by simp [initFree, IsSList]⟩
  | succ n ih =>
    obtain ⟨hlast, hlist⟩ := ih
    have hnd : ((List.range (n + 1)).map (k.object s)).Nodup :=
      List.nodup_range.map (K.object_injective s)
    have hend : ((List.range (n + 1)).map (k.object s)).getLast? = some (k.object s n) := by
      simp [List.range_succ]
    have hne : k.object s n ≠ k.object s (n + 1) := fun h =>
      absurd (K.object_injective s h) (Nat.ne_of_lt (Nat.lt_succ_self n))
    have hmem : ∀ y ∈ (List.range (n + 1)).map (k.object s), y ≠ k.object s (n + 1) := by
      intro y hy
      obtain ⟨j, hj, rfl⟩ := List.mem_map.mp hy
      exact fun h => absurd (K.object_injective s h) (Nat.ne_of_lt (List.mem_range.mp hj))
    have hpush : IsSList (Function.update (initFree k s next (n + 2)).1 (initFree k s next (n + 2)).2 none)
        (if (List.range (n + 1)).map (k.object s) = [] then some (k.object s (n + 1))
          else some (k.object s 0))
        ((List.range (n + 1)).map (k.object s) ++ [k.object s (n + 1)]) := by
      refine hlist.push hnd ?_ (fun y hy hyl => ?_) fun y hy => ?_
      · exact Function.update_self ..
      · have hyn : y ≠ k.object s n := fun h => hyl (h ▸ hend)
        rw [hlast, Function.update_of_ne hyn]
        simp only [initFree]
        rw [Function.update_of_ne (hmem y hy)]
        exact Function.update_of_ne (hlast ▸ hyn) ..
      · obtain rfl : k.object s n = y := Option.some.inj (hend.symm.trans hy)
        simp only [initFree]
        rw [Function.update_of_ne hne]
        exact (congrArg _ hlast.symm).trans (Function.update_self ..)
    refine ⟨rfl, ?_⟩
    rw [List.range_succ, List.map_append]
    simpa using hpush

theorem initFree_frame {n : Nat} (next : Nat → Option Nat) (K : k.Valid) (hn : n ≤ k.objectsPerSlab)
    (ha : a ∉ k.objects s) : (initFree k s next n).1 a = next a ∧ (initFree k s next n).2 ≠ a := by
  have hne : ∀ i < k.objectsPerSlab, k.object s i ≠ a :=
    fun i hi h => ha (SlabParams.mem_objects.mpr ⟨i, hi, h⟩)
  induction n with
  | zero => exact ⟨rfl, hne 0 K.objectsPerSlab_pos⟩
  | succ n ih =>
    obtain ⟨h1, h2⟩ := ih (Nat.le_of_succ_le hn)
    refine ⟨?_, hne n hn⟩
    simp only [initFree]
    rw [Function.update_of_ne h2.symm, h1]

/-- Only the slab `s` and its objects are changed. -/
structure SameBut (k : SlabParams) (c c' : BaseSlab) (s : Nat) : Prop where
  slabFree : ∀ x, x ≠ s → c'.slabFree x = c.slabFree x
  slabNumFree : ∀ x, x ≠ s → c'.slabNumFree x = c.slabNumFree x
  cache : ∀ x, x ≠ s → c'.cache x = c.cache x
  next : ∀ a, a ∉ k.objects s → c'.next a = c.next a

/-- A step that works on the slab `s`. -/
theorem Slabs.update {l l' : Kind → List Nat} (H : Slabs k c out l) (K : k.Valid)
    (hs : k.slabSize ∣ s) (S : SameBut k c c' s) (hout : ∀ a, k.slabOf a ≠ s → (a ∈ out' ↔ a ∈ out))
    (hself : ∀ i, s ∈ l' i → SlabOk k c' out' i s)
    (hothers : ∀ i, ∀ x ∈ l' i, x ≠ s → x ∈ l i) : Slabs k c' out' l' := by
  intro i x hx
  by_cases hxs : x = s
  · subst hxs
    exact hself i hx
  · have hold := H i x (hothers i x hx hxs)
    refine hold.congr K (S.slabFree x hxs) (S.slabNumFree x hxs) (S.cache x hxs) (fun a ha _ => ?_)
      fun a ha => hout a (ha ▸ hxs)
    refine S.next a fun has => hxs ?_
    rw [← K.slabOf_of_mem hold.aligned ha, K.slabOf_of_mem hs has]

theorem total_push {l : Kind → List Nat} : total (Function.update l i (x :: l i)) = total l + 1 := by
  cases i <;> simp [total] <;> omega

theorem total_remove {l : Kind → List Nat} {l₁ l₂ : List Nat} (hl : l i = l₁ ++ x :: l₂) :
    total (Function.update l i (l₁ ++ l₂)) + 1 = total l := by
  cases i <;> simp [total, hl] <;> omega

/-- A step that works on a slab of the cache, with the lists `l'` behind it. -/
theorem Inv.update {blocks : Finset Nat} {l l' : Kind → List Nat} (I : Inv k c out blocks l) (K : k.Valid)
    (hs : k.slabSize ∣ s) (hmem : s ∈ blocks) (S : SameBut k c c' s)
    (hlists : Lists c'.items c'.heads l') (hblocks : ∀ x, (∃ i, x ∈ l' i) ↔ ∃ i, x ∈ l i)
    (hout : ∀ a, k.slabOf a ≠ s → (a ∈ out' ↔ a ∈ out))
    (hself : ∀ i, s ∈ l' i → SlabOk k c' out' i s) (hothers : ∀ i, ∀ x ∈ l' i, x ≠ s → x ∈ l i)
    (hfree : c'.numFree = (l' .empty).length) (hnum : c'.numSlabs = total l') :
    Inv k c' out' blocks l' := by
  refine ⟨hlists, I.slabs.update K hs S hout hself hothers, fun x => ?_, fun a ha => ?_, hfree, hnum⟩
  · rw [I.mem_blocks, hblocks]
  · by_cases has : k.slabOf a = s
    · rwa [has]
    · exact I.out a ((hout a has).mp ha)

/-- The first free object `o` of the slab `s` is taken. -/
structure Takes (c c' : BaseSlab) (s o : Nat) : Prop where
  slabFree : c'.slabFree = Function.update c.slabFree s (c.next o)
  slabNumFree : c'.slabNumFree = Function.update c.slabNumFree s (c.slabNumFree s - 1)
  cache : c'.cache = c.cache
  next : c'.next = c.next

theorem Takes.same (T : Takes c c' s o) : SameBut k c c' s := by
  refine ⟨fun x hx => ?_, fun x hx => ?_, fun x _ => ?_, fun a _ => ?_⟩
  · rw [T.slabFree, Function.update_of_ne hx]
  · rw [T.slabNumFree, Function.update_of_ne hx]
  · rw [T.cache]
  · rw [T.next]

theorem Takes.slabOk {j : Kind} (T : Takes c c' s o) (K : k.Valid) (S : SlabOk k c out i s)
    (F : FreeList k c out s (o :: L)) (hfits : Fits k j L.length) : SlabOk k c' (insert o out) j s := by
  obtain ⟨ho, hnd⟩ := List.nodup_cons.mp F.nodup
  have hnum : c'.slabNumFree s = L.length := by
    rw [T.slabNumFree, Function.update_self, F.length]
    rfl
  refine ⟨S.pos, S.aligned, by rw [T.cache, S.cache], hnum ▸ hfits, L, ?_, hnd, hnum, fun a => ?_,
    fun a ha => ?_⟩
  · rw [T.slabFree, Function.update_self, T.next]
    exact F.chain.2
  · have hslab : k.slabOf o = s := K.slabOf_of_mem S.aligned (F.mem_objects List.mem_cons_self)
    rw [F.objects a, List.mem_cons, Finset.mem_insert]
    by_cases hao : a = o
    · simp [hao, hslab]
    · simp [hao]
  · rw [Finset.mem_insert, not_or]
    exact ⟨fun h => ho (h ▸ ha), F.free a (List.mem_cons_of_mem o ha)⟩

/-- The object `o` becomes the first free one of the slab `s`. -/
structure Puts (c c' : BaseSlab) (s o : Nat) : Prop where
  slabFree : c'.slabFree = Function.update c.slabFree s (some o)
  slabNumFree : c'.slabNumFree = Function.update c.slabNumFree s (c.slabNumFree s + 1)
  cache : c'.cache = c.cache
  next : c'.next = Function.update c.next o (c.slabFree s)

theorem Puts.same (T : Puts c c' s o) (ho : o ∈ k.objects s) : SameBut k c c' s := by
  refine ⟨fun x hx => ?_, fun x hx => ?_, fun x _ => ?_, fun a ha => ?_⟩
  · rw [T.slabFree, Function.update_of_ne hx]
  · rw [T.slabNumFree, Function.update_of_ne hx]
  · rw [T.cache]
  · have hao : a ≠ o := fun h => ha (h ▸ ho)
    rw [T.next, Function.update_of_ne hao]

theorem Puts.slabOk {j : Kind} (T : Puts c c' s o) (S : SlabOk k c out i s) (F : FreeList k c out s L)
    (ho : o ∈ out) (hslab : k.slabOf o = s) (hfits : Fits k j (L.length + 1)) :
    SlabOk k c' (out.erase o) j s := by
  have hnot : o ∉ L := fun h => F.free o h ho
  have hnum : c'.slabNumFree s = L.length + 1 := by
    rw [T.slabNumFree, Function.update_self, F.length]
  refine ⟨S.pos, S.aligned, by rw [T.cache, S.cache], hnum ▸ hfits, o :: L, ⟨?_, ?_⟩,
    List.nodup_cons.mpr ⟨hnot, F.nodup⟩, hnum, fun a => ?_, fun a ha => ?_⟩
  · rw [T.slabFree, Function.update_self]
  · rw [T.next, Function.update_self]
    refine F.chain.congr fun a ha => ?_
    have hao : a ≠ o := fun h => hnot (h ▸ ha)
    exact Function.update_of_ne hao ..
  · rw [F.objects a, List.mem_cons, Finset.mem_erase]
    by_cases hao : a = o
    · simp [hao, hslab, ho]
    · simp [hao]
  · rw [Finset.mem_erase, not_and]
    obtain rfl | ha := List.mem_cons.mp ha
    · exact fun h => absurd rfl h
    · exact fun _ => F.free a ha

/-- The slab `s` is moved from the list `i` to the front of the list `j`. -/
theorem Inv.move {blocks : Finset Nat} {l : Kind → List Nat} {l₁ l₂ : List Nat} {j : Kind}
    (I : Inv k c out blocks l) (K : k.Valid) (hl : l i = l₁ ++ s :: l₂)
    (hitems : c'.items = ((c.items.remove (c.heads i) s).2.pushFront
      (Function.update c.heads i (c.items.remove (c.heads i) s).1 j) s).2)
    (hheads : c'.heads = Function.update (Function.update c.heads i (c.items.remove (c.heads i) s).1) j
      ((c.items.remove (c.heads i) s).2.pushFront
        (Function.update c.heads i (c.items.remove (c.heads i) s).1 j) s).1)
    (S : SameBut k c c' s) (hout : ∀ a, k.slabOf a ≠ s → (a ∈ out' ↔ a ∈ out))
    (hself : SlabOk k c' out' j s)
    (hfree : c'.numFree + (if i = .empty then 1 else 0) = c.numFree + if j = .empty then 1 else 0)
    (hnum : c'.numSlabs = c.numSlabs) : ∃ l', Inv k c' out' blocks l' := by
  have hmem : s ∈ l i := by
    rw [hl]
    exact List.mem_append_right _ List.mem_cons_self
  have hin : ∀ x j', x ∈ Function.update (Function.update l i (l₁ ++ l₂)) j
      (s :: Function.update l i (l₁ ++ l₂) j) j' → (j' = j ∧ x = s) ∨ x ∈ l j' :=
    fun x j' h => (mem_push.mp h).imp_right fun h => (mem_remove hl).mpr (.inr h)
  obtain ⟨hrem, hsingle, hnot⟩ := I.lists.remove hl
  have hold := (I.mem_blocks s).mpr ⟨i, hmem⟩
  refine ⟨_, I.update K hself.aligned hold S (by rw [hitems, hheads]; exact hrem.push hsingle hnot)
    (fun x => ⟨?_, ?_⟩) hout (fun j' hj' => ?_) (fun j' x hx hxs => ?_) ?_ ?_⟩
  · rintro ⟨j', hx⟩
    obtain ⟨-, rfl⟩ | hx := hin x j' hx
    · exact ⟨i, hmem⟩
    · exact ⟨j', hx⟩
  · rintro ⟨j', hx⟩
    obtain ⟨-, rfl⟩ | hx := (mem_remove hl).mp hx
    · exact ⟨j, mem_push.mpr (.inl ⟨rfl, rfl⟩)⟩
    · exact ⟨j', mem_push.mpr (.inr hx)⟩
  · obtain ⟨rfl, -⟩ := (mem_push.mp hj').resolve_right (hnot j')
    exact hself
  · exact (hin x j' hx).resolve_left fun h => hxs h.2
  · have hlen := I.numFree
    cases i <;> cases j <;> simp [hl] at hlen hfree ⊢ <;> omega
  · rw [total_push, total_remove hl, hnum, I.numSlabs]

end

end BaseSlab

end L4env.Cxx
