import L4env.Cxx.SlabInv

/-!
# Slab allocator of the C++ library: runs

In every run the slabs are in the list that the number of their free objects tells, the counts are right,
and no object is handed out twice.
-/

namespace L4env.Cxx

namespace BaseSlab

variable {k : SlabParams} {c c' : BaseSlab} {out blocks : Finset Nat} {l : Kind → List Nat} {s o : Nat}

/-- A new slab is empty. -/
theorem Inv.grow (I : Inv k c out blocks l) (K : k.Valid) (hpos : 0 < s) (hs : k.slabSize ∣ s)
    (hnew : s ∉ blocks) :
    Inv k (c.grow k s) out (insert s blocks) (Function.update l .empty (s :: l .empty)) := by
  have hnot : ∀ i, s ∉ l i := fun i h => hnew ((I.mem_blocks s).mpr ⟨i, h⟩)
  have hkeeps : ListItems.Keeps c.items (c.construct s).items [s] := by
    intro x hx
    have hxs : x ≠ s := by simpa using hx
    simp [construct, hxs]
  have hlists : Lists (c.construct s).items c.heads l := by
    refine ⟨fun i => hkeeps.ring (I.lists.ring i) fun x hx hxs => ?_, I.lists.disjoint⟩
    exact hnot i (List.mem_singleton.mp hxs ▸ hx)
  have hsingle : (c.construct s).items.Single s := by simp [construct, ListItems.Single]
  have hheads : (c.grow k s).heads =
      Function.update c.heads .empty ((c.construct s).items.pushFront (c.heads .empty) s).1 := by
    funext i
    cases i <;> rfl
  refine ⟨?_, ?_, fun x => ?_, fun a ha => Finset.mem_insert_of_mem (I.out a ha), ?_, ?_⟩
  · rw [hheads]
    exact hlists.push (i := .empty) hsingle hnot
  · refine I.slabs.update K hs ?_ (fun _ _ => Iff.rfl) (fun i hi => ?_) fun i x hx hxs => ?_
    · refine ⟨fun x hx => ?_, fun x hx => ?_, fun x hx => ?_, fun a ha => ?_⟩
      · simp [BaseSlab.grow, addSlab, pushEmpty, construct, hx]
      · simp [BaseSlab.grow, addSlab, pushEmpty, construct, hx]
      · simp [BaseSlab.grow, addSlab, pushEmpty, construct, hx]
      · obtain ⟨hnext, hne⟩ := initFree_frame c.next K le_rfl ha
        exact (Function.update_of_ne hne.symm ..).trans hnext
    · obtain ⟨hi, -⟩ := (mem_push.mp hi).resolve_right (hnot i)
      subst hi
      obtain ⟨n, hn⟩ := Nat.exists_eq_succ_of_ne_zero K.objectsPerSlab_pos.ne'
      have hnum : (c.grow k s).slabNumFree s = k.objectsPerSlab := by
        simp [BaseSlab.grow, addSlab, pushEmpty]
      refine ⟨hpos, hs, by simp [BaseSlab.grow, addSlab, pushEmpty], hnum,
        (List.range k.objectsPerSlab).map (k.object s), ?_, ?_, ?_, fun a => ?_, fun a ha hout => ?_⟩
      · have hfree : (c.grow k s).slabFree s = some (k.object s 0) := by
          simp [BaseSlab.grow, addSlab, pushEmpty]
        have hlist := (initFree_spec (s := s) K c.next n).2
        rw [hfree]
        simp only [BaseSlab.grow, addSlab, pushEmpty, construct, hn]
        exact hlist
      · exact List.nodup_range.map (K.object_injective s)
      · rw [hnum, List.length_map, List.length_range]
      · rw [SlabParams.mem_objects, List.mem_map]
        simp only [List.mem_range]
        refine ⟨.inl, ?_⟩
        rintro (hobj | ⟨hout, hslab⟩)
        · exact hobj
        · exact absurd (hslab ▸ I.out a hout) hnew
      · obtain ⟨i, hi, rfl⟩ := List.mem_map.mp ha
        have hslab := K.slabOf_object hs (List.mem_range.mp hi)
        exact hnew (hslab ▸ I.out _ hout)
    · exact (mem_push.mp hx).resolve_left fun h => hxs h.2
  · rw [Finset.mem_insert, I.mem_blocks x]
    simp only [mem_push, exists_or, exists_and_right, exists_eq, true_and]
  · simp [BaseSlab.grow, addSlab, pushEmpty, construct, I.numFree]
  · rw [total_push]
    simp [BaseSlab.grow, addSlab, pushEmpty, construct, I.numSlabs]

/-- The head of a list and the first free object of this slab. -/
theorem Inv.first {i : Kind} (I : Inv k c out blocks l) (hhead : c.heads i = some s)
    (hfits : ¬Fits k i 0) : ∃ l' o L, l i = [] ++ s :: l' ∧ SlabOk k c out i s ∧ s ∈ blocks ∧
      FreeList k c out s (o :: L) ∧ c.slabFree s = some o ∧ c.slabNumFree s = L.length + 1 ∧
      (c.next o = none ↔ L = []) := by
  obtain ⟨l', hl⟩ := List.head?_eq_some_iff.mp ((I.lists.ring i).head.symm.trans hhead)
  have hs : s ∈ l i := hl ▸ List.mem_cons_self
  have S := I.slabs i s hs
  obtain ⟨L, F⟩ := S.list
  cases L with
  | nil =>
    have hfits' := S.fits
    rw [F.length] at hfits'
    exact absurd hfits' hfits
  | cons o L =>
    obtain ⟨hfree, hrest⟩ := F.chain
    refine ⟨l', o, L, hl, S, (I.mem_blocks s).mpr ⟨i, hs⟩, F, hfree, F.length, ?_⟩
    rw [IsSList.head_eq hrest, List.head?_eq_none_iff]

/-- The fields of the slab `s` once its object `o` is taken. -/
def taken (c : BaseSlab) (s o : Nat) : BaseSlab :=
  { c with
    slabFree := Function.update c.slabFree s (c.next o)
    slabNumFree := Function.update c.slabNumFree s (c.slabNumFree s - 1) }

/-- An object is taken from a slab that is partially used. -/
theorem Inv.take_partly (I : Inv k c out blocks l) (K : k.Valid) (hhead : c.partialSlabs = some s) :
    ∃ o c' l', c.take false = some (o, c') ∧ o ∈ k.objects s ∧ o ∉ out ∧ s ∈ blocks ∧
      Inv k c' (insert o out) blocks l' ∧ c'.numFree = c.numFree := by
  obtain ⟨P, o, L, hP, S, hblock, F, hfree, hnum, hnone⟩ :=
    I.first (i := .partly) hhead fun h => h.1.false
  have ho := F.mem_objects List.mem_cons_self
  have hslab := K.slabOf_of_mem S.aligned ho
  have hother : ∀ a, k.slabOf a ≠ s → (a ∈ insert o out ↔ a ∈ out) := by
    intro a ha
    rw [Finset.mem_insert]
    exact or_iff_right fun h => ha (h ▸ hslab)
  obtain ⟨hpos, hlt⟩ := S.fits
  have htake : c.take false = some (o, if c.next o = none then
      ((c.taken s o).removePartial s).pushFull s else c.taken s o) := by
    simp [BaseSlab.take, hhead, hfree, taken]
  rw [htake]
  cases L with
  | nil =>
    rw [if_pos (hnone.mpr rfl)]
    have T : Takes c (((c.taken s o).removePartial s).pushFull s) s o := ⟨rfl, rfl, rfl, rfl⟩
    obtain ⟨l', I'⟩ := I.move (j := .full) K hP rfl
      (by rw [heads_pushFull, heads_removePartial]; rfl) T.same hother (T.slabOk K S F rfl) rfl rfl
    exact ⟨o, _, l', rfl, ho, F.free o List.mem_cons_self, hblock, I', rfl⟩
  | cons o' L =>
    rw [if_neg (mt hnone.mp (List.cons_ne_nil o' L))]
    have T : Takes c (c.taken s o) s o := ⟨rfl, rfl, rfl, rfl⟩
    have hfits : Fits k .partly (o' :: L).length := ⟨Nat.succ_pos _, by omega⟩
    refine ⟨o, _, l, rfl, ho, F.free o List.mem_cons_self, hblock,
      I.update K S.aligned hblock T.same I.lists (fun _ => Iff.rfl) hother (fun i hi => ?_)
        (fun _ _ hx _ => hx) I.numFree I.numSlabs, rfl⟩
    obtain rfl : i = .partly := by
      by_contra hne
      exact I.lists.disjoint i .partly hne hi (hP ▸ List.mem_cons_self)
    exact T.slabOk K S F hfits

/-- An object is taken from an empty slab. A slab with a single object is full then. -/
theorem Inv.take_empty (I : Inv k c out blocks l) (K : k.Valid) (hpart : c.partialSlabs = none)
    (hhead : c.emptySlabs = some s) :
    ∃ o c' l', c.take true = some (o, c') ∧ o ∈ k.objects s ∧ o ∉ out ∧ s ∈ blocks ∧
      Inv k c' (insert o out) blocks l' ∧ c'.numFree + 1 = c.numFree := by
  obtain ⟨E, o, L, hE, S, hblock, F, hfree, hnum, hnone⟩ :=
    I.first (i := .empty) hhead fun h => K.objectsPerSlab_pos.ne h
  have ho := F.mem_objects List.mem_cons_self
  have hslab := K.slabOf_of_mem S.aligned ho
  have hother : ∀ a, k.slabOf a ≠ s → (a ∈ insert o out ↔ a ∈ out) := by
    intro a ha
    rw [Finset.mem_insert]
    exact or_iff_right fun h => ha (h ▸ hslab)
  have hcount : c.numFree - 1 + 1 = c.numFree := by
    rw [I.numFree, hE]
    rfl
  have hops : k.objectsPerSlab = L.length + 1 := S.fits.symm.trans hnum
  have htake : c.take true = some (o, if c.next o = none then
      (({ (c.taken s o).removeEmpty s with numFree := c.numFree - 1 } : BaseSlab).removePartial s).pushFull s
      else ({ (c.taken s o).removeEmpty s with numFree := c.numFree - 1 } : BaseSlab).pushPartial s) := by
    simp [BaseSlab.take, hhead, hfree, taken, removeEmpty]
  rw [htake]
  cases L with
  | nil =>
    rw [if_pos (hnone.mpr rfl)]
    have hrem : ({ (c.taken s o).removeEmpty s with numFree := c.numFree - 1 } : BaseSlab).removePartial s =
        { (c.taken s o).removeEmpty s with numFree := c.numFree - 1 } := by
      simp [removePartial, removeEmpty, taken, hpart, ListItems.remove_none]
    rw [hrem]
    have T : Takes c (({ (c.taken s o).removeEmpty s with numFree := c.numFree - 1 } :
        BaseSlab).pushFull s) s o := ⟨rfl, rfl, rfl, rfl⟩
    obtain ⟨l', I'⟩ := I.move (j := .full) K hE rfl
      (by funext i; cases i <;> rfl) T.same hother (T.slabOk K S F rfl) hcount rfl
    exact ⟨o, _, l', rfl, ho, F.free o List.mem_cons_self, hblock, I', hcount⟩
  | cons o' L =>
    rw [if_neg (mt hnone.mp (List.cons_ne_nil o' L))]
    have T : Takes c (({ (c.taken s o).removeEmpty s with numFree := c.numFree - 1 } :
        BaseSlab).pushPartial s) s o := ⟨rfl, rfl, rfl, rfl⟩
    have hfits : Fits k .partly (o' :: L).length := ⟨Nat.succ_pos _, by omega⟩
    obtain ⟨l', I'⟩ := I.move (j := .partly) K hE rfl
      (by funext i; cases i <;> rfl) T.same hother (T.slabOk K S F hfits) hcount rfl
    exact ⟨o, _, l', rfl, ho, F.free o List.mem_cons_self, hblock, I', hcount⟩

/-- `alloc` returns an object that is not handed out, or there is no block for a slab. -/
theorem Inv.alloc (I : Inv k c out blocks l) (K : k.Valid) {block : Option Nat}
    (hblock : ∀ s ∈ block, 0 < s ∧ k.slabSize ∣ s ∧ s ∉ blocks) :
    ∃ r c' l', c.alloc k block = some (r, c') ∧
      Inv k c' (r.toFinset ∪ out) (SlabRun.grown c block ∪ blocks) l' ∧ c'.numFree ≤ c.numFree ∧
      (∀ o ∈ r, o ∉ out ∧ ∃ s ∈ SlabRun.grown c block ∪ blocks, o ∈ k.objects s) ∧
      (r = none → block = none) := by
  have hinsert : ∀ o, (some o).toFinset ∪ out = insert o out := fun o => by simp [Option.toFinset]
  have hfound : ∀ {o s : Nat} {B : Finset Nat}, o ∉ out → s ∈ B → o ∈ k.objects s →
      ∀ o' ∈ some o, o' ∉ out ∧ ∃ s ∈ B, o' ∈ k.objects s := by
    intro o s B hnot hs ho o' ho'
    cases ho'
    exact ⟨hnot, s, hs, ho⟩
  cases hpart : c.partialSlabs with
  | some s =>
    obtain ⟨o, c', l', htake, ho, hnot, hs, I', hle⟩ := I.take_partly K hpart
    have hgrown : SlabRun.grown c block ∪ blocks = blocks := by simp [SlabRun.grown, hpart]
    rw [hgrown]
    exact ⟨some o, c', l', by simp [BaseSlab.alloc, hpart, htake], hinsert o ▸ I', hle.le,
      hfound hnot hs ho, (by simp)⟩
  | none =>
    cases hempty : c.emptySlabs with
    | some s =>
      obtain ⟨o, c', l', htake, ho, hnot, hs, I', hle⟩ := I.take_empty K hpart hempty
      have hgrown : SlabRun.grown c block ∪ blocks = blocks := by simp [SlabRun.grown, hpart, hempty]
      rw [hgrown]
      exact ⟨some o, c', l', by simp [BaseSlab.alloc, hpart, hempty, htake], hinsert o ▸ I', by omega,
        hfound hnot hs ho, (by simp)⟩
    | none =>
      cases block with
      | none =>
        have hgrown : SlabRun.grown c none ∪ blocks = blocks := by simp [SlabRun.grown]
        rw [hgrown]
        exact ⟨none, c, l, by simp [BaseSlab.alloc, hpart, hempty], by simpa using I, le_rfl, (by simp),
          fun _ => rfl⟩
      | some b =>
        obtain ⟨hpos, hal, hnew⟩ := hblock b rfl
        have hgrown : SlabRun.grown c (some b) ∪ blocks = insert b blocks := by
          simp [SlabRun.grown, hpart, hempty]
        have hhead : (c.grow k b).emptySlabs = some b := by
          simp [BaseSlab.grow, addSlab, pushEmpty, construct, ListItems.pushFront, hempty]
        have hnum : (c.grow k b).numFree = c.numFree + 1 := rfl
        obtain ⟨o, c', l', htake, ho, hnot, hs, I', hle⟩ :=
          (I.grow K hpos hal hnew).take_empty K hpart hhead
        rw [hgrown]
        exact ⟨some o, c', l', by simp [BaseSlab.alloc, hpart, hempty, htake], hinsert o ▸ I',
          by omega, hfound hnot hs ho, (by simp)⟩

/-! ## Objects are put back -/

/-- The first empty slab, in which no object is in use, is given back. -/
theorem Inv.giveBack (I : Inv k c out blocks l) (K : k.Valid) (hhead : c.emptySlabs = some s) :
    (∃ l', Inv k { c.removeEmpty s with numFree := c.numFree - 1, numSlabs := c.numSlabs - 1 } out
      (blocks.erase s) l') ∧ s ∈ blocks ∧ ∀ o ∈ out, k.slabOf o ≠ s := by
  obtain ⟨E, o, L, hE, S, hblock, F, -, -, -⟩ :=
    I.first (i := .empty) hhead fun h => K.objectsPerSlab_pos.ne h
  obtain ⟨hrem, -, hnot⟩ := I.lists.remove hE
  have hunused : ∀ o ∈ out, k.slabOf o ≠ s := by
    intro o ho hslab
    have hcard := F.card K
    rw [S.fits, Nat.add_eq_left, Finset.card_eq_zero] at hcard
    exact Finset.notMem_empty o (hcard ▸ Finset.mem_filter.mpr ⟨ho, hslab⟩)
  have hmem : ∀ x j, x ≠ s → (x ∈ l j ↔ x ∈ Function.update l .empty ([] ++ E) j) :=
    fun x j hx => (mem_remove hE).trans (or_iff_right fun h => hx h.2)
  refine ⟨⟨Function.update l .empty ([] ++ E), ?_, ?_, fun x => ?_, fun o ho => ?_, ?_, ?_⟩, hblock,
    hunused⟩
  · have hheads := heads_removeEmpty (c := c) (s := s)
    rw [← hheads] at hrem
    exact hrem
  · refine I.slabs.update K S.aligned ⟨fun _ _ => rfl, fun _ _ => rfl, fun _ _ => rfl, fun _ _ => rfl⟩
      (fun _ _ => Iff.rfl) (fun j hj => absurd hj (hnot j)) fun j x hx hxs => (hmem x j hxs).mpr hx
  · rw [Finset.mem_erase, I.mem_blocks]
    constructor
    · rintro ⟨hxs, j, hj⟩
      exact ⟨j, (hmem x j hxs).mp hj⟩
    · rintro ⟨j, hj⟩
      have hxs : x ≠ s := fun h => hnot j (h ▸ hj)
      exact ⟨hxs, j, (hmem x j hxs).mpr hj⟩
  · exact Finset.mem_erase.mpr ⟨hunused o ho, I.out o ho⟩
  · simp [I.numFree, hE]
  · have htotal := total_remove hE
    have hnum := I.numSlabs
    change c.numSlabs - 1 = _
    omega

theorem Inv.shrinkLoop (I : Inv k c out blocks l) (K : k.Valid) :
    (∃ l', Inv k (c.shrinkLoop k).2 out (blocks \ (c.shrinkLoop k).1.toFinset) l') ∧
      (c.shrinkLoop k).2.numFree ≤ k.maxFreeSlabs ∧
      ∀ s ∈ (c.shrinkLoop k).1, s ∈ blocks ∧ ∀ o ∈ out, k.slabOf o ≠ s := by
  induction hn : c.numFree using Nat.strong_induction_on generalizing c blocks l with
  | _ n ih =>
    subst hn
    have hnil : c.numFree ≤ k.maxFreeSlabs → c.shrinkLoop k = ([], c) → (∃ l', Inv k (c.shrinkLoop k).2 out
        (blocks \ (c.shrinkLoop k).1.toFinset) l') ∧ (c.shrinkLoop k).2.numFree ≤ k.maxFreeSlabs ∧
        ∀ s ∈ (c.shrinkLoop k).1, s ∈ blocks ∧ ∀ o ∈ out, k.slabOf o ≠ s := by
      intro hle heq
      rw [heq]
      exact ⟨⟨l, by simpa using I⟩, hle, nofun⟩
    cases hhead : c.emptySlabs with
    | none =>
      have hzero : c.numFree = 0 := by
        have hE := List.head?_eq_none_iff.mp ((I.lists.ring .empty).head.symm.trans hhead)
        rw [I.numFree, hE]
        rfl
      exact hnil (hzero ▸ Nat.zero_le _) (by rw [BaseSlab.shrinkLoop, hhead])
    | some s =>
      by_cases hlt : k.maxFreeSlabs < c.numFree
      · obtain ⟨⟨l', I'⟩, hs, hunused⟩ := I.giveBack K hhead
        have hrun : c.shrinkLoop k = (s :: (BaseSlab.shrinkLoop k
            { c.removeEmpty s with numFree := c.numFree - 1, numSlabs := c.numSlabs - 1 }).1,
            (BaseSlab.shrinkLoop k
            { c.removeEmpty s with numFree := c.numFree - 1, numSlabs := c.numSlabs - 1 }).2) := by
          rw [BaseSlab.shrinkLoop, hhead]
          exact if_pos hlt
        obtain ⟨⟨l'', I''⟩, hle, hgiven⟩ := ih (c.numFree - 1) (by omega) I' rfl
        rw [hrun]
        refine ⟨⟨l'', ?_⟩, hle, fun x hx => ?_⟩
        · rw [List.toFinset_cons, Finset.sdiff_insert, ← Finset.erase_sdiff_comm]
          exact I''
        · obtain rfl | hx := List.mem_cons.mp hx
          · exact ⟨hs, hunused⟩
          · exact ⟨Finset.mem_of_mem_erase (hgiven x hx).1, (hgiven x hx).2⟩
      · refine hnil (Nat.le_of_not_lt hlt) ?_
        rw [BaseSlab.shrinkLoop, hhead]
        exact if_neg hlt

/-- What `free` does once there are more empty slabs. -/
def finish (k : SlabParams) (c : BaseSlab) : List Nat × BaseSlab :=
  if k.maxFreeSlabs < c.numFree then c.shrink k else ([], c)

theorem Inv.finish (I : Inv k c out blocks l) (K : k.Valid) :
    (∃ l', Inv k (c.finish k).2 out (blocks \ (c.finish k).1.toFinset) l') ∧
      (k.canFree = true → (c.finish k).2.numFree ≤ k.maxFreeSlabs) ∧
      ∀ s ∈ (c.finish k).1, s ∈ blocks ∧ ∀ o ∈ out, k.slabOf o ≠ s := by
  unfold BaseSlab.finish shrink
  by_cases hlt : k.maxFreeSlabs < c.numFree
  · rw [if_pos hlt]
    cases hcan : k.canFree with
    | true =>
      obtain ⟨hinv, hle, hgiven⟩ := I.shrinkLoop K
      exact ⟨hinv, fun _ => hle, hgiven⟩
    | false => exact ⟨⟨l, by simpa using I⟩, nofun, nofun⟩
  · rw [if_neg hlt]
    exact ⟨⟨l, by simpa using I⟩, fun _ => Nat.le_of_not_lt hlt, nofun⟩

/-- The fields of the slab `s` once the object `o` is put back. -/
def given (c : BaseSlab) (s o : Nat) : BaseSlab :=
  { c with
    next := Function.update c.next o (c.slabFree s)
    slabFree := Function.update c.slabFree s (some o)
    slabNumFree := Function.update c.slabNumFree s (c.slabNumFree s + 1) }

theorem put_full (h : c.slabNumFree s = 0) : c.put k s o =
    if k.objectsPerSlab = 1 then
      finish k { ((c.given s o).removeFull s).pushEmpty s with numFree := c.numFree + 1 }
    else ([], ((c.given s o).removeFull s).pushPartial s) := by
  simp only [BaseSlab.put, h, if_true, removeFull, Function.update_self, Nat.zero_add, eq_comm (a := 1),
    given, BaseSlab.finish, pushEmpty, pushPartial]

theorem put_partly (h : c.slabNumFree s ≠ 0) : c.put k s o =
    if c.slabNumFree s + 1 = k.objectsPerSlab then
      finish k { ((c.given s o).removePartial s).pushEmpty s with numFree := c.numFree + 1 }
    else ([], c.given s o) := by
  simp only [BaseSlab.put, h, if_false, Function.update_self, given, BaseSlab.finish, pushEmpty,
    removePartial]

/-- An object is put back. Its slab may be given back, with other empty ones. -/
theorem Inv.put (I : Inv k c out blocks l) (K : k.Valid) (ho : o ∈ out) (hs : k.slabOf o = s) :
    (∃ l', Inv k (c.put k s o).2 (out.erase o) (blocks \ (c.put k s o).1.toFinset) l') ∧
      (k.canFree = true → c.numFree ≤ k.maxFreeSlabs → (c.put k s o).2.numFree ≤ k.maxFreeSlabs) ∧
      ∀ x ∈ (c.put k s o).1, x ∈ blocks ∧ ∀ o' ∈ out.erase o, k.slabOf o' ≠ x := by
  have hblock : s ∈ blocks := hs ▸ I.out o ho
  obtain ⟨i, hi⟩ := (I.mem_blocks s).mp hblock
  obtain ⟨l₁, l₂, hl⟩ := List.append_of_mem hi
  have S := I.slabs i s hi
  obtain ⟨L, F⟩ := S.list
  have hobj : o ∈ k.objects s := (F.objects o).mpr (.inr ⟨ho, hs⟩)
  have hother : ∀ a, k.slabOf a ≠ s → (a ∈ out.erase o ↔ a ∈ out) := by
    intro a ha
    rw [Finset.mem_erase]
    exact and_iff_right fun h => ha (h ▸ hs)
  -- an object is in use, so that the slab is not empty
  have hlt : L.length < k.objectsPerSlab := by
    have hcard := F.card K
    have hpos : 0 < (out.filter fun a => k.slabOf a = s).card :=
      Finset.card_pos.mpr ⟨o, Finset.mem_filter.mpr ⟨ho, hs⟩⟩
    rw [F.length] at hcard
    omega
  by_cases hfull : c.slabNumFree s = 0
  · have hnil : L.length = 0 := F.length.symm.trans hfull
    obtain rfl : i = .full := by
      have hfits := S.fits
      rw [hfull] at hfits
      cases i with
      | full => rfl
      | partly => exact absurd rfl hfits.1.ne
      | empty => exact absurd hfits.symm K.objectsPerSlab_pos.ne'
    rw [put_full hfull]
    by_cases hone : k.objectsPerSlab = 1
    · rw [if_pos hone]
      have T : Puts c { ((c.given s o).removeFull s).pushEmpty s with numFree := c.numFree + 1 } s o :=
        ⟨rfl, rfl, rfl, rfl⟩
      obtain ⟨l', I'⟩ := I.move (j := .empty) K hl rfl (by funext i; cases i <;> rfl) (T.same hobj) hother
        (T.slabOk S F ho hs (by rw [hnil]; exact hone.symm)) rfl rfl
      obtain ⟨hinv, hle, hgiven⟩ := I'.finish K
      exact ⟨hinv, fun hcan _ => hle hcan, hgiven⟩
    · rw [if_neg hone]
      have T : Puts c (((c.given s o).removeFull s).pushPartial s) s o := ⟨rfl, rfl, rfl, rfl⟩
      have hfits : Fits k .partly (L.length + 1) := ⟨Nat.succ_pos _, by omega⟩
      obtain ⟨l', I'⟩ := I.move (j := .partly) K hl rfl (by funext i; cases i <;> rfl) (T.same hobj) hother
        (T.slabOk S F ho hs hfits) rfl rfl
      exact ⟨⟨l', by simpa using I'⟩, fun _ h => h, nofun⟩
  · obtain rfl : i = .partly := by
      have hfits := S.fits
      cases i with
      | full => exact absurd hfits hfull
      | partly => rfl
      | empty => exact absurd (F.length.symm.trans hfits) hlt.ne
    rw [put_partly hfull]
    by_cases hall : c.slabNumFree s + 1 = k.objectsPerSlab
    · rw [if_pos hall]
      have T : Puts c { ((c.given s o).removePartial s).pushEmpty s with numFree := c.numFree + 1 } s o :=
        ⟨rfl, rfl, rfl, rfl⟩
      obtain ⟨l', I'⟩ := I.move (j := .empty) K hl rfl (by funext i; cases i <;> rfl) (T.same hobj) hother
        (T.slabOk S F ho hs (F.length ▸ hall)) rfl rfl
      obtain ⟨hinv, hle, hgiven⟩ := I'.finish K
      exact ⟨hinv, fun hcan _ => hle hcan, hgiven⟩
    · rw [if_neg hall]
      have T : Puts c (c.given s o) s o := ⟨rfl, rfl, rfl, rfl⟩
      have hfits : Fits k .partly (L.length + 1) := ⟨Nat.succ_pos _, by rw [F.length] at hall; omega⟩
      have I' : Inv k (c.given s o) (out.erase o) blocks l := by
        refine I.update K S.aligned hblock (T.same hobj) I.lists (fun _ => Iff.rfl) hother (fun j hj => ?_)
          (fun _ _ hx _ => hx) I.numFree I.numSlabs
        obtain rfl : j = .partly := by
          by_contra hne
          exact I.lists.disjoint j .partly hne hj hi
        exact T.slabOk S F ho hs hfits
      exact ⟨⟨l, by simpa using I'⟩, fun _ h => h, nofun⟩

/-! ## Counts -/

theorem countFrom_eq {P l₁ l₂ : List Nat} {fuel count : Nat} (hring : IsRing c.items.n c.items.p P)
    (hnd : P.Nodup) (hP : P = l₁ ++ l₂) (hfuel : l₂.length < fuel) :
    c.countFrom P.head? fuel l₂.head? count = some (count + (l₂.map c.slabNumFree).sum) := by
  induction l₂ generalizing l₁ fuel count with
  | nil =>
    obtain ⟨fuel, rfl⟩ := Nat.exists_eq_succ_of_ne_zero (Nat.ne_zero_of_lt hfuel)
    rfl
  | cons s l₂ ih =>
    obtain ⟨fuel, rfl⟩ := Nat.exists_eq_succ_of_ne_zero (Nat.ne_zero_of_lt hfuel)
    have hnext : c.items.n s = (l₂ ++ l₁ ++ [s]).head? := by
      rw [hP] at hring
      exact hring.next_eq
    have hgo : (if c.items.n s = P.head? then none else c.items.n s) = l₂.head? := by
      cases l₂ with
      | nil =>
        have hhead : P.head? = (l₁ ++ [s]).head? := by rw [hP]
        rw [hnext, hhead]
        exact if_pos rfl
      | cons b l₂ =>
        have hb : P.head? ≠ some b := by
          intro h
          rw [hP] at hnd h
          have hsame : (l₁ ++ [s]).head? = some b := by
            rw [← h]
            cases l₁ <;> rfl
          have hb' : b ∈ l₁ ++ [s] := List.mem_of_mem_head? hsame
          have hdis := (List.nodup_append.mp (by simpa using hnd : ((l₁ ++ [s]) ++ b :: l₂).Nodup)).2.2
          exact hdis b hb' b List.mem_cons_self rfl
        rw [hnext]
        exact if_neg (Ne.symm hb)
    have hP' : P = (l₁ ++ [s]) ++ l₂ := by
      rw [hP]
      simp
    rw [List.head?_cons]
    simp only [countFrom, hgo]
    rw [ih hP' (Nat.lt_of_succ_lt_succ hfuel), List.map_cons, List.sum_cons, Nat.add_assoc]

theorem Inv.nodup (I : Inv k c out blocks l) : (l .full ++ l .partly ++ l .empty).Nodup := by
  have hd := I.lists.disjoint
  refine List.nodup_append'.mpr ⟨List.nodup_append'.mpr ⟨(I.lists.ring _).nodup, (I.lists.ring _).nodup,
    hd _ _ nofun⟩, (I.lists.ring _).nodup, ?_⟩
  exact List.disjoint_append_left.mpr ⟨hd _ _ nofun, hd _ _ nofun⟩

theorem Inv.blocks_eq (I : Inv k c out blocks l) :
    blocks = (l .full ++ l .partly ++ l .empty).toFinset := by
  ext s
  rw [I.mem_blocks, List.mem_toFinset, List.mem_append, List.mem_append]
  constructor
  · rintro ⟨i, hi⟩
    cases i with
    | full => exact .inl (.inl hi)
    | partly => exact .inl (.inr hi)
    | empty => exact .inr hi
  · rintro ((h | h) | h)
    · exact ⟨_, h⟩
    · exact ⟨_, h⟩
    · exact ⟨_, h⟩

/-- The objects are free or handed out. -/
theorem Inv.card_out (I : Inv k c out blocks l) (K : k.Valid) :
    ((l .full ++ l .partly ++ l .empty).map c.slabNumFree).sum + out.card = c.totalObjects k := by
  have hout : out.card = ((l .full ++ l .partly ++ l .empty).map fun s =>
      (out.filter fun a => k.slabOf a = s).card).sum := by
    rw [← List.sum_toFinset _ I.nodup, ← I.blocks_eq]
    exact Finset.card_eq_sum_card_fiberwise I.out
  have hall : ∀ s ∈ l .full ++ l .partly ++ l .empty,
      c.slabNumFree s + (out.filter fun a => k.slabOf a = s).card = k.objectsPerSlab := by
    intro s hs
    have hs : s ∈ blocks := by rwa [I.blocks_eq, List.mem_toFinset]
    obtain ⟨i, hi⟩ := (I.mem_blocks s).mp hs
    obtain ⟨L, F⟩ := (I.slabs i s hi).list
    exact F.card K
  rw [hout, ← List.sum_map_add, List.map_congr_left hall, List.map_const', List.sum_replicate,
    List.length_append, List.length_append, totalObjects, I.numSlabs]
  rfl

theorem Inv.freeObjects {fuel : Nat} (I : Inv k c out blocks l) (K : k.Valid) (hfuel : c.numSlabs < fuel) :
    ∃ m, c.freeObjects k fuel = some m ∧ m + out.card = c.totalObjects k := by
  have hlen : (l .partly).length < fuel := by
    have hnum := I.numSlabs
    unfold total at hnum
    omega
  have hcount : c.countFrom (l .partly).head? fuel (l .partly).head? 0 =
      some (0 + ((l .partly).map c.slabNumFree).sum) :=
    countFrom_eq (I.lists.ring .partly).ring (I.lists.ring .partly).nodup (List.nil_append _).symm hlen
  have hfull : ((l .full).map c.slabNumFree).sum = 0 := by
    refine List.sum_eq_zero fun x hx => ?_
    obtain ⟨s, hs, rfl⟩ := List.mem_map.mp hx
    exact (I.slabs .full s hs).fits
  have hempty : ((l .empty).map c.slabNumFree).sum = c.numFree * k.objectsPerSlab := by
    have hall : ∀ s ∈ l .empty, c.slabNumFree s = k.objectsPerSlab := fun s hs => (I.slabs .empty s hs).fits
    rw [List.map_congr_left hall, List.map_const', List.sum_replicate, I.numFree]
    rfl
  have hhead : c.partialSlabs = (l .partly).head? := (I.lists.ring .partly).head
  refine ⟨_, by rw [BaseSlab.freeObjects, hhead, hcount]; rfl, ?_⟩
  rw [← I.card_out K, List.map_append, List.map_append, List.sum_append, List.sum_append, hfull, hempty]

end BaseSlab

namespace SlabRun

open BaseSlab

variable {k : SlabParams} {r r' : SlabRun} {l : Kind → List Nat}

theorem init_inv (m : ListItems) (f : Nat → Nat) (g₁ g₂ g₃ : Nat → Option Nat) :
    Inv k (init m f g₁ g₂ g₃).cache ∅ ∅ fun _ => [] := by
  refine ⟨⟨fun i => ?_, fun _ _ _ => List.disjoint_nil_left _⟩, nofun, fun s => ?_, nofun, rfl, rfl⟩
  · cases i <;> exact ⟨rfl, trivial, List.nodup_nil⟩
  · exact iff_of_false (Finset.notMem_empty s) nofun

/-- A write to an object that is handed out does not touch the free ones. -/
theorem write_inv {c : BaseSlab} {out blocks : Finset Nat} {a : Nat} (I : Inv k c out blocks l)
    (K : k.Valid) (v : Option Nat)
    (ha : k.slabOf a ∉ blocks ∨ ∃ o ∈ out, o ≤ a ∧ a + k.ptrSize ≤ o + k.objectSize) :
    Inv k { c with next := Function.update c.next a v } out blocks l := by
  refine ⟨I.lists, fun i s hs => ?_, I.mem_blocks, I.out, I.numFree, I.numSlabs⟩
  have S := I.slabs i s hs
  refine S.congr K rfl rfl rfl (fun b hb hnot => ?_) fun _ _ => Iff.rfl
  have hba : b ≠ a := by
    rintro rfl
    obtain hout | ⟨o, ho, hle, hend⟩ := ha
    · rw [K.slabOf_of_mem S.aligned hb] at hout
      exact hout ((I.mem_blocks s).mpr ⟨i, hs⟩)
    · obtain ⟨j, hj⟩ := (I.mem_blocks _).mp (I.out o ho)
      have S' := I.slabs j _ hj
      obtain ⟨L, F⟩ := S'.list
      obtain hlt | rfl := Nat.lt_or_eq_of_le hle
      · have hapart := K.objects_apart S'.aligned S.aligned ((F.objects o).mpr (.inr ⟨ho, rfl⟩)) hb hlt
        have hptr := K.ptrSize
        omega
      · exact hnot ho
  exact Function.update_of_ne hba ..

/-- `free` of an object that is handed out. -/
theorem free_eq {c : BaseSlab} {out blocks : Finset Nat} {o : Nat} (I : Inv k c out blocks l)
    (ho : o ∈ out) : c.free k (some o) = c.put k (k.slabOf o) o := by
  obtain ⟨i, hi⟩ := (I.mem_blocks _).mp (I.out o ho)
  simp only [BaseSlab.free, (I.slabs i _ hi).cache, ne_eq, not_true_eq_false, if_false]

theorem step_inv {a : Event} (I : Inv k r.cache r.out r.blocks l) (K : k.Valid) (ha : r.Allowed k a)
    (hmax : k.canFree = true → r.cache.numFree ≤ k.maxFreeSlabs) (hrun : r.step k a = some r') :
    (∃ l', Inv k r'.cache r'.out r'.blocks l') ∧
      (k.canFree = true → r'.cache.numFree ≤ k.maxFreeSlabs) := by
  cases a with
  | alloc block =>
    obtain ⟨p, c', l', halloc, I', hle, -, -⟩ := I.alloc K ha
    simp only [step, halloc, Option.map_some, Option.some.injEq] at hrun
    subst hrun
    exact ⟨⟨l', I'⟩, fun hcan => hle.trans (hmax hcan)⟩
  | free o =>
    simp only [step, Option.some.injEq] at hrun
    subst hrun
    cases o with
    | none => exact ⟨⟨l, by simpa [BaseSlab.free] using I⟩, hmax⟩
    | some o =>
      have ho : o ∈ r.out := ha o rfl
      obtain ⟨⟨l', I'⟩, hle, -⟩ := I.put K ho rfl
      have herase : r.out \ (some o).toFinset = r.out.erase o := by
        simp [Option.toFinset, Finset.sdiff_singleton_eq_erase]
      simp only [free_eq I ho, herase]
      exact ⟨⟨l', I'⟩, fun hcan => hle hcan (hmax hcan)⟩
  | write a v =>
    simp only [step, Option.some.injEq] at hrun
    subst hrun
    exact ⟨⟨l, write_inv I K v ha⟩, hmax⟩

theorem Reachable.inv (H : Reachable k r) (K : k.Valid) :
    (∃ l, Inv k r.cache r.out r.blocks l) ∧ (k.canFree = true → r.cache.numFree ≤ k.maxFreeSlabs) := by
  induction H with
  | init m f g₁ g₂ g₃ => exact ⟨⟨_, init_inv m f g₁ g₂ g₃⟩, fun _ => Nat.zero_le _⟩
  | step _ ha hrun ih =>
    obtain ⟨⟨l, I⟩, hmax⟩ := ih
    exact step_inv I K ha hmax hrun

/-- What holds of a cache at any time. -/
structure Accounted (k : SlabParams) (r : SlabRun) : Prop where
  /-- each slab is in one list, the one that tells its number of free objects -/
  lists : ∃ l, Lists r.cache.items r.cache.heads l ∧ (∀ s, s ∈ r.blocks ↔ ∃ i, s ∈ l i) ∧
    (∀ i, ∀ s ∈ l i, Fits k i (r.cache.slabNumFree s)) ∧ r.cache.numFree = (l .empty).length ∧
    r.cache.numSlabs = total l
  slabs : ∀ s ∈ r.blocks, ∃ L, FreeList k r.cache r.out s L
  out : ∀ o ∈ r.out, ∃ s ∈ r.blocks, o ∈ k.objects s ∧ o + k.objectSize ≤ s + (k.slabSize - k.headSize)
  apart : ∀ o ∈ r.out, ∀ o' ∈ r.out, o < o' → o + k.objectSize ≤ o'
  alloc : ∀ block, r.Allowed k (.alloc block) →
    ∃ p c', r.cache.alloc k block = some (p, c') ∧ (∀ o ∈ p, o ∉ r.out) ∧ (p = none → block = none)
  counts : ∀ fuel, r.cache.numSlabs < fuel →
    ∃ m, r.cache.freeObjects k fuel = some m ∧ m + r.out.card = r.cache.totalObjects k
  maxFree : k.canFree = true → r.cache.numFree ≤ k.maxFreeSlabs
  given : ∀ o ∈ r.out, ∀ s ∈ (r.cache.free k (some o)).1,
    s ∈ r.blocks ∧ ∀ o' ∈ r.out.erase o, k.slabOf o' ≠ s

end SlabRun

end L4env.Cxx
