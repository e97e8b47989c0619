import L4env.L4rm.AvlTree

/-!
# L4RM: edits of the AVL tree

What the single writes and the rotations of the tree operations do to the tree in the heap. An
`Edit` replaces a subtree by one with nodes of the old subtree, and touches no other node.
-/

namespace L4env.L4rm

open PTree

abbrev Tree := PTree Entry

namespace Avl
variable {h h' h'' : Avl} {p q : Ptr} {n : Avlt} {d e : Dir} {b b' : Int} {v v' : Entry}
  {x x' x'' y z w : Tree} {c : List (Frame Entry)}

theorem load_eq (hp : h.node p = some n) : h.load p = .ok n := by simp [load, hp]; rfl

theorem setChild_eq (hp : h.node p = some n) :
    h.setChild p d q = .ok (h.store p (n.setChild d q)) := by
  simp only [setChild, load_eq hp, ok_bind]; rfl

theorem setB_eq (hp : h.node p = some n) : h.setB p b = .ok (h.store p { n with b := b }) := by
  simp only [setB, load_eq hp, ok_bind]; rfl

@[simp] theorem store_treeHeight : (h.store p n).treeHeight = h.treeHeight := rfl

@[simp] theorem store_self : (h.store p n).node p = some n := by simp [store]

theorem store_of_ne (hq : q ≠ p) : (h.store p n).node q = h.node q := by simp [store, hq]

/-- The subtree `x` of `h` becomes the subtree `x'` of `h'`. -/
structure Edit (h h' : Avl) (x x' : Tree) : Prop where
  rep : Rep h'.node x'
  sub : ∀ a ∈ x'.addrs, a ∈ x.addrs
  frame : ∀ a, a ∉ x.addrs → h'.node a = h.node a
  height : h'.treeHeight = h.treeHeight

theorem Edit.refl (H : Rep h.node x) : Edit h h x x where
  rep := H
  sub := fun _ ha => ha
  frame := fun _ _ => rfl
  height := rfl

theorem Edit.trans (H : Edit h h' x x') (H' : Edit h' h'' x' x'') : Edit h h'' x x'' where
  rep := H'.rep
  sub := fun a ha => H.sub a (H'.sub a ha)
  frame := fun a ha => (H'.frame a fun h => ha (H.sub a h)).trans (H.frame a ha)
  height := H'.height.trans H.height

/-- An edit below a path. -/
theorem Edit.plug (H : Edit h h' x x') (hr : Rep h.node (plug c x)) (hp : x'.ptr = x.ptr) :
    Edit h h' (plug c x) (PTree.plug c x') where
  rep := hr.replace hp H.rep (fun a ha => .inl (H.sub a ha)) fun a ha =>
    H.frame a ((nodup_addrs_plug.mp hr.nodup).2.2 a ha)
  sub := by
    intro a ha
    obtain ha | ha := mem_addrs_plug.mp ha
    · exact mem_addrs_plug.mpr (.inl ha)
    · exact mem_addrs_plug.mpr (.inr (H.sub a ha))
  frame := fun a ha => H.frame a fun h => ha (mem_addrs_plug.mpr (.inr h))
  height := H.height

theorem read_bin (H : Rep h.node (plug c (bin d p v b x y))) :
    h.node p = some (.link d v b x.ptr y.ptr) := (holds_bin.mp H.of_plug.holds).1

theorem Rep.left_of_bin (H : Rep h.node (bin d p v b x y)) : Rep h.node x :=
  L4env.Rep.of_plug (c := [⟨d, p, v, b, y⟩]) H

/-- A write to the root of a subtree that leaves its two subtrees as they are. -/
theorem store_edit (v' : Entry) (b' : Int) (H : Rep h.node (bin d p v b x y)) :
    Edit h (h.store p (.link d v' b' x.ptr y.ptr)) (bin d p v b x y) (bin d p v' b' x y) := by
  obtain ⟨_, hx, hy⟩ := holds_bin.mp H.holds
  obtain ⟨hpx, hpy, h3⟩ := nodup_addrs_bin.mp H.nodup
  refine ⟨⟨holds_bin.mpr ⟨store_self, hx.congr ?_, hy.congr ?_⟩, ?_, ?_⟩, ?_, ?_, rfl⟩
  · exact fun a ha => store_of_ne fun e => hpx (e ▸ ha)
  · exact fun a ha => store_of_ne fun e => hpy (e ▸ ha)
  · exact nodup_addrs_bin.mpr ⟨hpx, hpy, h3⟩
  · simpa using H.nonnull
  · simp
  · intro a ha
    exact store_of_ne fun e => ha (by simp [e])

theorem setB_edit (b' : Int) (H : Rep h.node (plug c (bin d p v b x y))) :
    ∃ h', h.setB p b' = .ok h' ∧
      Edit h h' (plug c (bin d p v b x y)) (plug c (bin d p v b' x y)) := by
  refine ⟨_, setB_eq (read_bin H), ?_⟩
  rw [TNode.link_set_b]
  exact (store_edit v b' H.of_plug).plug H (by simp)

/-- A single rotation. The pointer from `s` to the subtree that is rotated is not read. -/
theorem rotateSingle_core {s r t : Ptr} {vs vr : Entry} {bs br : Int}
    (hs : h.node s = some (.link d vs bs t z.ptr)) (hr : (bin d r vr br x y).Holds h.node)
    (hz : z.Holds h.node) (hnd : (bin d s vs bs (bin d r vr br x y) z).addrs.Nodup)
    (h0 : 0 ∉ (bin d s vs bs (bin d r vr br x y) z).addrs) :
    ∃ h', h.rotateSingle d s r = .ok h' ∧
      Edit h h' (bin d s vs bs (bin d r vr br x y) z) (bin d r vr br x (bin d s vs bs y z)) := by
  obtain ⟨hr, hx, hy⟩ := holds_bin.mp hr
  simp only [nodup_addrs_bin, mem_addrs_bin, not_or] at hnd h0
  obtain ⟨⟨hsr, hsx, hsy⟩, hsz, ⟨hrx, hry, hdx, hdy, hxy⟩, hdz, hd⟩ := hnd
  have hrz : r ∉ z.addrs := hd r (.inl rfl)
  set h₁ := h.store s (.link d vs bs y.ptr z.ptr) with hh₁
  have hr₁ : h₁.node r = some (.link d vr br x.ptr y.ptr) := by
    rw [hh₁, store_of_ne (Ne.symm hsr)]; exact hr
  have hframe : ∀ a, a ≠ s → a ≠ r →
      (h₁.store r (.link d vr br x.ptr s)).node a = h.node a := by
    intro a has har
    rw [store_of_ne har, hh₁, store_of_ne has]
  refine ⟨h₁.store r (.link d vr br x.ptr s), ?_, ?_⟩
  · simp only [rotateSingle, load_eq hr, ok_bind, setChild_eq hs, TNode.child_flip_link,
      TNode.setChild_link]
    rw [setChild_eq hr₁, TNode.setChild_flip_link]
  · refine ⟨⟨?_, ?_, ?_⟩, ?_, ?_, rfl⟩
    · refine holds_bin.mpr ⟨by simp, hx.congr ?_, holds_bin.mpr ⟨?_, hy.congr ?_, hz.congr ?_⟩⟩
      · exact fun a ha => hframe a (fun e => hsx (e ▸ ha)) (fun e => hrx (e ▸ ha))
      · rw [store_of_ne hsr, hh₁]; exact store_self
      · exact fun a ha => hframe a (fun e => hsy (e ▸ ha)) (fun e => hry (e ▸ ha))
      · exact fun a ha => hframe a (fun e => hsz (e ▸ ha)) (fun e => hrz (e ▸ ha))
    · simp only [nodup_addrs_bin, mem_addrs_bin, not_or]
      refine ⟨hrx, ⟨Ne.symm hsr, hry, hrz⟩, hdx, ⟨hsy, hsz, hdy, hdz, ?_⟩, ?_⟩
      · exact fun a ha => hd a (.inr (.inr ha))
      · exact fun a ha => ⟨fun e => hsx (e ▸ ha), hxy a ha, hd a (.inr (.inl ha))⟩
    · simp only [mem_addrs_bin]
      tauto
    · intro a ha
      simp only [mem_addrs_bin] at ha ⊢
      tauto
    · intro a ha
      simp only [mem_addrs_bin, not_or] at ha
      exact hframe a ha.1 ha.2.1.1

theorem rotateSingle_edit {s r : Ptr} {vs vr : Entry} {bs br : Int}
    (H : Rep h.node (bin d s vs bs (bin d r vr br x y) z)) :
    ∃ h', h.rotateSingle d s r = .ok h' ∧
      Edit h h' (bin d s vs bs (bin d r vr br x y) z) (bin d r vr br x (bin d s vs bs y z)) := by
  obtain ⟨hs, hr, hz⟩ := holds_bin.mp H.holds
  exact rotateSingle_core hs hr hz H.nodup H.nonnull

/-- A double rotation is a rotation of `r` and `p`, then one of `s` and `p`. -/
theorem rotateDouble_eq {s r p : Ptr} : h.rotateDouble d s r p =
    (do let h ← h.rotateSingle d.flip r p; h.rotateSingle d s p) := by
  simp only [rotateDouble, rotateSingle, bind_assoc, Dir.flip_flip]

theorem rotateDouble_edit {s r p : Ptr} {vs vr vp : Entry} {bs br bp : Int}
    (H : Rep h.node (bin d s vs bs (bin d r vr br x (bin d p vp bp y z)) w)) :
    ∃ h', h.rotateDouble d s r p = .ok h' ∧
      Edit h h' (bin d s vs bs (bin d r vr br x (bin d p vp bp y z)) w)
        (bin d p vp bp (bin d r vr br x y) (bin d s vs bs z w)) := by
  obtain ⟨hs, hr, hw⟩ := holds_bin.mp H.holds
  have Hr : Rep h.node (bin d.flip r vr br (bin d.flip p vp bp z y) x) := by
    rw [bin_flip, bin_flip]; exact Rep.left_of_bin H
  obtain ⟨h₁, heq₁, E₁⟩ := rotateSingle_edit Hr
  simp only [bin_flip] at E₁
  obtain ⟨hsr, hsw, _, hdw, hrw⟩ := nodup_addrs_bin.mp H.nodup
  have hs₁ : h₁.node s = some (.link d vs bs r w.ptr) := by
    rw [E₁.frame s hsr, hs, ptr_bin]
  have hw₁ : w.Holds h₁.node := hw.congr fun a ha => E₁.frame a fun ha' => hrw a ha' ha
  have hnd : (bin d s vs bs (bin d p vp bp (bin d r vr br x y) z) w).addrs.Nodup :=
    nodup_addrs_bin.mpr ⟨fun h => hsr (E₁.sub s h), hsw, E₁.rep.nodup, hdw,
      fun a ha => hrw a (E₁.sub a ha)⟩
  have h0 : 0 ∉ (bin d s vs bs (bin d p vp bp (bin d r vr br x y) z) w).addrs := by
    have h0 := H.nonnull
    rw [mem_addrs_bin] at h0 ⊢
    exact fun h => h0 (h.imp_right (Or.imp_left (E₁.sub 0)))
  obtain ⟨h₂, heq₂, E₂⟩ := rotateSingle_core hs₁ E₁.rep.holds hw₁ hnd h0
  refine ⟨h₂, by simp only [rotateDouble_eq, heq₁, ok_bind, heq₂], E₂.rep, ?_, ?_, ?_⟩
  · intro a ha
    have ha := E₂.sub a ha
    rw [mem_addrs_bin] at ha ⊢
    exact ha.imp_right (Or.imp_left (E₁.sub a))
  · intro a ha
    rw [mem_addrs_bin, not_or, not_or] at ha
    rw [E₂.frame a ?_, E₁.frame a ha.2.1]
    rw [mem_addrs_bin, not_or, not_or]
    exact ⟨ha.1, fun h => ha.2.1 (E₁.sub a h), ha.2.2⟩
  · exact E₂.height.trans E₁.height

/-! ## The parent of a rotated subtree -/

section
variable {t : Ptr} {vt : Entry} {bt : Int}

/-- The pointer of the parent follows an edit that gives the subtree another root. -/
theorem Edit.setParent (E : Edit h h' x x') (H : Rep h.node (bin e t vt bt x w)) :
    h'.setChild t e x'.ptr = .ok (h'.store t (.link e vt bt x'.ptr w.ptr)) ∧
      Edit h (h'.store t (.link e vt bt x'.ptr w.ptr)) (bin e t vt bt x w)
        (bin e t vt bt x' w) := by
  obtain ⟨ht, hx, hw⟩ := holds_bin.mp H.holds
  obtain ⟨htx, htw, _, hdw, hxw⟩ := nodup_addrs_bin.mp H.nodup
  have htx' : t ∉ x'.addrs := fun h => htx (E.sub t h)
  have hstore : ∀ a, a ≠ t →
      (h'.store t (.link e vt bt x'.ptr w.ptr)).node a = h'.node a := fun a ha => store_of_ne ha
  refine ⟨?_, ⟨?_, ?_, ?_⟩, ?_, ?_, E.height⟩
  · rw [setChild_eq ((E.frame t htx).trans ht), TNode.setChild_link]
  · refine holds_bin.mpr ⟨store_self, E.rep.holds.congr ?_, hw.congr ?_⟩
    · exact fun a ha => hstore a fun h => htx' (h ▸ ha)
    · intro a ha
      rw [hstore a fun h => htw (h ▸ ha), E.frame a fun h => hxw a h ha]
  · exact nodup_addrs_bin.mpr ⟨htx', htw, E.rep.nodup, hdw, fun a ha => hxw a (E.sub a ha)⟩
  · have h0 := H.nonnull
    rw [mem_addrs_bin] at h0 ⊢
    exact fun h => h0 (h.imp_right (Or.imp_left (E.sub 0)))
  · intro a ha
    rw [mem_addrs_bin] at ha ⊢
    exact ha.imp_right (Or.imp_left (E.sub a))
  · intro a ha
    rw [mem_addrs_bin, not_or, not_or] at ha
    rw [hstore a ha.1, E.frame a ha.2.1]

/-- The root of one subtree is not the root of the other one. -/
theorem ptr_ne_ptr (H : Rep h.node (bin e t vt bt x w)) (hx : x.ptr ≠ 0) : w.ptr ≠ x.ptr := by
  intro heq
  obtain ⟨_, _, _, _, hxw⟩ := nodup_addrs_bin.mp H.nodup
  have hmem : ∀ {u : Tree}, u.ptr ≠ 0 → u.ptr ∈ u.addrs := by
    intro u hu
    cases u with
    | nil => exact absurd rfl hu
    | node => exact List.mem_cons_self
  exact hxw x.ptr (hmem hx) (heq ▸ hmem (heq ▸ hx))

theorem setSubtree_edit (H : Rep h.node (bin e t vt bt x w)) (E : Edit h h' x x')
    (hx : x.ptr ≠ 0) : ∃ h'', h'.setSubtree t x.ptr x'.ptr = .ok h'' ∧
      Edit h h'' (bin e t vt bt x w) (bin e t vt bt x' w) := by
  obtain ⟨heq, E'⟩ := E.setParent H
  refine ⟨_, ?_, E'⟩
  have ht : h'.node t = some (.link e vt bt x.ptr w.ptr) := by
    rw [E.frame t (nodup_addrs_bin.mp H.nodup).1]; exact (holds_bin.mp H.holds).1
  have hne := ptr_ne_ptr H hx
  cases e
  · simpa only [setSubtree, load_eq ht, ok_bind, TNode.link, if_true] using heq
  · simpa only [setSubtree, load_eq ht, ok_bind, TNode.link, if_neg (Ne.symm hne)] using heq

theorem relink_edit (H : Rep h.node (bin e t vt bt x w)) (E : Edit h h' x x')
    (hx : x.ptr ≠ 0) : ∃ h'', h'.relink t x.ptr x'.ptr = .ok h'' ∧
      Edit h h'' (bin e t vt bt x w) (bin e t vt bt x' w) := by
  obtain ⟨heq, E'⟩ := E.setParent H
  refine ⟨_, ?_, E'⟩
  have ht : h'.node t = some (.link e vt bt x.ptr w.ptr) := by
    rw [E.frame t (nodup_addrs_bin.mp H.nodup).1]; exact (holds_bin.mp H.holds).1
  have hne := ptr_ne_ptr H hx
  cases e
  · simpa only [relink, load_eq ht, ok_bind, TNode.link, if_neg hne] using heq
  · simpa only [relink, load_eq ht, ok_bind, TNode.link, if_true] using heq

end

end Avl

end L4env.L4rm
