import L4env.L4rm.AvlInv

/-!
# L4RM: removal from the AVL tree

The searches of `avlt_remove` note the last balanced node `s` above the node that goes. Rebalancing
walks up to `s` at most: a node whose subtree got shorter is either balanced already, and ends the
loop, or its own subtree gets shorter, too. There are no parent pointers, so the parent is found
by a descent from `s`.
-/

namespace L4env.L4rm

open PTree

namespace Avl
variable {h h' : Avl} {key : Key} {p q s t : Ptr} {x y z : Tree}
  {c c₁ c₂ path : List (Frame Entry)} {f ft fp fs : Frame Entry}

/-! ## The searches -/

def lastPtr (c : List (Frame Entry)) : Ptr := (c.getLast?.map (·.p)).getD 0

@[simp] theorem lastPtr_append : lastPtr (c ++ [f]) = f.p := by simp [lastPtr]

/-- `s` is the last balanced node of the path. -/
def Mark (c : List (Frame Entry)) (s : Ptr) : Prop :=
  ∃ c₁ fs c₂, c = c₁ ++ fs :: c₂ ∧ s = fs.p ∧ fs.b = 0 ∧ ∀ f ∈ c₂, f.b ≠ 0

/-- The pointers of the search loops, below the path `c`. -/
structure Traced (c : List (Frame Entry)) (u : Trace) : Prop where
  mark : Mark c u.s
  parent : u.p = lastPtr c
  grandparent : u.t = lastPtr c.dropLast

theorem Mark.push (hm : Mark c s) : Mark (c ++ [f]) (if f.b = 0 then f.p else s) := by
  split
  · exact ⟨c, f, [], rfl, rfl, ‹_›, fun f hf => (List.not_mem_nil hf).elim⟩
  · obtain ⟨c₁, fs, c₂, rfl, rfl, hb, hc⟩ := hm
    refine ⟨c₁, fs, c₂ ++ [f], by simp, rfl, hb, fun f' hf' => ?_⟩
    obtain hf' | hf' := List.mem_append.mp hf'
    · exact hc f' hf'
    · rw [List.mem_singleton.mp hf']; exact ‹¬f.b = 0›

theorem Mark.pop (hm : Mark (c ++ [f]) s) (hf : f.b ≠ 0) : Mark c s := by
  obtain ⟨c₁, fs, c₂, hc, rfl, hb, hc₂⟩ := hm
  obtain rfl | ⟨c₂, g, rfl⟩ := c₂.eq_nil_or_concat
  · obtain ⟨rfl, hfs⟩ := List.append_inj' hc rfl
    obtain rfl : f = fs := by simpa using hfs
    exact absurd hb hf
  · have hc : c ++ [f] = (c₁ ++ fs :: c₂) ++ [g] := by simpa using hc
    exact ⟨c₁, fs, c₂, (List.append_inj' hc rfl).1, rfl, hb, fun f' hf' => hc₂ f' (by simp [hf'])⟩

theorem Traced.push {u : Trace} (H : Traced c u) :
    Traced (c ++ [f]) ⟨if f.b = 0 then f.p else u.s, u.p, f.p, q⟩ where
  mark := H.mark.push
  parent := by simp
  grandparent := by simpa using H.parent

/-- Changes of the contents of a path do not matter. -/
theorem Traced.congr {u : Trace} {c' : List (Frame Entry)} (H : Traced c u)
    (hc : c'.map (fun f => (f.p, f.b)) = c.map fun f => (f.p, f.b)) : Traced c' u := by
  have hlast : ∀ l : List (Frame Entry),
      lastPtr l = ((l.map fun f => (f.p, f.b)).getLast?.map (·.1)).getD 0 := by
    intro l
    simp only [lastPtr, List.getLast?_map, Option.map_map]
    rfl
  obtain ⟨c₁, fs, c₂, rfl, hs, hb, hc₂⟩ := H.mark
  refine ⟨?_, ?_, ?_⟩
  · rw [List.map_append, List.map_cons] at hc
    obtain ⟨d₁, d', rfl, hd₁, hd'⟩ := List.map_eq_append_iff.mp hc
    obtain ⟨gs, d₂, rfl, hgs, hd₂⟩ := List.map_eq_cons_iff.mp hd'
    obtain ⟨hgp, hgb⟩ := Prod.mk.inj hgs
    refine ⟨d₁, gs, d₂, rfl, hs.trans hgp.symm, hgb.trans hb, fun f hf => ?_⟩
    have hmem : (f.p, f.b) ∈ c₂.map fun f => (f.p, f.b) := by
      rw [← hd₂]; exact List.mem_map_of_mem hf
    obtain ⟨g, hg, hgf⟩ := List.mem_map.mp hmem
    exact (Prod.mk.inj hgf).2 ▸ hc₂ g hg
  · rw [H.parent, hlast, hlast, hc]
  · rw [H.grandparent, hlast, hlast, List.map_dropLast, List.map_dropLast, hc]

/-- What the search of `avlt_remove` finds in `x`. -/
inductive RemoveSearched (key : Key) (r : Except Fault (Option Trace)) (c : List (Frame Entry))
    (x : Tree) : Prop
  | absent (hkey : ∀ e ∈ x.toList, e.key ≠ key) (hr : r = .ok none)
  | found (path : List (Frame Entry)) {v : Entry} {b : Int} {l z : Tree} {u : Trace}
      (hx : x = plug path (.node u.q v b l z)) (hkey : v.key = key) (hu : Traced (c ++ path) u)
      (hr : r = .ok (some u))

theorem isEqual_iff {a b : Key} : a.isEqual b = true ↔ a = b := by
  cases a; cases b; simp [Key.isEqual]

theorem removeSearch_spec (key : Key) (n : Nat) : ∀ {c x u},
    Rep h.node (plug c x) → Ordered x.toList → x.height ≤ n → Traced c u → u.q = x.ptr →
    RemoveSearched key (h.removeSearch key (n + 1) u) c x := by
  induction n with
  | zero =>
    intro c x u H _ hn _ hq
    cases x with
    | nil =>
      refine .absent (by simp [PTree.toList]) ?_
      simp only [removeSearch, hq, ptr_nil, if_true]
      rfl
    | node => simp [height] at hn
  | succ n ih =>
    intro c x u H ho hn hu hq
    cases x with
    | nil =>
      refine .absent (by simp [PTree.toList]) ?_
      simp only [removeSearch, hq, ptr_nil, if_true]
      rfl
    | node p v b l r =>
      have hread := H.of_plug.holds.1
      have hp0 : p ≠ 0 := by rintro rfl; exact H.of_plug.nonnull (by simp [addrs])
      obtain ⟨s, t, p', q⟩ := u
      have hq : q = p := hq
      subst hq
      by_cases heq : v.key = key
      · refine .found [] rfl heq (by simpa using hu) ?_
        rw [removeSearch, if_neg hp0]
        simp only [load_eq hread, ok_bind, isEqual_iff.mpr heq.symm, if_true]
        rfl
      have hne : key.isEqual v.key = false := by
        rw [Bool.eq_false_iff]; exact fun h => heq (isEqual_iff.mp h).symm
      cases hside : key.side v.key with
      | none =>
        refine .absent (fun e he hek => heq ?_) ?_
        · have := ho.eq_of_overlaps he (by simp [PTree.toList])
            (by rw [hek]; exact Key.side_none.mp hside : e.key.Overlaps v.key)
          rw [← this, hek]
        · simp only [removeSearch, if_neg hp0, load_eq hread, ok_bind, hne, hside,
            Bool.false_eq_true, if_false]
          rfl
      | some d =>
        obtain ⟨y, z, hbin⟩ := node_eq_bin d q v b l r
        rw [hbin] at H hn ho ⊢
        have hstep : h.removeSearch key (n + 1 + 1) ⟨s, t, p', q⟩ =
            h.removeSearch key (n + 1) ⟨if b = 0 then q else s, p', q, y.ptr⟩ := by
          rw [removeSearch, if_neg hp0]
          simp only [load_eq (read_bin H), ok_bind, TNode.link_val, hne, hside,
            Bool.false_eq_true, if_false, TNode.link_b, TNode.child_link]
        rw [hstep]
        have hS := ih (c := c ++ [⟨d, q, v, b, z⟩]) (x := y)
          (u := ⟨if b = 0 then q else s, p', q, y.ptr⟩) (by simpa using H)
          (ho.of_plug (c := [⟨d, q, v, b, z⟩])) (by rw [height_bin] at hn; omega) hu.push rfl
        cases hS with
        | absent hkey hr =>
          refine .absent (fun e he hek => ?_) hr
          obtain he | rfl | he : e ∈ y.toList ∨ e = v ∨ e ∈ z.toList := by
            cases d <;> simp only [bin, PTree.toList, List.mem_append, List.mem_cons] at he <;> tauto
          · exact hkey e he hek
          · exact heq hek
          · -- an entry on the other side would lead the search there
            have hf := Ordered.follows (f := ⟨d.flip, q, v, b, y⟩) (c := []) (t := z)
              (by rw [plug_cons, plug_nil, bin_flip]; exact ho) he
            rw [Follows, hek, hside] at hf
            cases d <;> cases hf
        | @found path v' b' l' z' u hx hkey hu' hr =>
          exact .found (⟨d, q, v, b, z⟩ :: path) (by rw [hx]; rfl) hkey
            (by simpa using hu') hr

/-- The search for the symmetric predecessor goes down the right edge of the left subtree. -/
theorem predecessor_spec (n : Nat) : ∀ {c x u}, Rep h.node (plug c x) → x ≠ .nil →
    x.height ≤ n → Traced c u → u.q = x.ptr →
    ∃ path v b l u', x = plug path (.node u'.q v b l .nil) ∧ after path = [] ∧
      Traced (c ++ path) u' ∧ h.predecessor n u = .ok u' := by
  induction n with
  | zero =>
    intro c x u _ hx hn
    cases x with
    | nil => exact absurd rfl hx
    | node => simp [height] at hn
  | succ n ih =>
    intro c x u H hx hn hu hq
    cases x with
    | nil => exact absurd rfl hx
    | node p v b l r =>
      have hread := H.of_plug.holds.1
      obtain ⟨s, t, p', q⟩ := u
      have hq : q = p := hq
      subst hq
      by_cases hr : r = .nil
      · subst hr
        refine ⟨[], v, b, l, ⟨s, t, p', q⟩, rfl, rfl, by simpa using hu, ?_⟩
        simp only [predecessor, load_eq hread, ok_bind, ptr_nil, if_true]
        rfl
      · have H' : Rep h.node (plug (c ++ [⟨.right, q, v, b, l⟩]) r) := by
          rw [plug_append]; exact H
        have hr0 : r.ptr ≠ 0 := fun h0 => hr (H'.of_plug.ptr_eq_zero.mp h0)
        obtain ⟨path, v', b', l', u', hpath, hafter, hu', heq⟩ :=
          ih (u := ⟨if b = 0 then q else s, p', q, r.ptr⟩) H' hr (by simp [height] at hn; omega)
            hu.push rfl
        refine ⟨⟨.right, q, v, b, l⟩ :: path, v', b', l', u', by rw [hpath]; rfl, hafter,
          by simpa using hu', ?_⟩
        simp only [predecessor, load_eq hread, ok_bind, if_neg hr0]
        exact heq

/-! ## One step of rebalancing -/

/-- The subtree at `p`, whose child on side `a` is now the higher one, is balanced again. Unless the
step ends the loop, it is shorter by one than the subtree `x₀` was. -/
structure Rebalanced (h : Avl) (ft : Frame Entry) (x x₀ : Tree)
    (r : Except Fault (Avl × Ptr × Bool)) (h' : Avl) (x' : Tree) (done : Bool) : Prop where
  edit : Edit h h' (plug [ft] x) (plug [ft] x')
  balanced : x'.Balanced
  toList : x'.toList = x.toList
  ne_nil : x' ≠ .nil
  height : x'.height + (if done then 0 else 1) = x₀.height
  eq : ∃ p, r = .ok (h', p, done) ∧ (done = false → p = x'.ptr)

section
variable {a : Dir} {v : Entry} {b : Int} {x₀ : Tree}

/-- A balanced node is only tilted, whatever `t` is. -/
theorem rebalanceNode_tilt (H : Rep h.node (plug c (bin a p v 0 x y))) :
    ∃ h', h.rebalanceNode t p a = .ok (h', p, true) ∧
      Edit h h' (plug c (bin a p v 0 x y)) (plug c (bin a p v a.sign x y)) := by
  obtain ⟨h', heq, E⟩ := setB_edit a.sign H
  refine ⟨h', ?_, E⟩
  have hne : (0 : Int) ≠ -a.sign := by have := a.sign_ne_zero; omega
  simp only [rebalanceNode, load_eq (read_bin H), ok_bind, TNode.link_b, if_neg hne, if_true, heq]
  rfl

/-- The rotations of `avlt_remove`. -/
theorem rebalanceNode_rotate {r : Ptr} {vr : Entry} {br : Int} {u w : Tree}
    (H : Rep h.node (plug [ft] (bin a p v a.sign (bin a r vr br u w) y)))
    (hold : (bin a p v a.sign (bin a r vr br u w) x₀).Balanced) (hy : y.Balanced)
    (hh : x₀.height = y.height + 1) :
    ∃ h' x' done, Rebalanced h ft (bin a p v a.sign (bin a r vr br u w) y)
      (bin a p v a.sign (bin a r vr br u w) x₀) (h.rebalanceNode ft.p p a) h' x' done := by
  obtain ⟨h1, _, _, hR, _⟩ := balanced_bin.mp hold
  obtain ⟨h2, h3, h4, hu, hw⟩ := balanced_bin.mp hR
  have hsgn := a.sign_ne_zero
  have hsgn' : a.sign ≠ -a.sign := by omega
  have hRh : (bin a r vr br u w).height = y.height + 2 := by
    cases a <;> simp only [Dir.sign] at h1 <;> omega
  have hp := load_eq (read_bin H)
  have HX := H.of_plug
  have hr := load_eq (read_bin (c := [⟨a, p, v, a.sign, y⟩]) HX)
  have hp0 : p ≠ 0 := by rintro rfl; exact HX.nonnull (by simp)
  have hheight : (bin a p v a.sign (bin a r vr br u w) x₀).height = y.height + 3 := by
    rw [height_bin, hRh, hh]; omega
  rw [height_bin] at hRh
  by_cases hbr0 : br = 0
  · -- single rotation, the height stays
    subst hbr0
    obtain ⟨h₁, heq₁, E₁⟩ := rotateSingle_edit HX
    obtain ⟨h₂, heq₂, E₂⟩ := setB_edit a.sign (c := [⟨a.flip, r, vr, 0, u⟩])
      (by rw [plug_cons, plug_nil, bin_flip]; exact E₁.rep)
    simp only [plug_cons, plug_nil, bin_flip] at E₂
    obtain ⟨h₃, heq₃, E₃⟩ := setB_edit (-a.sign) (c := []) E₂.rep
    obtain ⟨h₄, heq₄, E₄⟩ := relink_edit H ((E₁.trans E₂).trans E₃) (by simpa using hp0)
    simp only [plug_nil, ptr_bin] at heq₄
    refine ⟨h₄, _, true, E₄, ?_, toList_single, bin_ne_nil, ?_, p, ?_, by simp⟩
    · simp only [balanced_bin, height_bin]
      refine ⟨?_, ?_, ?_, hu, ?_, ?_, ?_, hw, hy⟩
      all_goals cases a <;> simp only [Dir.sign] at h2 ⊢ <;> omega
    · simp only [height_bin, if_true, hheight]; omega
    · simp only [rebalanceNode, hp, hr, ok_bind, TNode.link_b, if_neg hsgn, if_neg hsgn',
        TNode.child_link, ptr_bin, if_true, heq₁, heq₂, heq₃, heq₄]
      rfl
  by_cases hbr : br = a.sign
  · -- single rotation, the subtree gets shorter
    have hdiff : u.height = y.height + 1 ∧ w.height = y.height := by
      rw [hbr] at h2
      cases a <;> simp only [Dir.sign] at h2 <;> omega
    obtain ⟨h₁, heq₁, E₁⟩ := rotateSingle_edit HX
    obtain ⟨h₂, heq₂, E₂⟩ := setB_edit 0 (c := [⟨a.flip, r, vr, br, u⟩])
      (by rw [plug_cons, plug_nil, bin_flip]; exact E₁.rep)
    simp only [plug_cons, plug_nil, bin_flip] at E₂
    obtain ⟨h₃, heq₃, E₃⟩ := setB_edit 0 (c := []) E₂.rep
    obtain ⟨h₄, heq₄, E₄⟩ := relink_edit H ((E₁.trans E₂).trans E₃) (by simpa using hp0)
    simp only [plug_nil, ptr_bin] at heq₄
    refine ⟨h₄, _, false, E₄, balanced_single hu hw hy hdiff.1 hdiff.2, toList_single,
      bin_ne_nil, ?_, r, ?_, fun _ => by simp⟩
    · simp only [height_bin, Bool.false_eq_true, if_false, hheight]; omega
    · simp only [rebalanceNode, hp, hr, ok_bind, TNode.link_b, if_neg hsgn, if_neg hsgn',
        TNode.child_link, ptr_bin, if_neg hbr0, if_pos hbr, heq₁, heq₂, heq₃, heq₄]
      rfl
  · -- double rotation
    have hdiff : w.height = y.height + 1 ∧ u.height = y.height := by
      cases a <;> simp only [Dir.sign] at h2 hbr <;> omega
    have hnil : w ≠ .nil := by rintro rfl; simp at hdiff
    obtain ⟨o, vo, bo, y₁, y₂, rfl⟩ := exists_bin a hnil
    obtain ⟨h₁, heq₁, E₁⟩ := rotateDouble_edit HX
    obtain ⟨h₂, heq₂, E₂⟩ := relink_edit H E₁ (by simpa using hp0)
    simp only [plug_nil, ptr_bin] at heq₂
    have ho := load_eq (read_bin (c := [ft]) E₂.rep)
    obtain ⟨h₃, heq₃, E₃⟩ := setB_edit (if bo = a.sign then -a.sign else 0)
      (c := [ft, ⟨a.flip, o, vo, bo, bin a r vr br u y₁⟩])
      (by simp only [plug_cons, plug_nil, bin_flip]; exact E₂.rep)
    simp only [plug_cons, plug_nil, bin_flip] at E₃
    obtain ⟨h₄, heq₄, E₄⟩ := setB_edit (if bo = 0 ∨ bo = a.sign then 0 else a.sign)
      (c := [ft, ⟨a, o, vo, bo, bin a p v (if bo = a.sign then -a.sign else 0) y₂ y⟩]) E₃.rep
    obtain ⟨h₅, heq₅, E₅⟩ := setB_edit 0 (c := [ft]) E₄.rep
    obtain ⟨hbal, hheight'⟩ := balanced_double r p vr v
      (if bo = 0 ∨ bo = a.sign then 0 else a.sign) (if bo = a.sign then -a.sign else 0) hw hu hy hdiff.1 hdiff.2
    refine ⟨h₅, _, false, ((E₂.trans E₃).trans E₄).trans E₅, hbal, toList_double, bin_ne_nil, ?_,
      o, ?_, fun _ => by simp⟩
    · simp only [Bool.false_eq_true, if_false, hheight]
      exact congrArg (· + 1) hheight'
    · simp only [rebalanceNode, hp, hr, ok_bind, TNode.link_b, if_neg hsgn, if_neg hsgn',
        TNode.child_link, ptr_bin, if_neg hbr0, if_neg hbr, TNode.child_flip_link, heq₁, heq₂, ho,
        heq₃, heq₄, heq₅]
      rfl

theorem rebalanceNode_spec (H : Rep h.node (plug [ft] (bin a p v b x y)))
    (hold : (bin a p v b x x₀).Balanced) (hy : y.Balanced) (hh : x₀.height = y.height + 1) :
    ∃ h' x' done, Rebalanced h ft (bin a p v b x y) (bin a p v b x x₀)
      (h.rebalanceNode ft.p p a) h' x' done := by
  obtain ⟨h1, h2, h3, hx, _⟩ := balanced_bin.mp hold
  have hread := load_eq (read_bin H)
  have hsgn := a.sign_ne_zero
  by_cases hba : b = -a.sign
  · obtain ⟨h', heq, E⟩ := setB_edit 0 H
    have hxy : x.height = y.height := by
      rw [hba] at h1
      cases a <;> simp only [Dir.sign] at h1 <;> omega
    refine ⟨h', _, false, E, ?_, toList_bin rfl, bin_ne_nil, ?_, p, ?_, fun _ => by simp⟩
    · exact balanced_bin.mpr ⟨by omega, by decide, by decide, hx, hy⟩
    · simp only [height_bin, Bool.false_eq_true, if_false]; omega
    · simp only [rebalanceNode, hread, ok_bind, TNode.link_b, if_pos hba, heq]; rfl
  by_cases hb0 : b = 0
  · subst hb0
    obtain ⟨h', heq, E⟩ := rebalanceNode_tilt (t := ft.p) H
    refine ⟨h', _, true, E, ?_, toList_bin rfl, bin_ne_nil, ?_, p, heq, by simp⟩
    · refine balanced_bin.mpr ⟨?_, ?_, ?_, hx, hy⟩
      all_goals cases a <;> simp only [Dir.sign] at h1 ⊢ <;> omega
    · simp only [height_bin, if_true]; omega
  have hb : b = a.sign := by cases a <;> simp only [Dir.sign] at hba ⊢ <;> omega
  subst hb
  have hx0 : x ≠ .nil := by
    rintro rfl
    cases a <;> simp only [Dir.sign, height_nil] at h1 <;> omega
  obtain ⟨r, vr, br, u, w, rfl⟩ := exists_bin a hx0
  exact rebalanceNode_rotate H hold hy hh

end

/-! ## The way up -/

theorem higherSide_eq (H : Rep h.node (plug c (plug [f] x))) (hx : x.ptr ≠ 0) :
    h.higherSide f.p x.ptr = .ok f.d.flip := by
  have hread := read_bin H
  have hne : f.sib.ptr ≠ x.ptr := ptr_ne_ptr H.of_plug hx
  rw [plug_nil] at hread
  simp only [higherSide, load_eq hread, ok_bind]
  cases f.d
  · simp only [TNode.link, if_true]; rfl
  · simp only [TNode.link, if_neg hne, if_true]; rfl

/-- The descent finds the node `ft` and its parent. -/
theorem descend_spec (n : Nat) : ∀ (c₂ t), Rep h.node (plug (c₂ ++ [ft]) x) → c₂.length ≤ n →
    (∀ f ∈ c₂, Follows key f) →
    h.descend key ft.p (n + 1) t (plug (c₂ ++ [ft]) x).ptr =
      .ok ((c₂.getLast?.map (·.p)).getD t, ft.p) := by
  induction n with
  | zero =>
    intro c₂ t H hn _
    rw [List.length_eq_zero_iff.mp (Nat.le_zero.mp hn)]
    simp only [List.nil_append, plug_cons, ptr_bin, descend, or_true, if_true]
    rfl
  | succ n ih =>
    intro c₂ t H hn hc
    cases c₂ with
    | nil =>
      simp only [List.nil_append, plug_cons, ptr_bin, descend, or_true, if_true]
      rfl
    | cons f c =>
      have hread := read_bin (c := []) H
      have hf0 : f.p ≠ 0 := by
        intro h0
        exact H.nonnull (h0 ▸ mem_addrs_of_mem List.mem_cons_self)
      have hne : f.p ≠ ft.p := by
        intro heq
        refine (nodup_addrs_bin.mp H.nodup).1 ?_
        rw [heq]
        exact mem_addrs_of_mem (by simp)
      have hside := side_eq hread (by simp) (hc f List.mem_cons_self)
      have hor : ¬(f.p = 0 ∨ f.p = ft.p) := not_or.mpr ⟨hf0, hne⟩
      rw [List.cons_append, plug_cons, ptr_bin, descend, if_neg hor]
      simp only [hside, ok_bind, load_eq hread, TNode.child_link]
      have := ih c f.p (Rep.left_of_bin H) (by simpa using hn)
        fun f' hf' => hc f' (List.mem_cons_of_mem _ hf')
      rw [List.append_eq] at *
      rw [this]
      cases c <;> simp [List.getLast?_cons]

theorem frame_ne (H : Rep h.node (plug (c ++ [ft]) x)) (hf : f ∈ c) : f.p ≠ ft.p := by
  intro heq
  rw [plug_append] at H
  refine (nodup_addrs_plug.mp H.nodup).2.2 f.p (mem_addrs_of_mem hf) ?_
  rw [heq]
  simp

/-- The descent starts at the last balanced node `fs`, or below it if that is `tree_head`. -/
theorem descend_top (key : Key) {m : Nat} (H : Rep h.node (plug (c₁ ++ fs :: (c₂ ++ [ft])) x))
    (hm : c₂.length ≤ m) (hc₂ : ∀ f ∈ c₂, Follows key f)
    (hfs : fs = headFrame ∨ fs.p ≠ treeHead ∧ Follows key fs) :
    ∃ top, h.descentStart fs.p = .ok top ∧
      h.descend key ft.p (m + 2) fs.p top = .ok (lastPtr (c₁ ++ fs :: c₂), ft.p) := by
  rw [plug_append] at H
  have hlast : lastPtr (c₁ ++ fs :: c₂) = (c₂.getLast?.map (·.p)).getD fs.p := by
    cases c₂ <;> simp [lastPtr, List.getLast?_append, List.getLast?_cons]
  obtain rfl | ⟨hne, hf⟩ := hfs
  · have hread := load_eq (read_bin H)
    refine ⟨(plug (c₂ ++ [ft]) x).ptr, ?_, ?_⟩
    · simp only [descentStart, hread, ok_bind]
      rfl
    · rw [hlast]
      exact descend_spec (m + 1) _ _ (H.of_plug.of_plug (c := [headFrame])) (by omega) hc₂
  · refine ⟨fs.p, ?_, ?_⟩
    · simp only [descentStart, if_neg hne]
      rfl
    · have := descend_spec (m + 1) (fs :: c₂) fs.p H.of_plug
        (by simpa using hm) (List.forall_mem_cons.mpr ⟨hf, hc₂⟩)
      rw [List.cons_append, plug_cons, ptr_bin] at this
      rw [this, hlast]
      cases c₂ <;> simp [List.getLast?_cons]

/-- The parent of a node whose subtree got shorter is found, and so is the side of it. -/
theorem rebalance_up {pre : List (Frame Entry)} (n : Nat)
    (H : Rep h.node (plug (headFrame :: (pre ++ [ft])) x))
    (ho : Ordered (plug (pre ++ [ft]) x).toList) (hx : x ≠ .nil)
    (hfuel : pre.length ≤ h.treeHeight) (hm : Mark (headFrame :: (pre ++ [ft])) s) :
    ∃ t', (t' = lastPtr (headFrame :: pre) ∨ ft.b = 0) ∧
      (if ft.p = s then
        (if s = treeHead then pure { h with treeHeight := h.treeHeight - 1 }
        else do
          let a ← h.higherSide s x.ptr
          assert ((← h.load s).b = 0)
          h.rebalance s n ft.p s a)
      else (do
        let key := (← h.load x.ptr).val.key
        let (t, p) ← h.descend key ft.p h.fuel s (← h.descentStart s)
        assert (p ≠ 0)
        let a ← h.higherSide p x.ptr
        assert (t ≠ p)
        h.rebalance s n t p a)) = h.rebalance s n t' ft.p ft.d.flip := by
  have Hx : Rep h.node (plug (headFrame :: pre) (plug [ft] x)) := by
    rw [← plug_append]; exact H
  have hx0 : x.ptr ≠ 0 := fun h0 => hx (H.of_plug.ptr_eq_zero.mp h0)
  have hhead : treeHead ≠ ft.p := frame_ne (f := headFrame) (c := headFrame :: pre) H
    List.mem_cons_self
  have hside := higherSide_eq Hx hx0
  have hft0 : ft.p ≠ 0 := by
    rintro h0
    refine H.nonnull (h0 ▸ mem_addrs_of_mem ?_)
    simp
  obtain ⟨c₁, fs, c₂, hc, rfl, hb, hc₂⟩ := hm
  obtain rfl | ⟨c₂, g, rfl⟩ := c₂.eq_nil_or_concat
  · -- the last balanced node is reached
    have hc : (headFrame :: pre) ++ [ft] = c₁ ++ [fs] := hc
    obtain ⟨rfl, hfs⟩ := List.append_inj' hc rfl
    obtain rfl : ft = fs := by simpa using hfs
    refine ⟨ft.p, .inr hb, ?_⟩
    rw [if_pos rfl, if_neg (Ne.symm hhead), hside]
    simp only [ok_bind, load_eq (read_bin Hx), TNode.link_b, hb, assert, decide_true, if_true,
      pure_bind]
  · have hc : (headFrame :: pre) ++ [ft] = (c₁ ++ fs :: c₂) ++ [g] := by simpa using hc
    obtain ⟨hpre, hg⟩ := List.append_inj' hc rfl
    obtain rfl : ft = g := by simpa using hg
    have hne : fs.p ≠ ft.p := frame_ne (c := headFrame :: pre) H (by rw [hpre]; simp)
    refine ⟨lastPtr (headFrame :: pre), .inl rfl, ?_⟩
    obtain ⟨q, v, b, y, z, rfl⟩ := exists_bin .left hx
    have hfollows := ho.follows_all (e := v) (by simp [bin, PTree.toList])
    have hread := load_eq (read_bin H)
    obtain ⟨hfs, hsub⟩ : (fs = headFrame ∨ fs.p ≠ treeHead ∧ Follows v.key fs) ∧
        ∀ f ∈ c₂, f ∈ pre := by
      cases c₁ with
      | nil =>
        obtain ⟨rfl, rfl⟩ := List.cons.inj hpre
        exact ⟨.inl rfl, fun f hf => hf⟩
      | cons f₁ c₁ =>
        obtain ⟨rfl, rfl⟩ := List.cons.inj hpre
        refine ⟨.inr ⟨?_, hfollows fs (by simp)⟩, fun f hf => by simp [hf]⟩
        intro heq
        refine (nodup_addrs_bin.mp H.nodup).1 ?_
        rw [show headFrame.p = fs.p from heq.symm]
        exact mem_addrs_of_mem (by simp)
    have hlen : c₂.length ≤ h.treeHeight := by
      have hlen := congrArg List.length hpre
      simp only [List.length_cons, List.length_append] at hlen
      omega
    obtain ⟨top, htop, hdesc⟩ := descend_top v.key (m := h.treeHeight)
      (by rw [← List.cons_append, ← List.append_assoc, ← hpre]; exact H) hlen
      (fun f hf => hfollows f (by simp [hsub f hf])) hfs
    have hdesc : h.descend v.key ft.p h.fuel fs.p top = .ok (lastPtr (headFrame :: pre), ft.p) := by
      rw [hpre]; exact hdesc
    have hlast : lastPtr (headFrame :: pre) ≠ ft.p := by
      obtain hnil | ⟨pre', g, rfl⟩ := pre.eq_nil_or_concat
      · rw [hnil]; exact hhead
      · rw [List.concat_eq_append, ← List.cons_append, lastPtr_append]
        exact frame_ne (c := headFrame :: pre'.concat g) H (by simp)
    rw [if_neg (Ne.symm hne)]
    rw [ptr_bin] at hside ⊢
    simp only [hread, ok_bind, TNode.link_val, htop, hdesc, assert, ne_eq, hft0, hlast,
      not_false_eq_true, decide_true, if_true, pure_bind, hside]

/-- **The rebalancing loop** ends with a balanced tree of the same contents. -/
theorem rebalance_spec (n : Nat) : ∀ {h : Avl} {pre fp x x₀ t},
    Rep h.node (plug (headFrame :: (pre ++ [fp])) x) → Ordered (plug (pre ++ [fp]) x).toList →
    (plug (pre ++ [fp]) x₀).Balanced → x.Balanced → x₀.height = x.height + 1 →
    h.treeHeight = (plug (pre ++ [fp]) x₀).height → Mark (headFrame :: (pre ++ [fp])) s →
    (t = lastPtr (headFrame :: pre) ∨ fp.b = 0) → pre.length < n →
    ∃ h' T, h.rebalance s n t fp.p fp.d.flip = .ok h' ∧ Rep h'.node (plug [headFrame] T) ∧
      T.Balanced ∧ h'.treeHeight = T.height ∧ T.toList = (plug (pre ++ [fp]) x).toList := by
  induction n with
  | zero => intro h pre fp x x₀ t _ _ _ _ _ _ _ _ hn; exact absurd hn (Nat.not_lt_zero _)
  | succ n ih =>
    intro h pre fp x x₀ t H ho hold hx hh hheight hm ht hn
    have hflip : ∀ y : Tree, plug [fp] y = bin fp.d.flip fp.p fp.v fp.b fp.sib y := by
      intro y; rw [bin_flip]; rfl
    have Hp : Rep h.node (plug (headFrame :: pre) (bin fp.d.flip fp.p fp.v fp.b fp.sib x)) := by
      rw [← hflip, ← plug_append]; exact H
    rw [plug_append, hflip] at hold hheight ho
    rw [plug_append, hflip]
    by_cases hb : fp.b = 0
    · -- the node is balanced: its height stays
      rw [hb] at Hp hold hheight ⊢
      obtain ⟨h', heq, E⟩ := rebalanceNode_tilt (t := t) Hp
      obtain ⟨h1, _, _, hsib, _⟩ := balanced_bin.mp hold.of_plug
      have hbal : (bin fp.d.flip fp.p fp.v fp.d.flip.sign fp.sib x).Balanced := by
        refine balanced_bin.mpr ⟨?_, ?_, ?_, hsib, hx⟩
        all_goals cases fp.d <;> simp only [Dir.sign, Dir.flip] at h1 ⊢ <;> omega
      have hsame : (bin fp.d.flip fp.p fp.v fp.d.flip.sign fp.sib x).height =
          (bin fp.d.flip fp.p fp.v 0 fp.sib x₀).height := by
        simp only [height_bin]; omega
      refine ⟨h', plug pre (bin fp.d.flip fp.p fp.v fp.d.flip.sign fp.sib x), ?_, E.rep, ?_, ?_, ?_⟩
      · simp only [rebalance, heq, ok_bind, if_true]
        rfl
      · exact hold.plug_of_height hbal hsame
      · rw [E.height, hheight]; exact (height_plug hsame).symm
      · exact toList_plug_congr (toList_bin rfl)
    have ht := ht.resolve_right hb
    obtain ⟨c', ft, hc'⟩ : ∃ c' ft, headFrame :: pre = c' ++ [ft] := by
      obtain hnil | ⟨c', ft, hc⟩ := (headFrame :: pre).eq_nil_or_concat
      · cases hnil
      · exact ⟨c', ft, hc.trans List.concat_eq_append⟩
    rw [hc', lastPtr_append] at ht
    subst ht
    have Hft : Rep h.node (plug [ft] (bin fp.d.flip fp.p fp.v fp.b fp.sib x)) := by
      rw [hc', plug_append] at Hp; exact Hp.of_plug
    obtain ⟨h₁, x', done, R⟩ := rebalanceNode_spec Hft hold.of_plug hx hh
    have E := R.edit.plug (c := c') (by rw [← plug_append, ← hc']; exact Hp) (by simp)
    have Hx' : Rep h₁.node (plug (headFrame :: pre) x') := by
      rw [hc', plug_append]; exact E.rep
    have hlist := toList_plug_congr (c := pre) R.toList
    obtain ⟨q, heq, hq⟩ := R.eq
    cases done with
    | true =>
      refine ⟨h₁, plug pre x', ?_, Hx', hold.plug_of_height R.balanced R.height, ?_, hlist⟩
      · simp only [rebalance, heq, ok_bind, if_true]
        rfl
      · rw [E.height, hheight]; exact (height_plug R.height).symm
    | false =>
      obtain rfl := hq rfl
      have hm : Mark (headFrame :: pre) s := Mark.pop (c := headFrame :: pre) hm hb
      have hshort : x'.height + 1 = (bin fp.d.flip fp.p fp.v fp.b fp.sib x₀).height := R.height
      have hstep : h.rebalance s (n + 1) ft.p fp.p fp.d.flip =
          (if ft.p = s then
            (if s = treeHead then pure { h₁ with treeHeight := h₁.treeHeight - 1 }
            else do
              let a ← h₁.higherSide s x'.ptr
              assert ((← h₁.load s).b = 0)
              h₁.rebalance s n ft.p s a)
          else (do
            let key := (← h₁.load x'.ptr).val.key
            let (t, p) ← h₁.descend key ft.p h₁.fuel s (← h₁.descentStart s)
            assert (p ≠ 0)
            let a ← h₁.higherSide p x'.ptr
            assert (t ≠ p)
            h₁.rebalance s n t p a)) := by
        simp only [rebalance, heq, ok_bind]
        rfl
      obtain rfl | ⟨pre, g, rfl⟩ := pre.eq_nil_or_concat
      · -- the whole tree got shorter
        obtain ⟨c₁, fs, c₂, hc, rfl, _, _⟩ := hm
        obtain ⟨rfl, rfl, rfl⟩ : c₁ = [] ∧ headFrame = fs ∧ [] = c₂ := by
          cases c₁ with
          | nil => exact ⟨rfl, List.cons.inj hc⟩
          | cons f c₁ => simp at hc
        obtain ⟨rfl, rfl⟩ : c' = [] ∧ headFrame = ft := by
          cases c' with
          | nil => exact ⟨rfl, (List.cons.inj hc').1⟩
          | cons f c' => simp at hc'
        refine ⟨{ h₁ with treeHeight := h₁.treeHeight - 1 }, x', ?_, Hx', R.balanced, ?_, hlist⟩
        · rw [hstep, if_pos rfl, if_pos (show headFrame.p = treeHead from rfl)]
          rfl
        · simp only [E.height, hheight, plug_nil]
          omega
      · rw [List.concat_eq_append] at *
        obtain ⟨hc', rfl⟩ : headFrame :: pre = c' ∧ g = ft := by
          have hc' : (headFrame :: pre) ++ [g] = c' ++ [ft] := hc'
          obtain ⟨h1, h2⟩ := List.append_inj' hc' rfl
          exact ⟨h1, by simpa using h2⟩
        have ho' : Ordered (plug (pre ++ [g]) x').toList := by rw [hlist]; exact ho
        have hlen : pre.length ≤ h₁.treeHeight := by
          rw [E.height, hheight]
          refine le_trans ?_ (length_le_height (c := pre ++ [g]))
          simp
        obtain ⟨t', ht', hup⟩ := rebalance_up n Hx' ho' R.ne_nil hlen hm
        obtain ⟨h', T, heq', HT, hbal, hh', hlist'⟩ := ih Hx' ho' hold R.balanced hshort.symm
          (by rw [E.height]; exact hheight) hm ht' (by simpa using hn)
        refine ⟨h', T, ?_, HT, hbal, hh', hlist'.trans hlist⟩
        rw [hstep, hup]
        exact heq'

/-! ## `avlt_remove` -/

/-- A node with at most one subtree `y`, and what remains of it. -/
structure Spliced (x y : Tree) : Prop where
  sub : ∀ a ∈ y.addrs, a ∈ x.addrs ∧ a ≠ x.ptr
  holds : ∀ {h}, x.Holds h → y.Holds h
  nodup : x.addrs.Nodup → y.addrs.Nodup
  balanced : x.Balanced → y.Balanced
  height : x.height = y.height + 1

theorem spliced {v : Entry} {b : Int} {l r : Tree}
    (H : Rep h.node (.node q v b l r)) (hlr : l = .nil ∨ r = .nil) :
    ∃ y, Spliced (.node q v b l r) y ∧ y.toList = l.toList ++ r.toList ∧
      y.ptr = (if l.ptr ≠ 0 then l.ptr else r.ptr) ∧
      y.ptr = (if r.ptr ≠ 0 then r.ptr else l.ptr) := by
  have hd := H.nodup
  simp only [addrs, List.nodup_cons, List.mem_append, not_or, List.nodup_append'] at hd
  obtain rfl | rfl := hlr
  · refine ⟨r, ⟨fun a ha => ⟨by simp [addrs, ha], ?_⟩, fun h => h.2.2, fun _ => hd.2.2.1,
      fun h => h.2.2.2.2, by simp [height]⟩, by simp [PTree.toList], by simp, ?_⟩
    · rintro rfl
      exact hd.1.2 ha
    · by_cases h0 : r.ptr = 0 <;> simp [h0]
  · refine ⟨l, ⟨fun a ha => ⟨by simp [addrs, ha], ?_⟩, fun h => h.2.1, fun _ => hd.2.1,
      fun h => h.2.2.2.1, by simp [height]⟩, by simp [PTree.toList], ?_, by simp⟩
    · rintro rfl
      exact hd.1.1 ha
    · by_cases h0 : l.ptr = 0 <;> simp [h0]

/-- The node `x` is taken out of the tree and released. -/
theorem splice_rep {y : Tree} (H : Rep h.node (plug (c ++ [f]) x)) (S : Spliced x y)
    (hx : x.ptr ∈ x.addrs) :
    h.setChild f.p f.d y.ptr = .ok (h.store f.p (.link f.d f.v f.b y.ptr f.sib.ptr)) ∧
    ∃ h', (h.store f.p (.link f.d f.v f.b y.ptr f.sib.ptr)).freeNode x.ptr = .ok h' ∧
      h'.treeHeight = h.treeHeight ∧ Rep h'.node (plug (c ++ [f]) y) := by
  rw [plug_append] at H
  have hread := read_bin H
  obtain ⟨hd₁, hd₂, hd₃⟩ := nodup_addrs_plug.mp H.nodup
  obtain ⟨hfx, hfs, hdx, hds, hxs⟩ := nodup_addrs_bin.mp hd₂
  have hne : x.ptr ≠ f.p := fun heq => hfx (heq ▸ hx)
  refine ⟨by rw [setChild_eq hread, TNode.setChild_link], ?_⟩
  set h₁ := h.store f.p (.link f.d f.v f.b y.ptr f.sib.ptr) with hh₁
  have hxr : Rep h.node x := H.of_plug.of_plug (c := [f])
  obtain ⟨n, hn⟩ := Option.isSome_iff_exists.mp (hxr.holds.isSome hx)
  have hload : h₁.load x.ptr = .ok n := load_eq (by rw [hh₁, store_of_ne hne]; exact hn)
  refine ⟨{ h₁ with node := Function.update h₁.node x.ptr none }, ?_, rfl, ?_⟩
  · simp only [freeNode, hload, ok_bind]; rfl
  have hframe : ∀ a, a ≠ f.p → a ≠ x.ptr →
      Function.update h₁.node x.ptr none a = h.node a := by
    intro a haf hax
    rw [Function.update_of_ne hax, hh₁, store_of_ne haf]
  have h0 := H.of_plug.nonnull
  simp only [plug_cons, plug_nil, mem_addrs_bin, not_or] at h0
  rw [plug_append]
  refine H.replace (by simp) ⟨holds_bin.mpr ⟨?_, ?_, ?_⟩, nodup_addrs_bin.mpr ?_, ?_⟩ ?_ ?_
  · show Function.update h₁.node x.ptr none f.p = _
    rw [Function.update_of_ne (Ne.symm hne), hh₁, store_self]; rfl
  · refine (S.holds hxr.holds).congr fun a ha => hframe a ?_ (S.sub a ha).2
    exact fun heq => hfx (heq ▸ (S.sub a ha).1)
  · refine (holds_bin.mp H.of_plug.holds).2.2.congr fun a ha => hframe a ?_ ?_
    · exact fun heq => hfs (heq ▸ ha)
    · exact fun heq => hxs x.ptr hx (heq ▸ ha)
  · exact ⟨fun h => hfx (S.sub _ h).1, hfs, S.nodup hdx, hds, fun a ha => hxs a (S.sub a ha).1⟩
  · simp only [plug_cons, plug_nil, mem_addrs_bin, not_or]
    exact ⟨h0.1, fun h => h0.2.1 (S.sub 0 h).1, h0.2.2⟩
  · intro a ha
    left
    simp only [plug_cons, plug_nil, mem_addrs_bin] at ha ⊢
    exact ha.imp_right (Or.imp_left fun h => (S.sub a h).1)
  · intro a ha
    have := hd₃ a ha
    simp only [plug_cons, plug_nil, mem_addrs_bin, not_or] at this
    exact hframe a this.1 fun heq => this.2.1 (heq ▸ hx)

/-- The last part of `avlt_remove`: a node with at most one subtree goes. -/
theorem removeNode_spec {pre : List (Frame Entry)} {v : Entry} {b : Int} {l r : Tree} {u : Trace}
    (H : Rep h.node (plug (headFrame :: pre) (.node u.q v b l r)))
    (hord : Ordered (before pre ++ (l.toList ++ r.toList) ++ after pre))
    (hbalanced : (plug pre (.node u.q v b l r)).Balanced)
    (hheight : h.treeHeight = (plug pre (.node u.q v b l r)).height)
    (hlr : l = .nil ∨ r = .nil) (hu : Traced (headFrame :: pre) u) :
    ∃ h' T, h.removeNode u = .ok h' ∧ h'.Inv T ∧
      T.toList = before pre ++ (l.toList ++ r.toList) ++ after pre := by
  obtain ⟨s, t, p, q⟩ := u
  obtain ⟨hm, hp, ht⟩ := hu
  replace H : Rep h.node (plug (headFrame :: pre) (.node q v b l r)) := H
  replace hheight : h.treeHeight = (plug pre (.node q v b l r)).height := hheight
  have hread := load_eq H.of_plug.holds.1
  have hhead := load_eq (read_bin (c := []) H)
  obtain ⟨y, S, hlist, hptr, hptr'⟩ := spliced H.of_plug hlr
  have hassert : (l.ptr = 0 || r.ptr = 0 : Bool) = true := by
    obtain rfl | rfl := hlr <;> simp
  have hlist' : ∀ {T : Tree}, T.toList = (plug pre y).toList →
      T.toList = before pre ++ (l.toList ++ r.toList) ++ after pre := by
    intro T hT
    rw [hT, toList_plug, hlist]
  replace hord : Ordered (plug pre y).toList := by rw [toList_plug, hlist]; exact hord
  have hq : q ∈ (PTree.node q v b l r).addrs := by simp [addrs]
  obtain rfl | ⟨pre, fp, rfl⟩ := pre.eq_nil_or_concat
  · -- the root of the tree goes
    obtain ⟨hset, h', hfree, hh', H'⟩ := splice_rep (c := []) H S hq
    replace hheight : h'.treeHeight = y.height + 1 := by
      rw [hh', hheight]; exact S.height
    have hhead : h.load treeHead = .ok ⟨⟨⟨0, 0⟩, 0⟩, 0, 0, q⟩ := hhead
    have hset : h.setChild treeHead .right y.ptr =
      .ok (h.store treeHead ⟨⟨⟨0, 0⟩, 0⟩, 0, 0, y.ptr⟩) := hset
    have hfree : (h.store treeHead ⟨⟨⟨0, 0⟩, 0⟩, 0, 0, y.ptr⟩).freeNode q = .ok h' := hfree
    by_cases h00 : l.ptr = 0 ∧ r.ptr = 0
    · have hy0 : y.ptr = 0 := by rw [hptr, h00.1, h00.2]; rfl
      have hy : y = .nil := (H'.of_plug.ptr_eq_zero).mp hy0
      refine ⟨{ h' with treeHeight := 0 }, y, ?_, ⟨H', hord, S.balanced hbalanced, ?_⟩, hlist' rfl⟩
      · rw [hy0] at hset hfree
        simp only [removeNode, hread, ok_bind, hassert, assert, if_true, pure_bind, hhead,
          if_pos h00, hset, hfree]
        rfl
      · rw [hy]; rfl
    · refine ⟨{ h' with treeHeight := h'.treeHeight - 1 }, y, ?_,
        ⟨H', hord, S.balanced hbalanced, by simp only [hheight]; rfl⟩, hlist' rfl⟩
      simp only [removeNode, hread, ok_bind, hassert, assert, if_true, pure_bind, hhead,
        if_neg h00, ← hptr', hset, hfree]
      rfl
  · rw [List.concat_eq_append] at *
    have Hfp : Rep h.node (plug (headFrame :: pre) (plug [fp] (.node q v b l r))) := by
      rw [← plug_append]; exact H
    obtain ⟨hset, h', hfree, hh', H'⟩ := splice_rep (c := headFrame :: pre) H S hq
    have hpath : ∀ g ∈ headFrame :: (pre ++ [fp]), g.p ≠ q ∧ g.p ≠ 0 := by
      intro g hg
      refine ⟨fun heq => ?_, fun h0 => H.nonnull (h0 ▸ mem_addrs_of_mem hg)⟩
      exact (nodup_addrs_plug.mp H.nodup).2.2 g.p (mem_addrs_of_mem hg) (heq ▸ hq)
    have hroot : q ≠ (plug (pre ++ [fp]) (.node q v b l r)).ptr := by
      cases pre with
      | nil => exact Ne.symm (by simpa using (hpath fp (by simp)).1)
      | cons g pre => exact Ne.symm (by simpa using (hpath g (by simp)).1)
    have hp : p = fp.p := by
      rw [← List.cons_append, lastPtr_append] at hp; exact hp
    have ht : t = lastPtr (headFrame :: pre) := by
      rw [← List.cons_append, List.dropLast_concat] at ht; exact ht
    have ht0 : t ≠ 0 := by
      obtain rfl | ⟨pre, g, rfl⟩ := pre.eq_nil_or_concat
      · rw [ht]; exact (hpath headFrame (by simp)).2
      · rw [ht, List.concat_eq_append, ← List.cons_append, lastPtr_append]
        exact (hpath g (by simp)).2
    have hq0 : q ≠ 0 := by rintro rfl; exact H.of_plug.nonnull hq
    have hside : (if q = (TNode.link fp.d fp.v fp.b q fp.sib.ptr).right then Dir.right
        else .left) = fp.d := by
      have hne : fp.sib.ptr ≠ q := ptr_ne_ptr Hfp.of_plug hq0
      cases fp.d
      · exact if_neg (Ne.symm hne)
      · exact if_pos rfl
    have hlen := length_le_height (c := pre ++ [fp]) (t := (.node q v b l r : Tree))
    obtain ⟨h'', T, heq, HT, hbal, hh'', hTlist⟩ := rebalance_spec (h'.treeHeight + 2) H' hord
      hbalanced (S.balanced hbalanced.of_plug) S.height (hh'.trans hheight) hm (.inl ht)
      (by rw [List.length_append] at hlen; omega)
    have hreadp : h.load fp.p = .ok (.link fp.d fp.v fp.b q fp.sib.ptr) := load_eq (read_bin Hfp)
    have hunlink : h.unlink fp.p q fp.d = .ok h' := by
      have hfree : (h.store fp.p (.link fp.d fp.v fp.b y.ptr fp.sib.ptr)).freeNode q = .ok h' :=
        hfree
      simp only [unlink, hread, ok_bind, ← hptr, hset, hfree]
    refine ⟨h'', T, ?_, ⟨HT, by rw [hTlist]; exact hord, hbal, hh''⟩, hlist' hTlist⟩
    have hhead : h.load treeHead =
      .ok ⟨⟨⟨0, 0⟩, 0⟩, 0, 0, (plug (pre ++ [fp]) (.node q v b l r)).ptr⟩ := hhead
    simp only [removeNode, hread, ok_bind, hassert, assert, if_true, pure_bind, hhead,
      if_neg hroot, ne_eq, ht0, not_false_eq_true, decide_true, hreadp, hside, hunlink, hp]
    exact heq

/-- **`avlt_remove`** removes the entry with this key, or changes nothing. -/
theorem remove_spec {T : Tree} (key : Key) (I : h.Inv T) :
    ((∀ e ∈ T.toList, e.key ≠ key) ∧ h.remove key = .ok (.notFound, h)) ∨
    ∃ h' T' l r d, h.remove key = .ok (.ok, h') ∧ h'.Inv T' ∧
      T.toList = l ++ ⟨key, d⟩ :: r ∧ T'.toList = l ++ r := by
  have hhead : h.load treeHead = .ok ⟨⟨⟨0, 0⟩, 0⟩, 0, 0, T.ptr⟩ := load_eq (read_bin (c := []) I.rep)
  have htrace : Traced [headFrame] ⟨treeHead, 0, treeHead, T.ptr⟩ :=
    ⟨⟨[], headFrame, [], rfl, rfl, rfl, fun f hf => nomatch hf⟩, rfl, rfl⟩
  have hS := removeSearch_spec key (h.treeHeight + 1) I.rep I.ordered
    (by rw [I.height]; omega) htrace rfl
  cases hS with
  | absent hkey hr =>
    refine .inl ⟨hkey, ?_⟩
    have hr : h.removeSearch key h.fuel ⟨treeHead, 0, treeHead, T.ptr⟩ = .ok none := hr
    simp only [remove, hhead, ok_bind, hr]
    rfl
  | @found path v b l z u hx hkey hu hr =>
    right
    have hr : h.removeSearch key h.fuel ⟨treeHead, 0, treeHead, T.ptr⟩ = .ok (some u) := hr
    subst hx
    have H : Rep h.node (plug (headFrame :: path) (.node u.q v b l z)) := I.rep
    have hread := load_eq H.of_plug.holds.1
    have hlist := toList_plug (c := path) (t := .node u.q v b l z)
    have hv : v = ⟨key, v.data⟩ := by rw [← hkey]
    have hord := I.ordered
    rw [hlist] at hord
    by_cases hboth : l.ptr ≠ 0 ∧ z.ptr ≠ 0
    · -- `q` takes over the contents of its symmetric predecessor
      have Hl : Rep h.node (plug (headFrame :: path ++ [⟨.left, u.q, v, b, z⟩]) l) := by
        rw [plug_append]; exact H
      have hlen : l.height ≤ h.treeHeight + 2 := by
        have := height_le_height (c := path ++ [⟨.left, u.q, v, b, z⟩]) (t := l)
        rw [plug_append] at this
        rw [I.height]
        exact this.trans (Nat.le_add_right _ 2)
      obtain ⟨path', vr, b', l', u', hl, hafter, hu', hpred⟩ := predecessor_spec
        (h.treeHeight + 2) Hl (fun h0 => hboth.1 (Hl.of_plug.ptr_eq_zero.mpr h0)) hlen
        (hu.push (q := l.ptr)) rfl
      have hpred : h.predecessor h.fuel ⟨if b = 0 then u.q else u.s, u.p, u.q, l.ptr⟩ = .ok u' :=
        hpred
      have hreadr : h.load u'.q = .ok ⟨vr, b', l'.ptr, 0⟩ := by
        rw [hl] at Hl; exact load_eq Hl.of_plug.of_plug.holds.1
      have E := (store_edit (d := .left) vr b H.of_plug).plug H rfl
      set h₁ := h.store u.q ⟨vr, b, l.ptr, z.ptr⟩ with hh₁
      have hpath : ∀ w : Entry, plug path (.node u.q w b l z) =
          plug (path ++ ⟨.left, u.q, w, b, z⟩ :: path') (.node u'.q vr b' l' .nil) := by
        intro w
        rw [plug_append, plug_cons, ← hl]
        rfl
      have hbal : (plug path (.node u.q vr b l z)).Balanced :=
        I.balanced.plug_of_height I.balanced.of_plug rfl
      have hheight : h₁.treeHeight = (plug path (.node u.q vr b l z)).height := by
        rw [hh₁, store_treeHeight, I.height]
        exact height_plug rfl
      have Hr : Rep h₁.node (plug (headFrame :: (path ++ ⟨.left, u.q, vr, b, z⟩ :: path'))
          (.node u'.q vr b' l' .nil)) := by
        rw [plug_cons, ← hpath]; exact E.rep
      rw [hpath] at hbal hheight
      have hllist : l.toList = before path' ++ l'.toList ++ [vr] := by
        rw [hl, toList_plug, hafter]; simp [PTree.toList]
      have hu'' : Traced (headFrame :: (path ++ ⟨.left, u.q, vr, b, z⟩ :: path')) u' :=
        hu'.congr (by simp)
      have hord' : Ordered (before (path ++ ⟨.left, u.q, vr, b, z⟩ :: path') ++
          (l'.toList ++ (.nil : Tree).toList) ++
            after (path ++ ⟨.left, u.q, vr, b, z⟩ :: path')) := by
        refine hord.sublist ?_
        simp only [before_append, after_append, before, after, hafter, PTree.toList, hllist]
        simp only [List.append_assoc, List.nil_append, List.append_nil, List.cons_append]
        refine List.Sublist.append_left (List.Sublist.append_left (List.Sublist.append_left ?_ _) _) _
        exact List.Sublist.cons_cons _ (List.sublist_cons_self _ _)
      obtain ⟨h', T', heq, I', hlist'⟩ := removeNode_spec Hr hord' hbal hheight (.inr rfl) hu''
      refine ⟨h', T', before path ++ l.toList, z.toList ++ after path, v.data, ?_, I', ?_, ?_⟩
      · simp only [remove, hhead, ok_bind, hr, hread, if_pos hboth, hpred, hreadr]
        rw [heq]
        rfl
      · rw [hlist, ← hv]; simp [PTree.toList]
      · rw [hlist', hllist]; simp [PTree.toList, before, after, hafter]
    · have hlz : l = .nil ∨ z = .nil := by
        have Hl : Rep h.node l := (H.of_plug).of_plug (c := [⟨.left, u.q, v, b, z⟩])
        have Hz : Rep h.node z := (H.of_plug).of_plug (c := [⟨.right, u.q, v, b, l⟩])
        rw [← Hl.ptr_eq_zero, ← Hz.ptr_eq_zero]
        tauto
      have hsub : (before path ++ (l.toList ++ z.toList) ++ after path).Sublist
          (before path ++ (PTree.node u.q v b l z).toList ++ after path) :=
        List.Sublist.append_right (List.Sublist.append_left
          (List.Sublist.append_left (List.sublist_cons_self _ _) _) _) _
      obtain ⟨h', T', heq, I', hlist'⟩ := removeNode_spec H (hord.sublist hsub) I.balanced
        I.height hlz hu
      refine ⟨h', T', before path ++ l.toList, z.toList ++ after path, v.data, ?_, I', ?_, ?_⟩
      · simp only [remove, hhead, ok_bind, hr, hread, if_neg hboth]
        rw [heq]
        rfl
      · rw [hlist, ← hv]; simp [PTree.toList]
      · rw [hlist']; simp

end Avl

end L4env.L4rm
