import L4env.L4rm.AvlInv

/-!
# L4RM: insertion into the AVL tree

The search of `avlt_insert` splits its path at `s`, the last node that is not balanced, or the
root. Below `s` the path grows, at `s` one rotation at most restores the balance, and the height
of the tree changes only if there is no such node.
-/

namespace L4env.L4rm

open PTree

namespace Avl
variable {h h' : Avl} {key : Key} {data : Nat} {q : Ptr} {x t : Tree}
  {c c₁ c₂ cs : List (Frame Entry)} {ft fs : Frame Entry}

/-! ## The search -/

/-- The nodes below the first one of a path, and the root of the subtree in the hole, are balanced. -/
def Quiet : List (Frame Entry) → Tree → Prop
  | [], _ => True
  | _ :: c, x => (∀ f ∈ c, f.b = 0) ∧ x.rootB = 0

theorem Quiet.push {f : Frame Entry} {y : Tree} (hq : Quiet c x) (hf : f.b = x.rootB)
    (hy : y.rootB = 0) : Quiet (c ++ [f]) y := by
  cases c with
  | nil => exact ⟨fun f hf => (List.not_mem_nil hf).elim, hy⟩
  | cons fs c =>
    refine ⟨fun f' hf' => ?_, hy⟩
    obtain hf' | hf' := List.mem_append.mp hf'
    · exact hq.1 f' hf'
    · rw [List.mem_singleton.mp hf', hf]
      exact hq.2

/-- What the search of `avlt_insert` finds below `x`. -/
inductive Searched (h : Avl) (key : Key) (r : Except Fault (Option Place))
    (c₁ : List (Frame Entry)) (ft : Frame Entry) (c₂ : List (Frame Entry)) (x : Tree) : Prop
  | overlap {e : Entry} (he : e ∈ x.toList) (ho : key.Overlaps e.key) (hr : r = .ok none)
  | place (path cs : List (Frame Entry)) {c₁' : List (Frame Entry)} {ft' fs f : Frame Entry}
      (hpath : c₁ ++ ft :: (c₂ ++ path) = c₁' ++ ft' :: fs :: cs) (hx : x = plug path .nil)
      (hfollows : ∀ f ∈ path, Follows key f) (hcs : ∀ f ∈ cs, f.b = 0)
      (hs : c₁' = [] ∨ fs.b ≠ 0) (hlast : path.getLast? = some f)
      (hr : r = .ok (some ⟨ft'.p, fs.p, f.p, f.d⟩))

theorem Searched.push {r : Except Fault (Option Place)} {c₁' c₂' : List (Frame Entry)}
    {ft' f : Frame Entry} (H : Searched h key r c₁' ft' c₂' x)
    (hpath : c₁ ++ ft :: (c₂ ++ [f]) = c₁' ++ ft' :: c₂') (hf : Follows key f) :
    Searched h key r c₁ ft c₂ (plug [f] x) := by
  cases H with
  | overlap he ho hr =>
    exact .overlap (by rw [toList_plug]; simp [he]) ho hr
  | place path _ hpath' hx hfollows hcs hs hlast hr =>
    refine .place (f :: path) _ (hpath'.symm.trans ?_).symm ?_ ?_ hcs hs ?_ hr
    · have := congrArg (· ++ path) hpath
      simpa using this.symm
    · rw [hx]; rfl
    · exact List.forall_mem_cons.mpr ⟨hf, hfollows⟩
    · simp [List.getLast?_cons, hlast]

/-- The search ends at a free place below the node `f`. -/
theorem Searched.here {f : Frame Entry} (hq : Quiet c₂ (plug [f] .nil)) (hf : Follows key f)
    (hroot : c₁ = [] ∨ (plug c₂ (plug [f] .nil)).rootB ≠ 0) :
    Searched h key (.ok (some ⟨ft.p, (plug c₂ (plug [f] .nil)).ptr, f.p, f.d⟩)) c₁ ft c₂
      (plug [f] .nil) := by
  cases c₂ with
  | nil =>
    simp only [plug_nil, plug_cons, rootB_bin, ptr_bin] at hroot ⊢
    exact .place [f] [] rfl rfl (by simpa using hf) (by simp) hroot rfl rfl
  | cons fs c =>
    simp only [plug_cons, rootB_bin, ptr_bin] at hroot ⊢
    refine .place [f] (c ++ [f]) rfl rfl (by simpa using hf) ?_ hroot rfl rfl
    intro f' hf'
    obtain hf' | hf' := List.mem_append.mp hf'
    · exact hq.1 f' hf'
    · rw [List.mem_singleton.mp hf']
      simpa using hq.2

theorem insertSearch_spec (key : Key) (n : Nat) :
    ∀ {x} (c₁ ft c₂), Rep h.node (plug (c₁ ++ ft :: c₂) x) → x ≠ .nil → x.height ≤ n →
      Quiet c₂ x → (c₁ = [] ∨ (plug c₂ x).rootB ≠ 0) →
      Searched h key (h.insertSearch key n ft.p (plug c₂ x).ptr x.ptr) c₁ ft c₂ x := by
  induction n with
  | zero =>
    intro x c₁ ft c₂ _ hx hn
    cases x with
    | nil => exact absurd rfl hx
    | node => simp [height] at hn
  | succ n ih =>
    intro x c₁ ft c₂ H hx hn hq hroot
    cases x with
    | nil => exact absurd rfl hx
    | node p v b l r =>
      have hload : h.load p = .ok ⟨v, b, l.ptr, r.ptr⟩ := load_eq H.of_plug.holds.1
      cases hside : key.side v.key with
      | none =>
        refine .overlap (e := v) (by simp [toList]) (Key.side_none.mp hside) ?_
        simp only [insertSearch, ptr, hload, ok_bind, hside]
        rfl
      | some d =>
        obtain ⟨y, z, hbin⟩ := node_eq_bin d p v b l r
        rw [hbin] at H hn hq hroot ⊢
        have hload : h.load p = .ok (.link d v b y.ptr z.ptr) := load_eq (read_bin H)
        have hy : Rep h.node (plug (c₁ ++ ft :: (c₂ ++ [⟨d, p, v, b, z⟩])) y) := by
          simpa using H
        have hstep : h.insertSearch key (n + 1) ft.p (plug c₂ (bin d p v b y z)).ptr p =
            if y.ptr = 0 then .ok (some ⟨ft.p, (plug c₂ (bin d p v b y z)).ptr, p, d⟩)
            else (do
              if (← h.load y.ptr).b ≠ 0 then h.insertSearch key n p y.ptr y.ptr
              else h.insertSearch key n ft.p (plug c₂ (bin d p v b y z)).ptr y.ptr) := by
          simp only [insertSearch, hload, ok_bind, TNode.link_val, hside, TNode.child_link]
          rfl
        rw [ptr_bin, hstep]
        by_cases hnil : y = .nil
        · subst hnil
          rw [if_pos ptr_nil]
          exact .here (f := ⟨d, p, v, b, z⟩) hq hside hroot
        · have hy0 : y.ptr ≠ 0 := fun h0 => hnil ((hy.of_plug.ptr_eq_zero).mp h0)
          have hbound : y.height ≤ n := by simp only [height_bin] at hn; omega
          obtain ⟨py, vy, b', y₁, y₂, rfl⟩ := exists_bin d hnil
          rw [if_neg hy0, ptr_bin, load_eq (read_bin hy), ok_bind, TNode.link_b]
          split
          · -- `s` moves on to the node below
            have hS := ih (c₁ ++ ft :: c₂) ⟨d, p, v, b, z⟩ []
              (by simpa using H) hnil hbound trivial (.inr (by simpa using ‹b' ≠ 0›))
            simp only [plug_nil, ptr_bin] at hS
            exact hS.push (f := ⟨d, p, v, b, z⟩) (by simp) hside
          · have hquiet : (bin d py vy b' y₁ y₂).rootB = 0 := by
              rw [rootB_bin]; exact not_not.mp ‹¬b' ≠ 0›
            have hplug : plug c₂ (bin d p v b (bin d py vy b' y₁ y₂) z) =
                plug (c₂ ++ [⟨d, p, v, b, z⟩]) (bin d py vy b' y₁ y₂) := by simp
            rw [hplug] at hroot ⊢
            have hS := ih c₁ ft (c₂ ++ [⟨d, p, v, b, z⟩]) hy hnil hbound
              (hq.push (by simp) hquiet) hroot
            rw [ptr_bin] at hS
            exact hS.push (f := ⟨d, p, v, b, z⟩) rfl hside

/-! ## Balance factors below `s` -/

/-- A new node. -/
def leaf (q : Ptr) (e : Entry) : Tree := .node q e 0 .nil .nil

theorem leaf_balanced {e : Entry} : (leaf q e).Balanced :=
  ⟨by simp, by decide, by decide, trivial, trivial⟩

theorem insertAdjust_edit {e : Entry} (n : Nat) (hn : cs.length ≤ n)
    (H : Rep h.node (plug cs (leaf q e))) (hcs : ∀ f ∈ cs, Follows key f) :
    ∃ h', h.insertAdjust key q (n + 1) (plug cs (leaf q e)).ptr = .ok h' ∧
      Edit h h' (plug cs (leaf q e)) (plug (bump cs) (leaf q e)) := by
  induction cs generalizing h n with
  | nil => exact ⟨h, by simp [insertAdjust, leaf, ptr]; rfl, .refl H⟩
  | cons f cs ih =>
    obtain ⟨n, rfl⟩ : ∃ m, n = m + 1 := ⟨n - 1, by simp at hn; omega⟩
    have hload := read_bin (c := []) H
    have hne : f.p ≠ q := by
      rintro rfl
      refine (nodup_addrs_bin.mp H.nodup).1 (mem_addrs_plug.mpr (.inr ?_))
      simp [leaf, addrs]
    obtain ⟨h₁, heq₁, E₁⟩ := setB_edit (c := []) f.d.sign H
    have hread := read_bin (c := []) E₁.rep
    obtain ⟨h₂, heq₂, E₂⟩ := ih n (by simpa using hn) (Rep.left_of_bin E₁.rep)
      fun f' hf' => hcs f' (List.mem_cons_of_mem _ hf')
    refine ⟨h₂, ?_, E₁.trans (E₂.plug (c := [{ f with b := f.d.sign }]) E₁.rep ?_)⟩
    · have hside := side_eq hload (by simp) (hcs f List.mem_cons_self)
      rw [insertAdjust, plug_cons, ptr_bin, if_neg hne]
      simp only [hside, ok_bind, heq₁, load_eq hread, TNode.child_link]
      exact heq₂
    · cases cs <;> simp

/-! ## Balancing at `s` -/

/-- The result of balancing: the subtree below `ft`, and whether the whole tree has grown. -/
structure Balances (h : Avl) (ft : Frame Entry) (x x₀ : Tree) (bs : Int)
    (r : Except Fault Avl) (h' : Avl) (x' : Tree) : Prop where
  edit : Edit h h' (plug [ft] x) (plug [ft] x')
  balanced : x'.Balanced
  toList : x'.toList = x.toList
  grown : (bs = 0 ∧ r = .ok { h' with treeHeight := h'.treeHeight + 1 } ∧
    x'.height = x₀.height + 1) ∨ (bs ≠ 0 ∧ r = .ok h' ∧ x'.height = x₀.height)

section
variable {a : Dir} {s : Ptr} {vs : Entry} {bs : Int} {y y₀ z : Tree}

theorem insertBalance_rotate {r : Ptr} {vr : Entry} {br : Int} {u w : Tree}
    (H : Rep h.node (plug [ft] (bin a s vs a.sign (bin a r vr br u w) z)))
    (hy : (bin a r vr br u w).Balanced) (hz : z.Balanced) (hbr : br ≠ 0)
    (hh : (bin a r vr br u w).height = z.height + 2) :
    ∃ h' x', h.insertBalance ft.p s r a = .ok h' ∧
      Edit h h' (plug [ft] (bin a s vs a.sign (bin a r vr br u w) z)) (plug [ft] x') ∧
      x'.Balanced ∧ x'.toList = (bin a s vs a.sign (bin a r vr br u w) z).toList ∧
      x'.height = z.height + 2 := by
  obtain ⟨h1, h2, h3, hu, hw⟩ := balanced_bin.mp hy
  rw [height_bin] at hh
  have hs := load_eq (read_bin H)
  have HX := H.of_plug
  have hr := load_eq (read_bin (c := [⟨a, s, vs, a.sign, z⟩]) HX)
  have hs0 : s ≠ 0 := by rintro rfl; exact HX.nonnull (by simp)
  have hsgn := a.sign_ne_zero
  have hsgn' : a.sign ≠ -a.sign := by omega
  by_cases hbr' : br = a.sign
  · -- single rotation
    have hdiff : u.height = z.height + 1 ∧ w.height = z.height := by
      rw [hbr'] at h1
      cases a <;> simp only [Dir.sign] at h1 <;> omega
    obtain ⟨h₁, heq₁, E₁⟩ := rotateSingle_edit HX
    obtain ⟨h₂, heq₂, E₂⟩ := setB_edit 0 (c := [⟨a.flip, r, vr, br, u⟩])
      (by rw [plug_cons, plug_nil, bin_flip]; exact E₁.rep)
    simp only [plug_cons, plug_nil, bin_flip] at E₂
    obtain ⟨h₃, heq₃, E₃⟩ := setB_edit 0 (c := []) E₂.rep
    obtain ⟨h₄, heq₄, E₄⟩ := setSubtree_edit H ((E₁.trans E₂).trans E₃) (by simpa using hs0)
    simp only [plug_nil, ptr_bin] at heq₄
    refine ⟨h₄, _, ?_, E₄, balanced_single hu hw hz hdiff.1 hdiff.2, toList_single, ?_⟩
    · simp only [insertBalance, hs, hr, ok_bind, TNode.link_b, if_neg hsgn, if_neg hsgn',
        if_pos hbr', heq₁, heq₂, heq₃, heq₄]
    · simp only [height_bin]; omega
  · -- double rotation
    have hdiff : w.height = z.height + 1 ∧ u.height = z.height := by
      cases a <;> simp only [Dir.sign] at h1 hbr' <;> omega
    have hnil : w ≠ .nil := by rintro rfl; simp at hdiff
    obtain ⟨p, vp, bp, y₁, y₂, rfl⟩ := exists_bin a hnil
    obtain ⟨h₁, heq₁, E₁⟩ := rotateDouble_edit HX
    have hp := load_eq (read_bin (c := []) E₁.rep)
    obtain ⟨h₂, heq₂, E₂⟩ := setB_edit (if bp = a.sign then -a.sign else 0)
      (c := [⟨a.flip, p, vp, bp, bin a r vr br u y₁⟩])
      (by rw [plug_cons, plug_nil, bin_flip]; exact E₁.rep)
    simp only [plug_cons, plug_nil, bin_flip] at E₂
    obtain ⟨h₃, heq₃, E₃⟩ := setB_edit (if bp = 0 ∨ bp = a.sign then 0 else a.sign)
      (c := [⟨a, p, vp, bp, bin a s vs (if bp = a.sign then -a.sign else 0) y₂ z⟩]) E₂.rep
    obtain ⟨h₄, heq₄, E₄⟩ := setB_edit 0 (c := []) E₃.rep
    obtain ⟨h₅, heq₅, E₅⟩ := setSubtree_edit H (((E₁.trans E₂).trans E₃).trans E₄)
      (by simpa using hs0)
    simp only [plug_nil, ptr_bin] at heq₅
    obtain ⟨hbal, hheight⟩ := balanced_double r s vr vs br a.sign hw hu hz hdiff.1 hdiff.2
    refine ⟨h₅, _, ?_, E₅, hbal, toList_double, ?_⟩
    · simp only [insertBalance, hs, hr, ok_bind, TNode.link_b, if_neg hsgn, if_neg hsgn',
        if_neg hbr', TNode.child_flip_link, ptr_bin, heq₁, hp, heq₂, heq₃, heq₄, heq₅]
    · simp only [plug_nil, height_bin] at hheight ⊢
      exact hheight

theorem insertBalance_spec (H : Rep h.node (plug [ft] (bin a s vs bs y z)))
    (hold : (bin a s vs bs y₀ z).Balanced) (hy : y.Balanced) (hh : y.height = y₀.height + 1)
    (hr : y₀ = .nil ∨ y.rootB ≠ 0) :
    ∃ h' x', Balances h ft (bin a s vs bs y z) (bin a s vs bs y₀ z) bs
      (h.insertBalance ft.p s y.ptr a) h' x' := by
  obtain ⟨h1, h2, h3, _, hz⟩ := balanced_bin.mp hold
  have hload := load_eq (read_bin H)
  by_cases hb0 : bs = 0
  · obtain ⟨h', heq, E⟩ := setB_edit a.sign H
    refine ⟨h', _, E, ?_, toList_bin rfl, .inl ⟨hb0, ?_, ?_⟩⟩
    · rw [balanced_bin]
      subst hb0
      refine ⟨?_, ?_, ?_, hy, hz⟩
      all_goals cases a <;> simp only [Dir.sign] at h1 ⊢ <;> omega
    · simp only [insertBalance, hload, ok_bind, TNode.link_b, if_pos hb0, heq]; rfl
    · subst hb0
      simp only [height_bin]
      omega
  by_cases hba : bs = -a.sign
  · obtain ⟨h', heq, E⟩ := setB_edit 0 H
    refine ⟨h', _, E, ?_, toList_bin rfl, .inr ⟨hb0, ?_, ?_⟩⟩
    · rw [balanced_bin]
      subst hba
      refine ⟨?_, by decide, by decide, hy, hz⟩
      cases a <;> simp only [Dir.sign] at h1 ⊢ <;> omega
    · simp only [insertBalance, hload, ok_bind, TNode.link_b, if_neg hb0, if_pos hba, heq]
    · subst hba
      simp only [height_bin]
      cases a <;> simp only [Dir.sign] at h1 <;> omega
  have hbs : bs = a.sign := by cases a <;> simp only [Dir.sign] at hba ⊢ <;> omega
  have hyz : y₀.height = z.height + 1 := by
    rw [hbs] at h1
    cases a <;> simp only [Dir.sign] at h1 <;> omega
  have hy₀ : y₀ ≠ .nil := by rintro rfl; simp at hyz
  have hnil : y ≠ .nil := by rintro rfl; simp at hh
  obtain ⟨r, vr, br, u, w, rfl⟩ := exists_bin a hnil
  subst hbs
  obtain ⟨h', x', heq, E, hbal, hlist, hheight⟩ :=
    insertBalance_rotate H hy hz (by simpa using hr.resolve_left hy₀) (by omega)
  refine ⟨h', x', E, hbal, hlist, .inr ⟨hb0, by rw [ptr_bin]; exact heq, ?_⟩⟩
  rw [hheight, height_bin]
  omega

end

/-! ## `avlt_insert` -/

/-- The new node is hung below the last node of the path. -/
theorem addLeaf_rep {f : Frame Entry} {e : Entry} (H : Rep h.node (plug (c ++ [f]) .nil))
    (hq0 : q ≠ 0) (hq : h.node q = none) :
    h.setChild f.p f.d q = .ok (h.store f.p (.link f.d f.v f.b q f.sib.ptr)) ∧
      Rep ((h.store f.p (.link f.d f.v f.b q f.sib.ptr)).store q ⟨e, 0, 0, 0⟩).node
        (plug (c ++ [f]) (leaf q e)) := by
  rw [plug_append] at H
  have hnew : q ∉ (plug c (plug [f] .nil)).addrs := by
    intro hmem
    have := H.holds.isSome hmem
    rw [hq] at this
    cases this
  have hread := read_bin H
  have hpq : f.p ≠ q := by
    rintro rfl
    rw [hread] at hq
    cases hq
  refine ⟨by rw [setChild_eq hread, TNode.setChild_link], ?_⟩
  obtain ⟨hd₁, hd₂, hd₃⟩ := nodup_addrs_plug.mp H.nodup
  obtain ⟨_, hfs, _, hds, _⟩ := nodup_addrs_bin.mp hd₂
  have hframe : ∀ a, a ≠ f.p → a ≠ q →
      ((h.store f.p (.link f.d f.v f.b q f.sib.ptr)).store q ⟨e, 0, 0, 0⟩).node a = h.node a := by
    intro a hap haq
    rw [store_of_ne haq, store_of_ne hap]
  have hqsib : q ∉ f.sib.addrs := fun hmem => hnew (mem_addrs_plug.mpr (.inr (by simp [hmem])))
  rw [plug_append]
  refine H.replace (by simp) ⟨holds_bin.mpr ⟨?_, ?_, ?_⟩, nodup_addrs_bin.mpr ?_, ?_⟩ ?_ ?_
  · rw [store_of_ne hpq, store_self]; rfl
  · exact ⟨store_self, trivial, trivial⟩
  · refine (holds_bin.mp H.of_plug.holds).2.2.congr fun a ha => hframe a ?_ ?_
    · exact fun h => hfs (h ▸ ha)
    · exact fun h => hqsib (h ▸ ha)
  · simp [leaf, addrs, hpq, hfs, hds, hqsib]
  · have h0 := H.of_plug.nonnull
    simp only [plug_cons, plug_nil, mem_addrs_bin, not_or] at h0 ⊢
    refine ⟨h0.1, ?_, h0.2.2⟩
    simpa [leaf, addrs] using Ne.symm hq0
  · intro a ha
    simp only [plug_cons, plug_nil, mem_addrs_bin, leaf, addrs] at ha ⊢
    obtain rfl | ha | ha := ha
    · exact .inl (.inl rfl)
    · right
      simp only [List.append_nil, List.mem_singleton] at ha
      rw [ha]
      exact hnew
    · exact .inl (.inr (.inr ha))
  · intro a ha
    refine hframe a ?_ ?_
    · rintro rfl
      exact hd₃ f.p ha (by simp)
    · rintro rfl
      exact hnew (mem_addrs_plug.mpr (.inl ha))

/-- What `avlt_insert` does from its place on: `pre` leads to `s`, `fs :: cs` on to the place. -/
theorem insertAt_spec {pre : List (Frame Entry)} {f : Frame Entry} {e : Entry}
    (I : h.Inv (plug (pre ++ fs :: cs) .nil))
    (htop : headFrame :: pre = c₁ ++ [ft]) (hs : fs.b = 0 → pre = [])
    (hfollows : ∀ f ∈ fs :: cs, Follows key f) (hcs : ∀ f ∈ cs, f.b = 0)
    (hlast : (fs :: cs).getLast? = some f) (hq0 : q ≠ 0) (hq : h.node q = none) :
    ∃ h₁ h₂ h' T, h.setChild f.p f.d q = .ok h₁ ∧
      (h₁.store q ⟨e, 0, 0, 0⟩).side key fs.p = .ok fs.d ∧
      (h₁.store q ⟨e, 0, 0, 0⟩).load fs.p =
        .ok (.link fs.d fs.v fs.b (plug cs (leaf q e)).ptr fs.sib.ptr) ∧
      (h₁.store q ⟨e, 0, 0, 0⟩).insertAdjust key q (h₁.store q ⟨e, 0, 0, 0⟩).fuel
        (plug cs (leaf q e)).ptr = .ok h₂ ∧
      h₂.insertBalance ft.p fs.p (plug cs (leaf q e)).ptr fs.d = .ok h' ∧
      Rep h'.node (plug [headFrame] T) ∧ T.Balanced ∧ h'.treeHeight = T.height ∧
      T.toList = (plug (pre ++ fs :: cs) (leaf q e)).toList := by
  obtain ⟨cl, hcl⟩ : ∃ cl, fs :: cs = cl ++ [f] := by
    refine ⟨(fs :: cs).dropLast, ?_⟩
    exact (List.dropLast_append_getLast? f hlast).symm
  have hpath : headFrame :: (pre ++ fs :: cs) = (c₁ ++ [ft] ++ cl) ++ [f] := by
    rw [← List.cons_append, htop, hcl]; simp
  have H : Rep h.node (plug ((c₁ ++ [ft] ++ cl) ++ [f]) .nil) := by
    rw [← hpath]; exact I.rep
  obtain ⟨heq₁, H₁⟩ := addLeaf_rep (e := e) H hq0 hq
  set h₁ := h.store f.p (.link f.d f.v f.b q f.sib.ptr) with hh₁
  set h₁' := h₁.store q ⟨e, 0, 0, 0⟩ with hh₁'
  have H₁' : Rep h₁'.node (plug (c₁ ++ [ft]) (plug [fs] (plug cs (leaf q e)))) := by
    rw [List.append_assoc, ← hcl, plug_append] at H₁
    exact H₁
  have hread := read_bin H₁'
  have hheight₁ : h₁'.treeHeight = h.treeHeight := rfl
  have hfuel : cs.length ≤ h₁'.treeHeight + 1 := by
    have := length_le_height (c := pre ++ fs :: cs) (t := (.nil : Tree))
    rw [hheight₁, I.height]
    simp only [List.length_append, List.length_cons] at this
    omega
  obtain ⟨h₂, heq₂, E₂⟩ := insertAdjust_edit _ hfuel (H₁'.of_plug.of_plug)
    fun f hf => hfollows f (List.mem_cons_of_mem _ hf)
  -- the nodes below `s` have grown
  have hptr : (plug (bump cs) (leaf q e)).ptr = (plug cs (leaf q e)).ptr := by
    cases cs <;> simp
  have E₂' := E₂.plug (c := (c₁ ++ [ft]) ++ [fs]) (by simpa using H₁') hptr
  have Hbal : Rep h₂.node (plug [ft] (bin fs.d fs.p fs.v fs.b (plug (bump cs) (leaf q e)) fs.sib)) := by
    have := E₂'.rep
    rw [List.append_assoc, plug_append] at this
    exact this.of_plug
  have hbal := I.balanced
  rw [plug_append] at hbal
  have hold := hbal.of_plug
  obtain ⟨hgb, hgh⟩ := Balanced.bump (hold.of_plug (c := [fs])) hcs
    (leaf_balanced (q := q) (e := e)) (by simp [leaf, height])
  have hr : plug cs .nil = .nil ∨ (plug (bump cs) (leaf q e)).rootB ≠ 0 := by
    cases cs with
    | nil => exact .inl rfl
    | cons f cs => exact .inr (by simpa using f.d.sign_ne_zero)
  obtain ⟨h₃, x', B⟩ := insertBalance_spec Hbal hold hgb hgh hr
  rw [hptr] at B
  have E₃ := B.edit.plug (c := c₁) (by simpa using E₂'.rep) (by simp)
  have hrep : Rep h₃.node (plug [headFrame] (plug pre x')) := by
    have := E₃.rep
    rw [← plug_append, ← htop] at this
    exact this
  have hlist : (plug pre x').toList = (plug (pre ++ fs :: cs) (leaf q e)).toList := by
    rw [plug_append]
    refine toList_plug_congr (B.toList.trans (toList_bin ?_))
    rw [toList_plug, toList_plug, before_bump, after_bump]
  have hheight : h₃.treeHeight = h.treeHeight := (E₃.height.trans E₂'.height).trans hheight₁
  have hside : h₁'.side key fs.p = .ok fs.d :=
    side_eq hread (by simp) (hfollows fs List.mem_cons_self)
  obtain ⟨hb, heq₃, hgrown⟩ | ⟨hb, heq₃, hsame⟩ := B.grown
  · have hpre := hs hb
    subst hpre
    refine ⟨h₁, h₂, _, x', heq₁, hside, load_eq hread, heq₂, heq₃, hrep, B.balanced, ?_, hlist⟩
    rw [hgrown]
    exact congrArg (· + 1) (hheight.trans I.height)
  · refine ⟨h₁, h₂, h₃, plug pre x', heq₁, hside, load_eq hread, heq₂, heq₃, hrep, ?_, ?_, hlist⟩
    · exact hbal.plug_of_height B.balanced hsame
    · rw [hheight, I.height, plug_append]
      exact (height_plug hsame).symm

theorem Ordered.insert {path : List (Frame Entry)} {e : Entry} (hT : Ordered (plug path .nil).toList)
    (he : e.Ok) (hf : ∀ f ∈ path, Follows e.key f) :
    Ordered (before path ++ e :: after path) := by
  have hlt := fun x hx => hT.before_lt (e := x) he hf hx
  have hgt := fun x hx => hT.lt_after (e := x) hf hx
  rw [toList_plug] at hT
  obtain ⟨h1, h2, h3⟩ := Ordered.append.mp hT
  simp only [PTree.toList, List.append_nil] at h1 h3
  refine Ordered.append.mpr ⟨h1, Ordered.cons.mpr ⟨he, h2, hgt⟩, fun x hx y hy => ?_⟩
  obtain rfl | hy := List.mem_cons.mp hy
  · exact hlt x hx
  · exact h3 x hx y hy

/-- `avlt_insert` into an empty tree. -/
theorem insert_empty {new : Option Ptr} (I : h.Inv .nil) (hk : key.start ≤ key.last)
    (hhead : h.load treeHead = .ok (.link .right ⟨⟨0, 0⟩, 0⟩ 0 (0 : Ptr) 0))
    (hnew : ∀ q, new = some q → q ≠ 0 ∧ h.node q = none) :
    (new = none ∧ h.insert key data new = .ok (.noMem, h)) ∨
    ∃ h' T' l r, new.isSome ∧ h.insert key data new = .ok (.ok, h') ∧ h'.Inv T' ∧
      [] = l ++ r ∧ T'.toList = l ++ ⟨key, data⟩ :: r := by
  cases new with
  | none =>
    refine .inl ⟨rfl, ?_⟩
    simp only [insert, hhead, ok_bind, TNode.link, if_true]
    rfl
  | some q =>
    obtain ⟨hq0, hq⟩ := hnew q rfl
    have hread := read_bin (c := []) I.rep
    have hne : treeHead ≠ q := by
      rintro rfl
      rw [show h.node treeHead = _ from hread] at hq
      cases hq
    obtain ⟨heq, H⟩ := addLeaf_rep (c := []) (e := ⟨key, data⟩) I.rep hq0 hq
    have hcomm : (h.store q ⟨⟨key, data⟩, 0, 0, 0⟩).setChild treeHead .right q =
        .ok ((h.store treeHead (.link .right ⟨⟨0, 0⟩, 0⟩ 0 q 0)).store q
          ⟨⟨key, data⟩, 0, 0, 0⟩) := by
      rw [setChild_eq (by rw [store_of_ne hne]; exact hread)]
      simp only [store]
      rw [Function.update_comm hne]
      rfl
    refine .inr ⟨{ (h.store treeHead (.link .right ⟨⟨0, 0⟩, 0⟩ 0 q 0)).store q
      ⟨⟨key, data⟩, 0, 0, 0⟩ with treeHeight := 1 }, leaf q ⟨key, data⟩, [], [], rfl, ?_,
      ⟨H, ?_, leaf_balanced, rfl⟩, rfl, rfl⟩
    · simp only [insert, hhead, ok_bind, TNode.link, if_true, hcomm]
      rfl
    · exact ⟨List.pairwise_singleton _ _, by simpa [leaf, PTree.toList, Entry.Ok] using hk⟩

/-- **`avlt_insert`** adds the new entry, unless its key overlaps a stored one or there is no node. -/
theorem insert_spec {T : Tree} {new : Option Ptr} (data : Nat) (I : h.Inv T) (hk : key.start ≤ key.last)
    (hnew : ∀ q, new = some q → q ≠ 0 ∧ h.node q = none) :
    ((∃ e ∈ T.toList, key.Overlaps e.key) ∧ h.insert key data new = .ok (.exists, h)) ∨
    ((∀ e ∈ T.toList, ¬key.Overlaps e.key) ∧
      ((new = none ∧ h.insert key data new = .ok (.noMem, h)) ∨
      ∃ h' T' l r, new.isSome ∧ h.insert key data new = .ok (.ok, h') ∧ h'.Inv T' ∧
        T.toList = l ++ r ∧ T'.toList = l ++ ⟨key, data⟩ :: r)) := by
  have hhead : h.load treeHead = .ok (.link .right ⟨⟨0, 0⟩, 0⟩ 0 T.ptr 0) :=
    load_eq (read_bin (c := []) I.rep)
  by_cases hnil : T = .nil
  · subst hnil
    exact .inr ⟨by simp [PTree.toList], insert_empty I hk hhead hnew⟩
  have hroot : T.ptr ≠ 0 := fun h0 => hnil ((I.rep.of_plug.ptr_eq_zero).mp h0)
  have hsearch := insertSearch_spec key (h.treeHeight + 2) [] _ []
    I.rep hnil (by rw [I.height]; omega) trivial (.inl rfl)
  cases hsearch with
  | overlap he ho hr =>
    refine .inl ⟨⟨_, he, ho⟩, ?_⟩
    have hr : h.insertSearch key h.fuel treeHead T.ptr T.ptr = .ok none := hr
    simp only [insert, hhead, ok_bind, TNode.link, if_neg hroot, hr]
    rfl
  | @place path cs c₁ ft fs f hpath hT hfollows hcs hs hlast hr =>
    have hr : h.insertSearch key h.fuel treeHead T.ptr T.ptr =
      .ok (some ⟨ft.p, fs.p, f.p, f.d⟩) := hr
    subst hT
    refine .inr ⟨?_, ?_⟩
    · intro e he ho
      rw [toList_plug, List.append_assoc, List.mem_append] at he
      simp only [PTree.toList, List.nil_append] at he
      obtain he | he := he
      · have := I.ordered.before_lt hk hfollows he
        exact absurd ho.1 (by omega)
      · have := I.ordered.lt_after hfollows he
        exact absurd ho.2 (by omega)
    cases new with
    | none =>
      refine .inl ⟨rfl, ?_⟩
      simp only [insert, hhead, ok_bind, TNode.link, if_neg hroot, hr]
      rfl
    | some q =>
      obtain ⟨hq0, hq⟩ := hnew q rfl
      obtain ⟨pre, htop⟩ : ∃ pre, headFrame :: pre = c₁ ++ [ft] := by
        cases c₁ with
        | nil =>
          have := (List.cons.inj hpath).1
          exact ⟨[], by rw [this]; rfl⟩
        | cons f₁ c₁ =>
          have := (List.cons.inj hpath).1
          exact ⟨c₁ ++ [ft], by rw [this]; rfl⟩
      have hpath : path = pre ++ fs :: cs := by
        have : headFrame :: path = (headFrame :: pre) ++ fs :: cs := by
          rw [htop]; simpa using hpath
        exact (List.cons.inj this).2
      have hpre : fs.b = 0 → pre = [] := by
        intro hb
        have hc₁ := hs.resolve_right (not_not.mpr hb)
        rw [hc₁] at htop
        exact (List.cons.inj htop).2
      have hlast : (fs :: cs).getLast? = some f := by
        rw [← hlast, hpath, List.getLast?_append_cons]
      rw [hpath] at I hfollows
      have hf : f.p ≠ 0 := by
        intro h0
        have hmem := mem_addrs_of_mem (t := .nil)
          (List.mem_append_right pre (List.mem_of_getLast? hlast))
        rw [h0] at hmem
        exact I.rep.of_plug.nonnull hmem
      obtain ⟨h₁, h₂, h', T', heq₁, hside, hload, heq₂, heq₃, H, hbal, hheight, hlist⟩ :=
        insertAt_spec (e := ⟨key, data⟩) I htop hpre
          (fun f hf => hfollows f (List.mem_append_right _ hf)) hcs hlast hq0 hq
      rw [toList_plug, ← hpath] at hlist
      have hord := Ordered.insert (e := ⟨key, data⟩) I.ordered hk hfollows
      rw [← hpath] at hord
      refine .inr ⟨h', T', before path, after path, rfl, ?_, ⟨H, ?_, hbal, hheight⟩, ?_, ?_⟩
      · simp only [insert, hhead, ok_bind, TNode.link, if_neg hroot, hr, heq₁]
        simp only [assert, hf, hq0, ne_eq, not_false_eq_true, decide_true, Bool.and_self, if_true]
        simp only [pure_bind, hside, ok_bind, hload, TNode.child_link, heq₂, heq₃]
        rfl
      · rw [hlist]; simpa [leaf, PTree.toList] using hord
      · rw [toList_plug]; simp [PTree.toList]
      · rw [hlist]; simp [leaf, PTree.toList]

end Avl

end L4env.L4rm
