import L4env.L4rm.AvlRemove
import L4env.Util.Meets

/-!
# The way up from the head

If no node above the one that goes is balanced, rebalancing ends at the head. On the way up the parent
of every subtree that got shorter is found by a descent from the head, with the key at the root of the
subtree. `SafePath` says what is known of these keys, in terms of the tree before the removal.
-/

namespace L4env

namespace PTree
variable {β γ : Type}

def rootVal : PTree β → Option β
  | nil => none
  | node _ v _ _ _ => some v

theorem rootVal_bin {d : Dir} {p : Nat} {v : β} {b : Int} {x y : PTree β} :
    (bin d p v b x y).rootVal = some v := by cases d <;> rfl

/-- The contents of the root after the subtree on the side of the path got shorter; none if the height
stays the same. -/
def Frame.shrunkRoot (f : Frame β) : Option β :=
  if f.b = f.d.sign then some f.v
  else if f.b = 0 then none
  else match f.sib with
    | nil => none
    | node _ v b l r =>
      if b = 0 then none
      else if b = f.d.flip.sign then some v
      else match f.d with
        | .left => l.rootVal
        | .right => r.rootVal

/-- Every subtree below the root that gets shorter, when the subtree at the end of the path does, has
contents in `P` at its root. -/
def SafePath (P : β → Prop) (c : List (Frame β)) : Prop :=
  ∀ c₁ f c₂ v, c = c₁ ++ f :: c₂ → c₁ ≠ [] → (∀ g ∈ c₂, g.shrunkRoot.isSome) →
    f.shrunkRoot = some v → P v

/-- The path to the node that goes when contents in `Q` are removed: a node with two subtrees has taken
over the contents of its predecessor. -/
inductive RemovalPath (Q : β → Prop) (T : PTree β) : List (Frame β) → Prop
  | one {c p v b l r} (hT : T = plug c (node p v b l r)) (hv : Q v) (h : l = nil ∨ r = nil) :
    RemovalPath Q T c
  | both {c p v b l r c' p' v' b' l'} (hT : T = plug c (node p v b l r)) (hv : Q v)
    (hl : l = plug c' (node p' v' b' l' nil)) (hc : ∀ f ∈ c', f.d = .right) (hr : r ≠ nil) :
    RemovalPath Q T (c ++ ⟨.left, p, v', b, r⟩ :: c')

/-- What rebalancing from the head needs of the keys. -/
def SafeRemoval (P Q : β → Prop) (T : PTree β) : Prop :=
  ∀ c, RemovalPath Q T c → (∀ f ∈ c, f.b ≠ 0) → SafePath P c

section
variable {P Q : β → Prop} {c : List (Frame β)} {f : Frame β}

theorem SafePath.last {v : β} (h : SafePath P (c ++ [f])) (hc : c ≠ [])
    (hf : f.shrunkRoot = some v) : P v :=
  h c f [] v rfl hc (fun _ hg => nomatch hg) hf

theorem SafePath.pop (h : SafePath P (c ++ [f])) (hf : f.shrunkRoot.isSome) : SafePath P c := by
  intro c₁ g c₂ v hc hne hsome hg
  refine h c₁ g (c₂ ++ [f]) v (by rw [hc, List.append_assoc]; rfl) hne (fun g' hg' => ?_) hg
  obtain hg' | hg' := List.mem_append.mp hg'
  · exact hsome g' hg'
  · rw [List.mem_singleton.mp hg']
    exact hf

theorem shrunkRoot_lean {d : Dir} {p : Nat} {v : β} {x : PTree β} :
    (⟨d, p, v, d.sign, x⟩ : Frame β).shrunkRoot = some v := if_pos rfl

theorem shrunkRoot_rotate {d : Dir} {p r : Nat} {v vr : β} {b br : Int} {u w : PTree β}
    (hb : b ≠ d.sign) (hb0 : b ≠ 0) (hbr : br ≠ 0) :
    (⟨d, p, v, b, bin d.flip r vr br u w⟩ : Frame β).shrunkRoot =
      if br = d.flip.sign then some vr else w.rootVal := by
  cases d <;> simp only [Frame.shrunkRoot, if_neg hb, if_neg hb0, bin, Dir.flip, if_neg hbr]

end

/-! ## Other contents -/

def Frame.map (g : β → γ) (f : Frame β) : Frame γ := ⟨f.d, f.p, g f.v, f.b, f.sib.map g⟩

section
variable {g : β → γ} {t : PTree β}

theorem bin_map {d : Dir} {p : Nat} {v : β} {b : Int} {x y : PTree β} :
    (bin d p v b x y).map g = bin d p (g v) b (x.map g) (y.map g) := by cases d <;> rfl

theorem rootVal_map : (t.map g).rootVal = t.rootVal.map g := by cases t <;> rfl

theorem shrunkRoot_map {f : Frame β} : (f.map g).shrunkRoot = f.shrunkRoot.map g := by
  obtain ⟨d, p, v, b, sib⟩ := f
  dsimp only [Frame.shrunkRoot, Frame.map]
  split_ifs with hb hb0
  · rfl
  · rfl
  cases sib with
  | nil => rfl
  | node q w b' l r =>
    dsimp only [PTree.map]
    split_ifs with hb' hb''
    · rfl
    · rfl
    cases d
    · exact rootVal_map
    · exact rootVal_map

theorem map_eq_node {p : Nat} {v : γ} {b : Int} {l r : PTree γ} (h : t.map g = node p v b l r) :
    ∃ k x y, t = node p k b x y ∧ v = g k ∧ l = x.map g ∧ r = y.map g := by
  cases t with
  | nil => cases h
  | node q k b' x y =>
    obtain ⟨rfl, rfl, rfl, rfl, rfl⟩ := node.inj h
    exact ⟨k, x, y, rfl, rfl, rfl, rfl⟩

theorem map_eq_nil (h : t.map g = nil) : t = nil := by
  cases t with
  | nil => rfl
  | node => cases h

theorem map_eq_plug {c' : List (Frame γ)} : ∀ {t : PTree β} {x' : PTree γ}, t.map g = plug c' x' →
    ∃ c x, c' = c.map (Frame.map g) ∧ x' = x.map g ∧ t = plug c x := by
  induction c' with
  | nil => exact fun {t x'} h => ⟨[], t, rfl, h.symm, rfl⟩
  | cons f c' ih =>
    intro t x' h
    obtain ⟨d, p, v, b, sib⟩ := f
    cases d with
    | left =>
      obtain ⟨k, y, z, rfl, rfl, hy, rfl⟩ := map_eq_node h
      obtain ⟨c, x, rfl, rfl, rfl⟩ := ih hy.symm
      exact ⟨⟨.left, p, k, b, z⟩ :: c, x, rfl, rfl, rfl⟩
    | right =>
      obtain ⟨k, y, z, rfl, rfl, rfl, hz⟩ := map_eq_node h
      obtain ⟨c, x, rfl, rfl, rfl⟩ := ih hz.symm
      exact ⟨⟨.right, p, k, b, y⟩ :: c, x, rfl, rfl, rfl⟩

theorem mem_toList_plug {c : List (Frame β)} {p : Nat} {v : β} {b : Int} {l r : PTree β} :
    v ∈ (plug c (node p v b l r)).toList := by
  rw [toList_plug]
  simp [toList]

theorem RemovalPath.of_map {Q : β → Prop} {Q' : γ → Prop} (hQ : ∀ v ∈ t.toList, Q' (g v) → Q v)
    {c' : List (Frame γ)} (h : RemovalPath Q' (t.map g) c') :
    ∃ c, c' = c.map (Frame.map g) ∧ RemovalPath Q t c := by
  cases h with
  | one hT hv hlr =>
    obtain ⟨c, x, rfl, hx, rfl⟩ := map_eq_plug hT
    obtain ⟨k, l, r, rfl, rfl, rfl, rfl⟩ := map_eq_node hx.symm
    exact ⟨c, rfl, .one rfl (hQ k mem_toList_plug hv) (hlr.imp map_eq_nil map_eq_nil)⟩
  | both hT hv hl hc hr =>
    obtain ⟨c, x, rfl, hx, rfl⟩ := map_eq_plug hT
    obtain ⟨k, l, r, rfl, rfl, rfl, rfl⟩ := map_eq_node hx.symm
    obtain ⟨c', y, rfl, hy, rfl⟩ := map_eq_plug hl
    obtain ⟨k', l', r', rfl, rfl, rfl, hr'⟩ := map_eq_node hy.symm
    obtain rfl := map_eq_nil hr'.symm
    refine ⟨c ++ ⟨.left, _, k', _, r⟩ :: c', by rw [List.map_append]; rfl, ?_⟩
    refine .both rfl (hQ k mem_toList_plug hv) rfl (fun f hf => hc (f.map g) (List.mem_map_of_mem hf)) ?_
    rintro rfl
    exact hr rfl

theorem SafePath.map {P : β → Prop} {P' : γ → Prop} (hP : ∀ v, P v → P' (g v))
    {c : List (Frame β)} (h : SafePath P c) : SafePath P' (c.map (Frame.map g)) := by
  intro c₁ f c₂ v hc hne hsome hf
  obtain ⟨d₁, d', rfl, rfl, hd'⟩ := List.map_eq_append_iff.mp hc
  obtain ⟨f, d₂, rfl, rfl, rfl⟩ := List.map_eq_cons_iff.mp hd'
  rw [shrunkRoot_map, Option.map_eq_some_iff] at hf
  obtain ⟨k, hk, rfl⟩ := hf
  refine hP k (h d₁ f d₂ k rfl (fun h => hne (by rw [h]; rfl)) (fun f' hf' => ?_) hk)
  have hmap := hsome (f'.map g) (List.mem_map_of_mem hf')
  rwa [shrunkRoot_map, Option.isSome_map] at hmap

theorem SafeRemoval.map {P Q : β → Prop} {P' Q' : γ → Prop} (hP : ∀ v, P v → P' (g v))
    (hQ : ∀ v ∈ t.toList, Q' (g v) → Q v) (h : SafeRemoval P Q t) : SafeRemoval P' Q' (t.map g) := by
  intro c' hc' hb
  obtain ⟨c, rfl, hc⟩ := hc'.of_map hQ
  refine (h c hc fun f hf => ?_).map hP
  exact hb (f.map g) (List.mem_map_of_mem hf)

end

end PTree

namespace Cxx

open L4rm (Entry Avl Avlt Key Fault Tree headFrame treeHead Ordered)
open L4rm.Avl (Trace Mark Traced Spliced lastPtr)
open PTree

/-! ## The root of a subtree that got shorter -/

/-- The same nodes with the same contents. -/
def SameVals (h h' : Avl) : Prop := ∀ p, (h'.node p).map (·.val) = (h.node p).map (·.val)

section
variable {h h' h'' : Avl} {n m np : Avlt} {p q r s t : Nat} {a d : Dir} {b : Int}

theorem SameVals.trans (h₁ : SameVals h h') (h₂ : SameVals h' h'') : SameVals h h'' :=
  fun p => (h₂ p).trans (h₁ p)

theorem meets_load : Meets (h.load p) (fun n => h.node p = some n) fun _ => True := by
  unfold L4rm.Avl.load
  cases hp : h.node p with
  | none => trivial
  | some n => rfl

theorem sameVals_store (hp : h.node p = some n) (hv : m.val = n.val) : SameVals h (h.store p m) := by
  intro q
  cases eq_or_ne q p with
  | inl heq =>
    subst heq
    rw [L4rm.Avl.store_self, hp, Option.map_some, Option.map_some, hv]
  | inr hne => rw [L4rm.Avl.store_of_ne hne]

theorem setChild_sameVals : Meets (h.setChild p d q) (SameVals h) fun _ => True :=
  meets_load.bind fun n hn => sameVals_store hn (by cases d <;> rfl)

theorem setB_sameVals : Meets (h.setB p b) (SameVals h) fun _ => True :=
  meets_load.bind fun _ hn => sameVals_store hn rfl

/-- A program that keeps the contents goes on from a state with the contents of `h`. -/
theorem SameVals.after {m : Except Fault Avl} (H : SameVals h h')
    (hm : Meets m (SameVals h') fun _ => True) : Meets m (SameVals h) fun _ => True :=
  hm.imp fun _ => H.trans

theorem rotateSingle_sameVals : Meets (h.rotateSingle d s r) (SameVals h) fun _ => True :=
  meets_load.bind fun _ _ => setChild_sameVals.bind fun _ h₁ => h₁.after setChild_sameVals

theorem rotateDouble_sameVals : Meets (h.rotateDouble d s r p) (SameVals h) fun _ => True :=
  meets_load.bind fun _ _ => setChild_sameVals.bind fun _ h₁ =>
    (h₁.after setChild_sameVals).bind fun _ h₂ => meets_load.bind fun _ _ =>
      (h₂.after setChild_sameVals).bind fun _ h₃ => h₃.after setChild_sameVals

theorem relink_sameVals : Meets (h.relink t p r) (SameVals h) fun _ => True := by
  refine meets_load.bind fun n _ => ?_
  split_ifs
  · exact setChild_sameVals
  · exact setChild_sameVals

/-- The root of the subtree of `p` after a rebalancing step that makes it shorter: `p`, its child, or
the child's other child. -/
inductive NewRoot (h : Avl) (p : Nat) (np : Avlt) (a : Dir) : Nat → Prop
  | lean (hb : np.b = -a.sign) : NewRoot h p np a p
  | single {nr} (hb : np.b ≠ -a.sign) (hb0 : np.b ≠ 0) (hr : h.node (np.child a) = some nr)
    (hbr : nr.b = a.sign) : NewRoot h p np a (np.child a)
  | double {nr} (hb : np.b ≠ -a.sign) (hb0 : np.b ≠ 0) (hr : h.node (np.child a) = some nr)
    (hbr0 : nr.b ≠ 0) (hbr : nr.b ≠ a.sign) : NewRoot h p np a (nr.child a.flip)

theorem rebalanceNode_newRoot (hp : h.node p = some np) : Meets (h.rebalanceNode t p a)
    (fun v => SameVals h v.1 ∧ (v.2.2 = false → NewRoot h p np a v.2.1)) fun _ => True := by
  refine meets_load.bind fun n hn => ?_
  obtain rfl := Option.some.inj (hp.symm.trans hn)
  split_ifs with hb hb0
  · exact setB_sameVals.bind fun _ h₁ => ⟨h₁, fun _ => .lean hb⟩
  · exact setB_sameVals.bind fun _ h₁ => ⟨h₁, nofun⟩
  refine meets_load.bind fun nr hr => ?_
  dsimp only
  split_ifs with hbr0 hbr
  · refine rotateSingle_sameVals.bind fun _ h₁ => (h₁.after setB_sameVals).bind fun _ h₂ => ?_
    refine (h₂.after setB_sameVals).bind fun _ h₃ => (h₃.after relink_sameVals).bind fun _ h₄ => ?_
    exact ⟨h₄, nofun⟩
  · refine rotateSingle_sameVals.bind fun _ h₁ => (h₁.after setB_sameVals).bind fun _ h₂ => ?_
    refine (h₂.after setB_sameVals).bind fun _ h₃ => (h₃.after relink_sameVals).bind fun _ h₄ => ?_
    exact ⟨h₄, fun _ => .single hb hb0 hr hbr⟩
  · refine meets_load.bind fun nr' hr' => ?_
    obtain rfl := Option.some.inj (hr.symm.trans hr')
    refine rotateDouble_sameVals.bind fun _ h₁ => (h₁.after relink_sameVals).bind fun _ h₂ => ?_
    refine meets_load.bind fun _ _ => (h₂.after setB_sameVals).bind fun _ h₃ => ?_
    refine (h₃.after setB_sameVals).bind fun _ h₄ => (h₄.after setB_sameVals).bind fun _ h₅ => ?_
    exact ⟨h₅, fun _ => .double hb hb0 hr hbr0 hbr⟩

end

section
variable {P : Entry → Prop} {h h₁ : Avl} {q s t : Nat} {x x₀ : Tree}
  {pre : List (Frame Entry)} {fp ft : Frame Entry}

/-- The new root has the contents that the tree before the step says. -/
theorem shrunkRoot_eq (H : Rep h.node (plug [ft, fp] x)) (hold : (plug [fp] x₀).Balanced)
    (hh : x₀.height = x.height + 1)
    (heq : h.rebalanceNode ft.p fp.p fp.d.flip = .ok (h₁, q, false)) {nq : Avlt}
    (hq : h₁.node q = some nq) : fp.shrunkRoot = some nq.val := by
  obtain ⟨d, p, v, b, sib⟩ := fp
  have Hp : Rep h.node (plug [ft] (bin d.flip p v b sib x)) := by
    rw [bin_flip]
    exact H
  have hread := L4rm.Avl.read_bin Hp
  replace heq : h.rebalanceNode ft.p p d.flip = .ok (h₁, q, false) := heq
  obtain ⟨hsame, hroot⟩ := (rebalanceNode_newRoot hread).post heq
  dsimp only at hsame hroot
  have hval := hsame q
  rw [hq, Option.map_some] at hval
  replace hold : (bin d p v b x₀ sib).Balanced := hold
  obtain ⟨h1, h2, h3, _, hsib⟩ := balanced_bin.mp hold
  -- the child that the rotation turns up
  have hchild : b ≠ -d.flip.sign → b ≠ 0 → ∃ r vr br u w, sib = bin d.flip r vr br u w := by
    intro hb hb0
    refine exists_bin _ ?_
    rintro rfl
    cases d <;> simp only [Dir.sign, Dir.flip, height_nil] at h1 hb <;> omega
  cases hroot rfl with
  | lean hb =>
    rw [TNode.link_b, Dir.sign_flip, neg_neg] at hb
    subst hb
    rw [hread, Option.map_some, TNode.link_val] at hval
    rw [shrunkRoot_lean, hval]
  | single hb hb0 hr hbr =>
    rw [TNode.link_b] at hb hb0
    obtain ⟨r, vr, br, u, w, rfl⟩ := hchild hb hb0
    have hread' := L4rm.Avl.read_bin (c := [⟨d.flip, p, v, b, x⟩]) Hp.of_plug
    rw [TNode.child_link, ptr_bin] at hr hval
    obtain rfl := Option.some.inj (hread'.symm.trans hr)
    rw [TNode.link_b] at hbr
    rw [hr, Option.map_some, TNode.link_val] at hval
    rw [shrunkRoot_rotate (by simpa using hb) hb0, if_pos hbr, hval]
    rw [hbr]
    exact d.flip.sign_ne_zero
  | double hb hb0 hr hbr0 hbr =>
    rw [TNode.link_b] at hb hb0
    obtain ⟨r, vr, br, u, w, rfl⟩ := hchild hb hb0
    have hread' := L4rm.Avl.read_bin (c := [⟨d.flip, p, v, b, x⟩]) Hp.of_plug
    rw [TNode.child_link, ptr_bin] at hr
    obtain rfl := Option.some.inj (hread'.symm.trans hr)
    rw [TNode.link_b] at hbr hbr0
    rw [TNode.child_flip_link] at hval
    rw [shrunkRoot_rotate (by simpa using hb) hb0 hbr0, if_neg hbr]
    obtain ⟨h4, h5, h6, _, _⟩ := balanced_bin.mp hsib
    cases w with
    | nil =>
      cases d <;> simp only [Dir.sign, Dir.flip, height_nil] at h4 hbr <;> omega
    | node o vo bo y z =>
      have ho := (holds_bin.mp (holds_bin.mp Hp.of_plug.holds).2.1).2.2.1
      rw [ptr, ho, Option.map_some] at hval
      rw [rootVal, hval]

/-- The descents from the head on the way up from `p`: the keys that they compare with the one of the
head are in `P`. -/
def Climbs (P : Entry → Prop) : Nat → Avl → Nat → Nat → Dir → Prop
  | 0, _, _, _, _ => True
  | n + 1, h, t, p, a => ∀ h₁ q nq, h.rebalanceNode t p a = .ok (h₁, q, false) → t ≠ treeHead →
      h₁.node q = some nq → P nq.val ∧ ∀ top t' p' a', h₁.descentStart treeHead = .ok top →
        h₁.descend nq.val.key t h₁.fuel treeHead top = .ok (t', p') →
        h₁.higherSide p' q = .ok a' → Climbs P n h₁ t' p' a'

theorem SafePath.climbs (n : Nat) : ∀ {h : Avl} {pre fp x x₀ t},
    Rep h.node (plug (headFrame :: (pre ++ [fp])) x) → Ordered (plug (pre ++ [fp]) x).toList →
    (plug (pre ++ [fp]) x₀).Balanced → x.Balanced → x₀.height = x.height + 1 →
    h.treeHeight = (plug (pre ++ [fp]) x₀).height → t = lastPtr (headFrame :: pre) →
    SafePath P (pre ++ [fp]) → Climbs P n h t fp.p fp.d.flip := by
  induction n with
  | zero => intros; trivial
  | succ n ih =>
    intro h pre fp x x₀ t H ho hold hx hh hheight ht hsafe h₁ q nq heq htop hq
    obtain rfl | ⟨pre, g, rfl⟩ := pre.eq_nil_or_concat
    · exact absurd ht htop
    rw [List.concat_eq_append] at *
    rw [← List.cons_append, L4rm.Avl.lastPtr_append] at ht
    subst ht
    have hold' : (plug [fp] x₀).Balanced := by
      rw [plug_append] at hold
      exact hold.of_plug
    have Hp : Rep h.node (plug (headFrame :: pre) (plug [g, fp] x)) := by
      rw [← plug_append]
      simpa using H
    have hroot := shrunkRoot_eq Hp.of_plug hold' hh heq hq
    refine ⟨hsafe.last (by simp) hroot, fun top t' p' a' hstart hdesc hside => ?_⟩
    -- the tree after the step
    have hflip : ∀ y : Tree, plug [fp] y = bin fp.d.flip fp.p fp.v fp.b fp.sib y := by
      intro y
      rw [bin_flip]
      rfl
    have Hg : Rep h.node (plug [g] (bin fp.d.flip fp.p fp.v fp.b fp.sib x)) := by
      rw [← hflip]
      exact Hp.of_plug
    rw [hflip] at hold'
    obtain ⟨h₂, x', done, R⟩ := L4rm.Avl.rebalanceNode_spec Hg hold' hx hh
    obtain ⟨p, heq', hp⟩ := R.eq
    obtain ⟨rfl, hqp, rfl⟩ : h₁ = h₂ ∧ q = p ∧ false = done := by
      simpa using Except.ok.inj (heq.symm.trans heq')
    obtain rfl := hqp.trans (hp rfl)
    have E := R.edit.plug (c := headFrame :: pre) (by rw [← hflip]; exact Hp) (by simp)
    have H' : Rep h₁.node (plug (headFrame :: (pre ++ [g])) x') := by
      rw [← List.cons_append, plug_append]
      exact E.rep
    have hsplit : ∀ y, plug (pre ++ [g] ++ [fp]) y =
        plug (pre ++ [g]) (bin fp.d.flip fp.p fp.v fp.b fp.sib y) := by
      intro y
      rw [plug_append, hflip]
    rw [hsplit] at ho hold hheight
    have ho' : Ordered (plug (pre ++ [g]) x').toList := by
      rw [toList_plug_congr R.toList]
      exact ho
    have hheight' := E.height.trans hheight
    -- the descent finds the parent again
    obtain ⟨q, v, b, l, r, rfl⟩ := exists_bin .left R.ne_nil
    obtain rfl := Option.some.inj ((L4rm.Avl.read_bin H').symm.trans hq)
    have hlen : pre.length ≤ h₁.treeHeight := by
      rw [hheight']
      refine le_trans ?_ (length_le_height (c := pre ++ [g]))
      simp
    have Hhead : Rep h₁.node (plug ([] ++ headFrame :: (pre ++ [g])) (bin .left q v b l r)) := H'
    have hfollows := ho'.follows_all (e := v) (by simp [bin, PTree.toList])
    obtain ⟨top', hstart', hdesc'⟩ := L4rm.Avl.descend_top v.key Hhead hlen
      (fun f hf => hfollows f (List.mem_append_left _ hf)) (.inl rfl)
    obtain rfl := Except.ok.inj (hstart.symm.trans hstart')
    obtain ⟨rfl, rfl⟩ := Prod.mk.inj (Except.ok.inj (hdesc.symm.trans hdesc'))
    have hx' := H'.of_plug.nonnull
    have hside' := L4rm.Avl.higherSide_eq (c := headFrame :: pre) (f := g) E.rep
      (by simp only [ptr_bin]; rintro rfl; simp [bin, addrs] at hx')
    obtain rfl := Except.ok.inj (hside.symm.trans hside')
    exact ih H' ho' hold R.balanced R.height.symm hheight' rfl (hsafe.pop (by rw [hroot]; rfl))

/-- If the head is the last balanced node of the path, no node below it is balanced. -/
theorem mark_head (H : Rep h.node (plug (headFrame :: pre) x))
    (hm : Mark (headFrame :: pre) treeHead) : ∀ f ∈ pre, f.b ≠ 0 := by
  obtain ⟨c₁, fs, c₂, hc, hs, -, hc₂⟩ := hm
  cases c₁ with
  | nil =>
    obtain ⟨-, rfl⟩ := List.cons.inj hc
    exact hc₂
  | cons f c₁ =>
    obtain ⟨-, rfl⟩ := List.cons.inj hc
    refine absurd ?_ (nodup_addrs_bin.mp H.nodup).1
    rw [show headFrame.p = fs.p from hs]
    exact mem_addrs_of_mem (by simp)

/-- The way up after `u.q` was taken out. -/
def Upward (P : Entry → Prop) (h : Avl) (u : Trace) : Prop :=
  u.s = treeHead → ∀ hd np h₁, h.node treeHead = some hd → u.q ≠ hd.right → h.node u.p = some np →
    h.unlink u.p u.q (if u.q = np.right then .right else .left) = .ok h₁ →
    Climbs P h₁.fuel h₁ u.t u.p (if u.q = np.right then Dir.right else .left).flip

theorem upward {v : Entry} {b : Int} {l r : Tree} {u : Trace}
    (H : Rep h.node (plug (headFrame :: pre) (.node u.q v b l r)))
    (hord : Ordered (before pre ++ (l.toList ++ r.toList) ++ after pre))
    (hbalanced : (plug pre (.node u.q v b l r)).Balanced)
    (hheight : h.treeHeight = (plug pre (.node u.q v b l r)).height)
    (hlr : l = .nil ∨ r = .nil) (hu : Traced (headFrame :: pre) u)
    (hsafe : (∀ f ∈ pre, f.b ≠ 0) → SafePath P pre) : Upward P h u := by
  intro hs hd np h₁ hhd hroot hnp hunlink
  obtain ⟨s, t, p, q⟩ := u
  obtain ⟨hm, hp, ht⟩ := hu
  dsimp only at H hbalanced hheight hs hroot hnp hunlink hm hp ht ⊢
  subst hs
  have hsafe := hsafe (mark_head H hm)
  have hread := L4rm.Avl.load_eq H.of_plug.holds.1
  obtain rfl := Option.some.inj ((L4rm.Avl.read_bin (c := []) H).symm.trans hhd)
  obtain rfl | ⟨pre, fp, rfl⟩ := pre.eq_nil_or_concat
  · exact absurd rfl hroot
  rw [List.concat_eq_append] at *
  rw [← List.cons_append, L4rm.Avl.lastPtr_append] at hp
  rw [← List.cons_append, List.dropLast_concat] at ht
  subst hp
  have Hfp : Rep h.node (plug (headFrame :: pre) (plug [fp] (.node q v b l r))) := by
    rw [← plug_append]; exact H
  have hread' := L4rm.Avl.read_bin Hfp
  obtain rfl := Option.some.inj (hread'.symm.trans hnp)
  have hq0 : q ≠ 0 := by rintro rfl; exact H.of_plug.nonnull (by simp [addrs])
  have hside : (if q = (TNode.link fp.d fp.v fp.b q fp.sib.ptr).right then Dir.right
      else .left) = fp.d := by
    have hne : fp.sib.ptr ≠ q := L4rm.Avl.ptr_ne_ptr Hfp.of_plug hq0
    cases fp.d
    · exact if_neg (Ne.symm hne)
    · exact if_pos rfl
  rw [plug_nil, ptr, hside] at hunlink ⊢
  obtain ⟨y, S, hlist, hptr, -⟩ := L4rm.Avl.spliced H.of_plug hlr
  obtain ⟨hset, h', hfree, hh', H'⟩ := L4rm.Avl.splice_rep (c := headFrame :: pre) H S
    (by simp [addrs, ptr])
  have hunlink' : h.unlink fp.p q fp.d = .ok h' := by
    simp only [L4rm.Avl.unlink, hread, ok_bind, ← hptr, hset]
    exact hfree
  obtain rfl := Except.ok.inj (hunlink.symm.trans hunlink')
  refine SafePath.climbs _ H' ?_ hbalanced (S.balanced hbalanced.of_plug) S.height
    (hh'.trans hheight) ht hsafe
  rw [toList_plug, hlist]
  exact hord

/-- A path with nothing to its right. -/
theorem right_of_after {c : List (Frame Entry)} (hc : after c = []) : ∀ f ∈ c, f.d = .right := by
  induction c with
  | nil => exact fun f hf => nomatch hf
  | cons f c ih =>
    cases hd : f.d with
    | left => simp [after, hd] at hc
    | right => exact List.forall_mem_cons.mpr ⟨hd, ih (by simpa [after, hd] using hc)⟩

/-- The way up in `avlt_remove`. -/
def RemoveUpward (P : Entry → Prop) (h : Avl) (key : Key) : Prop :=
  ∀ hd u nq, h.node treeHead = some hd →
    h.removeSearch key h.fuel ⟨treeHead, 0, treeHead, hd.right⟩ = .ok (some u) →
    h.node u.q = some nq →
    if nq.left ≠ 0 ∧ nq.right ≠ 0 then
      ∀ u' nr, h.predecessor h.fuel ⟨if nq.b = 0 then u.q else u.s, u.p, u.q, nq.left⟩ = .ok u' →
        h.node u'.q = some nr → Upward P (h.store u.q { nq with val := nr.val }) u'
    else Upward P h u

theorem SafeRemoval.removeUpward {T : Tree} {key : Key} (I : h.Inv T)
    (hsafe : SafeRemoval P (fun e => e.key = key) T) : RemoveUpward P h key := by
  intro hd u nq hhd hsearch hnq
  obtain rfl := Option.some.inj ((L4rm.Avl.read_bin (c := []) I.rep).symm.trans hhd)
  have htrace : Traced [headFrame] ⟨treeHead, 0, treeHead, T.ptr⟩ :=
    ⟨⟨[], headFrame, [], rfl, rfl, rfl, fun f hf => nomatch hf⟩, rfl, rfl⟩
  have hS := L4rm.Avl.removeSearch_spec key (h.treeHeight + 1) I.rep I.ordered
    (by rw [I.height]; omega) htrace rfl
  have hsearch : h.removeSearch key (h.treeHeight + 2) ⟨treeHead, 0, treeHead, T.ptr⟩ =
      .ok (some u) := hsearch
  cases hS with
  | absent _ hr =>
    rw [hr] at hsearch
    cases hsearch
  | @found path v b l z u' hx hkey hu hr =>
    obtain rfl := Option.some.inj (Except.ok.inj (hsearch.symm.trans hr))
    subst hx
    have H : Rep h.node (plug (headFrame :: path) (.node u.q v b l z)) := I.rep
    obtain rfl := Option.some.inj (H.of_plug.holds.1.symm.trans hnq)
    have hlist := toList_plug (c := path) (t := .node u.q v b l z)
    have hord := I.ordered
    rw [hlist] at hord
    dsimp only
    by_cases hboth : l.ptr ≠ 0 ∧ z.ptr ≠ 0
    · -- `q` takes over the contents of its symmetric predecessor
      rw [if_pos hboth]
      intro u' nr hpred hnr
      have Hl : Rep h.node (plug (headFrame :: path ++ [⟨.left, u.q, v, b, z⟩]) l) := by
        rw [plug_append]; exact H
      have hlen : l.height ≤ h.treeHeight + 2 := by
        have := height_le_height (c := path ++ [⟨.left, u.q, v, b, z⟩]) (t := l)
        rw [plug_append] at this
        rw [I.height]
        exact this.trans (Nat.le_add_right _ 2)
      obtain ⟨path', vr, b', l', u₁, hl, hafter, hu', hpred'⟩ := L4rm.Avl.predecessor_spec
        (h.treeHeight + 2) Hl (fun h0 => hboth.1 (Hl.of_plug.ptr_eq_zero.mpr h0)) hlen
        (hu.push (q := l.ptr)) rfl
      obtain rfl := Except.ok.inj (hpred.symm.trans hpred')
      have hr : h.node u'.q = some ⟨vr, b', l'.ptr, 0⟩ := by
        rw [hl] at Hl
        exact Hl.of_plug.of_plug.holds.1
      obtain rfl := Option.some.inj (hr.symm.trans hnr)
      dsimp only
      have E := (L4rm.Avl.store_edit (d := .left) vr b H.of_plug).plug H rfl
      have hpath : ∀ w : Entry, plug path (.node u.q w b l z) =
          plug (path ++ ⟨.left, u.q, w, b, z⟩ :: path') (.node u'.q vr b' l' .nil) := by
        intro w
        rw [plug_append, plug_cons, ← hl]
        rfl
      have hbal : (plug path (.node u.q vr b l z)).Balanced :=
        I.balanced.plug_of_height I.balanced.of_plug rfl
      have hheight : h.treeHeight = (plug path (.node u.q vr b l z)).height := by
        rw [I.height]
        exact height_plug rfl
      have Hr : Rep (h.store u.q ⟨vr, b, l.ptr, z.ptr⟩).node
          (plug (headFrame :: (path ++ ⟨.left, u.q, vr, b, z⟩ :: path'))
            (.node u'.q vr b' l' .nil)) := by
        rw [plug_cons, ← hpath]
        exact E.rep
      rw [hpath] at hbal hheight
      have hllist : l.toList = before path' ++ l'.toList ++ [vr] := by
        rw [hl, toList_plug, hafter]
        simp [PTree.toList]
      have hord' : Ordered (before (path ++ ⟨.left, u.q, vr, b, z⟩ :: path') ++
          (l'.toList ++ (.nil : Tree).toList) ++
            after (path ++ ⟨.left, u.q, vr, b, z⟩ :: path')) := by
        refine hord.sublist ?_
        simp only [before_append, after_append, before, after, hafter, PTree.toList, hllist]
        simp only [List.append_assoc, List.nil_append, List.append_nil, List.cons_append]
        refine List.Sublist.append_left (List.Sublist.append_left (List.Sublist.append_left ?_ _) _) _
        exact List.Sublist.cons_cons _ (List.sublist_cons_self _ _)
      have hz : z ≠ .nil := by
        rintro rfl
        exact hboth.2 rfl
      exact upward Hr hord' hbal hheight (.inr rfl) (hu'.congr (by simp))
        (hsafe _ (.both rfl hkey hl (right_of_after hafter) hz))
    · rw [if_neg hboth]
      have hlz : l = .nil ∨ z = .nil := by
        have Hl : Rep h.node l := (H.of_plug).of_plug (c := [⟨.left, u.q, v, b, z⟩])
        have Hz : Rep h.node z := (H.of_plug).of_plug (c := [⟨.right, u.q, v, b, l⟩])
        rw [← Hl.ptr_eq_zero, ← Hz.ptr_eq_zero]
        tauto
      have hsub : (before path ++ (l.toList ++ z.toList) ++ after path).Sublist
          (before path ++ (PTree.node u.q v b l z).toList ++ after path) :=
        List.Sublist.append_right (List.Sublist.append_left
          (List.Sublist.append_left (List.sublist_cons_self _ _) _) _) _
      exact upward H (hord.sublist hsub) I.balanced I.height hlz hu
        (hsafe path (.one rfl hkey hlz))

end

end Cxx

end L4env
