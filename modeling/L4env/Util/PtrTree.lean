import Mathlib.Data.List.Basic
import Mathlib.Tactic

/-!
# Linked binary trees

A heap maps pointers to tree nodes; the null pointer is `0`. `PTree` is the shape of a tree in such
a heap, each node with its own pointer, and `Rep h t` says that `t` is laid out in `h`. A search
path is a list of frames, from the root down, and `plug c t` hangs the subtree `t` below the path
`c`. `Rep.replace` exchanges the subtree in the hole, and is the only rule needed to follow a program
that edits a tree through pointers.

`Balanced` is the condition of height balanced trees: the factor stored in a node is the difference
of the heights of its subtrees. The two sides of a node are told apart by a `Dir`, so that every
lemma about a rotation serves its mirror image, too.
-/

namespace L4env

inductive Dir
  | left
  | right
  deriving DecidableEq, Repr

namespace Dir

def flip : Dir → Dir
  | left => right
  | right => left

/-- The balance factor of a node whose subtree on this side is higher by one. -/
def sign : Dir → Int
  | left => -1
  | right => 1

@[simp] theorem flip_flip (d : Dir) : d.flip.flip = d := by cases d <;> rfl

@[simp] theorem sign_flip (d : Dir) : d.flip.sign = -d.sign := by cases d <;> rfl

theorem sign_ne_zero (d : Dir) : d.sign ≠ 0 := by cases d <;> decide

theorem sign_inj {d e : Dir} : d.sign = e.sign ↔ d = e := by cases d <;> cases e <;> decide

end Dir

/-- A node: its contents, a balance factor and the pointers to its subtrees. -/
structure TNode (β : Type) where
  val : β
  b : Int
  left : Nat
  right : Nat

namespace TNode
variable {β : Type}

def child (n : TNode β) : Dir → Nat
  | .left => n.left
  | .right => n.right

def setChild (n : TNode β) : Dir → Nat → TNode β
  | .left, p => { n with left := p }
  | .right, p => { n with right := p }

/-- The node with the pointer `x` on side `d` and `y` on the other side. -/
def link (d : Dir) (v : β) (b : Int) (x y : Nat) : TNode β :=
  match d with
  | .left => ⟨v, b, x, y⟩
  | .right => ⟨v, b, y, x⟩

section
variable {d : Dir} {v v' : β} {b b' : Int} {x y z : Nat}

@[simp] theorem link_val : (link d v b x y).val = v := by cases d <;> rfl

@[simp] theorem link_b : (link d v b x y).b = b := by cases d <;> rfl

@[simp] theorem child_link : (link d v b x y).child d = x := by cases d <;> rfl

@[simp] theorem child_flip_link : (link d v b x y).child d.flip = y := by cases d <;> rfl

@[simp] theorem setChild_link : (link d v b x y).setChild d z = link d v b z y := by
  cases d <;> rfl

@[simp] theorem setChild_flip_link : (link d v b x y).setChild d.flip z = link d v b x z := by
  cases d <;> rfl

@[simp] theorem link_set_b : { link d v b x y with b := b' } = link d v b' x y := by
  cases d <;> rfl

@[simp] theorem link_set_val : { link d v b x y with val := v' } = link d v' b x y := by
  cases d <;> rfl

theorem link_flip : link d.flip v b x y = link d v b y x := by cases d <;> rfl

end

theorem eq_link (d : Dir) (n : TNode β) : n = link d n.val n.b (n.child d) (n.child d.flip) := by
  cases d <;> rfl

end TNode

/-- A binary tree whose nodes carry their pointers. -/
inductive PTree (β : Type)
  | nil
  | node (p : Nat) (v : β) (b : Int) (l r : PTree β)

namespace PTree
variable {β : Type}

def ptr : PTree β → Nat
  | nil => 0
  | node p .. => p

def height : PTree β → Nat
  | nil => 0
  | node _ _ _ l r => max l.height r.height + 1

/-- The contents from left to right. -/
def toList : PTree β → List β
  | nil => []
  | node _ v _ l r => l.toList ++ v :: r.toList

def addrs : PTree β → List Nat
  | nil => []
  | node p _ _ l r => p :: (l.addrs ++ r.addrs)

/-- Every factor is the difference of two heights, and at most one. -/
def Balanced : PTree β → Prop
  | nil => True
  | node _ _ b l r => b = (r.height : Int) - l.height ∧ -1 ≤ b ∧ b ≤ 1 ∧ l.Balanced ∧ r.Balanced

/-- The nodes of the tree are in the heap. -/
def Holds (h : Nat → Option (TNode β)) : PTree β → Prop
  | nil => True
  | node p v b l r => h p = some ⟨v, b, l.ptr, r.ptr⟩ ∧ l.Holds h ∧ r.Holds h

/-- The node with the subtree `x` on side `d` and `y` on the other side. -/
def bin (d : Dir) (p : Nat) (v : β) (b : Int) (x y : PTree β) : PTree β :=
  match d with
  | .left => node p v b x y
  | .right => node p v b y x

section
variable {d : Dir} {p : Nat} {v : β} {b : Int} {x y : PTree β} {h : Nat → Option (TNode β)}

theorem bin_flip : bin d.flip p v b x y = bin d p v b y x := by cases d <;> rfl

@[simp] theorem ptr_nil : (nil : PTree β).ptr = 0 := rfl

@[simp] theorem ptr_bin : (bin d p v b x y).ptr = p := by cases d <;> rfl

@[simp] theorem height_nil : (nil : PTree β).height = 0 := rfl

@[simp] theorem height_bin : (bin d p v b x y).height = max x.height y.height + 1 := by
  cases d
  · rfl
  · exact congrArg (· + 1) (max_comm _ _)

@[simp] theorem balanced_nil : (nil : PTree β).Balanced := trivial

theorem balanced_bin : (bin d p v b x y).Balanced ↔
    d.sign * b = (x.height : Int) - y.height ∧ -1 ≤ b ∧ b ≤ 1 ∧ x.Balanced ∧ y.Balanced := by
  cases d
  · simp only [bin, Balanced, Dir.sign]; constructor <;> (intro h; refine ⟨by omega, h.2⟩)
  · simp only [bin, Balanced, Dir.sign]
    constructor <;> (intro h; refine ⟨by omega, h.2.1, h.2.2.1, h.2.2.2.2, h.2.2.2.1⟩)

@[simp] theorem holds_nil : (nil : PTree β).Holds h := trivial

@[simp] theorem holds_bin : (bin d p v b x y).Holds h ↔
    h p = some (.link d v b x.ptr y.ptr) ∧ x.Holds h ∧ y.Holds h := by
  cases d
  · rfl
  · simp only [bin, Holds, TNode.link]; tauto

@[simp] theorem addrs_nil : (nil : PTree β).addrs = [] := rfl

theorem addrs_bin : (bin d p v b x y).addrs.Perm (p :: (x.addrs ++ y.addrs)) := by
  cases d
  · rfl
  · exact List.Perm.cons _ List.perm_append_comm

@[simp] theorem mem_addrs_bin {a : Nat} :
    a ∈ (bin d p v b x y).addrs ↔ a = p ∨ a ∈ x.addrs ∨ a ∈ y.addrs := by
  rw [addrs_bin.mem_iff]; simp

@[simp] theorem nodup_addrs_bin : (bin d p v b x y).addrs.Nodup ↔
    p ∉ x.addrs ∧ p ∉ y.addrs ∧ x.addrs.Nodup ∧ y.addrs.Nodup ∧
      ∀ a ∈ x.addrs, a ∉ y.addrs := by
  rw [addrs_bin.nodup_iff]
  simp only [List.nodup_cons, List.mem_append, not_or, List.nodup_append']
  constructor
  · rintro ⟨⟨h1, h2⟩, h3, h4, h5⟩
    exact ⟨h1, h2, h3, h4, fun a ha ha' => h5 ha ha'⟩
  · rintro ⟨h1, h2, h3, h4, h5⟩
    exact ⟨⟨h1, h2⟩, h3, h4, fun a ha ha' => h5 a ha ha'⟩

end

/-- A node, seen from either side. -/
theorem node_eq_bin (d : Dir) (p : Nat) (v : β) (b : Int) (l r : PTree β) :
    ∃ x y, node p v b l r = bin d p v b x y := by
  cases d
  · exact ⟨l, r, rfl⟩
  · exact ⟨r, l, rfl⟩

/-- Every tree but the empty one is a node. -/
theorem exists_bin (d : Dir) {t : PTree β} (ht : t ≠ nil) : ∃ p v b x y, t = bin d p v b x y := by
  cases t with
  | nil => exact absurd rfl ht
  | node p v b l r => exact ⟨p, v, b, node_eq_bin d p v b l r⟩

theorem bin_ne_nil {d : Dir} {p : Nat} {v : β} {b : Int} {x y : PTree β} :
    bin d p v b x y ≠ nil := by
  cases d <;> simp [bin]

theorem Holds.congr {h h' : Nat → Option (TNode β)} {t : PTree β} (ht : t.Holds h)
    (hh : ∀ a ∈ t.addrs, h' a = h a) : t.Holds h' := by
  induction t with
  | nil => trivial
  | node p v b l r ihl ihr =>
    refine ⟨(hh p (by simp [addrs])).trans ht.1, ihl ht.2.1 ?_, ihr ht.2.2 ?_⟩
    · exact fun a ha => hh a (by simp [addrs, ha])
    · exact fun a ha => hh a (by simp [addrs, ha])

theorem Holds.isSome {h : Nat → Option (TNode β)} {t : PTree β} (ht : t.Holds h) {a : Nat}
    (ha : a ∈ t.addrs) : (h a).isSome := by
  induction t with
  | nil => cases ha
  | node p v b l r ihl ihr =>
    simp only [addrs, List.mem_cons, List.mem_append] at ha
    obtain rfl | ha | ha := ha
    · rw [ht.1]; rfl
    · exact ihl ht.2.1 ha
    · exact ihr ht.2.2 ha

/-! ## Other contents -/

/-- The tree of the same shape with other contents. -/
def map {γ : Type} (f : β → γ) : PTree β → PTree γ
  | nil => nil
  | node p v b l r => node p (f v) b (l.map f) (r.map f)

section
variable {γ : Type} {f : β → γ} {t : PTree β}

@[simp] theorem map_nil : (nil : PTree β).map f = nil := rfl

@[simp] theorem ptr_map : (t.map f).ptr = t.ptr := by cases t <;> rfl

@[simp] theorem height_map : (t.map f).height = t.height := by
  induction t with
  | nil => rfl
  | node p v b l r ihl ihr => simp only [map, height, ihl, ihr]

@[simp] theorem toList_map : (t.map f).toList = t.toList.map f := by
  induction t with
  | nil => rfl
  | node p v b l r ihl ihr => simp only [map, toList, ihl, ihr, List.map_append, List.map_cons]

@[simp] theorem addrs_map : (t.map f).addrs = t.addrs := by
  induction t with
  | nil => rfl
  | node p v b l r ihl ihr => simp only [map, addrs, ihl, ihr]

@[simp] theorem balanced_map : (t.map f).Balanced ↔ t.Balanced := by
  induction t with
  | nil => rfl
  | node p v b l r ihl ihr => simp only [map, Balanced, ihl, ihr, height_map]

theorem length_toList (t : PTree β) : t.toList.length = t.addrs.length := by
  induction t with
  | nil => rfl
  | node p v b l r ihl ihr =>
    simp only [toList, addrs, List.length_append, List.length_cons, ihl, ihr]
    omega

/-- A node of a balanced tree in the heap: its contents are in the tree, its subtrees are empty or
below it, and its factor is small. -/
theorem Holds.node {h : Nat → Option (TNode β)} (ht : t.Holds h) (hb : t.Balanced) {p : Nat}
    (hp : p ∈ t.addrs) : ∃ n, h p = some n ∧ n.val ∈ t.toList ∧ -1 ≤ n.b ∧ n.b ≤ 1 ∧
      ∀ d, n.child d = 0 ∨ n.child d ∈ t.addrs := by
  induction t with
  | nil => cases hp
  | node a v b l r ihl ihr =>
    obtain ⟨ha, hl, hr⟩ := ht
    obtain ⟨-, hlow, hhigh, hbl, hbr⟩ := hb
    simp only [addrs, List.mem_cons, List.mem_append, toList] at hp ⊢
    obtain rfl | hp | hp := hp
    · refine ⟨_, ha, .inr (.inl rfl), hlow, hhigh, fun d => ?_⟩
      cases d with
      | left =>
        cases l with
        | nil => exact .inl rfl
        | node => exact .inr (.inr (.inl (by simp [TNode.child, ptr, addrs])))
      | right =>
        cases r with
        | nil => exact .inl rfl
        | node => exact .inr (.inr (.inr (by simp [TNode.child, ptr, addrs])))
    · obtain ⟨n, hn, hv, hlow, hhigh, hc⟩ := ihl hl hbl hp
      exact ⟨n, hn, .inl hv, hlow, hhigh, fun d => (hc d).imp_right fun h => .inr (.inl h)⟩
    · obtain ⟨n, hn, hv, hlow, hhigh, hc⟩ := ihr hr hbr hp
      exact ⟨n, hn, .inr (.inr hv), hlow, hhigh, fun d => (hc d).imp_right fun h => .inr (.inr h)⟩

end

/-! ## Search paths -/

/-- A node on a search path, which goes on at side `d`. -/
structure Frame (β : Type) where
  d : Dir
  p : Nat
  v : β
  b : Int
  sib : PTree β

def plug : List (Frame β) → PTree β → PTree β
  | [], t => t
  | f :: c, t => bin f.d f.p f.v f.b (plug c t) f.sib

/-- The contents to the left of a path. -/
def before : List (Frame β) → List β
  | [] => []
  | f :: c =>
    match f.d with
    | .left => before c
    | .right => f.sib.toList ++ f.v :: before c

/-- The contents to the right of a path. -/
def after : List (Frame β) → List β
  | [] => []
  | f :: c =>
    match f.d with
    | .left => after c ++ f.v :: f.sib.toList
    | .right => after c

/-- The pointers of a path and of the subtrees that it passes by. -/
def pathAddrs (c : List (Frame β)) : List Nat := (plug c nil).addrs

section
variable {c c₁ c₂ : List (Frame β)} {f : Frame β} {t t' : PTree β}

@[simp] theorem plug_nil : plug [] t = t := rfl

@[simp] theorem plug_cons : plug (f :: c) t = bin f.d f.p f.v f.b (plug c t) f.sib := rfl

@[simp] theorem plug_append : plug (c₁ ++ c₂) t = plug c₁ (plug c₂ t) := by
  induction c₁ with
  | nil => rfl
  | cons f c ih => simp [ih]

@[simp] theorem before_append : before (c₁ ++ c₂) = before c₁ ++ before c₂ := by
  induction c₁ with
  | nil => rfl
  | cons f c ih => cases hd : f.d <;> simp [before, hd, ih]

@[simp] theorem after_append : after (c₁ ++ c₂) = after c₂ ++ after c₁ := by
  induction c₁ with
  | nil => simp [after]
  | cons f c ih => cases hd : f.d <;> simp [after, hd, ih]

theorem toList_plug : (plug c t).toList = before c ++ t.toList ++ after c := by
  induction c with
  | nil => simp [before, after]
  | cons f c ih => cases hd : f.d <;> simp [bin, toList, before, after, hd, ih]

theorem addrs_plug : (plug c t).addrs.Perm (pathAddrs c ++ t.addrs) := by
  induction c with
  | nil => simp [pathAddrs]
  | cons f c ih =>
    have hsib : (pathAddrs (f :: c)).Perm (f.p :: (pathAddrs c ++ f.sib.addrs)) := addrs_bin
    calc (plug (f :: c) t).addrs
        _ |>.Perm (f.p :: ((plug c t).addrs ++ f.sib.addrs)) := addrs_bin
        _ |>.Perm (f.p :: ((pathAddrs c ++ t.addrs) ++ f.sib.addrs)) := (ih.append_right _).cons _
        _ |>.Perm (f.p :: ((pathAddrs c ++ f.sib.addrs) ++ t.addrs)) := by
          simp only [List.append_assoc]
          exact (List.perm_append_comm.append_left _).cons _
        _ |>.Perm (pathAddrs (f :: c) ++ t.addrs) := (hsib.append_right _).symm

theorem mem_addrs_plug {a : Nat} :
    a ∈ (plug c t).addrs ↔ a ∈ pathAddrs c ∨ a ∈ t.addrs := by
  rw [addrs_plug.mem_iff, List.mem_append]

theorem mem_addrs_of_mem (hf : f ∈ c) : f.p ∈ (plug c t).addrs := by
  induction c with
  | nil => cases hf
  | cons g c ih =>
    obtain rfl | hf := List.mem_cons.mp hf
    · simp
    · exact mem_addrs_bin.mpr (.inr (.inl (ih hf)))

theorem nodup_addrs_plug : (plug c t).addrs.Nodup ↔
    (pathAddrs c).Nodup ∧ t.addrs.Nodup ∧ ∀ a ∈ pathAddrs c, a ∉ t.addrs := by
  rw [addrs_plug.nodup_iff, List.nodup_append']
  constructor
  · rintro ⟨h1, h2, h3⟩
    exact ⟨h1, h2, fun a ha ha' => h3 ha ha'⟩
  · rintro ⟨h1, h2, h3⟩
    exact ⟨h1, h2, fun a ha ha' => h3 a ha ha'⟩

theorem ptr_plug (h : t'.ptr = t.ptr) : (plug c t').ptr = (plug c t).ptr := by
  cases c with
  | nil => exact h
  | cons f c => simp

theorem Holds.of_plug {h : Nat → Option (TNode β)} (ht : (plug c t).Holds h) : t.Holds h := by
  induction c with
  | nil => exact ht
  | cons f c ih => exact ih (holds_bin.mp ht).2.1

/-- The subtree in the hole is exchanged for one with the same root pointer. -/
theorem Holds.replace {h h' : Nat → Option (TNode β)} (ht : (plug c t).Holds h)
    (hp : t'.ptr = t.ptr) (ht' : t'.Holds h') (hh : ∀ a ∈ pathAddrs c, h' a = h a) :
    (plug c t').Holds h' := by
  induction c with
  | nil => exact ht'
  | cons f c ih =>
    obtain ⟨hf, hc, hs⟩ := holds_bin.mp ht
    refine holds_bin.mpr ⟨?_, ih hc ?_, hs.congr ?_⟩
    · rw [hh f.p (by simp [pathAddrs]), hf, ptr_plug hp]
    · exact fun a ha => hh a (by simp [pathAddrs]; exact .inr (.inl ha))
    · exact fun a ha => hh a (by simp [pathAddrs, ha])

theorem Balanced.of_plug (h : (plug c t).Balanced) : t.Balanced := by
  induction c with
  | nil => exact h
  | cons f c ih => exact ih (balanced_bin.mp h).2.2.2.1

theorem height_plug (hh : t'.height = t.height) : (plug c t').height = (plug c t).height := by
  induction c with
  | nil => exact hh
  | cons f c ih => simp [ih]

theorem length_le_height : c.length ≤ (plug c t).height := by
  induction c with
  | nil => exact Nat.zero_le _
  | cons f c ih => simp only [List.length_cons, plug_cons, height_bin]; omega

theorem height_le_height : t.height ≤ (plug c t).height := by
  induction c with
  | nil => exact le_rfl
  | cons f c ih => simp only [plug_cons, height_bin]; omega

/-- The contents of a tree with a subtree exchanged. -/
theorem toList_plug_congr (h : t'.toList = t.toList) : (plug c t').toList = (plug c t).toList := by
  rw [toList_plug, toList_plug, h]

theorem Balanced.plug_of_height (h : (plug c t).Balanced) (ht : t'.Balanced)
    (hh : t'.height = t.height) : (plug c t').Balanced := by
  induction c with
  | nil => exact ht
  | cons f c ih =>
    obtain ⟨h1, h2, h3, h4, h5⟩ := balanced_bin.mp h
    exact balanced_bin.mpr ⟨by rw [height_plug hh]; exact h1, h2, h3, ih h4, h5⟩

end

/-! ## Rebalancing -/

section
variable {d : Dir} {p q r s : Nat} {v vp vq vr vs : β} {b b' bp bq br bs : Int}
  {x x' y y' z w t t' : PTree β} {c : List (Frame β)}

def rootB : PTree β → Int
  | nil => 0
  | node _ _ b _ _ => b

@[simp] theorem rootB_bin : (bin d p v b x y).rootB = b := by cases d <;> rfl

theorem toList_bin (hx : x'.toList = x.toList) :
    (bin d p v b' x' y).toList = (bin d p v b x y).toList := by
  cases d <;> simp [bin, toList, hx]

theorem toList_single :
    (bin d r vr bq x (bin d s vs bp y z)).toList =
      (bin d s vs bs (bin d r vr br x y) z).toList := by
  cases d <;> simp [bin, toList]

theorem toList_double :
    (bin d p vp b (bin d r vr br x y) (bin d s vs bs z w)).toList =
      (bin d s vs bs' (bin d r vr br' x (bin d p vp bp y z)) w).toList := by
  cases d <;> simp [bin, toList]

/-- Every node of a path becomes higher on the side of the path. -/
def bump (c : List (Frame β)) : List (Frame β) := c.map fun f => { f with b := f.d.sign }

@[simp] theorem bump_nil : bump ([] : List (Frame β)) = [] := rfl

@[simp] theorem bump_cons {f : Frame β} : bump (f :: c) = { f with b := f.d.sign } :: bump c := rfl

@[simp] theorem before_bump : before (bump c) = before c := by
  induction c with
  | nil => rfl
  | cons f c ih => simp [before, ih]

@[simp] theorem after_bump : after (bump c) = after c := by
  induction c with
  | nil => rfl
  | cons f c ih => simp [after, ih]

/-- A subtree below balanced nodes grows: so does the whole tree, and it stays balanced. -/
theorem Balanced.bump (h : (plug c t).Balanced) (hc : ∀ f ∈ c, f.b = 0) (ht : t'.Balanced)
    (hh : t'.height = t.height + 1) :
    (plug (bump c) t').Balanced ∧ (plug (PTree.bump c) t').height = (plug c t).height + 1 := by
  induction c with
  | nil => exact ⟨ht, hh⟩
  | cons f c ih =>
    obtain ⟨h1, _, _, h4, h5⟩ := balanced_bin.mp h
    obtain ⟨ihb, ihh⟩ := ih h4 fun f' hf' => hc f' (List.mem_cons_of_mem _ hf')
    rw [hc f List.mem_cons_self] at h1
    simp only [bump_cons, plug_cons, balanced_bin, height_bin]
    refine ⟨⟨?_, ?_, ?_, ihb, h5⟩, by omega⟩
    all_goals cases f.d <;> simp only [Dir.sign] at h1 ⊢ <;> omega

theorem balanced_single (hx : x.Balanced) (hy : y.Balanced) (hz : z.Balanced)
    (hxz : x.height = z.height + 1) (hyz : y.height = z.height) :
    (bin d r vr 0 x (bin d s vs 0 y z)).Balanced := by
  simp only [balanced_bin, height_bin]
  refine ⟨by omega, by decide, by decide, hx, by omega, by decide, by decide, hy, hz⟩

/-- The factors after a double rotation, `bp` was the factor of the new root. -/
theorem balanced_double (r s : Nat) (vr vs : β) (br bs : Int)
    (hp : (bin d p vp bp y z).Balanced) (hx : x.Balanced) (hw : w.Balanced)
    (hph : (bin d p vp bp y z).height = w.height + 1) (hxw : x.height = w.height) :
    (bin d p vp 0 (bin d r vr (if bp = 0 ∨ bp = d.sign then 0 else d.sign) x y)
      (bin d s vs (if bp = d.sign then -d.sign else 0) z w)).Balanced ∧
    (bin d p vp 0 (bin d r vr br x y) (bin d s vs bs z w)).height = w.height + 2 := by
  obtain ⟨h1, h2, h3, hy, hz⟩ := balanced_bin.mp hp
  simp only [height_bin] at hph
  have hb : bp = 0 ∨ bp = d.sign ∨ bp = -d.sign := by cases d <;> simp only [Dir.sign] <;> omega
  obtain rfl | rfl | rfl := hb
  all_goals
    cases d <;> simp only [Dir.sign] at h1 <;>
      simp [balanced_bin, Dir.sign, hx, hy, hz, hw] <;> omega

end

end PTree

/-! ## Trees in a heap -/

open PTree

/-- The tree is laid out in the heap, each node at a place of its own. -/
structure Rep {β : Type} (h : Nat → Option (TNode β)) (t : PTree β) : Prop where
  holds : t.Holds h
  nodup : t.addrs.Nodup
  nonnull : 0 ∉ t.addrs

namespace Rep
variable {β : Type} {h h' : Nat → Option (TNode β)} {c : List (Frame β)} {t t' : PTree β}

theorem of_plug (H : Rep h (plug c t)) : Rep h t where
  holds := H.holds.of_plug
  nodup := (nodup_addrs_plug.mp H.nodup).2.1
  nonnull := fun h0 => H.nonnull (mem_addrs_plug.mpr (.inr h0))

/-- **Editing a subtree.** The new subtree keeps the root pointer and uses nodes of the old one, or
nodes that are not on the path; the heap is unchanged along the path. -/
theorem replace (H : Rep h (plug c t)) (hp : t'.ptr = t.ptr) (ht : Rep h' t')
    (hsub : ∀ a ∈ t'.addrs, a ∈ t.addrs ∨ a ∉ (plug c t).addrs)
    (hh : ∀ a ∈ pathAddrs c, h' a = h a) : Rep h' (plug c t') where
  holds := H.holds.replace hp ht.holds hh
  nodup := by
    obtain ⟨h1, h2, h3⟩ := nodup_addrs_plug.mp H.nodup
    refine nodup_addrs_plug.mpr ⟨h1, ht.nodup, fun a ha ha' => ?_⟩
    obtain ha' | ha' := hsub a ha'
    · exact h3 a ha ha'
    · exact ha' (mem_addrs_plug.mpr (.inl ha))
  nonnull := by
    intro h0
    obtain h0 | h0 := mem_addrs_plug.mp h0
    · exact H.nonnull (mem_addrs_plug.mpr (.inl h0))
    · exact ht.nonnull h0

theorem ptr_eq_zero (H : Rep h t) : t.ptr = 0 ↔ t = nil := by
  constructor
  · intro h0
    cases t with
    | nil => rfl
    | node p v b l r =>
      have : p = 0 := h0
      exact absurd (by simp [addrs, this]) H.nonnull
  · rintro rfl; rfl

end Rep

end L4env
