import L4env.L4rm.AvlEdit

/-!
# L4RM: the invariant of the AVL tree

The tree below `tree_head` is laid out in the heap, its ranges are disjoint and stored in order,
every balance factor is right and `tree_height` is the height of the tree.
-/

namespace L4env.L4rm

open PTree

/-- The ranges share an address. -/
def Key.Overlaps (a b : Key) : Prop := a.start ≤ b.last ∧ b.start ≤ a.last

/-- `x` is stored to the left of `y`. -/
def Entry.Before (x y : Entry) : Prop := x.key.last < y.key.start

def Entry.Ok (e : Entry) : Prop := e.key.start ≤ e.key.last

section
variable {a b : Key} {d : Dir}

theorem Key.side_left : a.side b = some .left ↔ a.last < b.start := by
  simp only [side, isLower, isGreater, decide_eq_true_eq]
  split
  · simp_all
  · split <;> simp_all

theorem Key.side_right (ha : a.start ≤ a.last) (hb : b.start ≤ b.last) :
    a.side b = some .right ↔ b.last < a.start := by
  simp only [side, isLower, isGreater, decide_eq_true_eq]
  split
  · simp; omega
  · split <;> simp_all

theorem Key.side_none : a.side b = none ↔ a.Overlaps b := by
  simp only [side, isLower, isGreater, decide_eq_true_eq, Overlaps]
  split
  · simp; omega
  · split
    · simp; omega
    · simp; omega

end

/-- The address range `key` is looked for at the side of the frame to which the path goes. -/
def Follows (key : Key) (f : Frame Entry) : Prop := key.side f.v.key = some f.d

/-- The contents of a list are disjoint ranges in increasing order. -/
structure Ordered (l : List Entry) : Prop where
  sorted : l.Pairwise Entry.Before
  ok : ∀ e ∈ l, e.Ok

section
variable {l l₁ l₂ : List Entry} {e : Entry} {key : Key}

theorem Ordered.append : Ordered (l₁ ++ l₂) ↔
    Ordered l₁ ∧ Ordered l₂ ∧ ∀ x ∈ l₁, ∀ y ∈ l₂, x.Before y := by
  constructor
  · rintro ⟨hs, hk⟩
    rw [List.pairwise_append] at hs
    exact ⟨⟨hs.1, fun e he => hk e (List.mem_append_left _ he)⟩,
      ⟨hs.2.1, fun e he => hk e (List.mem_append_right _ he)⟩, hs.2.2⟩
  · rintro ⟨h₁, h₂, h⟩
    refine ⟨List.pairwise_append.mpr ⟨h₁.sorted, h₂.sorted, h⟩, fun e he => ?_⟩
    obtain he | he := List.mem_append.mp he
    · exact h₁.ok e he
    · exact h₂.ok e he

theorem Ordered.cons : Ordered (e :: l) ↔ e.Ok ∧ Ordered l ∧ ∀ x ∈ l, e.Before x := by
  constructor
  · rintro ⟨hs, hk⟩
    rw [List.pairwise_cons] at hs
    exact ⟨hk e List.mem_cons_self, ⟨hs.2, fun x hx => hk x (List.mem_cons_of_mem _ hx)⟩, hs.1⟩
  · rintro ⟨he, h, hb⟩
    exact ⟨List.pairwise_cons.mpr ⟨hb, h.sorted⟩, List.forall_mem_cons.mpr ⟨he, h.ok⟩⟩

theorem Ordered.nodup (h : Ordered l) : l.Nodup := by
  refine h.sorted.imp_of_mem ?_
  rintro x y hx hy hxy rfl
  have := h.ok x hx
  simp only [Entry.Before, Entry.Ok] at hxy this
  omega

/-- Two entries of an ordered list that share an address are the same. -/
theorem Ordered.eq_of_overlaps (h : Ordered l) {x y : Entry} (hx : x ∈ l) (hy : y ∈ l)
    (ho : x.key.Overlaps y.key) : x = y := by
  induction l with
  | nil => cases hx
  | cons e l ih =>
    obtain ⟨_, hl, hb⟩ := Ordered.cons.mp h
    simp only [Key.Overlaps] at ho
    obtain rfl | hx' := List.mem_cons.mp hx
    · obtain rfl | hy' := List.mem_cons.mp hy
      · rfl
      · have := hb y hy'
        simp only [Entry.Before] at this
        omega
    · obtain rfl | hy' := List.mem_cons.mp hy
      · have := hb x hx'
        simp only [Entry.Before] at this
        omega
      · exact ih hl hx' hy'

theorem Ordered.sublist (h : Ordered l) (hs : l₁.Sublist l) : Ordered l₁ :=
  ⟨h.sorted.sublist hs, fun e he => h.ok e (hs.subset he)⟩

end

section
variable {c : List (Frame Entry)} {f : Frame Entry} {t x : Tree} {key : Key} {e : Entry}

/-- A subtree of an ordered tree. -/
theorem Ordered.of_plug (h : Ordered (plug c t).toList) : Ordered t.toList := by
  rw [toList_plug] at h
  exact (Ordered.append.mp (Ordered.append.mp h).1).2.1

theorem Ordered.root (h : Ordered (plug (f :: c) t).toList) : f.v.Ok := by
  refine h.ok f.v ?_
  simp only [plug_cons]
  cases f.d <;> simp [bin, toList]

/-- A search for an entry of the subtree follows the path to it. -/
theorem Ordered.follows (h : Ordered (plug (f :: c) t).toList) (he : e ∈ t.toList) :
    Follows e.key f := by
  have hf : f.v.Ok := h.root
  have hmem : e ∈ (plug c t).toList := by rw [toList_plug]; simp [he]
  have heok : e.Ok := h.ok e <| by
    simp only [plug_cons]
    cases f.d <;> simp [bin, toList, hmem]
  rw [plug_cons] at h
  rw [Follows]
  cases hd : f.d with
  | left =>
    rw [hd] at h
    exact Key.side_left.mpr ((Ordered.append.mp h).2.2 e hmem f.v List.mem_cons_self)
  | right =>
    rw [hd] at h
    have hb := (Ordered.cons.mp (Ordered.append.mp h).2.1).2.2 e hmem
    exact (Key.side_right heok hf).mpr hb

theorem Ordered.follows_all (h : Ordered (plug c t).toList) (he : e ∈ t.toList) :
    ∀ f ∈ c, Follows e.key f := by
  induction c with
  | nil => exact fun f hf => nomatch hf
  | cons g c ih =>
    refine List.forall_mem_cons.mpr ⟨h.follows he, ih (h.of_plug (c := [g]))⟩

/-- The contents to the left of a path that a search follows. -/
theorem Ordered.before_lt (h : Ordered (plug c t).toList) (hk : key.start ≤ key.last)
    (hc : ∀ f ∈ c, Follows key f) (he : e ∈ before c) : e.key.last < key.start := by
  induction c with
  | nil => cases he
  | cons f c ih =>
    have ih := ih (h.of_plug (c := [f])) fun f' hf' => hc f' (List.mem_cons_of_mem _ hf')
    have hf := hc f List.mem_cons_self
    rw [Follows] at hf
    cases hd : f.d with
    | left =>
      simp only [before, hd] at he
      exact ih he
    | right =>
      have hv : f.v.key.last < key.start := (Key.side_right hk h.root).mp (hf.trans (by rw [hd]))
      simp only [before, hd, List.mem_append, List.mem_cons] at he
      obtain he | rfl | he := he
      · have hok := h.root
        rw [plug_cons, hd] at h
        have hb : e.Before f.v := (Ordered.append.mp h).2.2 e he f.v List.mem_cons_self
        simp only [Entry.Before, Entry.Ok] at hb hok
        omega
      · exact hv
      · exact ih he

/-- The contents to the right of a path that a search follows. -/
theorem Ordered.lt_after (h : Ordered (plug c t).toList) (hc : ∀ f ∈ c, Follows key f) (he : e ∈ after c) : key.last < e.key.start := by
  induction c with
  | nil => cases he
  | cons f c ih =>
    have ih := ih (h.of_plug (c := [f])) fun f' hf' => hc f' (List.mem_cons_of_mem _ hf')
    have hf := hc f List.mem_cons_self
    rw [Follows] at hf
    cases hd : f.d with
    | right =>
      simp only [after, hd] at he
      exact ih he
    | left =>
      have hv : key.last < f.v.key.start := Key.side_left.mp (hf.trans (by rw [hd]))
      simp only [after, hd, List.mem_append, List.mem_cons] at he
      obtain he | rfl | he := he
      · exact ih he
      · exact hv
      · have hok := h.root
        rw [plug_cons, hd] at h
        have hb : f.v.Before e := (Ordered.cons.mp (Ordered.append.mp h).2.1).2.2 e he
        simp only [Entry.Before, Entry.Ok] at hb hok
        omega

end

/-- `tree_head` as the first node of every search path. -/
def headFrame : Frame Entry := ⟨.right, treeHead, ⟨⟨0, 0⟩, 0⟩, 0, .nil⟩

/-- **The invariant of the region tree.** -/
structure Avl.Inv (h : Avl) (t : Tree) : Prop where
  rep : Rep h.node (plug [headFrame] t)
  ordered : Ordered t.toList
  balanced : t.Balanced
  height : h.treeHeight = t.height

theorem Avl.side_eq {h : Avl} {key : Key} {f : Frame Entry} {n : Avlt} (hp : h.node f.p = some n)
    (hv : n.val = f.v) (hf : Follows key f) : h.side key f.p = .ok f.d := by
  rw [Follows, ← hv, Key.side] at hf
  simp only [side, load_eq hp, ok_bind]
  split
  · simp_all; rfl
  · split at hf <;> simp_all; rfl

theorem Avl.init_inv : Avl.init.Inv .nil where
  rep := by
    refine ⟨holds_bin.mpr ⟨?_, trivial, trivial⟩, ?_, ?_⟩
    · simp only [init]; rfl
    · simp [plug, headFrame]
    · simp [headFrame, treeHead]
  ordered := ⟨List.Pairwise.nil, fun _ h => nomatch h⟩
  balanced := trivial
  height := rfl

end L4env.L4rm
