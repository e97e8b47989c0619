import L4env.L4rm.AvlInsert
import L4env.L4rm.AvlRemove

/-!
# L4RM: the AVL tree as a map of address ranges

`AvlSpec` says what the tree operations do to the set of stored entries. Every state that they can
reach from `avlt_init` satisfies the invariant of the tree, and every operation runs without a
fault and as `AvlSpec` says, whatever the node allocator answers.
-/

namespace L4env.L4rm

open PTree

namespace Avl
variable {h h' : Avl} {key : Key} {x T T' : Tree}

/-! ## `avlt_find` -/

/-- What `avlt_find` returns for the entries `l`. -/
def Finds (key : Key) (l : List Entry) (r : Except Fault (Option Nat)) : Prop :=
  (∃ e ∈ l, key.isIn e.key ∧ r = .ok (some e.data)) ∨
    ((∀ e ∈ l, key.isIn e.key = false) ∧ r = .ok none)

theorem isIn_iff {a b : Key} : a.isIn b = true ↔ b.start ≤ a.start ∧ a.last ≤ b.last := by
  simp [Key.isIn]

theorem findFrom_spec (hk : key.start ≤ key.last) (n : Nat) : ∀ {x}, Rep h.node x →
    Ordered x.toList → x.height ≤ n → Finds key x.toList (h.findFrom key (n + 1) x.ptr) := by
  induction n with
  | zero =>
    intro x H _ hn
    cases x with
    | nil => exact .inr ⟨by simp [PTree.toList], rfl⟩
    | node => simp [height] at hn
  | succ n ih =>
    intro x H ho hn
    cases x with
    | nil => exact .inr ⟨by simp [PTree.toList], rfl⟩
    | node p v b l r =>
      have hread := load_eq H.holds.1
      have hp0 : p ≠ 0 := by rintro rfl; exact H.nonnull (by simp [addrs])
      have hv : v.Ok := ho.ok v (by simp [PTree.toList])
      cases hin : key.isIn v.key with
      | true =>
        refine .inl ⟨v, by simp [PTree.toList], hin, ?_⟩
        simp only [ptr, findFrom, if_neg hp0, hread, ok_bind, hin, if_true]
        rfl
      | false =>
        cases hside : key.side v.key with
        | none =>
          refine .inr ⟨fun e he => ?_, ?_⟩
          · rw [Bool.eq_false_iff]
            intro hine
            have hov := Key.side_none.mp hside
            have hine' := isIn_iff.mp hine
            have heq := ho.eq_of_overlaps he (by simp [PTree.toList] : v ∈ _)
              ⟨by have := hov.1; omega, by have := hov.2; omega⟩
            rw [heq, hin] at hine
            cases hine
          · simp only [ptr, findFrom, if_neg hp0, hread, ok_bind, hin, hside,
              Bool.false_eq_true, if_false]
            rfl
        | some d =>
          obtain ⟨y, z, hbin⟩ := node_eq_bin d p v b l r
          rw [hbin] at H ho hn ⊢
          have hread := load_eq (read_bin (c := []) H)
          have hstep : h.findFrom key (n + 1 + 1) p = h.findFrom key (n + 1) y.ptr := by
            rw [findFrom, if_neg hp0]
            simp only [hread, ok_bind, TNode.link_val, hin, hside, Bool.false_eq_true, if_false,
              TNode.child_link]
          have hS := ih (Rep.left_of_bin H) (ho.of_plug (c := [⟨d, p, v, b, z⟩]))
            (by rw [height_bin] at hn; omega)
          have hmem : ∀ e, e ∈ (bin d p v b y z).toList ↔ e ∈ y.toList ∨ e = v ∨ e ∈ z.toList := by
            intro e
            cases d <;> simp only [bin, PTree.toList, List.mem_append, List.mem_cons] <;> tauto
          rw [ptr_bin, hstep]
          obtain ⟨e, he, hine, hr⟩ | ⟨hnone, hr⟩ := hS
          · exact .inl ⟨e, (hmem e).mpr (.inl he), hine, hr⟩
          refine .inr ⟨fun e he => ?_, hr⟩
          obtain he | rfl | he := (hmem e).mp he
          · exact hnone e he
          · exact hin
          -- an entry on the other side of `v` does not reach over to the key
          have heok : e.Ok := ho.ok e ((hmem e).mpr (.inr (.inr he)))
          have hf := Ordered.follows (f := ⟨d.flip, p, v, b, y⟩) (c := []) (t := z)
            (by rw [plug_cons, plug_nil, bin_flip]; exact ho) he
          rw [Bool.eq_false_iff]
          intro hine
          have hine := isIn_iff.mp hine
          simp only [Entry.Ok] at heok hv
          cases d with
          | left =>
            have h1 := Key.side_left.mp hside
            have h2 := (Key.side_right heok hv).mp hf
            omega
          | right =>
            have h1 := (Key.side_right hk hv).mp hside
            have h2 : e.key.last < v.key.start := Key.side_left.mp hf
            omega

theorem find_spec (I : h.Inv T) (hk : key.start ≤ key.last) :
    Finds key T.toList (h.find key) := by
  have hhead : h.load treeHead = .ok ⟨⟨⟨0, 0⟩, 0⟩, 0, 0, T.ptr⟩ :=
    load_eq (read_bin (c := []) I.rep)
  have := findFrom_spec hk (h.treeHeight + 1) I.rep.of_plug I.ordered (by rw [I.height]; omega)
  simp only [find, hhead, ok_bind]
  exact this

/-! ## The contents of a state -/

theorem holds_unique {g : Nat → Option Avlt} {t t' : Tree} (ht : t.Holds g) (ht' : t'.Holds g)
    (h0 : 0 ∉ t.addrs) (h0' : 0 ∉ t'.addrs) (hp : t.ptr = t'.ptr) : t = t' := by
  induction t generalizing t' with
  | nil =>
    cases t' with
    | nil => rfl
    | node p v b l r => exact absurd (by simp [addrs, ← show 0 = p from hp]) h0'
  | node p v b l r ihl ihr =>
    cases t' with
    | nil => exact absurd (by simp [addrs, show p = 0 from hp]) h0
    | node p' v' b' l' r' =>
      obtain rfl : p = p' := hp
      have hn := Option.some.inj (ht.1.symm.trans ht'.1)
      simp only [TNode.mk.injEq] at hn
      obtain ⟨rfl, rfl, hl, hr⟩ := hn
      simp only [addrs, List.mem_cons, List.mem_append, not_or] at h0 h0'
      rw [ihl ht.2.1 ht'.2.1 h0.2.1 h0'.2.1 hl, ihr ht.2.2 ht'.2.2 h0.2.2 h0'.2.2 hr]

theorem Inv.unique (I : h.Inv T) (I' : h.Inv T') : T = T' := by
  have hp := (read_bin (c := []) I.rep).symm.trans (read_bin (c := []) I'.rep)
  refine holds_unique I.rep.of_plug.holds I'.rep.of_plug.holds I.rep.of_plug.nonnull
    I'.rep.of_plug.nonnull ?_
  simpa [TNode.link, headFrame] using hp

/-- The entries that the tree of a state stores. -/
def contents (h : Avl) : Set Entry := { e | ∃ T, h.Inv T ∧ e ∈ T.toList }

theorem Inv.mem_contents (I : h.Inv T) {e : Entry} : e ∈ h.contents ↔ e ∈ T.toList := by
  constructor
  · rintro ⟨T', I', he⟩
    rwa [I.unique I']
  · exact fun he => ⟨T, I, he⟩

end Avl

/-! ## Refinement -/

/-- The operations of the tree; `new` is the answer of the node allocator. -/
inductive AvlOp
  | insert (key : Key) (data : Nat) (new : Option Ptr)
  | remove (key : Key)
  | find (key : Key)

/-- A return code, and the data that `avlt_find` stores. -/
abbrev AvlOut := AvltRet × Option Nat

def Avl.step (h : Avl) : AvlOp → Except Fault (AvlOut × Avl)
  | .insert key data new => do
    let (r, h) ← h.insert key data new
    return ((r, none), h)
  | .remove key => do
    let (r, h) ← h.remove key
    return ((r, none), h)
  | .find key => do
    match ← h.find key with
    | some d => return ((.ok, some d), h)
    | none => return ((.notFound, none), h)

/-- Keys are ranges, and the slab cache hands out nodes that are not in use. -/
def AvlOp.Valid (h : Avl) : AvlOp → Prop
  | .insert key _ new => key.start ≤ key.last ∧ ∀ q, new = some q → q ≠ 0 ∧ h.node q = none
  | .remove key | .find key => key.start ≤ key.last

/-- The operations on a map of pairwise disjoint ranges. -/
inductive AvlSpec (M : Set Entry) : AvlOp → AvlOut → Set Entry → Prop
  | overlap {e : Entry} (he : e ∈ M) (ho : key.Overlaps e.key) :
      AvlSpec M (.insert key data new) (.exists, none) M
  | noMem (ho : ∀ e ∈ M, ¬key.Overlaps e.key) :
      AvlSpec M (.insert key data none) (.noMem, none) M
  | inserted (ho : ∀ e ∈ M, ¬key.Overlaps e.key) :
      AvlSpec M (.insert key data (some q)) (.ok, none) (Insert.insert ⟨key, data⟩ M)
  | removed (he : ⟨key, d⟩ ∈ M) : AvlSpec M (.remove key) (.ok, none) (M \ {⟨key, d⟩})
  | notFound (he : ∀ e ∈ M, e.key ≠ key) : AvlSpec M (.remove key) (.notFound, none) M
  | found {e : Entry} (he : e ∈ M) (hin : key.isIn e.key)
      (hunique : ∀ e' ∈ M, key.isIn e'.key → e' = e) :
      AvlSpec M (.find key) (.ok, some e.data) M
  | absent (hin : ∀ e ∈ M, key.isIn e.key = false) : AvlSpec M (.find key) (.notFound, none) M

/-- The states of the tree after `avlt_init` and any sequence of operations. -/
inductive AvlReachable : Avl → Prop
  | init : AvlReachable .init
  | step {op : AvlOp} : AvlReachable h → op.Valid h → h.step op = .ok (out, h') → AvlReachable h'

namespace Avl
variable {h h' : Avl} {T : Tree}

/-- One operation on a state that satisfies the invariant. -/
theorem step_spec (I : h.Inv T) {op : AvlOp} (hop : op.Valid h) :
    ∃ out h' T', h.step op = .ok (out, h') ∧ h'.Inv T' ∧
      AvlSpec h.contents op out h'.contents ∧ (out.1 ≠ .ok → h' = h) := by
  cases op with
  | insert key data new =>
    obtain ⟨⟨e, he, ho⟩, heq⟩ | ⟨hno, ⟨rfl, heq⟩ | ⟨h', T', l, r, hsome, heq, I', hl, hl'⟩⟩ :=
      insert_spec data I hop.1 hop.2
    · refine ⟨(.exists, none), h, T, ?_, I, .overlap (I.mem_contents.mpr he) ho, fun _ => rfl⟩
      simp only [step, heq, ok_bind]; rfl
    · refine ⟨(.noMem, none), h, T, ?_, I, .noMem fun e he => hno e (I.mem_contents.mp he),
        fun _ => rfl⟩
      simp only [step, heq, ok_bind]; rfl
    · obtain ⟨q, rfl⟩ := Option.isSome_iff_exists.mp hsome
      refine ⟨(.ok, none), h', T', ?_, I', ?_, fun hne => absurd rfl hne⟩
      · simp only [step, heq, ok_bind]; rfl
      · have hcontents : h'.contents = Insert.insert ⟨key, data⟩ h.contents := by
          ext e
          rw [Set.mem_insert_iff, I'.mem_contents, I.mem_contents, hl, hl']
          simp only [List.mem_append, List.mem_cons]
          tauto
        rw [hcontents]
        exact .inserted fun e he => hno e (I.mem_contents.mp he)
  | remove key =>
    obtain ⟨hno, heq⟩ | ⟨h', T', l, r, d, heq, I', hl, hl'⟩ := remove_spec key I
    · refine ⟨(.notFound, none), h, T, ?_, I, .notFound fun e he => hno e (I.mem_contents.mp he),
        fun _ => rfl⟩
      simp only [step, heq, ok_bind]; rfl
    · refine ⟨(.ok, none), h', T', ?_, I', ?_, fun hne => absurd rfl hne⟩
      · simp only [step, heq, ok_bind]; rfl
      · have hnd := I.ordered.nodup
        rw [hl] at hnd
        have hcontents : h'.contents = h.contents \ {⟨key, d⟩} := by
          ext e
          rw [Set.mem_sdiff, Set.mem_singleton_iff, I'.mem_contents, I.mem_contents, hl, hl']
          have hnot := (List.nodup_cons.mp (List.nodup_middle.mp hnd)).1
          simp only [List.mem_append, List.mem_cons] at hnot ⊢
          constructor
          · intro he
            refine ⟨by tauto, ?_⟩
            rintro rfl
            exact hnot he
          · tauto
        rw [hcontents]
        exact .removed (I.mem_contents.mpr (by rw [hl]; simp))
  | find key =>
    obtain ⟨e, he, hin, heq⟩ | ⟨hno, heq⟩ := find_spec I (show key.start ≤ key.last from hop)
    · refine ⟨(.ok, some e.data), h, T, ?_, I, ?_, fun _ => rfl⟩
      · simp only [step, heq, ok_bind]; rfl
      · refine .found (I.mem_contents.mpr he) hin fun e' he' hin' => ?_
        have h1 := isIn_iff.mp hin
        have h2 := isIn_iff.mp hin'
        have hk : key.start ≤ key.last := hop
        exact I.ordered.eq_of_overlaps (I.mem_contents.mp he') he ⟨by omega, by omega⟩
    · refine ⟨(.notFound, none), h, T, ?_, I, .absent fun e he => hno e (I.mem_contents.mp he),
        fun _ => rfl⟩
      simp only [step, heq, ok_bind]; rfl

theorem reachable_inv (hr : AvlReachable h) : ∃ T, h.Inv T := by
  induction hr with
  | init => exact ⟨.nil, init_inv⟩
  | step _ hop heq ih =>
    obtain ⟨T, I⟩ := ih
    obtain ⟨out, h', T', heq', I', _, _⟩ := step_spec I hop
    rw [heq] at heq'
    obtain ⟨_, rfl⟩ := Prod.mk.inj (Except.ok.inj heq')
    exact ⟨T', I'⟩

end Avl

end L4env.L4rm
