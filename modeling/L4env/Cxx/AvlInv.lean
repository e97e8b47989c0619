import L4env.Cxx.AvlSim
import Mathlib.Order.Defs.Unbundled

/-!
# The invariant of the C++ tree

A strict weak order on finitely many keys is represented by their ranks, so what is proved of the
region tree carries over: the entry of a key is the range that consists of its rank alone, with the
place of the key in the list as the data.
-/

namespace L4env.Cxx

open L4rm (Entry Avl Avlt)
open PTree

variable {K : Type}

/-! ## Ranks -/

section
variable (comp : K → K → Bool) (S : List K)

/-- The number of smaller keys in the list. -/
def rank (k : K) : Nat := S.countP fun x => comp x k

open Classical in
/-- The entry that stands for a key of the list. -/
noncomputable def entryOf (k : K) : Entry :=
  ⟨⟨rank comp S k, rank comp S k⟩, S.idxOf k⟩

/-- The keys of the list and their entries. -/
def Stands (k : K) (e : Entry) : Prop := k ∈ S ∧ e = entryOf comp S k

end

section
variable {comp : K → K → Bool} {S l l' : List K} {a b c k : K}

theorem entryOf_inj (ha : a ∈ S) (h : entryOf comp S a = entryOf comp S b) : a = b := by
  classical
  have hidx := congrArg Entry.data h
  simp only [entryOf] at hidx
  exact (List.idxOf_inj ha).mp hidx

theorem map_entryOf_inj (hl : ∀ x ∈ l, x ∈ S)
    (h : l.map (entryOf comp S) = l'.map (entryOf comp S)) : l = l' := by
  induction l generalizing l' with
  | nil => exact (List.map_eq_nil_iff.mp h.symm).symm
  | cons x l ih =>
    cases l' with
    | nil => cases h
    | cons y l' =>
      obtain ⟨hxy, hrest⟩ := List.cons.inj h
      obtain rfl := entryOf_inj (hl x List.mem_cons_self) hxy
      rw [ih (fun z hz => hl z (List.mem_cons_of_mem _ hz)) hrest]

/-- More elements of a list meet a weaker test. -/
theorem countP_lt {p q : K → Bool} (h : ∀ x ∈ S, p x → q x) (ha : a ∈ S) (hq : q a)
    (hp : p a = false) : S.countP p < S.countP q := by
  obtain ⟨l₁, l₂, rfl⟩ := List.append_of_mem ha
  have h₁ : l₁.countP p ≤ l₁.countP q :=
    List.countP_mono_left fun x hx => h x (List.mem_append_left _ hx)
  have h₂ : l₂.countP p ≤ l₂.countP q :=
    List.countP_mono_left fun x hx => h x (List.mem_append_right _ (List.mem_cons_of_mem _ hx))
  simp only [List.countP_append, List.countP_cons, hq, hp, if_true, Bool.false_eq_true, if_false]
  omega

variable [IsStrictWeakOrder K fun a b => comp a b = true]

theorem comp_trans (h₁ : comp a b = true) (h₂ : comp b c = true) : comp a c = true :=
  IsTrans.trans (r := fun a b => comp a b = true) a b c h₁ h₂

theorem comp_irrefl (a : K) : comp a a = false :=
  Bool.eq_false_iff.mpr (Std.Irrefl.irrefl (r := fun a b => comp a b = true) a)

theorem comp_asymm (h : comp a b = true) : comp b a = false := by
  rw [Bool.eq_false_iff]
  intro h'
  have hself : comp a a = false := comp_irrefl a
  rw [comp_trans h h'] at hself
  cases hself

/-- Of two keys in order, a third one is behind the first or before the second. -/
theorem comp_or (h : comp a c = true) (b : K) : comp a b = true ∨ comp b c = true := by
  by_contra hno
  obtain ⟨hab, hbc⟩ := not_or.mp hno
  have hinc := @IsStrictWeakOrder.incomp_trans K (fun a b => comp a b = true) _ a b c
  cases hba : comp b a with
  | true => exact hbc (comp_trans hba h)
  | false =>
    cases hcb : comp c b with
    | true => exact hab (comp_trans h hcb)
    | false => exact (hinc ⟨hab, by simp [hba]⟩ ⟨hbc, by simp [hcb]⟩).1 h

theorem rank_lt (ha : a ∈ S) : rank comp S a < rank comp S b ↔ comp a b = true := by
  constructor
  · intro hlt
    by_contra hno
    refine absurd hlt (Nat.not_lt.mpr (List.countP_mono_left fun x _ hx => ?_))
    exact (comp_or hx a).resolve_right hno
  · intro hab
    exact countP_lt (fun x _ hx => comp_trans hx hab) ha hab (comp_irrefl a)

theorem represents (comp : K → K → Bool) (S : List K)
    [IsStrictWeakOrder K fun a b => comp a b = true] : Represents comp (Stands comp S) where
  lower := by
    rintro k e k' e' ⟨hk, rfl⟩ ⟨-, rfl⟩
    exact (rank_lt hk).symm
  equal := by
    rintro k e k' e' ⟨hk, rfl⟩ ⟨hk', rfl⟩
    simp only [entryOf, L4rm.Key.mk.injEq, and_self, ← Bool.not_eq_true]
    rw [← rank_lt hk, ← rank_lt hk']
    omega

end

/-! ## The invariant -/

/-- `_head`, the first node of every search path. -/
def avlHeadFrame (dflt : K) : Frame K := ⟨.right, avlHead, dflt, 0, .nil⟩

/-- The tree is laid out below the head, its keys are in order, every balance factor is the difference
of the heights of the subtrees, `_height` is the height of the tree, and every allocated node is a node
of the tree. -/
structure AvlTree.Inv (comp : K → K → Bool) (dflt : K) (h : AvlTree K) (T : PTree K) : Prop where
  rep : Rep h.node (plug [avlHeadFrame dflt] T)
  ordered : T.toList.Pairwise fun x y => comp x y = true
  balanced : T.Balanced
  height : h.height = T.height
  owned : ∀ p, (h.node p).isSome ↔ p = avlHead ∨ p ∈ T.addrs

/-- The heap of L4RM with the entries of the keys. -/
noncomputable def translate (comp : K → K → Bool) (S : List K) (h : AvlTree K) : Avl where
  node p := (h.node p).map fun n =>
    ⟨if p = avlHead then ⟨⟨0, 0⟩, 0⟩ else entryOf comp S n.val, n.b, n.left, n.right⟩
  treeHeight := h.height

namespace AvlTree.Inv
variable {comp : K → K → Bool} {dflt : K} {h : AvlTree K} {T : PTree K} {S : List K}

theorem head (I : h.Inv comp dflt T) : h.node avlHead = some ⟨dflt, 0, 0, T.ptr⟩ :=
  (holds_bin.mp I.rep.holds).1

theorem head_notMem (I : h.Inv comp dflt T) : avlHead ∉ T.addrs :=
  (nodup_addrs_bin.mp I.rep.nodup).1

/-- The nodes of the heap correspond. -/
theorem heapRel (I : h.Inv comp dflt T) (hS : ∀ k ∈ T.toList, k ∈ S) :
    HeapRel (Stands comp S) dflt { p | (h.node p).isSome } h (translate comp S h) where
  node := by
    intro p
    unfold translate
    cases hp : h.node p with
    | none =>
      simp only [hp, Option.map_none]
      exact .none
    | some n =>
      simp only [hp, Option.map_some]
      refine .some ?_
      have howned := (I.owned p).mp (by rw [hp]; rfl)
      cases eq_or_ne p avlHead with
      | inl heq =>
        subst heq
        obtain rfl := Option.some.inj (I.head.symm.trans hp)
        refine ⟨fun h => absurd rfl h, rfl, rfl, rfl, ?_, ?_, fun d => ?_⟩
        · exact show (-1 : Int) ≤ 0 by decide
        · exact show (0 : Int) ≤ 1 by decide
        · cases d with
          | left => exact show (0 : Nat) ≠ 1 by decide
          | right =>
            intro hptr
            cases T with
            | nil => cases hptr
            | node q => exact I.head_notMem (by rw [← hptr]; simp [TNode.child, ptr, addrs])
      | inr hne =>
        have hmem := howned.resolve_left hne
        obtain ⟨m, hm, hval, hlow, hhigh, hchild⟩ := I.rep.of_plug.holds.node I.balanced hmem
        obtain rfl := Option.some.inj (hp.symm.trans hm)
        refine ⟨fun _ => ⟨hS _ hval, if_neg hne⟩, rfl, rfl, rfl, hlow, hhigh, fun d hd => ?_⟩
        have hc := hchild d
        rw [hd] at hc
        cases hc with
        | inl h0 => cases h0
        | inr hmem => exact I.head_notMem hmem
  head := by
    intro n hn
    obtain rfl := Option.some.inj (I.head.symm.trans hn)
    rfl
  height := rfl
  dom := fun _ => Iff.rfl

theorem holds_translate {t : PTree K} (ht : t.Holds h.node) (hhead : avlHead ∉ t.addrs) :
    (t.map (entryOf comp S)).Holds (translate comp S h).node := by
  induction t with
  | nil => trivial
  | node p v b l r ihl ihr =>
    obtain ⟨hp, hl, hr⟩ := ht
    simp only [addrs, List.mem_cons, List.mem_append, not_or] at hhead
    refine ⟨?_, ihl hl hhead.2.1, ihr hr hhead.2.2⟩
    simp only [translate, hp, Option.map_some, if_neg (Ne.symm hhead.1), ptr_map]

variable [IsStrictWeakOrder K fun a b => comp a b = true]

/-- The translated heap satisfies the invariant of the region tree. -/
theorem translate (I : h.Inv comp dflt T) (hS : ∀ k ∈ T.toList, k ∈ S) :
    (translate comp S h).Inv (T.map (entryOf comp S)) where
  rep := by
    have hnd := nodup_addrs_bin.mp I.rep.nodup
    have h0 := I.rep.nonnull
    simp only [plug_cons, plug_nil, mem_addrs_bin, not_or] at h0
    refine ⟨holds_bin.mpr ⟨?_, holds_translate I.rep.of_plug.holds I.head_notMem, trivial⟩, ?_, ?_⟩
    · show (Cxx.translate comp S h).node avlHead =
        some ⟨⟨⟨0, 0⟩, 0⟩, 0, 0, (T.map (entryOf comp S)).ptr⟩
      simp [Cxx.translate, I.head]
    · refine nodup_addrs_bin.mpr ?_
      rw [plug_nil, addrs_map]
      exact hnd
    · simp only [plug_cons, plug_nil, mem_addrs_bin, not_or, addrs_map]
      exact ⟨h0.1, h0.2.1, h0.2.2⟩
  ordered := by
    rw [toList_map]
    refine ⟨List.pairwise_map.mpr (I.ordered.imp_of_mem fun ha hb hab => ?_), ?_⟩
    · exact (rank_lt (hS _ ha)).mpr hab
    · rintro e he
      obtain ⟨k, -, rfl⟩ := List.mem_map.mp he
      exact Nat.le_refl _
  balanced := balanced_map.mpr I.balanced
  height := I.height.trans height_map.symm

end AvlTree.Inv

/-- The tree of keys that a tree of entries stands for. -/
theorem HeapRel.lift {comp : K → K → Bool} {dflt : K} {D : Set Ptr} {h : AvlTree K} {h' : Avl}
    {S : List K} (H : HeapRel (Stands comp S) dflt D h h') {t' : PTree Entry}
    (ht' : t'.Holds h'.node) (hhead : avlHead ∉ t'.addrs) :
    ∃ t : PTree K, t.map (entryOf comp S) = t' ∧ t.Holds h.node ∧ ∀ k ∈ t.toList, k ∈ S := by
  induction t' with
  | nil => exact ⟨.nil, rfl, trivial, fun k hk => nomatch hk⟩
  | node p e b l r ihl ihr =>
    obtain ⟨hp, hl, hr⟩ := ht'
    simp only [addrs, List.mem_cons, List.mem_append, not_or] at hhead
    obtain ⟨tl, rfl, htl, hSl⟩ := ihl hl hhead.2.1
    obtain ⟨tr, rfl, htr, hSr⟩ := ihr hr hhead.2.2
    obtain ⟨n, hn, N⟩ := H.pair hp
    obtain ⟨hS, he⟩ := N.val (Ne.symm hhead.1)
    refine ⟨.node p n.val b tl tr, ?_, ⟨?_, htl, htr⟩, fun k hk => ?_⟩
    · rw [PTree.map, ← he]
    · rw [hn, ← ptr_map (f := entryOf comp S), ← ptr_map (f := entryOf comp S)]
      obtain ⟨v, b', left, right⟩ := n
      have hb := N.b
      have hleft := N.left
      have hright := N.right
      dsimp only at hb hleft hright
      rw [hb, hleft, hright]
    · simp only [toList, List.mem_append, List.mem_cons] at hk
      obtain hk | rfl | hk := hk
      · exact hSl k hk
      · exact hS
      · exact hSr k hk

/-- The invariant of the region tree carries over to the C++ tree, if as many nodes are allocated as
there are in the tree. -/
theorem HeapRel.inv {comp : K → K → Bool} {dflt : K} {D : Set Ptr} {h : AvlTree K} {h' : Avl}
    {S : List K} {T' : PTree Entry} [IsStrictWeakOrder K fun a b => comp a b = true]
    (H : HeapRel (Stands comp S) dflt D h h') (I : h'.Inv T') {E : List Ptr}
    (hE : ∀ p, p ∈ D ↔ p ∈ E) (hlen : E.length = T'.toList.length + 1) :
    ∃ T, h.Inv comp dflt T ∧ T.toList.map (entryOf comp S) = T'.toList ∧ ∀ k ∈ T.toList, k ∈ S := by
  have hnd := nodup_addrs_bin.mp I.rep.nodup
  have h0 := I.rep.nonnull
  simp only [plug_cons, plug_nil, mem_addrs_bin, not_or] at h0
  have hhead : avlHead ∉ T'.addrs := hnd.1
  obtain ⟨T, rfl, hT, hS⟩ := H.lift I.rep.of_plug.holds hhead
  rw [plug_nil, addrs_map] at hnd
  rw [addrs_map] at hhead
  obtain ⟨m, hm, M⟩ := H.pair (show h'.node avlHead = _ from (holds_bin.mp I.rep.holds).1)
  have hheadNode : h.node avlHead = some ⟨dflt, 0, 0, T.ptr⟩ := by
    obtain ⟨v, b, left, right⟩ := m
    have hv := H.head _ hm
    have hb := M.b
    have hleft := M.left
    have hright := M.right
    dsimp only at hv hb hleft hright
    rw [hm, hv, hb, hleft, hright]
    show some (⟨dflt, 0, 0, (T.map (entryOf comp S)).ptr⟩ : TNode K) = _
    rw [ptr_map]
  refine ⟨T, ⟨⟨holds_bin.mpr ⟨hheadNode, hT, trivial⟩, ?_, ?_⟩, ?_, balanced_map.mp I.balanced,
    H.height.trans (I.height.trans height_map), ?_⟩, toList_map.symm, hS⟩
  · exact nodup_addrs_bin.mpr hnd
  · simp only [plug_cons, plug_nil, mem_addrs_bin, not_or]
    rw [addrs_map] at h0
    exact ⟨h0.1, h0.2.1, h0.2.2⟩
  · have hord := I.ordered.sorted
    rw [toList_map, List.pairwise_map] at hord
    exact hord.imp_of_mem fun ha _ hab => (rank_lt (hS _ ha)).mp hab
  · -- the nodes of the tree are allocated, and there are no others
    have hmem : ∀ p ∈ avlHead :: T.addrs, p ∈ E := by
      intro p hp
      rw [← hE, H.dom]
      obtain rfl | hp := List.mem_cons.mp hp
      · rw [hheadNode]
        rfl
      · exact hT.isSome hp
    have hnodup : (avlHead :: T.addrs).Nodup := List.nodup_cons.mpr ⟨hhead, hnd.2.2.1⟩
    have hperm := (List.subperm_of_subset hnodup hmem).perm_of_length_le (by
      rw [hlen, toList_map, List.length_map, length_toList, List.length_cons])
    intro p
    rw [← H.dom, hE, ← hperm.mem_iff, List.mem_cons]

end L4env.Cxx
