import L4env.Cxx.AvlInv

/-!
# The AVL tree of the C++ library as a map

`AvlSpec` says what the operations do to the items of the tree, whatever the node allocator answers.
`insert` and `find` always work. `remove` does if the keys that are compared with the one of the head
are not less than it, which `SafeRemoval` says in terms of the tree before the removal.
-/

namespace L4env.Cxx

open L4rm (Entry Avl)
open PTree

variable {K : Type}

/-- Equivalent keys. -/
def Same (comp : K → K → Bool) (a b : K) : Prop := comp a b = false ∧ comp b a = false

namespace AvlTree.Inv
variable {comp : K → K → Bool} {dflt key : K} {h h' : AvlTree K} {T : PTree K} {S : List K}

theorem same_iff [IsStrictWeakOrder K fun a b => comp a b = true] {a b : K} (ha : a ∈ S)
    (hb : b ∈ S) : Same comp a b ↔ (entryOf comp S a).key = (entryOf comp S b).key :=
  ((represents comp S).equal ⟨ha, rfl⟩ ⟨hb, rfl⟩).symm

theorem length_toList_map (comp : K → K → Bool) (S : List K) :
    (T.map (entryOf comp S)).toList.length = T.addrs.length := by
  rw [toList_map, List.length_map, length_toList]

variable [IsStrictWeakOrder K fun a b => comp a b = true]

theorem overlaps_iff {a b : K} (ha : a ∈ S) (hb : b ∈ S) :
    (entryOf comp S a).key.Overlaps (entryOf comp S b).key ↔ Same comp a b := by
  rw [same_iff ha hb]
  simp only [L4rm.Key.Overlaps, entryOf, L4rm.Key.mk.injEq, and_self]
  omega

/-- **`insert`** adds the item, or changes nothing if there is an equivalent one or no memory. -/
theorem insert (key : K) {new : Option Ptr} (I : h.Inv comp dflt T)
    (hnew : ∀ q, new = some q → q ≠ 0 ∧ h.node q = none) :
    ((∃ k ∈ T.toList, Same comp key k) ∧ h.insert comp key new = .ok (.exists, h)) ∨
    ((∀ k ∈ T.toList, ¬Same comp key k) ∧
      ((new = none ∧ h.insert comp key new = .ok (.noMem, h)) ∨
      ∃ h' T' l r, new.isSome ∧ h.insert comp key new = .ok (.ok, h') ∧ h'.Inv comp dflt T' ∧
        T.toList = l ++ r ∧ T'.toList = l ++ key :: r)) := by
  let S := key :: T.toList
  have hS : ∀ k ∈ T.toList, k ∈ S := fun k hk => List.mem_cons_of_mem _ hk
  have hkey : key ∈ S := List.mem_cons_self
  have I' := I.translate hS
  have hsim := (I.heapRel hS).insert_sim (represents comp S) ⟨hkey, rfl⟩ fun q hq => (hnew q hq).2
  have hnew' : ∀ q, new = some q → q ≠ 0 ∧ (Cxx.translate comp S h).node q = none := by
    intro q hq
    refine ⟨(hnew q hq).1, ?_⟩
    simp only [Cxx.translate, (hnew q hq).2, Option.map_none]
  have hrange : (entryOf comp S key).key.start ≤ (entryOf comp S key).key.last := Nat.le_refl _
  have hspec := L4rm.Avl.insert_spec (entryOf comp S key).data I' hrange hnew'
  rw [toList_map] at hspec
  obtain ⟨⟨e, he, ho⟩, heq⟩ | ⟨hno, hspec⟩ := hspec
  · obtain ⟨v, hv, hret, hsame, -⟩ := hsim _ heq
    obtain ⟨k, hk, rfl⟩ := List.mem_map.mp he
    refine .inl ⟨⟨k, hk, (overlaps_iff hkey (hS k hk)).mp ho⟩, hv.trans ?_⟩
    rw [← hsame (hret.trans_ne (show AvlRet.exists ≠ .ok by decide)), show AvlRet.exists = v.1 from hret.symm]
  have hno' : ∀ k ∈ T.toList, ¬Same comp key k := by
    intro k hk hsame
    exact hno _ (List.mem_map_of_mem hk) ((overlaps_iff hkey (hS k hk)).mpr hsame)
  refine .inr ⟨hno', ?_⟩
  obtain ⟨hnone, heq⟩ | ⟨h₁, T₁, l, r, hsome, heq, I₁, hl, hl'⟩ := hspec
  · obtain ⟨v, hv, hret, hsame, -⟩ := hsim _ heq
    refine .inl ⟨hnone, hv.trans ?_⟩
    rw [← hsame (hret.trans_ne (show AvlRet.noMem ≠ .ok by decide)), show AvlRet.noMem = v.1 from hret.symm]
  · obtain ⟨⟨ret, h'⟩, hv, hret, -, hok⟩ := hsim _ heq
    obtain ⟨q, hq, H'⟩ := hok hret
    obtain ⟨l, r, hT, rfl, rfl⟩ := List.map_eq_append_iff.mp hl
    have hE : ∀ p, p ∈ Insert.insert q { p | (h.node p).isSome } ↔ p ∈ q :: avlHead :: T.addrs := by
      intro p
      rw [Set.mem_insert_iff, Set.mem_ofPred_eq, I.owned, List.mem_cons, List.mem_cons]
    obtain ⟨T', I', hT', hS'⟩ := H'.inv I₁ hE (by
      rw [hl', List.length_append, List.length_cons, List.length_cons, List.length_cons,
        List.length_map, List.length_map, ← length_toList, hT, List.length_append]
      omega)
    refine .inr ⟨h', T', l, r, hsome, ?_, I', hT, ?_⟩
    · rw [hv]
      exact congrArg (fun r => Except.ok (r, h')) hret
    · have hmap : T'.toList.map (entryOf comp S) = (l ++ key :: r).map (entryOf comp S) := by
        rw [hT', hl', List.map_append, List.map_cons]
      exact map_entryOf_inj hS' hmap

/-- **`remove`** removes an item with an equivalent key, or changes nothing if there is none. -/
theorem remove (I : h.Inv comp dflt T)
    (hsafe : SafeRemoval (fun k => comp k dflt = false) (Same comp key) T) :
    ((∀ k ∈ T.toList, ¬Same comp key k) ∧ h.remove comp key = .ok (.notFound, h)) ∨
    ∃ h' T' l k r, h.remove comp key = .ok (.ok, h') ∧ h'.Inv comp dflt T' ∧ Same comp key k ∧
      T.toList = l ++ k :: r ∧ T'.toList = l ++ r := by
  let S := key :: T.toList
  have hS : ∀ k ∈ T.toList, k ∈ S := fun k hk => List.mem_cons_of_mem _ hk
  have hkey : key ∈ S := List.mem_cons_self
  have I' := I.translate hS
  -- the descents from the head
  have hclear : ∀ k, comp k dflt = false →
      HeapRel.Clear comp (Stands comp S) dflt (entryOf comp S k) := by
    rintro k hk k' ⟨hk', heq⟩
    obtain rfl := entryOf_inj hk' heq.symm
    exact hk
  have hsame : ∀ k ∈ T.toList, (entryOf comp S k).key = (entryOf comp S key).key →
      Same comp key k := fun k hk heq => (same_iff hkey (hS k hk)).mpr heq.symm
  have hup := SafeRemoval.removeUpward I' (hsafe.map hclear hsame)
  have hsim := (I.heapRel hS).remove_sim (represents comp S) ⟨hkey, rfl⟩ hup
  have hspec := L4rm.Avl.remove_spec (entryOf comp S key).key I'
  rw [toList_map] at hspec
  obtain ⟨hno, heq⟩ | ⟨h₁, T₁, l, r, d, heq, I₁, hl, hl'⟩ := hspec
  · obtain ⟨v, hv, hret, hunchanged, -⟩ := hsim _ heq
    refine .inl ⟨fun k hk hs => ?_, hv.trans ?_⟩
    · exact hno _ (List.mem_map_of_mem hk) ((same_iff hkey (hS k hk)).mp hs).symm
    · rw [← hunchanged (hret.trans_ne (show AvlRet.notFound ≠ .ok by decide)),
        show AvlRet.notFound = v.1 from hret.symm]
  · obtain ⟨⟨ret, h'⟩, hv, hret, -, hok⟩ := hsim _ heq
    obtain ⟨q, hq, H'⟩ := hok hret
    obtain ⟨l, r', hT, rfl, hr'⟩ := List.map_eq_append_iff.mp hl
    obtain ⟨k, r, rfl, hk, rfl⟩ := List.map_eq_cons_iff.mp hr'
    have hkT : k ∈ T.toList := by rw [hT]; simp
    have hE : ∀ p, p ∈ { p | (h.node p).isSome } \ {q} ↔ p ∈ (avlHead :: T.addrs).erase q := by
      intro p
      have hnodup : (avlHead :: T.addrs).Nodup :=
        List.nodup_cons.mpr ⟨I.head_notMem, I.rep.of_plug.nodup⟩
      rw [hnodup.mem_erase_iff, Set.mem_sdiff, Set.mem_ofPred_eq, Set.mem_singleton_iff, I.owned,
        List.mem_cons, and_comm]
    have hq' : q ∈ avlHead :: T.addrs := List.mem_cons.mpr ((I.owned q).mp hq)
    obtain ⟨T', I', hT', hS'⟩ := H'.inv I₁ hE (by
      rw [List.length_erase_of_mem hq', hl', List.length_append, List.length_map, List.length_map,
        List.length_cons, ← length_toList, hT, List.length_append, List.length_cons]
      omega)
    refine .inr ⟨h', T', l, k, r, ?_, I', hsame k hkT (by rw [hk]), hT, ?_⟩
    · rw [hv]
      exact congrArg (fun r => Except.ok (r, h')) hret
    · have hmap : T'.toList.map (entryOf comp S) = (l ++ r).map (entryOf comp S) := by
        rw [hT', hl', List.map_append]
      exact map_entryOf_inj hS' hmap

/-! ## Find -/

/-- What `find` returns for the tree `t`. -/
inductive Finds (comp : K → K → Bool) (h : AvlTree K) (key : K) (t : PTree K) :
    Except AvlFault Ptr → Prop
  | found {p n} (hp : p ∈ t.addrs) (hn : h.node p = some n) (hk : n.val ∈ t.toList)
    (hs : Same comp key n.val) : Finds comp h key t (.ok p)
  | absent (hno : ∀ k ∈ t.toList, ¬Same comp key k) : Finds comp h key t (.ok 0)

theorem findFrom (n : Nat) : ∀ {t : PTree K}, t.Holds h.node → 0 ∉ t.addrs →
    t.toList.Pairwise (fun a b => comp a b = true) → t.height ≤ n →
    Finds comp h key t (h.findFrom comp key (n + 1) t.ptr) := by
  induction n with
  | zero =>
    intro t _ _ _ hn
    cases t with
    | nil => exact .absent fun k hk => by cases hk
    | node => simp [PTree.height] at hn
  | succ n ih =>
    intro t ht h0 ho hn
    cases t with
    | nil => exact .absent fun k hk => by cases hk
    | node p v b l r =>
      obtain ⟨hp, hl, hr⟩ := ht
      simp only [addrs, List.mem_cons, List.mem_append, not_or] at h0
      simp only [toList, List.pairwise_append, List.pairwise_cons] at ho
      obtain ⟨hol, ⟨hvr, hor⟩, hlr⟩ := ho
      have hlv : ∀ k ∈ l.toList, comp k v = true := fun k hk => hlr k hk v List.mem_cons_self
      simp only [PTree.height] at hn
      have hload : h.load p = .ok ⟨v, b, l.ptr, r.ptr⟩ := by simp only [load, hp]; rfl
      have hstep : h.findFrom comp key (n + 1 + 1) p =
          (side comp key v).elim (.ok p) fun d =>
            h.findFrom comp key (n + 1) ((⟨v, b, l.ptr, r.ptr⟩ : TNode K).child d) := by
        rw [AvlTree.findFrom, if_neg (Ne.symm h0.1), hload, ok_bind]
        dsimp only
        cases side comp key v <;> rfl
      rw [ptr, hstep]
      unfold side
      cases hkv : comp key v with
      | true =>
        rw [if_pos rfl]
        have hfind := ih hl h0.2.1 hol (by omega)
        dsimp only [Option.elim, TNode.child]
        revert hfind
        generalize h.findFrom comp key (n + 1) l.ptr = res
        intro hfind
        cases hfind with
        | found hp hn hk hs => exact .found (by simp [addrs, hp]) hn (by simp [toList, hk]) hs
        | absent hno =>
          refine .absent fun k hk => ?_
          simp only [toList, List.mem_append, List.mem_cons] at hk
          obtain hk | rfl | hk := hk
          · exact hno k hk
          · exact fun hs => absurd hs.1 (by simp [hkv])
          · exact fun hs => absurd hs.1 (by simp [comp_trans hkv (hvr k hk)])
      | false =>
        rw [if_neg (by simp)]
        cases hvk : comp v key with
        | true =>
          rw [if_pos rfl]
          have hfind := ih hr h0.2.2 hor (by omega)
          dsimp only [Option.elim, TNode.child]
          revert hfind
          generalize h.findFrom comp key (n + 1) r.ptr = res
          intro hfind
          cases hfind with
          | found hp hn hk hs => exact .found (by simp [addrs, hp]) hn (by simp [toList, hk]) hs
          | absent hno =>
            refine .absent fun k hk => ?_
            simp only [toList, List.mem_append, List.mem_cons] at hk
            obtain hk | rfl | hk := hk
            · exact fun hs => absurd hs.2 (by simp [comp_trans (hlv k hk) hvk])
            · exact fun hs => absurd hs.2 (by simp [hvk])
            · exact hno k hk
        | false =>
          rw [if_neg (by simp)]
          exact .found (by simp [addrs]) hp (by simp [toList]) ⟨hkv, hvk⟩

/-- **`find`** returns the item with an equivalent key, or a null pointer. -/
theorem find (key : K) (I : h.Inv comp dflt T) : Finds comp h key T (h.find comp key) := by
  have hload : h.load avlHead = .ok ⟨dflt, 0, 0, T.ptr⟩ := by simp only [load, I.head]; rfl
  rw [AvlTree.find, hload]
  exact findFrom (h.height + 1) I.rep.of_plug.holds I.rep.of_plug.nonnull I.ordered
    (by rw [I.height]; omega)

end AvlTree.Inv

/-! ## The destructor -/

section
variable (comp : K → K → Bool) (dflt : K)

/-- The state before each round of the destructor that starts in `h`. -/
inductive AvlTree.Rounds (h : AvlTree K) : AvlTree K → Prop
  | start : Rounds h h
  | round {h₁ h₂ n nr ret} (hr : Rounds h h₁) (hn : h₁.node avlHead = some n)
    (hnr : h₁.node n.right = some nr) (heq : h₁.remove comp nr.val = .ok (ret, h₂)) : Rounds h h₂

/-- Rebalancing works if the item with this key is removed. -/
def AvlTree.SafeToRemove (h : AvlTree K) (key : K) : Prop :=
  ∀ T, h.Inv comp dflt T → SafeRemoval (fun k => comp k dflt = false) (Same comp key) T

/-- Rebalancing works in every round of the destructor. -/
def AvlTree.SafeToDestroy (h : AvlTree K) : Prop :=
  ∀ h₁ n nr, h.Rounds comp h₁ → h₁.node avlHead = some n → h₁.node n.right = some nr →
    h₁.SafeToRemove comp dflt nr.val

end

section
variable {comp : K → K → Bool} {dflt : K} {h h' : AvlTree K} {T : PTree K}
  [IsStrictWeakOrder K fun a b => comp a b = true]

/-- **The destructor** ends with the head as the only node. A node that is freed twice is a fault. -/
theorem AvlTree.Inv.destroy (n : Nat) : ∀ {h : AvlTree K} {T}, h.Inv comp dflt T →
    h.SafeToDestroy comp dflt → T.toList.length < n →
    ∃ h', AvlTree.destroy comp n h = .ok h' ∧ ∀ p, (h'.node p).isSome ↔ p = avlHead := by
  induction n with
  | zero => exact fun _ _ hn => absurd hn (Nat.not_lt_zero _)
  | succ n ih =>
    intro h T I hsafe hn
    have hload : h.load avlHead = .ok ⟨dflt, 0, 0, T.ptr⟩ := by simp only [load, I.head]; rfl
    cases T with
    | nil =>
      refine ⟨h, ?_, fun p => by rw [I.owned]; simp⟩
      rw [AvlTree.destroy, hload]
      rfl
    | node p v b l r =>
      have hp := I.rep.of_plug.holds.1
      have hp0 : p ≠ 0 := by rintro rfl; exact I.rep.of_plug.nonnull (by simp [addrs])
      have hroot : h.load p = .ok ⟨v, b, l.ptr, r.ptr⟩ := by simp only [load, hp]; rfl
      have hv : Same comp v v := ⟨comp_irrefl v, comp_irrefl v⟩
      have hspec := I.remove (hsafe h _ _ .start I.head hp _ I)
      obtain ⟨hno, -⟩ | ⟨h₁, T₁, l', k, r', heq, I₁, -, hl, hl'⟩ := hspec
      · exact absurd hv (hno v (by simp [toList]))
      · obtain ⟨h', hd, hfreed⟩ := ih I₁
          (fun h₂ m nr hr => hsafe h₂ m nr (hr.rec (.round .start I.head hp heq)
            fun _ hn hnr heq ih => .round ih hn hnr heq))
          (by rw [hl, List.length_append, List.length_cons] at hn
              rw [hl', List.length_append]
              omega)
        refine ⟨h', ?_, hfreed⟩
        rw [AvlTree.destroy, hload]
        simp only [ok_bind, ptr, if_neg hp0, hroot, heq]
        exact hd

end

/-! ## Refinement -/

/-- The operations of the tree; `new` is the answer of the node allocator. -/
inductive AvlOp (K : Type)
  | insert (key : K) (new : Option Ptr)
  | remove (key : K)
  | find (key : K)

inductive AvlOut
  | ret (r : AvlRet)
  | node (p : Ptr)
deriving DecidableEq

namespace AvlTree

def step (comp : K → K → Bool) (h : AvlTree K) : AvlOp K → Except AvlFault (AvlOut × AvlTree K)
  | .insert key new => do
    let (r, h) ← h.insert comp key new
    return (.ret r, h)
  | .remove key => do
    let (r, h) ← h.remove comp key
    return (.ret r, h)
  | .find key => do
    return (.node (← h.find comp key), h)

/-- The node allocator hands out nodes that are not in use. -/
def Fresh (h : AvlTree K) : AvlOp K → Prop
  | .insert _ new => ∀ q, new = some q → q ≠ 0 ∧ h.node q = none
  | .remove _ | .find _ => True

end AvlTree

section
variable (comp : K → K → Bool) (dflt : K)

/-- Rebalancing works in a removal, the other operations always work. -/
def AvlOp.Safe (h : AvlTree K) : AvlOp K → Prop
  | .insert _ _ | .find _ => True
  | .remove key => h.SafeToRemove comp dflt key

/-- The operations on a finite map, with the items `M` before and `M'` after them. -/
inductive AvlSpec (h : AvlTree K) (M : Set K) : AvlOp K → AvlOut → Set K → Prop
  | exists {key new k} (hk : k ∈ M) (hs : Same comp key k) :
    AvlSpec h M (.insert key new) (.ret .exists) M
  | noMem {key} (hno : ∀ k ∈ M, ¬Same comp key k) : AvlSpec h M (.insert key none) (.ret .noMem) M
  | inserted {key q} (hno : ∀ k ∈ M, ¬Same comp key k) :
    AvlSpec h M (.insert key (some q)) (.ret .ok) (insert key M)
  | removed {key k} (hk : k ∈ M) (hs : Same comp key k) :
    AvlSpec h M (.remove key) (.ret .ok) (M \ {k})
  | notFound {key} (hno : ∀ k ∈ M, ¬Same comp key k) : AvlSpec h M (.remove key) (.ret .notFound) M
  | found {key p n} (hp : p ≠ 0) (hn : h.node p = some n) (hk : n.val ∈ M)
    (hs : Same comp key n.val) : AvlSpec h M (.find key) (.node p) M
  | absent {key} (hno : ∀ k ∈ M, ¬Same comp key k) : AvlSpec h M (.find key) (.node 0) M

/-- The trees after the constructor and any sequence of operations. -/
inductive AvlReachable : AvlTree K → Prop
  | init : AvlReachable (.init dflt)
  | step {h h' op out} (hr : AvlReachable h) (hf : h.Fresh op) (hs : op.Safe comp dflt h)
    (heq : h.step comp op = .ok (out, h')) : AvlReachable h'

end

/-- The items of a tree. -/
def PTree.items (T : PTree K) : Set K := { k | k ∈ T.toList }

section
variable {comp : K → K → Bool} {dflt : K} {h h' : AvlTree K} {T : PTree K}

theorem AvlTree.init_inv : (AvlTree.init dflt).Inv comp dflt .nil where
  rep := by
    refine ⟨holds_bin.mpr ⟨?_, trivial, trivial⟩, ?_, ?_⟩
    · simp only [AvlTree.init]
      rfl
    · simp [plug, avlHeadFrame]
    · simp [avlHeadFrame, avlHead]
  ordered := .nil
  balanced := trivial
  height := rfl
  owned := by
    intro p
    rw [AvlTree.init]
    cases eq_or_ne p avlHead with
    | inl heq => simp [heq]
    | inr hne => simp [hne]

variable [IsStrictWeakOrder K fun a b => comp a b = true]

/-- One operation. -/
theorem AvlTree.Inv.step (I : h.Inv comp dflt T) {op : AvlOp K} (hf : h.Fresh op)
    (hs : op.Safe comp dflt h) :
    ∃ out h' T', h.step comp op = .ok (out, h') ∧ h'.Inv comp dflt T' ∧
      AvlSpec comp h (PTree.items T) op out (PTree.items T') ∧
      (∀ r, out = .ret r → r ≠ .ok → h' = h) ∧ out ≠ .ret .corrupted := by
  cases op with
  | insert key new =>
    obtain ⟨⟨k, hk, hsame⟩, heq⟩ | ⟨hno, ⟨rfl, heq⟩ | ⟨h', T', l, r, hsome, heq, I', hl, hl'⟩⟩ :=
      I.insert key hf
    · refine ⟨.ret .exists, h, T, ?_, I, .exists hk hsame, fun _ _ _ => rfl, nofun⟩
      simp only [AvlTree.step, heq]
      rfl
    · refine ⟨.ret .noMem, h, T, ?_, I, .noMem hno, fun _ _ _ => rfl, nofun⟩
      simp only [AvlTree.step, heq]
      rfl
    · obtain ⟨q, rfl⟩ := Option.isSome_iff_exists.mp hsome
      refine ⟨.ret .ok, h', T', ?_, I', ?_, ?_, nofun⟩
      · simp only [AvlTree.step, heq]
        rfl
      · have hitems : PTree.items T' = Insert.insert key (PTree.items T) := by
          ext k
          simp only [PTree.items, Set.mem_ofPred_eq, Set.mem_insert_iff, hl, hl', List.mem_append,
            List.mem_cons]
          tauto
        rw [hitems]
        exact .inserted hno
      · rintro r ⟨⟩ hne
        exact absurd rfl hne
  | remove key =>
    obtain ⟨hno, heq⟩ | ⟨h', T', l, k, r, heq, I', hsame, hl, hl'⟩ := I.remove (hs T I)
    · refine ⟨.ret .notFound, h, T, ?_, I, .notFound hno, fun _ _ _ => rfl, nofun⟩
      simp only [AvlTree.step, heq]
      rfl
    · refine ⟨.ret .ok, h', T', ?_, I', ?_, ?_, nofun⟩
      · simp only [AvlTree.step, heq]
        rfl
      · have hnd : (l ++ k :: r).Nodup := by
          rw [← hl]
          refine I.ordered.imp ?_
          rintro a b hab rfl
          have hself : comp a a = false := comp_irrefl a
          rw [hself] at hab
          cases hab
        have hnot := (List.nodup_cons.mp (List.nodup_middle.mp hnd)).1
        have hitems : PTree.items T' = PTree.items T \ {k} := by
          ext x
          simp only [PTree.items, Set.mem_ofPred_eq, Set.mem_sdiff, Set.mem_singleton_iff, hl, hl',
            List.mem_append, List.mem_cons] at hnot ⊢
          constructor
          · intro hx
            refine ⟨by tauto, ?_⟩
            rintro rfl
            exact hnot hx
          · tauto
        rw [hitems]
        exact .removed (show k ∈ T.toList by rw [hl]; simp) hsame
      · rintro r ⟨⟩ hne
        exact absurd rfl hne
  | find key =>
    have hfind := I.find key
    revert hfind
    generalize heq : h.find comp key = res
    intro hfind
    cases hfind with
    | found hp hn hk hsame =>
      refine ⟨.node _, h, T, ?_, I, .found ?_ hn hk hsame, fun _ _ _ => rfl, nofun⟩
      · simp only [AvlTree.step, heq]
        rfl
      · rintro rfl
        exact I.rep.of_plug.nonnull hp
    | absent hno =>
      refine ⟨.node 0, h, T, ?_, I, .absent hno, fun _ _ _ => rfl, nofun⟩
      simp only [AvlTree.step, heq]
      rfl

theorem AvlReachable.inv (hr : AvlReachable comp dflt h) : ∃ T, h.Inv comp dflt T := by
  induction hr with
  | init => exact ⟨.nil, AvlTree.init_inv⟩
  | step _ hf hs heq ih =>
    obtain ⟨T, I⟩ := ih
    obtain ⟨out, h', T', heq', I', -⟩ := I.step hf hs
    obtain ⟨-, rfl⟩ := Prod.mk.inj (Except.ok.inj (heq.symm.trans heq'))
    exact ⟨T', I'⟩

end

/-! ## Keys below the default key -/

instance (h : AvlTree K) (op : AvlOp K) : Decidable (h.Fresh op) :=
  match op with
  | .insert _ none => .isTrue fun _ hq => nomatch hq
  | .insert _ (some q) => decidable_of_iff (q ≠ 0 ∧ (h.node q).isNone)
    ⟨fun hq _ heq => Option.some.inj heq ▸ ⟨hq.1, Option.isNone_iff_eq_none.mp hq.2⟩,
      fun hf => (hf q rfl).imp_right Option.isNone_iff_eq_none.mpr⟩
  | .remove _ | .find _ => .isTrue trivial

/-- A run of insertions. -/
def AvlTree.insertAll (comp : K → K → Bool) (h : AvlTree K) : List (K × Ptr) → Option (AvlTree K)
  | [] => some h
  | (key, q) :: l =>
    if h.Fresh (.insert key (some q)) then
      match h.step comp (.insert key (some q)) with
      | .ok (_, h') => h'.insertAll comp l
      | .error _ => none
    else none

theorem AvlReachable.insertAll {comp : K → K → Bool} {dflt : K} {h h' : AvlTree K}
    {l : List (K × Ptr)} (hr : AvlReachable comp dflt h) (heq : h.insertAll comp l = some h') :
    AvlReachable comp dflt h' := by
  induction l generalizing h with
  | nil =>
    obtain rfl := Option.some.inj heq
    exact hr
  | cons x l ih =>
    obtain ⟨hf, heq⟩ := Option.ite_none_right_eq_some.mp heq
    cases hstep : h.step comp (.insert x.1 (some x.2)) with
    | error e =>
      rw [hstep] at heq
      cases heq
    | ok v =>
      rw [hstep] at heq
      exact ih (hr.step hf trivial hstep) heq

/-- The integers in their order. -/
abbrev intLess (a b : Int) : Bool := decide (a < b)

instance : IsStrictWeakOrder Int fun a b => intLess a b = true where
  irrefl a h := by simp [intLess] at h
  trans a b c h₁ h₂ := by
    simp only [intLess, decide_eq_true_eq] at *
    omega
  incomp_trans a b c h₁ h₂ := by
    simp only [intLess, decide_eq_true_eq] at *
    omega

end L4env.Cxx
