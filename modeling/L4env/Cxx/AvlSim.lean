import L4env.Cxx.AvlClimb
import L4env.Cxx.AvlTree
import L4env.L4rm.AvlMap
import L4env.Util.Simulates

/-!
# The AVL tree of the C++ library follows the one of L4RM

`Avl_tree_single` is the region tree of L4RM with a comparison in place of address ranges. If the keys
are represented by entries that compare in the same way, every operation does the same to the two
heaps, except for the descent of `remove` from the head: it compares with the key of the head, where
L4RM goes to the root at once.
-/

namespace L4env.Cxx

open L4rm (Entry Avl Avlt)

variable {K : Type}

/-- The entries compare like the keys they stand for. -/
structure Represents (comp : K → K → Bool) (V : K → Entry → Prop) : Prop where
  lower : ∀ {k e k' e'}, V k e → V k' e' → (comp k k' = true ↔ e.key.last < e'.key.start)
  equal : ∀ {k e k' e'}, V k e → V k' e' →
    (e.key = e'.key ↔ comp k k' = false ∧ comp k' k = false)

/-- Two nodes at `p` with the same balance factor and links. -/
structure NodeRel (V : K → Entry → Prop) (p : Ptr) (n : TNode K) (n' : Avlt) : Prop where
  val : p ≠ avlHead → V n.val n'.val
  b : n.b = n'.b
  left : n.left = n'.left
  right : n.right = n'.right
  low : -1 ≤ n.b
  high : n.b ≤ 1
  child : ∀ d, n.child d ≠ avlHead

/-- Two heaps with related nodes at the addresses `D`. -/
structure HeapRel (V : K → Entry → Prop) (dflt : K) (D : Set Ptr) (h : AvlTree K) (h' : Avl) :
    Prop where
  node : ∀ p, Option.Rel (NodeRel V p) (h.node p) (h'.node p)
  head : ∀ n, h.node avlHead = some n → n.val = dflt
  height : h.height = h'.treeHeight
  dom : ∀ p, p ∈ D ↔ (h.node p).isSome

section
variable {V : K → Entry → Prop} {comp : K → K → Bool} {dflt : K} {D : Set Ptr} {h : AvlTree K}
  {h' : Avl} {n m : TNode K} {n' m' : Avlt} {p q r s t : Ptr} {d : Dir} {b : Int} {k k' : K}
  {e e' : Entry}

theorem Represents.side (R : Represents comp V) (hk : V k e) (hk' : V k' e') :
    AvlTree.side comp k k' = e.key.side e'.key := by
  have h₁ := R.lower hk hk'
  have h₂ := R.lower hk' hk
  simp only [AvlTree.side, L4rm.Key.side, L4rm.Key.isLower, L4rm.Key.isGreater, h₁, h₂,
    decide_eq_true_eq]

theorem NodeRel.child_eq (N : NodeRel V p n n') (d : Dir) : n.child d = n'.child d := by
  cases d
  · exact N.left
  · exact N.right

theorem NodeRel.setChild (N : NodeRel V p n n') (hq : q ≠ avlHead) :
    NodeRel V p (n.setChild d q) (n'.setChild d q) := by
  cases d with
  | left =>
    refine ⟨N.val, N.b, rfl, N.right, N.low, N.high, fun e => ?_⟩
    cases e
    · exact hq
    · exact N.child .right
  | right =>
    refine ⟨N.val, N.b, N.left, rfl, N.low, N.high, fun e => ?_⟩
    cases e
    · exact N.child .left
    · exact hq

namespace HeapRel

/-- A node that one heap has, the other one has, too. -/
theorem load (H : HeapRel V dflt D h h') (p : Ptr) :
    Simulates (fun n n' => NodeRel V p n n' ∧ h.node p = some n ∧ h'.node p = some n')
      (h.load p) (h'.load p) := by
  intro n' hn'
  have hrel := H.node p
  unfold L4rm.Avl.load at hn'
  cases hp' : h'.node p with
  | none =>
    rw [hp'] at hn'
    cases hn'
  | some m' =>
    rw [hp'] at hn' hrel
    obtain rfl : m' = n' := Except.ok.inj hn'
    cases hp : h.node p with
    | none =>
      rw [hp] at hrel
      cases hrel
    | some n =>
      rw [hp] at hrel
      cases hrel with
      | some hrel => exact ⟨n, by rw [AvlTree.load, hp]; rfl, hrel, rfl, rfl⟩

theorem store (H : HeapRel V dflt D h h') (N : NodeRel V p n n')
    (hhead : p = avlHead → n.val = dflt) :
    HeapRel V dflt (insert p D) (h.store p n) (h'.store p n') where
  node := by
    intro a
    unfold AvlTree.store L4rm.Avl.store
    cases eq_or_ne a p with
    | inl heq =>
      subst heq
      simp only [Function.update_self]
      exact .some N
    | inr hne =>
      simp only [Function.update_of_ne hne]
      exact H.node a
  head := by
    intro m hm
    unfold AvlTree.store at hm
    cases eq_or_ne avlHead p with
    | inl heq =>
      subst heq
      simp only [Function.update_self] at hm
      obtain rfl := Option.some.inj hm
      exact hhead rfl
    | inr hne =>
      simp only [Function.update_of_ne hne] at hm
      exact H.head m hm
  height := H.height
  dom := by
    intro a
    rw [Set.mem_insert_iff]
    unfold AvlTree.store
    cases eq_or_ne a p with
    | inl heq => simp [heq]
    | inr hne => simp [hne, H.dom a]

/-- A write to a node that is there. -/
theorem write (H : HeapRel V dflt D h h') (N : NodeRel V p n n') (hp : h.node p = some m)
    (hval : n.val = m.val) : HeapRel V dflt D (h.store p n) (h'.store p n') := by
  have hD : insert p D = D := Set.insert_eq_of_mem ((H.dom p).mpr (by rw [hp]; rfl))
  have hstore := H.store N fun heq => hval.trans (H.head m (heq ▸ hp))
  rwa [hD] at hstore

theorem setChild (H : HeapRel V dflt D h h') (p : Ptr) (d : Dir) (hq : q ≠ avlHead) :
    Simulates (HeapRel V dflt D) (h.setChild p d q) (h'.setChild p d q) := by
  refine (H.load p).bind fun n n' ⟨N, hp, _⟩ => .pure ?_
  exact H.write (N.setChild hq) hp (by cases d <;> rfl)

theorem setBalance (H : HeapRel V dflt D h h') (p : Ptr) (hlow : -1 ≤ b) (hhigh : b ≤ 1) :
    Simulates (HeapRel V dflt D) (h.setBalance p b) (h'.setB p b) := by
  refine (H.load p).bind fun n n' ⟨N, hp, _⟩ => .pure ?_
  exact H.write ⟨N.val, rfl, N.left, N.right, hlow, hhigh, N.child⟩ hp rfl

theorem rotate (H : HeapRel V dflt D h h') (d : Dir) (hs : s ≠ avlHead) (r : Ptr) :
    Simulates (HeapRel V dflt D) (h.rotate d s r) (h'.rotateSingle d s r) := by
  refine (H.load r).bind fun n n' ⟨N, _, _⟩ => ?_
  rw [← N.child_eq]
  exact (H.setChild s d (N.child d.flip)).bind fun h₁ h₁' H₁ => H₁.setChild r d.flip hs

theorem replaceChild (H : HeapRel V dflt D h h') (t p : Ptr) (hr : r ≠ avlHead) :
    Simulates (HeapRel V dflt D) (h.replaceChild t p r) (h'.relink t p r) := by
  refine (H.load t).bind fun n n' ⟨N, _, _⟩ => ?_
  rw [← N.right]
  exact .ite Iff.rfl (fun _ => H.setChild t .right hr) fun _ => H.setChild t .left hr

theorem setSubtree (H : HeapRel V dflt D h h') (t s : Ptr) (hp : p ≠ avlHead) :
    Simulates (HeapRel V dflt D) (h.setSubtree t s p) (h'.setSubtree t s p) := by
  refine (H.load t).bind fun n n' ⟨N, _, _⟩ => ?_
  rw [← N.left]
  exact .ite Iff.rfl (fun _ => H.setChild t .left hp) fun _ => H.setChild t .right hp

theorem descendSide (H : HeapRel V dflt D h h') (R : Represents comp V) (hk : V k e)
    (hp : p ≠ avlHead) :
    Simulates (fun d d' => d = d') (h.descendSide comp k p) (h'.side e.key p) := by
  refine (H.load p).bind fun n n' ⟨N, _, _⟩ => .pure ?_
  have hlower := R.lower hk (N.val hp)
  simp only [hlower, L4rm.Key.isLower, decide_eq_true_eq]

/-! ## Insert -/

/-- Two nodes get their balance factors in either order. -/
theorem setB_comm {b' : Int} {α : Type} {k : Avl → Except L4rm.Fault α} (hne : p ≠ q) :
    (h'.setB p b >>= fun h' => h'.setB q b' >>= k) =
      (h'.setB q b' >>= fun h' => h'.setB p b >>= k) := by
  cases hp : h'.node p with
  | none =>
    cases hq : h'.node q with
    | none => simp only [L4rm.Avl.setB, L4rm.Avl.load, hp, hq]; rfl
    | some nq =>
      have hqp : (h'.store q { nq with b := b' }).node p = none := by
        rw [L4rm.Avl.store_of_ne hne, hp]
      rw [L4rm.Avl.setB_eq hq, ok_bind]
      simp only [L4rm.Avl.setB, L4rm.Avl.load, hp, hqp]
      rfl
  | some np =>
    rw [L4rm.Avl.setB_eq hp, ok_bind]
    cases hq : h'.node q with
    | none =>
      have hpq : (h'.store p { np with b := b }).node q = none := by
        rw [L4rm.Avl.store_of_ne hne.symm, hq]
      simp only [L4rm.Avl.setB, L4rm.Avl.load, hq, hpq]
      rfl
    | some nq =>
      rw [L4rm.Avl.setB_eq hq, ok_bind, L4rm.Avl.setB_eq (by rw [L4rm.Avl.store_of_ne hne.symm, hq]),
        L4rm.Avl.setB_eq (by rw [L4rm.Avl.store_of_ne hne, hp]), ok_bind, ok_bind]
      simp only [L4rm.Avl.store]
      rw [Function.update_comm hne]

/-- `adj_balance`, where L4RM writes the factor of `r` first. -/
theorem adjBalance_bind {α α' : Type} {S : α → α' → Prop} {k : AvlTree K → Except AvlFault α}
    {k' : Avl → Except L4rm.Fault α'} (H : HeapRel V dflt D h h') (hne : q ≠ r) (d : Dir)
    (hk : ∀ h₁ h₁', HeapRel V dflt D h₁ h₁' → Simulates S (k h₁) (k' h₁')) :
    Simulates S (h.adjBalance p q r d.sign >>= k) (do
      let pb := (← h'.load p).b
      let h' ← h'.setB r (if pb = d.sign then -d.sign else 0)
      let h' ← h'.setB q (if pb = 0 ∨ pb = d.sign then 0 else d.sign)
      let h' ← h'.setB p 0
      k' h') := by
  have hsign := d.sign_ne_zero
  have hrange : -1 ≤ d.sign ∧ d.sign ≤ 1 := by cases d <;> decide
  rw [AvlTree.adjBalance, bind_assoc]
  refine (H.load p).bind fun n n' ⟨N, _, _⟩ => ?_
  dsimp only
  rw [← N.b, setB_comm hne.symm, bind_assoc]
  have hq : (if n.b = 0 then 0 else if n.b = d.sign then 0 else d.sign) =
      if n.b = 0 ∨ n.b = d.sign then 0 else d.sign := by
    split_ifs <;> tauto
  have hr : (if n.b = 0 then 0 else if n.b = d.sign then -d.sign else 0) =
      if n.b = d.sign then -d.sign else 0 := by
    split_ifs <;> omega
  rw [hq, hr]
  refine (H.setBalance q ?_ ?_).bind fun h₁ h₁' H₁ => ?_
  · split_ifs <;> omega
  · split_ifs <;> omega
  rw [bind_assoc]
  refine (H₁.setBalance r ?_ ?_).bind fun h₂ h₂' H₂ => ?_
  · split_ifs <;> omega
  · split_ifs <;> omega
  exact (H₂.setBalance p (by decide) (by decide)).bind fun h₃ h₃' H₃ => hk h₃ h₃' H₃

theorem insertBalance (H : HeapRel V dflt D h h') (t : Ptr) (hs : s ≠ avlHead) (hr : r ≠ avlHead)
    (d : Dir) :
    Simulates (HeapRel V dflt D) (h.insertBalance t s r d) (h'.insertBalance t s r d) := by
  have hsign := d.sign_ne_zero
  have hrange : -1 ≤ d.sign ∧ d.sign ≤ 1 := by cases d <;> decide
  refine (H.load s).bind fun ns ns' ⟨Ns, hns, _⟩ => ?_
  rw [← Ns.b]
  refine .ite Iff.rfl (fun _ => ?_) fun h0 => .ite Iff.rfl (fun _ => ?_) fun hneg => ?_
  · refine (H.setBalance s hrange.1 hrange.2).bind fun h₁ h₁' H₁ => .pure ?_
    exact ⟨H₁.node, H₁.head, congrArg (· + 1) H₁.height, H₁.dom⟩
  · exact H.setBalance s (by decide) (by decide)
  refine (H.load r).bind fun nr nr' ⟨Nr, hnr, _⟩ => ?_
  rw [← Nr.b]
  refine .ite Iff.rfl (fun _ => ?_) fun hne => ?_
  · refine (H.rotate d hs r).bind fun h₁ h₁' H₁ => ?_
    refine (H₁.setBalance s (by decide) (by decide)).bind fun h₂ h₂' H₂ => ?_
    refine (H₂.setBalance r (by decide) (by decide)).bind fun h₃ h₃' H₃ => ?_
    exact H₃.setSubtree t s hr
  · -- the factors of `s` and `r` differ
    have hrs : r ≠ s := by
      rintro rfl
      obtain rfl := Option.some.inj (hns.symm.trans hnr)
      have hlow := Ns.low
      have hhigh := Ns.high
      cases d <;> simp only [Dir.sign] at hne hneg <;> omega
    refine (H.load r).bind fun nr nr' ⟨Nr, _, _⟩ => ?_
    dsimp only
    rw [L4rm.Avl.rotateDouble_eq, bind_assoc, ← Nr.child_eq]
    have hp := Nr.child d.flip
    refine (H.rotate d.flip hr _).bind fun h₁ h₁' H₁ => ?_
    refine (H₁.rotate d hs _).bind fun h₂ h₂' H₂ => ?_
    exact H₂.adjBalance_bind hrs d fun h₃ h₃' H₃ => H₃.setSubtree t s hp

/-- A place below the same nodes. -/
def PlaceRel (u : AvlTree.Place) (u' : L4rm.Avl.Place) : Prop :=
  u.t = u'.t ∧ u.s = u'.s ∧ u.p = u'.p ∧ u.d = u'.d ∧ u.s ≠ avlHead

theorem insertSearch (H : HeapRel V dflt D h h') (R : Represents comp V) (hk : V k e) (i : Nat) :
    ∀ t s p, s ≠ avlHead → p ≠ avlHead →
      Simulates (Option.Rel PlaceRel) (h.insertSearch comp k i t s p)
        (h'.insertSearch e.key i t s p) := by
  induction i with
  | zero => exact fun t s p _ _ => .throw
  | succ i ih =>
    intro t s p hs hp
    refine (H.load p).bind fun n n' ⟨N, _, _⟩ => ?_
    dsimp only
    rw [R.side hk (N.val hp)]
    cases e.key.side n'.val.key with
    | none => exact .pure .none
    | some d =>
      dsimp only
      rw [← N.child_eq]
      refine .ite Iff.rfl (fun _ => .pure (.some ⟨rfl, rfl, rfl, rfl, hs⟩)) fun _ => ?_
      refine (H.load _).bind fun m m' ⟨M, _, _⟩ => ?_
      rw [← M.b]
      exact .ite Iff.rfl (fun _ => ih p _ _ (N.child d) (N.child d))
        fun _ => ih t s _ hs (N.child d)

theorem insertAdjust (R : Represents comp V) (hk : V k e) (q : Ptr) (i : Nat) :
    ∀ {h h'} p, HeapRel V dflt D h h' → p ≠ avlHead →
      Simulates (HeapRel V dflt D) (h.insertAdjust comp k q i p) (h'.insertAdjust e.key q i p) := by
  induction i with
  | zero => exact fun p _ _ => .throw
  | succ i ih =>
    intro h h' p H hp
    refine .ite Iff.rfl (fun _ => .pure H) fun _ => ?_
    refine (H.descendSide R hk hp).bind fun d d' hd => ?_
    subst hd
    have hrange : -1 ≤ d.sign ∧ d.sign ≤ 1 := by cases d <;> decide
    refine (H.setBalance p hrange.1 hrange.2).bind fun h₁ h₁' H₁ => ?_
    refine (H₁.load p).bind fun n n' ⟨N, _, _⟩ => ?_
    rw [← N.child_eq]
    exact ih _ H₁ (N.child d)

theorem pair (H : HeapRel V dflt D h h') (hp' : h'.node p = some n') :
    ∃ n, h.node p = some n ∧ NodeRel V p n n' := by
  have hrel := H.node p
  rw [hp'] at hrel
  cases hp : h.node p with
  | none =>
    rw [hp] at hrel
    cases hrel
  | some n =>
    rw [hp] at hrel
    cases hrel with
    | some N => exact ⟨n, rfl, N⟩

theorem fuel_eq (H : HeapRel V dflt D h h') : h.fuel = h'.fuel := congrArg (· + 2) H.height

/-- The new node is stored before it is linked, or after. -/
theorem store_link (H : HeapRel V dflt D h h') (N : NodeRel V q m m') (hq : q ≠ avlHead)
    (hpq : p ≠ q) (hp' : h'.node p = some n') :
    ∃ h₁ h₁', h.setChild p d q = .ok h₁ ∧ (h.store q m).setChild p d q = .ok (h₁.store q m) ∧
      h'.setChild p d q = .ok h₁' ∧ (h'.store q m').setChild p d q = .ok (h₁'.store q m') ∧
      HeapRel V dflt (insert q D) (h₁.store q m) (h₁'.store q m') := by
  obtain ⟨n, hp, Np⟩ := H.pair hp'
  have hset' := L4rm.Avl.setChild_eq (d := d) (q := q) hp'
  obtain ⟨h₁, hset, H₁⟩ := H.setChild p d hq _ hset'
  refine ⟨h₁, _, hset, ?_, hset', ?_, H₁.store N fun h => absurd h hq⟩
  · simp only [AvlTree.setChild, AvlTree.load, hp] at hset
    obtain rfl := Except.ok.inj hset
    simp only [AvlTree.setChild, AvlTree.load, AvlTree.store, Function.update_of_ne hpq, hp]
    rw [Function.update_comm hpq]
    rfl
  · rw [L4rm.Avl.setChild_eq (by rw [L4rm.Avl.store_of_ne hpq, hp'])]
    simp only [L4rm.Avl.store]
    rw [Function.update_comm hpq]

theorem node_of_setChild {h₁' : Avl} (heq : h'.setChild p d q = .ok h₁') :
    ∃ n', h'.node p = some n' := by
  cases hp : h'.node p with
  | none =>
    simp only [L4rm.Avl.setChild, L4rm.Avl.load, hp] at heq
    cases heq
  | some n => exact ⟨n, rfl⟩

end HeapRel

/-- The result codes of L4RM. -/
def retOf : L4rm.AvltRet → AvlRet
  | .ok => .ok
  | .notFound => .notFound
  | .noMem => .noMem
  | .exists => .exists
  | .inval => .corrupted

/-- The results of `insert`: the new node is in the heap, or nothing is changed. -/
def Inserted (V : K → Entry → Prop) (dflt : K) (D : Set Ptr) (h : AvlTree K) (new : Option Ptr)
    (v : AvlRet × AvlTree K) (v' : L4rm.AvltRet × Avl) : Prop :=
  v.1 = retOf v'.1 ∧ (v.1 ≠ .ok → v.2 = h) ∧
    (v.1 = .ok → ∃ q, new = some q ∧ HeapRel V dflt (insert q D) v.2 v'.2)

theorem HeapRel.insert_sim {new : Option Ptr} (H : HeapRel V dflt D h h') (R : Represents comp V)
    (hk : V k e) (hnew : ∀ q, new = some q → h.node q = none) :
    Simulates (Inserted V dflt D h new) (h.insert comp k new) (h'.insert e.key e.data new) := by
  have hleaf : ∀ q, NodeRel V q ⟨k, 0, 0, 0⟩ ⟨e, 0, 0, 0⟩ := by
    intro q
    refine ⟨fun _ => hk, rfl, rfl, rfl, ?_, ?_, fun d => ?_⟩
    · exact show (-1 : Int) ≤ 0 by decide
    · exact show (0 : Int) ≤ 1 by decide
    · cases d <;> exact show (0 : Nat) ≠ 1 by decide
  have hne : ∀ {q p n'}, new = some q → h'.node p = some n' → p ≠ q := by
    rintro q p n' hq hp' rfl
    obtain ⟨n, hp, -⟩ := H.pair hp'
    rw [hnew p hq] at hp
    cases hp
  refine (H.load avlHead).bind fun n n' ⟨N, hn, hn'⟩ => ?_
  dsimp only
  rw [← N.right]
  have hroot : n.right ≠ avlHead := N.child .right
  refine .ite Iff.rfl (fun _ => ?_) fun _ => ?_
  · cases new with
    | none => exact .pure ⟨rfl, fun _ => rfl, nofun⟩
    | some q =>
      have hq := hne rfl hn'
      obtain ⟨h₁, h₁', hset, -, -, hset', H₁⟩ :=
        H.store_link (d := .right) (hleaf q) hq.symm hq hn'
      dsimp only
      rw [hset, ok_bind]
      refine .skip fun v hv => ?_
      obtain rfl := Except.ok.inj (hset'.symm.trans hv)
      refine .pure ⟨rfl, fun h => absurd rfl h, fun _ => ⟨q, rfl, H₁.node, H₁.head, rfl, H₁.dom⟩⟩
  rw [H.fuel_eq]
  refine (H.insertSearch R hk _ _ _ _ hroot hroot).bind fun u u' hu => ?_
  cases hu with
  | none => exact .pure ⟨rfl, fun _ => rfl, nofun⟩
  | @some u u' hu =>
    obtain ⟨t, s, p, d⟩ := u
    obtain ⟨t', s', p', d'⟩ := u'
    obtain ⟨rfl, rfl, rfl, rfl, hs⟩ := hu
    cases new with
    | none => exact .pure ⟨rfl, fun _ => rfl, nofun⟩
    | some q =>
      dsimp only at hs ⊢
      refine .skip fun v hv => .skip fun _ _ => ?_
      obtain ⟨np, hp'⟩ := HeapRel.node_of_setChild hv
      obtain ⟨h₁, h₁', -, hset, hset', -, H₁⟩ :=
        H.store_link (d := d) (hleaf q) (hne rfl hn').symm (hne rfl hp') hp'
      obtain rfl := Except.ok.inj (hset'.symm.trans hv)
      rw [hset, ok_bind]
      refine (H₁.descendSide R hk hs).bind fun a a' ha => ?_
      subst ha
      refine (H₁.load s).bind fun ns ns' ⟨Ns, _, _⟩ => ?_
      have hr := Ns.child a
      rw [← Ns.child_eq, H₁.fuel_eq]
      refine (HeapRel.insertAdjust R hk q _ _ H₁ hr).bind fun h₂ h₂' H₂ => ?_
      refine (H₂.insertBalance t hs hr a).bind fun h₃ h₃' H₃ => .pure ?_
      exact ⟨rfl, fun h => absurd rfl h, fun _ => ⟨q, rfl, H₃⟩⟩

/-! ## Remove -/

namespace HeapRel

/-- `adj_balance` of the right side, in the order of L4RM. -/
theorem adjBalance_right {α α' : Type} {S : α → α' → Prop} {f : AvlTree K → Except AvlFault α}
    {f' : Avl → Except L4rm.Fault α'} (H : HeapRel V dflt D h h')
    (hf : ∀ h₁ h₁', HeapRel V dflt D h₁ h₁' → Simulates S (f h₁) (f' h₁')) :
    Simulates S (h.adjBalance p q r (-1) >>= f) (do
      let pb := (← h'.load p).b
      let h' ← h'.setB q (if pb = Dir.right.sign then -Dir.right.sign else 0)
      let h' ← h'.setB r (if pb = 0 ∨ pb = Dir.right.sign then 0 else Dir.right.sign)
      let h' ← h'.setB p 0
      f' h') := by
  rw [AvlTree.adjBalance, bind_assoc]
  refine (H.load p).bind fun n n' ⟨N, _, _⟩ => ?_
  have hlow := N.low
  have hhigh := N.high
  dsimp only [Dir.sign]
  rw [← N.b, bind_assoc]
  have hq : (if n.b = 0 then 0 else if n.b = -1 then 0 else -1) = if n.b = 1 then -1 else (0 : Int) := by
    split_ifs <;> omega
  have hr : (if n.b = 0 then 0 else if n.b = -1 then -(-1) else 0) =
      if n.b = 0 ∨ n.b = 1 then 0 else (1 : Int) := by
    split_ifs <;> omega
  rw [hq, hr]
  refine (H.setBalance q ?_ ?_).bind fun h₁ h₁' H₁ => ?_
  · split_ifs <;> omega
  · split_ifs <;> omega
  rw [bind_assoc]
  refine (H₁.setBalance r ?_ ?_).bind fun h₂ h₂' H₂ => ?_
  · split_ifs <;> omega
  · split_ifs <;> omega
  exact (H₂.setBalance p (by decide) (by decide)).bind fun h₃ h₃' H₃ => hf h₃ h₃' H₃

theorem rebalanceNode (H : HeapRel V dflt D h h') (t : Ptr) (hp : p ≠ avlHead) (a : Dir) :
    Simulates (fun v v' => HeapRel V dflt D v.1 v'.1 ∧ v.2 = v'.2 ∧ v.2.1 ≠ avlHead)
      (h.rebalanceNode t p a) (h'.rebalanceNode t p a) := by
  have hsign := a.sign_ne_zero
  have hrange : -1 ≤ a.sign ∧ a.sign ≤ 1 := by cases a <;> decide
  refine (H.load p).bind fun n n' ⟨N, hn, _⟩ => ?_
  dsimp only
  rw [← N.b, ← N.child_eq]
  have hr := N.child a
  refine .ite Iff.rfl (fun _ => ?_) fun hneg => .ite Iff.rfl (fun _ => ?_) fun h0 => ?_
  · exact (H.setBalance p (by decide) (by decide)).bind fun h₁ h₁' H₁ => .pure ⟨H₁, rfl, hp⟩
  · exact (H.setBalance p hrange.1 hrange.2).bind fun h₁ h₁' H₁ => .pure ⟨H₁, rfl, hp⟩
  refine (H.load _).bind fun nr nr' ⟨Nr, hnr, _⟩ => ?_
  rw [← Nr.b]
  refine .ite Iff.rfl (fun _ => ?_) fun hr0 => .ite Iff.rfl (fun _ => ?_) fun hne => ?_
  · refine (H.rotate a hp _).bind fun h₁ h₁' H₁ => ?_
    refine (H₁.setBalance p hrange.1 hrange.2).bind fun h₂ h₂' H₂ => ?_
    refine (H₂.setBalance _ (by omega) (by omega)).bind fun h₃ h₃' H₃ => ?_
    exact (H₃.replaceChild t p hr).bind fun h₄ h₄' H₄ => .pure ⟨H₄, rfl, hp⟩
  · refine (H.rotate a hp _).bind fun h₁ h₁' H₁ => ?_
    refine (H₁.setBalance p (by decide) (by decide)).bind fun h₂ h₂' H₂ => ?_
    refine (H₂.setBalance _ (by decide) (by decide)).bind fun h₃ h₃' H₃ => ?_
    exact (H₃.replaceChild t p hr).bind fun h₄ h₄' H₄ => .pure ⟨H₄, rfl, hr⟩
  · -- the factors of `p` and its child differ
    have hrp : n.child a ≠ p := by
      intro heq
      rw [heq] at hnr
      obtain rfl := Option.some.inj (hn.symm.trans hnr)
      have hlow := N.low
      have hhigh := N.high
      cases a <;> simp only [Dir.sign] at hne hneg <;> omega
    refine (H.load _).bind fun no no' ⟨No, _, _⟩ => ?_
    rw [L4rm.Avl.rotateDouble_eq, bind_assoc, ← No.child_eq]
    have ho := No.child a.flip
    refine (H.rotate a.flip hr _).bind fun h₁ h₁' H₁ => ?_
    refine (H₁.rotate a hp _).bind fun h₂ h₂' H₂ => ?_
    refine (H₂.replaceChild t p ho).bind fun h₃ h₃' H₃ => ?_
    cases a with
    | left => exact H₃.adjBalance_bind hrp .left fun h₄ h₄' H₄ => .pure ⟨H₄, rfl, ho⟩
    | right => exact H₃.adjBalance_right fun h₄ h₄' H₄ => .pure ⟨H₄, rfl, ho⟩

theorem higherSide (H : HeapRel V dflt D h h') (p q : Ptr) :
    Simulates (fun a a' => a = some a') (h.higherSide p q) (h'.higherSide p q) := by
  refine (H.load p).bind fun n n' ⟨N, _, _⟩ => ?_
  rw [← N.left, ← N.right]
  intro a ha
  split_ifs at ha with h₁ h₂
  · exact ⟨_, rfl, by rw [if_pos h₁, Except.ok.inj ha]⟩
  · exact ⟨_, rfl, by rw [if_neg h₁, if_pos h₂, Except.ok.inj ha]⟩

theorem descend (H : HeapRel V dflt D h h') (R : Represents comp V) (hk : V k e) (r : Ptr)
    (i : Nat) : ∀ j t p, i ≤ j → p ≠ avlHead →
      Simulates (fun v v' => v = v' ∧ v.2 ≠ avlHead) (h.descend comp k r j t p)
        (h'.descend e.key r i t p) := by
  induction i with
  | zero => exact fun j t p _ _ => .throw
  | succ i ih =>
    intro j t p hij hp
    obtain ⟨j, rfl⟩ := Nat.exists_eq_add_of_le' (Nat.le_trans (Nat.le_add_left 1 i) hij)
    refine .ite Iff.rfl (fun _ => .pure ⟨rfl, hp⟩) fun _ => ?_
    refine (H.descendSide R hk hp).bind fun d d' hd => ?_
    subst hd
    refine (H.load p).bind fun n n' ⟨N, _, _⟩ => ?_
    rw [← N.child_eq]
    exact ih j p _ (Nat.le_of_succ_le_succ hij) (N.child d)

/-- The descent from the head goes to the root, where L4RM begins. -/
theorem descend_head (H : HeapRel V dflt D h h') (R : Represents comp V) (hk : V k e)
    (hr : r ≠ avlHead) (hcomp : comp k dflt = false) (i : Nat) :
    Simulates (fun v v' => v = v' ∧ v.2 ≠ avlHead) (h.descend comp k r (i + 1) avlHead avlHead)
      (h'.descentStart avlHead >>= fun p => h'.descend e.key r i avlHead p) := by
  rw [L4rm.Avl.descentStart, if_pos (show avlHead = L4rm.treeHead from rfl), bind_assoc]
  refine .skip fun n' hn' => ?_
  obtain ⟨n, hload, N, hp, -⟩ := H.load avlHead n' hn'
  have hne : ¬(avlHead = 0 ∨ avlHead = r) := by
    rintro (h0 | h0)
    · cases h0
    · exact hr h0.symm
  rw [AvlTree.descend, if_neg hne, AvlTree.descendSide, hload, ok_bind, H.head n hp, hcomp, pure_bind,
    show n'.right = n.right from N.right.symm]
  exact H.descend R hk r i i _ _ (Nat.le_refl i) (N.child .right)

/-- The keys of the entry are not less than the one of the head. -/
def Clear (comp : K → K → Bool) (V : K → Entry → Prop) (dflt : K) (e : Entry) : Prop :=
  ∀ k, V k e → comp k dflt = false

theorem rebalance (R : Represents comp V) (s : Ptr) (i : Nat) :
    ∀ {h h'} t p a, HeapRel V dflt D h h' → p ≠ avlHead →
      (s = avlHead → Climbs (Clear comp V dflt) i h' t p a) →
      Simulates (fun v v' => v.1 = .ok ∧ HeapRel V dflt D v.2 v') (h.rebalance comp s i t p a)
        (h'.rebalance s i t p a) := by
  induction i with
  | zero => exact fun t p a _ _ _ => .throw
  | succ i ih =>
    intro h h' t p a H hp hclimb
    refine (H.rebalanceNode t hp a).and_ok.bind ?_
    rintro ⟨h₁, q, done⟩ ⟨h₁', q', done'⟩ ⟨_, hstep, H₁, heq, hq⟩
    obtain ⟨rfl, rfl⟩ := Prod.mk.inj heq
    dsimp only at H₁ hq ⊢
    refine .ite Iff.rfl (fun _ => .pure ⟨rfl, H₁⟩) fun hdone => .ite Iff.rfl (fun hts => ?_)
      fun hts => ?_
    · refine .ite Iff.rfl (fun _ => .pure ⟨rfl, ?_⟩) fun hs => ?_
      · exact ⟨H₁.node, H₁.head, congrArg (· - 1) H₁.height, H₁.dom⟩
      · refine (H₁.higherSide s q).bind fun d d' hd => .skip fun _ _ => .skip fun _ _ => ?_
        subst hd
        exact ih t s d' H₁ hs fun h => absurd h hs
    · refine (H₁.load q).bind ?_
      rintro n n' ⟨N, _, hn'⟩
      have hv := N.val hq
      rw [Bool.not_eq_true] at hdone
      subst hdone
      have hclimb := fun hs : s = avlHead => hclimb hs h₁' q n' hstep (fun ht => hts (ht.trans hs.symm)) hn'
      have hdescend : Simulates (fun v v' => v = v' ∧ v.2 ≠ avlHead)
          (h₁.descend comp n.val t (h₁.fuel + 1) s s)
          (h₁'.descentStart s >>= fun p => h₁'.descend n'.val.key t h₁'.fuel s p) := by
        rw [H₁.fuel_eq]
        cases eq_or_ne s avlHead with
        | inl hs =>
          subst hs
          exact H₁.descend_head R hv hts ((hclimb rfl).1 _ hv) _
        | inr hs =>
          rw [L4rm.Avl.descentStart, if_neg (show s ≠ L4rm.treeHead from hs)]
          exact H₁.descend R hv t _ _ s s (Nat.le_succ _) hs
      rw [← bind_assoc]
      refine hdescend.and_ok.bind ?_
      rintro v v' ⟨_, hdesc, hvv, hp'⟩
      subst hvv
      refine .skip fun _ _ => ?_
      refine (H₁.higherSide _ q).and_ok.bind ?_
      rintro d d' ⟨_, hside, hd⟩
      subst hd
      refine .skip fun _ _ => ?_
      refine ih _ _ d' H₁ hp' fun hs => ?_
      subst hs
      obtain ⟨top, hstart, hdesc⟩ := of_bind_ok hdesc
      exact (hclimb rfl).2 top _ _ _ hstart hdesc hside

theorem freeNode (H : HeapRel V dflt D h h') (q : Ptr) :
    Simulates (fun v v' => q ∈ D ∧ HeapRel V dflt (D \ {q}) v v') (h.freeNode q)
      (h'.freeNode q) := by
  refine (H.load q).bind fun n n' ⟨N, hq, _⟩ => .pure ⟨(H.dom q).mpr (by rw [hq]; rfl), ?_⟩
  refine ⟨fun a => ?_, fun m hm => ?_, H.height, fun a => ?_⟩
  · cases eq_or_ne a q with
    | inl heq =>
      subst heq
      simp only [Function.update_self]
      exact .none
    | inr hne =>
      simp only [Function.update_of_ne hne]
      exact H.node a
  · cases eq_or_ne avlHead q with
    | inl heq =>
      subst heq
      simp at hm
    | inr hne =>
      simp only [Function.update_of_ne hne] at hm
      exact H.head m hm
  · rw [Set.mem_sdiff, Set.mem_singleton_iff, H.dom a]
    cases eq_or_ne a q with
    | inl heq => simp [heq]
    | inr hne => simp [hne]

theorem unlink (H : HeapRel V dflt D h h') (p q : Ptr) (d : Dir) :
    Simulates (fun v v' => q ∈ D ∧ HeapRel V dflt (D \ {q}) v v') (h.unlink p q d)
      (h'.unlink p q d) := by
  refine (H.load q).bind fun n n' ⟨N, _, _⟩ => ?_
  rw [← N.left, ← N.right]
  refine (H.setChild p d ?_).bind fun h₁ h₁' H₁ => H₁.freeNode q
  split_ifs
  · exact N.child .left
  · exact N.child .right

/-- The same pointers: `q` is a node of the tree or null, and the root if `p` is the head. -/
def TraceRel (root : Ptr) (u : AvlTree.Trace) (u' : L4rm.Avl.Trace) : Prop :=
  u.s = u'.s ∧ u.t = u'.t ∧ u.p = u'.p ∧ u.q = u'.q ∧ u.q ≠ avlHead ∧
    (u.p = avlHead → u.q = root)

theorem removeSearch (H : HeapRel V dflt D h h') (R : Represents comp V) (hk : V k e) (i : Nat) :
    ∀ s t p q, q ≠ avlHead → (p = avlHead → q = r) →
      Simulates (Option.Rel (TraceRel r)) (h.removeSearch comp k i ⟨s, t, p, q⟩)
        (h'.removeSearch e.key i ⟨s, t, p, q⟩) := by
  induction i with
  | zero => exact fun s t p q _ _ => .throw
  | succ i ih =>
    intro s t p q hq hp
    refine .ite Iff.rfl (fun _ => .pure .none) fun _ => ?_
    refine (H.load q).bind fun n n' ⟨N, _, _⟩ => ?_
    have hv := N.val hq
    refine .ite ?_ (fun _ => .pure (.some ⟨rfl, rfl, rfl, rfl, hq, hp⟩)) fun _ => ?_
    · rw [L4rm.Avl.isEqual_iff, R.equal hk hv]
      simp
    dsimp only
    rw [R.side hk hv, ← N.b]
    cases e.key.side n'.val.key with
    | none => exact .pure .none
    | some d =>
      dsimp only
      rw [← N.child_eq]
      exact ih _ p q _ (N.child d) fun h => absurd h hq

theorem predecessor (H : HeapRel V dflt D h h') (i : Nat) :
    ∀ s t p q, p ≠ avlHead → q ≠ avlHead →
      Simulates (TraceRel r) (h.predecessor i ⟨s, t, p, q⟩) (h'.predecessor i ⟨s, t, p, q⟩) := by
  induction i with
  | zero => exact fun s t p q _ _ => .throw
  | succ i ih =>
    intro s t p q hp hq
    refine (H.load q).bind fun n n' ⟨N, _, _⟩ => ?_
    rw [← N.b, ← N.right]
    exact .ite Iff.rfl (fun _ => .pure ⟨rfl, rfl, rfl, rfl, hq, fun h => absurd h hp⟩)
      fun _ => ih _ p q _ hq (N.child .right)

/-- The last part of `remove`. -/
theorem removeNode (H : HeapRel V dflt D h h') (R : Represents comp V) {s t p q : Ptr}
    (hp : p = avlHead → ∀ n, h.node avlHead = some n → q = n.right)
    (hclimb : Upward (Clear comp V dflt) h' ⟨s, t, p, q⟩) :
    Simulates (fun v v' => v.1 = .ok ∧ q ∈ D ∧ HeapRel V dflt (D \ {q}) v.2 v')
      (h.removeNode comp ⟨s, t, p, q⟩) (h'.removeNode ⟨s, t, p, q⟩) := by
  refine (H.load q).bind fun n n' ⟨N, _, _⟩ => .skip fun _ _ => ?_
  refine (H.load avlHead).bind fun m m' ⟨M, hm, hm'⟩ => ?_
  rw [← N.left, ← N.right, ← M.right]
  have hleft : n.left ≠ avlHead := N.child .left
  have hright : n.right ≠ avlHead := N.child .right
  refine .ite Iff.rfl (fun _ => .ite Iff.rfl (fun _ => ?_) fun _ => ?_) fun hroot => ?_
  · refine (H.setChild _ .right (by decide)).bind fun h₁ h₁' H₁ => ?_
    refine (H₁.freeNode q).bind fun h₂ h₂' ⟨hq, H₂⟩ => .pure ⟨rfl, hq, ?_⟩
    exact ⟨H₂.node, H₂.head, rfl, H₂.dom⟩
  · refine (H.setChild _ .right ?_).bind fun h₁ h₁' H₁ => ?_
    · split_ifs <;> assumption
    refine (H₁.freeNode q).bind fun h₂ h₂' ⟨hq, H₂⟩ => .pure ⟨rfl, hq, ?_⟩
    exact ⟨H₂.node, H₂.head, congrArg (· - 1) H₂.height, H₂.dom⟩
  · refine .skip fun _ _ => ?_
    refine (H.load p).bind fun np np' ⟨Np, _, hnp'⟩ => ?_
    dsimp only
    rw [Np.right]
    refine (H.unlink p q _).and_ok.bind fun h₁ h₁' ⟨_, hunlink, hq, H₁⟩ => ?_
    rw [H₁.fuel_eq]
    have hp' : p ≠ avlHead := fun hpe => hroot (hp hpe m hm)
    refine (HeapRel.rebalance R s _ t p _ H₁ hp' fun hs => ?_).imp
      fun v v' ⟨h₁, h₂⟩ => ⟨h₁, hq, h₂⟩
    exact hclimb hs m' np' h₁' hm' (M.right ▸ hroot) hnp' hunlink

end HeapRel

/-- The results of `remove`: one node is freed, or nothing is changed. -/
def Removed (V : K → Entry → Prop) (dflt : K) (D : Set Ptr) (h : AvlTree K)
    (v : AvlRet × AvlTree K) (v' : L4rm.AvltRet × Avl) : Prop :=
  v.1 = retOf v'.1 ∧ (v.1 ≠ .ok → v.2 = h) ∧
    (v.1 = .ok → ∃ q ∈ D, HeapRel V dflt (D \ {q}) v.2 v'.2)

theorem HeapRel.remove_sim (H : HeapRel V dflt D h h') (R : Represents comp V) (hk : V k e)
    (hclimb : RemoveUpward (HeapRel.Clear comp V dflt) h' e.key) :
    Simulates (Removed V dflt D h) (h.remove comp k) (h'.remove e.key) := by
  refine (H.load avlHead).bind fun n n' ⟨N, hn, hn'⟩ => ?_
  dsimp only
  rw [← N.right, H.fuel_eq]
  have hroot : n.right ≠ avlHead := N.child .right
  refine (H.removeSearch (r := n.right) R hk _ _ _ _ _ hroot fun _ => rfl).and_ok.bind
    fun u u' ⟨_, hsearch, hu⟩ => ?_
  rw [N.right] at hsearch
  cases hu with
  | none => exact .pure ⟨rfl, fun _ => rfl, nofun⟩
  | @some u u' hu =>
    obtain ⟨s, t, p, q⟩ := u
    obtain ⟨s', t', p', q'⟩ := u'
    obtain ⟨rfl, rfl, rfl, rfl, hq, hp⟩ := hu
    dsimp only at hq hp ⊢
    refine (H.load q).bind fun nq nq' ⟨Nq, hnq, hnq'⟩ => ?_
    have hclimb := hclimb n' _ nq' hn' hsearch hnq'
    rw [← Nq.left, ← Nq.right, ← Nq.b] at hclimb ⊢
    have hleft : nq.left ≠ avlHead := Nq.child .left
    refine .ite Iff.rfl (fun hboth => ?_) fun hone => ?_
    · refine (H.predecessor (r := n.right) _ _ _ _ _ hq hleft).and_ok.bind
        fun u u' ⟨_, hpred, hu⟩ => ?_
      obtain ⟨s₁, t₁, p₁, q₁⟩ := u
      obtain ⟨s₁', t₁', p₁', q₁'⟩ := u'
      obtain ⟨rfl, rfl, rfl, rfl, hq₁, hp₁⟩ := hu
      dsimp only at hq₁ hp₁ ⊢
      refine (H.load q₁).bind fun nr nr' ⟨Nr, _, hnr'⟩ => ?_
      have hnode : NodeRel V q { nq with val := nr.val } ⟨nr'.val, nq.b, nq.left, nq.right⟩ := by
        refine ⟨fun _ => Nr.val hq₁, rfl, rfl, rfl, Nq.low, Nq.high, fun d => ?_⟩
        cases d
        · exact Nq.child .left
        · exact Nq.child .right
      have H₁ := H.store hnode fun h => absurd h hq
      rw [Set.insert_eq_of_mem ((H.dom q).mpr (by rw [hnq]; rfl))] at H₁
      rw [if_pos hboth] at hclimb
      have hp₁' : p₁ = avlHead →
          ∀ n, (h.store q { nq with val := nr.val }).node avlHead = some n → q₁ = n.right := by
        intro hpe m hm
        simp only [AvlTree.store, Function.update_of_ne (Ne.symm hq), hn] at hm
        rw [← Option.some.inj hm]
        exact hp₁ hpe
      intro v' hv'
      obtain ⟨w', hw', hv'⟩ := of_bind_ok hv'
      obtain rfl := Except.ok.inj hv'
      obtain ⟨v, hv, hok, hfreed, H₂⟩ := H₁.removeNode R hp₁' (hclimb _ _ hpred hnr') w' hw'
      exact ⟨v, hv, hok, fun hne => absurd hok hne, fun _ => ⟨q₁, hfreed, H₂⟩⟩
    · rw [if_neg hone] at hclimb
      have hp' : p = avlHead → ∀ n, h.node avlHead = some n → q = n.right := by
        intro hpe m hm
        rw [hn] at hm
        rw [← Option.some.inj hm]
        exact hp hpe
      intro v' hv'
      obtain ⟨w', hw', hv'⟩ := of_bind_ok hv'
      obtain rfl := Except.ok.inj hv'
      obtain ⟨v, hv, hok, hfreed, H₂⟩ := H.removeNode R hp' hclimb w' hw'
      exact ⟨v, hv, hok, fun hne => absurd hok hne, fun _ => ⟨q, hfreed, H₂⟩⟩

end

end L4env.Cxx
