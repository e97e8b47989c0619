import L4env.Util.Meets
import L4env.Util.PtrTree

/-!
# The AVL tree of the C++ library

`cxx::Avl_tree_single` for any type of keys and any comparison. The heap maps the pointers of the
allocated nodes to their contents; an access through a null pointer or to a freed node is a fault, and
so is a loop that runs longer than the tree is high. `_head` is a node of its own: the tree is its
right subtree, and its key is a default-constructed one.

Branches of the source that are mirror images of each other are one definition with the side as
parameter. The source's `a` is the sign of that side: of the subtree that has grown for insertions, of
the subtree that is now higher for removals.
-/

namespace L4env.Cxx

abbrev Ptr := Nat

inductive AvlFault where
  /-- An access through a null pointer or to a freed node. -/
  | badPointer
  | diverges
deriving DecidableEq, Repr

/-- The results `0`, `-1`, `-2`, `-3` and `-4`. -/
inductive AvlRet where
  | ok
  | noMem
  | exists
  | notFound
  | corrupted
deriving DecidableEq, Repr

/-- `&_head` -/
def avlHead : Ptr := 1

structure AvlTree (K : Type) where
  node : Ptr → Option (TNode K)
  height : Nat

namespace AvlTree
variable {K : Type}

/-- The constructor, `dflt` is the default-constructed key. -/
def init (dflt : K) : AvlTree K where
  node := Function.update (fun _ => none) avlHead (some ⟨dflt, 0, 0, 0⟩)
  height := 0

def load (h : AvlTree K) (p : Ptr) : Except AvlFault (TNode K) :=
  match h.node p with
  | some n => pure n
  | none => throw .badPointer

def store (h : AvlTree K) (p : Ptr) (n : TNode K) : AvlTree K :=
  { h with node := Function.update h.node p (some n) }

/-- `p->left = q` or `p->right = q` -/
def setChild (h : AvlTree K) (p : Ptr) (d : Dir) (q : Ptr) : Except AvlFault (AvlTree K) := do
  let n ← h.load p
  pure (h.store p (n.setChild d q))

/-- `p->_balance = b` -/
def setBalance (h : AvlTree K) (p : Ptr) (b : Int) : Except AvlFault (AvlTree K) := do
  let n ← h.load p
  pure (h.store p { n with b := b })

/-- `p->~Node(); _alloc.free(p)` -/
def freeNode (h : AvlTree K) (p : Ptr) : Except AvlFault (AvlTree K) := do
  let _ ← h.load p
  pure { h with node := Function.update h.node p none }

/-- The number of rounds after which a loop is taken not to end. -/
def fuel (h : AvlTree K) : Nat := h.height + 2

/-- `s->r_rotate(r)` for the left side, `s->l_rotate(r)` for the right side -/
def rotate (h : AvlTree K) (d : Dir) (s r : Ptr) : Except AvlFault (AvlTree K) := do
  let h ← h.setChild s d ((← h.load r).child d.flip)
  h.setChild r d.flip s

/-- `p->adj_balance(b, c, v)` -/
def adjBalance (h : AvlTree K) (p b c : Ptr) (v : Int) : Except AvlFault (AvlTree K) := do
  let balance := (← h.load p).b
  let h ← h.setBalance b (if balance = 0 then 0 else if balance = v then 0 else v)
  let h ← h.setBalance c (if balance = 0 then 0 else if balance = v then -v else 0)
  h.setBalance p 0

/-- `t->replace_child(c, repl)` -/
def replaceChild (h : AvlTree K) (t c repl : Ptr) : Except AvlFault (AvlTree K) := do
  if (← h.load t).right = c then h.setChild t .right repl else h.setChild t .left repl

section
variable (comp : K → K → Bool)

/-! ## Insert -/

/-- Where a new node goes: below `p` at side `d`. Rebalancing starts at `s`, the parent of `s` is
`t`. -/
structure Place where
  t : Ptr
  s : Ptr
  p : Ptr
  d : Dir

/-- The side of the node with the key `k` at which `key` is looked for; `none` if they are
equivalent. -/
def side (key k : K) : Option Dir :=
  if comp key k then some .left else if comp k key then some .right else none

/-- The search loop of `insert`; `none` if the key exists. -/
def insertSearch (h : AvlTree K) (key : K) : Nat → (t s p : Ptr) → Except AvlFault (Option Place)
  | 0, _, _, _ => throw .diverges
  | n + 1, t, s, p => do
    let np ← h.load p
    match side comp key np.val with
    | none => return none
    | some d =>
      let q := np.child d
      if q = 0 then return some ⟨t, s, p, d⟩
      if (← h.load q).b ≠ 0 then h.insertSearch key n p q q else h.insertSearch key n t s q

/-- The side of `p` at which the loops that only test `_comp(key, p->key)` go on. -/
def descendSide (h : AvlTree K) (key : K) (p : Ptr) : Except AvlFault Dir := do
  return if comp key (← h.load p).val then .left else .right

/-- Adjust the balance factors from `p` down to the new node `q`. -/
def insertAdjust (h : AvlTree K) (key : K) (q : Ptr) : Nat → Ptr → Except AvlFault (AvlTree K)
  | 0, _ => throw .diverges
  | n + 1, p => do
    if p = q then return h
    let d ← h.descendSide comp key p
    let h ← h.setBalance p d.sign
    h.insertAdjust key q n ((← h.load p).child d)

/-- Set the new subtree head: `p` in place of `s` below `t`. -/
def setSubtree (h : AvlTree K) (t s p : Ptr) : Except AvlFault (AvlTree K) := do
  if s = (← h.load t).left then h.setChild t .left p else h.setChild t .right p

/-- The balancing step of `insert`: the subtree of `s` on side `d`, with root `r`, has grown. -/
def insertBalance (h : AvlTree K) (t s r : Ptr) (d : Dir) : Except AvlFault (AvlTree K) := do
  let a := d.sign
  let balance := (← h.load s).b
  if balance = 0 then
    let h ← h.setBalance s a
    return { h with height := h.height + 1 }
  if balance = -a then return ← h.setBalance s 0
  if (← h.load r).b = a then
    let h ← h.rotate d s r
    let h ← h.setBalance s 0
    let h ← h.setBalance r 0
    h.setSubtree t s r
  else
    let p := (← h.load r).child d.flip
    let h ← h.rotate d.flip r p
    let h ← h.rotate d s p
    let h ← h.adjBalance p r s a
    h.setSubtree t s p

/-- `insert`; `new` is the answer of the node allocator. -/
def insert (h : AvlTree K) (key : K) (new : Option Ptr) : Except AvlFault (AvlRet × AvlTree K) := do
  let root := (← h.load avlHead).right
  if root = 0 then
    let some q := new | return (.noMem, h)
    let h ← h.setChild avlHead .right q
    let h := h.store q ⟨key, 0, 0, 0⟩
    return (.ok, { h with height := 1 })
  let some ⟨t, s, p, d⟩ ← h.insertSearch comp key h.fuel avlHead root root | return (.exists, h)
  let some q := new | return (.noMem, h)
  let h := h.store q ⟨key, 0, 0, 0⟩
  let h ← h.setChild p d q
  let a ← h.descendSide comp key s
  let r := (← h.load s).child a
  let h ← h.insertAdjust comp key q h.fuel r
  return (.ok, ← h.insertBalance t s r a)

/-! ## Find -/

/-- The loop of `find`. -/
def findFrom (h : AvlTree K) (key : K) : Nat → Ptr → Except AvlFault Ptr
  | 0, _ => throw .diverges
  | n + 1, q => do
    if q = 0 then return 0
    let nq ← h.load q
    match side comp key nq.val with
    | some d => h.findFrom key n (nq.child d)
    | none => return q

def find (h : AvlTree K) (key : K) : Except AvlFault Ptr := do
  h.findFrom comp key h.fuel (← h.load avlHead).right

/-! ## Remove -/

/-- The variables of the search loops of `remove`. -/
structure Trace where
  s : Ptr
  t : Ptr
  p : Ptr
  q : Ptr

/-- The search loop of `remove`; `none` if the key is not found. -/
def removeSearch (h : AvlTree K) (key : K) : Nat → Trace → Except AvlFault (Option Trace)
  | 0, _ => throw .diverges
  | n + 1, ⟨s, t, p, q⟩ => do
    if q = 0 then return none
    let nq ← h.load q
    if !comp key nq.val && !comp nq.val key then return some ⟨s, t, p, q⟩
    let s := if nq.b = 0 then q else s
    match side comp key nq.val with
    | none => return none
    | some d => h.removeSearch key n ⟨s, p, q, nq.child d⟩

/-- The search for the symmetric predecessor, `q` is the source's `r`. -/
def predecessor (h : AvlTree K) : Nat → Trace → Except AvlFault Trace
  | 0, _ => throw .diverges
  | n + 1, ⟨s, t, p, r⟩ => do
    let nr ← h.load r
    if nr.right = 0 then return ⟨s, t, p, r⟩
    h.predecessor n ⟨if nr.b = 0 then r else s, p, r, nr.right⟩

/-- The part of the rebalancing loop that works on `p`: its subtree on side `a` is now the higher one.
The result is the source's `p` after it, and `done`. -/
def rebalanceNode (h : AvlTree K) (t p : Ptr) (a : Dir) :
    Except AvlFault (AvlTree K × Ptr × Bool) := do
  let np ← h.load p
  if np.b = -a.sign then return (← h.setBalance p 0, p, false)
  if np.b = 0 then return (← h.setBalance p a.sign, p, true)
  let r := np.child a
  let rb := (← h.load r).b
  if rb = 0 then
    let h ← h.rotate a p r
    let h ← h.setBalance p a.sign
    let h ← h.setBalance r (-a.sign)
    return (← h.replaceChild t p r, p, true)
  if rb = a.sign then
    let h ← h.rotate a p r
    let h ← h.setBalance p 0
    let h ← h.setBalance r 0
    return (← h.replaceChild t p r, r, false)
  let o := (← h.load r).child a.flip
  let h ← h.rotate a.flip r o
  let h ← h.rotate a p o
  let h ← h.replaceChild t p o
  let h ← match a with
    | .right => h.adjBalance o p r (-1)
    | .left => h.adjBalance o r p (-1)
  return (h, o, false)

/-- The side of `p` that is now higher, the subtree `q` of `p` got shorter; `none` is the result
`-4`. -/
def higherSide (h : AvlTree K) (p q : Ptr) : Except AvlFault (Option Dir) := do
  let np ← h.load p
  return if np.left = q then some .right else if np.right = q then some .left else none

/-- `while (p && (p != r))`: the descent to `r`; the result is `t` and `p`. -/
def descend (h : AvlTree K) (key : K) (r : Ptr) : Nat → (t p : Ptr) → Except AvlFault (Ptr × Ptr)
  | 0, _, _ => throw .diverges
  | n + 1, t, p => do
    if p = 0 ∨ p = r then return (t, p)
    let d ← h.descendSide comp key p
    h.descend key r n p ((← h.load p).child d)

/-- The rebalancing loop of `remove`. -/
def rebalance (h : AvlTree K) (s : Ptr) :
    Nat → (t p : Ptr) → Dir → Except AvlFault (AvlRet × AvlTree K)
  | 0, _, _, _ => throw .diverges
  | n + 1, t, p, a => do
    let (h, q, done) ← h.rebalanceNode t p a
    if done then return (.ok, h)
    if t = s then
      if s = avlHead then return (.ok, { h with height := h.height - 1 })
      let some a ← h.higherSide s q | return (.corrupted, h)
      h.rebalance s n t s a
    else
      let key := (← h.load q).val
      let (t, p) ← h.descend comp key t (h.fuel + 1) s s
      let some a ← h.higherSide p q | return (.corrupted, h)
      h.rebalance s n t p a

/-- The removal of `q`, a node with at most one subtree, below `p` at side `d`. -/
def unlink (h : AvlTree K) (p q : Ptr) (d : Dir) : Except AvlFault (AvlTree K) := do
  let nq ← h.load q
  let h ← h.setChild p d (if nq.left ≠ 0 then nq.left else nq.right)
  h.freeNode q

/-- `remove`, from the node `q` that is to go on. -/
def removeNode (h : AvlTree K) : Trace → Except AvlFault (AvlRet × AvlTree K)
  | ⟨s, t, p, q⟩ => do
    let nq ← h.load q
    if q = (← h.load avlHead).right then
      if nq.left = 0 ∧ nq.right = 0 then
        let h ← h.setChild avlHead .right 0
        let h ← h.freeNode q
        return (.ok, { h with height := 0 })
      else
        let h ← h.setChild avlHead .right (if nq.right ≠ 0 then nq.right else nq.left)
        let h ← h.freeNode q
        return (.ok, { h with height := h.height - 1 })
    else
      let d := if q = (← h.load p).right then Dir.right else .left
      let h ← h.unlink p q d
      h.rebalance comp s h.fuel t p d.flip

/-- `remove` -/
def remove (h : AvlTree K) (key : K) : Except AvlFault (AvlRet × AvlTree K) := do
  let root := (← h.load avlHead).right
  let some ⟨s, t, p, q⟩ ← h.removeSearch comp key h.fuel ⟨avlHead, 0, avlHead, root⟩
    | return (.notFound, h)
  let nq ← h.load q
  if nq.left ≠ 0 ∧ nq.right ≠ 0 then
    -- replace `q` with its symmetric predecessor
    let u ← h.predecessor h.fuel ⟨if nq.b = 0 then q else s, p, q, nq.left⟩
    let h := h.store q { nq with val := (← h.load u.q).val }
    h.removeNode comp u
  else h.removeNode comp ⟨s, t, p, q⟩

/-- `~Avl_tree_single`: the root is removed as long as there is one. -/
def destroy : Nat → AvlTree K → Except AvlFault (AvlTree K)
  | 0, _ => throw .diverges
  | n + 1, h => do
    let root := (← h.load avlHead).right
    if root = 0 then return h
    let (_, h) ← h.remove comp (← h.load root).val
    destroy n h

end

end AvlTree

end L4env.Cxx
