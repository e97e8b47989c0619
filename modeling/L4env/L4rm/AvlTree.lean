import L4env.Util.Meets
import L4env.Util.PtrTree

/-!
# L4RM: the AVL tree

The region tree of `l4rm/lib/src/avl_tree.c`. The heap maps the pointers of the nodes that the slab
cache has handed out to their contents, so an access through a null pointer or to a released node
is a fault; so are a failed assertion, the panic on a corrupted tree, and a loop that runs longer
than the tree is high. `tree_head` is a node of its own, its right subtree is the tree.

The branches of the source that are mirror images of each other are one definition here with the
side of the node as parameter. The source's `a` is the sign of that side: of the subtree that has
grown for insertions, of the subtree that is now higher for removals.
-/

namespace L4env.L4rm

/-- `avlt_key_t`, with the field `end` as `last`. -/
structure Key where
  start : Nat
  last : Nat
  deriving DecidableEq, Repr

namespace Key

/-- `AVLT_IS_LOWER` -/
def isLower (a b : Key) : Bool := a.last < b.start

/-- `AVLT_IS_GREATER` -/
def isGreater (a b : Key) : Bool := b.last < a.start

/-- `AVLT_IS_EQUAL` -/
def isEqual (a b : Key) : Bool := a.start == b.start && a.last == b.last

/-- The side of `b` on which `a` is, if the ranges do not overlap. -/
def side (a b : Key) : Option Dir :=
  if a.isLower b then some .left else if a.isGreater b then some .right else none

/-- `AVLT_IS_IN` -/
def isIn (a b : Key) : Bool := b.start ≤ a.start && a.last ≤ b.last

end Key

/-- The key and the data of a tree node; the data is a pointer to a region descriptor. -/
structure Entry where
  key : Key
  data : Nat
  deriving DecidableEq, Repr

abbrev Ptr := Nat

/-- `avlt_t` -/
abbrev Avlt := TNode Entry

inductive Fault
  /-- An access through a null pointer or to a released node. -/
  | badPointer
  /-- `Assert` -/
  | assertion
  /-- `corrupted AVL tree!` -/
  | corrupted
  | diverges
  deriving DecidableEq, Repr

/-- The error codes of the tree operations. -/
inductive AvltRet
  | ok
  | notFound
  | noMem
  | exists
  | inval
  deriving DecidableEq, Repr

/-- The address of `tree_head`. -/
def treeHead : Ptr := 1

structure Avl where
  node : Ptr → Option Avlt
  treeHeight : Nat

namespace Avl

/-- `avlt_init` -/
def init : Avl where
  node := Function.update (fun _ => none) treeHead (some ⟨⟨⟨0, 0⟩, 0⟩, 0, 0, 0⟩)
  treeHeight := 0

def load (h : Avl) (p : Ptr) : Except Fault Avlt :=
  match h.node p with
  | some n => pure n
  | none => throw .badPointer

def store (h : Avl) (p : Ptr) (n : Avlt) : Avl :=
  { h with node := Function.update h.node p (some n) }

/-- `p->left = q` or `p->right = q` -/
def setChild (h : Avl) (p : Ptr) (d : Dir) (q : Ptr) : Except Fault Avl := do
  let n ← h.load p
  pure (h.store p (n.setChild d q))

/-- `p->b = b` -/
def setB (h : Avl) (p : Ptr) (b : Int) : Except Fault Avl := do
  let n ← h.load p
  pure (h.store p { n with b := b })

/-- `avlt_free_node` -/
def freeNode (h : Avl) (p : Ptr) : Except Fault Avl := do
  let _ ← h.load p
  pure { h with node := Function.update h.node p none }

def assert (b : Bool) : Except Fault Unit :=
  if b then pure () else throw .assertion

/-- The number of rounds after which a loop is taken not to end. -/
def fuel (h : Avl) : Nat := h.treeHeight + 2

/-! ## Rotations -/

/-- Single rotation of `s` and its subtree `r` on side `d`. -/
def rotateSingle (h : Avl) (d : Dir) (s r : Ptr) : Except Fault Avl := do
  let h ← h.setChild s d ((← h.load r).child d.flip)
  h.setChild r d.flip s

/-- Double rotation of `s`, its subtree `r` on side `d` and the subtree `p` of `r` on the other
side. -/
def rotateDouble (h : Avl) (d : Dir) (s r p : Ptr) : Except Fault Avl := do
  let h ← h.setChild r d.flip ((← h.load p).child d)
  let h ← h.setChild p d r
  let h ← h.setChild s d ((← h.load p).child d.flip)
  h.setChild p d.flip s

/-! ## Insert -/

/-- Where a new node goes: below `p` at side `d`. Rebalancing starts at `s`, the parent of `s` is
`t`. -/
structure Place where
  t : Ptr
  s : Ptr
  p : Ptr
  d : Dir

/-- The search loop of `avlt_insert`; `none` if the key overlaps a stored one. -/
def insertSearch (h : Avl) (key : Key) : Nat → (t s p : Ptr) → Except Fault (Option Place)
  | 0, _, _, _ => throw .diverges
  | n + 1, t, s, p => do
    let np ← h.load p
    match key.side np.val.key with
    | none => return none
    | some d =>
      let q := np.child d
      if q = 0 then return some ⟨t, s, p, d⟩
      if (← h.load q).b ≠ 0 then h.insertSearch key n p q q else h.insertSearch key n t s q

/-- The side of `p` at which `key` is looked for. -/
def side (h : Avl) (key : Key) (p : Ptr) : Except Fault Dir := do
  return if key.isLower (← h.load p).val.key then .left else .right

/-- Adjust the balance factors from `p` down to the new node `q`. -/
def insertAdjust (h : Avl) (key : Key) (q : Ptr) : Nat → Ptr → Except Fault Avl
  | 0, _ => throw .diverges
  | n + 1, p => do
    if p = q then return h
    let d ← h.side key p
    let h ← h.setB p d.sign
    h.insertAdjust key q n ((← h.load p).child d)

/-- Set the new subtree head: `p` in place of `s` below `t`. -/
def setSubtree (h : Avl) (t s p : Ptr) : Except Fault Avl := do
  if s = (← h.load t).left then h.setChild t .left p else h.setChild t .right p

/-- The balancing step of `avlt_insert`: the subtree of `s` on side `d`, with root `r`, has grown. -/
def insertBalance (h : Avl) (t s r : Ptr) (d : Dir) : Except Fault Avl := do
  let a := d.sign
  let b := (← h.load s).b
  if b = 0 then
    let h ← h.setB s a
    return { h with treeHeight := h.treeHeight + 1 }
  if b = -a then return ← h.setB s 0
  if (← h.load r).b = a then
    let h ← h.rotateSingle d s r
    let h ← h.setB s 0
    let h ← h.setB r 0
    h.setSubtree t s r
  else
    let p := (← h.load r).child d.flip
    let h ← h.rotateDouble d s r p
    let pb := (← h.load p).b
    let h ← h.setB s (if pb = a then -a else 0)
    let h ← h.setB r (if pb = 0 ∨ pb = a then 0 else a)
    let h ← h.setB p 0
    h.setSubtree t s p

/-- `avlt_insert`. The answer of `avlt_new_node` is `new`. -/
def insert (h : Avl) (key : Key) (data : Nat) (new : Option Ptr) : Except Fault (AvltRet × Avl) := do
  let root := (← h.load treeHead).right
  if root = 0 then
    let some q := new | return (.noMem, h)
    let h := h.store q ⟨⟨key, data⟩, 0, 0, 0⟩
    let h ← h.setChild treeHead .right q
    return (.ok, { h with treeHeight := 1 })
  let some ⟨t, s, p, d⟩ ← h.insertSearch key h.fuel treeHead root root | return (.exists, h)
  let some q := new | return (.noMem, h)
  let h ← h.setChild p d q
  assert (p ≠ 0 && q ≠ 0)
  let h := h.store q ⟨⟨key, data⟩, 0, 0, 0⟩
  let a ← h.side key s
  let r := (← h.load s).child a
  let h ← h.insertAdjust key q h.fuel r
  return (.ok, ← h.insertBalance t s r a)

/-! ## Remove -/

/-- The variables of the search loops of `avlt_remove`. -/
structure Trace where
  s : Ptr
  t : Ptr
  p : Ptr
  q : Ptr

/-- The search loop of `avlt_remove`; `none` if the key is not found. -/
def removeSearch (h : Avl) (key : Key) : Nat → Trace → Except Fault (Option Trace)
  | 0, _ => throw .diverges
  | n + 1, ⟨s, t, p, q⟩ => do
    if q = 0 then return none
    let nq ← h.load q
    if key.isEqual nq.val.key then return some ⟨s, t, p, q⟩
    let s := if nq.b = 0 then q else s
    match key.side nq.val.key with
    | none => return none
    | some d => h.removeSearch key n ⟨s, p, q, nq.child d⟩

/-- The search for the symmetric predecessor, `q` is the source's `r`. -/
def predecessor (h : Avl) : Nat → Trace → Except Fault Trace
  | 0, _ => throw .diverges
  | n + 1, ⟨s, t, p, r⟩ => do
    let nr ← h.load r
    if nr.right = 0 then return ⟨s, t, p, r⟩
    h.predecessor n ⟨if nr.b = 0 then r else s, p, r, nr.right⟩

/-- Hang `r` in place of `p` below `t`. -/
def relink (h : Avl) (t p r : Ptr) : Except Fault Avl := do
  if (← h.load t).right = p then h.setChild t .right r else h.setChild t .left r

/-- One rebalancing step of `avlt_remove`: the subtree of `p` on side `a` is now the higher one.
The result is the root of the subtree and whether the tree is balanced. -/
def rebalanceNode (h : Avl) (t p : Ptr) (a : Dir) : Except Fault (Avl × Ptr × Bool) := do
  let np ← h.load p
  if np.b = -a.sign then return (← h.setB p 0, p, false)
  if np.b = 0 then return (← h.setB p a.sign, p, true)
  let r := np.child a
  let rb := (← h.load r).b
  if rb = 0 then
    let h ← h.rotateSingle a p r
    let h ← h.setB p a.sign
    let h ← h.setB r (-a.sign)
    return (← h.relink t p r, p, true)
  if rb = a.sign then
    let h ← h.rotateSingle a p r
    let h ← h.setB p 0
    let h ← h.setB r 0
    return (← h.relink t p r, r, false)
  let o := (← h.load r).child a.flip
  let h ← h.rotateDouble a p r o
  let h ← h.relink t p o
  let ob := (← h.load o).b
  let h ← h.setB p (if ob = a.sign then -a.sign else 0)
  let h ← h.setB r (if ob = 0 ∨ ob = a.sign then 0 else a.sign)
  let h ← h.setB o 0
  return (h, o, false)

/-- The side of `p` that is now higher, the subtree `q` of `p` got shorter. -/
def higherSide (h : Avl) (p q : Ptr) : Except Fault Dir := do
  let np ← h.load p
  if np.left = q then return .right
  if np.right = q then return .left
  throw .corrupted

/-- The descent from the last balanced node to `r`; the result is the parent of `r` and `r`. -/
def descend (h : Avl) (key : Key) (r : Ptr) : Nat → (t p : Ptr) → Except Fault (Ptr × Ptr)
  | 0, _, _ => throw .diverges
  | n + 1, t, p => do
    if p = 0 ∨ p = r then return (t, p)
    let d ← h.side key p
    h.descend key r n p ((← h.load p).child d)

/-- Where the descent from `s` starts: there is no key in `tree_head`. -/
def descentStart (h : Avl) (s : Ptr) : Except Fault Ptr := do
  if s = treeHead then return (← h.load s).right else return s

/-- The rebalancing loop of `avlt_remove`. -/
def rebalance (h : Avl) (s : Ptr) : Nat → (t p : Ptr) → Dir → Except Fault Avl
  | 0, _, _, _ => throw .diverges
  | n + 1, t, p, a => do
    let (h, q, done) ← h.rebalanceNode t p a
    if done then return h
    if t = s then
      if s = treeHead then return { h with treeHeight := h.treeHeight - 1 }
      let a ← h.higherSide s q
      assert ((← h.load s).b = 0)
      h.rebalance s n t s a
    else
      let key := (← h.load q).val.key
      let (t, p) ← h.descend key t h.fuel s (← h.descentStart s)
      assert (p ≠ 0)
      let a ← h.higherSide p q
      assert (t ≠ p)
      h.rebalance s n t p a

/-- The removal of `q`, a node with at most one subtree, below `p` at side `d`. -/
def unlink (h : Avl) (p q : Ptr) (d : Dir) : Except Fault Avl := do
  let nq ← h.load q
  let h ← h.setChild p d (if nq.left ≠ 0 then nq.left else nq.right)
  h.freeNode q

/-- `avlt_remove`, from the node `q` that is to go on: it has at most one subtree. -/
def removeNode (h : Avl) : Trace → Except Fault Avl
  | ⟨s, t, p, q⟩ => do
    let nq ← h.load q
    assert (nq.left = 0 || nq.right = 0)
    if q = (← h.load treeHead).right then
      if nq.left = 0 ∧ nq.right = 0 then
        let h ← h.setChild treeHead .right 0
        let h ← h.freeNode q
        return { h with treeHeight := 0 }
      else
        let h ← h.setChild treeHead .right (if nq.right ≠ 0 then nq.right else nq.left)
        let h ← h.freeNode q
        return { h with treeHeight := h.treeHeight - 1 }
    else
      assert (t ≠ 0)
      let d := if q = (← h.load p).right then Dir.right else .left
      let h ← h.unlink p q d
      h.rebalance s h.fuel t p d.flip

/-- `avlt_remove` -/
def remove (h : Avl) (key : Key) : Except Fault (AvltRet × Avl) := do
  let root := (← h.load treeHead).right
  let some ⟨s, t, p, q⟩ ← h.removeSearch key h.fuel ⟨treeHead, 0, treeHead, root⟩
    | return (.notFound, h)
  let nq ← h.load q
  if nq.left ≠ 0 ∧ nq.right ≠ 0 then
    -- replace `q` with its symmetric predecessor
    let u ← h.predecessor h.fuel ⟨if nq.b = 0 then q else s, p, q, nq.left⟩
    let h := h.store q { nq with val := (← h.load u.q).val }
    return (.ok, ← h.removeNode u)
  else
    return (.ok, ← h.removeNode ⟨s, t, p, q⟩)

/-! ## Find -/

/-- The search loop of `avlt_find`. -/
def findFrom (h : Avl) (key : Key) : Nat → Ptr → Except Fault (Option Nat)
  | 0, _ => throw .diverges
  | n + 1, q => do
    if q = 0 then return none
    let nq ← h.load q
    if key.isIn nq.val.key then return some nq.val.data
    match key.side nq.val.key with
    | none => return none
    | some d => h.findFrom key n (nq.child d)

/-- `avlt_find` -/
def find (h : Avl) (key : Key) : Except Fault (Option Nat) := do
  h.findFrom key h.fuel (← h.load treeHead).right

end Avl

end L4env.L4rm
