import L4env.Sigma0.Region
import L4env.Util.SearchTree

/-!
# The memory manager of sigma0

A `Mem_man` keeps the regions of one kind of memory in a search tree, each with its owner. Regions are
merged with their neighbours when they are added, and keys are shortened where they are in the tree.
The nodes of all trees come from one allocator; when it has no node left, `morecore` takes a page out
of the RAM tree and gives it to the allocator. Pages of sigma0 itself are in no tree.

The node allocator and the balancing of the trees are parameters: `NodeAlloc` is any allocator that
may run out of nodes, `Balancing` any change of shape that keeps the keys in their order. The loops
have a bound on their rounds as an argument; `none` is a bound that was too small.
-/

namespace L4env.Sigma0

/-- The three maps of sigma0. -/
inductive Mem
  | ram
  | iomem
  | ioPorts
  deriving DecidableEq, Repr

def sigma0TaskNo : Nat := 2

def pageSize : Nat := 4096

/-- The address `~0UL`. -/
def noAddr : Nat := 4294967295

/-- The allocator of the tree nodes and the pages behind it. -/
structure NodeAlloc (A : Type) where
  /-- `_alloc.alloc ()`; `none` is a null pointer. -/
  alloc : A → Option A
  /-- `_alloc.free (q)`. -/
  free : A → A
  /-- `Page_alloc_base::free`. -/
  freePage : Nat → A → A

/-- How `insert` and `remove` restore the balance of a tree: they move nodes, not keys. -/
structure Balancing where
  insert : BinaryTree Region → BinaryTree Region
  remove : BinaryTree Region → BinaryTree Region
  insert_keys : ∀ t, SearchTree.keys (insert t) = SearchTree.keys t
  remove_keys : ∀ t, SearchTree.keys (remove t) = SearchTree.keys t

/-- The maps, and the pages that were given to the node allocator, each with the map it is from. -/
structure State (A : Type) where
  tree : Mem → BinaryTree Region
  nodes : A
  pages : List (Mem × Nat)
  outOfMemory : Bool

variable {A : Type} (N : NodeAlloc A) (V : Balancing)

namespace State

def init (a : A) : State A := ⟨fun _ => .nil, a, [], false⟩

def keys (s : State A) (m : Mem) : List Region := SearchTree.keys (s.tree m)

/-! ## The tree -/

/-- `_tree.find`: a region that overlaps `r`. -/
def treeFind (s : State A) (m : Mem) (r : Region) : Option Region :=
  SearchTree.find Region.lt r (s.tree m)

/-- `_tree.insert`: `-2` if a region overlaps `r`, `-1` without a node. -/
def treeInsert (s : State A) (m : Mem) (r : Region) : Int × State A :=
  match SearchTree.insert Region.lt r (s.tree m) with
  | none => (-2, s)
  | some t =>
    match N.alloc s.nodes with
    | none => (-1, s)
    | some a => (0, { s with tree := Function.update s.tree m (V.insert t), nodes := a })

/-- `_tree.remove`. -/
def treeRemove (s : State A) (m : Mem) (r : Region) : State A :=
  match SearchTree.remove Region.lt r (s.tree m) with
  | none => s
  | some t =>
    { s with tree := Function.update s.tree m (V.remove t), nodes := N.free s.nodes }

/-- Changes a key where it is in the tree. -/
def setKey (s : State A) (m : Mem) (old new : Region) : State A :=
  { s with tree := Function.update s.tree m (SearchTree.setKey old new (s.tree m)) }

/-- `Page_alloc_base::free` of a page of the map `m`. -/
def givePage (s : State A) (m : Mem) (a : Nat) : State A :=
  { s with nodes := N.freePage a s.nodes, pages := (m, a) :: s.pages }

/-! ## `Mem_man` -/

/-- `Mem_man::find`: the region that contains `r`. -/
def find (s : State A) (m : Mem) (r : Region) : Option Region :=
  if r.valid then
    match s.treeFind m r with
    | none => none
    | some k => if k.contains r then some k else none
  else none

/-- The first part of `add`: the region takes in its predecessor. -/
def mergePrev (s : State A) (m : Mem) (r : Region) : Region × State A :=
  if r.start > 0 then
    match s.treeFind m (r.setStart (Word.sub r.start 1)) with
    | none => (r, s)
    | some k =>
      if k.owner = r.owner then (r.setStart k.start, s.treeRemove N V m k) else (r, s)
  else (r, s)

/-- The second part of `add`: the region takes in its successor. -/
def mergeNext (s : State A) (m : Mem) (r : Region) : Region × State A :=
  if Word.add r.stop 1 ≠ 0 then
    match s.treeFind m (r.setStop (Word.add r.stop 1)) with
    | none => (r, s)
    | some k =>
      if k.owner = r.owner then (r.setStop k.stop, s.treeRemove N V m k) else (r, s)
  else (r, s)

section
-- the call `ram ()->morecore ()`
variable (more : State A → Option (Bool × State A))

/-- The last part of `add`: `while (_tree.insert (r) == -1)`. -/
def insertLoop : Nat → State A → Mem → Region → Option (Bool × State A)
  | 0, _, _, _ => none
  | n + 1, s, m, r =>
    if (s.treeInsert N V m r).1 = -1 then
      more s >>= fun (b, s) =>
        if b then insertLoop n s m r else some (false, { s with outOfMemory := true })
    else some (true, (s.treeInsert N V m r).2)

def addWith (n : Nat) (s : State A) (m : Mem) (r : Region) : Option (Bool × State A) :=
  let (r, s) := s.mergePrev N V m r
  let (r, s) := s.mergeNext N V m r
  -- regions of sigma0 are thrown away
  if r.owner = sigma0TaskNo then some (true, s) else insertLoop N V more n s m r

def allocFromWith (n : Nat) (s : State A) (m : Mem) (r2 r : Region) : Option (Bool × State A) :=
  if r2.owner ≠ 0 ∧ r2.owner ≠ r.owner then some (false, s)
  else if r2.owner = r.owner then some (true, s)
  else if r.beq r2 then addWith N V more n (s.treeRemove N V m r2) m r
  else if r.start = r2.start then do
    let (_, s) ← addWith N V more n (s.setKey m r2 (r2.setStart (Word.add r.stop 1))) m r
    some (true, s)
  else if r.stop = r2.stop then do
    let (_, s) ← addWith N V more n (s.setKey m r2 (r2.setStop (Word.sub r.start 1))) m r
    some (true, s)
  else do
    let nr := Region.of (Word.add r.stop 1) r2.stop r2.owner
    let (_, s) ← addWith N V more n (s.setKey m r2 (r2.setStop (Word.sub r.start 1))) m r
    let (_, s) ← addWith N V more n s m nr
    some (true, s)

end

/-- `Match_end`. -/
def matchEnd (size : Nat) (k : Region) : Bool :=
  k.owner = 0 ∧ roundPage k.start < k.stop ∧ size - 1 ≤ Word.sub k.stop (roundPage k.start)

/-- `Match_start`. -/
def matchStart (size : Nat) (k : Region) : Bool :=
  k.owner = 0 ∧ Word.roundUp k.start size < k.stop ∧
    size - 1 ≤ Word.sub k.stop (Word.roundUp k.start size)

/-- The page that `morecore` takes: the last one of the region. -/
def lastPage (k : Region) : Region :=
  Region.bs (roundPage (Word.sub (Word.sub k.stop pageSize) 1)) pageSize sigma0TaskNo

def morecore : Nat → State A → Mem → Option (Bool × State A)
  | 0, _, _ => none
  | n + 1, s, m =>
    match SearchTree.revIterate (matchEnd pageSize) (s.tree m) with
    | none => some (false, s)
    | some k => do
      let a := lastPage k
      let (_, s) ← allocFromWith N V (fun s => morecore n s .ram) n (s.givePage N m a.start) m k a
      some (true, s)

def add (n : Nat) (s : State A) (m : Mem) (r : Region) : Option (Bool × State A) :=
  addWith N V (fun s => morecore N V n s .ram) n s m r

def allocFrom (n : Nat) (s : State A) (m : Mem) (r2 r : Region) : Option (Bool × State A) :=
  allocFromWith N V (fun s => morecore N V n s .ram) n s m r2 r

/-- The loop of `add_free`: takes the regions that overlap `r` out of the tree and joins them. -/
def joinLoop : Nat → State A → Mem → Region → Option (Region × State A)
  | 0, _, _, _ => none
  | n + 1, s, m, r =>
    match s.treeFind m r with
    | none => some (r, s)
    | some k =>
      let r := if k.start < r.start then r.setStart k.start else r
      let r := if k.stop > r.stop then r.setStop k.stop else r
      joinLoop n (s.treeRemove N V m k) m r

def addFree (n : Nat) (s : State A) (m : Mem) (r : Region) : Option (Bool × State A) :=
  if r.valid then do
    let (r, s) ← joinLoop N V n s m r
    add N V n s m r
  else some (true, s)

def alloc (n : Nat) (s : State A) (m : Mem) (r : Region) : Option (Nat × State A) :=
  if r.valid then
    match s.find m r with
    | none => some (noAddr, s)
    | some r2 => do
      let (b, s) ← allocFrom N V n s m r2 r
      some (if b then r.start else noAddr, s)
  else some (noAddr, s)

def allocFirst (n : Nat) (s : State A) (m : Mem) (size owner : Nat) :
    Option (Nat × State A) :=
  match SearchTree.iterate (matchStart size) (s.tree m) with
  | none => some (noAddr, s)
  | some k => do
    let a := Region.bs (Word.roundUp k.start size) size owner
    let (_, s) ← allocFrom N V n s m k a
    some (a.start, s)

end State

end L4env.Sigma0
