import Mathlib.Tactic

/-!
# Mapping trees

A mapping tree of Fiasco is a pre-order encoding in an array (`mapping_tree.cpp`): every entry has the
depth of its mapping, holes have a depth of their own, and an end tag follows the last entry. Pointers
into the array are indices, `end()` is the number of entries. The entries behind the end tag have
arbitrary contents.
-/

namespace L4env.Fiasco

/-- `Mapping` -/
structure Mapping where
  depth : Nat
  space : Nat
  page : Nat
  tag : Nat
  /-- The nested treemap, in the storage of the other fields. -/
  treemap : Nat
  deriving DecidableEq, Repr, Inhabited

namespace Mapping

def depthMax : Nat := 252
def depthSubmap : Nat := 253
def depthEmpty : Nat := 254
def depthEnd : Nat := 255

def unused (m : Mapping) : Bool := depthEmpty ≤ m.depth

def isEndTag (m : Mapping) : Bool := m.depth = depthEnd

/-- `submap()` is not null. -/
def submap (m : Mapping) : Bool := m.depth = depthSubmap

end Mapping

structure MappingTree where
  count : Nat
  sizeId : Nat
  emptyCount : BitVec 11
  mappings : Nat → Mapping

/-- A failed assertion, or a loop that runs over the end of the array. -/
inductive MappingFault
  | assertion
  | overrun
  deriving DecidableEq, Repr

namespace MappingTree

/-- `Size_id_max` -/
def sizeIdMax : Nat := 9

def numberOfEntries (t : MappingTree) : Nat := 4 * 2 ^ t.sizeId

def last (t : MappingTree) : Mapping := t.mappings (t.numberOfEntries - 1)

def store (t : MappingTree) (i : Nat) (m : Mapping) : MappingTree :=
  { t with mappings := Function.update t.mappings i m }

/-- `*i = *j` -/
def copy (t : MappingTree) (i j : Nat) : MappingTree := t.store i (t.mappings j)

def setDepth (t : MappingTree) (i depth : Nat) : MappingTree :=
  t.store i { t.mappings i with depth := depth }

/-- The constructor with a first mapping, on a block with the contents `mem`. -/
def make (sizeFactor page owner : Nat) (mem : Nat → Mapping) : MappingTree :=
  let t : MappingTree := ⟨1, sizeFactor, 0, mem⟩
  let t := t.store 0 { t.mappings 0 with depth := 0, page := page, space := owner, tag := owner }
  let t := t.setDepth 1 Mapping.depthEnd
  t.setDepth (t.numberOfEntries - 1) Mapping.depthEnd

/-! ## Searches -/

/-- The loop of `next`, `n` entries from the end of the array. -/
def nextFrom (t : MappingTree) : (n m : Nat) → Option Nat
  | 0, _ => none
  | n + 1, m =>
    if (t.mappings m).isEndTag then none
    else if (t.mappings m).unused then t.nextFrom n (m + 1)
    else some m

def next (t : MappingTree) (m : Nat) : Option Nat :=
  t.nextFrom (t.numberOfEntries - (m + 1)) (m + 1)

/-- The loop of `parent`, from `m - 1` down. -/
def parentFrom (t : MappingTree) (depth : Nat) : (m : Nat) → Option Nat
  | 0 => none
  | m + 1 => if depth ≤ (t.mappings m).depth then t.parentFrom depth m else some m

def parent (t : MappingTree) (m : Nat) : Option Nat :=
  if (t.mappings m).depth ≤ 0 then none else t.parentFrom (t.mappings m).depth m

/-- `find_submap`; the index of the entry instead of the treemap. -/
def findSubmap (t : MappingTree) (parent : Nat) : Option Nat :=
  match t.next parent with
  | some m => if (t.mappings m).submap then some m else none
  | none => none

/-- The loop of `head_of`, at most `n` steps of it. The result is the position the header is in front of,
`none` if the loop has not ended or has stepped over the start of the array. -/
def headOf (t : MappingTree) : (n m : Nat) → Option Nat
  | 0, _ => none
  | n + 1, m =>
    let depth := (t.mappings m).depth
    if depth = 0 then some m
    -- a bigger step if this is not a free mapping
    else if depth ≤ Mapping.depthMax then
      if depth ≤ m then t.headOf n (m - depth) else none
    else if 0 < m then t.headOf n (m - 1) else none

/-- The search without the bigger steps. -/
def scanHead (t : MappingTree) : (m : Nat) → Option Nat
  | 0 => if (t.mappings 0).depth = 0 then some 0 else none
  | m + 1 => if (t.mappings (m + 1)).depth = 0 then some (m + 1) else t.scanHead m

/-! ## Allocation -/

/-- The search for an insertion point and a hole in front of it, `n` entries from the end of the
array. An entry of depth `limit` or less ends the subtree, one of depth `sibling` or less is a child. -/
def findInsert (t : MappingTree) (limit sibling : Nat) :
    (n m : Nat) → (free : Option Nat) → Option (Nat × Option Nat)
  | 0, _, _ => none
  | n + 1, m, free =>
    let e := t.mappings m
    if e.isEndTag ∨ e.depth ≤ limit then some (m, free)
    else if e.unused then t.findInsert limit sibling n (m + 1) (some m)
    else if free.isSome ∧ e.depth ≤ sibling then some (m, free)
    else t.findInsert limit sibling n (m + 1) free

/-- `while (free + 1 != insert)`: `n` entries behind `free` move into the hole. -/
def moveUp (t : MappingTree) : (n free : Nat) → MappingTree
  | 0, _ => t
  | n + 1, free => (t.copy free (free + 1)).moveUp n (free + 1)

/-- `while (!insert->unused())`, `n` entries from the end of the array. -/
def findUnused (t : MappingTree) : (n insert : Nat) → Except MappingFault Nat
  | 0, _ => throw .overrun
  | n + 1, insert =>
    if (t.mappings insert).unused then pure insert else t.findUnused n (insert + 1)

/-- `while (insert > free)`: the entries from `free` on move down to `insert`. -/
def moveDown (t : MappingTree) (free : Nat) : (insert : Nat) → MappingTree
  | 0 => t
  | insert + 1 =>
    if free < insert + 1 then (t.copy (insert + 1) insert).moveDown free insert else t

/-- `allocate`; `granted` is the answer of the payer's quota. -/
def allocate (t : MappingTree) (granted : Bool) (parent : Nat) (insertSubmap : Bool) :
    Except MappingFault (Option Nat × MappingTree) := do
  if granted = false then return (none, t)
  if t.last.unused = false then return (none, t)
  let depth := (t.mappings parent).depth
  if depth = Mapping.depthMax then return (none, t)
  let limit := if insertSubmap then depth + 1 else depth
  let some (insert, free) := t.findInsert limit (depth + 1) (t.numberOfEntries - (parent + 1))
      (parent + 1) none
    | throw .assertion
  let (slot, t) ← match free with
    | some free =>
      if (t.mappings free).unused = false ∨ insert ≤ free then throw .assertion
      else
        let t := t.moveUp (insert - (free + 1)) free
        pure (insert - 1, { t with emptyCount := t.emptyCount - 1 })
    | none => do
      let hole ← t.findUnused (t.numberOfEntries - insert) insert
      if (t.mappings hole).isEndTag then
        let hole := if hole + 1 < t.numberOfEntries then hole + 1 else hole
        pure (insert, t.moveDown insert hole)
      else
        pure (insert, { t.moveDown insert hole with emptyCount := t.emptyCount - 1 })
  let t := { t with count := t.count + 1 }
  return (some slot, t.setDepth slot (if insertSubmap then Mapping.depthSubmap else depth + 1))

/-! ## Flush -/

/-- The operations on nested treemaps. -/
structure SubmapOps where
  owner : Nat → Nat
  isPartial : Nat → Bool

inductive SubmapCall
  | flush (treemap : Nat)
  | del (treemap : Nat)
  deriving DecidableEq, Repr

/-- The variables of `flush`, the spaces whose quota was given back and the calls for nested
treemaps. -/
structure FlushState where
  tree : MappingTree
  startOfDeletions : Nat
  deleted : Nat
  emptyElemsPassed : Nat
  mDepth : Nat
  skipSubtree : Bool
  freed : List Nat
  calls : List SubmapCall

/-- `free_mapping` and what goes with it. -/
def FlushState.freeMapping (s : FlushState) (space m : Nat) : FlushState :=
  let t := s.tree.setDepth m Mapping.depthEmpty
  { s with
    tree := { t with count := t.count - 1 }
    deleted := s.deleted + 1
    freed := space :: s.freed }

/-- The body of the loop of `flush` for an entry of the subtree. -/
def FlushState.visit (ops : SubmapOps) (pDepth restricted : Nat) (meToo : Bool) (s : FlushState)
    (m : Nat) : FlushState :=
  let e := s.tree.mappings m
  if e.unused then { s with emptyElemsPassed := s.emptyElemsPassed + 1 }
  else if s.skipSubtree ∧ pDepth + 1 < e.depth then
    { s with startOfDeletions := s.startOfDeletions + 1 }
  else
    let s := { s with skipSubtree := false }
    if e.submap then
      if meToo = false ∧ s.mDepth = pDepth + 1 ∧ ops.isPartial e.treemap then
        { s with
          startOfDeletions := s.startOfDeletions + 1
          calls := .flush e.treemap :: s.calls }
      else { s with calls := .del e.treemap :: s.calls }.freeMapping (ops.owner e.treemap) m
    else
      let s := { s with mDepth := e.depth }
      if restricted ≠ 0 ∧ e.depth = pDepth + 1 ∧ e.tag ≠ restricted then
        let empty := if s.startOfDeletions ≠ m
          then s.tree.emptyCount + BitVec.ofNat 11 (m - s.startOfDeletions) else s.tree.emptyCount
        { s with
          tree := { s.tree with emptyCount := empty }
          skipSubtree := true
          startOfDeletions := m + 1 }
      else s.freeMapping e.space m

/-- The loop of `flush`, `n` entries from the end of the array. The second result is `true` if an
entry behind the subtree was found. -/
def flushLoop (ops : SubmapOps) (pDepth restricted : Nat) (meToo : Bool) :
    (n m : Nat) → FlushState → FlushState × Bool
  | 0, _, s => (s, false)
  | n + 1, m, s =>
    let e := s.tree.mappings m
    if e.isEndTag then (s, false)
    else if e.depth ≤ pDepth then (s, true)
    else flushLoop ops pDepth restricted meToo n (m + 1) (s.visit ops pDepth restricted meToo m)

/-- The variables at the start of the loop. -/
def flushStart (t : MappingTree) (parent : Nat) (meToo : Bool) : FlushState :=
  let s : FlushState := ⟨t, parent, 0, 0, (t.mappings parent).depth + 1, false, [], []⟩
  if meToo then s.freeMapping (t.mappings parent).space parent
  else { s with startOfDeletions := parent + 1 }

/-- What follows the loop: the return at an entry behind the subtree, or moving the end tag. -/
def FlushState.finish (s : FlushState) (stopped : Bool) : FlushState :=
  if stopped then
    { s with tree := { s.tree with
        emptyCount := s.tree.emptyCount + BitVec.ofNat 11 s.deleted } }
  else if s.startOfDeletions < s.tree.numberOfEntries then
    let t := s.tree.setDepth s.startOfDeletions Mapping.depthEnd
    { s with tree := { t with
        emptyCount := t.emptyCount - BitVec.ofNat 11 s.emptyElemsPassed } }
  else s

/-- `flush` -/
def flush (t : MappingTree) (ops : SubmapOps) (parent : Nat) (meToo : Bool) (restricted : Nat) :
    FlushState :=
  let pDepth := (t.mappings parent).depth
  let r := flushLoop ops pDepth restricted meToo (t.numberOfEntries - (parent + 1)) (parent + 1)
    (t.flushStart parent meToo)
  r.1.finish r.2

/-! ## Packing -/

/-- The loop of `copy_compact_tree`; without a source it works in place. The result is the tree and
`d`. -/
def copyLoop (src : Option MappingTree) : (n s d : Nat) → MappingTree →
    Except MappingFault (MappingTree × Nat)
  | 0, _, _, _ => throw .overrun
  | n + 1, s, d, dst =>
    let e := (src.getD dst).mappings s
    if e.isEndTag then pure (dst, d)
    else
      let dst := { dst.store d e with count := dst.count + 1 }
      match (src.getD dst).next s with
      | some s => copyLoop src n s (d + 1) dst
      | none => pure (dst, d + 1)

/-- `copy_compact_tree(dst, src)`, without a source in place -/
def copyCompactTree (dst : MappingTree) (src : Option MappingTree) :
    Except MappingFault MappingTree := do
  let srcCount := (src.getD dst).count
  if src.isNone ∧ dst.numberOfEntries = srcCount then return dst
  if dst.numberOfEntries ≤ srcCount then throw .assertion
  let n := (src.getD dst).numberOfEntries
  let (t, d) ← copyLoop src n 0 0 { dst with count := 0, emptyCount := 0 }
  if t.count ≠ srcCount ∨ t.numberOfEntries ≤ d then throw .assertion
  let t := t.setDepth d Mapping.depthEnd
  return t.setDepth (t.numberOfEntries - 1) Mapping.depthEnd

/-- The constructor that copies a tree, on a block with the contents `mem`. -/
def makeCopy (sizeFactor : Nat) (fromTree : MappingTree) (mem : Nat → Mapping) :
    Except MappingFault MappingTree :=
  let t : MappingTree := ⟨0, sizeFactor, 0, mem⟩
  (t.setDepth (t.numberOfEntries - 1) Mapping.depthEnd).copyCompactTree (some fromTree)

/-- `while (sid > 0 && ((count << 2) < (Size_factor << sid))) --sid` -/
def smallerId (count : Nat) : (sid : Nat) → Nat
  | 0 => 0
  | sid + 1 => if count * 4 < 4 * 2 ^ (sid + 1) then smallerId count sid else sid + 1

/-- `pack`, where it does not allocate a smaller tree. The second result is `maybe_out_of_memory`. -/
def packOrGrow (t : MappingTree) (alloc : Nat → Option (Nat → Mapping)) :
    Except MappingFault (MappingTree × Bool) := do
  if t.last.unused then return (t, false)
  if t.count < t.numberOfEntries / 4 + t.numberOfEntries / 2 ∨ t.sizeId = sizeIdMax then
    return (← t.copyCompactTree none, t.sizeId = sizeIdMax)
  else
    match alloc (t.sizeId + 1) with
    | some mem => return (← makeCopy (t.sizeId + 1) t mem, false)
    | none => return (← t.copyCompactTree none, true)

/-- The tree `pack` leaves, and `maybe_out_of_memory` -/
def packTree (t : MappingTree) (alloc : Nat → Option (Nat → Mapping)) :
    Except MappingFault (MappingTree × Bool) := do
  if 0 < t.sizeId ∧ t.count * 4 < t.numberOfEntries then
    let sid := smallerId t.count (t.sizeId - 1)
    match alloc sid with
    | some mem => return (← makeCopy sid t mem, false)
    | none => t.packOrGrow alloc
  else t.packOrGrow alloc

/-- `pack`; `alloc` are the answers of the slab allocators, the contents of the block they hand out. -/
def pack (t : MappingTree) (alloc : Nat → Option (Nat → Mapping)) :
    Except MappingFault MappingTree := do
  let (t, maybeOutOfMemory) ← t.packTree alloc
  if t.last.unused = false ∧ maybeOutOfMemory = false then throw .assertion
  return t

end MappingTree

end L4env.Fiasco
