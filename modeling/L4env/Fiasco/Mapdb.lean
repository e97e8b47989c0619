import L4env.Fiasco.PageTable
import L4env.Fiasco.Treemap

/-!
# Operations of the mapping database

Lookup, insertion, grant, flush and the iterator of `mapdb.cpp`, over nested treemaps that know where their
pages are in the owner's address space. A mapping is found by the way down to it: for each treemap the frame,
and the entry of its mapping tree. Allocators and quotas are asked; the state holds their remaining answers.
The integrity checks of the mapping trees are left out.
-/

namespace L4env.Fiasco

/-- A block of the kernel's allocators and its contents. -/
structure Block where
  addr : Nat
  mem : Nat → Mapping

inductive MapFault
  | assertion
  | nullPointer
  | tree (f : MappingFault)
  | treemap (f : TreemapFault)
  | mem (f : MemFault)
  deriving DecidableEq, Repr

/-- The answers of the allocators and quotas; `none` where they fail. -/
abbrev Answers := Nat → Option Block

abbrev MapM := StateT Answers (Except MapFault)

def ask : MapM (Option Block) := fun answers => pure (answers 0, fun i => answers (i + 1))

/-- The frames and the entries on the way to a mapping. -/
abbrev MappingPath := List (Nat × Nat)

/-- `Treemap`, with the fields that place its pages. -/
structure OffsetTreemap (σ : Type) extends TreemapOf σ where
  /-- Address of the first page in the owner's address space. -/
  pageOffset : Nat
  subSizes : List Nat

/-- Treemaps with at most `n` levels, their own one included. -/
def Treemaps : Nat → Type
  | 0 => Empty
  | n + 1 => OffsetTreemap (Treemaps n)

namespace OffsetTreemap

variable {σ : Type}

def vaddr (t : OffsetTreemap σ) (m : Mapping) : Nat := m.page * t.pageSize % 4294967296

def putFrame (t : OffsetTreemap σ) (key : Nat) (f : Physframe σ) : OffsetTreemap σ :=
  { t with toTreemapOf := t.toTreemapOf.setFrame key (some f) }

/-- `end_addr` -/
def endAddr (t : OffsetTreemap σ) : Nat := t.pageSize * t.keyEnd + t.pageOffset

/-- `tree` -/
def tree (t : OffsetTreemap σ) (key : Nat) : MapM (Option (Physframe σ) × OffsetTreemap σ) := do
  if t.keyEnd ≤ key then throw .assertion
  match t.frames key with
  | some f => return (some f, t)
  | none =>
    match ← ask with
    | none => return (none, t)
    | some b =>
      let f := ⟨.make 0 (key + t.pageOffset / t.pageSize) t.ownerId b.mem, fun _ => none⟩
      return (some f, t.putFrame key f)

end OffsetTreemap

namespace Physframe

variable {σ : Type}

def putSubmap (f : Physframe σ) (id : Nat) (s : σ) : Physframe σ :=
  { f with submaps := Function.update f.submaps id (some s) }

/-- `pack`; there are ten sizes of trees. -/
def packed (f : Physframe σ) : MapM (Physframe σ) := fun answers =>
  match f.tree.pack fun sid => (answers sid).map Block.mem with
  | .ok t => pure ({ f with tree := t }, fun i => answers (i + 10))
  | .error e => .error (.tree e)

/-- The loop of `Treemap::lookup` over the entries of a tree; `sub` is the lookup in a submap. -/
def scan (f : Physframe σ) (matching : Mapping → Bool) (sub : σ → MapM (Option MappingPath × σ)) (key : Nat) :
    (n : Nat) → (m : Option Nat) → MapM (Option MappingPath × Physframe σ)
  | 0, _ => pure (none, f)
  | _ + 1, none => pure (none, f)
  | n + 1, some m =>
    let e := f.tree.mappings m
    if e.submap then
      match f.submaps e.treemap with
      | none => throw .nullPointer
      | some s => do
        let (found, s) ← sub s
        let f := f.putSubmap e.treemap s
        match found with
        | some path => return (some ((key, m) :: path), f)
        | none => f.scan matching sub key n (f.tree.next m)
    else if matching e then return (some [(key, m)], f)
    else f.scan matching sub key n (f.tree.next m)

end Physframe

namespace Treemaps

/-- `Treemap::lookup` -/
def lookup (space va : Nat) : (n : Nat) → Treemaps n → (key : Nat) → MapM (Option MappingPath × Treemaps n)
  | 0, t, _ => Empty.elim t
  | n + 1, (t : OffsetTreemap (Treemaps n)), key => do
    let (some f, t) ← t.tree (key / t.pageSize) | throw .assertion
    let root := f.tree.mappings 0
    if root.space ≠ t.ownerId ∨ t.vaddr root ≠ Word.add (Word.roundDown key t.pageSize) t.pageOffset then
      throw .assertion
    let matching (e : Mapping) : Bool := e.space = space ∧ t.vaddr e = Word.roundDown va t.pageSize
    let (found, f) ← f.scan matching (fun s => lookup space va n s (key &&& (t.pageSize - 1)))
      (key / t.pageSize) (f.tree.numberOfEntries + 1) (some 0)
    return (found, t.putFrame (key / t.pageSize) f)

def pageSize : (n : Nat) → Treemaps n → Nat
  | 0, t => Empty.elim t
  | _ + 1, (t : OffsetTreemap _) => t.pageSize

/-- An operation on a treemap, for one of its frames and a mapping in it. -/
abbrev FrameOp (α : Type) :=
  (n : Nat) → OffsetTreemap (Treemaps n) → (key m : Nat) → MapM (α × OffsetTreemap (Treemaps n))

/-- An operation at the end of a path. -/
def editAt {α : Type} (op : FrameOp α) :
    (n : Nat) → Treemaps n → MappingPath → MapM (α × Treemaps n)
  | 0, t, _ => Empty.elim t
  | _ + 1, _, [] => throw .nullPointer
  | n + 1, t, [(key, m)] => op n t key m
  | n + 1, (t : OffsetTreemap (Treemaps n)), (key, m) :: path => do
    let some f := t.frames key | throw .nullPointer
    let some s := f.submaps (f.tree.mappings m).treemap | throw .nullPointer
    let (a, s) ← editAt op n s path
    return (a, t.putFrame key (f.putSubmap (f.tree.mappings m).treemap s))

/-! ## Frames -/

/-- `Treemap::tree` for any level, and whether there is a tree. -/
def hasTree : (n : Nat) → Treemaps n → (key : Nat) → MapM (Bool × Treemaps n)
  | 0, t, _ => Empty.elim t
  | _ + 1, (t : OffsetTreemap _), key => do
    let (f, t) ← t.tree key
    return (f.isSome, t)

/-- `Treemap::free` -/
def free : (n : Nat) → Treemaps n → (key : Nat) → MapM (Treemaps n)
  | 0, t, _ => Empty.elim t
  | _ + 1, (t : OffsetTreemap _), key => do
    let some f := t.frames key | throw .nullPointer
    return t.putFrame key (← f.packed)

/-! ## Insertion -/

/-- The constructor of `Treemap`, for a submap of a treemap with the page size and the submap sizes. -/
def newSubmap (owner va pageSize : Nat) (subSizes : List Nat) : (n : Nat) → Option (Treemaps n)
  | 0 => none
  | n + 1 =>
    match subSizes with
    | [] => none
    | size :: sizes =>
      let t : OffsetTreemap (Treemaps n) := ⟨⟨pageSize / size, owner, size, fun _ => none⟩, va, sizes⟩
      some t

def liftTree {α : Type} : Except MappingFault α → MapM α
  | .ok a => pure a
  | .error e => throw (.tree e)

/-- `Treemap::insert` -/
def insert (space va size : Nat) :
    (n : Nat) → Treemaps n → (key parent phys : Nat) → MapM (Bool × Treemaps n)
  | 0, t, _, _, _ => Empty.elim t
  | n + 1, (t : OffsetTreemap (Treemaps n)), key, parent, phys => do
    let some f := t.frames key | throw .nullPointer
    let offs := phys &&& (t.pageSize - 1)
    -- what follows once there is a submap
    let descend (f : Physframe (Treemaps n)) (id : Nat) (s : Treemaps n) : MapM (Bool × Treemaps (n + 1)) := do
      let (there, s) ← hasTree n s (offs / pageSize n s)
      if there = false then return (false, t.putFrame key (f.putSubmap id s))
      let (inserted, s) ← insert space va size n s (offs / pageSize n s) 0 offs
      let s ← free n s (offs / pageSize n s)
      return (inserted, t.putFrame key (f.putSubmap id s))
    if t.pageSize = size then
      let (slot, tree) ← liftTree (f.tree.allocate (← ask).isSome parent false)
      let some i := slot | return (false, t)
      let entry := { tree.mappings i with space := space, tag := space, page := va / t.pageSize }
      return (true, t.putFrame key { f with tree := tree.store i entry })
    else if t.pageSize ≤ size then throw .assertion
    else
      match f.tree.findSubmap parent with
      | some m =>
        let some s := f.submaps (f.tree.mappings m).treemap | throw .nullPointer
        descend f (f.tree.mappings m).treemap s
      | none =>
        let (slot, tree) ← liftTree (f.tree.allocate (← ask).isSome parent true)
        let some i := slot | return (false, t)
        let owner := tree.mappings parent
        let some s := newSubmap owner.space (t.vaddr owner) t.pageSize t.subSizes n | throw .assertion
        let some b ← ask
          -- free the mapping got with allocate
          | return (false, t.putFrame key { f with tree := tree.setDepth i Mapping.depthEmpty })
        let some _ ← ask | throw .assertion
        let entry := { tree.mappings i with treemap := b.addr, depth := Mapping.depthSubmap }
        descend { f with tree := tree.store i entry } b.addr s

/-! ## Grant -/

/-- `Treemap_ops::grant`, for the page size of the treemap above. -/
def grantSubmap (space page opsSize : Nat) : (n : Nat) → Treemaps n → Treemaps n
  | 0, t => t
  | n + 1, (t : OffsetTreemap (Treemaps n)) =>
    let granted (key : Nat) (f : Physframe (Treemaps n)) : Physframe (Treemaps n) :=
      let page := page + key * t.pageSize / opsSize
      let root := { f.tree.mappings 0 with space := space, page := page }
      { f with tree := f.tree.store 0 root }
    let t' : OffsetTreemap (Treemaps n) :=
      { t with
        ownerId := space
        pageOffset := page * opsSize % 4294967296
        frames := fun key => if key < t.keyEnd then (t.frames key).map (granted key) else t.frames key }
    t'

/-- `Treemap::grant` -/
def grant (space va : Nat) (n : Nat) (t : OffsetTreemap (Treemaps n)) (key m : Nat) :
    MapM (Bool × OffsetTreemap (Treemaps n)) := do
  let some f := t.frames key | throw .nullPointer
  let some _ ← ask | return (false, t)
  let page := va / t.pageSize
  let g := { f with tree := f.tree.store m { f.tree.mappings m with space := space, page := page } }
  match f.tree.findSubmap m with
  | none => return (true, t.putFrame key g)
  | some i =>
    let id := (f.tree.mappings i).treemap
    let some s := f.submaps id | throw .nullPointer
    return (true, t.putFrame key (g.putSubmap id (grantSubmap space page t.pageSize n s)))

/-! ## Flush -/

/-- The operations of a flush on the treemaps below. -/
def sub : (n : Nat) → SubTreemaps (Treemaps n)
  | 0 => ⟨Empty.elim, Empty.elim, fun _ t => Empty.elim t⟩
  | n + 1 =>
    { owner := fun t => OffsetTreemap.toTreemapOf t |>.ownerId
      size := fun t => (OffsetTreemap.toTreemapOf t).pageSize * (OffsetTreemap.toTreemapOf t).keyEnd
      flush := fun opsSize (t : OffsetTreemap (Treemaps n)) restricted offsBegin offsEnd => do
        let (t', visits) ← TreemapOf.flush (sub n) opsSize t.toTreemapOf restricted offsBegin offsEnd
        let t' : OffsetTreemap (Treemaps n) := { t with toTreemapOf := t' }
        pure (t', visits) }

/-- `Mapdb::flush` -/
def flush (meToo : Bool) (restricted vaStart vaEnd : Nat) (n : Nat) (t : OffsetTreemap (Treemaps n))
    (key m : Nat) : MapM (Unit × OffsetTreemap (Treemaps n)) := do
  let some f := t.frames key | throw .nullPointer
  let va := t.vaddr (f.tree.mappings m)
  let offsBegin := if va < vaStart then Word.sub vaStart va else 0
  let offsEnd := if Word.add va t.pageSize < vaEnd then t.pageSize else Word.sub vaEnd va
  match f.flush (sub n) t.pageSize m meToo restricted offsBegin offsEnd with
  | .ok (f, _) => return ((), t.putFrame key f)
  | .error e => throw (.treemap e)

end Treemaps

/-! ## Iterator -/

/-- A mapping the iterator stops at: its space, its page and the size of the page. -/
structure Visited where
  space : Nat
  page : Nat
  size : Nat
  deriving DecidableEq, Repr

namespace MappingTree

/-- `next_child` -/
def nextChild (t : MappingTree) (parent cursor : Nat) : Option Nat :=
  match t.next cursor with
  | none => none
  | some m => if (t.mappings m).depth ≤ (t.mappings parent).depth then none else some m

/-- The loops of `operator++` that skip the subtrees of the children with other tags. -/
def seekTag (t : MappingTree) (parent restricted : Nat) : (n cursor : Nat) → Option Nat
  | 0, _ => none
  | n + 1, cursor =>
    match t.nextChild parent cursor with
    | none => none
    | some m =>
      if (t.mappings parent).depth + 1 < (t.mappings m).depth then t.seekTag parent restricted n m
      else if (t.mappings m).tag = restricted then some m
      else t.seekTag parent restricted n m

/-- The mapping at which `operator++` stops when it has come to a child mapping. -/
def selectTag (t : MappingTree) (parent restricted m : Nat) : Option Nat :=
  if restricted ≠ 0 ∧ (t.mappings m).depth = (t.mappings parent).depth + 1 ∧ (t.mappings m).tag ≠ restricted
  then t.seekTag parent restricted t.numberOfEntries m
  else some m

/-- The iteration over a tree behind the cursor; `descend` is the iteration over the submap of an entry. -/
def iterate (t : MappingTree) (parent pageSize restricted : Nat)
    (descend : Nat → Except MapFault (List Visited)) : (n cursor : Nat) → Except MapFault (List Visited)
  | 0, _ => pure []
  | n + 1, cursor =>
    match t.nextChild parent cursor with
    | none => pure []
    | some m =>
      if (t.mappings m).submap then do
        let inner ← descend m
        let outer ← t.iterate parent pageSize restricted descend n m
        pure (inner ++ outer)
      else
        match t.selectTag parent restricted m with
        | none => pure []
        | some m => do
          let rest ← t.iterate parent pageSize restricted descend n m
          pure (⟨(t.mappings m).space, (t.mappings m).page, pageSize⟩ :: rest)

end MappingTree

namespace Treemaps

def hasFrame : (n : Nat) → Treemaps n → (key : Nat) → Bool
  | 0, t, _ => Empty.elim t
  | _ + 1, (t : OffsetTreemap _), key => (t.frames key).isSome

/-- The iteration of `Mapdb::Iterator` over the subtree of a mapping, with the offsets and the restriction. -/
def iterate : (n : Nat) → Treemaps n → (key parent restricted offsBegin offsEnd : Nat) →
    Except MapFault (List Visited)
  | 0, t, _, _, _, _, _ => Empty.elim t
  | n + 1, (t : OffsetTreemap (Treemaps n)), key, parent, restricted, offsBegin, offsEnd =>
    match t.frames key with
    | none => throw .nullPointer
    | some f =>
      let descend (m : Nat) : Except MapFault (List Visited) :=
        match f.submaps (f.tree.mappings m).treemap with
        | none => throw .nullPointer
        | some s =>
          let size := (sub n).size s
          let offsEnd := if size < offsEnd then size else offsEnd
          -- restrictions hold for the subpages of the mapping itself
          let own : Bool := f.tree.parent m = some parent
          let restricted := if own then restricted else 0
          let b := if own then offsBegin &&& (size - 1) else 0
          let e := if own then (Word.sub offsEnd 1 &&& (size - 1)) + 1 else size
          let first := b / pageSize n s
          let last := (e + pageSize n s - 1) / pageSize n s
          if size < last * pageSize n s then throw .assertion
          else do
            let visits ← (List.range' first (last - first)).mapM fun i =>
              if hasFrame n s i then iterate n s i 0 restricted b e else pure []
            pure visits.flatten
      f.tree.iterate parent t.pageSize restricted descend f.tree.numberOfEntries parent

end Treemaps

end L4env.Fiasco
