import L4env.Fiasco.MappingTree
import L4env.Util.Meets
import L4env.Util.Word

/-!
# Nested treemaps

The mapping database (`mapdb.cpp`) is a hierarchy of treemaps: a treemap has a mapping tree for each page
frame of its size, and the submap entries of these trees point to treemaps of smaller pages. `Treemap n`
has at most `n` levels, its own one included. A flush of a mapping goes down into the treemaps that it
covers only in part.
-/

namespace L4env.Fiasco

/-- `Physframe`, when it has a mapping tree: the tree, and the treemaps its submap entries point to. -/
structure Physframe (σ : Type) where
  tree : MappingTree
  submaps : Nat → Option σ

/-- `Treemap`, over the treemaps `σ` of smaller pages -/
structure TreemapOf (σ : Type) where
  keyEnd : Nat
  ownerId : Nat
  pageSize : Nat
  frames : Nat → Option (Physframe σ)

def Treemap : Nat → Type
  | 0 => Empty
  | n + 1 => TreemapOf (Treemap n)

/-- A failed assertion, a use of the mapping tree of a frame that has none, or a submap entry without a
treemap. -/
inductive TreemapFault
  | assertion
  | noTree
  | noSubmap
  deriving DecidableEq, Repr

/-- A page that `Treemap_ops::flush` visits: its index and size, the offsets of the flush, and the offsets
that it hands down, if the mapping tree of the page is flushed and not deleted as a whole. -/
structure PageVisit where
  pageSize : Nat
  index : Nat
  offsBegin : Nat
  offsEnd : Nat
  handed : Option (Nat × Nat)
  deriving DecidableEq, Repr

/-- What a flush needs of the treemaps below. -/
structure SubTreemaps (σ : Type) where
  owner : σ → Nat
  /-- `_page_size * _key_end` -/
  size : σ → Nat
  /-- `Treemap_ops::flush`, for the page size of the treemap above -/
  flush : Nat → σ → (restricted offsBegin offsEnd : Nat) → Except TreemapFault (σ × List PageVisit)

section
variable {σ : Type}

/-- `Treemap_ops::is_partial` -/
def SubTreemaps.isPartial (sub : SubTreemaps σ) (s : σ) (offsBegin offsEnd : Nat) : Bool :=
  0 < offsBegin ∨ offsEnd < sub.size s

namespace Physframe

/-- The operations on the treemaps of the submap entries. -/
def ops (sub : SubTreemaps σ) (f : Physframe σ) (offsBegin offsEnd : Nat) :
    MappingTree.SubmapOps where
  owner id := (f.submaps id).elim 0 sub.owner
  isPartial id := (f.submaps id).elim false fun s => sub.isPartial s offsBegin offsEnd

/-- The calls for the treemaps of submap entries. Every entry has a treemap of its own. -/
def runCalls (sub : SubTreemaps σ) (f : Physframe σ) (pageSize restricted offsBegin offsEnd : Nat) :
    List MappingTree.SubmapCall → (Nat → Option σ) → Except TreemapFault ((Nat → Option σ) × List PageVisit)
  | [], submaps => pure (submaps, [])
  | .del id :: cs, submaps =>
    f.runCalls sub pageSize restricted offsBegin offsEnd cs (Function.update submaps id none)
  | .flush id :: cs, submaps =>
    match f.submaps id with
    | none => throw .noSubmap
    | some s => do
      let (s, visits) ← sub.flush pageSize s restricted offsBegin offsEnd
      let (submaps, visits') ← f.runCalls sub pageSize restricted offsBegin offsEnd cs
        (Function.update submaps id (some s))
      pure (submaps, visits ++ visits')

/-- `Treemap::flush` on a frame of a treemap with the page size -/
def flush (sub : SubTreemaps σ) (f : Physframe σ) (pageSize parent : Nat) (meToo : Bool)
    (restricted offsBegin offsEnd : Nat) : Except TreemapFault (Physframe σ × List PageVisit) :=
  if (f.tree.mappings parent).unused then throw .assertion
  else do
    let s := f.tree.flush (f.ops sub offsBegin offsEnd) parent meToo restricted
    let (submaps, visits) ← f.runCalls sub pageSize restricted offsBegin offsEnd s.calls.reverse f.submaps
    pure (⟨s.tree, submaps⟩, visits)

end Physframe

namespace TreemapOf

/-- A frame of a treemap was written. -/
def setFrame (t : TreemapOf σ) (i : Nat) (f : Option (Physframe σ)) : TreemapOf σ :=
  { t with frames := Function.update t.frames i f }

/-- The loop of `Treemap_ops::flush`, over `n` pages from the page `i` on; `opsSize` is the page size of the
operations. -/
def flushPages (sub : SubTreemaps σ) (opsSize restricted offsBegin offsEnd : Nat) :
    (n i : Nat) → TreemapOf σ → Except TreemapFault (TreemapOf σ × List PageVisit)
  | 0, _, t => pure (t, [])
  | n + 1, i, t =>
    let pageOffsBegin := i * t.pageSize % 4294967296
    let pageOffsEnd := Word.add pageOffsBegin t.pageSize
    if t.keyEnd ≤ i then throw .assertion
    else if restricted = 0 ∧ offsBegin ≤ pageOffsBegin ∧ pageOffsEnd ≤ offsEnd then do
      let (t', visits) ← flushPages sub opsSize restricted offsBegin offsEnd n (i + 1) (t.setFrame i none)
      pure (t', ⟨t.pageSize, i, offsBegin, offsEnd, none⟩ :: visits)
    else
      match t.frames i with
      | none => throw .noTree
      | some f => do
        let b := if offsBegin < pageOffsBegin then 0 else offsBegin &&& (opsSize - 1)
        let e := if pageOffsEnd < offsEnd then opsSize else ((offsEnd - 1) &&& (opsSize - 1)) + 1
        let (f, visits) ← f.flush sub t.pageSize 0 false restricted b e
        let (t', visits') ← flushPages sub opsSize restricted offsBegin offsEnd n (i + 1)
          (t.setFrame i (some f))
        pure (t', ⟨t.pageSize, i, offsBegin, offsEnd, some (b, e)⟩ :: visits ++ visits')

/-- `Treemap_ops::flush` -/
def flush (sub : SubTreemaps σ) (opsSize : Nat) (t : TreemapOf σ) (restricted offsBegin offsEnd : Nat) :
    Except TreemapFault (TreemapOf σ × List PageVisit) :=
  let first := offsBegin / t.pageSize
  let last := Word.sub (Word.add offsEnd t.pageSize) 1 / t.pageSize
  t.flushPages sub opsSize restricted offsBegin offsEnd (last - first) first

end TreemapOf

end

namespace Treemap

/-- The operations on treemaps with at most `n` levels. -/
def sub : (n : Nat) → SubTreemaps (Treemap n)
  | 0 => ⟨Empty.elim, Empty.elim, fun _ t => Empty.elim t⟩
  | n + 1 =>
    { owner := TreemapOf.ownerId
      size := fun t => TreemapOf.pageSize t * TreemapOf.keyEnd t
      flush := fun opsSize t => TreemapOf.flush (sub n) opsSize t }

end Treemap

end L4env.Fiasco
