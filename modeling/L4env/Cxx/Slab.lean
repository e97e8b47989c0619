import L4env.Cxx.ListItem
import Mathlib.Data.Finset.Card

/-!
# Slab allocator of the C++ library

`Base_slab` (`slab_alloc.h`) takes objects of one size from slabs. A slab is a block of memory, aligned to
its size, with the objects at its beginning and the `Slab_head` at its end. The objects of a slab that are
free are linked in a list. The slabs are in three lists, the full ones, the empty ones and the others.

Addresses are natural numbers, and a null pointer is `none`. An operation has no result where it follows
a null pointer. The counts of objects and slabs are bounded by the number of the blocks there are, so that
they do not wrap.
-/

namespace L4env.Cxx

/-- The template parameters, the size of a pointer and the address of the cache. `canFree` belongs to the
slab allocator. -/
structure SlabParams where
  objectSize : Nat
  slabSize : Nat
  maxFreeSlabs : Nat
  canFree : Bool
  ptrSize : Nat
  this : Nat

namespace SlabParams

variable (k : SlabParams)

/-- `sizeof (Slab_head)`: two links, the count with its padding and two pointers -/
def headSize : Nat := 5 * k.ptrSize

def objectsPerSlab : Nat := (k.slabSize - k.headSize) / k.objectSize

/-- `Slab_store::object` of the slab at `s` -/
def object (s obj : Nat) : Nat := s + k.objectSize * obj

/-- `(addr / slab_size) * slab_size` -/
def slabOf (addr : Nat) : Nat := addr / k.slabSize * k.slabSize

end SlabParams

structure BaseSlab where
  numFree : Nat
  numSlabs : Nat
  fullSlabs : Option Nat
  partialSlabs : Option Nat
  emptySlabs : Option Nat
  /-- the fields of the `Slab_head` of the slab at an address -/
  items : ListItems
  slabNumFree : Nat → Nat
  slabFree : Nat → Option Nat
  cache : Nat → Option Nat
  /-- `Free_o::next` of the object at an address -/
  next : Nat → Option Nat

namespace BaseSlab

/-! ## Lists of slabs -/

def pushFull (c : BaseSlab) (s : Nat) : BaseSlab :=
  let r := c.items.pushFront c.fullSlabs s
  { c with fullSlabs := r.1, items := r.2 }

def pushPartial (c : BaseSlab) (s : Nat) : BaseSlab :=
  let r := c.items.pushFront c.partialSlabs s
  { c with partialSlabs := r.1, items := r.2 }

def pushEmpty (c : BaseSlab) (s : Nat) : BaseSlab :=
  let r := c.items.pushFront c.emptySlabs s
  { c with emptySlabs := r.1, items := r.2 }

def removeFull (c : BaseSlab) (s : Nat) : BaseSlab :=
  let r := c.items.remove c.fullSlabs s
  { c with fullSlabs := r.1, items := r.2 }

def removePartial (c : BaseSlab) (s : Nat) : BaseSlab :=
  let r := c.items.remove c.partialSlabs s
  { c with partialSlabs := r.1, items := r.2 }

def removeEmpty (c : BaseSlab) (s : Nat) : BaseSlab :=
  let r := c.items.remove c.emptySlabs s
  { c with emptySlabs := r.1, items := r.2 }

/-! ## Slabs -/

/-- `Slab_i ()` at the address `s` -/
def construct (c : BaseSlab) (s : Nat) : BaseSlab :=
  { c with
    items := { n := Function.update c.items.n s (some s), p := Function.update c.items.p s (some s) }
    slabNumFree := Function.update c.slabNumFree s 0
    slabFree := Function.update c.slabFree s none
    cache := Function.update c.cache s none }

/-- `num` rounds of the loop of `add_slab` for the slab `s`: the links of the objects, and `f`. -/
def initFree (k : SlabParams) (s : Nat) (next : Nat → Option Nat) : Nat → (Nat → Option Nat) × Nat
  | 0 => (next, k.object s 0)
  | i + 1 =>
    let r := initFree k s next i
    (Function.update r.1 r.2 (some (k.object s i)), k.object s i)

def addSlab (k : SlabParams) (c : BaseSlab) (s : Nat) : BaseSlab :=
  let r := initFree k s c.next k.objectsPerSlab
  let c := { c with
    slabNumFree := Function.update c.slabNumFree s k.objectsPerSlab
    cache := Function.update c.cache s (some k.this)
    slabFree := Function.update c.slabFree s (some (k.object s 0))
    next := Function.update r.1 r.2 none }
  let c := c.pushEmpty s
  { c with numSlabs := c.numSlabs + 1, numFree := c.numFree + 1 }

/-- `grow`, where the slab allocator returns the block `s`. -/
def grow (k : SlabParams) (c : BaseSlab) (s : Nat) : BaseSlab := (c.construct s).addSlab k s

/-- The loop of `shrink` returns the slabs that are given back. -/
def shrinkLoop (k : SlabParams) (c : BaseSlab) : List Nat × BaseSlab :=
  match c.emptySlabs with
  | none => ([], c)
  | some s =>
    if k.maxFreeSlabs < c.numFree then
      let c' := c.removeEmpty s
      let r := shrinkLoop k { c' with numFree := c.numFree - 1, numSlabs := c.numSlabs - 1 }
      (s :: r.1, r.2)
    else ([], c)
  termination_by c.numFree

def shrink (k : SlabParams) (c : BaseSlab) : List Nat × BaseSlab :=
  if k.canFree then c.shrinkLoop k else ([], c)

/-! ## Objects -/

/-- `alloc` once there is a slab in the list at `free`, which is the one of the empty slabs or not. -/
def take (c : BaseSlab) (fromEmpty : Bool) : Option (Nat × BaseSlab) :=
  (if fromEmpty then c.emptySlabs else c.partialSlabs).bind fun s =>
    (c.slabFree s).map fun o =>
      let c : BaseSlab := { c with slabFree := Function.update c.slabFree s (c.next o) }
      let c : BaseSlab :=
        if fromEmpty then
          let c := c.removeEmpty s
          { c with numFree := c.numFree - 1 }
        else c
      let c : BaseSlab := { c with slabNumFree := Function.update c.slabNumFree s (c.slabNumFree s - 1) }
      (o,
        if c.slabFree s = none then (c.removePartial s).pushFull s
        else if fromEmpty then c.pushPartial s
        else c)

/-- `alloc`, where the slab allocator returns `block` if it is called. -/
def alloc (k : SlabParams) (c : BaseSlab) (block : Option Nat) : Option (Option Nat × BaseSlab) :=
  let fromEmpty := c.partialSlabs.isNone
  let taken (c : BaseSlab) := (c.take fromEmpty).map fun r => (some r.1, r.2)
  if fromEmpty ∧ c.emptySlabs = none then
    match block with
    | none => some (none, c)
    | some s => taken (c.grow k s)
  else taken c

/-- `free` for the object `o` of the slab `s`. -/
def put (k : SlabParams) (c : BaseSlab) (s o : Nat) : List Nat × BaseSlab :=
  let c := { c with next := Function.update c.next o (c.slabFree s) }
  let c := { c with slabFree := Function.update c.slabFree s (some o) }
  let wasFull := c.slabNumFree s = 0
  let c := if wasFull then c.removeFull s else c
  let c := { c with slabNumFree := Function.update c.slabNumFree s (c.slabNumFree s + 1) }
  if c.slabNumFree s = k.objectsPerSlab then
    let c := if wasFull then c else c.removePartial s
    let c := c.pushEmpty s
    let c := { c with numFree := c.numFree + 1 }
    if k.maxFreeSlabs < c.numFree then c.shrink k else ([], c)
  else if wasFull then ([], c.pushPartial s)
  else ([], c)

/-- `free` returns the slabs that are given back. -/
def free (k : SlabParams) (c : BaseSlab) (o : Option Nat) : List Nat × BaseSlab :=
  match o with
  | none => ([], c)
  | some o =>
    let s := k.slabOf o
    if c.cache s ≠ some k.this then ([], c) else c.put k s o

/-! ## Counts -/

def totalObjects (k : SlabParams) (c : BaseSlab) : Nat := c.numSlabs * k.objectsPerSlab

/-- The loop of `free_objects` over the list that began at `f`, in less than `fuel` rounds. -/
def countFrom (c : BaseSlab) (f : Option Nat) : Nat → Option Nat → Nat → Option Nat
  | 0, _, _ => none
  | _ + 1, none, count => some count
  | fuel + 1, some s, count =>
    let i := c.items.n s
    countFrom c f fuel (if i = f then none else i) (count + c.slabNumFree s)

def freeObjects (k : SlabParams) (fuel : Nat) (c : BaseSlab) : Option Nat :=
  (c.countFrom c.partialSlabs fuel c.partialSlabs 0).map fun count =>
    count + c.numFree * k.objectsPerSlab

end BaseSlab

/-! ## Runs -/

/-- A cache with the objects that are handed out and the blocks of the slab allocator that it has. -/
structure SlabRun where
  cache : BaseSlab
  out : Finset Nat
  blocks : Finset Nat

namespace SlabRun

/-- `Base_slab ()` -/
def init (m : ListItems) (f : Nat → Nat) (g₁ g₂ g₃ : Nat → Option Nat) : SlabRun where
  cache :=
    { numFree := 0, numSlabs := 0, fullSlabs := none, partialSlabs := none, emptySlabs := none,
      items := m, slabNumFree := f, slabFree := g₁, cache := g₂, next := g₃ }
  out := ∅
  blocks := ∅

inductive Event where
  | alloc (block : Option Nat)
  | free (o : Option Nat)
  /-- a pointer is written to an address -/
  | write (a : Nat) (v : Option Nat)

/-- The slab allocator returns an aligned block that is not in use or fails, an object that is freed is
handed out, and nobody else writes to the slabs but to the objects that are handed out. -/
def Allowed (k : SlabParams) (r : SlabRun) : Event → Prop
  | .alloc block => ∀ s ∈ block, 0 < s ∧ k.slabSize ∣ s ∧ s ∉ r.blocks
  | .free o => ∀ a ∈ o, a ∈ r.out
  | .write a _ => k.slabOf a ∉ r.blocks ∨ ∃ o ∈ r.out, o ≤ a ∧ a + k.ptrSize ≤ o + k.objectSize

/-- The block that `alloc` gets, as far as it asks for one. -/
def grown (c : BaseSlab) (block : Option Nat) : Finset Nat :=
  if c.partialSlabs = none ∧ c.emptySlabs = none then block.toFinset else ∅

def step (k : SlabParams) (r : SlabRun) : Event → Option SlabRun
  | .alloc block =>
    (r.cache.alloc k block).map fun (o, c) =>
      { cache := c, out := o.toFinset ∪ r.out, blocks := grown r.cache block ∪ r.blocks }
  | .free o =>
    let f := r.cache.free k o
    some { cache := f.2, out := r.out \ o.toFinset, blocks := r.blocks \ f.1.toFinset }
  | .write a v => some { r with cache := { r.cache with next := Function.update r.cache.next a v } }

inductive Reachable (k : SlabParams) : SlabRun → Prop
  | init (m : ListItems) (f : Nat → Nat) (g₁ g₂ g₃ : Nat → Option Nat) : Reachable k (.init m f g₁ g₂ g₃)
  | step {r r' : SlabRun} {a : Event} (h : Reachable k r) (ha : r.Allowed k a)
      (hrun : r.step k a = some r') : Reachable k r'

end SlabRun

end L4env.Cxx
