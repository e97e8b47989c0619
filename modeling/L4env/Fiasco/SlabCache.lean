import L4env.Util.Links

/-!
# Slab caches of the Fiasco kernel

A slab is a block of memory, aligned to its size, that begins with a header and is filled with
entries of one size. Entries that are free are linked in a list. The slabs of a cache are linked in
both directions, full ones first (`slab_cache_anon.cpp`).

Addresses are natural numbers, and a null pointer is `none`. The machine has words of 32 bits, so
that the header takes 20 bytes, the link in front of an element 4 bytes, and the counts of a slab are
numbers of 16 bits. There is no result where an assertion fails.
-/

namespace L4env.Fiasco

structure SlabCache where
  slabSize : Nat
  elemSize : Nat
  alignment : Nat
  latestOffset : Nat
  firstSlab : Option Nat
  firstAvailableSlab : Option Nat
  lastSlab : Option Nat
  /-- the fields of the slab at an address -/
  firstFree : Nat → Option Nat
  next : Nat → Option Nat
  prev : Nat → Option Nat
  inUse : Nat → Nat
  free : Nat → Nat
  /-- `_next_free` of the entry at an address -/
  nextFree : Nat → Option Nat

namespace SlabCache

/-! ## Geometry -/

/-- `(x + alignment - 1) & ~(alignment - 1)` -/
def alignUp (alignment x : Nat) : Nat :=
  (x + alignment - 1) % 2 ^ 32 - (x + alignment - 1) % 2 ^ 32 % alignment

/-- `sizeof (slab_data)` -/
def slabDataSize : Nat := 20

/-- `sizeof (slab_entry)` -/
def slabEntrySize : Nat := 4

/-- `offset_first_elem` -/
def offsetFirstElem (c : SlabCache) : Nat :=
  alignUp c.alignment (slabDataSize + slabEntrySize) - slabEntrySize

/-- `entry_size` -/
def entrySize (c : SlabCache) : Nat := alignUp c.alignment (slabEntrySize + c.elemSize)

/-- `elem_num` -/
def elemNum (c : SlabCache) : Nat := (c.slabSize - c.offsetFirstElem) / c.entrySize

/-- A number of 16 bits. -/
def short (x : Nat) : Nat := x % 2 ^ 16

/-! ## Slabs -/

/-- The loop of the constructor: `num` entries from the address `data` on are linked in front of
`e`. -/
def linkEntries (size : Nat) : Nat → (Nat → Option Nat) → Option Nat → Nat →
    Option Nat × (Nat → Option Nat)
  | 0, nextFree, e, _ => (e, nextFree)
  | num + 1, nextFree, e, data =>
    linkEntries size num (Function.update nextFree data e) (some data) (data + size)

/-- `slab (cache)` at the address `s` -/
def construct (c : SlabCache) (s : Nat) : SlabCache :=
  let data := s + c.offsetFirstElem + c.latestOffset
  let latest := c.latestOffset + c.alignment
  let r := linkEntries c.entrySize c.elemNum c.nextFree none data
  { c with
    latestOffset :=
      if c.offsetFirstElem + latest + c.entrySize * c.elemNum > c.slabSize then 0 else latest
    inUse := Function.update c.inUse s 0
    next := Function.update c.next s none
    prev := Function.update c.prev s none
    nextFree := r.2
    firstFree := Function.update c.firstFree s r.1
    free := Function.update c.free s (short c.elemNum) }

def isEmpty (c : SlabCache) (s : Nat) : Bool := c.inUse s = 0

def isFull (c : SlabCache) (s : Nat) : Bool := c.free s = 0

/-- `slab::alloc` returns the element in an entry. -/
def slabAlloc (c : SlabCache) (s : Nat) : Option Nat × SlabCache :=
  match c.firstFree s with
  | none => (none, c)
  | some e =>
    (some (e + slabEntrySize), { c with
      firstFree := Function.update c.firstFree s (c.nextFree e)
      inUse := Function.update c.inUse s (short (c.inUse s + 1))
      free := Function.update c.free s (short (c.free s + (2 ^ 16 - 1))) })

/-- `slab::free` -/
def slabFree (c : SlabCache) (s elem : Nat) : Option SlabCache :=
  let e := elem - slabEntrySize
  if c.inUse s = 0 then none
  else some { c with
    nextFree := Function.update c.nextFree e (c.firstFree s)
    firstFree := Function.update c.firstFree s (some e)
    inUse := Function.update c.inUse s (short (c.inUse s + (2 ^ 16 - 1)))
    free := Function.update c.free s (short (c.free s + 1)) }

/-- `s->enqueue (prev)` -/
def enqueue (c : SlabCache) (s prev : Nat) : SlabCache :=
  { c with
    next := Function.update (Function.update c.next s (c.next prev)) prev (some s)
    prev := Function.update (writeAt c.prev (c.next prev) (some s)) s (some prev) }

/-- `s->dequeue ()` -/
def dequeue (c : SlabCache) (s : Nat) : SlabCache :=
  { c with
    next := Function.update (writeAt c.next (c.prev s) (c.next s)) s none
    prev := Function.update (writeAt c.prev (c.next s) (c.prev s)) s none }

/-! ## The cache -/

/-- `alloc` once there is a slab `_first_available_slab`. -/
def allocFrom (c : SlabCache) (s : Nat) : Option (Option Nat × SlabCache) :=
  if c.isFull s then none
  else if (c.prev s).any fun p => !c.isFull p then none
  else
    match c.slabAlloc s with
    | (none, _) => none
    | (some elem, c) =>
      some (some elem, if c.isFull s then { c with firstAvailableSlab := c.next s } else c)

/-- `alloc`, where `block_alloc` returns `block` if it is called. -/
def alloc (c : SlabCache) (block : Option Nat) : Option (Option Nat × SlabCache) :=
  match c.firstAvailableSlab with
  | some s => c.allocFrom s
  | none =>
    match block with
    | none => some (none, c)
    | some s =>
      let c := { c.construct s with firstAvailableSlab := some s }
      match c.lastSlab with
      | some l => if c.isFull l then { c.enqueue s l with lastSlab := some s }.allocFrom s else none
      | none => { c with firstSlab := some s, lastSlab := some s }.allocFrom s

/-- `free` for a slab that was full: it becomes the first one that is not. -/
def requeueFull (c : SlabCache) (s : Nat) : Option SlabCache := do
  let c ← match c.next s with
    | none => if c.firstAvailableSlab.isSome then none else some c
    | some r =>
      if c.isFull r then
        let c := if c.firstSlab = some s then { c with firstSlab := c.next s } else c
        let c := c.dequeue s
        match c.firstAvailableSlab with
        | some a => do
          let p ← c.prev a
          if c.isFull p then some (c.enqueue s p) else none
        | none => do
          let l ← c.lastSlab
          if c.isFull l then some { c.enqueue s l with lastSlab := some s } else none
      else some c
  some { c with firstAvailableSlab := some s }

/-- `free` for a slab that became empty: it is moved to the tail of the list. -/
def requeueEmpty (c : SlabCache) (s : Nat) : Option SlabCache :=
  match c.next s with
  | none => some c
  | some r =>
    if c.isEmpty r then some c
    else do
      let c := if c.firstSlab = some s then { c with firstSlab := c.next s } else c
      let c := if c.firstAvailableSlab = some s then { c with firstAvailableSlab := c.next s } else c
      let c := c.dequeue s
      let l ← c.lastSlab
      some { c.enqueue s l with lastSlab := some s }

/-- The part of `free` that keeps the list in order. -/
def requeue (c : SlabCache) (s : Nat) (wasFull : Bool) : Option SlabCache :=
  if wasFull then c.requeueFull s
  else if c.isEmpty s then c.requeueEmpty s
  else some c

/-- `elem & ~(_slab_size - 1)` -/
def slabOf (c : SlabCache) (elem : Nat) : Nat := elem - elem % c.slabSize

def freeElem (c : SlabCache) (elem : Nat) : Option SlabCache := do
  let s := c.slabOf elem
  let wasFull := c.isFull s
  let c ← c.slabFree s elem
  let c ← c.requeue s wasFull
  if c.firstAvailableSlab.isSome then some c else none

/-- `reap` returns the slab that is given back. -/
def reap (c : SlabCache) : Option (Option Nat × SlabCache) :=
  match c.firstSlab with
  | none => some (none, c)
  | some f => do
    let s ← c.lastSlab
    -- the first slab stays, even if it is empty
    if s = f ∨ c.isEmpty s = false then some (none, c)
    else
      let c :=
        if c.firstAvailableSlab = some s then { c with firstAvailableSlab := none } else c
      let c := { c with lastSlab := c.prev s }.dequeue s
      -- the assertion of the destructor
      if c.inUse s = 0 then some (some s, c) else none

end SlabCache

end L4env.Fiasco
