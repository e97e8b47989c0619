import L4env.Util.HList

/-!
# Buddy allocator of the Fiasco kernel

The kernel memory is handed out in blocks of 1 KiB to 128 KiB (`buddy_alloc.cpp`). A free block holds
its own list node and its size index; a bitmap with one bit for each KiB says where free blocks
begin. The bit of a block that is merged into the block before it stays set, and the memory of an
allocated block, where a size index may have been, belongs to its owner.

Addresses are natural numbers. The memory that an allocator manages ends below the end of the address
space, so that no sum of the code wraps around.
-/

namespace L4env.Fiasco

namespace Buddy

abbrev MIN_SIZE : Nat := 1024
abbrev NUM_SIZES : Nat := 8
abbrev MAX_SIZE : Nat := 262144
abbrev MAX_MEM : Nat := 67108864

/-- `Min_size << index` -/
def blockSize (index : Nat) : Nat := MIN_SIZE * 2 ^ index

end Buddy

open Buddy

/-- The state of `Buddy_t_base`, with the words of a list node at every address. -/
structure Buddy where
  base : Nat
  /-- `_free` and the fields `next` and `prev_next` -/
  lists : HHeap Nat Nat
  /-- the field `index` -/
  index : Nat → Nat
  freeMap : Nat → Bool

namespace Buddy

/-- The bit of an address. -/
def bit (m : Buddy) (addr : Nat) : Bool := m.freeMap ((addr - m.base) / MIN_SIZE)

def setBit (m : Buddy) (addr : Nat) (v : Bool) : Buddy :=
  { m with freeMap := Function.update m.freeMap ((addr - m.base) / MIN_SIZE) v }

/-- `Head::link` -/
def link (m : Buddy) (list block : Nat) : Buddy :=
  { m with
    index := Function.update m.index block list
    lists := m.lists.push list block }

def unlink (m : Buddy) (block : Nat) : Buddy := { m with lists := m.lists.unlink block }

/-- `buddy`: the free buddy of a block, and where the block begins that the two make up. -/
def buddy (m : Buddy) (block index : Nat) : Option (Nat × Nat) :=
  let size := blockSize index
  let nSize := 2 * size
  if NUM_SIZES ≤ index + 1 then none
  else
    let new := block - block % nSize
    let b := if new = block then new + size else new
    if m.bit b ∧ m.index b = index then some (b, new) else none

/-- The loop of `free`, in `n` rounds from `index` on. -/
def merge (m : Buddy) : Nat → Nat → Nat → Buddy × Nat × Nat
  | 0, block, index => (m, block, index)
  | n + 1, block, index =>
    match m.buddy block index with
    | some (b, new) => (m.unlink b).merge n new (index + 1)
    | none => (m, block, index)

/-- `while ((Min_size << size_index) < size) ++size_index`. The shift gives 0 from 22 on, so that the
loop does not end for a size above `Min_size << 21`. -/
def sizeIndexLoop (size : Nat) : Nat → Nat → Option Nat
  | 0, _ => none
  | n + 1, i => if blockSize i < size then sizeIndexLoop size n (i + 1) else some i

def sizeIndex (size : Nat) : Option Nat := sizeIndexLoop size 22 0

/-- `free`. There is no result if an assertion fails. -/
def freeBlock (m : Buddy) (block size : Nat) : Option Buddy :=
  if m.base ≤ block ∧ block - m.base < MAX_MEM ∧ m.bit block = false then
    match sizeIndex size with
    | none => none
    | some i =>
      if size = blockSize i then
        let (m, block, i) := m.merge (NUM_SIZES - i) block i
        some ((m.link i block).setBit block true)
      else none
  else none

/-- The loop of `add_mem` over `n` blocks of the smallest size. -/
def addBlocks (m : Buddy) : Nat → Nat → Option Buddy
  | 0, _ => some m
  | n + 1, start =>
    match m.freeBlock start MIN_SIZE with
    | some m => m.addBlocks n (start + MIN_SIZE)
    | none => none

/-- The first aligned address of a region. -/
def alignedStart (start : Nat) : Nat := (start + MIN_SIZE - 1) / MIN_SIZE * MIN_SIZE

/-- The number of whole blocks of a region. -/
def wholeBlocks (start size : Nat) : Nat :=
  if size ≤ alignedStart start - start then 0 else (size - (alignedStart start - start)) / MIN_SIZE

def addMem (m : Buddy) (start size : Nat) : Option Buddy :=
  m.addBlocks (wholeBlocks start size) (alignedStart start)

/-- The loop of `split`, `n` rounds from `index` on. -/
def split (m : Buddy) (b : Nat) : Nat → Nat → Buddy
  | 0, _ => m
  | n + 1, index =>
    let buddy := b + blockSize index
    ((m.link index buddy).setBit buddy true).split b n (index + 1)

/-- The loop of `alloc` over the lists, `n` rounds from `i` on. -/
def allocFrom (m : Buddy) (index : Nat) : Nat → Nat → Option Nat × Buddy
  | 0, _ => (none, m)
  | n + 1, i =>
    match m.lists.head i with
    | some f => (some f, ((m.unlink f).split f (i - index) index).setBit f false)
    | none => m.allocFrom index n (i + 1)

/-- `alloc`, with the index of the block. There is no result for a size for which the first loop
does not end. -/
def alloc (m : Buddy) (size : Nat) : Option (Option Nat × Nat × Buddy) :=
  match sizeIndex size with
  | none => none
  | some index =>
    let (f, m) := m.allocFrom index (NUM_SIZES - index) index
    some (f, index, m)

end Buddy

end L4env.Fiasco
