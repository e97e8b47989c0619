import L4env.Util.Bytes
import L4env.Util.Word

/-!
# The list allocator

The list of free memory blocks, sorted by address. The header of a block, the pointer to the next block
and the size, stands in its own first eight bytes. A pointer to a list pointer, `Mem_block **c`, is
`none` for `&_first` and `some a` for the `next` of the block at `a`.
-/

namespace L4env.Cxx

structure ListAlloc where
  first : Nat
  mem : Bytes

namespace ListAlloc

def next (h : ListAlloc) (c : Nat) : Nat := h.mem.load32 c

def size (h : ListAlloc) (c : Nat) : Nat := h.mem.load32 (c + 4)

def setNext (h : ListAlloc) (c v : Nat) : ListAlloc := { h with mem := h.mem.store32 c v }

def setSize (h : ListAlloc) (c v : Nat) : ListAlloc := { h with mem := h.mem.store32 (c + 4) v }

/-- `*c` -/
def deref (h : ListAlloc) : Option Nat → Nat
  | none => h.first
  | some a => h.next a

/-- `*c = v` -/
def assign (h : ListAlloc) (c : Option Nat) (v : Nat) : ListAlloc :=
  match c with
  | none => { h with first := v }
  | some a => h.setNext a v

/-- The loop of `merge` from the block `c`, in at most `fuel` rounds. -/
def mergeFrom : Nat → ListAlloc → Nat → Option ListAlloc
  | 0, _, _ => none
  | fuel + 1, h, c =>
    if c = 0 ∨ h.next c = 0 then some h
    else if Word.add c (h.size c) = h.next c then
      let h₁ := h.setSize c (Word.add (h.size c) (h.size (h.next c)))
      mergeFrom fuel (h₁.setNext c (h₁.next (h₁.next c))) c
    else mergeFrom fuel h (h.next c)

def merge (fuel : Nat) (h : ListAlloc) : Option ListAlloc := mergeFrom fuel h h.first

/-- `while (*c && *c < block) c = &(*c)->next` -/
def seek (h : ListAlloc) (block : Nat) : Nat → Option Nat → Option (Option Nat)
  | 0, _ => none
  | fuel + 1, c =>
    if h.deref c ≠ 0 ∧ h.deref c < block then h.seek block fuel (some (h.deref c)) else some c

def free (fuel : Nat) (h : ListAlloc) (block size : Nat) : Option ListAlloc :=
  (if h.first ≠ 0 then h.seek block fuel none else some none).bind fun c =>
    let next := if h.first ≠ 0 then h.deref c else 0
    let h₁ := h.assign c block
    let h₂ := h₁.setNext (h₁.deref c) next
    let h₃ := h₂.setSize (h₂.deref c) size
    h₃.merge fuel

/-- The search of `alloc` from the list pointer `c`. -/
def allocFrom (size almask : Nat) : Nat → ListAlloc → Option Nat → Option (Nat × ListAlloc)
  | 0, _, _ => none
  | fuel + 1, h, c =>
    let n_start := h.deref c
    if n_start = 0 then some (0, h)
    else if h.size n_start < size then allocFrom size almask fuel h (some n_start)
    else if n_start &&& almask = 0 then
      if h.size n_start = size then some (n_start, h.assign c (h.next n_start))
      else
        let m := Word.add n_start size
        let h₁ := h.setNext m (h.next n_start)
        let h₂ := h₁.setSize m (Word.sub (h₁.size (h₁.deref c)) size)
        some (h₂.deref c, h₂.assign c m)
    else
      -- `(n_start & ~almask) + 1 + almask`
      let a_start := Word.add (Word.roundDown n_start (almask + 1)) (1 + almask)
      if h.size n_start ≤ Word.sub a_start n_start then
        allocFrom size almask fuel h (some n_start)
      else
        let a_size := Word.add (Word.sub (h.size n_start) a_start) n_start
        if a_size < size then allocFrom size almask fuel h (some n_start)
        else if a_size = size then
          some (a_start, h.setSize n_start (Word.sub (h.size n_start) size))
        else
          let m := Word.add a_start size
          let h₁ := h.setNext m (h.next n_start)
          let h₂ := h₁.setSize m (Word.sub a_size size)
          let h₃ := h₂.setSize (h₂.deref c) (Word.sub (h₂.size (h₂.deref c)) a_size)
          some (a_start, h₃.setNext (h₃.deref c) m)

def alloc (fuel : Nat) (h : ListAlloc) (size align : Nat) : Option (Nat × ListAlloc) :=
  allocFrom size (if align ≠ 0 then align - 1 else 0) fuel h none

def availFrom (h : ListAlloc) : Nat → Nat → Nat → Option Nat
  | 0, _, _ => none
  | fuel + 1, c, a =>
    if c = 0 then some a else h.availFrom fuel (h.next c) (Word.add a (h.size c))

def avail (fuel : Nat) (h : ListAlloc) : Option Nat := h.availFrom fuel h.first 0

end ListAlloc

end L4env.Cxx
