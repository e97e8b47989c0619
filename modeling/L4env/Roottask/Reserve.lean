import L4env.Roottask.PagerGrant
import L4env.Util.Returns
import L4env.Util.Word

/-!
# Reservation of contiguous memory

`reserve_range` looks for a chunk of free pages at an aligned address, from the low end of a range
upwards or from the high end downwards, and allocates its pages (`memmap.c`). The size, the exponent of
the alignment and the flags come in one word. After a page that is in the way the search goes on behind
or in front of it, at the next aligned address.
-/

namespace L4env.Roottask.Memmap

/-! ## The arguments -/

/-- `size_and_align & L4_PAGEMASK` -/
def reserveSize (sizeAndAlign : Nat) : Nat := Word.roundDown sizeAndAlign L4_PAGESIZE

/-- The exponent of the alignment that is asked for, without `RMGR_MEM_RES_FLAGS_MASK`. -/
def reserveExponent (sizeAndAlign : Nat) : Nat := sizeAndAlign &&& 0xFFF &&& 0xFFFFF03F

/-- The exponent in use: at least that of a page, and at most 28. -/
def reserveAlign (sizeAndAlign : Nat) : Nat :=
  let align := reserveExponent sizeAndAlign
  if align < 12 then 12 else if 28 < align then 28 else align

/-- `RMGR_MEM_RES_DMA_ABLE` -/
def reserveDma (sizeAndAlign : Nat) : Bool := sizeAndAlign &&& 0x40 != 0

/-- `RMGR_MEM_RES_UPWARDS` -/
def reserveUpwards (sizeAndAlign : Nat) : Bool := sizeAndAlign &&& 0x80 != 0

/-- `max_address`. A `range_high` of 0 stands for no limit. -/
def maxAddress (m : Memmap) (sizeAndAlign rangeHigh : Nat) : Nat :=
  let top := m.memHigh
  let top := if rangeHigh ≠ 0 then min top rangeHigh else top
  let top := if reserveDma sizeAndAlign then min top (2 ^ 24) else top
  Word.roundDown top L4_PAGESIZE

/-- `min_address` -/
def minAddress (rangeLow : Nat) : Nat := Word.roundUp rangeLow L4_PAGESIZE

/-! ## The search -/

/-- How the walk over the pages of a chunk ends: with the chunk at an address, or at a page. -/
inductive Scan
  | found (base : Nat)
  | stopped (page : Nat)

/-- The page is free and alone within the quota. -/
def usable (m : Memmap) (t : Owner) (a : Nat) : Bool :=
  m.quotaCheckMem t a L4_PAGESIZE && decide (m.memmapOwnerPage a = O_FREE)

/-- The walk upwards: `more` pages are needed after the one at `address`. -/
def scanUp (m : Memmap) (t : Owner) (size : Nat) : Nat → Nat → Scan
  | 0, address =>
    if m.usable t address then .found (Word.sub address (Word.sub size L4_PAGESIZE))
    else .stopped address
  | more + 1, address =>
    if m.usable t address then m.scanUp t size more (Word.add address L4_PAGESIZE)
    else .stopped address

/-- The walk downwards, from behind the first page. -/
def scanDown (m : Memmap) (t : Owner) : Nat → Nat → Scan
  | 0, address =>
    let address := Word.sub address L4_PAGESIZE
    if m.usable t address then .found address else .stopped address
  | more + 1, address =>
    let address := Word.sub address L4_PAGESIZE
    if m.usable t address then m.scanDown t more address else .stopped address

/-- The search upwards for a chunk that begins at `top` at the latest. -/
def searchUp (m : Memmap) (t : Owner) (size align top : Nat) : Nat → Nat → Option (Option Nat)
  | 0, _ => none
  | fuel + 1, address =>
    let address := Word.roundUp address (2 ^ align)
    if top < address then some none
    else
      match m.scanUp t size (size / L4_PAGESIZE - 1) address with
      | .found base => some (some base)
      | .stopped page => m.searchUp t size align top fuel (Word.add page L4_PAGESIZE)

/-- The search downwards for a chunk in front of `address`. -/
def searchDown (m : Memmap) (t : Owner) (size align low : Nat) : Nat → Nat → Option (Option Nat)
  | 0, _ => none
  | fuel + 1, address =>
    if address < Word.add low size then some none
    else
      let address := Word.add (Word.roundDown (Word.sub address size) (2 ^ align)) size
      match m.scanDown t (size / L4_PAGESIZE - 1) address with
      | .found base => some (some base)
      | .stopped page => m.searchDown t size align low fuel page

/-- The addresses of the loop that allocates the chunk. -/
def chunkPages (address size : Nat) : List Nat :=
  (List.range ((Word.add address size - address + (L4_PAGESIZE - 1)) / L4_PAGESIZE)).map fun k =>
    address + k * L4_PAGESIZE

/-- The loop that allocates the chunk; its results are not looked at. -/
def allocChunk (m : Memmap) (t : Owner) (l : List Nat) : Memmap :=
  l.foldl (fun m a => (m.memmapAllocPage a t).2) m

/-- `reserve_range`: the address of the chunk, or nothing for -1. -/
def reserveRange (m : Memmap) (t : Owner) (sizeAndAlign rangeLow rangeHigh fuel : Nat) :
    Option (Option Nat × Memmap) :=
  let size := reserveSize sizeAndAlign
  let align := reserveAlign sizeAndAlign
  let top := m.maxAddress sizeAndAlign rangeHigh
  let low := minAddress rangeLow
  if Word.sub top low < size then some (none, m)
  else do
    let base ← if reserveUpwards sizeAndAlign then m.searchUp t size align (Word.sub top size) fuel low
      else m.searchDown t size align low fuel top
    match base with
    | none => some (none, m)
    | some base => some (some base, m.allocChunk t (chunkPages base size))

end L4env.Roottask.Memmap
