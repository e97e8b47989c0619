import L4env.DMphys.MemMap

/-!
# DMphys: flexpages for dataspace pages

The computation of the flexpage that answers a map or a fault request (`dm_phys/server/src/map.c`).
Physical memory is mapped one to one, so `AREA_MAP_ADDR` is the address of the area. Sizes of
flexpages are binary logarithms. A shift by 32 is one by 0, as on x86.
-/

namespace L4env.DMphys

/-- `1UL << n` -/
def shl1 (n : Int) : Nat := 2 ^ (n.toNat % 32)

/-- `addr & ~((1UL << n) - 1)` -/
def truncTo (addr : Nat) (n : Int) : Nat := Word.roundDown addr (shl1 n)

structure Fpage where
  addr : Nat
  size2 : Int
  writable : Bool
  deriving DecidableEq, Repr

/-- `l4_snd_fpage_t` -/
structure SndFpage where
  sndBase : Nat
  fpage : Fpage
  deriving DecidableEq, Repr

/-- `L4DM_WRITE` -/
def writeFlag (flags : Nat) : Bool := flags.testBit 1

/-- `L4DM_MAP_PARTIAL` -/
def mapPartial (flags : Nat) : Bool := flags.testBit 11

/-- `L4DM_MAP_MORE` -/
def mapMore (flags : Nat) : Bool := flags.testBit 12

/-- `__max_addr_align` -/
def maxAddrAlign (start stop : Nat) : Int :=
  if start ≠ stop then Word.bsr (Word.sub start 1 ^^^ stop)
  else if start = 0 then 32
  else Word.bsf start

/-- A part of `__max_size`: the alignment common to the local address and the receive offset. -/
def alignAddr (localAddr rcvSize2 rcvOffs : Nat) : Int :=
  if localAddr = rcvOffs then rcvSize2 else min (Word.bsf (localAddr ^^^ rcvOffs)) rcvSize2

/-- `__max_size` -/
def maxSize (areaStart areaSize offset rcvSize2 rcvOffs : Nat) : Except Panic Int :=
  let localAddr := Word.add areaStart offset
  let areaEnd := Word.add areaStart areaSize
  let alignStart := maxAddrAlign areaStart localAddr
  let alignEnd := maxAddrAlign localAddr areaEnd
  -- check whether a flexpage of twice the size fits into the area
  let alignSize := min alignStart alignEnd + 1
  let mapStart := truncTo localAddr alignSize
  let mapEnd := Word.add mapStart (shl1 alignSize)
  if areaStart ≤ mapStart ∧ mapEnd ≤ areaEnd then throw .badFpage
  else pure (min (min alignStart alignEnd) (alignAddr localAddr rcvSize2 rcvOffs))

/-- `__max_size_at_offs` -/
def maxSizeAtOffs (areaStart areaSize offset rcvSize2 rcvOffs : Nat) : Int :=
  let a := Word.add areaStart offset ||| rcvOffs
  let maxAlign := if a = 0 then (rcvSize2 : Int) else min (Word.bsf a) rcvSize2
  min (Word.bsr (Word.sub areaSize offset)) maxAlign

/-- The size of the flexpage that `__build_map_fpage` makes. -/
def fpageSize (areaStart areaSize offset : Nat) (size2 : Int) (rcvSize2 rcvOffs flags : Nat) :
    Except Panic Int :=
  if mapMore flags then maxSize areaStart areaSize offset rcvSize2 rcvOffs
  else pure (min (maxSizeAtOffs areaStart areaSize offset rcvSize2 rcvOffs) size2)

/-- A part of `__build_map_fpage`: superpages were asked for and the memory is mapped with them. -/
def superPagesOk (m : MemMap) (flags mapStart : Nat) (size : Int) : Except Panic Bool :=
  if State.superPages flags then
    match m.checkPagesize mapStart (shl1 size) 22 with
    | .ok b => pure b
    | .error _ => throw .diverges
  else pure true

/-- `__build_map_fpage` -/
def buildMapFpage (m : MemMap) (areaStart areaSize offset : Nat) (size2 : Int)
    (rcvSize2 rcvOffs flags : Nat) : Except Panic (Except Err SndFpage) := do
  let addr := Word.add areaStart offset
  let size ← fpageSize areaStart areaSize offset size2 rcvSize2 rcvOffs flags
  let mapStart := truncTo addr size
  let mapEnd := Word.add mapStart (shl1 size)
  if size < size2 ∧ mapPartial flags = false then pure (.error .einval)
  else
    let ok ← superPagesOk m flags mapStart size
    if ok = false then pure (.error .einval)
    else if mapStart < areaStart ∨ Word.add areaStart areaSize < mapEnd ∨
        mapStart ≠ addr ∧ mapMore flags = false ∨ size < log2PageSize then throw .badFpage
    else pure (.ok ⟨Word.sub rcvOffs (Word.sub addr mapStart), ⟨mapStart, size, writeFlag flags⟩⟩)

/-- The size of the area to map, in whole pages (`if_l4dm_generic_map_component`). -/
def mapRange (offset size : Nat) : Nat :=
  Word.sub (Word.roundUp (Word.add offset size) pageSize) (Word.roundDown offset pageSize)

/-- `if_l4dm_generic_map_component` behind the check of the rights; `none` is the dummy flexpage. -/
def mapPages (s : State) (m : MemMap) (pages : Ptr) (offset size rcvSize2 rcvOffs flags : Nat) :
    Except Panic (Except Err (Option SndFpage)) :=
  let size := mapRange offset size
  let offset := Word.roundDown offset pageSize
  if size = 0 then pure (.ok none)
  else
    let size2 := Word.bsr size
    let whole := decide (shl1 size2 = size) || mapPartial flags
    if whole = false ∧ mapMore flags = false then pure (.error .einval)
    else do
      let size2 := if whole then size2 else size2 + 1
      match ← s.findOffset s.listFuel (some pages) offset with
      | none => pure (.error .einvalOffs)
      | some (area, areaOffset) =>
        let rcvOffs := Word.roundDown rcvOffs pageSize
        if rcvSize2 < log2PageSize ∨ 32 < rcvSize2 then pure (.error .einval)
        else if 2 ^ rcvSize2 ≤ rcvOffs then pure (.error .einvalOffs)
        else do
          let r ← buildMapFpage m (s.addr area) (s.size area) areaOffset size2 rcvSize2 rcvOffs flags
          pure (r.map some)

/-- `if_l4dm_generic_fault_component` behind the check of the rights. -/
def faultPage (s : State) (pages : Ptr) (offset : Nat) (rw : Bool) :
    Except Panic (Except Err SndFpage) := do
  match ← s.findOffset s.listFuel (some pages) (Word.roundDown offset pageSize) with
  | none => pure (.error .einvalOffs)
  | some (area, areaOffset) =>
    pure (.ok ⟨0, ⟨Word.add (s.addr area) areaOffset, log2PageSize, rw⟩⟩)

end L4env.DMphys
