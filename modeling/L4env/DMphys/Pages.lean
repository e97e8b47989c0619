import L4env.Util.Word
import L4env.Util.Links

/-!
# DMphys: page pools and internal descriptor memory

The page area pools of `dm_phys/server/src/pages.c` and the descriptor memory pool of
`internal_alloc.c`. A page area descriptor is a pointer; every field of `page_area_t` is a map of its
own over the pointers, so that a write to one field leaves the others alone.

Descriptors come from a slab cache. Which unused descriptor `l4slab_alloc` returns, when it grows
by a page of the descriptor memory pool and when `l4slab_free` hands a page back are answers of the
environment (`Slab`). A reached `Panic`, a failed `ASSERT` and a loop that does not end are the
exceptions of type `Panic`. Clearing, unmapping and logging have no effect on the state.
-/

namespace L4env.DMphys

abbrev Ptr := Nat

/-! ## Configuration (`__config.h`) -/

def pageSize : Nat := 4096
def log2PageSize : Nat := 12
def superPageSize : Nat := 4194304
def numPools : Nat := 8
def numFreeLists : Nat := 16
def maxDsAreas : Nat := 32
def intPoolInitial : Nat := 32
def intPoolMaxAlloc : Nat := 32
def intPoolMin : Nat := 8
def intMaxFreed : Nat := 32
def defaultPool : Nat := 0

/-! ## State -/

inductive Panic
  /-- `DMphys: new area overlaps existing area!` -/
  | overlaps
  /-- `DMphys: corrupted area list!` -/
  | corruptedAreaList
  /-- `DMphys: corrupted free list` -/
  | corruptedFreeList
  /-- `DMphys: no page found in internal memory pool!` -/
  | noInternalPage
  /-- `DMphys: wrong size alignment` or `DMphys: fpage calculation failed!` -/
  | badFpage
  /-- A failed `ASSERT` or `Assert`. -/
  | assertion
  /-- A loop that does not end. -/
  | diverges
  deriving DecidableEq, Repr

/-- Error codes. -/
inductive Err
  | einval
  | enomem
  | eperm
  | enohandle
  | einvalOffs
  | enotfound
  deriving DecidableEq, Repr

inductive Prio
  | user
  | internal
  deriving DecidableEq, Repr

structure PagePool where
  size : Nat := 0
  free : Nat := 0
  reserved : Nat := 0
  areaList : Option Ptr := none
  freeList : Nat → Option Ptr := fun _ => none

/-- An entry of `mem_pool`; a `map_addr` of `-1` is `none`. -/
structure IntPool where
  available : Bool := false
  mapAddr : Option Nat := none
  area : Option Ptr := none
  deriving DecidableEq, Repr

/-- A descriptor that is not in use. -/
theorem sum_succ_not_mem (live : List Ptr) : live.sum + 1 ∉ live := by
  intro h
  have := List.single_le_sum (fun _ _ => Nat.zero_le _) _ h
  omega

/-- The answers of the slab caches: the descriptor handed out, never one in use; whether an
allocation grows the cache; and which page of the caches a release hands back. -/
structure Slab where
  pick : List Ptr → Ptr
  pick_not_mem : ∀ live, pick live ∉ live
  grow : List Bool := []
  back : List (Option Nat) := []

structure State where
  addr : Ptr → Nat
  size : Ptr → Nat
  /-- The flag `AREA_USED`. -/
  used : Ptr → Bool
  dsNext : Ptr → Option Ptr
  areaPrev : Ptr → Option Ptr
  areaNext : Ptr → Option Ptr
  freePrev : Ptr → Option Ptr
  freeNext : Ptr → Option Ptr
  /-- Descriptors in use. -/
  live : List Ptr
  pools : Nat → PagePool
  memPool : List IntPool
  numFree : Int
  freedAreas : List Ptr
  updateInProgress : Bool
  /-- Pages the slab caches hold, with the page area each came from. -/
  slabPages : List (Nat × Option Ptr)
  slab : Slab

namespace State

def setPool (s : State) (pool : Nat) (p : PagePool) : State :=
  { s with pools := Function.update s.pools pool p }

/-- The number of rounds after which a walk over descriptors in use has met one twice. -/
def listFuel (s : State) : Nat := s.live.length + 1

/-! ## Internal descriptor memory (`internal_alloc.c`) -/

/-- `__allocate`: take the first available page of `mem_pool`. -/
def intAllocate (s : State) : Except Panic State :=
  match s.memPool.findIdx? (·.available) with
  | none => throw .noInternalPage
  | some i =>
    match s.memPool[i]? with
    | none => throw .noInternalPage
    | some e =>
      match e.area, e.mapAddr with
      | _, none => throw .assertion
      | none, some page =>
        -- a page from sigma0 keeps its entry
        if i < intPoolInitial then
          pure { s with
            memPool := s.memPool.set i { e with available := false }
            numFree := s.numFree - 1
            slabPages := (page, none) :: s.slabPages }
        else throw .assertion
      | some area, some page =>
        pure { s with
          memPool := s.memPool.set i {}
          numFree := s.numFree - 1
          slabPages := (page, some area) :: s.slabPages }

/-- The first entry of `mem_pool` that may take a released page area. -/
def unusedEntry (s : State) : Option Nat :=
  (List.range' intPoolInitial intPoolMaxAlloc).find? fun i =>
    match s.memPool[i]? with
    | some e => e.mapAddr == none
    | none => false

/-- `__release`: keep the page in `mem_pool`, or queue its area to be freed. -/
def intRelease (s : State) (page : Nat) : Option Ptr → State
  | some area =>
    match s.unusedEntry with
    | some i =>
      { s with
        memPool := s.memPool.set i ⟨true, some (s.addr area), some area⟩
        numFree := s.numFree + 1 }
    | none =>
      if s.freedAreas.length < intMaxFreed then
        { s with freedAreas := area :: s.freedAreas }
      else s
  | none =>
    match (s.memPool.take intPoolInitial).findIdx? (·.mapAddr == some page) with
    | some i =>
      match s.memPool[i]? with
      | some e =>
        { s with
          memPool := s.memPool.set i { e with available := true }
          numFree := s.numFree + 1 }
      | none => s
    | none => s

/-- A slab cache may grow by a page on an allocation. -/
def slabGrow (s : State) : Except Panic State :=
  let s' := { s with slab := { s.slab with grow := s.slab.grow.tail } }
  if s.slab.grow.headD false then s'.intAllocate else pure s'

/-- A slab cache may hand a page back on a release. -/
def slabBack (s : State) : State :=
  let s' := { s with slab := { s.slab with back := s.slab.back.tail } }
  match s.slab.back.headD none with
  | none => s'
  | some i =>
    match s.slabPages[i]? with
    | none => s'
    | some (page, area) => { s' with slabPages := s.slabPages.eraseIdx i }.intRelease page area

/-- `__alloc_area_desc` -/
def allocAreaDesc (s : State) : Except Panic (Ptr × State) := do
  let s ← s.slabGrow
  let p := s.slab.pick s.live
  pure (p, { s with live := p :: s.live })

/-- `__release_area_desc` -/
def releaseAreaDesc (s : State) (area : Ptr) : State :=
  { s with live := s.live.erase area }.slabBack

/-! ## Helpers -/

end State

/-- `__max_alignment` -/
def maxAlignment (addr size : Nat) : Nat :=
  if size = 0 then 0
  else
    let alignment := 2 ^ Nat.log2 size
    let offs := addr &&& (alignment - 1)
    if offs ≠ 0 ∧ size < Word.add alignment (alignment - offs) then alignment / 2 else alignment

/-- `__get_free_list` -/
def getFreeList (size : Nat) : Nat :=
  let i := Word.bsr size - log2PageSize
  if i < 0 then 0
  else if (numFreeLists : Int) ≤ i then numFreeLists - 1
  else i.toNat

namespace State

/-- `__aligned_size` -/
def alignedSize (s : State) (area : Ptr) (alignment : Nat) : Nat :=
  let offsBegin := Word.sub (Word.roundUp (s.addr area) alignment) (s.addr area)
  if s.size area < offsBegin then 0
  else
    let areaEnd := Word.add (s.addr area) (s.size area)
    let offsEnd := Word.sub areaEnd (Word.roundDown areaEnd alignment)
    if s.size area < offsEnd then 0
    else Word.sub (Word.sub (s.size area) offsBegin) offsEnd

/-! ## Page area lists -/

/-- `__add_area` -/
def addArea (s : State) (pool : Nat) (area : Ptr) : Except Panic State :=
  let start := s.addr area
  let areaEnd := Word.add (s.addr area) (s.size area)
  let s := { s with
    areaPrev := Function.update s.areaPrev area none
    areaNext := Function.update s.areaNext area none }
  let p := s.pools pool
  match p.areaList with
  | none => pure (s.setPool pool { p with areaList := some area })
  | some pa =>
    if areaEnd ≤ s.addr pa then
      -- add area at list head
      pure <| { s with
        areaNext := Function.update s.areaNext area (some pa)
        areaPrev := Function.update s.areaPrev pa (some area) }.setPool pool
          { p with areaList := some area }
    else
      -- find the last area in front of the new area
      match walkWhile s.areaNext (fun a => s.addr a < start) s.listFuel pa with
      | none => throw .diverges
      | some pa =>
        let next := s.areaNext pa
        if start < Word.add (s.addr pa) (s.size pa) ∨ next.any (s.addr · < areaEnd) then
          throw .overlaps
        else
          pure { s with
            areaNext := Function.update (Function.update s.areaNext area next) pa (some area)
            areaPrev := Function.update (writeAt s.areaPrev next (some area)) area (some pa) }

/-- `__remove_area` -/
def removeArea (s : State) (pool : Nat) (area : Ptr) : Except Panic State :=
  let p := s.pools pool
  if some area = p.areaList then
    let next := s.areaNext area
    pure <| { s with areaPrev := writeAt s.areaPrev next none }.setPool pool
      { p with areaList := next }
  else
    match s.areaPrev area with
    | none => throw .corruptedAreaList
    | some pv =>
      let next := s.areaNext area
      pure { s with
        areaNext := Function.update s.areaNext pv next
        areaPrev := writeAt s.areaPrev next (some pv) }

/-! ## Free lists -/

/-- `__add_free` -/
def addFree (s : State) (pool : Nat) (area : Ptr) : Except Panic State :=
  let num := getFreeList (s.size area)
  let s := { s with
    freePrev := Function.update s.freePrev area none
    freeNext := Function.update s.freeNext area none }
  let p : PagePool := { s.pools pool with free := Word.add (s.pools pool).free (s.size area) }
  match p.freeList num with
  | none =>
    pure (s.setPool pool { p with freeList := Function.update p.freeList num (some area) })
  | some pa =>
    if s.size area < s.size pa then
      -- add area at list head
      pure <| { s with
        freeNext := Function.update s.freeNext area (some pa)
        freePrev := Function.update s.freePrev pa (some area) }.setPool pool
          { p with freeList := Function.update p.freeList num (some area) }
    else
      match walkWhile s.freeNext (fun a => s.size a < s.size area) s.listFuel pa with
      | none => throw .diverges
      | some pa =>
        let next := s.freeNext pa
        pure <| { s with
          freeNext := Function.update (Function.update s.freeNext area next) pa (some area)
          freePrev := Function.update (writeAt s.freePrev next (some area)) area (some pa)
          }.setPool pool p

/-- `__remove_free` -/
def removeFree (s : State) (pool : Nat) (area : Ptr) : Except Panic State :=
  let num := getFreeList (s.size area)
  let p : PagePool := { s.pools pool with free := Word.sub (s.pools pool).free (s.size area) }
  if some area = p.freeList num then
    let next := s.freeNext area
    pure <| { s with freePrev := writeAt s.freePrev next none }.setPool pool
      { p with freeList := Function.update p.freeList num next }
  else
    match s.freePrev area with
    | none => throw .corruptedFreeList
    | some pv =>
      let next := s.freeNext area
      pure <| { s with
        freeNext := Function.update s.freeNext pv next
        freePrev := writeAt s.freePrev next (some pv) }.setPool pool p

/-! ## Page area manipulation -/

def setRange (s : State) (area : Ptr) (addr size : Nat) : State :=
  { s with
    addr := Function.update s.addr area addr
    size := Function.update s.size area size }

def setUsed (s : State) (area : Ptr) (used : Bool) : State :=
  { s with used := Function.update s.used area used }

def setDsNext (s : State) (area : Ptr) (next : Option Ptr) : State :=
  { s with dsNext := Function.update s.dsNext area next }

/-- `__add_free_area` -/
def addFreeArea (s : State) (pool addr size : Nat) : Except Panic State := do
  let (area, s) ← s.allocAreaDesc
  let s := ((s.setRange area addr size).setDsNext area none).setUsed area false
  let s ← s.addArea pool area
  s.addFree pool area

/-- A remainder of a split, added as a free area. -/
def addRemainder (s : State) (pool addr size : Nat) : Except Panic State :=
  if 0 < size then s.addFreeArea pool addr size else pure s

/-- The two remainders of a split. -/
def addRemainders (s : State) (pool addrB sizeB addrE sizeE : Nat) : Except Panic State := do
  let s ← s.addRemainder pool addrB sizeB
  s.addRemainder pool addrE sizeE

/-- `__split_area`: use the end of the area which leaves the larger alignment, then the larger
remaining area. -/
def splitArea (s : State) (pool : Nat) (area : Ptr) (size alignment : Nat) : Except Panic State :=
  let start := s.addr area
  let areaEnd := Word.add (s.addr area) (s.size area)
  -- split at the beginning of the page area
  let addrSb := Word.roundUp start alignment
  let sbSizeB := Word.sub addrSb start
  let sbAddrE := Word.add addrSb size
  let sbSizeE := Word.sub areaEnd sbAddrE
  let sbMax := max (maxAlignment start sbSizeB) (maxAlignment sbAddrE sbSizeE)
  -- split at the end of the page area
  let addrSe := Word.roundDown (Word.sub areaEnd size) alignment
  let seSizeB := Word.sub addrSe start
  let seAddrE := Word.add addrSe size
  let seSizeE := Word.sub areaEnd seAddrE
  let seMax := max (maxAlignment start seSizeB) (maxAlignment seAddrE seSizeE)
  if areaEnd < sbAddrE ∨ areaEnd < seAddrE then throw .assertion
  else if seMax < sbMax ∨ sbMax = seMax ∧ max seSizeB seSizeE ≤ max sbSizeB sbSizeE then
    (s.setRange area addrSb size).addRemainders pool start sbSizeB sbAddrE sbSizeE
  else
    (s.setRange area addrSe size).addRemainders pool start seSizeB seAddrE seSizeE

/-! ## Release -/

/-- A part of `__release_area`: merge with the previous area. -/
def mergePrev (s : State) (pool : Nat) (area : Ptr) : Except Panic State :=
  match s.areaPrev area with
  | none => pure s
  | some pa =>
    if s.used pa = false ∧ Word.add (s.addr pa) (s.size pa) = s.addr area then do
      let s ← s.removeFree pool pa
      let s ← s.removeArea pool pa
      let s := s.setRange area (s.addr pa) (Word.add (s.size area) (s.size pa))
      pure (s.releaseAreaDesc pa)
    else pure s

/-- A part of `__release_area`: merge with the next area. -/
def mergeNext (s : State) (pool : Nat) (area : Ptr) : Except Panic State :=
  match s.areaNext area with
  | none => pure s
  | some pa =>
    if s.used pa = false ∧ Word.add (s.addr area) (s.size area) = s.addr pa then do
      let s ← s.removeFree pool pa
      let s ← s.removeArea pool pa
      let s := s.setRange area (s.addr area) (Word.add (s.size area) (s.size pa))
      pure (s.releaseAreaDesc pa)
    else pure s

/-- `__release_area` up to the point where the area is in its free list. -/
def releaseMerge (s : State) (pool : Nat) (area : Ptr) : Except Panic State := do
  let s := (s.setUsed area false).setDsNext area none
  let s ← s.mergePrev pool area
  let s ← s.mergeNext pool area
  s.addFree pool area

mutual
/-- `dmphys_pages_release`: release the page areas of a list; `__release_area` ends with
`dmphys_internal_alloc_update_free`. -/
def pagesRelease (s : State) (pool : Nat) (areas : Option Ptr) : Nat → Except Panic State
  | 0 => throw .diverges
  | fuel + 1 =>
    match areas with
    | none => pure s
    | some pa => do
      let next := s.dsNext pa
      let s ← s.releaseMerge pool pa
      let s ← s.updateFree fuel
      s.pagesRelease pool next fuel

/-- `dmphys_internal_alloc_update_free` -/
def updateFree (s : State) : Nat → Except Panic State
  | 0 => throw .diverges
  | fuel + 1 =>
    match s.freedAreas with
    | [] => pure s
    | pa :: rest => do
      let s ← { s with freedAreas := rest }.pagesRelease defaultPool (some pa) fuel
      s.updateFree fuel
end

/-- The number of rounds a release may take: one for each area of the list, and two for each page
that the descriptor memory may give up. -/
def releaseFuel (s : State) : Nat :=
  s.live.length + 2 * s.freedAreas.length + 4 * s.slabPages.length + 4

def dmphysPagesRelease (s : State) (pool : Nat) (areas : Option Ptr) : Except Panic State :=
  s.pagesRelease pool areas s.releaseFuel

def dmphysInternalAllocUpdateFree (s : State) : Except Panic State := s.updateFree s.releaseFuel

/-! ## Page allocation -/

/-- The search of `__find_single_area` through the free lists `nums`. -/
def findSingleIn (s : State) (pool size alignment : Nat) :
    List Nat → Except Panic (Option Ptr × State)
  | [] => pure (none, s)
  | num :: nums =>
    match scan s.freeNext (fun pa => size ≤ s.alignedSize pa alignment) s.listFuel
        ((s.pools pool).freeList num) with
    | none => throw .diverges
    | some none => s.findSingleIn pool size alignment nums
    | some (some pa) => do
      let s ← s.removeFree pool pa
      let s ← s.splitArea pool pa size alignment
      pure (some pa, s.setUsed pa true)

/-- `__find_single_area` -/
def findSingleArea (s : State) (pool size alignment : Nat) : Except Panic (Option Ptr × State) :=
  s.findSingleIn pool size alignment
    (List.range' (getFreeList size) (numFreeLists - getFreeList size))

/-- The first free list from `list` on whose first area has room at the alignment. -/
def firstAligned (s : State) (pool list alignment : Nat) : Option Ptr :=
  (List.range' list (numFreeLists - list)).findSome? fun num =>
    ((s.pools pool).freeList num).filter fun pa => s.alignedSize pa alignment ≠ 0

/-- The cut of `__allocate_pages`: to the size that is left, or to the aligned part. -/
def cutAligned (s : State) (pool : Nat) (pa : Ptr) (size aligned alignment : Nat) :
    Except Panic State :=
  if size < aligned then s.splitArea pool pa size alignment
  else if aligned ≠ s.size pa then s.splitArea pool pa aligned alignment
  else pure s

/-- The loop of `__allocate_pages`: at most `n` more areas for the remaining `size`. -/
def allocateLoop (pool alignment : Nat) :
    Nat → State → Nat → Option Ptr → Except Panic (State × Nat × Option Ptr)
  | 0, s, size, pl => pure (s, size, pl)
  | 1, s, size, pl =>
    if size = 0 then pure (s, size, pl)
    else do
      let (pa, s) ← s.findSingleArea pool size alignment
      match pa with
      | none => pure (s, size, pl)
      | some pa => pure (s.setDsNext pa pl, Word.sub size (s.size pa), some pa)
  | n + 2, s, size, pl =>
    if size = 0 then pure (s, size, pl)
    else
      match s.firstAligned pool (getFreeList size - Nat.log2 (n + 2)) alignment with
      | none => pure (s, size, pl)
      | some pa => do
        let aligned := s.alignedSize pa alignment
        let s ← s.removeFree pool pa
        let s ← s.cutAligned pool pa size aligned alignment
        let s := (s.setUsed pa true).setDsNext pa pl
        allocateLoop pool alignment (n + 1) s (Word.sub size (s.size pa)) (some pa)

/-- `__allocate_pages` -/
def allocatePages (s : State) (pool size maxAreas alignment : Nat) :
    Except Panic (Option Ptr × State) := do
  let (s, size, pl) ← allocateLoop pool alignment maxAreas s size none
  if 0 < size then do
    -- allocation failed, release page areas
    let s ← s.dmphysPagesRelease pool pl
    pure (none, s)
  else pure (pl, s)

/-- A part of `__allocate_area`: the pages in front of `addr` become a free area. -/
def cutBegin (s : State) (pool : Nat) (pa : Ptr) (addr : Nat) : Except Panic State :=
  if s.addr pa < addr then
    let ra := s.addr pa
    let rs := Word.sub addr (s.addr pa)
    (s.setRange pa addr (Word.sub (s.size pa) rs)).addFreeArea pool ra rs
  else pure s

/-- A part of `__allocate_area`: the pages behind the requested range become a free area. -/
def cutEnd (s : State) (pool : Nat) (pa : Ptr) (addr size : Nat) : Except Panic State :=
  if Word.add addr size < Word.add (s.addr pa) (s.size pa) then
    let ra := Word.add addr size
    let rs := Word.sub (Word.add (s.addr pa) (s.size pa)) ra
    (s.setRange pa (s.addr pa) size).addFreeArea pool ra rs
  else pure s

/-- `__allocate_area` -/
def allocateArea (s : State) (pool addr size : Nat) : Except Panic (Option Ptr × State) :=
  match scan s.areaNext (fun pa => addr < Word.add (s.addr pa) (s.size pa)) s.listFuel
      (s.pools pool).areaList with
  | none => throw .diverges
  | some none => pure (none, s)
  | some (some pa) =>
    if addr < s.addr pa then pure (none, s)
    else if Word.add (s.addr pa) (s.size pa) < Word.add addr size then pure (none, s)
    else if s.used pa then pure (none, s)
    else do
      let s ← s.removeFree pool pa
      let s ← s.cutBegin pool pa addr
      let s ← s.cutEnd pool pa addr size
      pure (some pa, s.setUsed pa true)

/-- `__enlarge_area` -/
def enlargeArea (s : State) (pool : Nat) (area : Ptr) (size : Nat) :
    Except Panic (Bool × State) :=
  match s.areaNext area with
  | none => pure (false, s)
  | some pa =>
    if s.used pa then pure (false, s)
    else if Word.add (s.addr area) (s.size area) ≠ s.addr pa then pure (false, s)
    else if s.size pa < size then pure (false, s)
    else do
      let s ← s.removeFree pool pa
      let s ← s.removeArea pool pa
      let s := s.setRange area (s.addr area) (Word.add (s.size area) size)
      let s := s.setRange pa (Word.add (s.addr pa) size) (Word.sub (s.size pa) size)
      if 0 < s.size pa then do
        let s ← s.addArea pool pa
        let s ← s.addFree pool pa
        pure (true, s)
      else pure (true, s.releaseAreaDesc pa)

/-! ## DMphys internal interface -/

/-- `L4DM_CONTIGUOUS` -/
def contiguous (flags : Nat) : Bool := flags.testBit 8

/-- `L4DM_MEMPHYS_SUPERPAGES` -/
def superPages (flags : Nat) : Bool := flags.testBit 16

/-- The check of the available memory that every allocation makes. -/
def available (s : State) (pool size : Nat) (prio : Prio) : Bool :=
  let p := s.pools pool
  decide (size ≤ p.free) && !(prio == .user && decide (Word.sub p.free size < p.reserved))

/-- `dmphys_pages_allocate` -/
def dmphysPagesAllocate (s : State) (pool size alignment flags : Nat) (prio : Prio) :
    Except Panic (Option Ptr × State) :=
  if s.available pool size prio = false then pure (none, s)
  else
    let alignment := max alignment pageSize
    let (size, alignment) :=
      if superPages flags then
        (Word.roundUp size superPageSize, max alignment superPageSize)
      else (size, alignment)
    if contiguous flags then s.findSingleArea pool size alignment
    else s.allocatePages pool size maxDsAreas alignment

/-- `dmphys_pages_allocate_area` -/
def dmphysPagesAllocateArea (s : State) (pool addr size : Nat) (prio : Prio) :
    Except Panic (Option Ptr × State) :=
  if s.available pool size prio = false then pure (none, s) else s.allocateArea pool addr size

/-- `dmphys_pages_enlarge` -/
def dmphysPagesEnlarge (s : State) (pool : Nat) (area : Ptr) (size : Nat) (prio : Prio) :
    Except Panic (Option Err × State) :=
  if s.used area = false then pure (some .einval, s)
  else if s.available pool size prio = false then pure (some .enomem, s)
  else if s.dsNext area ≠ none then throw .assertion
  else do
    let (done, s) ← s.enlargeArea pool area size
    pure (if done then none else some .enomem, s)

/-- The page areas of a list, in order; `none` if it does not end. -/
def pageList (s : State) : Nat → Option Ptr → Option (List Ptr)
  | 0, _ => none
  | _ + 1, none => some []
  | fuel + 1, some pa => (s.pageList fuel (s.dsNext pa)).map (pa :: ·)

/-- `dmphys_pages_add` -/
def dmphysPagesAdd (s : State) (pool : Nat) (pages : Ptr) (size : Nat) (prio : Prio) :
    Except Panic (Option Err × State) :=
  if s.available pool size prio = false then pure (some .enomem, s)
  else
    match s.pageList s.listFuel (some pages) with
    | none => throw .diverges
    | some old => do
      -- the number of page areas we can add
      let maxNew := if maxDsAreas ≤ old.length then 1 else maxDsAreas - old.length
      let (new, s) ← s.allocatePages pool size maxNew pageSize
      match new with
      | none => pure (some .enomem, s)
      | some pa => pure (none, s.setDsNext (old.getLastD pages) (some pa))

/-- `dmphys_pages_find_offset` -/
def findOffset (s : State) : Nat → Option Ptr → Nat → Except Panic (Option (Ptr × Nat))
  | 0, _, _ => throw .diverges
  | _ + 1, none, _ => pure none
  | fuel + 1, some pa, offset =>
    if s.size pa ≤ offset then s.findOffset fuel (s.dsNext pa) (offset - s.size pa)
    else pure (some (pa, offset))

/-- The loop of `dmphys_pages_shrink` that releases the rest of the page list. -/
def releaseRest (s : State) (pool : Nat) (last : Ptr) : Nat → Except Panic State
  | 0 => throw .diverges
  | fuel + 1 =>
    match s.dsNext last with
    | none => pure s
    | some pa => do
      let s := s.setDsNext last (s.dsNext pa)
      let s ← s.releaseMerge pool pa
      let s ← s.dmphysInternalAllocUpdateFree
      s.releaseRest pool last fuel

/-- A part of `dmphys_pages_shrink`: the unused end of the last area becomes a free area. -/
def cutLast (s : State) (pool : Nat) (last : Ptr) (size : Nat) : Except Panic State :=
  if size < s.size last then
    let ra := Word.add (s.addr last) size
    let rs := Word.sub (s.size last) size
    (s.setRange last (s.addr last) size).addFreeArea pool ra rs
  else pure s

/-- `dmphys_pages_shrink` -/
def dmphysPagesShrink (s : State) (pool : Nat) (pages : Ptr) (size : Nat) :
    Except Panic (Option Err × State) := do
  match ← s.findOffset s.listFuel (some pages) (Word.sub size 1) with
  | none => pure (some .einval, s)
  | some (last, offset) =>
    let s ← s.cutLast pool last (Word.add offset 1)
    let s ← s.releaseRest pool last s.listFuel
    pure (none, s)

/-- `dmphys_pages_add_free_area` -/
def dmphysPagesAddFreeArea (s : State) (pool addr size : Nat) : Except Panic State := do
  let s ← s.addFreeArea pool addr size
  let p := s.pools pool
  pure (s.setPool pool { p with size := Word.add p.size size })

/-- The loop of `__refill` over the entries `is`. -/
def refillLoop (s : State) : List Nat → Except Panic State
  | [] => pure s
  | i :: is =>
    match s.memPool[i]? with
    | none => s.refillLoop is
    | some e =>
      if e.mapAddr = none then do
        let (pa, s) ← s.dmphysPagesAllocate defaultPool pageSize 0 (2 ^ 8) .internal
        match pa with
        | none => pure s
        | some pa =>
          let s := { s with
            memPool := s.memPool.set i ⟨true, some (s.addr pa), some pa⟩
            numFree := s.numFree + 1 }
          s.refillLoop is
      else s.refillLoop is

/-- `__refill` -/
def refill (s : State) : Except Panic State :=
  if s.updateInProgress then pure s
  else do
    let s ← { s with updateInProgress := true }.refillLoop
      (List.range' intPoolInitial intPoolMaxAlloc)
    pure { s with updateInProgress := false }

/-- `dmphys_internal_alloc_update` -/
def dmphysInternalAllocUpdate (s : State) : Except Panic State := do
  let s ← if s.numFree < intPoolMin then s.refill else pure s
  s.dmphysInternalAllocUpdateFree

end State

end L4env.DMphys
