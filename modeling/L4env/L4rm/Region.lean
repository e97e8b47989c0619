import L4env.Util.Word
import L4env.Util.Links
import L4env.L4rm.AvlTree

/-!
# L4RM: regions

The region list of `l4rm/lib/src/region.c` and the operations of the L4RM library that change it, in
`attach.c`, `reserve.c`, `setup.c`, `release.c` and `detach.c`, together with the region tree of
`region_tree.c`. A region descriptor is a pointer into the maps `region`, `next` and `prev`; the
descriptors that the slab cache has handed out are `live`.

An operation gets the answers of its environment in an `Env`: what the two slab caches return and
whether the calls of the region mapper thread succeed. Every operation holds the lock of the region
list, so operations are steps. A failed assertion, a reached panic, an access through a null
pointer and a loop that does not end are faults; the state after a fault is not a state of L4RM.
-/

namespace L4env.L4rm

/-- The type bits of the region flags. -/
inductive RegionType
  | free
  | dataspace
  | pager
  | exception
  | blocked
  deriving DecidableEq, Repr

/-- The flags word of a descriptor: `TYPE_MASK` and `AREA_MASK`. -/
structure RegionFlags where
  type : RegionType := .free
  area : Nat := 0
  deriving DecidableEq, Repr

/-- What a region is backed by. -/
inductive RegionData
  | none
  | ds (ds offs rights : Nat)
  | pager (id : Nat)
  deriving DecidableEq, Repr

/-- `l4rm_region_desc_t` without its links, with the field `end` as `last`. -/
structure Region where
  start : Nat
  last : Nat
  flags : RegionFlags := {}
  data : RegionData := .none
  deriving DecidableEq, Repr

/-- `IS_USED_REGION` -/
def Region.used (r : Region) : Bool := r.flags.type ≠ .free

/-- The flag bits of the attach, setup and reserve operations. -/
structure RmFlags where
  log2Aligned : Bool := false
  log2Alloc : Bool := false
  superpageAligned : Bool := false
  modifyDirect : Bool := false
  setArea : Bool := false
  treeInsert : Bool := false
  deriving DecidableEq, Repr

/-- Error codes. -/
inductive RmRet
  | ok
  | enomem
  | einval
  | enomap
  | eused
  | eipc
  | eexists
  | enotfound
  deriving DecidableEq, Repr

/-- The address `L4RM_ADDR_FIND`. -/
def addrFind : Nat := 4294967295

def defaultArea : Nat := 0

def pageSize : Nat := 4096

structure Rm where
  region : Ptr → Region
  next : Ptr → Option Ptr
  prev : Ptr → Option Ptr
  live : List Ptr
  head : Option Ptr
  vmStart : Nat
  vmEnd : Nat
  /-- `l4rm_task_pager_id` -/
  taskPager : Nat := 0
  tree : Avl := .init

/-- The answers that an operation gets: descriptors for the region and for the end of a region that
is split, the node of the tree, and whether the call of the region mapper fails (before or after
it has been carried out). -/
structure Env where
  desc : Option Ptr := none
  tmp : Option Ptr := none
  node : Option Ptr := none
  ipcLost : Bool := false
  replyLost : Bool := false

/-- `1UL << n`, with the shift of the processor, which takes the count modulo 32. -/
def shl1 (n : Int) : Nat := 2 ^ (n % 32).toNat

namespace Rm

def listFuel (s : Rm) : Nat := s.live.length + 1

def setRegion (s : Rm) (p : Ptr) (r : Region) : Rm :=
  { s with region := Function.update s.region p r }

def setFlags (s : Rm) (p : Ptr) (f : RegionFlags) : Rm :=
  s.setRegion p { s.region p with flags := f }

def setNext (s : Rm) (p : Ptr) (q : Option Ptr) : Rm :=
  { s with next := Function.update s.next p q }

def setPrev (s : Rm) (p : Ptr) (q : Option Ptr) : Rm :=
  { s with prev := Function.update s.prev p q }

/-- `if (p) p->prev = q` -/
def setPrevIf (s : Rm) (p : Option Ptr) (q : Ptr) : Rm :=
  { s with prev := writeAt s.prev p (some q) }

/-- `p->next = q`, where `p` may be null. -/
def setNextOf (s : Rm) (p : Option Ptr) (q : Ptr) : Except Fault Rm :=
  match p with
  | some p => pure (s.setNext p (some q))
  | none => throw .badPointer

/-- `l4rm_region_desc_alloc`, with the answer `new` of the slab cache. -/
def descAlloc (s : Rm) (new : Option Ptr) : Option (Ptr × Rm) :=
  match new with
  | none => none
  | some p => some (p, { s with
      region := Function.update s.region p { s.region p with flags := {} }
      next := Function.update s.next p none
      prev := Function.update s.prev p none
      live := p :: s.live })

/-- `l4rm_region_desc_free` -/
def descFree (s : Rm) (p : Ptr) : Rm := { s with live := s.live.erase p }

/-! ## The region list -/

/-- `__insert_region` -/
def insertRegion (s : Rm) (region rp : Ptr) (tmp : Option Ptr) : Except Fault (RmRet × Rm) := do
  let r := s.region region
  let f := s.region rp
  Avl.assert (r.flags ≠ f.flags)
  if f.start = r.start then
    if f.last = r.last then
      -- replace the descriptor of the free region
      if s.head = some rp then
        let s := s.setPrev region none
        let s := s.setNext region (s.next rp)
        let s := s.setPrevIf (s.next rp) region
        return (.ok, { s with head := some region }.descFree rp)
      else
        let s := s.setPrev region (s.prev rp)
        let s ← s.setNextOf (s.prev region) region
        let s := s.setNext region (s.next rp)
        let s := s.setPrevIf (s.next rp) region
        return (.ok, s.descFree rp)
    else
      -- shrink the free region at its start
      let s := s.setRegion rp { f with start := Word.add r.last 1 }
      if s.head = some rp then
        let s := s.setPrev region none
        let s := s.setNext region (some rp)
        let s := s.setPrev rp (some region)
        return (.ok, { s with head := some region })
      else
        let s := s.setPrev region (s.prev rp)
        let s ← s.setNextOf (s.prev rp) region
        let s := s.setNext region (some rp)
        return (.ok, s.setPrev rp (some region))
  else if f.last = r.last then
    -- shrink the free region at its end
    let s := s.setRegion rp { f with last := Word.sub r.start 1 }
    let s := s.setNext region (s.next rp)
    let s := s.setPrev region (some rp)
    let s := s.setPrevIf (s.next region) region
    return (.ok, s.setNext rp (some region))
  else
    -- split the free region
    match s.descAlloc tmp with
    | none => return (.enomem, s)
    | some (t, s) =>
      let s := s.setRegion t
        { s.region t with start := Word.add r.last 1, last := f.last, flags := f.flags }
      let s := s.setPrev t (some region)
      let s := s.setNext t (s.next rp)
      let s := s.setPrevIf (s.next t) t
      let s := s.setRegion rp { f with last := Word.sub r.start 1 }
      let s := s.setNext rp (some region)
      let s := s.setPrev region (some rp)
      return (.ok, s.setNext region (some t))

/-- The first part of `__modify_region`: join with the previous region. The result is the descriptor
of the region. -/
def joinPrev (s : Rm) (region : Ptr) : Ptr × Rm :=
  match s.prev region with
  | none => (region, s)
  | some tmp =>
    if (s.region tmp).flags = (s.region region).flags then
      let s := s.setRegion tmp { s.region tmp with last := (s.region region).last }
      let s := s.setNext tmp (s.next region)
      let s := s.setPrevIf (s.next tmp) tmp
      (tmp, s.descFree region)
    else (region, s)

/-- The second part of `__modify_region`: join with the next region. -/
def joinNext (s : Rm) (region : Ptr) : Except Fault Rm :=
  match s.next region with
  | none => pure s
  | some tmp =>
    if (s.region region).flags = (s.region tmp).flags then do
      let s := s.setRegion tmp { s.region tmp with start := (s.region region).start }
      if s.head = some region then
        let s := s.setPrev tmp none
        return { s with head := some tmp }.descFree region
      else
        let s := s.setPrev tmp (s.prev region)
        let s ← s.setNextOf (s.prev tmp) tmp
        return s.descFree region
    else pure s

/-- `__modify_region` -/
def modifyRegion (s : Rm) (region : Ptr) (newFlags : RegionFlags) : Except Fault Rm :=
  let s := s.setFlags region newFlags
  if (s.region region).used then pure s
  else
    let (region, s) := s.joinPrev region
    s.joinNext region

/-- The address at which `__find_free_region` places a region in `r`. -/
def alignedAddr (r : Region) (align : Int) : Nat := Word.roundUp r.start (shl1 align)

/-- The test of `__find_free_region`. -/
def fits (r : Region) (size area : Nat) (align : Int) : Bool :=
  !r.used && r.flags.area = area &&
    Word.add size (Word.sub (alignedAddr r align) r.start) ≤ Word.add (Word.sub r.last r.start) 1

/-- `__find_free_region` -/
def findFreeRegion (s : Rm) (size area : Nat) (align : Int) :
    Except Fault (Except RmRet (Ptr × Nat)) :=
  match scan s.next (fun rp => fits (s.region rp) size area align) s.listFuel s.head with
  | none => throw .diverges
  | some none => pure (.error .enomap)
  | some (some rp) => pure (.ok (rp, alignedAddr (s.region rp) align))

/-- The walk to the region that an address falls into. -/
def walk (s : Rm) (addr : Nat) : Except Fault Ptr :=
  match scan s.next (fun rp => addr ≤ (s.region rp).last) s.listFuel s.head with
  | none => throw .diverges
  | some none => throw .assertion
  | some (some rp) => pure rp

/-- `__find_region` -/
def findRegion' (s : Rm) (addr size area : Nat) : Except Fault (Except RmRet Ptr) := do
  if addr < s.vmStart ∨ s.vmEnd < addr ∨ s.vmEnd < Word.add addr size then
    return .error .einval
  let rp ← s.walk addr
  let r := s.region rp
  if r.used ∨ r.flags.area ≠ area ∨ r.last < Word.sub (Word.add addr size) 1 then
    return .error .eused
  return .ok rp

/-- `l4rm_init_regions`, for the address space `vmStart` to `vmEnd` and the first descriptor. -/
def init (vmStart vmEnd taskPager : Nat) (p : Ptr) : Rm where
  region := Function.update (fun _ => ⟨0, 0, {}, .none⟩) p ⟨vmStart, vmEnd, {}, .none⟩
  next := fun _ => none
  prev := fun _ => none
  live := [p]
  head := some p
  vmStart := vmStart
  vmEnd := vmEnd
  taskPager := taskPager

/-- `l4rm_free_region` -/
def freeRegion (s : Rm) (region : Ptr) : Except Fault Rm :=
  let r := s.region region
  if r.used = false then pure s
  else
    let s := s.setFlags region { r.flags with type := .free }
    s.modifyRegion region (s.region region).flags

/-! ## The region tree -/

/-- `__add_region` -/
def addRegion (s : Rm) (key : Key) (data : Ptr) (node : Option Ptr) : Except Fault (RmRet × Rm) := do
  let (ret, t) ← s.tree.insert key data node
  let s := { s with tree := t }
  match ret with
  | .ok => return (.ok, s)
  | .noMem => return (.enomem, s)
  | _ => return (.eexists, s)

/-- `__remove_region` -/
def removeRegion (s : Rm) (addr : Nat) (type : RegionType) :
    Except Fault (Except RmRet Ptr × Rm) := do
  match ← s.tree.find ⟨addr, addr⟩ with
  | none => return (.error .enotfound, s)
  | some r =>
    if (s.region r).flags.type = type then
      let (ret, t) ← s.tree.remove ⟨(s.region r).start, (s.region r).last⟩
      let s := { s with tree := t }
      if ret = .ok then return (.ok r, s) else return (.error .einval, s)
    else return (.error .einval, s)

/-- `l4rm_tree_insert_region` -/
def treeInsertRegion (s : Rm) (region : Ptr) (flags : RmFlags) (env : Env) :
    Except Fault (RmRet × Rm) := do
  let key : Key := ⟨(s.region region).start, (s.region region).last⟩
  if flags.modifyDirect then s.addRegion key region env.node
  else if env.ipcLost then return (.eipc, s)
  else
    let (ret, s) ← s.addRegion key region env.node
    if env.replyLost then return (.eipc, s) else return (ret, s)

/-- `l4rm_tree_remove_region`, called without `L4RM_MODIFY_DIRECT` everywhere. -/
def treeRemoveRegion (s : Rm) (addr : Nat) (type : RegionType) (env : Env) :
    Except Fault (Except RmRet Ptr × Rm) := do
  if env.ipcLost then return (.error .eipc, s)
  let (ret, s) ← s.removeRegion addr type
  if env.replyLost then return (.error .eipc, s) else return (ret, s)

/-! ## New regions -/

/-- The size and the alignment for which `l4rm_new_region` looks. -/
def findArgs (size : Nat) (flags : RmFlags) : Nat × Int :=
  let align : Int := Word.bsr size
  let align := if shl1 align < size then align + 1 else align
  let size' := if flags.log2Aligned && flags.log2Alloc then shl1 align else size
  let align := if flags.log2Aligned then align else 12
  (size', if flags.superpageAligned && align < 22 then 22 else align)

/-- The first part of `l4rm_new_region`: the free region, and the address and the size of the new
one. -/
def place (s : Rm) (addr size area : Nat) (flags : RmFlags) :
    Except Fault (Except RmRet (Ptr × Nat × Nat)) := do
  let size := Word.roundUp size pageSize
  if addr = addrFind then
    let (size, align) := findArgs size flags
    match ← s.findFreeRegion size area align with
    | .error e => return .error e
    | .ok (rp, mapAddr) => return .ok (rp, mapAddr, size)
  else
    let mapAddr := Word.roundDown addr pageSize
    match ← s.findRegion' mapAddr size area with
    | .error e => return .error e
    | .ok rp => return .ok (rp, mapAddr, size)

/-- `l4rm_new_region` -/
def newRegion (s : Rm) (region : Ptr) (addr size area : Nat) (flags : RmFlags) (env : Env) :
    Except Fault (RmRet × Rm) := do
  match ← s.place addr size area flags with
  | .error e => return (e, s)
  | .ok (rp, mapAddr, size) =>
    let area := if flags.setArea then mapAddr / pageSize else area
    let s := s.setRegion region { s.region region with
      start := mapAddr
      last := Word.sub (Word.add mapAddr size) 1
      flags := { (s.region region).flags with area := area % 1048576 } }
    let (ret, s) ← s.insertRegion region rp env.tmp
    if ret ≠ .ok then return (ret, s)
    if flags.treeInsert then
      let (ret, s) ← s.treeInsertRegion region flags env
      if ret ≠ .ok then
        if ret = .eexists then throw .corrupted
        return (ret, ← s.freeRegion region)
      return (.ok, s)
    return (.ok, s)

/-! ## The operations of the library -/

/-- The results of an operation: the error code and the values stored through `addr` and `area`. -/
structure Out where
  ret : RmRet
  addr : Nat := 0
  area : Nat := 0

/-- What attach, setup and reserve have in common: a descriptor with the type and the data of the
region is allocated and put into the list, and released if that fails. -/
def create (s : Rm) (type : RegionType) (data : RegionData) (addr size area : Nat)
    (flags : RmFlags) (env : Env) : Except Fault (RmRet × Ptr × Rm) := do
  match s.descAlloc env.desc with
  | none => return (.enomem, 0, s)
  | some (r, s) =>
    let s := s.setRegion r { s.region r with flags := { type := type }, data := data }
    let (ret, s) ← s.newRegion r addr size area flags env
    if ret ≠ .ok then return (ret, r, s.descFree r)
    return (.ok, r, s)

/-- `l4rm_do_attach`; `none` is the invalid dataspace. The region is mapped outside of L4RM. -/
def doAttach (s : Rm) (ds : Option Nat) (area addr size dsOffs rights : Nat) (flags : RmFlags)
    (env : Env) : Except Fault (Out × Rm) := do
  match ds with
  | none => return ({ ret := .einval, addr := addr }, s)
  | some ds =>
    let startOffs := Word.roundDown dsOffs pageSize
    let mapOffs := Word.sub dsOffs startOffs
    let (ret, r, s) ← s.create .dataspace (.ds ds startOffs rights) addr (Word.add size mapOffs) area
      { flags with treeInsert := true } env
    if ret ≠ .ok then return ({ ret := ret, addr := addr }, s)
    return ({ ret := .ok, addr := Word.add (s.region r).start mapOffs }, s)

/-- The region type and the data that `l4rm_do_area_setup` sets for `L4RM_REGION_PAGER`,
`L4RM_REGION_EXCEPTION` and `L4RM_REGION_BLOCKED`; an invalid pager is `none`. -/
def setupType (s : Rm) (type : Nat) (pager : Option Nat) : Option (RegionType × RegionData) :=
  if type = 4 then some (.pager, .pager (pager.getD s.taskPager))
  else if type = 5 then some (.exception, .none)
  else if type = 6 then some (.blocked, .none)
  else none

/-- `l4rm_do_area_setup` -/
def doAreaSetup (s : Rm) (addr size area type : Nat) (flags : RmFlags) (pager : Option Nat)
    (env : Env) : Except Fault (Out × Rm) := do
  match s.setupType type pager with
  | none => return ({ ret := .einval, addr := addr }, s)
  | some (t, data) =>
    let (ret, r, s) ← s.create t data addr size area { flags with treeInsert := true } env
    if ret ≠ .ok then return ({ ret := ret, addr := addr }, s)
    return ({ ret := .ok, addr := (s.region r).start }, s)

/-- `l4rm_do_reserve` -/
def doReserve (s : Rm) (addr size : Nat) (flags : RmFlags) (env : Env) :
    Except Fault (Out × Rm) := do
  let (ret, r, s) ← s.create .free .none addr size defaultArea { flags with setArea := true } env
  if ret ≠ .ok then return ({ ret := ret, addr := addr }, s)
  return ({ ret := .ok, addr := (s.region r).start, area := (s.region r).flags.area }, s)

/-- `l4rm_detach` -/
def detach (s : Rm) (addr : Nat) (env : Env) : Except Fault (Out × Rm) := do
  match ← s.treeRemoveRegion addr .dataspace env with
  | (.error e, s) => return ({ ret := e }, s)
  | (.ok r, s) => return ({ ret := .ok }, ← s.freeRegion r)

/-- `l4rm_find_used_region` -/
def findUsedRegion (s : Rm) (addr : Nat) : Except Fault (Option Ptr) :=
  s.tree.find ⟨addr, addr⟩

/-- `l4rm_area_clear_region` -/
def areaClearRegion (s : Rm) (addr : Nat) (env : Env) : Except Fault (Out × Rm) := do
  match ← s.findUsedRegion addr with
  | none => return ({ ret := .enotfound }, s)
  | some rp =>
    if (s.region rp).flags.type = .dataspace then return ({ ret := .einval }, s)
    match ← s.treeRemoveRegion addr (s.region rp).flags.type env with
    | (.error e, s) => return ({ ret := e }, s)
    | (.ok r, s) => return ({ ret := .ok }, ← s.freeRegion r)

/-- The loop of `l4rm_reset_area`. -/
def resetLoop (area : Nat) : Nat → Rm → Except Fault Rm
  | 0, _ => throw .diverges
  | n + 1, s =>
    match scan s.next (fun rp => (s.region rp).flags.area = area) s.listFuel s.head with
    | none => throw .diverges
    | some none => pure s
    | some (some rp) => do
      let s := s.setFlags rp { (s.region rp).flags with area := defaultArea }
      let s ← s.modifyRegion rp (s.region rp).flags
      resetLoop area n s

/-- `l4rm_reset_area` -/
def resetArea (s : Rm) (area : Nat) : Except Fault Rm := resetLoop area s.listFuel s

/-- `l4rm_area_release` -/
def areaRelease (s : Rm) (area : Nat) : Except Fault (Out × Rm) := do
  return ({ ret := .ok }, ← s.resetArea area)

/-- `l4rm_find_region` -/
def findRegion (s : Rm) (addr : Nat) : Except Fault (Option Ptr) := do
  if addr < s.vmStart ∨ s.vmEnd < addr then return none
  return some (← s.walk addr)

/-- `l4rm_area_release_addr` -/
def areaReleaseAddr (s : Rm) (addr : Nat) : Except Fault (Out × Rm) := do
  match ← s.findRegion addr with
  | none => return ({ ret := .einval }, s)
  | some rp =>
    if (s.region rp).flags.area = defaultArea then return ({ ret := .einval }, s)
    return ({ ret := .ok }, ← s.resetArea (s.region rp).flags.area)

end Rm

end L4env.L4rm
