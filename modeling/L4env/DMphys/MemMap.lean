import L4env.Util.Word
import L4env.Util.Links
import L4env.DMphys.Pages

/-!
# DMphys: the boot memory map

The low level memory map of `dm_phys/server/src/memmap.c`: the conventional memory of the kernel info
page is inserted area by area, then memory is reserved and mapped to the page pools. An area
descriptor is a pointer into three maps, its attributes and its two links.

The pages that sigma0 grants or denies are answers of the environment, in the order in which `__map`
asks for them. A reached `Panic`, an access through a null pointer and a loop that does not end are
the exceptions of type `Fault`.
-/

namespace L4env.DMphys

inductive MemFlags
  | unused
  | mapped
  | reserved
  | denied
  deriving DecidableEq, Repr

structure MemArea where
  addr : Nat
  size : Nat
  pagesize : Nat := 0
  pool : Nat := 99
  flags : MemFlags := .unused
  deriving DecidableEq, Repr

structure MemMap where
  area : Ptr → MemArea
  prev : Ptr → Option Ptr
  next : Ptr → Option Ptr
  /-- Descriptors in use, and the slab cache that hands them out. -/
  live : List Ptr
  pick : List Ptr → Ptr
  pick_not_mem : ∀ live, pick live ∉ live
  mem : Option Ptr
  physMemLow : Nat
  physMemHigh : Nat
  memLow : Nat
  memHigh : Nat

inductive Fault
  /-- An access through a null pointer. -/
  | nullPointer
  /-- `DMphys: failed to map reserved page` -/
  | reservedPage
  /-- `DMphys: not enough memory found for pool` -/
  | notEnough
  | diverges
  deriving DecidableEq, Repr

/-- A memory descriptor of the kernel info page. -/
structure MemDesc where
  start : Nat
  last : Nat
  conventional : Bool := true
  isVirtual : Bool := false
  deriving DecidableEq, Repr

namespace MemMap

def addr (m : MemMap) (a : Ptr) : Nat := (m.area a).addr
def size (m : MemMap) (a : Ptr) : Nat := (m.area a).size
def flags (m : MemMap) (a : Ptr) : MemFlags := (m.area a).flags

/-- `mp->addr + mp->size` -/
def areaEnd (m : MemMap) (a : Ptr) : Nat := Word.add (m.addr a) (m.size a)

def setArea (m : MemMap) (a : Ptr) (x : MemArea) : MemMap :=
  { m with area := Function.update m.area a x }

def listFuel (m : MemMap) : Nat := m.live.length + 1

/-- `__alloc_memmap_desc`, with the attributes that the caller sets. -/
def allocMemmapDesc (m : MemMap) (x : MemArea) : Ptr × MemMap :=
  let p := m.pick m.live
  (p, { m with
    area := Function.update m.area p x
    prev := Function.update m.prev p none
    next := Function.update m.next p none
    live := p :: m.live })

/-- `__release_memmap_desc` -/
def releaseMemmapDesc (m : MemMap) (a : Ptr) : MemMap := { m with live := m.live.erase a }

/-- `__find_addr` -/
def findAddr (m : MemMap) (addr : Nat) : Except Fault (Option Ptr) :=
  if m.physMemHigh ≤ addr then pure none
  else
    match scan m.next (fun mp => !decide (m.areaEnd mp ≤ addr)) m.listFuel m.mem with
    | none => throw .diverges
    | some mp => pure mp

/-- `__cut_end` -/
def cutEnd (m : MemMap) (area : Ptr) (size : Nat) : Bool × MemMap :=
  let x := m.area area
  if x.size ≤ size then (false, m)
  else
    let (mp, m) := m.allocMemmapDesc
      { x with addr := Word.add x.addr (Word.sub x.size size), size := size }
    let m := m.setArea area { x with size := Word.sub x.size size }
    let next := m.next area
    (true, { m with
      prev := writeAt (Function.update m.prev mp (some area)) next (some mp)
      next := Function.update (Function.update m.next mp next) area (some mp) })

/-- `__cut_begin`: the head `mem` of the memory map is not updated. -/
def cutBegin (m : MemMap) (area : Ptr) (size : Nat) : Bool × MemMap :=
  let x := m.area area
  if x.size ≤ size then (false, m)
  else
    let (mp, m) := m.allocMemmapDesc { x with size := size }
    let m := m.setArea area { x with addr := Word.add x.addr size, size := Word.sub x.size size }
    let prev := m.prev area
    (true, { m with
      next := writeAt (Function.update m.next mp (some area)) prev (some mp)
      prev := Function.update (Function.update m.prev mp prev) area (some mp) })

/-- `__mark_begin` -/
def markBegin (m : MemMap) (area : Ptr) (size pool pagesize : Nat) (flags : MemFlags) :
    Except Fault (Bool × MemMap) :=
  if size = m.size area then
    pure (true, m.setArea area
      { m.area area with pool := pool, pagesize := pagesize, flags := flags })
  else
    match m.cutBegin area size with
    | (false, m) => pure (false, m)
    | (true, m) =>
      match m.prev area with
      | none => throw .nullPointer
      | some mp => pure (true, m.setArea mp
          { m.area mp with pool := pool, pagesize := pagesize, flags := flags })

/-- The loop of `dmphys_memmap_check_pagesize`. -/
def checkLoop (m : MemMap) (size pagesize : Nat) :
    Nat → Option Ptr → Nat → Nat → Except Fault Bool
  | 0, _, _, _ => throw .diverges
  | _ + 1, none, _, got => pure (decide (size ≤ got))
  | fuel + 1, some mp, addr, got =>
    if size ≤ got then pure true
    else if m.flags mp ≠ .mapped then pure false
    else if (m.area mp).pagesize < pagesize then pure false
    else
      let n := Word.sub (m.size mp) (Word.sub addr (m.addr mp))
      m.checkLoop size pagesize fuel (m.next mp) (Word.add addr n) (Word.add got n)

/-- `dmphys_memmap_check_pagesize`: the area is mapped with this pagesize. -/
def checkPagesize (m : MemMap) (addr size pagesize : Nat) : Except Fault Bool :=
  if 31 < pagesize ∨ pagesize < log2PageSize then pure false
  else if addr % 2 ^ pagesize ≠ 0 ∨ size % 2 ^ pagesize ≠ 0 then pure false
  else do
    let mp ← m.findAddr addr
    m.checkLoop size pagesize m.listFuel mp addr 0

/-! ## `__map` -/

/-- The arguments of `__map`. -/
structure MapArgs where
  low : Nat
  high : Nat
  /-- The amount to map; `none` is the size `-1`, all there is. -/
  size : Option Nat
  pool : Nat
  use4MPages : Bool
  force : Bool

/-- The variables of the loop over the pages of an area: the pages that were asked for and are not
marked yet (`pending`, `mapped` and `is4M` are `area_size`, `last_mapped` and `last_4M`), the next
page, the bytes of the area that are left and the bytes that are needed. -/
structure MapLoop where
  map : MemMap
  pending : Nat := 0
  mapped : Bool := false
  is4M : Bool := false
  addr : Nat
  left : Nat
  need : Nat

/-- Mark the pending pages in the memory map. -/
def markPending (v : MapLoop) (mp : Ptr) (pool : Nat) : Except Fault (Bool × MemMap) :=
  if 0 < v.pending then
    if v.mapped = false then v.map.markBegin mp v.pending 99 0 .denied
    else v.map.markBegin mp v.pending pool (if v.is4M then 22 else 12) .mapped
  else pure (true, v.map)

/-- A part of `__map`: the next page joins the pending ones, or these are of another kind and are
marked before. -/
def joinPage (v : MapLoop) (mp : Ptr) (pool bytes : Nat) (mapped is4M : Bool) :
    Except Fault (Bool × MapLoop) :=
  if v.mapped = mapped ∧ (mapped = true → v.is4M = is4M) then
    pure (true, { v with pending := Word.add v.pending bytes })
  else do
    let (ok, m) ← markPending v mp pool
    pure (ok, { v with
      map := m, pending := bytes, mapped := mapped, is4M := if mapped then is4M else v.is4M })

/-- A part of `__map`: behind the page. -/
def advance (v : MapLoop) (bytes : Nat) (granted : Bool) : MapLoop :=
  { v with
    addr := Word.add v.addr bytes
    left := Word.sub v.left bytes
    need := if granted then Word.sub v.need bytes else v.need }

/-- A part of `__map`: sigma0 granted or denied a 4KB-page. -/
def smallPage (g : MapArgs) (v : MapLoop) (mp : Ptr) (granted : Bool) :
    Except Fault (Bool × MapLoop) :=
  if granted then do
    let (ok, v) ← joinPage v mp g.pool pageSize true false
    pure (ok, advance v pageSize true)
  else if g.force then throw .reservedPage
  else do
    let (ok, v) ← joinPage v mp g.pool pageSize false false
    pure (ok, advance v pageSize false)

/-- `__map` tries a 4MB-page. -/
def try4M (g : MapArgs) (v : MapLoop) : Bool :=
  g.use4MPages && decide (superPageSize ≤ v.left) && decide (superPageSize ≤ v.need) &&
    v.addr % superPageSize == 0

/-- The loop of `__map` over the pages of the area `mp`; `answers` are those of sigma0. -/
def mapPages (g : MapArgs) (mp : Ptr) :
    List Bool → MapLoop → Except Fault (Bool × MapLoop × List Bool)
  | [], v => if v.left = 0 ∨ v.need = 0 then pure (true, v, []) else throw .diverges
  | a :: answers, v =>
    if v.left = 0 ∨ v.need = 0 then pure (true, v, a :: answers)
    else if try4M g v then
      if a then do
        let (ok, v) ← joinPage v mp g.pool superPageSize true true
        if ok then mapPages g mp answers (advance v superPageSize true) else pure (false, v, answers)
      else
        match answers with
        | [] => throw .diverges
        | b :: answers => do
          let (ok, v) ← smallPage g v mp b
          if ok then mapPages g mp answers v else pure (false, v, answers)
    else do
      let (ok, v) ← smallPage g v mp a
      if ok then mapPages g mp answers v else pure (false, v, answers)

/-- The loop of `__map` over the areas of the memory map. -/
def mapAreas (g : MapArgs) :
    Nat → MemMap → Option Ptr → Nat → Nat → List Bool → Except Fault (Bool × MemMap × Nat)
  | 0, _, _, _, _, _ => throw .diverges
  | fuel + 1, m, mp, addr, need, answers =>
    if mp = none ∨ need = 0 ∨ g.high ≤ addr then pure (true, m, need)
    else
      -- skip reserved and used areas
      match scan m.next (fun a => !(decide (m.addr a < g.high) && m.flags a != .unused))
          m.listFuel mp with
      | none => throw .diverges
      | some none => pure (true, m, need)
      | some (some a) =>
        if g.high ≤ m.addr a then pure (true, m, need)
        else do
          let s := if g.high < m.areaEnd a then Word.sub g.high (m.addr a) else m.size a
          let (ok, v, answers) ← mapPages g a answers
            { map := m, addr := m.addr a, left := s, need := need }
          if ok then do
            let (ok, m) ← markPending v a g.pool
            if ok then mapAreas g fuel m (some a) v.addr v.need answers else pure (false, m, v.need)
          else pure (false, v.map, v.need)

/-- A part of `__map`: the area in which the search starts, and where. -/
def mapStart (m : MemMap) (mp : Ptr) (low : Nat) : Bool × MemMap × Option Ptr × Nat :=
  if m.addr mp < low then
    if m.flags mp = .unused then
      let (ok, m) := m.cutBegin mp (Word.sub low (m.addr mp))
      (ok, m, some mp, low)
    else (true, m, m.next mp, m.areaEnd mp)
  else (true, m, some mp, low)

/-- `__map` -/
def map (m : MemMap) (g : MapArgs) (answers : List Bool) : Except Fault (Bool × MemMap) := do
  let need := g.size.getD (Word.sub m.memHigh m.memLow)
  match ← m.findAddr g.low with
  | none => pure (false, m)
  | some mp =>
    match m.mapStart mp g.low with
    | (false, m, _, _) => pure (false, m)
    | (true, m, mp, addr) =>
      let (ok, m, need) ← mapAreas g (answers.length + 1) m mp addr need answers
      if ok = true ∧ g.size ≠ none ∧ 0 < need then throw .notEnough else pure (ok, m)

/-! ## `__reserve` -/

/-- A part of `__reserve`: join with the area in front if it is reserved. -/
def joinPrev (m : MemMap) (mp : Ptr) : MemMap :=
  match m.prev mp with
  | none => m
  | some tmp =>
    if m.flags tmp = .reserved then
      let m := m.setArea mp
        { m.area mp with addr := m.addr tmp, size := Word.add (m.size mp) (m.size tmp) }
      let prev := m.prev tmp
      let m := { m with prev := Function.update m.prev mp prev }
      let m := match prev with
        | some q => { m with next := Function.update m.next q (some mp) }
        | none => { m with mem := some mp }
      m.releaseMemmapDesc tmp
    else m

/-- A part of `__reserve`: cut the area to the size that is needed. -/
def cutNeed (m : MemMap) (mp : Ptr) (need : Nat) : Bool × MemMap :=
  if need < m.size mp then m.cutEnd mp (Word.sub (m.size mp) need) else (true, m)

/-- The loop of `__reserve`. -/
def reserveLoop (size : Nat) : Nat → MemMap → Option Ptr → Nat → Except Fault (Bool × MemMap)
  | 0, _, _, _ => throw .diverges
  | fuel + 1, m, mp, got =>
    if size ≤ got then pure (true, m)
    else
      match mp with
      | none => throw .nullPointer
      | some mp =>
        match m.flags mp with
        | .reserved =>
          let got := Word.add got (m.size mp)
          let m := m.joinPrev mp
          reserveLoop size fuel m (m.next mp) got
        | .mapped => pure (false, m)
        | _ =>
          match m.cutNeed mp (Word.sub size got) with
          | (false, m) => pure (false, m)
          | (true, m) =>
            let m := m.setArea mp ⟨m.addr mp, m.size mp, 0, 99, .reserved⟩
            let got := Word.add got (m.size mp)
            let m := m.joinPrev mp
            reserveLoop size fuel m (m.next mp) got

/-- A part of `__reserve`: the area in which the search starts, and the bytes of it that are reserved
already; `none` if the reservation fails. -/
def reserveStart (m : MemMap) (mp : Ptr) (addr : Nat) : Option (Option Ptr × Nat) × MemMap :=
  if m.addr mp < addr then
    match m.flags mp with
    | .reserved =>
      (some (m.next mp, Word.sub (m.size mp) (Word.sub addr (m.addr mp))), m)
    | .mapped => (none, m)
    | _ =>
      match m.cutBegin mp (Word.sub addr (m.addr mp)) with
      | (false, m) => (none, m)
      | (true, m) => (some (some mp, 0), m)
  else (some (some mp, 0), m)

/-- `__reserve` -/
def reserve (m : MemMap) (addr size : Nat) : Except Fault (Bool × MemMap) := do
  match ← m.findAddr addr with
  | none => pure (false, m)
  | some mp =>
    match m.reserveStart mp addr with
    | (none, m) => pure (false, m)
    | (some (mp, got), m) => reserveLoop size (m.live.length + 2) m mp got

/-! ## `__setup_free_regions` -/

/-- The walk of `__insert_ram`: the last area below `addr` (none at the head), and the area behind it. -/
def insertPoint (m : MemMap) (addr : Nat) :
    Nat → Option Ptr → Option Ptr → Option (Option Ptr × Option Ptr)
  | 0, _, _ => none
  | _ + 1, q, none => some (q, none)
  | fuel + 1, q, some a =>
    if m.addr a < addr then m.insertPoint addr fuel (some a) (m.next a) else some (q, some a)

/-- `__insert_ram`: the link back from the area behind the new one is not written. -/
def insertRam (m : MemMap) (mp : Ptr) : Except Fault MemMap :=
  if m.mem = none then pure { m with mem := some mp }
  else
    match m.insertPoint (m.addr mp) m.listFuel none m.mem with
    | none => throw .diverges
    | some (q, a) =>
      let m := { m with next := Function.update m.next mp a }
      let m := match a with
        | some a => { m with prev := Function.update m.prev mp (m.prev a) }
        | none => m
      match q with
      | none => pure { m with mem := some mp }
      | some q => pure { m with next := Function.update m.next q (some mp) }

/-- A conventional memory descriptor is inserted with its range in whole pages. -/
def insertDesc (m : MemMap) (d : MemDesc) : Except Fault MemMap :=
  let start := Word.roundUp d.start pageSize
  let areaEnd := Word.roundDown (Word.add d.last 1) pageSize
  let (mp, m) := m.allocMemmapDesc { addr := start, size := Word.sub areaEnd start }
  m.insertRam mp

/-- `__setup_free_regions` up to the reservation of low memory, which is a call of `__reserve`. -/
def setupFreeRegions : List MemDesc → MemMap → Except Fault MemMap
  | [], m => pure m
  | d :: ds, m =>
    if d.conventional && !d.isVirtual then do
      let m ← m.insertDesc d
      setupFreeRegions ds m
    else setupFreeRegions ds m

end MemMap

end L4env.DMphys
