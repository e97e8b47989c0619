import L4env.Fiasco.Mapdb

/-!
# Unmapping memory

`unmap` of `map_util.cpp` for memory spaces, with `save_access_attribs`. An iteration of the loop has two
parts: up to the call that saves the access attributes, and from there on.
-/

namespace L4env.Fiasco

namespace Config

/-- `sigma0_taskno` -/
def sigma0Task : Nat := 2

end Config

namespace MemLayout

/-- `User_max` -/
def userMax : Nat := 0xc0000000

/-- `V2_utcb_addr` -/
def v2UtcbAddr : Nat := 0xbff00000

end MemLayout

/-- The memory spaces of all tasks and the mapping database; its treemaps have at most `n + 1` levels. -/
structure MapState (n : Nat) where
  spaces : Nat → Option MemSpace
  mapdb : OffsetTreemap (Treemaps n)
  /-- `utcb_size_pages()` -/
  utcbSizePages : Nat

namespace MapState

variable {n : Nat}

def putSpace (st : MapState n) (id : Nat) (s : MemSpace) : MapState n :=
  { st with spaces := Function.update st.spaces id (some s) }

/-- `is_mappable` -/
def isMappable (st : MapState n) (addr size : Nat) : Bool :=
  Word.add addr size ≤ MemLayout.v2UtcbAddr ∨
    MemLayout.v2UtcbAddr + st.utcbSizePages * Config.pageSize ≤ addr

/-- `valid_address` -/
def validAddress (st : MapState n) (phys : Nat) : Bool := phys < st.mapdb.endAddr

def lookup (st : MapState n) (space va phys : Nat) : MapM (Option MappingPath × MapState n) := do
  let (found, mapdb) ← Treemaps.lookup space va (n + 1) st.mapdb phys
  return (found, { st with mapdb := mapdb })

def editAt {α : Type} (st : MapState n) (op : Treemaps.FrameOp α) (path : MappingPath) :
    MapM (α × MapState n) := do
  let (a, mapdb) ← Treemaps.editAt op (n + 1) st.mapdb path
  return (a, { st with mapdb := mapdb })

/-- `Mapdb::free` -/
def free (st : MapState n) (path : MappingPath) : MapM (MapState n) := do
  let (_, st) ← st.editAt (fun n t key _ => do
    let t ← Treemaps.free (n + 1) t key
    return ((), t)) path
  return st

end MapState

/-! ## Frames -/

/-- What the callers of `lookup` read of the frame: the page size of its treemap, the mapping and its parent. -/
structure Frame where
  pageSize : Nat
  mapping : Mapping
  parent : Option (Nat × Mapping)

/-- `Mapdb::size` -/
def Frame.size (f : Frame) : Nat := f.pageSize

def Frame.ofTreemap : Treemaps.FrameOp Frame := fun _ t key m => do
  let some f := t.frames key | throw .nullPointer
  return (⟨t.pageSize, f.tree.mappings m, (f.tree.parent m).map fun p => (p, f.tree.mappings p)⟩, t)

/-- The mappings `Mapdb::Iterator` visits for a restriction and a range of addresses. -/
def visitsOf (restriction vaBegin vaEnd : Nat) : Treemaps.FrameOp (List Visited) := fun n t key m => do
  let some f := t.frames key | throw .nullPointer
  let va := t.vaddr (f.tree.mappings m)
  let vaBegin := if vaBegin < va then va else vaBegin
  let vaBegin := if vaEnd < vaBegin then vaEnd else vaBegin
  match Treemaps.iterate (n + 1) t key m restriction (Word.sub vaBegin va) (Word.sub vaEnd va) with
  | .ok visits => return (visits, t)
  | .error e => throw e

def liftMem {α : Type} : Except MemFault α → MapM α
  | .ok a => pure a
  | .error e => throw (.mem e)

/-! ## Saving access attributes -/

/-- A call of `v_insert` in `save_access_attribs`: the space with its state, whether it is the flushed space,
the answer for a page table, and the arguments. -/
structure Saving where
  target : Nat
  own : Bool
  space : MemSpace
  granted : Bool
  phys : Nat
  virt : Nat
  size : Nat
  attribs : PageAttribs

/-- The status and the space after it. -/
def Saving.insertion (sv : Saving) : Except MemFault (InsertStatus × MemSpace) :=
  sv.space.vInsert sv.granted sv.phys sv.virt sv.size sv.attribs

/-- `page_accessed` -/
def accessed (rights : PageAttribs) : PageAttribs :=
  rights &&& (PageAttribs.referenced ||| PageAttribs.dirty)

/-- When the flushed space loses its access attributes too, they are cached in the parent's space. -/
def Frame.cachingParent (f : Frame) (meToo : Bool) : Option Mapping :=
  if meToo then f.parent.map Prod.snd else none

/-- `save_access_attribs`, up to the insertion -/
def saveAccessAttribs (spaces : Nat → Option MemSpace) (frame : Frame) (space : Nat) (rights : PageAttribs)
    (virt phys size : Nat) (meToo : Bool) : MapM (Option Saving) := do
  if accessed rights = 0 then return none
  let table ← ask
  match frame.cachingParent meToo with
  | some parent =>
    let some s := spaces parent.space | throw .nullPointer
    return some ⟨parent.space, false, s, table.isSome, Word.roundDown phys frame.size,
      parent.page * frame.size % 4294967296, frame.size, accessed rights⟩
  | none =>
    let some s := spaces space | throw .nullPointer
    return some ⟨space, true, s, table.isSome, phys, virt, size, accessed rights⟩

/-! ## Unmap -/

/-- The arguments of `unmap`. -/
structure UnmapCall where
  space : Nat
  restriction : Nat
  start : Nat
  size : Nat
  meToo : Bool
  flushMode : PageAttribs

/-- The variables of the loop of `unmap`. -/
structure UnmapState (n : Nat) where
  st : MapState n
  address : Nat
  stop : Nat
  meToo : Bool
  flushedRights : PageAttribs

/-- Whole pages are flushed, also where they are larger than the area, if the space itself is flushed. -/
def UnmapState.covering {n : Nat} (u : UnmapState n) (pageAddress next : Nat) : UnmapState n :=
  if u.meToo then { u with address := pageAddress, stop := if u.stop < next then next else u.stop } else u

/-- An iteration in front of the saving: the variables, the attributes that were removed from page tables, the
mapping of a locked frame, the call that saves access attributes, and the next address. -/
structure PageFlush (n : Nat) where
  state : UnmapState n
  removed : PageAttribs
  mapping : Option MappingPath
  saving : Option Saving
  next : Nat

/-- The deletion of the visited mappings from their spaces. -/
def deleteVisited (flushMode : PageAttribs) :
    List Visited → (Nat → Option MemSpace) → MapM (PageAttribs × (Nat → Option MemSpace))
  | [], spaces => pure (0, spaces)
  | v :: vs, spaces => do
    let some s := spaces v.space | throw .nullPointer
    let (rights, s) ← liftMem (s.vDelete (v.page * v.size % 4294967296) v.size flushMode)
    let (rights', spaces) ← deleteVisited flushMode vs (Function.update spaces v.space (some s))
    return (rights ||| rights', spaces)

/-- The page at an address of a space: sigma0 has all pages, one to one. -/
def pageAt (space : Nat) (s : MemSpace) (address : Nat) : Slot :=
  if space = Config.sigma0Task then
    .page (Word.roundDown address Config.superpageSize) Config.superpageSize
      (PageAttribs.writable ||| PageAttribs.userAccessible)
  else s.vLookup address

namespace UnmapCall

variable {n : Nat} (call : UnmapCall)

/-- The deletion of the page from the space itself. -/
def deleteOwn (meToo : Bool) (address size : Nat) (s : MemSpace) : MapM (PageAttribs × MemSpace) :=
  if meToo then liftMem (s.vDelete address size call.flushMode) else pure (0, s)

/-- The flush of a mapping and of the mappings that stem from it. -/
def flushMapping (u : UnmapState n) (own : MemSpace) (path : MappingPath) (pageAddress phys size : Nat) :
    MapM (UnmapState n × PageAttribs × Option Saving) := do
  let (rights, own) ← call.deleteOwn u.meToo u.address size own
  let (visits, st) ← u.st.editAt (visitsOf call.restriction u.address u.stop) path
  let (rights', spaces) ← deleteVisited call.flushMode visits
    (Function.update st.spaces call.space (some own))
  let (frame, st) ← st.editAt Frame.ofTreemap path
  let rights := rights ||| rights'
  let saving ← saveAccessAttribs spaces frame call.space rights pageAddress phys size u.meToo
  let st := { st with spaces := spaces }
  return ({ u with st := st, flushedRights := u.flushedRights ||| rights }, rights, saving)

/-- The flush of a page of the space. -/
def flushPresent (u : UnmapState n) (own : MemSpace) (pageAddress phys size next : Nat) :
    MapM (PageFlush n) :=
  -- without data in the mapping database there is no recursion
  if u.st.validAddress phys = false then do
    let (rights, own) ← call.deleteOwn u.meToo u.address size own
    return ⟨{ u with st := u.st.putSpace call.space own, flushedRights := u.flushedRights ||| rights },
      rights, none, none, next⟩
  else do
    let (found, st) ← u.st.lookup call.space pageAddress phys
    match found with
    | none => return ⟨{ u with st := st }, 0, none, none, next⟩
    | some path => do
      let (u, rights, saving) ← call.flushMapping { u with st := st } own path pageAddress phys size
      return ⟨u, rights, some path, saving, next⟩

/-- An iteration of the loop, up to the saving of the access attributes. -/
def flushPage (u : UnmapState n) : MapM (PageFlush n) :=
  match u.st.spaces call.space with
  | none => throw .nullPointer
  | some own =>
    let u := { u with meToo := if call.space = Config.sigma0Task then false else u.meToo }
    match pageAt call.space own u.address with
    | .free size => return ⟨u, 0, none, none, Word.add (Word.roundDown u.address size) size⟩
    | .page phys size _ =>
      let pageAddress := Word.roundDown u.address size
      let next := Word.add pageAddress size
      -- the UTCB area is not unmapped
      if u.meToo ∧ u.st.isMappable u.address size = false then return ⟨u, 0, none, none, next⟩
      else if u.meToo ∧ u.address ≠ pageAddress ∧ size ≠ Config.superpageSize then throw .assertion
      else call.flushPresent (u.covering pageAddress next) own pageAddress phys size next

/-- The insertion of the access attributes with the assertion on its status. -/
def storeSaving (st : MapState n) : Option Saving → MapM (MapState n)
  | none => pure st
  | some sv => do
    let (status, s) ← liftMem sv.insertion
    if ¬ status.Accepted ∧ sv.target ≠ Config.sigma0Task then throw .assertion
    return st.putSpace sv.target s

/-- A full flush deletes the mappings from their tree as well. -/
def flushTree (u : UnmapState n) (st : MapState n) (path : MappingPath) : MapM (MapState n) :=
  if call.flushMode &&& PageAttribs.userAccessible ≠ 0 then do
    let (_, st) ← st.editAt (Treemaps.flush u.meToo call.restriction u.address u.stop) path
    return st
  else pure st

/-- The rest of an iteration. -/
def finishPage (p : PageFlush n) : MapM (UnmapState n) := do
  let u := p.state
  let st ← storeSaving u.st p.saving
  let some path := p.mapping | return { u with st := st, address := p.next }
  let st ← call.flushTree u st path
  let st ← st.free path
  return { u with st := st, address := p.next }

/-- The pages that `unmap` flushed, and its result. -/
abbrev Outcome (n : Nat) := List (PageFlush n) × Except MapFault (UnmapState n × Answers)

/-- The loop of `unmap` over at most `fuel` pages. -/
def loop : (fuel : Nat) → UnmapState n → Answers → Outcome n
  | 0, u, answers => ([], .ok (u, answers))
  | fuel + 1, u, answers =>
    if u.address < u.stop ∧ u.address < MemLayout.userMax then
      match call.flushPage u answers with
      | .error e => ([], .error e)
      | .ok (p, answers) =>
        match call.finishPage p answers with
        | .error e => ([p], .error e)
        | .ok (u, answers) =>
          let r := loop fuel u answers
          (p :: r.1, r.2)
    else ([], .ok (u, answers))

/-- `unmap`; there are fewer pages than `User_max / PAGE_SIZE + 1`. -/
def run (st : MapState n) (answers : Answers) : Outcome n :=
  if call.meToo ∧ call.restriction ≠ 0 then ([], .error .assertion)
  else
    call.loop (MemLayout.userMax / Config.pageSize + 1)
      ⟨st, call.start, Word.add call.start call.size, call.meToo, 0⟩ answers

end UnmapCall

end L4env.Fiasco
