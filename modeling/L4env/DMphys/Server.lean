import L4env.DMphys.Map

/-!
# DMphys: dataspaces and requests

The dataspace descriptors of `dm_generic/lib/serverlib` and the requests of `dm_phys/server`: open,
close, resize, copy, share, revoke, transfer, map and fault. The server handles one request at a time.
The hash table of dataspace descriptors is the list of them, the newest first; names, the contents of
memory and the mappings that a close removes at the clients are left out.
-/

namespace L4env.DMphys

/-- `l4_threadid_t` -/
structure ThreadId where
  task : Nat
  lthread : Nat
  deriving DecidableEq, Repr

/-- `l4_task_equal` -/
def taskEqual (a b : ThreadId) : Bool := a.task == b.task

/-- `dsmlib_client_desc_t` -/
structure Client where
  client : ThreadId
  rights : Nat
  deriving DecidableEq, Repr

/-- `dsmlib_ds_desc_t` and `dmphys_dataspace_t` -/
structure Dataspace where
  id : Nat
  owner : ThreadId
  clients : List Client := []
  pool : Nat
  pages : Ptr
  size : Nat
  flags : Nat
  deriving DecidableEq, Repr

structure Server where
  st : State
  memMap : MemMap
  dataspaces : List Dataspace
  lastId : Nat

inductive Reply
  | error (e : Err)
  | done
  | opened (id : Nat)
  /-- The answer to a map or fault request; `none` is the dummy flexpage. -/
  | page (p : Option SndFpage)
  deriving DecidableEq, Repr

/-! ## Rights (`clients.c` of the server library) -/

namespace Dataspace

/-- `__find_client` -/
def findClient (d : Dataspace) (client : ThreadId) : Option Client :=
  d.clients.find? fun c => taskEqual client c.client

/-- `dsmlib_is_owner` -/
def isOwner (d : Dataspace) (client : ThreadId) : Bool := taskEqual d.owner client

/-- `dsmlib_is_client` -/
def isClient (d : Dataspace) (client : ThreadId) : Bool := (d.findClient client).isSome

/-- `dsmlib_get_rights` -/
def getRights (d : Dataspace) (client : ThreadId) : Nat :=
  match d.findClient client with
  | none => 0
  | some c => c.rights

/-- `dsmlib_check_rights` -/
def checkRights (d : Dataspace) (client : ThreadId) (rights : Nat) : Bool :=
  match d.findClient client with
  | none => false
  | some c => c.rights &&& rights == rights

/-- The client descriptors with other rights of the task of `client`. -/
def mapRights (d : Dataspace) (client : ThreadId) (f : Nat → Nat) : List Client :=
  d.clients.map fun c => if taskEqual client c.client then { c with rights := f c.rights } else c

/-- `dsmlib_add_client`; the flag says that a descriptor was allocated. -/
def addClient (d : Dataspace) (client : ThreadId) (rights : Nat) : Bool × Dataspace :=
  if d.isClient client then
    (false, { d with clients := d.mapRights client (· ||| rights) })
  else (true, { d with clients := ⟨client, rights⟩ :: d.clients })

/-- `dsmlib_remove_client` -/
def removeClient (d : Dataspace) (client : ThreadId) : Dataspace :=
  { d with clients := d.clients.eraseP fun c => taskEqual client c.client }

/-- `dsmlib_set_rights` -/
def setRights (d : Dataspace) (client : ThreadId) (rights : Nat) : Dataspace :=
  { d with clients := d.mapRights client fun _ => rights }

end Dataspace

/-- `L4DM_READ`, `L4DM_WRITE` and `L4DM_RESIZE` -/
def l4dmRead : Nat := 1
def l4dmWrite : Nat := 2
def l4dmResize : Nat := 0x80

/-- `flags & L4DM_RIGHTS_MASK` -/
def rightsOf (flags : Nat) : Nat := flags &&& 0xff

/-- `L4DM_MEMPHYS_SAME_POOL` -/
def samePool (flags : Nat) : Bool := flags.testBit 17

/-- `L4DM_MEMPHYS_ANY_ADDR` and `L4DM_WHOLE_DS`, the word `-1` -/
def anyAddr : Nat := 0xffffffff
def wholeDs : Nat := 0xffffffff

namespace State

/-- `dmphys_pages_get_size` -/
def pagesGetSize (s : State) (pages : Ptr) : Except Panic Nat :=
  match s.pageList s.listFuel (some pages) with
  | none => throw .diverges
  | some l => pure ((l.map s.size).sum % 4294967296)

/-- Release `n` descriptors. -/
def slabBacks : Nat → State → State
  | 0, s => s
  | n + 1, s => slabBacks n s.slabBack

end State

namespace Server

/-- `dmphys_ds_get` -/
def get (v : Server) (id : Nat) : Option Dataspace := v.dataspaces.find? (·.id == id)

/-- A dataspace descriptor was written. -/
def put (v : Server) (d : Dataspace) : Server :=
  { v with dataspaces := v.dataspaces.map fun e => if e.id = d.id then d else e }

/-- `__find_id`: the first unused id behind the last one that was given out. -/
def findId (v : Server) : Option Nat :=
  (((List.range (v.dataspaces.length + 1)).map fun k => (v.lastId + 1 + k) % 4294967296).takeWhile
    (· != v.lastId)).find? fun i => (v.get i).isNone

/-- `dmphys_ds_release`: the client descriptors and the two dataspace descriptors. -/
def dsRelease (v : Server) (d : Dataspace) : Server :=
  { v with
    st := v.st.slabBacks (d.clients.length + 2)
    dataspaces := v.dataspaces.filter fun e => e.id ≠ d.id }

/-- `dmphys_ds_get_check_owner` -/
def getCheckOwner (v : Server) (id : Nat) (caller : ThreadId) : Except Err Dataspace :=
  match v.get id with
  | none => .error .einval
  | some d => if d.isOwner caller then .ok d else .error .eperm

/-- `dmphys_ds_get_check_client` -/
def getCheckClient (v : Server) (id : Nat) (caller : ThreadId) : Except Err Dataspace :=
  match v.get id with
  | none => .error .einval
  | some d => if d.isOwner caller || d.isClient caller then .ok d else .error .eperm

/-- `dmphys_ds_get_check_rights` -/
def getCheckRights (v : Server) (id : Nat) (caller : ThreadId) (rights : Nat) :
    Except Err Dataspace :=
  match v.get id with
  | none => .error .einval
  | some d => if d.checkRights caller rights || d.isOwner caller then .ok d else .error .eperm

/-! ## Open and close -/

/-- A part of `__create_ds`: the memory, at an address or anywhere. -/
def allocate (s : State) (pool addr size align flags : Nat) : Except Panic (Option Ptr × State) :=
  if addr = anyAddr then s.dmphysPagesAllocate pool size align flags .user
  else s.dmphysPagesAllocateArea pool addr size .user

/-- A part of `__create_ds`: the alignment, a power of two. -/
def roundAlign (align : Nat) : Nat := if align < pageSize then pageSize else 2 ^ Nat.log2 align

/-- `__create_ds` -/
def createDs (v : Server) (owner : ThreadId) (pool addr size align flags : Nat) :
    Except Panic (Except Err Nat × Server) := do
  let size := Word.roundUp size pageSize
  let align := roundAlign align
  let s ← v.st.slabGrow
  let s ← s.slabGrow
  match v.findId with
  | none => pure (.error .enohandle, { v with st := s.slabBack })
  | some id => do
    let (pages, s) ← allocate s pool addr size align flags
    match pages with
    | none => pure (.error .enomem, { v with st := s.slabBacks 2, lastId := id })
    | some pages => do
      let size ← s.pagesGetSize pages
      let s ← s.dmphysInternalAllocUpdate
      let d : Dataspace := ⟨id, owner, [], pool, pages, size, flags⟩
      pure (.ok id, { v with st := s, dataspaces := d :: v.dataspaces, lastId := id })

/-- `if_l4dm_mem_open_component` -/
def memOpen (v : Server) (caller : ThreadId) (size align flags : Nat) :
    Except Panic (Except Err Nat × Server) :=
  v.createDs caller defaultPool anyAddr size align flags

/-- `if_l4dm_memphys_dmphys_open_component` -/
def dmphysOpen (v : Server) (caller : ThreadId) (pool addr size align flags : Nat) :
    Except Panic (Except Err Nat × Server) :=
  if numPools ≤ pool then pure (.error .einval, v)
  else v.createDs caller pool addr size align flags

/-- `__close` -/
def closeDs (v : Server) (d : Dataspace) : Except Panic Server := do
  let s ← v.st.dmphysPagesRelease d.pool (some d.pages)
  let v := { v with st := s }.dsRelease d
  let s ← v.st.dmphysInternalAllocUpdate
  pure { v with st := s }

/-! ## Resize -/

/-- A part of `__resize`: another size of the page list. -/
def resizePages (s : State) (d : Dataspace) (newSize : Nat) : Except Panic (Option Err × State) :=
  if d.size < newSize then
    let n := Word.roundUp (Word.sub newSize d.size) pageSize
    if State.contiguous d.flags then s.dmphysPagesEnlarge d.pool d.pages n .user
    else s.dmphysPagesAdd d.pool d.pages n .user
  else if newSize < d.size then s.dmphysPagesShrink d.pool d.pages newSize
  else pure (none, s)

/-- `__resize` -/
def resizeDs (v : Server) (d : Dataspace) (newSize : Nat) : Except Panic (Option Err × Server) :=
  if newSize = 0 then do
    let v ← v.closeDs d
    let s ← v.st.dmphysInternalAllocUpdate
    pure (none, { v with st := s })
  else do
    let (e, s) ← resizePages v.st d newSize
    match e with
    | some e => pure (some e, { v with st := s })
    | none => do
      let size ← s.pagesGetSize d.pages
      let s ← s.dmphysInternalAllocUpdate
      pure (none, { v with st := s }.put { d with size := size })

/-! ## Copy -/

/-- The loops of `__create_copy` that fill a part of the destination. -/
def fillLoop (s : State) (pages : Ptr) : Nat → Nat → Nat → Except Panic Nat
  | 0, _, _ => throw .diverges
  | fuel + 1, offs, fill =>
    if fill = 0 then pure offs
    else do
      match ← s.findOffset s.listFuel (some pages) offs with
      | none => throw .assertion
      | some (a, o) =>
        let n := min (Word.sub (s.size a) o) fill
        fillLoop s pages fuel (Word.add offs n) (Word.sub fill n)

/-- The loop of `__create_copy` that copies from the source to the destination. -/
def copyLoop (s : State) (dst src : Ptr) : Nat → Nat → Nat → Nat → Except Panic Nat
  | 0, _, _, _ => throw .diverges
  | fuel + 1, dOffs, sOffs, num =>
    if num = 0 then pure dOffs
    else do
      match ← s.findOffset s.listFuel (some dst) dOffs, ← s.findOffset s.listFuel (some src) sOffs with
      | some (a, o), some (b, p) =>
        let n := min (min (Word.sub (s.size a) o) (Word.sub (s.size b) p)) num
        copyLoop s dst src fuel (Word.add dOffs n) (Word.add sOffs n) (Word.sub num n)
      | _, _ => throw .assertion

/-- The loops of `__create_copy`. -/
def copyPages (s : State) (dst src : Ptr) (dstSize srcOffs dstOffs num : Nat) : Except Panic Unit := do
  let fuel := 2 * s.listFuel + 1
  let dOffs ← if 0 < dstOffs then fillLoop s dst fuel 0 dstOffs else pure 0
  let dOffs ← copyLoop s dst src fuel dOffs srcOffs num
  if dOffs < dstSize then do
    let _ ← fillLoop s dst fuel dOffs (Word.sub dstSize dOffs)
    pure ()
  else pure ()

/-- `__create_copy` -/
def createCopy (v : Server) (src : Dataspace) (owner : ThreadId)
    (pool dstAddr dstSize dstAlign srcOffs dstOffs num flags : Nat) :
    Except Panic (Except Err Nat × Server) := do
  let (r, v) ← v.createDs owner pool dstAddr dstSize dstAlign flags
  match r with
  | .error e => pure (.error e, v)
  | .ok id =>
    match v.get id with
    | none => throw .assertion
    | some dst => do
      copyPages v.st dst.pages src.pages dstSize srcOffs dstOffs num
      let s ← v.st.dmphysInternalAllocUpdate
      pure (.ok id, { v with st := s })

/-- The amount to copy. -/
def numCopy (srcSize srcOffs num : Nat) : Nat :=
  let n := Word.sub srcSize srcOffs
  if num ≠ wholeDs ∧ num < n then num else n

/-- `if_l4dm_generic_copy_component` -/
def copy (v : Server) (caller : ThreadId) (id srcOffs dstOffs num flags : Nat) :
    Except Panic (Except Err Nat × Server) :=
  match v.getCheckClient id caller with
  | .error e => pure (.error e, v)
  | .ok d =>
    let pool := if samePool flags then d.pool else defaultPool
    if d.size ≤ srcOffs then pure (.error .einvalOffs, v)
    else
      let n := numCopy d.size srcOffs num
      let dstSize := Word.roundUp (Word.add (if num = wholeDs then n else num) dstOffs) pageSize
      v.createCopy d caller pool anyAddr dstSize pageSize srcOffs dstOffs n flags

/-- `if_l4dm_memphys_dmphys_copy_component` -/
def dmphysCopy (v : Server) (caller : ThreadId)
    (id srcOffs dstOffs num dstPool dstAddr dstSize dstAlign flags : Nat) :
    Except Panic (Except Err Nat × Server) :=
  match v.getCheckClient id caller with
  | .error e => pure (.error e, v)
  | .ok d =>
    if samePool flags = false ∧ numPools ≤ dstPool then pure (.error .einval, v)
    else
      let pool := if samePool flags then d.pool else dstPool
      if d.size ≤ srcOffs then pure (.error .einvalOffs, v)
      else
        let n := numCopy d.size srcOffs num
        v.createCopy d caller pool dstAddr (max dstSize (Word.add dstOffs n)) dstAlign srcOffs dstOffs
          n flags

/-! ## Clients and owners -/

/-- `if_l4dm_generic_share_component` -/
def share (v : Server) (caller : ThreadId) (id : Nat) (client : ThreadId) (flags : Nat) :
    Except Panic (Option Err × Server) :=
  match v.getCheckRights id caller (rightsOf flags) with
  | .error e => pure (some e, v)
  | .ok d => do
    let (new, d) := d.addClient client (rightsOf flags)
    let s ← if new then v.st.slabGrow else pure v.st
    let s ← s.dmphysInternalAllocUpdate
    pure (none, { v with st := s }.put d)

/-- `if_l4dm_generic_revoke_component` -/
def revoke (v : Server) (caller : ThreadId) (id : Nat) (client : ThreadId) (flags : Nat) :
    Option Err × Server :=
  match v.getCheckRights id caller (rightsOf flags) with
  | .error _ => (some .einval, v)
  | .ok d =>
    let old := d.getRights client
    if old = 0 then (none, v)
    else
      -- `old & ~rights`
      let rights := old ^^^ (old &&& rightsOf flags)
      if rights = 0 then (none, { v with st := v.st.slabBack }.put (d.removeClient client))
      else (none, v.put (d.setRights client rights))

/-- `if_l4dm_generic_transfer_component` -/
def transfer (v : Server) (caller : ThreadId) (id : Nat) (newOwner : ThreadId) : Option Err × Server :=
  match v.getCheckOwner id caller with
  | .error e => (some e, v)
  | .ok d => (none, v.put { d with owner := newOwner })

/-! ## Map and fault -/

/-- `if_l4dm_generic_map_component` -/
def map (v : Server) (caller : ThreadId) (id offset size rcvSize2 rcvOffs flags : Nat) :
    Except Panic Reply :=
  match v.getCheckRights id caller (rightsOf flags) with
  | .error e => pure (.error e)
  | .ok d => do
    match ← mapPages v.st v.memMap d.pages offset size rcvSize2 rcvOffs flags with
    | .error e => pure (.error e)
    | .ok p => pure (.page p)

/-- `if_l4dm_generic_fault_component` -/
def fault (v : Server) (caller : ThreadId) (id offset : Nat) : Except Panic Reply :=
  let rw := offset.testBit 1
  match v.getCheckRights id caller (if rw then l4dmRead ||| l4dmWrite else l4dmRead) with
  | .error e => pure (.error e)
  | .ok d => do
    match ← faultPage v.st d.pages offset rw with
    | .error e => pure (.error e)
    | .ok p => pure (.page (some p))

end Server

/-! ## Requests -/

inductive Request
  | memOpen (size align flags : Nat)
  | dmphysOpen (pool addr size align flags : Nat)
  | close (id : Nat)
  | resize (id newSize : Nat)
  | copy (id srcOffs dstOffs num flags : Nat)
  | dmphysCopy (id srcOffs dstOffs num dstPool dstAddr dstSize dstAlign flags : Nat)
  | share (id : Nat) (client : ThreadId) (flags : Nat)
  | revoke (id : Nat) (client : ThreadId) (flags : Nat)
  | transfer (id : Nat) (newOwner : ThreadId)
  | map (id offset size rcvSize2 rcvOffs flags : Nat)
  | fault (id offset : Nat)
  deriving DecidableEq, Repr

/-- The reply to a request that opens a dataspace. -/
def openReply : Except Err Nat → Reply
  | .error e => .error e
  | .ok id => .opened id

/-- The reply to a request that returns a status. -/
def statusReply : Option Err → Reply
  | some e => .error e
  | none => .done

namespace Server

/-- `if_l4dm_generic_close_component` -/
def close (v : Server) (caller : ThreadId) (id : Nat) : Except Panic (Option Err × Server) :=
  match v.getCheckOwner id caller with
  | .error e => pure (some e, v)
  | .ok d => do
    let v ← v.closeDs d
    pure (none, v)

/-- `if_l4dm_mem_resize_component` -/
def resize (v : Server) (caller : ThreadId) (id newSize : Nat) :
    Except Panic (Option Err × Server) :=
  match v.getCheckRights id caller l4dmResize with
  | .error e => pure (some e, v)
  | .ok d => v.resizeDs d (Word.roundUp newSize pageSize)

/-- One request of the server loop; `slab` are the answers of the slab caches meanwhile. -/
def handle (v : Server) (slab : Slab) (caller : ThreadId) (req : Request) :
    Except Panic (Reply × Server) :=
  let v := { v with st := { v.st with slab := slab } }
  match req with
  | .memOpen size align flags => do
    let (r, v) ← v.memOpen caller size align flags
    pure (openReply r, v)
  | .dmphysOpen pool addr size align flags => do
    let (r, v) ← v.dmphysOpen caller pool addr size align flags
    pure (openReply r, v)
  | .close id => do
    let (r, v) ← v.close caller id
    pure (statusReply r, v)
  | .resize id newSize => do
    let (r, v) ← v.resize caller id newSize
    pure (statusReply r, v)
  | .copy id srcOffs dstOffs num flags => do
    let (r, v) ← v.copy caller id srcOffs dstOffs num flags
    pure (openReply r, v)
  | .dmphysCopy id srcOffs dstOffs num dstPool dstAddr dstSize dstAlign flags => do
    let (r, v) ← v.dmphysCopy caller id srcOffs dstOffs num dstPool dstAddr dstSize dstAlign flags
    pure (openReply r, v)
  | .share id client flags => do
    let (r, v) ← v.share caller id client flags
    pure (statusReply r, v)
  | .revoke id client flags =>
    let (r, v) := v.revoke caller id client flags
    pure (statusReply r, v)
  | .transfer id newOwner =>
    let (r, v) := v.transfer caller id newOwner
    pure (statusReply r, v)
  | .map id offset size rcvSize2 rcvOffs flags => do
    let r ← v.map caller id offset size rcvSize2 rcvOffs flags
    pure (r, v)
  | .fault id offset => do
    let r ← v.fault caller id offset
    pure (r, v)

end Server

end L4env.DMphys
