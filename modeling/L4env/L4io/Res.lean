import L4env.Util.Word

/-!
# Resources of the I/O server

The port and memory regions of `res.c` and the clients of `main.c`. A client is known by its task number
(`client_equal`), the lists of used regions are lists of regions with the task number of the holder. Words
have 32 bits. The DMA channels are left out.
-/

namespace L4env.L4io

/-- `MAX_IO_PORT` -/
@[irreducible] def maxIoPort : Nat := 2 ^ 16 - 1

/-- `MAX_IO_MEMORY` -/
@[irreducible] def maxIoMemory : Nat := 0xffffffff

/-- `l4_io_max_fpages` -/
def maxFpages : Nat := 32

inductive Error
  | einval
  | ebusy
  | eperm
  | enotfound
  | enomem
  deriving DecidableEq, Repr

/-- `io_res_t` -/
structure IoRes where
  start : Nat
  end_ : Nat
  client : Nat
  deriving DecidableEq, Repr

/-- `start + len - 1` -/
def regionEnd (start len : Nat) : Nat := Word.sub (Word.add start len) 1

/-- The loop of `__request_region`. -/
def insertRegion (new : IoRes) : List IoRes → Except Error (List IoRes)
  | [] => .ok [new]
  | s :: rest =>
    if new.end_ < s.start then .ok (new :: s :: rest)
    else if s.end_ < new.start then (insertRegion new rest).map (s :: ·)
    else .error .ebusy

/-- `__request_region` -/
def requestRegion (start len max : Nat) (root : List IoRes) (client : Nat) : Except Error (List IoRes) :=
  let end_ := regionEnd start len
  if end_ < start then .error .einval
  else if max < end_ then .error .einval
  else insertRegion ⟨start, end_, client⟩ root

/-- `__release_region` -/
def releaseRegion (start len : Nat) (client : Nat) : List IoRes → Except Error (List IoRes)
  | [] => .error .einval
  | tmp :: rest =>
    if tmp.end_ < start then (releaseRegion start len client rest).map (tmp :: ·)
    else if tmp.start ≠ start ∨ tmp.end_ ≠ regionEnd start len then .error .einval
    else if tmp.client ≠ client then .error .eperm
    else .ok rest

/-- `__release_region_client` -/
def releaseRegionClient (root : List IoRes) (client : Nat) : List IoRes :=
  root.filter fun r => r.client ≠ client

/-! ## Port regions -/

/-- An I/O flexpage, with the fields of `l4_iofpage_struct_t`. -/
structure IoFpage where
  iopage : Nat
  iosize : Nat
  deriving DecidableEq, Repr

/-- `l4_iofpage` -/
def iofpage (port size : Nat) : IoFpage := ⟨port % 2 ^ 16, size % 2 ^ 6⟩

/-- The last port of the flexpage. -/
def IoFpage.lastPort (p : IoFpage) : Nat := p.iopage + 2 ^ p.iosize - 1

/-- `(start + size_mask) & ~size_mask` -/
def log2Start (start log2 : Nat) : Nat := (start + (2 ^ log2 - 1)) / 2 ^ log2 * 2 ^ log2

/-- The loop of `process_port_region`, from `log2` down. -/
def findChunk (start length : Nat) : (log2 : Nat) → Option Nat
  | 0 => if log2Start start 0 + 2 ^ 0 ≤ start + length then some 0 else none
  | log2 + 1 =>
    if log2Start start (log2 + 1) + 2 ^ (log2 + 1) ≤ start + length then some (log2 + 1)
    else findChunk start length log2

/-- `process_port_region`, with a bound on the depth of the recursion. -/
def processPortRegion : (fuel start length : Nat) → Option (List IoFpage)
  | 0, _, _ => none
  | fuel + 1, start, length =>
    if length = 0 then some []
    else do
      let log2 ← findChunk start length length.log2
      let chunk := log2Start start log2
      let before ← processPortRegion fuel start (chunk - start)
      let lastStart := chunk + 2 ^ log2
      let behind ← processPortRegion fuel lastStart (start + length - lastStart)
      return before ++ iofpage chunk log2 :: behind

/-! ## The server -/

/-- `io_ares_t` -/
structure IoAres where
  start : Nat
  end_ : Nat
  vaddr : Nat
  deriving DecidableEq, Repr

/-- A memory flexpage. -/
structure Fpage where
  address : Nat
  size : Nat
  deriving DecidableEq, Repr

structure State where
  /-- The task of the I/O server, `io_self`. -/
  self : Nat
  /-- The clients behind `io_self`. -/
  clients : List Nat
  ioPortRes : List IoRes
  ioMemRes : List IoRes
  ioMemAres : List IoAres

namespace State

def init (self : Nat) : State := ⟨self, [], [], [], []⟩

/-- `find_client` finds a client. -/
def findClient (s : State) (tid : Nat) : Bool := tid = s.self ∨ tid ∈ s.clients

/-- `nLOG2`, of a word that is not 0 -/
def nLog2 (word : Nat) : Nat := if word > 2 ^ word.log2 then word.log2 + 1 else word.log2

/-- The size of the flexpage for a memory region of `len` bytes. -/
def memSize (len : Nat) : Nat := if 0xfff < len then nLog2 len else 12

/-- `io_trunc_page` -/
def truncPage (a : Nat) : Nat := a / 2 ^ 12 * 2 ^ 12

/-- What the kernel is asked to take from all other tasks. -/
structure Unmapped where
  ports : List IoFpage
  memory : List Fpage
  deriving DecidableEq, Repr

/-- A request ends with a new state, the answer and what was unmapped, or in a panic or a null
dereference. -/
inductive Outcome (α : Type)
  | done (s : State) (reply : Except Error α) (unmapped : Unmapped)
  | panic
  | fault

def Outcome.fail {α : Type} (s : State) (e : Error) : Outcome α := .done s (.error e) ⟨[], []⟩

/-- `l4_io_register_client`; `memory` is what `malloc` answers. -/
def registerClient (s : State) (caller : Nat) (memory : Bool) : Outcome Unit :=
  if memory = false then .fail s .enomem
  else .done { s with clients := s.clients ++ [caller] } (.ok ()) ⟨[], []⟩

/-- `l4_io_unregister_client` -/
def unregisterClient (s : State) (caller client : Nat) : Outcome Unit :=
  if caller ≠ s.self ∧ caller ≠ client then .fail s .eperm
  else if client ∈ s.clients then .done { s with clients := s.clients.erase client } (.ok ()) ⟨[], []⟩
  else .fail s .enotfound

/-- `l4_io_request_region`; `pager` tells whether roottask hands out all the ports. -/
def requestPorts (s : State) (caller addr len : Nat) (memory pager : Bool) : Outcome (List IoFpage) :=
  if len = 0 then .fail s .einval
  else if maxIoPort < addr + len - 1 then .fail s .einval
  else if s.findClient caller = false then .fail s .enotfound
  else
    match requestRegion addr len maxIoPort s.ioPortRes caller with
    | .error e => .fail s e
    | .ok res =>
      if memory = false then .panic
      else
        match processPortRegion (len + 1) addr len with
        | none => .panic
        | some regions =>
          if pager = false then .panic
          else .done { s with ioPortRes := res } (.ok regions) ⟨[], []⟩

/-- `l4_io_release_region` -/
def releasePorts (s : State) (caller addr len : Nat) : Outcome Unit :=
  if s.findClient caller = false then .fail s .enotfound
  else
    match processPortRegion (len + 1) addr len with
    | none => .panic
    | some regions =>
      match releaseRegion addr len caller s.ioPortRes with
      | .error e => .done s (.error e) ⟨regions, []⟩
      | .ok res => .done { s with ioPortRes := res } (.ok ()) ⟨regions, []⟩

/-- The search for an announcement with the region. -/
def findAres (s : State) (addr len : Nat) : Option IoAres :=
  s.ioMemAres.find? fun p => p.start ≤ addr ∧ regionEnd addr len ≤ p.end_

/-- `l4_io_request_mem_region`, without the cache attributes -/
def requestMem (s : State) (caller addr len : Nat) (memory : Bool) : Outcome (Nat × Fpage) :=
  if s.findClient caller = false then .fail s .enotfound
  else
    match s.findAres addr len with
    | none => .fail s .einval
    | some p =>
      match requestRegion addr len maxIoMemory s.ioMemRes caller with
      | .error e => .fail s e
      | .ok res =>
        if memory = false then .panic
        else .done { s with ioMemRes := res } (.ok (addr, ⟨truncPage p.vaddr, memSize len⟩)) ⟨[], []⟩

/-- `l4_io_release_mem_region` -/
def releaseMem (s : State) (caller addr len : Nat) : Outcome Unit :=
  if s.findClient caller = false then .fail s .enotfound
  else
    match releaseRegion addr len caller s.ioMemRes with
    | .error e => .fail s e
    | .ok res =>
      match s.findAres addr len with
      | none => .fault
      | some p => .done { s with ioMemRes := res } (.ok ()) ⟨[], [⟨truncPage p.vaddr, memSize len⟩]⟩

/-- `l4_io_release_client` -/
def releaseClient (s : State) (client : Nat) : Outcome Unit :=
  if s.findClient client = false then .fail s .enotfound
  else
    .done { s with
      ioMemRes := releaseRegionClient s.ioMemRes client
      ioPortRes := releaseRegionClient s.ioPortRes client } (.ok ()) ⟨[], []⟩

/-- `callback_request_region` -/
def requestOwnPorts (s : State) (addr len : Nat) : State :=
  { s with ioPortRes := (requestRegion addr len maxIoPort s.ioPortRes s.self).toOption.getD s.ioPortRes }

/-- `callback_request_mem_region` -/
def requestOwnMem (s : State) (addr len : Nat) : State :=
  { s with ioMemRes := (requestRegion addr len maxIoMemory s.ioMemRes s.self).toOption.getD s.ioMemRes }

/-- `callback_announce_mem_region`; `vaddr` is where the region is mapped. -/
def announceMem (s : State) (addr len vaddr : Nat) : State :=
  { s with ioMemAres := s.ioMemAres ++ [⟨addr, regionEnd addr len, vaddr⟩] }

end State

end L4env.L4io
