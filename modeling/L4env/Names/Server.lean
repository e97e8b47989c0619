import L4env.Util.Pick

/-!
# Name server

The server keeps a table of names with the ids of threads (`names/server/src/names.c`). An entry is strong or
weak. Registering a name looks for a free slot by the id in it; a slot that is freed gets the invalid id and
the empty name, and keeps its weak flag.
-/

namespace L4env.Names

/-- `NAMES_MAX_NAME_LEN` -/
def maxNameLen : Nat := 32

/-- `NAMES_MAX_ENTRIES` -/
def maxEntries : Nat := 512

/-! ## Thread ids -/

/-- `l4_threadid_t`: ten bits of the version, seven of the thread, eleven of the task, and four of the
version. -/
abbrev ThreadId := BitVec 32

def invalidId : ThreadId := 0xffffffff

def nilId : ThreadId := 0

/-- `l4_is_invalid_id` -/
def isInvalidId (id : ThreadId) : Bool := id = invalidId

/-- `l4_thread_equal` -/
def threadEqual (t1 t2 : ThreadId) : Bool := t1 = t2

/-- `id.id.task` -/
def ThreadId.task (id : ThreadId) : BitVec 11 := id.extractLsb' 17 11

/-- `l4_tasknum_equal` -/
def tasknumEqual (t1 t2 : ThreadId) : Bool := ThreadId.task t1 = ThreadId.task t2

/-! ## Strings -/

/-- A C string, by the bytes in front of its end. Two strings are equal exactly if `strcmp` is 0. -/
structure CString where
  bytes : List UInt8
  noNul : 0 ∉ bytes
  deriving DecidableEq

namespace CString

def empty : CString := ⟨[], List.not_mem_nil⟩

def length (s : CString) : Nat := s.bytes.length

/-- What `strncpy` puts into a buffer of `n + 1` bytes with a 0 at the end. -/
def cut (n : Nat) (s : CString) : CString := ⟨s.bytes.take n, fun h => s.noNul (List.mem_of_mem_take h)⟩

def ofChars (l : List Char) : CString := ⟨(l.map Char.toUInt8).filter (· ≠ 0), by simp⟩

end CString

/-- What the server registers of a name. -/
def stored (name : CString) : CString := name.cut maxNameLen

/-! ## State -/

/-- `entry_t`; `weak` is 0 or 1. -/
structure Entry where
  name : CString
  id : ThreadId
  weak : Bool
  deriving DecidableEq

/-- The entry of a slot that is freed: the flag stays. -/
def Entry.cleared (e : Entry) : Entry := { e with id := invalidId, name := .empty }

/-- The test of `unregister_thread`. -/
def Entry.isOf (name : CString) (id : ThreadId) (e : Entry) : Bool :=
  threadEqual e.id id && decide (e.name = name)

/-- The command line, and whether the kernel takes the names of threads. -/
structure Config where
  useLogserver : Bool := true
  logserverName : CString := .ofChars ['s', 't', 'd', 'l', 'o', 'g', 'V', '0', '5']
  registerThreadNames : Bool

/-- The table, the log server that is in use, and what the kernel has been told, the last call first. -/
structure NameServer where
  entries : Nat → Entry
  logserverId : ThreadId
  /-- `LOG_outstring` is the function of the log library. -/
  logsrvOut : Bool
  threadNames : List (ThreadId × CString)

namespace NameServer

/-- `init_entries`, from the slot below `n` down. -/
def initLoop : (n : Nat) → (entries : Nat → Entry) → Nat → Entry
  | 0, entries => entries
  | i + 1, entries =>
    initLoop i (Function.update entries i (entries i).cleared)

def initEntries (s : NameServer) : NameServer := { s with entries := initLoop maxEntries s.entries }

/-- The static variables, after `init_entries`. -/
def start : NameServer :=
  initEntries {
    entries := fun _ => ⟨.empty, nilId, false⟩
    logserverId := nilId
    logsrvOut := false
    threadNames := [] }

def kernelRegisterThreadName (c : Config) (id : ThreadId) (name : CString) (s : NameServer) : NameServer :=
  if c.registerThreadNames then { s with threadNames := (id, name) :: s.threadNames } else s

/-! ## Requests -/

/-- `server_names_register` -/
def serverNamesRegister (c : Config) (s : NameServer) (name : CString) (id : ThreadId) (weak : Bool) :
    Bool × NameServer :=
  if (List.range maxEntries).any fun i =>
      !weak && !(s.entries i).weak && decide ((s.entries i).name = name) then (false, s)
  else match (List.range maxEntries).find? fun i => isInvalidId (s.entries i).id with
    | none => (false, s)
    | some i =>
      let s := { s with entries := Function.update s.entries i ⟨stored name, id, weak⟩ }
      let s := s.kernelRegisterThreadName c id name
      if c.useLogserver ∧ stored name = c.logserverName then
        (true, { s with logserverId := id, logsrvOut := true })
      else (true, s)

/-- `names_register_component`, for the client with the id `client`. -/
def register (c : Config) (s : NameServer) (client : ThreadId) (name : CString) : Bool × NameServer :=
  s.serverNamesRegister c name client false

/-- `names_register_thread_component` -/
def registerThread (c : Config) (s : NameServer) (name : CString) (id : ThreadId) : Bool × NameServer :=
  s.serverNamesRegister c name id true

/-- A slot is freed. -/
def free (c : Config) (s : NameServer) (i : Nat) : NameServer :=
  let s := s.kernelRegisterThreadName c (s.entries i).id
    (.ofChars [' ', '(', 'd', 'e', 'l', 'e', 't', 'e', 'd', ')'])
  { s with entries := Function.update s.entries i (s.entries i).cleared }

/-- The loop that frees all slots in `p`, `n` slots from the end. The first result is `true` if there was
one. -/
def freeLoop (c : Config) (p : Entry → Bool) : (n i : Nat) → (ret : Bool) → NameServer → Bool × NameServer
  | 0, _, ret, s => (ret, s)
  | n + 1, i, ret, s =>
    if p (s.entries i) then freeLoop c p n (i + 1) true (s.free c i) else freeLoop c p n (i + 1) ret s

/-- The log server is not used any longer when it unregisters a name. -/
def dropLogserver (c : Config) (client : ThreadId) (s : NameServer) : NameServer :=
  if c.useLogserver ∧ threadEqual s.logserverId client then { s with logsrvOut := false, logserverId := nilId }
  else s

/-- `names_unregister_thread_component` -/
def unregisterThread (c : Config) (s : NameServer) (client : ThreadId) (name : CString) (id : ThreadId) :
    Bool × NameServer :=
  freeLoop c (Entry.isOf name id) maxEntries 0 false (s.dropLogserver c client)

/-- `names_unregister_task_component` -/
def unregisterTask (c : Config) (s : NameServer) (id : ThreadId) : Bool × NameServer :=
  (true, (freeLoop c (fun e => tasknumEqual e.id id) maxEntries 0 false s).2)

/-- The loop of `query_name` and `query_id`: the slot of the first match that is not weak, else of the first
match. -/
def querySlot (s : NameServer) (p : Entry → Bool) : Option Nat :=
  pick (fun i => p (s.entries i)) (fun i => (s.entries i).weak) maxEntries 0 none

/-- `names_query_name_component`; without a string there is no answer. -/
def queryName (s : NameServer) (name : Option CString) : Option ThreadId :=
  match name with
  | none => none
  | some name => (s.querySlot fun e => e.name = name).map fun i => (s.entries i).id

/-- `names_query_id_component` -/
def queryId (s : NameServer) (id : ThreadId) : Option CString :=
  (s.querySlot fun e => threadEqual e.id id).map fun i => (s.entries i).name

/-- The answer to a query by number: none, an entry, or what lies in front of the table. -/
inductive NrAnswer where
  | invalid
  | entry (name : CString) (id : ThreadId)
  | beforeTable

/-- `names_query_nr_component` -/
def queryNr (s : NameServer) (nr : Int) : NrAnswer :=
  if nr ≥ maxEntries then .invalid
  else if nr < 0 then .beforeTable
  else
    let e := s.entries nr.toNat
    if isInvalidId e.id then .invalid else .entry e.name e.id

end NameServer

end L4env.Names
