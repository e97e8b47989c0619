import L4env.Util.Returns
import Mathlib.Logic.Relation

/-!
# Task server: kill of tasks

The task server keeps a table of tasks with their owners (`simple_ts/server/src/main.c`). A task is
killed with all tasks it owns by a recursion on the table. With the event server a task that was killed is
terminating until the event server acknowledges its exit, and only then its number is free; the
acknowledge thread may work between any two steps of the server.

There is no result where the recursion is deeper than `fuel`. What `deleted` records is no data of the
server: the tasks that were deleted at roottask, by their index in the table.
-/

namespace L4env.SimpleTs

/-- `l4_threadid_t`: ten bits of the version, seven of the thread, eleven of the task, and four of the
version. -/
abbrev ThreadId := BitVec 32

/-- `TASK_MASK` -/
def taskMask : ThreadId := 0xfffe03ff

def nilId : ThreadId := 0

/-- `l4_task_equal` -/
def taskEqual (t1 t2 : ThreadId) : Bool := t1 &&& taskMask = t2 &&& taskMask

/-- `t.id.task` -/
def ThreadId.task (t : ThreadId) : Nat := (t >>> 17 &&& 0x7ff).toNat

/-- `TASK_FIRST` -/
def tasknoMin : Nat := 10

/-- The options of `task_kill`: `L4TS_KILL_FREE` and `L4TS_KILL_NOEV`. -/
structure KillOptions where
  free : Bool
  noev : Bool

/-- The errors of `task_kill`. -/
inductive KillError where
  | notFound
  | unknown
  | notOwner
  deriving DecidableEq

/-- The command line, the table of tasks, and the bits of the tasks. `free` is the option
`L4TS_KILL_FREE` that is left for the acknowledge thread. An entry has its task number in its id all the
time; the version changes when the number is allocated. -/
structure TaskServer where
  noOwnerCheck : Bool
  usingEvents : Bool
  masterId : ThreadId
  taskCnt : Nat
  owner : Nat → ThreadId
  id : Nat → ThreadId
  used : Nat → Bool
  term : Nat → Bool
  free : Nat → Bool
  deleted : List Nat
  clock : Nat
  id_task : ∀ i < taskCnt, (id i).task = i + tasknoMin

/-- What the other threads and roottask do, by the time: the tasks whose exit is acknowledged, and whether
`rmgr_get_task` succeeds for a task number. -/
structure Others where
  acks : Nat → List Nat
  getTask : Nat → Nat → Bool

namespace TaskServer

/-- `taskid_to_index` -/
def index (s : TaskServer) (taskid : ThreadId) : Option Nat :=
  if tasknoMin ≤ taskid.task ∧ taskid.task - tasknoMin < s.taskCnt then some (taskid.task - tasknoMin)
  else none

/-- `handle_ack` for a task. -/
def handleAck (s : TaskServer) (i : Nat) : TaskServer :=
  if s.term i then
    let s := { s with term := Function.update s.term i false }
    if s.free i then
      { s with owner := Function.update s.owner i nilId, used := Function.update s.used i false }
    else s
  else s

/-- The acknowledge thread works. -/
def others (o : Others) (s : TaskServer) : TaskServer :=
  (o.acks s.clock).foldl handleAck { s with clock := s.clock + 1 }

def mayKill (s : TaskServer) (caller taskid : ThreadId) (n : Nat) : Bool :=
  s.noOwnerCheck || taskEqual (s.owner n) caller || taskEqual s.masterId caller ||
    taskEqual taskid caller || s.owner n = nilId

/-- `task_kill` from the setting of the termination state on. -/
def killIndex (o : Others) (s : TaskServer) (taskid : ThreadId) (n : Nat) (options : KillOptions) :
    Option KillError × TaskServer :=
  let events := s.usingEvents && !options.noev
  let s := if events then { s with term := Function.update s.term n true } else s
  if o.getTask s.clock taskid.task = false then (some .unknown, s)
  else
    let s := { s with deleted := s.deleted ++ [n] }
    if events then
      -- `send_to_ack_thread`
      (none, { s with free := Function.update s.free n options.free })
    else if options.free then
      (none, { s with owner := Function.update s.owner n nilId, used := Function.update s.used n false })
    else (none, s)

def taskKill (o : Others) (s : TaskServer) (caller taskid : ThreadId) (options : KillOptions) :
    Option KillError × TaskServer :=
  match s.index taskid with
  | none => (some .notFound, s)
  | some n =>
    if s.used n = false then (some .unknown, s)
    else if s.term n then (some .unknown, s)
    else if s.mayKill caller taskid n = false then (some .notOwner, s)
    else s.killIndex o taskid n options

/-- A round of the loop of `task_kill_recursive` for the task `n`, with `kill` for the recursive call. -/
def killOwned (o : Others) (kill : TaskServer → ThreadId → ThreadId → Option (Option KillError × TaskServer))
    (n : Nat) (s : TaskServer) (i : Nat) : Option TaskServer :=
  let s := s.others o
  if s.used i && taskEqual (s.owner i) (s.id n) then (kill s (s.id n) (s.id i)).map Prod.snd
  else some s

/-- `task_kill_recursive` -/
def taskKillRecursive (o : Others) : Nat → TaskServer → ThreadId → ThreadId →
    Option (Option KillError × TaskServer)
  | 0, _, _, _ => none
  | fuel + 1, s, caller, taskid =>
    match (s.others o).taskKill o caller taskid { free := true, noev := false } with
    | (some e, s) => some (some e, s)
    | (none, s) =>
      ((List.range s.taskCnt).foldlM (killOwned o (taskKillRecursive o fuel) (taskid.task - tasknoMin)) s).map
        fun s => (none, s)

/-! ## Ownership -/

/-- The task `j` is allocated, and the task `i` owns it. -/
def Owns (s : TaskServer) (i j : Nat) : Prop :=
  j < s.taskCnt ∧ s.used j = true ∧ taskEqual (s.owner j) (s.id i) = true

/-- The task `i` owns `j` transitively, or is it. -/
def OwnsAll (s : TaskServer) : Nat → Nat → Prop := Relation.ReflTransGen s.Owns

end TaskServer

end L4env.SimpleTs
