import L4env.SimpleTs.Kill
import Mathlib.Tactic

/-!
# Task server: requests and the acknowledge thread

The server thread takes one request after the other (`simple_ts/server/src/main.c`). A kill hands the task
to the acknowledge thread, which sends an exit event and keeps the task in its timeout queue until the
event server acknowledges it. The acknowledge thread works between any two steps of the server thread, also
between the rounds of a recursive kill.

Where an item stands in the timeout queue depends on the time, and is an answer of the environment like
those of roottask and of the event server.
-/

namespace L4env.SimpleTs

/-- `t.id.version_low++` -/
def ThreadId.nextVersion (t : ThreadId) : ThreadId := (t &&& ~~~0x3ff) ||| ((t + 1) &&& 0x3ff)

theorem ThreadId.task_nextVersion (t : ThreadId) : t.nextVersion.task = t.task := by
  have hlow : ((t + 1) &&& 0x3ff) >>> 17 = 0#32 := by
    rw [BitVec.ushiftRight_and_distrib]
    simp
  have hmask : ~~~(0x3ff : ThreadId) >>> 17 &&& 0x7ff = 0x7ff := by decide
  unfold ThreadId.task ThreadId.nextVersion
  rw [BitVec.ushiftRight_or_distrib, hlow, BitVec.or_zero, BitVec.ushiftRight_and_distrib, BitVec.and_assoc,
    hmask]

/-- The errors of the requests. -/
inductive TsError where
  | noTask
  | notFound
  | notOwner
  | inval
  | used
  | kill (e : KillError)
  deriving DecidableEq

namespace TaskServer

/-- An entry of the table for a task number. -/
def entry (s : TaskServer) (taskno : Nat) : Option Nat :=
  if tasknoMin ≤ taskno ∧ taskno - tasknoMin < s.taskCnt then some (taskno - tasknoMin) else none

/-- The part of `task_alloc` for the entry that it has found. -/
def take (s : TaskServer) (caller : ThreadId) (n : Nat) : TaskServer :=
  { s with
    used := Function.update s.used n true
    owner := Function.update s.owner n caller
    id := Function.update s.id n (s.id n).nextVersion
    id_task := fun i hi => by
      rw [Function.update_apply]
      split
      · rename_i e
        subst e
        exact (ThreadId.task_nextVersion _).trans (s.id_task i hi)
      · exact s.id_task i hi }

/-- `l4util_find_first_zero_bit` -/
def firstFree (s : TaskServer) : Option Nat := (List.range s.taskCnt).find? fun i => !s.used i

/-- `task_alloc`; no number is any number. -/
def taskAlloc (s : TaskServer) (caller : ThreadId) (taskno : Option Nat) : Except TsError (Nat × TaskServer) :=
  match taskno with
  | some taskno =>
    match s.entry taskno with
    | none => throw .noTask
    | some n => if s.used n then throw .noTask else pure (n, s.take caller n)
  | none =>
    match s.firstFree with
    | none => throw .noTask
    | some n => pure (n, s.take caller n)

/-- `task_free` -/
def taskFree (s : TaskServer) (caller : ThreadId) (taskno : Nat) : Except TsError TaskServer :=
  match s.entry taskno with
  | none => throw .notFound
  | some n =>
    if taskEqual (s.owner n) caller = false then throw .notOwner
    else if s.used n = false then throw .notFound
    else
      pure
        { s with
          used := Function.update s.used n false
          owner := Function.update s.owner n nilId }

/-- `task_get_owner` -/
def taskGetOwner (s : TaskServer) (taskid : ThreadId) : ThreadId :=
  match s.index taskid with
  | none => nilId
  | some n => if s.used n then s.owner n else nilId

/-- `task_get_taskid` -/
def taskGetTaskid (s : TaskServer) (taskno : Nat) : ThreadId :=
  match s.entry taskno with
  | none => nilId
  | some n => if s.used n then s.id n else nilId

/-- `task_set_owner` -/
def taskSetOwner (s : TaskServer) (taskid owner : ThreadId) : Except TsError TaskServer :=
  match s.index taskid with
  | none => throw .inval
  | some n =>
    if s.used n then pure { s with owner := Function.update s.owner n owner } else throw .inval

end TaskServer

/-- The requests to the server but the recursive kills, which take more than a step. -/
inductive Request where
  /-- `l4_ts_allocate` and `l4_ts_allocate2`; the number 0 is any number. -/
  | allocate (taskno : Nat)
  | allocate2 (taskno : Nat)
  /-- `l4_ts_free` and `l4_ts_free2` -/
  | free (taskid : ThreadId)
  | tasknoToTaskid (taskno : Nat)
  | create (taskid : ThreadId)
  | kill (taskid : ThreadId) (options : KillOptions)
  | owner (taskid owner : ThreadId)

/-- The table of tasks, what the acknowledge thread has, and where the server thread is: `stack` has the
calls of `task_kill_recursive` that are in their loops, with the task and the next index of each. -/
structure TsState where
  table : TaskServer
  /-- The task that the acknowledge thread has been told of and has not sent the exit event for. -/
  inbox : Option Nat
  /-- The timeout queue: the tasks with the numbers of their exit events. -/
  queue : List (Nat × Nat)
  stack : List (Nat × Nat)

namespace TsState

/-- `task_kill`, which hands the task to the acknowledge thread at its end. -/
def taskKill (s : TsState) (o : Others) (caller taskid : ThreadId) (options : KillOptions) :
    Option KillError × TsState :=
  let r := s.table.taskKill o caller taskid options
  let inbox :=
    if r.1.isNone && s.table.usingEvents && !options.noev then s.table.index taskid else s.inbox
  (r.1, { s with table := r.2, inbox := inbox })

/-- A request of `client`; the answer is the task id it returns, if any. -/
def request (s : TsState) (o : Others) (client : ThreadId) : Request → Except TsError ThreadId × TsState
  | .allocate taskno =>
    match s.table.taskAlloc client (if taskno = 0 then none else some taskno) with
    | .error e => (.error e, s)
    | .ok (n, t) => (.ok (t.id n), { s with table := t })
  | .allocate2 taskno =>
    match s.table.taskAlloc client (if taskno = 0 then none else some taskno) with
    | .error e => (.error e, s)
    | .ok (n, t) =>
      -- the number stays allocated if roottask refuses the task
      if o.getTask t.clock (n + tasknoMin) = false then (.error .noTask, { s with table := t })
      else (.ok (t.id n), { s with table := t })
  | .free taskid =>
    match s.table.taskFree client taskid.task with
    | .error e => (.error e, s)
    | .ok t => (.ok nilId, { s with table := t })
  | .tasknoToTaskid taskno => (.ok (s.table.taskGetTaskid taskno), s)
  | .create taskid =>
    if taskEqual (s.table.taskGetOwner taskid) client = false then (.error .inval, s)
    else
      match s.table.index taskid with
      | none => (.error .inval, s)
      | some n =>
        if s.table.id n ≠ taskid then (.error .inval, s)
        else if s.table.term n then (.error .used, s)
        else (.ok taskid, s)
  | .kill taskid options =>
    let r := s.taskKill o client taskid options
    (match r.1 with
      | none => .ok nilId
      | some e => .error (.kill e), r.2)
  | .owner taskid owner =>
    if taskEqual (s.table.taskGetOwner taskid) client = false then (.error .notOwner, s)
    else
      match s.table.taskSetOwner taskid owner with
      | .error e => (.error e, s)
      | .ok t => (.ok nilId, { s with table := t })

/-- The start of `task_kill_recursive`. -/
def killRecursive (s : TsState) (o : Others) (caller taskid : ThreadId) : TsState :=
  let r := s.taskKill o caller taskid { free := true, noev := false }
  match r.1, s.table.index taskid with
  | none, some n => { r.2 with stack := (n, 0) :: r.2.stack }
  | _, _ => r.2

/-- `l4_ts_exit`. For a client that is in no entry the code reads behind the bits, and then finds no task
to kill. -/
def exit (s : TsState) (o : Others) (client : ThreadId) : TsState :=
  match s.table.index client with
  | none => s
  | some n => if s.table.term n then s else s.killRecursive o client client

/-- A round of the innermost loop of `task_kill_recursive`, or the end of this loop. -/
def killRound (s : TsState) (o : Others) : TsState :=
  match s.stack with
  | [] => s
  | (n, i) :: stack =>
    if i < s.table.taskCnt then
      let s := { s with stack := (n, i + 1) :: stack }
      if s.table.used i && taskEqual (s.table.owner i) (s.table.id n) then
        s.killRecursive o (s.table.id n) (s.table.id i)
      else s
    else { s with stack := stack }

/-- `send_exit_event`; there is no number if the event server has failed. The item is linked at the
position `pos` of the queue. -/
def sendExitEvent (s : TsState) (eventnr : Option Nat) (pos : Nat) : TsState :=
  match s.inbox, eventnr with
  | some n, some nr => { s with inbox := none, queue := s.queue.insertIdx pos (n, nr) }
  | _, _ => { s with inbox := none }

/-- `handle_ack`, which takes the first item with the number. -/
def handleAck (s : TsState) (eventnr : Nat) : TsState :=
  match s.queue.find? fun i => i.2 = eventnr with
  | none => s
  | some i => { s with table := s.table.handleAck i.1, queue := s.queue.erase i }

/-- `handle_timeout`: the first item is linked anew. -/
def handleTimeout (s : TsState) (pos : Nat) : TsState :=
  match s.queue with
  | [] => s
  | i :: queue => { s with queue := queue.insertIdx pos i }

inductive Event where
  | request (client : ThreadId) (r : Request)
  | exit (client : ThreadId)
  | killRecursive (client taskid : ThreadId)
  | killRound
  | sendExitEvent (eventnr : Option Nat) (pos : Nat)
  | handleAck (eventnr : Nat)
  | handleTimeout (pos : Nat)

/-- The server thread takes a request when it is done with the last one, and waits for the acknowledge
thread before it kills another task. -/
def Event.Enabled (s : TsState) : Event → Prop
  | .request .. | .exit _ | .killRecursive .. => s.stack = [] ∧ s.inbox = none
  | .killRound => s.stack ≠ [] ∧ s.inbox = none
  | .sendExitEvent _ pos => s.inbox ≠ none ∧ pos ≤ s.queue.length
  | .handleAck _ => True
  | .handleTimeout pos => pos < s.queue.length

def step (s : TsState) (o : Others) : Event → TsState
  | .request client r => (s.request o client r).2
  | .exit client => s.exit o client
  | .killRecursive client taskid => s.killRecursive o client taskid
  | .killRound => s.killRound o
  | .sendExitEvent eventnr pos => s.sendExitEvent eventnr pos
  | .handleAck eventnr => s.handleAck eventnr
  | .handleTimeout pos => s.handleTimeout pos

end TsState

end L4env.SimpleTs
