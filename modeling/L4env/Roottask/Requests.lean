import L4env.Roottask.Pager

/-!
# Requests to the roottask

The tables say who owns the tasks, interrupts, small spaces and I/O ports. The handlers of the resource
manager and of the task server, and the pager's handler of I/O faults, change them for the task that
sends the request. Owners have eight bits: a task number is cut to them where it is passed on.

An access outside of a table has no result. What the kernel and the interrupt threads answer is part of
the request. Requests for memory use the memory map and no entry of these tables.
-/

namespace L4env.Roottask

/-- The tables of owners. -/
inductive Kind
  | task
  | irq
  | small
  | port
deriving DecidableEq

abbrev RMGR_TASK_MAX : Nat := 2048
abbrev RMGR_IRQ_MAX : Nat := 18
abbrev RMGR_SMALL_MAX : Nat := 128

/-- The greatest task number that is an owner. -/
abbrev O_MAX : Nat := 255

def Kind.max : Kind → Nat
  | .task => RMGR_TASK_MAX
  | .irq => RMGR_IRQ_MAX
  | .small => RMGR_SMALL_MAX
  | .port => RMGR_IO_MAX

/-- The fields of `quota_t` that the requests use. -/
structure TableQuota where
  task : RangeQuota
  small : RangeQuota
  irq : Nat
  allowCli : Nat
  logMcp : Nat
deriving DecidableEq

structure Tables where
  /-- `__task`, `__irq`, `__small` and `__iomap` -/
  owner : Kind → Nat → Owner
  /-- `quota`, which has an entry for every task -/
  quota : Fin RMGR_TASK_MAX → TableQuota
  /-- `last_pf` -/
  lastPf : Fin RMGR_TASK_MAX → Nat × Nat

/-- A task number as `owner_t` -/
def ownerOfTask (task : Fin RMGR_TASK_MAX) : Owner := ⟨task % 256, Nat.mod_lt _ (by decide)⟩

/-- The entry of the table of quotas for an owner. -/
def quotaIndex (o : Owner) : Fin RMGR_TASK_MAX := Fin.castLE (by decide) o

namespace Tables

def setOwner (t : Tables) (k : Kind) (n : Nat) (o : Owner) : Tables :=
  { t with owner := Function.update t.owner k (Function.update (t.owner k) n o) }

/-- `quota_alloc_task`, `quota_alloc_small` and `quota_alloc_irq`; ports have no quota. -/
def quotaAllows (t : Tables) (k : Kind) (o : Owner) (n : Nat) : Bool :=
  match k with
  | .task => quotaCheck (t.quota (quotaIndex o)).task n 1
  | .small => quotaCheck (t.quota (quotaIndex o)).small n 1
  | .irq => (t.quota (quotaIndex o)).irq.testBit n
  | .port => true

def setQuota (t : Tables) (i : Fin RMGR_TASK_MAX) (q : TableQuota) : Tables :=
  { t with quota := Function.update t.quota i q }

/-- What the functions that allow it charge. -/
def charge (t : Tables) (k : Kind) (o : Owner) : Tables :=
  let q := t.quota (quotaIndex o)
  match k with
  | .task => t.setQuota (quotaIndex o) { q with task := q.task.charge 1 }
  | .small => t.setQuota (quotaIndex o) { q with small := q.small.charge 1 }
  | .irq | .port => t

/-- `task_alloc`, `irq_alloc`, `small_alloc` and `iomap_alloc_port` for an entry of the table -/
def allocEntry (t : Tables) (k : Kind) (n : Nat) (o : Owner) : Bool × Tables :=
  if t.owner k n = o then (true, t)
  else if t.owner k n ≠ O_FREE then (false, t)
  else if !t.quotaAllows k o n then (false, t)
  else (true, (t.charge k o).setOwner k n o)

/-- `task_free`, `irq_free` and `iomap_free_port` for an entry of the table. Quotas are passed by value
where they are given back. -/
def freeEntry (t : Tables) (k : Kind) (n : Nat) (o : Owner) : Bool × Tables :=
  if t.owner k n ≠ o ∧ t.owner k n ≠ O_FREE then (false, t)
  else if t.owner k n ≠ O_FREE then (true, t.setOwner k n O_FREE)
  else (true, t)

/-- An access to the entry `n` of a table. -/
def access {α : Type} (k : Kind) (n : Nat) (r : α) : Option α := if n < k.max then some r else none

/-- `task_alloc` looks at the number itself. -/
def taskAlloc (t : Tables) (n : Nat) (o : Owner) : Option (Bool × Tables) :=
  if RMGR_TASK_MAX ≤ n then some (false, t) else access .task n (t.allocEntry .task n o)

def taskFree (t : Tables) (n : Nat) (o : Owner) : Option (Bool × Tables) :=
  if RMGR_TASK_MAX ≤ n then some (false, t) else access .task n (t.freeEntry .task n o)

def irqAlloc (t : Tables) (n : Nat) (o : Owner) : Option (Bool × Tables) :=
  access .irq n (t.allocEntry .irq n o)

def irqFree (t : Tables) (n : Nat) (o : Owner) : Option (Bool × Tables) :=
  access .irq n (t.freeEntry .irq n o)

def smallAlloc (t : Tables) (n : Nat) (o : Owner) : Option (Bool × Tables) :=
  access .small n (t.allocEntry .small n o)

def portAlloc (t : Tables) (n : Nat) (o : Owner) : Option (Bool × Tables) :=
  access .port n (t.allocEntry .port n o)

def portFree (t : Tables) (n : Nat) (o : Owner) : Option (Bool × Tables) :=
  access .port n (t.freeEntry .port n o)

def resetPagefault (t : Tables) (n : Nat) : Option Tables :=
  if h : n < RMGR_TASK_MAX then
    some { t with lastPf := Function.update t.lastPf ⟨n, h⟩ (2 ^ 32 - 1, 2 ^ 32 - 1) }
  else none

def quotaReset (t : Tables) (o : Owner) : Tables :=
  let q := t.quota (quotaIndex o)
  t.setQuota (quotaIndex o)
    ⟨{ q.task with max := 0 }, { q.small with max := 0 }, 2 ^ RMGR_IRQ_MAX - 1, 0, 0⟩

/-! ## The resource manager -/

/-- `rmgr_get_task_component`; `created` is the success of `l4_task_new`. -/
def getTask (t : Tables) (c : Fin RMGR_TASK_MAX) (num : BitVec 32) (created : Bool) : Option Tables :=
  if (RMGR_TASK_MAX : Int) ≤ num.toInt then some t
  else do
    let r ← t.taskAlloc num.toNat (ownerOfTask c)
    if !r.1 then some r.2
    else do
      let t ← r.2.resetPagefault num.toNat
      if created then some t
      else do
        let r ← t.taskFree num.toNat (ownerOfTask c)
        some r.2

/-- `rmgr_set_small_space_component`. The bound is unsigned. -/
def setSmallSpace (t : Tables) (c : Fin RMGR_TASK_MAX) (smallSpaceSize : Nat) (invalid : Bool)
    (num : BitVec 32) : Option Tables :=
  if invalid then some t
  else if smallSpaceSize = 0 ∨ 128 / smallSpaceSize ≤ num.toNat then some t
  else do
    let r ← t.smallAlloc num.toNat (ownerOfTask c)
    some r.2

/-- `rmgr_task_new_component` -/
def taskNew (t : Tables) (c tid : Fin RMGR_TASK_MAX) (pagerNil created : Bool) : Option Tables :=
  if pagerNil then some t
  else do
    let r ← t.taskAlloc tid (ownerOfTask c)
    if !r.1 then some r.2
    else if created then some (r.2.quotaReset (ownerOfTask tid))
    else do
      let r ← r.2.taskFree tid (ownerOfTask c)
      some r.2

/-- The loop of `rmgr_free_task_all_component` over the tasks from `i` on, with `n` to go. -/
def freeTaskAll (t : Tables) (tid : Fin RMGR_TASK_MAX) (created : Nat → Bool) :
    Nat → Nat → Option Tables
  | _, 0 => some t
  | i, n + 1 =>
    if (t.owner .task i : Nat) = tid then do
      let t ← t.resetPagefault i
      if !created i then some t
      else do
        let r ← t.taskFree i (ownerOfTask tid)
        r.2.freeTaskAll tid created (i + 1) n
    else t.freeTaskAll tid created (i + 1) n

/-- `rmgr_free_task_component` -/
def freeTask (t : Tables) (c : Fin RMGR_TASK_MAX) (num : BitVec 32) : Option Tables :=
  if (RMGR_TASK_MAX : Int) ≤ num.toInt then some t
  else do
    let r ← t.taskFree num.toNat (ownerOfTask c)
    some r.2

/-- `rmgr_set_task_id_component`; `cfg` is the configured quota of the module. -/
def setTaskId (t : Tables) (c tid : Fin RMGR_TASK_MAX) (cfg : Option TableQuota) : Option Tables :=
  if (t.owner .task tid : Nat) = c then some ((cfg.map (t.setQuota tid)).getD t) else some t

/-- `rmgr_get_irq_component`; `refused` is the answer of the thread of the interrupt. -/
def getIrq (t : Tables) (c : Fin RMGR_TASK_MAX) (num : BitVec 32) (refused : Bool) : Option Tables :=
  if (RMGR_IRQ_MAX : Int) ≤ num.toInt then some t
  else do
    let r ← t.irqAlloc num.toNat (ownerOfTask c)
    if !r.1 then some r.2
    else if !refused then some r.2
    else do
      let r ← r.2.irqFree num.toNat (ownerOfTask c)
      some r.2

/-- `rmgr_free_irq_component` -/
def freeIrq (t : Tables) (c : Fin RMGR_TASK_MAX) (num : BitVec 32) : Option Tables :=
  if (RMGR_IRQ_MAX : Int) ≤ num.toInt then some t
  else do
    let r ← t.irqFree num.toNat (ownerOfTask c)
    some r.2

/-- The loop of `rmgr_free_irq_all_component` over the interrupts from `i` on, with `n` to go. -/
def freeIrqAll (t : Tables) (tid : Fin RMGR_TASK_MAX) : Nat → Nat → Option Tables
  | _, 0 => some t
  | i, n + 1 =>
    if (t.owner .irq i : Nat) = tid then do
      let r ← t.irqFree i (ownerOfTask tid)
      r.2.freeIrqAll tid (i + 1) n
    else t.freeIrqAll tid (i + 1) n

/-- The loop of `rmgr_free_fpage_component` over the ports from `i` on, with `n` to go. -/
def freePorts (t : Tables) (o : Owner) : Nat → Nat → Option Tables
  | _, 0 => some t
  | i, n + 1 => do
    let r ← t.portFree i o
    r.2.freePorts o (i + 1) n

/-! ## The task server -/

/-- The search of `task_next` for a free task from `i` on, with `n` to go. -/
def firstFree (t : Tables) : Nat → Nat → Option Nat
  | _, 0 => none
  | i, n + 1 => if t.owner .task i = O_FREE then some i else t.firstFree (i + 1) n

/-- `task_next` -/
def taskNext (t : Tables) (c : Fin RMGR_TASK_MAX) : Option Nat × Tables :=
  match t.firstFree 0 RMGR_TASK_MAX with
  | none => (none, t)
  | some i =>
    if !t.quotaAllows .task (ownerOfTask c) i then (none, t)
    else (some i, (t.charge .task (ownerOfTask c)).setOwner .task i (ownerOfTask c))

/-- `task_next_explicit` -/
def taskNextExplicit (t : Tables) (c : Fin RMGR_TASK_MAX) (task : Nat) : Option Nat × Tables :=
  if RMGR_TASK_MAX ≤ task then (none, t)
  else if t.owner .task task ≠ O_FREE then (none, t)
  else (some task, t.setOwner .task task (ownerOfTask c))

/-- `l4_ts_allocate_component` -/
def tsAllocate (t : Tables) (c : Fin RMGR_TASK_MAX) (taskno : Nat) (created : Bool) : Option Tables :=
  let r := if taskno = 0 then t.taskNext c else t.taskNextExplicit c taskno
  match r.1 with
  | none => some r.2
  | some num => do
    let t ← r.2.resetPagefault num
    if created then some t
    else do
      let r ← t.taskFree num (ownerOfTask c)
      some r.2

/-- The loop of `task_free_owned` over the tasks from `i` on, with `n` to go. -/
def taskFreeOwned (t : Tables) (o : Owner) : Nat → Nat → Option Tables
  | _, 0 => some t
  | i, n + 1 => do
    let r ← t.taskFree i o
    r.2.taskFreeOwned o (i + 1) n

/-! ## I/O faults -/

/-- The loop of `handle_io` over the ports from `i` on, with `n` to go. -/
def allocPorts (t : Tables) (c : Fin RMGR_TASK_MAX) (fault : Nat × Nat) : Nat → Nat → Option Tables
  | _, 0 => some t
  | i, n + 1 => do
    let r ← t.portAlloc i (ownerOfTask c)
    if !r.1 then some { r.2 with lastPf := Function.update r.2.lastPf c fault }
    else r.2.allocPorts c fault (i + 1) n

/-- `handle_io` -/
def handleIo (t : Tables) (c : Fin RMGR_TASK_MAX) (haveIo : Bool) (fault : Nat × Nat) (port size : Nat) :
    Option Tables :=
  if !haveIo then some { t with lastPf := Function.update t.lastPf c fault }
  else if port = 0 ∧ size = L4_WHOLE_IOADDRESS_SPACE then
    if (t.quota c).allowCli = 0 then some { t with lastPf := Function.update t.lastPf c fault }
    else some t
  else t.allocPorts c fault port (flexpage size)

end Tables

/-- A request. The task number in a thread id has eleven bits, the fields of an I/O flexpage have sixteen
and six. -/
inductive Request
  | getTask (num : BitVec 32) (created : Bool)
  | setPrio
  | setSmallSpace (smallSpaceSize : Nat) (invalid : Bool) (num : BitVec 32)
  | taskNew (tid : Fin RMGR_TASK_MAX) (pagerNil created : Bool)
  | freeTaskAll (tid : Fin RMGR_TASK_MAX) (created : Nat → Bool)
  | freeTask (num : BitVec 32)
  | setTaskId (tid : Fin RMGR_TASK_MAX) (cfg : Option TableQuota)
  | getIrq (num : BitVec 32) (refused : Bool)
  | freeIrq (num : BitVec 32)
  | freeIrqAll (tid : Fin RMGR_TASK_MAX)
  | freeFpage (isIo : Bool) (port : Fin RMGR_IO_MAX) (size : Fin 64)
  | tsAllocate (taskno : BitVec 32) (created : Bool)
  | tsFree (tid : Fin RMGR_TASK_MAX)
  | tsExit (invalid : Bool)
  | ioFault (haveIo : Bool) (fault : Nat × Nat) (port : Fin RMGR_IO_MAX) (size : Fin 64)

open Tables in
/-- What a request of the task `c` does to the tables. -/
def handleRequest (t : Tables) (c : Fin RMGR_TASK_MAX) : Request → Option Tables
  | .getTask num created => t.getTask c num created
  | .setPrio => some t
  | .setSmallSpace smallSpaceSize invalid num => t.setSmallSpace c smallSpaceSize invalid num
  | .taskNew tid pagerNil created => t.taskNew c tid pagerNil created
  | .freeTaskAll tid created => t.freeTaskAll tid created 0 RMGR_TASK_MAX
  | .freeTask num => t.freeTask c num
  | .setTaskId tid cfg => t.setTaskId c tid cfg
  | .getIrq num refused => t.getIrq c num refused
  | .freeIrq num => t.freeIrq c num
  | .freeIrqAll tid => t.freeIrqAll tid 0 RMGR_IRQ_MAX
  | .freeFpage isIo port size =>
    if isIo then t.freePorts (ownerOfTask c) port (flexpage size) else some t
  | .tsAllocate taskno created => t.tsAllocate c taskno.toNat created
  | .tsFree tid => (t.taskFree tid (ownerOfTask c)).map Prod.snd
  | .tsExit invalid => if invalid then some t else t.taskFreeOwned (ownerOfTask c) 0 RMGR_TASK_MAX
  | .ioFault haveIo fault port size =>
    -- the pager serves no task that is not an owner
    if c ≤ O_MAX then t.handleIo c haveIo fault port size else some t

end L4env.Roottask
