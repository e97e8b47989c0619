import L4env.Util.Links

/-!
# Threads, tasks and the present list of the Fiasco kernel

All existing threads are members of one ring, the present list. Nothing else records which thread
belongs to which task and which task was created by which: `Thread::kill_task` finds the threads it
has to kill by looking at the neighbours of a thread in that ring (`thread.cpp`, `thread-list.cpp`).

The model has the two links of every thread control block and the task table (`space_index.cpp`).
Address spaces, IPC, locks and scheduling are left out; the pager of a thread and the memory the
kernel has for new threads and tasks are arguments of the system calls. A null or dangling pointer
that is followed gives `none`.
-/

namespace L4env.Fiasco

/-- A task number has `Task_size` bits. -/
abbrev TaskNum := Fin 2048

/-- A number of a thread within its task has `Lthread_size` bits. -/
abbrev LThreadNum := Fin 128

instance neZeroLThreads : NeZero 128 := ⟨by decide⟩

/-- The global id of a thread, which is also the place of its thread control block. -/
structure ThreadId where
  task : TaskNum
  lthread : LThreadNum
deriving DecidableEq

/-- An entry of the task table: a space with its chief, or a dead number that its chief may use. -/
inductive SpaceRegistry
  | space (chief : TaskNum)
  | dead (chief : TaskNum)
deriving DecidableEq

def SpaceRegistry.chief : SpaceRegistry → TaskNum
  | .space c => c
  | .dead c => c

structure Kernel where
  presentNext : ThreadId → Option ThreadId
  presentPrev : ThreadId → Option ThreadId
  spaces : TaskNum → SpaceRegistry

namespace Config

def kernelTaskno : TaskNum := 0
def sigma0Taskno : TaskNum := 2
def bootTaskno : TaskNum := 4

end Config

def lookupFirstThread (space : TaskNum) : ThreadId := ⟨space, 0⟩

@[simp] theorem lookupFirstThread_task {t : TaskNum} : (lookupFirstThread t).task = t := rfl
@[simp] theorem lookupFirstThread_lthread {t : TaskNum} : (lookupFirstThread t).lthread = 0 := rfl

namespace Kernel

/-! ## The task table -/

/-- `Space_index_util::chief` -/
def chief (s : Kernel) (t : TaskNum) : TaskNum := (s.spaces t).chief

/-- `Space_index::lookup` finds a space. -/
def lives (s : Kernel) (t : TaskNum) : Bool :=
  match s.spaces t with
  | .space _ => true
  | .dead _ => false

/-- `Thread::chief_index`. The space of the kernel task is not registered in the task table. -/
def chiefIndex (s : Kernel) (t : ThreadId) : Option TaskNum :=
  if t.task = Config.kernelTaskno then some Config.kernelTaskno
  else match s.spaces t.task with
    | .space c => some c
    | .dead _ => none

/-- `Space_index::set_chief` -/
def setChief (s : Kernel) (si old new : TaskNum) : Bool × Kernel :=
  match s.spaces si with
  | .space _ => (false, s)
  | .dead c =>
    if c ≠ old then (false, s)
    else (true, { s with spaces := Function.update s.spaces si (.dead new) })

/-- `Space_index::add`: the new space keeps the chief that the dead number had. -/
def add (s : Kernel) (number : TaskNum) : Option Kernel :=
  match s.spaces number with
  | .space _ => none
  | .dead c => some { s with spaces := Function.update s.spaces number (.space c) }

/-- `Space_index::reparent_children`, a loop in which each round looks at one entry. -/
def reparentChildren (s : Kernel) (number chief : TaskNum) : Kernel :=
  { s with spaces := fun i =>
      match s.spaces i with
      | .space c => .space c
      | .dead c => if c = number then .dead chief else .dead c }

/-- `Space_index::del` -/
def del (s : Kernel) (number chief : TaskNum) : Kernel :=
  { s with spaces := Function.update s.spaces number (.dead chief) }.reparentChildren number chief

/-! ## The present list -/

def inPresentList (s : Kernel) (t : ThreadId) : Bool := (s.presentNext t).isSome

/-- `Thread::present_enqueue (Thread *sibling)` -/
def presentEnqueueAfter (s : Kernel) (t sibling : ThreadId) : Option Kernel :=
  if s.inPresentList t then some s
  else match s.presentNext sibling with
    | none => none
    | some n => some { s with
        presentNext := Function.update (Function.update s.presentNext t (some n)) sibling (some t)
        presentPrev := Function.update (Function.update s.presentPrev t (some sibling)) n (some t) }

/-- `Thread::present_dequeue`. The backward link keeps its old value. -/
def presentDequeue (s : Kernel) (t : ThreadId) : Option Kernel :=
  match s.presentNext t with
  | none => some s
  | some n =>
    match s.presentPrev t with
    | none => none
    | some p => some { s with
        presentNext := Function.update (Function.update s.presentNext p (some n)) t none
        presentPrev := Function.update s.presentPrev n (some p) }

/-- `Thread::present_enqueue_other_task` -/
def presentEnqueueOtherTask (s : Kernel) (t creator : ThreadId) : Option Kernel :=
  if t.lthread ≠ 0 then
    -- other task and not its first thread: behind the first thread of the task
    s.presentEnqueueAfter t (lookupFirstThread t.task)
  else
    -- other task: in front of the task of the creator
    match s.presentPrev (lookupFirstThread creator.task) with
    | none => none
    | some p => s.presentEnqueueAfter t p

/-- `Thread::present_enqueue`. The creator is the owner of the lock of the new thread. -/
def presentEnqueue (s : Kernel) (t creator : ThreadId) : Option Kernel :=
  if t.task = creator.task then s.presentEnqueueAfter t creator
  else s.presentEnqueueOtherTask t creator

/-! ## Killing a task -/

/-- `Thread::kill`. A thread is invalid unless it is a member of the present list. -/
def kill (s : Kernel) (t : ThreadId) : Option (Bool × Kernel) :=
  if !s.inPresentList t then some (false, s)
  else if t.lthread = 0 then do
    let c ← s.chiefIndex t
    let s ← (s.del t.task c).presentDequeue t
    return (true, s)
  else do
    let s ← s.presentDequeue t
    return (true, s)

/-- `kill_iter`: the first thread of the task to kill, the first thread of the task at hand, and the
thread to be killed next. -/
structure KillIter where
  top : ThreadId
  thread0 : ThreadId
  thread : Option ThreadId

/-- `kill_iter::next_sibling`. Two threads have the same space if they are of the same task. -/
def nextSibling (s : Kernel) (thread0 : ThreadId) : Option (Option ThreadId) :=
  match s.presentNext thread0 with
  | none => none
  | some n => some (if n ≠ thread0 ∧ n.task = thread0.task then some n else none)

/-- `kill_iter::next_child` -/
def nextChild (s : Kernel) (parent : ThreadId) : Option (Option ThreadId) :=
  match s.presentPrev parent with
  | none => none
  | some p =>
    if p = parent then some none
    else match s.chiefIndex p with
      | none => none
      | some c => some (if c = parent.task then some p else none)

/-- The loop of `kill_iter::advance_to_next`. -/
def descend (s : Kernel) (top : ThreadId) : Nat → ThreadId → Option KillIter
  | 0, _ => none
  | fuel + 1, thread0 =>
    match s.nextSibling thread0 with
    | none => none
    | some (some t) => some ⟨top, thread0, some t⟩
    | some none =>
      match s.nextChild thread0 with
      | none => none
      | some (some t) => s.descend top fuel t
      | some none =>
        if thread0 = top then some ⟨top, thread0, some thread0⟩
        else match s.chiefIndex thread0 with
          | none => none
          | some c => some ⟨top, lookupFirstThread c, some thread0⟩

/-- `kill_iter::advance_to_next` -/
def advanceToNext (s : Kernel) (fuel : Nat) (it : KillIter) : Option KillIter :=
  if it.thread = some it.top then some { it with thread := none }
  else s.descend it.top fuel it.thread0

/-- The loop of `Thread::kill_task`. It also returns the threads it visits. -/
def killLoop : Nat → Kernel → KillIter → Option (List ThreadId × Kernel)
  | 0, _, _ => none
  | fuel + 1, s, it =>
    match it.thread with
    | none => some ([], s)
    | some t => do
      let (_, s) ← s.kill t
      let it ← s.advanceToNext fuel it
      let (visited, s) ← killLoop fuel s it
      return (t :: visited, s)

/-- `Thread::kill_task`, on the first thread of the task `self`. -/
def killTask (s : Kernel) (fuel : Nat) (self subtask : TaskNum) :
    Option (Bool × List ThreadId × Kernel) :=
  if !s.inPresentList (lookupFirstThread self) then some (false, [], s)
  else if s.chief subtask ≠ self then none
  else do
    let top := lookupFirstThread subtask
    let it ← s.advanceToNext fuel ⟨top, top, none⟩
    let (visited, s) ← killLoop fuel s it
    return (true, visited, s)

/-! ## System calls -/

/-- `Syscalls::sys_thread_ex_regs` by the thread `self`, as far as it concerns the present list.
`pages` is whether the destination has a pager or a capability handler in the task of `self`, and
`mem` whether there is memory for a new thread. -/
def sysThreadExRegs (s : Kernel) (self : ThreadId) (task : TaskNum) (lthread : LThreadNum)
    (pages mem : Bool) : Option Kernel :=
  let create (dst : ThreadId) : Option Kernel :=
    if s.inPresentList dst || !mem then some s else s.presentEnqueue dst self
  if task = 0 ∨ task = self.task then create ⟨self.task, lthread⟩
  else
    -- `ex_regs_permission_inter_task`
    let thread0 := lookupFirstThread task
    if !s.inPresentList thread0 then some s
    else match s.chiefIndex thread0 with
      | none => none
      | some c => if !pages && c ≠ self.task then some s else create ⟨task, lthread⟩

/-- What the caller of `task_new` asks for, once the number is dead. -/
inductive TaskNew
  | transfer (newChief : TaskNum)
  | create

/-- How far the kernel's memory and the quota of the caller reach. -/
inductive Memory
  | noTask
  | noThread
  | enough
deriving DecidableEq

/-- The part of `Syscalls::sys_task_new` that follows the deletion of the old task. -/
def sysTaskNewDead (s : Kernel) (self : ThreadId) (si : TaskNum) (req : TaskNew) (mem : Memory) :
    Option Kernel :=
  match req with
  | .transfer newChief =>
    if !s.lives newChief then some s else some (s.setChief si self.task newChief).2
  | .create =>
    match mem with
    | .noTask => some s
    | .noThread => do
      -- the address space or the first thread could not be set up: `delete task`
      let s ← s.add si
      return s.del si (s.chief si)
    | .enough => do
      let s ← s.add si
      s.presentEnqueue (lookupFirstThread si) self

/-- `Syscalls::sys_task_new` by the thread `self`. -/
def sysTaskNew (s : Kernel) (fuel : Nat) (self : ThreadId) (si : TaskNum) (req : TaskNew)
    (mem : Memory) : Option Kernel :=
  if s.chief si ≠ self.task then some s
  else if s.lives si then do
    let (done, _, s) ← s.killTask fuel self.task si
    if !done then return s
    s.sysTaskNewDead self si req mem
  else s.sysTaskNewDead self si req mem

/-! ## Boot -/

/-- The kernel thread is alone in the present list (`Kernel_thread::bootstrap`). -/
def bootstrap : Kernel where
  presentNext := Function.update (fun _ => none) (lookupFirstThread Config.kernelTaskno)
    (some (lookupFirstThread Config.kernelTaskno))
  presentPrev := Function.update (fun _ => none) (lookupFirstThread Config.kernelTaskno)
    (some (lookupFirstThread Config.kernelTaskno))
  spaces := fun _ => .dead 0

/-- The loop of `Kernel_thread::init_workload` that gives the numbers behind that of the boot task
to it. -/
def allowBootTask (s : Kernel) : Kernel where
  presentNext := s.presentNext
  presentPrev := s.presentPrev
  spaces := fun i =>
    if Config.bootTaskno < i ∧ s.spaces i = .dead Config.kernelTaskno then .dead Config.bootTaskno
    else s.spaces i

/-- `Kernel_thread::init_workload`, which creates sigma0 and the boot task. -/
def initWorkload (s : Kernel) : Option Kernel := do
  let self := lookupFirstThread Config.kernelTaskno
  let s := s.allowBootTask
  let s := (s.setChief Config.sigma0Taskno Config.kernelTaskno 0).2
  let s ← s.add Config.sigma0Taskno
  let s ← s.presentEnqueue (lookupFirstThread Config.sigma0Taskno) self
  let s := (s.setChief Config.bootTaskno Config.kernelTaskno 0).2
  let s ← s.add Config.bootTaskno
  s.presentEnqueue (lookupFirstThread Config.bootTaskno) self

end Kernel

end L4env.Fiasco
