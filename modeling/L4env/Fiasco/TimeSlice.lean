import L4env.Fiasco.Sched

/-!
# Time slices of the Fiasco kernel

A context has a ring of scheduling contexts: the one that is a part of it and its real-time slices. One of
them is active. The time of one scheduling context of the whole system is counted by the timer, the global
time slice (`context.cpp`, `syscalls.cpp`, `deadline_timeout.cpp`, `timeslice_timeout.cpp`,
`thread-ipc.cpp`, `thread.cpp`).

Interrupts come between two system calls and while `schedule` has opened the interrupts. Which context
runs for one that is locked, what the other parts of the kernel do to the state bits of contexts, and what
is left on the timer are answers of the environment.
-/

namespace L4env.Fiasco

structure TimeSlices (T S : Type) where
  k : Sched T S
  /-- `mode() & Periodic` -/
  periodic : T → Bool
  /-- `_deadline_timeout.is_set()` -/
  deadline : T → Bool
  /-- `state() & Thread_delayed_deadline` -/
  delayedDeadline : T → Bool
  /-- `state() & Thread_delayed_ipc` -/
  delayedIpc : T → Bool
  /-- The scheduling contexts that are parts of contexts or come from the slab. -/
  used : S → Bool
  /-- `schedule` looks for a context. -/
  inSchedule : Bool

/-- What a call can run into. -/
inductive SliceFault where
  /-- An access through `current_sched` when it is null. -/
  | nullSched
  /-- The assertion of `switch_sched` that the new time slice is full. -/
  | notFull
  /-- The assertion of `Timeslice_timeout::expired` that the time slice is the owner's active one. -/
  | notActive
  /-- The assertion of `remove_realtime_param` and `begin_periodic` that the time slice is the timesharing
  one. -/
  | notTimesharing
  deriving DecidableEq

namespace Sched

variable {T S : Type} [DecidableEq T] [DecidableEq S]

instance (k : Sched T S) (t : T) (next : S) : Decidable (k.switchSchedAssertion t next) :=
  inferInstanceAs (Decidable (_ = _))

/-- `set_current_sched`, with `timeout` left on the timer. -/
def setCurrentSched (k : Sched T S) (timeout : Int) (s : S) : Sched T S :=
  let k := match k.currentSched with
    | none => k
    | some r => k.setLeft r (if 0 < timeout then timeout.toNat else (k.slice r).quantum)
  { k with currentSched := some s }

/-- `switch_exec_locked`, where `run` is the context at the end of the chain of lock owners, or none if the
running context has locked it. -/
def switchExecLocked (k : Sched T S) (run : Option T) : Sched T S :=
  match run with
  | none => k
  | some t => if k.ready t then { k.updateReadyList with current := t } else k

def switchToLocked (k : Sched T S) (timeout : Int) (t : T) (run : Option T) : Sched T S :=
  let k := if k.currentSched = some (k.sched t) then k else k.setCurrentSched timeout (k.sched t)
  if t = k.current then k else k.switchExecLocked run

def canPreemptCurrent (k : Sched T S) (s : S) : Bool :=
  if (k.slice s).prio ≤ k.prio k.current then false
  else
    match k.currentSched with
    | none => true
    | some cs => decide ((k.slice cs).prio < (k.slice s).prio) || decide (cs = s)

/-- `enqueue_before` -/
def enqueueBefore (k : Sched T S) (s sibling : S) : Sched T S :=
  let prev := (k.slice sibling).prev
  let k := k.setSlice s { k.slice s with next := sibling, prev := prev }
  let k := k.setSlice sibling { k.slice sibling with prev := s }
  k.setSlice prev { k.slice prev with next := s }

/-- `dequeue` -/
def dequeueSlice (k : Sched T S) (s : S) : Sched T S :=
  let prev := (k.slice s).prev
  let next := (k.slice s).next
  let k := k.setSlice prev { k.slice prev with next := next }
  k.setSlice next { k.slice next with prev := prev }

end Sched

/-- The first parameter of `thread_switch`: the nil thread with the time slice that is to be yielded, or
what `lookup` has found for another one. -/
inductive SwitchDst (T : Type) where
  | nil (id : Nat)
  | thread (t : Option T) (run : Option T)

/-- The modes 0 to 7 of `thread_schedule`, with the scheduling context that the slab hands out. -/
inductive ScheduleMode (S : Type) where
  | setTimesharing (param : Sched.SchedParam)
  | setRealtime (param : Sched.SchedParam) (fresh : S)
  | removeRealtime
  | setPeriod
  | beginPeriodic (clock now : Nat)
  | endPeriodic
  | changeRealtime (id : Nat) (param : Sched.SchedParam)

namespace TimeSlices

variable {T S : Type} [DecidableEq T] [DecidableEq S]

/-- `sched_context (0)->next ()` -/
def firstRealtime (c : TimeSlices T S) (t : T) : S := (c.k.slice (c.k.schedContext t)).next

/-- What follows a time slice that is used up. -/
def successor (c : TimeSlices T S) (s : S) : S := if (c.k.slice s).id ≠ 0 then (c.k.slice s).next else s

def switchSched (c : TimeSlices T S) (t : T) (next : S) : Except SliceFault (TimeSlices T S) :=
  if c.k.switchSchedAssertion t next then pure { c with k := c.k.switchSched t next }
  else throw .notFull

/-- `schedule` up to its loop. -/
def schedule (c : TimeSlices T S) : TimeSlices T S :=
  { c with k := c.k.updateReadyList, inSchedule := true }

/-! ## Timeouts -/

/-- `handle_timer_interrupt` after a timeout that asks for it. -/
def reschedule (c : TimeSlices T S) : TimeSlices T S := if c.inSchedule then c else c.schedule

/-- `Timeslice_timeout::expired` -/
def timesliceExpired (c : TimeSlices T S) : Except SliceFault (TimeSlices T S) :=
  match c.k.currentSched with
  | none => pure c.reschedule
  | some s =>
    let owner := (c.k.slice s).owner
    if c.k.sched owner ≠ s then throw .notActive
    else do
      let c ← c.switchSched owner (c.successor s)
      pure c.reschedule

/-- The end of `Deadline_timeout::expired`. -/
def preempt (c : TimeSlices T S) (t : T) : TimeSlices T S :=
  if c.k.canPreemptCurrent (c.k.sched t) then c.reschedule else c

/-- `Deadline_timeout::expired` for a timeout that was set. -/
def deadlineExpired (c : TimeSlices T S) (t : T) : Except SliceFault (TimeSlices T S) :=
  let c := { c with deadline := Function.update c.deadline t false }
  if c.delayedDeadline t then
    let c := { c with periodic := Function.update c.periodic t true }
    if c.delayedIpc t then
      pure { c with delayedDeadline := Function.update c.delayedDeadline t false }
    else do
      let c ← { c with deadline := Function.update c.deadline t true }.switchSched t (c.firstRealtime t)
      let c :=
        { c with
          delayedDeadline := Function.update c.delayedDeadline t false
          k := { c.k with ready := Function.update c.k.ready t true } }
      pure ({ c with k := c.k.readyEnqueue t }.preempt t)
  else if c.periodic t then do
    let c ← { c with deadline := Function.update c.deadline t true }.switchSched t (c.firstRealtime t)
    pure (c.preempt t)
  else pure (c.preempt t)

/-! ## System calls -/

def sysThreadSwitch (c : TimeSlices T S) (dst : SwitchDst T) : Except SliceFault (TimeSlices T S) :=
  let this := c.k.current
  match dst with
  | .nil id =>
    if id ≠ (c.k.slice (c.k.sched this)).id then pure c
    else do
      let c ← c.switchSched this (c.successor (c.k.sched this))
      pure c.schedule
  | .thread t run =>
    if t.any fun t => decide (t ≠ this) && c.k.ready t then
      pure { c with k := c.k.switchExecLocked run }
    else
      match c.k.currentSched with
      | none => throw .nullSched
      | some cs => do
        let c ← c.switchSched (c.k.slice cs).owner (c.successor cs)
        pure c.schedule

/-- `set_realtime_param` for a caller with the maximum controlled priority `mcp`. -/
def setRealtimeParam (c : TimeSlices T S) (t : T) (mcp : Nat) (param : Sched.SchedParam) (fresh : S) :
    TimeSlices T S :=
  match param.time with
  | none => c
  | some time =>
    if c.periodic t || c.deadline t || decide (mcp < param.prio) then c
    else
      let sc := c.k.schedContext t
      let q := Sched.roundQuantum time
      let id := ((c.k.slice (c.k.slice sc).prev).id + 1) % 65536
      { c with
        k := (c.k.setSlice fresh ⟨t, id, param.prio, q, q, fresh, fresh⟩).enqueueBefore fresh sc
        used := Function.update c.used fresh true }

/-- The loop of `remove_realtime_param`, in at most `fuel` rounds. -/
def removeLoop (c : TimeSlices T S) (stop : S) : Nat → S → Option (TimeSlices T S)
  | 0, _ => none
  | fuel + 1, s =>
    if s = stop then some c
    else
      removeLoop { c with k := c.k.dequeueSlice s, used := Function.update c.used s false } stop fuel
        (c.k.slice s).next

def removeRealtimeParam (c : TimeSlices T S) (fuel : Nat) (t : T) :
    Option (Except SliceFault (TimeSlices T S)) :=
  if c.periodic t || c.deadline t then some (pure c)
  else if c.k.sched t ≠ c.k.schedContext t then some (throw .notTimesharing)
  else (c.removeLoop (c.k.schedContext t) fuel (c.firstRealtime t)).map pure

def beginPeriodic (c : TimeSlices T S) (t : T) (clock now : Nat) : Except SliceFault (TimeSlices T S) :=
  if c.periodic t || c.deadline t then pure c
  else if clock ≠ 0 ∧ clock < now then pure c
  else if c.k.sched t ≠ c.k.schedContext t then throw .notTimesharing
  else pure { c with deadline := Function.update c.deadline t true }

/-- What `end_periodic` and `kill` do first: the context leaves the periodic mode, and returns to its
timesharing slice. -/
def leavePeriodic (c : TimeSlices T S) (t : T) : Except SliceFault (TimeSlices T S) :=
  let c :=
    { c with
      periodic := Function.update c.periodic t false
      deadline := Function.update c.deadline t false }
  if c.k.sched t ≠ c.k.schedContext t then c.switchSched t (c.k.schedContext t) else pure c

/-- `end_periodic` -/
def endPeriodic (c : TimeSlices T S) (t : T) : Except SliceFault (TimeSlices T S) :=
  if !c.periodic t && !c.deadline t then pure c
  else do
    let c ← c.leavePeriodic t
    if c.delayedDeadline t then
      let c := { c with delayedDeadline := Function.update c.delayedDeadline t false }
      if c.delayedIpc t then pure c
      else
        pure { c with k := { c.k with ready := Function.update c.k.ready t true }.readyEnqueue t }
    else pure c

/-- `sys_thread_schedule` for a context that exists and a valid parameter, by a caller with the maximum
controlled priority `mcp`. -/
def sysThreadSchedule (c : TimeSlices T S) (fuel : Nat) (dst : T) (mcp : Nat) (mode : ScheduleMode S) :
    Option (Except SliceFault (TimeSlices T S)) :=
  if mcp < (c.k.slice (c.k.schedContext dst)).prio then some (pure c)
  else
    match mode with
    | .setTimesharing param =>
      (c.k.setScheduleParam fuel dst mcp param 0).map fun r => pure { c with k := r.2 }
    | .setRealtime param fresh => some (pure (c.setRealtimeParam dst mcp param fresh))
    | .removeRealtime => c.removeRealtimeParam fuel dst
    | .setPeriod => some (pure c)
    | .beginPeriodic clock now => some (c.beginPeriodic dst clock now)
    | .endPeriodic => some (c.endPeriodic dst)
    | .changeRealtime id param =>
      (c.k.setScheduleParam fuel dst mcp param id).map fun r => pure { c with k := r.2 }

/-! ## Messages and the end of threads -/

/-- `wake_receiver` for the receiver `r`; `receiving` if the sender has a receive phase. The receiver's
own deadline is never looked at: the condition for it compares two constants. -/
def wakeReceiver (c : TimeSlices T S) (r : T) (receiving : Bool) : Except SliceFault (TimeSlices T S) :=
  let this := c.k.current
  let wake (c : TimeSlices T S) : TimeSlices T S :=
    { c with k := { c.k with ready := Function.update c.k.ready r true } }
  if !c.delayedIpc this && !c.delayedIpc r then pure (wake c)
  else do
    let c ←
      if !receiving && !c.delayedDeadline this && c.delayedIpc this then
        let c :=
          { c with
            delayedIpc := Function.update c.delayedIpc this false
            deadline := Function.update c.deadline this true }
        c.switchSched this (c.firstRealtime this)
      else pure c
    pure (wake { c with delayedIpc := Function.update c.delayedIpc r false })

/-- What `kill` does to the time slices of a thread, with `timeout` left on the timer. -/
def kill (c : TimeSlices T S) (t : T) (timeout : Int) : Except SliceFault (TimeSlices T S) := do
  let c ← c.leavePeriodic t
  match c.k.currentSched with
  | none => throw .nullSched
  | some s =>
    if (c.k.slice s).owner = t then
      pure { c with k := c.k.setCurrentSched timeout (c.k.sched c.k.current) }
    else pure c

/-! ## Runs -/

/-- The rest of the kernel: it changes the state bits of contexts. -/
def setState (c : TimeSlices T S) (ready delayedDeadline delayedIpc : T → Bool) : TimeSlices T S :=
  { c with k := { c.k with ready := ready }, delayedDeadline := delayedDeadline, delayedIpc := delayedIpc }

/-- The calls and interrupts with their answers. -/
inductive Event (T S : Type) where
  | threadSwitch (dst : SwitchDst T)
  | threadSchedule (dst : T) (mcp : Nat) (mode : ScheduleMode S)
  | wakeReceiver (r : T) (receiving : Bool)
  | kill (t : T) (timeout : Int)
  /-- `switch_to_locked` or `switch_exec_locked` called by another part of the kernel. -/
  | switchTo (t : T) (timeout : Int) (run : Option T)
  | switchExec (run : Option T)
  /-- A round of the loop of `schedule`. -/
  | scheduleRound (timeout : Int) (run : Option T)
  | timesliceExpired
  | deadlineExpired (t : T)
  | readyEnqueue (t : T)
  | readyDequeue (t : T)
  | setState (ready delayedDeadline delayedIpc : T → Bool)

namespace Event

/-- Interrupts come at any time, and the rest happens outside of `schedule`. A scheduling context that the
slab hands out is not in use. -/
def Enabled (c : TimeSlices T S) : Event T S → Prop
  | .threadSchedule _ _ (.setRealtime _ fresh) => c.inSchedule = false ∧ c.used fresh = false
  | .threadSwitch _ | .threadSchedule .. | .wakeReceiver .. | .kill .. | .switchTo .. | .switchExec _ =>
    c.inSchedule = false
  | .scheduleRound .. => c.inSchedule = true
  | .deadlineExpired t => c.deadline t = true
  | .timesliceExpired | .readyEnqueue _ | .readyDequeue _ | .setState .. => True

end Event

/-- There is no result if `schedule` finds no context at all, or if the fuel is used up. -/
def step (c : TimeSlices T S) (fuel : Nat) : Event T S → Option (Except SliceFault (TimeSlices T S))
  | .threadSwitch dst => some (c.sysThreadSwitch dst)
  | .threadSchedule dst mcp mode => c.sysThreadSchedule fuel dst mcp mode
  | .wakeReceiver r receiving => some (c.wakeReceiver r receiving)
  | .kill t timeout => some (c.kill t timeout)
  | .switchTo t timeout run => some (pure { c with k := c.k.switchToLocked timeout t run })
  | .switchExec run => some (pure { c with k := c.k.switchExecLocked run })
  | .scheduleRound timeout run =>
    match c.k.scheduleRound with
    | none => none
    | some (.inl t) => some (pure { c with k := c.k.switchToLocked timeout t run, inSchedule := false })
    | some (.inr k) => some (pure { c with k := k })
  | .timesliceExpired => some c.timesliceExpired
  | .deadlineExpired t => some (c.deadlineExpired t)
  | .readyEnqueue t => some (pure { c with k := c.k.readyEnqueue t })
  | .readyDequeue t => some (pure { c with k := c.k.readyDequeue t })
  | .setState ready delayedDeadline delayedIpc =>
    some (pure (c.setState ready delayedDeadline delayedIpc))

end TimeSlices

end L4env.Fiasco
