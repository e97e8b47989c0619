import L4env.Util.Ring

/-!
# Scheduler of the Fiasco kernel

A context runs on the time of its active scheduling context, one of the ring of scheduling contexts
it owns. The contexts that want the processor are linked in one ring for each priority
(`context.cpp`, `sched_context.cpp`, `syscalls.cpp`). Where a context is linked is found by the
priority of its active scheduling context.

The model has one processor. Contexts and scheduling contexts are pointers of the types `T` and `S`.
A null pointer is `none`; no field is written through one in a consistent state.
-/

namespace L4env.Fiasco

structure SchedContext (T S : Type) where
  owner : T
  id : Nat
  prio : Nat
  quantum : Nat
  left : Nat
  prev : S
  next : S

structure Sched (T S : Type) where
  current : T
  /-- `_ready_next`; a context is in the ready list if it is set. -/
  readyNext : T → Option T
  readyPrev : T → Option T
  /-- `state() & Thread_ready` -/
  ready : T → Bool
  /-- `_sched_context`, the scheduling context that is part of the context itself -/
  schedContext : T → S
  /-- `_sched`, the active scheduling context -/
  sched : T → S
  slice : S → SchedContext T S
  prioNext : Nat → Option T
  prioHighest : Nat
  /-- `_current_sched`, the global time slice -/
  currentSched : Option S

namespace Sched

variable {T S : Type} [DecidableEq T] [DecidableEq S]

/-- The priority under which a context is linked. -/
def prio (k : Sched T S) (t : T) : Nat := (k.slice (k.sched t)).prio

def inReadyList (k : Sched T S) (t : T) : Bool := (k.readyNext t).isSome

/-! ## The ready list -/

/-- `while (!prio_next[prio_highest] && prio_highest) prio_highest--` -/
def lowerHighest (prioNext : Nat → Option T) : Nat → Nat
  | 0 => 0
  | p + 1 => if (prioNext (p + 1)).isSome then p + 1 else lowerHighest prioNext p

def readyEnqueue (k : Sched T S) (t : T) : Sched T S :=
  if k.inReadyList t then k
  else if k.ready t = false ∨ (k.slice (k.sched t)).left = 0 then k
  else
    let prio := k.prio t
    let highest := max k.prioHighest prio
    match k.prioNext prio with
    | none =>
      { k with
        prioHighest := highest
        prioNext := Function.update k.prioNext prio (some t)
        readyNext := Function.update k.readyNext t (some t)
        readyPrev := Function.update k.readyPrev t (some t) }
    | some h =>
      { k with
        prioHighest := highest
        readyNext := writeAt (Function.update k.readyNext t (some h)) (k.readyPrev h) (some t)
        readyPrev := Function.update (Function.update k.readyPrev t (k.readyPrev h)) h (some t)
        -- the running context is the next one of its priority
        prioNext := if t = k.current then Function.update k.prioNext prio (some t) else k.prioNext }

def readyDequeue (k : Sched T S) (t : T) : Sched T S :=
  if k.inReadyList t then
    let prio := k.prio t
    let next := k.readyNext t
    let prev := k.readyPrev t
    let prioNext :=
      if k.prioNext prio = some t then
        Function.update k.prioNext prio (if next = some t then none else next)
      else k.prioNext
    { k with
      prioNext := prioNext
      readyNext := Function.update (writeAt k.readyNext prev next) t none
      readyPrev := writeAt k.readyPrev next prev
      prioHighest := lowerHighest prioNext k.prioHighest }
  else k

/-! ## Scheduling contexts -/

def setSlice (k : Sched T S) (s : S) (c : SchedContext T S) : Sched T S :=
  { k with slice := Function.update k.slice s c }

def setLeft (k : Sched T S) (s : S) (left : Nat) : Sched T S :=
  k.setSlice s { k.slice s with left := left }

def setSched (k : Sched T S) (t : T) (s : S) : Sched T S :=
  { k with sched := Function.update k.sched t s }

def invalidateSched (k : Sched T S) : Sched T S := { k with currentSched := none }

/-- `switch_sched` up to its assertion: the global time slice is left and the old one refilled. -/
def leaveSched (k : Sched T S) (t : T) : Sched T S :=
  let k := if k.currentSched = some (k.sched t) then k.invalidateSched else k
  k.setLeft (k.sched t) (k.slice (k.sched t)).quantum

/-- The assertion in `switch_sched` that the new time slice has a full quantum. -/
def switchSchedAssertion (k : Sched T S) (t : T) (next : S) : Prop :=
  ((k.leaveSched t).slice next).left = ((k.leaveSched t).slice next).quantum

def switchSched (k : Sched T S) (t : T) (next : S) : Sched T S :=
  let k := k.leaveSched t
  let prio := (k.slice next).prio
  if !k.inReadyList t then (k.setSched t next).readyEnqueue t
  else if k.prio t ≠ prio ∨ k.prioNext prio ≠ some t then
    ((k.readyDequeue t).setSched t next).readyEnqueue t
  else if prio ≠ 0 then
    { k.setSched t next with prioNext := Function.update k.prioNext prio (k.readyNext t) }
  else k

/-- The loop of `sched_context`, in at most `fuel` rounds, from `s` to the end `stop` of the ring. -/
def findSlice (k : Sched T S) (stop : S) (id : Nat) : Nat → S → Option (Option S)
  | 0, _ => none
  | fuel + 1, s =>
    if s = stop then some none
    else if (k.slice s).id = id then some (some s)
    else k.findSlice stop id fuel (k.slice s).next

/-- `sched_context (id)` -/
def schedContextById (k : Sched T S) (fuel : Nat) (t : T) (id : Nat) : Option (Option S) :=
  if id = 0 then some (some (k.schedContext t))
  else k.findSlice (k.schedContext t) id fuel (k.slice (k.schedContext t)).next

/-! ## System calls -/

/-- `Config::scheduler_granularity` -/
def schedulerGranularity : Nat := 1000

def roundQuantum (quantum : Nat) : Nat :=
  quantum + schedulerGranularity - 1 - (quantum + schedulerGranularity - 1) % schedulerGranularity

/-- The priority and the time of an `L4_sched_param`. A time of -1 is `none`. -/
structure SchedParam where
  prio : Nat
  time : Option Nat

/-- `set_schedule_param` for a caller with the maximum controlled priority `mcp`. The flag is false
where the code returns an error. -/
def setScheduleParam (k : Sched T S) (fuel : Nat) (t : T) (mcp : Nat) (param : SchedParam)
    (id : Nat) : Option (Bool × Sched T S) :=
  if mcp < param.prio then some (false, k)
  else
    match k.schedContextById fuel t id with
    | none => none
    | some none => some (false, k)
    | some (some s) =>
      let k :=
        if (k.slice s).prio ≠ param.prio then
          let k := if s = k.sched t then k.readyDequeue t else k
          k.setSlice s { k.slice s with prio := param.prio }
        else k
      match param.time with
      | none => some (true, k)
      | some time =>
        let q := roundQuantum time
        let k := k.setSlice s { k.slice s with quantum := q }
        some (true, if s ≠ k.sched t then k.setLeft s q else k)

/-! ## Selection of a context -/

/-- `update_ready_list` -/
def updateReadyList (k : Sched T S) : Sched T S :=
  if k.ready k.current then k.readyEnqueue k.current else k

/-- A round of the loop in `schedule`: a context that is ready is selected, another one is taken out
of the list. There is no result if the assertion fails that there is a context at all. -/
def scheduleRound (k : Sched T S) : Option (T ⊕ Sched T S) :=
  match k.prioNext k.prioHighest with
  | none => none
  | some t => if k.ready t then some (.inl t) else some (.inr (k.readyDequeue t))

end Sched

end L4env.Fiasco
