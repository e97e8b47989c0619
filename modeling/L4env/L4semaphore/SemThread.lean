import L4env.L4semaphore.WaitQueue

/-!
# L4Env semaphores

`l4semaphore_down` and `l4semaphore_up` change the counter of a semaphore with an atomic instruction
and send a message to the semaphore thread where a thread has to block or to be woken up
(`include/generic.h`, `include/archindep.h`). The semaphore thread alone changes the wait queue and
the number of pending wakeups (`lib/src/semaphore.c`).

The model is the threads `T` of a task around one semaphore, as a step function: an atomic change of
the counter, the delivery of a message, the end of a receive timeout, and the work of the semaphore
thread between two points where another thread can make a difference. The configuration is that of
`semaphore.h`: releases are calls, and IPC is restarted where it is cancelled.
-/

namespace L4env.L4semaphore

/-- Where a thread is. `timed` is set in `l4semaphore_down_timed`. -/
inductive Pc where
  | idle
  /-- the decrement gave a negative counter -/
  | wantBlock (timed : Bool)
  /-- the semaphore thread has received the message to block -/
  | waiting (timed : Bool)
  /-- the receive timeout of the call has hit -/
  | timedOut
  /-- the decrement is undone -/
  | wantReleaseTimed
  /-- the increment gave a counter that is not positive -/
  | wantRelease
  /-- the semaphore thread has received the release message -/
  | waitReply
  deriving DecidableEq

/-- The request the semaphore thread works on. -/
inductive Serving (T : Type) where
  | idle
  | block (t : T)
  | blockTimed (t : T)
  | release (t : T)
  /-- `RELEASE` at the head of its loop over the wait queue -/
  | search
  | releaseTimed (t : T)
  deriving DecidableEq

/-- What happened so far. Nothing in the program reads these numbers. -/
structure Tally where
  /-- the calls of `l4semaphore_up` that have incremented the counter -/
  ups : Nat
  /-- the successful calls of the down functions that are complete -/
  downs : Nat
  /-- the decrements undone after a timeout while the counter was not negative -/
  late : Nat
  /-- the releases whose loop ended without a thread to wake up -/
  dropped : Nat

structure State (T : Type) where
  /-- `sem->counter`, an `int` -/
  counter : Int
  /-- `sem->pending`, an `int` -/
  pending : Int
  wq : WaitQueue T
  /-- the thread data under `datakey`: the entry of a thread that waits with a timeout -/
  mark : T → Option Nat
  pc : T → Pc
  serving : Serving T
  tally : Tally

/-- What a thread, the timer or the semaphore thread does. -/
inductive Act (T : Type) where
  | down (t : T) (timed : Bool)
  | tryDown (t : T)
  | up (t : T)
  | deliver (t : T)
  /-- the semaphore thread goes on; `l4thread_get_prio` gives `prio` -/
  | handle (prio : Int)
  | expire (t : T)
  | giveBack (t : T)

/-- The value of an `int`. -/
def int (i : Int) : Int := i.bmod (2 ^ 32)

namespace State

variable {T : Type} [DecidableEq T]

def setPc (s : State T) (t : T) (pc : Pc) : State T :=
  { s with pc := Function.update s.pc t pc }

def setMark (s : State T) (t : T) (wq : Option Nat) : State T :=
  { s with mark := Function.update s.mark t wq }

/-- A down function returns with the semaphore. -/
def gotSemaphore (s : State T) (t : T) : State T :=
  { s.setPc t .idle with tally := { s.tally with downs := s.tally.downs + 1 } }

/-! ## Threads -/

/-- `l4semaphore_down`, and `l4semaphore_down_timed` with a timeout other than zero, up to the
message. -/
def down (s : State T) (t : T) (timed : Bool) : State T :=
  let tmp := int (s.counter - 1)
  let s := { s with counter := tmp }
  if tmp < 0 then s.setPc t (.wantBlock timed) else s.gotSemaphore t

/-- `l4semaphore_try_down`, and `l4semaphore_down_timed` with a timeout of zero. -/
def tryDown (s : State T) (t : T) : State T :=
  if s.counter ≤ 0 then s else { s with counter := int (s.counter - 1) }.gotSemaphore t

def up (s : State T) (t : T) : State T :=
  let tmp := int (s.counter + 1)
  let s := { s with counter := tmp, tally := { s.tally with ups := s.tally.ups + 1 } }
  if tmp ≤ 0 then s.setPc t .wantRelease else s

/-- The call of `l4semaphore_down_timed` has returned an error, and the decrement is undone. -/
def giveBack (s : State T) (t : T) : State T :=
  let late := if s.counter < 0 then s.tally.late else s.tally.late + 1
  { s.setPc t .wantReleaseTimed with
    counter := int (s.counter + 1)
    tally := { s.tally with late := late } }

/-- The semaphore thread receives the message of `t`. A send without a reply is complete then. -/
def deliver (s : State T) (t : T) : Option (State T) :=
  match s.pc t with
  | .wantBlock false => some { s.setPc t (.waiting false) with serving := .block t }
  | .wantBlock true => some { s.setPc t (.waiting true) with serving := .blockTimed t }
  | .wantRelease => some { s.setPc t .waitReply with serving := .release t }
  | .wantReleaseTimed => some { s.setPc t .idle with serving := .releaseTimed t }
  | _ => none

/-! ## The semaphore thread -/

/-- `__wakeup_thread`: whether the message is received. With `WAKEUP_WAIT` the semaphore thread
cannot go on before the thread waits for it. -/
def wakeupThread (s : State T) (t : T) (nowait : Bool) : Option (Bool × State T) :=
  match s.pc t with
  | .waiting _ => some (true, s.gotSemaphore t)
  | _ => if nowait then some (false, s) else none

/-- `L4SEMAPHORE_BLOCK` -/
def block (s : State T) (src : T) (prio : Int) : Option (State T) :=
  if 0 < s.pending then
    ({ s with pending := s.pending - 1 }.wakeupThread src false).map Prod.snd
  else (s.wq.enqueueThread src prio).map fun (_, wq) => { s with wq := wq }

/-- `L4SEMAPHORE_BLOCKTIMED` -/
def blockTimed (s : State T) (src : T) (prio : Int) : Option (State T) :=
  if 0 < s.pending then
    (s.wakeupThread src true).map fun (received, s) =>
      if received then { s with pending := s.pending - 1 } else s
  else (s.wq.enqueueThread src prio).map fun (wp, wq) => { s with wq := wq }.setMark src (some wp)

/-- `L4SEMAPHORE_RELEASE` up to its loop: the reply, and the test for an empty queue. -/
def release (s : State T) (src : T) : State T :=
  let s := s.setPc src .idle
  if s.wq.queue = none then { s with pending := int (s.pending + 1), serving := .idle }
  else { s with serving := .search }

/-- A round of the loop of `L4SEMAPHORE_RELEASE`. -/
def search (s : State T) : Option (State T) :=
  match s.wq.queue with
  | none =>
    some { s with serving := .idle, tally := { s.tally with dropped := s.tally.dropped + 1 } }
  | some wp =>
    let wakeup := s.wq.thread wp
    let s := { s with wq := s.wq.dequeueHead wp }
    match wakeup with
    | none => some s
    | some t =>
      if (s.mark t).isSome then
        ((s.setMark t none).wakeupThread t true).map fun (received, s) =>
          if received then { s with serving := .idle } else s
      else (s.wakeupThread t false).map fun (_, s) => { s with serving := .idle }

/-- `L4SEMAPHORE_RELEASETIMED` -/
def releaseTimed (s : State T) (src : T) : State T :=
  match s.mark src with
  | none => s
  | some wp => { s with wq := s.wq.removeEntry wp }.setMark src none

def handle (s : State T) (prio : Int) : Option (State T) :=
  match s.serving with
  | .idle => none
  | .block t => { s with serving := .idle }.block t prio
  | .blockTimed t => { s with serving := .idle }.blockTimed t prio
  | .release t => some (s.release t)
  | .search => s.search
  | .releaseTimed t => some ({ s with serving := .idle }.releaseTimed t)

/-- A step, where it is enabled. -/
def exec (s : State T) : Act T → Option (State T)
  | .down t timed => if s.pc t = .idle then some (s.down t timed) else none
  | .tryDown t => if s.pc t = .idle then some (s.tryDown t) else none
  | .up t => if s.pc t = .idle then some (s.up t) else none
  | .deliver t => if s.serving = .idle then s.deliver t else none
  | .handle prio => s.handle prio
  | .expire t => if s.pc t = .waiting true then some (s.setPc t .timedOut) else none
  | .giveBack t => if s.pc t = .timedOut then some (s.giveBack t) else none

/-- A semaphore with the initial counter `n` and no thread at it. -/
def initial (n : Nat) : State T where
  counter := n
  pending := 0
  wq := .empty
  mark _ := none
  pc _ := .idle
  serving := .idle
  tally := ⟨0, 0, 0, 0⟩

end State

end L4env.L4semaphore
