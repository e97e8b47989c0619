import L4env.Util.Ring

/-!
# Timeout queue of the Fiasco kernel

The timeouts of a processor are kept in eight queues by the time they wake up. A queue is the part
of one ring between its root node and the root node of the next queue (`timeout.cpp`).

Timeouts are pointers of the type `α`. An uninitialized link is `none`. There is no result where an
assertion fails. The loops take at most `fuel` rounds. What only serves to program a one shot timer
(`_current`) is left out.
-/

namespace L4env.Fiasco

/-- A node of the ring: the root node of a queue, or a timeout. -/
inductive TimeoutNode (α : Type) where
  | root (queue : Fin 8)
  | timer (t : α)
  deriving DecidableEq

structure TimeoutQ (α : Type) where
  next : TimeoutNode α → Option (TimeoutNode α)
  prev : TimeoutNode α → Option (TimeoutNode α)
  /-- `_wakeup` of a timeout; that of a root node is 0 -/
  wakeup : α → Nat
  isSet : α → Bool
  hasHit : α → Bool
  oldClock : Nat

/-- What a handler does to a timeout of the queue. -/
inductive TimeoutCall (α : Type) where
  | set (t : α) (clock : Nat)
  | setAgain (t : α)
  | reset (t : α)

instance neZeroQueues : NeZero 8 := ⟨by decide⟩

/-- The `expired` functions of all timeouts: the calls the handler of a timeout makes in a state, and
whether it asks for a reschedule. -/
def Expired (α : Type) : Type := TimeoutQ α → α → List (TimeoutCall α) × Bool

namespace TimeoutQ

variable {α : Type} [DecidableEq α]

open TimeoutNode

def wakeupQueueDistance : Nat := 12

/-- `index & (Wakeup_queue_count - 1)` -/
def maskQueue (index : Int) : Fin 8 := Fin.ofNat 8 (index % 8).toNat

/-- The queue of a wakeup time. -/
def queueOf (wakeup : Nat) : Fin 8 := maskQueue (wakeup >>> wakeupQueueDistance : Nat)

def wakeupOf (q : TimeoutQ α) : TimeoutNode α → Nat
  | root _ => 0
  | timer t => q.wakeup t

/-! ## Calls on a timeout -/

/-- The loop of `enqueue`: the node behind which a timeout is linked that wakes up at `wakeup`. -/
def findPlace (q : TimeoutQ α) (stop : TimeoutNode α) (wakeup : Nat) :
    Nat → TimeoutNode α → Option (TimeoutNode α)
  | 0, _ => none
  | fuel + 1, tmp => do
    let x ← q.next tmp
    if x ≠ stop ∧ q.wakeupOf x < wakeup then q.findPlace stop wakeup fuel x else some tmp

def linkBehind (q : TimeoutQ α) (t : α) (tmp : TimeoutNode α) : TimeoutQ α :=
  { q with
    next := Function.update (Function.update q.next (timer t) (q.next tmp)) tmp (some (timer t))
    prev := writeAt (Function.update q.prev (timer t) (some tmp)) (q.next tmp) (some (timer t)) }

def enqueue (q : TimeoutQ α) (fuel : Nat) (t : α) : Option (TimeoutQ α) := do
  let queue := queueOf (q.wakeup t)
  let q := { q with isSet := Function.update q.isSet t true }
  let tmp ← q.findPlace (root (queue + 1)) (q.wakeup t) fuel (root queue)
  some (q.linkBehind t tmp)

def set (q : TimeoutQ α) (fuel : Nat) (t : α) (clock : Nat) : Option (TimeoutQ α) :=
  if q.isSet t then none
  else { q with wakeup := Function.update q.wakeup t clock }.enqueue fuel t

def setAgain (q : TimeoutQ α) (fuel : Nat) (t : α) : Option (TimeoutQ α) :=
  if q.isSet t then none
  else if q.hasHit t then some q
  else q.enqueue fuel t

def unlink (q : TimeoutQ α) (t : α) : TimeoutQ α :=
  { q with
    prev := writeAt q.prev (q.next (timer t)) (q.prev (timer t))
    next := writeAt q.next (q.prev (timer t)) (q.next (timer t))
    isSet := Function.update q.isSet t false }

def reset (q : TimeoutQ α) (t : α) : TimeoutQ α := if q.isSet t then q.unlink t else q

/-- `dequeue` up to the call of `expired`. -/
def dequeue (q : TimeoutQ α) (t : α) : TimeoutQ α :=
  { q.unlink t with hasHit := Function.update q.hasHit t true }

def call (fuel : Nat) (q : TimeoutQ α) : TimeoutCall α → Option (TimeoutQ α)
  | .set t clock => q.set fuel t clock
  | .setAgain t => q.setAgain fuel t
  | .reset t => some (q.reset t)

/-! ## Timer interrupt -/

/-- The progress of `do_timeouts`: the state, the flag it returns, and the timeouts whose `expired`
was called, each with the state it was found in. -/
structure Scan (α : Type) where
  queue : TimeoutQ α
  reschedule : Bool
  calls : List (α × TimeoutQ α)

/-- A timeout that is due is dequeued, and its handler runs. -/
def expire (h : Expired α) (fuel : Nat) (r : Scan α) (t : α) : Option (Scan α) := do
  let q := r.queue.dequeue t
  let q' ← (h q t).1.foldlM (call fuel) q
  some { queue := q', reschedule := r.reschedule || (h q t).2, calls := r.calls ++ [(t, r.queue)] }

/-- The inner loop of `do_timeouts`, from the node `x` on. A root node other than the end of the queue
ends the scan, since its wakeup time is 0. -/
def scanQueue (h : Expired α) (clock : Nat) (stop : TimeoutNode α) :
    Nat → Scan α → TimeoutNode α → Option (Scan α)
  | 0, _, _ => none
  | fuel + 1, r, x =>
    if x = stop then some r
    else
      match x with
      | root _ => some r
      | timer t =>
        if r.queue.wakeup t = 0 ∨ clock < r.queue.wakeup t then some r
        else do
          let tmp ← r.queue.next (timer t)
          let r ← expire h fuel r t
          scanQueue h clock stop fuel r tmp

/-- The outer loop of `do_timeouts`, from the queue `start` to the one before `stop`. -/
def scanQueues (h : Expired α) (clock : Nat) (stop : Fin 8) : Nat → Scan α → Fin 8 → Option (Scan α)
  | 0, _, _ => none
  | fuel + 1, r, start => do
    let x ← r.queue.next (root start)
    let r ← scanQueue h clock (root (start + 1)) fuel r x
    if start + 1 = stop then some r else scanQueues h clock stop fuel r (start + 1)

/-- The value of an `int`. -/
def toInt (i : Int) : Int := i.bmod (2 ^ 32)

/-- The first queue `do_timeouts` scans and the one it stops at. -/
def scanRange (oldClock clock : Nat) : Fin 8 × Fin 8 :=
  let start := toInt (oldClock >>> wakeupQueueDistance : Nat)
  let diff := toInt ((clock >>> wakeupQueueDistance : Nat) - start)
  if 8 ≤ diff then (0, 0) else (maskQueue start, maskQueue (start + diff + 1))

def doTimeouts (q : TimeoutQ α) (fuel : Nat) (h : Expired α) (clock : Nat) : Option (Scan α) :=
  let range := scanRange q.oldClock clock
  scanQueues h clock range.2 fuel ⟨{ q with oldClock := clock }, false, []⟩ range.1

end TimeoutQ

end L4env.Fiasco
