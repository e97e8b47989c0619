import L4env.Util.Links
import L4env.Util.Returns

/-!
# Timeout queue of the event server

An event that has been sent to the tasks of one priority waits in a queue for its time to be sent to the
next lower priority. Its field `timeout` is the number of ticks from the timeout of the event before it to
its own (`events/server/src/timeout_queue.h`, `server_handle_timeout`).

Events are pointers of the type `α`. There is no result where an assertion fails or a null pointer is
written through. The loops take at most `fuel` rounds. The timeouts stay between -1 and `TIMEOUT_TICKS`, so
they are integers here.
-/

namespace L4env.Events

/-- `TIMEOUT_TICKS` -/
def timeoutTicks : Int := 3

/-- `timeout_first_event`, `timeout_last_event`, and the fields of the events. -/
structure TimeoutQueue (α : Type) where
  first : Option α
  last : Option α
  prev : α → Option α
  next : α → Option α
  timeout : α → Int

namespace TimeoutQueue

variable {α : Type} [DecidableEq α]

/-- The queue at the start of the server. An event is created with a timeout of -1 and null pointers. -/
def empty : TimeoutQueue α where
  first := none
  last := none
  prev _ := none
  next _ := none
  timeout _ := -1

def setTimeout (q : TimeoutQueue α) (i : α) (t : Int) : TimeoutQueue α :=
  { q with timeout := Function.update q.timeout i t }

/-! ## Removal -/

/-- The event behind `i` takes over the timeout. -/
def passTimeout (q : TimeoutQueue α) (i : α) : TimeoutQueue α :=
  if 0 < q.timeout i then
    match q.next i with
    | some j => q.setTimeout j (q.timeout j + q.timeout i)
    | none => q
  else q

/-- The links around `i`. -/
def unchain (q : TimeoutQueue α) (i : α) : TimeoutQueue α :=
  let q :=
    match q.prev i with
    | some j => { q with next := Function.update q.next j (q.next i) }
    | none => { q with first := q.next i }
  match q.next i with
  | some j => { q with prev := Function.update q.prev j (q.prev i) }
  | none => { q with last := q.prev i }

/-- `unlink_event_from_timeout_queue` -/
def unlink (q : TimeoutQueue α) (i : α) : Option (TimeoutQueue α) :=
  if q.timeout i < 0 then none
  else
    let q := (q.passTimeout i).unchain i
    let q :=
      { q with
        timeout := Function.update q.timeout i (-1)
        prev := Function.update q.prev i none
        next := Function.update q.next i none }
    if q.first.isSome = q.last.isSome then some q else none

/-! ## Insertion -/

/-- `i` is put before `j`. -/
def insertBefore (q : TimeoutQueue α) (i j : α) : TimeoutQueue α :=
  let q := q.setTimeout j (q.timeout j - q.timeout i)
  let q :=
    match q.prev j with
    | none => { q with first := some i }
    | some k => { q with next := Function.update q.next k (some i), prev := Function.update q.prev i (some k) }
  { q with prev := Function.update q.prev j (some i), next := Function.update q.next i (some j) }

/-- The loop of `link_event_to_timeout_queue` from the event `j` on, and whether it has inserted `i`. -/
def linkLoop (i : α) : Nat → TimeoutQueue α → Option α → Option (TimeoutQueue α × Bool)
  | 0, _, _ => none
  | _ + 1, q, none => some (q, false)
  | fuel + 1, q, some j =>
    if q.timeout i < q.timeout j then some (q.insertBefore i j, true)
    else linkLoop i fuel (q.setTimeout i (q.timeout i - q.timeout j)) (q.next j)

def append (q : TimeoutQueue α) (i : α) : Option (TimeoutQueue α) :=
  match q.first, q.last with
  | none, _ => some { q with first := some i, last := some i }
  | some _, some j => some
    { q with
      next := Function.update q.next j (some i)
      prev := Function.update q.prev i (some j)
      last := some i }
  | some _, none => none

/-- `link_event_to_timeout_queue` -/
def link (fuel : Nat) (q : TimeoutQueue α) (i : α) : Option (TimeoutQueue α) := do
  let q ← (if 0 ≤ q.timeout i then q.unlink i else some q)
  let q := q.setTimeout i timeoutTicks
  let (q, insert) ← linkLoop i fuel q q.first
  if insert then some q else q.append i

end TimeoutQueue

/-! ## Ticks -/

/-- What the server does with the queue besides the ticks: `send_event_to_lower_priority` links an event,
and `delete_event` unlinks one that is linked. -/
inductive TimeoutCall (α : Type) where
  | link (i : α)
  | unlink (i : α)

/-- What became of the linking of an event. -/
inductive Fate where
  | pending
  /-- the event was unlinked or linked again -/
  | cancelled
  /-- the event was processed in this tick -/
  | processed (tick : Nat)
  deriving DecidableEq

/-- A linking of an event, and the number of ticks before it. -/
structure Linking (α : Type) where
  event : α
  tick : Nat
  fate : Fate

/-- The queue and what has happened to it: the number of ticks that have begun, all linkings in their
order, and the events that were processed with the tick. -/
structure TimeoutRun (α : Type) where
  queue : TimeoutQueue α
  ticks : Nat
  linkings : List (Linking α)
  processed : List (α × Nat)

/-- The processing of an event in a tick: the calls that the server makes in this state. -/
def Processing (α : Type) : Type := TimeoutRun α → α → List (TimeoutCall α)

namespace TimeoutRun

variable {α : Type} [DecidableEq α]

def init : TimeoutRun α := { queue := .empty, ticks := 0, linkings := [], processed := [] }

/-- The pending linking of the event `i` ends. -/
def settle (fate : Fate) (i : α) (e : Linking α) : Linking α :=
  if e.event = i ∧ e.fate = .pending then { e with fate } else e

def call (fuel : Nat) (s : TimeoutRun α) : TimeoutCall α → Option (TimeoutRun α)
  | .link i => do
    let queue ← s.queue.link fuel i
    let linkings := s.linkings.map (settle .cancelled i) ++ [{ event := i, tick := s.ticks, fate := .pending }]
    some { s with queue, linkings }
  | .unlink i =>
    if 0 ≤ s.queue.timeout i then do
      let queue ← s.queue.unlink i
      some { s with queue, linkings := s.linkings.map (settle .cancelled i) }
    else some s

/-- A round of the loop of `server_handle_timeout` for the first event of the queue. -/
def expire (f : Processing α) (fuel : Nat) (s : TimeoutRun α) (i : α) : Option (TimeoutRun α) := do
  let queue ← s.queue.unlink i
  let s :=
    { s with
      queue
      linkings := s.linkings.map (settle (.processed s.ticks) i)
      processed := s.processed ++ [(i, s.ticks)] }
  (f s i).foldlM (call fuel) s

/-- The loop of `server_handle_timeout` -/
def expireLoop (f : Processing α) : Nat → TimeoutRun α → Option (TimeoutRun α)
  | 0, _ => none
  | fuel + 1, s =>
    match s.queue.first with
    | none => some s
    | some i =>
      if s.queue.timeout i = 0 then do
        let s ← s.expire f fuel i
        expireLoop f fuel s
      else some s

/-- `server_handle_timeout` -/
def handleTimeout (f : Processing α) (fuel : Nat) (s : TimeoutRun α) : Option (TimeoutRun α) :=
  let s := { s with ticks := s.ticks + 1 }
  match s.queue.first with
  | none => some s
  | some i => expireLoop f fuel { s with queue := s.queue.setTimeout i (s.queue.timeout i - 1) }

inductive Event (α : Type) where
  | call (a : TimeoutCall α)
  | tick (f : Processing α)

def step (fuel : Nat) (s : TimeoutRun α) : Event α → Option (TimeoutRun α)
  | .call a => s.call fuel a
  | .tick f => s.handleTimeout f fuel

/-- The states of the queue. -/
inductive Reachable : TimeoutRun α → Prop
  | init : Reachable init
  | step {s s' : TimeoutRun α} {a : Event α} (h : Reachable s) (hrun : Returns (fun n => s.step n a) s') :
      Reachable s'

end TimeoutRun

end L4env.Events
