import L4env.Util.Links
import L4env.Util.Returns

/-!
# Event signalling of DSI

A component has one event thread, which counts the events of its sockets and notifies the clients
that wait for them (`lib/src/event.c`). A client that has to wait is described by an element of the
static array `clients`, linked into the list of its socket. An element is free if its event mask is
empty. A pointer to an element is its index; NULL is `none`.

The functions with a loop over a client list take a bound on the number of its rounds and have no
result if it is not enough. Each wakeup that is sent is recorded with the socket and the mask the
client waits for, which are not part of the message.
-/

namespace L4env.Dsi

def maxEvents : Nat := 30

def maxSockets : Nat := 64

def maxClients : Nat := maxEvents * maxSockets

/-- A bit field of events. -/
abbrev EventMask := BitVec 32

/-- `EVENT_MASK` -/
def eventMask : EventMask := 0x3fffffff

def eventSet : BitVec 32 := 0x00000000

def eventReset : BitVec 32 := 0x40000000

def eventWait : BitVec 32 := 0x80000000

inductive Error where
  | einval
  | eipc
  | ebusy
  | eperm
  deriving DecidableEq

structure Socket where
  /-- `flags != DSI_SOCKET_UNUSED` -/
  used : Bool
  /-- the event counters, 32-bit unsigned integers -/
  events : Nat → Nat
  waiting : EventMask
  clients : Option Nat

structure EventServer (T : Type) where
  socket : Nat → Socket
  /-- the fields of `clients[i]` -/
  id : Nat → T
  events : Nat → EventMask
  next : Nat → Option Nat

/-- A notification: the client, the mask it waits for at the socket, and the events it is sent. -/
structure Wakeup (T : Type) where
  socket : Nat
  client : T
  events : EventMask
  sent : EventMask

/-- The answer to a request: an error code or 0, no answer yet, or a panic. -/
inductive Reply where
  | code (error : Option Error)
  | none
  | panic
  deriving DecidableEq

/-- What the work on a request leads to. -/
structure Result (T : Type) where
  reply : Reply
  wakeups : List (Wakeup T)
  server : EventServer T

/-- A request: the sender, whether it is a thread of the component, and the message. -/
structure Request (T : Type) where
  src : T
  own : Bool
  dw0 : BitVec 32
  dw1 : Nat

namespace EventServer

variable {T : Type}

def setSocket (s : EventServer T) (id : Nat) (socket : Socket) : EventServer T :=
  { s with socket := Function.update s.socket id socket }

/-- `dsi_socket_get_descriptor` -/
def validSocket (s : EventServer T) (id : Nat) : Bool :=
  decide (id < maxSockets) && (s.socket id).used

/-- The event `i` is in the mask. -/
def hasEvent (events : EventMask) (i : Nat) : Bool := decide (i < maxEvents) && events.getLsbD i

/-! ## Set -/

/-- The client `c` is released and taken out of the client list, where it follows `tmp`. -/
def removeClient (s : EventServer T) (id : Nat) (tmp : Option Nat) (c : Nat) : EventServer T :=
  let s := s.setSocket id
    { s.socket id with waiting := (s.socket id).waiting &&& ~~~ s.events c }
  let s := { s with events := Function.update s.events c 0 }
  match tmp with
  | none => s.setSocket id { s.socket id with clients := s.next c }
  | some t => { s with next := Function.update s.next t (s.next c) }

/-- The loop of `__set_event` over the client list: `c` is the client it has come to and `tmp` the
last one that stays in the list. A send fails with an error other than a timeout where `fails`. -/
def wakeLoop (fails : T → EventMask → Bool) (id : Nat) (events : EventMask) :
    Nat → Option Nat → Option Nat → Option Error → List (Wakeup T) → EventServer T →
    Option (Option Error × List (Wakeup T) × EventServer T)
  | 0, _, _, _, _, _ => none
  | _ + 1, _, none, error, wakeups, s => some (error, wakeups, s)
  | fuel + 1, tmp, some c, error, wakeups, s =>
    if s.events c &&& events ≠ 0 then
      let error := if fails (s.id c) (s.events c &&& events) then some .eipc else error
      let wakeups := wakeups ++ [⟨id, s.id c, s.events c, s.events c &&& events⟩]
      let s := s.removeClient id tmp c
      wakeLoop fails id events fuel tmp (s.next c) error wakeups s
    else wakeLoop fails id events fuel (some c) (s.next c) error wakeups s

/-- The counters of the events are incremented. -/
def countEvents (s : EventServer T) (id : Nat) (events : EventMask) : EventServer T :=
  let old := (s.socket id).events
  s.setSocket id { s.socket id with
    events := fun i => if hasEvent events i then (old i + 1) % 2 ^ 32 else old i }

/-- `__set_event` -/
def setEvent (s : EventServer T) (fails : T → EventMask → Bool) (fuel id : Nat)
    (events : EventMask) : Option (Result T) :=
  if s.validSocket id then
    let s := s.countEvents id events
    if (s.socket id).waiting &&& events ≠ 0 then
      (wakeLoop fails id events fuel none (s.socket id).clients none [] s).map
        fun (error, wakeups, s) => ⟨.code error, wakeups, s⟩
    else some ⟨.code none, [], s⟩
  else some ⟨.code (some .einval), [], s⟩

/-! ## Reset -/

/-- `__reset_event` -/
def resetEvent (s : EventServer T) (id : Nat) (events : EventMask) : Result T :=
  if s.validSocket id then
    let old := (s.socket id).events
    let count := fun i => if hasEvent events i && decide (0 < old i) then old i - 1 else old i
    let unset := (List.range maxEvents).any fun i => hasEvent events i && decide (old i = 0)
    ⟨.code (if unset then some .einval else none), [],
      s.setSocket id { s.socket id with events := count }⟩
  else ⟨.code (some .einval), [], s⟩

/-! ## Wait -/

/-- The events of the mask that are set. -/
def setEvents (events : EventMask) (count : Nat → Nat) : EventMask :=
  (List.range maxEvents).foldl
    (fun mask i => if events.getLsbD i && decide (0 < count i) then mask ||| (1 <<< i) else mask) 0

/-- The first free element from `i` on, in `fuel` rounds. -/
def findClient (s : EventServer T) : Nat → Nat → Option Nat
  | 0, _ => none
  | fuel + 1, i => if s.events i = 0 then some i else s.findClient fuel (i + 1)

/-- The element `i` is set up for the client. -/
def setupClient (s : EventServer T) (i : Nat) (client : T) (events : EventMask) : EventServer T :=
  { s with
    id := Function.update s.id i client
    events := Function.update s.events i events
    next := Function.update s.next i none }

/-- The client list of the socket with the element `i` at its end. -/
def enqueueClient (s : EventServer T) (fuel id i : Nat) : Option (EventServer T) :=
  match (s.socket id).clients with
  | none => some (s.setSocket id { s.socket id with clients := some i })
  | some c =>
    (walkWhile s.next (fun _ => true) fuel c).map
      fun c => { s with next := Function.update s.next c (some i) }

def markWaiting (s : EventServer T) (id : Nat) (events : EventMask) : EventServer T :=
  s.setSocket id { s.socket id with waiting := (s.socket id).waiting ||| events }

/-- `__wait_for_events` -/
def waitForEvents (s : EventServer T) (fuel : Nat) (client : T) (id : Nat) (events : EventMask) :
    Option (Result T) :=
  if s.validSocket id then
    if (s.socket id).waiting &&& events ≠ 0 then some ⟨.code (some .ebusy), [], s⟩
    else
      let mask := setEvents events (s.socket id).events
      if mask ≠ 0 then some ⟨.none, [⟨id, client, events, mask⟩], s⟩
      else
        match s.findClient maxClients 0 with
        | none => some ⟨.panic, [], s⟩
        | some i =>
          ((s.setupClient i client events).enqueueClient fuel id i).map fun s =>
            ⟨.none, [], s.markWaiting id events⟩
  else some ⟨.code (some .einval), [], s⟩

/-! ## Requests -/

/-- The work of the event thread on a request. -/
def exec (s : EventServer T) (fails : T → EventMask → Bool) (fuel : Nat) (r : Request T) :
    Option (Result T) :=
  let cmd := r.dw0 &&& ~~~ eventMask
  let events := r.dw0 &&& eventMask
  if cmd = eventSet then
    if r.own then s.setEvent fails fuel r.dw1 events else some ⟨.code (some .eperm), [], s⟩
  else if cmd = eventReset then some (s.resetEvent r.dw1 events)
  else if cmd = eventWait then s.waitForEvents fuel r.src r.dw1 events
  else some ⟨.code (some .einval), [], s⟩

end EventServer

end L4env.Dsi
