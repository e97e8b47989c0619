import Mathlib.Tactic

/-!
# The interrupt server

`omega0/server`: the requests of the management thread (`server.c`) and of the threads that wait for one
interrupt line each (`irq_threads.c`). After the wakeup of the last client, a thread of an interrupt line
enters what it has done into the client's record only when it gets its next message.
-/

namespace L4env.Omega0

/-- `IRQ_NUMS`. -/
def irqNums : Nat := 18

structure ThreadId where
  task : Nat
  lthread : Nat
deriving DecidableEq

/-- `omega0_irqdesc_t`: 16 bits of a number that starts at 1. -/
structure IrqDesc where
  num : Nat
  lt : num < 2 ^ 16
  shared : Bool

/-- `omega0_request_t`. -/
structure Request where
  param : Nat
  wait : Bool
  consume : Bool
  mask : Bool
  unmask : Bool
  again : Bool

def Request.or (r r' : Request) : Request where
  param := r.param ||| r'.param
  wait := r.wait || r'.wait
  consume := r.consume || r'.consume
  mask := r.mask || r'.mask
  unmask := r.unmask || r'.unmask
  again := r.again || r'.again

/-- `client_chain`. -/
structure Client where
  client : ThreadId
  masked : Bool
  waiting : Bool
  inService : Bool
  lastIrqNum : Nat
  lastRequest : Request

/-- The client that the thread of an interrupt line has woken up with its last IPC, and whether the next
request is kept in the client's record, or that this client has been detached since. -/
inductive Wakeup
  | none
  | client (t : ThreadId) (keep : Bool)
  | freed

/-- `irq_description_t`. `enabled` is the state of the line in the kernel, `leftMasked` counts the clients
that have been detached while they had the line masked. -/
structure Irq where
  available : Bool
  shared : Bool
  masked : Int
  inService : Bool
  clientsWaiting : Int
  clientsRegistered : Int
  clients : List Client
  counter : Nat
  lthread : Nat
  enabled : Bool
  wakeup : Wakeup
  leftMasked : Nat

/-- What the server must not do: look past the table of the interrupts, or at the record of a client that
has been freed. -/
inductive Fault
  | outOfBounds
  | freedClient
deriving DecidableEq

namespace Irq

def setClient (d : Irq) (c : Client) : Irq :=
  { d with clients := d.clients.map fun x => if x.client = c.client then c else x }

/-- `irq_consume`. -/
def irqConsume (d : Irq) : Option Irq :=
  if d.inService then some { d with enabled := true, inService := false } else none

/-- `check_auto_consume`. -/
def checkAutoConsume (d : Irq) (c : Client) : Irq :=
  if c.inService && c.lastIrqNum == d.counter && d.inService then
    let d := { d with clientsWaiting := d.clientsWaiting - 1 }
    if d.clientsWaiting = 0 then d.irqConsume.getD d else d
  else d

/-- `signal_single_user_thread` after the IPC. -/
def signalSingleUserThread (d : Irq) (c : Client) (sent : Bool) : Irq :=
  if sent then
    ({ d with clientsWaiting := d.clientsWaiting + 1 } : Irq).setClient
      { c with inService := true, lastIrqNum := d.counter, waiting := false }
  else d.setClient { c with waiting := false }

/-- The clients of `signal_user_threads`. The thread of the line stays in the IPC to the last one if it
waits. -/
def signalLoop (sent : ThreadId → Bool) : List Client → Irq → Irq
  | [], d => d
  | [c], d =>
    if c.waiting then
      if sent c.client then { d with wakeup := .client c.client false } else d.signalSingleUserThread c false
    else d
  | c :: rest, d =>
    signalLoop sent rest (if c.waiting then d.signalSingleUserThread c (sent c.client) else d)

/-- An interrupt: the kernel has masked the line. -/
def signalUserThreads (d : Irq) (sent : ThreadId → Bool) : Irq :=
  signalLoop sent d.clients { d with
    enabled := false, inService := true, counter := (d.counter + 1) % 2 ^ 32, clientsWaiting := 0 }

/-- The IPC to the last client returns with the next message. -/
def finishWakeup (d : Irq) (next : Request) : Except Fault Irq :=
  match d.wakeup with
  | .none => .ok d
  | .client t keep =>
    match d.clients.find? fun c => c.client = t with
    | some c =>
      let d := { d with wakeup := .none }
      .ok (d.signalSingleUserThread { c with lastRequest := if keep then next else c.lastRequest } true)
    | none => .error .freedClient
  | .freed => .error .freedClient

/-- What `handle_user_request` works on. -/
structure Work where
  d : Irq
  c : Client
  req : Request

/-- A stage of `handle_user_request`; an error comes with what has been done up to there. -/
abbrev Stage := Work → Except (Int × Work) Work

def again (w : Work) : Work :=
  if w.req.again then { w with req := { w.req with again := false }.or w.c.lastRequest } else w

def unmask (irq : Nat) : Stage := fun w =>
  if w.req.unmask then
    if w.req.param ≠ irq + 1 then .error (-1, w)
    else if !w.c.masked then .error (-2, w)
    else
      let d := { w.d with masked := w.d.masked - 1 }
      .ok {
        d := if d.masked = 0 then { d with enabled := true } else d
        c := { w.c with masked := false }
        req := { w.req with unmask := false } }
  else .ok w

def consume : Stage := fun w =>
  if w.req.consume then
    if !w.c.inService then .error (-3, w)
    else match w.d.irqConsume with
      | none => .error (-4, w)
      | some d => .ok { d, c := { w.c with inService := false }, req := { w.req with consume := false } }
  else .ok w

def mask (irq : Nat) : Stage := fun w =>
  if w.req.mask then
    if w.req.param ≠ irq + 1 then .error (-5, w)
    else if w.c.masked then .error (-6, w)
    else .ok {
      d := { w.d with masked := w.d.masked + 1 }
      c := { w.c with masked := true }
      req := { w.req with mask := false } }
  else .ok w

/-- The end of `handle_user_request`. -/
def Work.back (w : Work) : Irq := w.d.setClient { w.c with lastRequest := w.req }

/-- The client waits for the next interrupt, or is woken up for the one it has missed. -/
def wait (w : Work) (sent : Bool) : Irq :=
  let d := w.d.checkAutoConsume w.c
  let c := { w.c with inService := false, waiting := true }
  if d.inService && d.counter != c.lastIrqNum then
    if sent then { d.setClient c with wakeup := .client c.client true }
    else d.setClient { c with waiting := false, lastRequest := w.req }
  else Work.back { d, c, req := { w.req with wait := false } }

/-- What `handle_user_request` returns. -/
inductive Ret
  | wait
  | reply
  | error (n : Int)

/-- `handle_user_request`. -/
def handleUserRequest (d : Irq) (irq : Nat) (sender : ThreadId) (req : Request) (sent : Bool) : Ret × Irq :=
  match d.clients.find? fun c => c.client = sender with
  | none => (.wait, d)
  | some c =>
    match (do consume (← unmask irq (again { d, c, req }))) >>= mask irq with
    | .error (n, w) => (.error n, w.back)
    | .ok w => if w.req.wait then (.wait, wait w sent) else (.reply, w.back)

/-- `detach` from one line. -/
def detach (d : Irq) (p : ThreadId → Bool) : Option Irq :=
  match d.clients.find? fun c => p c.client with
  | none => none
  | some c =>
    let d := d.checkAutoConsume c
    some { d with
      clientsRegistered := d.clientsRegistered - 1
      clients := d.clients.eraseP fun c => p c.client
      wakeup := match d.wakeup with
        | .client t keep => if t = c.client then .freed else .client t keep
        | w => w
      leftMasked := if c.masked then d.leftMasked + 1 else d.leftMasked }

/-- `attach` to one line. -/
def attach (d : Irq) (client : ThreadId) (shared : Bool) (lastRequest : Request) : Irq :=
  { d with
    clients :=
      { client, masked := true, waiting := false, inService := false, lastIrqNum := d.counter,
        lastRequest } :: d.clients
    shared
    masked := d.masked + 1
    clientsRegistered := d.clientsRegistered + 1 }

end Irq

/-- The table of the interrupts. -/
abbrev Server := Nat → Irq

namespace Server

def setIrq (s : Server) (i : Nat) (d : Irq) : Server := Function.update s i d

def attached (s : Server) (client : ThreadId) : Bool :=
  (List.range irqNums).any fun i => (s i).clients.any fun c => c.client = client

/-- `attach`. The number becomes an index in 16 bits. `mem` is the memory for the record, with the request
that happens to be in it. -/
@[irreducible] def attach (s : Server) (client : ThreadId) (desc : IrqDesc) (mem : Option Request) :
    Except Fault (Int × Server) :=
  let num := (desc.num + 2 ^ 16 - 1) % 2 ^ 16
  if irqNums < num then .ok (-1, s)
  else if irqNums ≤ num then .error .outOfBounds
  else if !(s num).available then .ok (-1, s)
  else if s.attached client then .ok (-1, s)
  else if !(s num).clients.isEmpty && (!desc.shared || !(s num).shared) then .ok (-1, s)
  else match mem with
    | none => .ok (-1, s)
    | some r => .ok ((s num).lthread, s.setIrq num ((s num).attach client desc.shared r))

/-- `detach`. The index is an `int`. -/
def detach (s : Server) (irq : Int) (p : ThreadId → Bool) : Except Fault (Int × Server) :=
  if 0 ≤ irq ∧ irq < irqNums then
    match (s irq.toNat).detach p with
    | none => .ok (-1, s)
    | some d => .ok (0, s.setIrq irq.toNat d)
  else .error .outOfBounds

/-- `detach_all`. -/
def detachAll (s : Server) (task : Nat) : Except Fault Server :=
  (List.range irqNums).foldlM (fun s (i : Nat) => (s.detach i fun t => t.task = task).map Prod.snd) s

/-- `pass`. -/
def pass (s : Server) (client : ThreadId) (desc : IrqDesc) (newClient : ThreadId)
    (mem : Option Request) : Except Fault (Int × Server) := do
  let r ← s.detach (desc.num - 1) fun t => t = client
  if r.1 = 0 then r.2.attach newClient desc mem else return (-1, r.2)

/-- A message to the management thread or to the thread of the line `i`. `sent` tells which wakeups
succeed. -/
inductive Event
  | attach (client : ThreadId) (desc : IrqDesc) (mem : Option Request)
  | detach (client : ThreadId) (desc : IrqDesc)
  | detachAll (task : Nat)
  | pass (client : ThreadId) (desc : IrqDesc) (newClient : ThreadId) (mem : Option Request)
  | interrupt (i : Nat) (sent : ThreadId → Bool)
  | request (i : Nat) (sender : ThreadId) (req : Request) (sent : Bool)
  | other (i : Nat) (next : Request)

/-- An interrupt comes from a line that the kernel has enabled, and not for the 2^32nd time. -/
def Event.Enabled (s : Server) : Event → Prop
  | .interrupt i _ => i < irqNums ∧ (s i).enabled = true ∧ (s i).counter + 1 < 2 ^ 32
  | .request i .. | .other i _ => i < irqNums
  | _ => True

def step (s : Server) : Event → Except Fault Server
  | .attach client desc mem => (s.attach client desc mem).map Prod.snd
  | .detach client desc => (s.detach (desc.num - 1) fun t => t = client).map Prod.snd
  | .detachAll task => s.detachAll task
  | .pass client desc newClient mem => (s.pass client desc newClient mem).map Prod.snd
  | .interrupt i sent => do
    let d ← (s i).finishWakeup ⟨0, false, false, false, false, false⟩
    return s.setIrq i (d.signalUserThreads sent)
  | .request i sender req sent => do
    let d ← (s i).finishWakeup req
    return s.setIrq i (d.handleUserRequest i sender req sent).2
  | .other i next => do
    let d ← (s i).finishWakeup next
    return s.setIrq i d

end Server

end L4env.Omega0
