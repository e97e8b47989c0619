import L4env.Dsi.EventRun

/-!
# Select

`dsi_stream_select` starts a thread for each socket, which calls the event thread of the component and waits for
one of the events (`lib/src/select.c`). With the first answer all threads are stopped. The event servers of the
components go on with the requests of all their clients in any order.

The system has the event servers together with the services they refine. A select thread that was stopped keeps
what it was answered.
-/

namespace L4env.Dsi.Select

open EventServer (Agrees OpOk)

/-- A socket in the list of `dsi_stream_select`: the component, its socket and the events. -/
structure SelectSocket where
  component : Nat
  socket : Nat
  events : EventMask

/-- The select threads, and all other threads. -/
inductive Client where
  | select (i : Nat)
  | other (t : Nat)
  deriving DecidableEq

/-- What a select thread has come to: its request is not taken yet, or taken without an answer; it has the answer,
or has written it into its arguments. -/
inductive Phase where
  | idle
  | calling
  | waiting
  | answered (r : Except Error EventMask)
  | posted (r : Except Error EventMask)
  | stopped (r : Option (Except Error EventMask))

/-- The result of `dsi_stream_select`: an error, or the list of events. -/
inductive Outcome where
  | enothread
  | error (e : Error)
  | events (l : List (Nat × EventMask))

/-- Where the client is in `dsi_stream_select`. -/
inductive Main where
  | starting (i : Nat)
  | cleanup (i j : Nat)
  | down
  | stopping (i : Nat) (error : Option Error)
  | listing (i : Nat) (events : List (Nat × EventMask))
  | done (r : Outcome)

structure System where
  server : Nat → EventServer Client
  signals : Nat → Signals Client
  phase : Nat → Phase
  /-- `args[i].error` -/
  error : Nat → Option Error
  /-- `args[i].mask` -/
  mask : Nat → EventMask
  sem : Nat
  main : Main
  /-- the calls of `dsi_event_reset` -/
  resets : List (Nat × EventMask)

/-- The request of `dsi_event_wait` -/
def waitRequest (sockets : Nat → SelectSocket) (i : Nat) : Request Client :=
  ⟨.select i, false, eventWait ||| ((sockets i).events &&& eventMask), (sockets i).socket⟩

/-- The request of `dsi_event_reset` -/
def resetRequest (sockets : Nat → SelectSocket) (i : Nat) (mask : EventMask) : Request Client :=
  ⟨.other 0, false, eventReset ||| (mask &&& eventMask), (sockets i).socket⟩

/-- The answer of `dsi_event_wait`, if there is one already. -/
def Phase.ofReply : Reply → Phase
  | .code (some e) => .answered (.error e)
  | .code none => .answered (.ok 0)
  | .none => .waiting
  | .panic => .waiting

/-- `dsi_shutdown_select_thread` -/
def Phase.stop : Phase → Phase
  | .answered r => .stopped (some r)
  | .posted r => .stopped (some r)
  | .stopped r => .stopped r
  | _ => .stopped none

/-- The notifications for the select threads that wait. -/
def wake (wakeups : List (Wakeup Client)) (phase : Nat → Phase) (i : Nat) : Phase :=
  match phase i, wakeups.find? fun k => k.client = .select i with
  | .waiting, some k => .answered (.ok k.sent)
  | p, _ => p

/-- The event server of the component `c` has worked on a request. -/
def System.served (S : System) (c : Nat) (r : Request Client) (res : Result Client) (phase : Nat → Phase) : System :=
  { S with
    server := Function.update S.server c res.server
    signals := Function.update S.signals c ((S.signals c).step ((S.server c).op r)).2
    phase := wake res.wakeups phase }

/-- `args[i].error` after an answer -/
def errorOf : Option (Except Error EventMask) → Option Error
  | some (.error e) => some e
  | _ => none

/-- `args[i].mask` after an answer -/
def maskOf : Option (Except Error EventMask) → EventMask
  | some (.ok m) => m
  | _ => 0

/-- A step of the client, of a select thread or of a component, for a list of `n` sockets. As in the runs of an
event server nobody waits for no event, and no event counter wraps. -/
inductive Step (sockets : Nat → SelectSocket) (n : Nat) : System → System → Prop where
  | start {S : System} {i : Nat} : S.main = .starting i → i < n →
    Step sockets n S { S with phase := Function.update S.phase i .calling, main := .starting (i + 1) }
  | startFails {S : System} {i : Nat} : S.main = .starting i → i < n → Step sockets n S { S with main := .cleanup i 0 }
  | cleanup {S : System} {i j : Nat} : S.main = .cleanup i j → j < i →
    Step sockets n S { S with phase := Function.update S.phase j (S.phase j).stop, main := .cleanup i (j + 1) }
  | cleaned {S : System} {i : Nat} : S.main = .cleanup i i → Step sockets n S { S with main := .done .enothread }
  | started {S : System} : S.main = .starting n → Step sockets n S { S with main := .down }
  | request {S : System} {i : Nat} {fails : Client → EventMask → Bool} {res : Result Client} :
    S.phase i = .calling →
    OpOk (S.server (sockets i).component) ((S.server (sockets i).component).op (waitRequest sockets i)) →
    Returns (fun fuel => (S.server (sockets i).component).exec fails fuel (waitRequest sockets i)) res →
    Step sockets n S (S.served (sockets i).component (waitRequest sockets i) res
      (Function.update S.phase i (.ofReply res.reply)))
  | ipcFails {S : System} {i : Nat} : S.phase i = .calling →
    Step sockets n S { S with phase := Function.update S.phase i (.answered (.error .eipc)) }
  | other {S : System} {c t : Nat} {r : Request Client} {fails : Client → EventMask → Bool} {res : Result Client} :
    r.src = .other t → OpOk (S.server c) ((S.server c).op r) →
    Returns (fun fuel => (S.server c).exec fails fuel r) res → Step sockets n S (S.served c r res S.phase)
  | post {S : System} {i : Nat} {r : Except Error EventMask} : S.phase i = .answered r →
    Step sockets n S { S with
      phase := Function.update S.phase i (.posted r)
      error := Function.update S.error i (errorOf (some r))
      mask := Function.update S.mask i (maskOf (some r))
      sem := S.sem + 1 }
  | down {S : System} : S.main = .down → 0 < S.sem →
    Step sockets n S { S with sem := S.sem - 1, main := .stopping 0 none }
  | stop {S : System} {i : Nat} {error : Option Error} : S.main = .stopping i error → i < n →
    Step sockets n S { S with
      phase := Function.update S.phase i (S.phase i).stop
      main := .stopping (i + 1) (S.error i) }
  | failed {S : System} {e : Error} : S.main = .stopping n (some e) →
    Step sockets n S { S with main := .done (.error e) }
  | succeeded {S : System} : S.main = .stopping n none → Step sockets n S { S with main := .listing 0 [] }
  | skip {S : System} {i : Nat} {l : List (Nat × EventMask)} : S.main = .listing i l → i < n → S.mask i = 0 →
    Step sockets n S { S with main := .listing (i + 1) l }
  | list {S : System} {i : Nat} {l : List (Nat × EventMask)} {fails : Client → EventMask → Bool}
    {res : Result Client} : S.main = .listing i l → i < n → S.mask i ≠ 0 →
    OpOk (S.server (sockets i).component) ((S.server (sockets i).component).op (resetRequest sockets i (S.mask i))) →
    Returns (fun fuel => (S.server (sockets i).component).exec fails fuel (resetRequest sockets i (S.mask i))) res →
    Step sockets n S { S.served (sockets i).component (resetRequest sockets i (S.mask i)) res S.phase with
      main := .listing (i + 1) (l ++ [(i, S.mask i)])
      resets := S.resets ++ [(i, S.mask i)] }
  | listed {S : System} {l : List (Nat × EventMask)} : S.main = .listing n l →
    Step sockets n S { S with main := .done (.events l) }

/-- `dsi_stream_select` is called, and no select thread is in a queue. -/
structure Initial (S : System) : Prop where
  agrees : ∀ c, ∃ q, Agrees (S.server c) (S.signals c) q
  queued : ∀ c id, ∀ w ∈ (S.signals c).queue id, ∀ i, w.client ≠ .select i
  phase : ∀ i, S.phase i = .idle
  error : ∀ i, S.error i = none
  mask : ∀ i, S.mask i = 0
  sem : S.sem = 0
  main : S.main = .starting 0
  resets : S.resets = []

/-- A thread that is stopped has its request not taken yet, or has written its answer. If a thread has written an
error when all are stopped, the last one has. -/
structure StepOk (n : Nat) (S S' : System) : Prop where
  stops : ∀ i r, S'.phase i = .stopped r →
    S.phase i = .stopped r ∨ S.phase i = .calling ∨ ∃ a, S.phase i = .posted a
  errors : ∀ e, S.main = .stopping n e → (∃ i < n, S.error i ≠ none) → S.error (n - 1) ≠ none

/-- A run whose steps all meet the condition. -/
def Runs (sockets : Nat → SelectSocket) (n : Nat) : System → System → Prop :=
  Relation.ReflTransGen fun S S' => Step sockets n S S' ∧ StepOk n S S'

end L4env.Dsi.Select
