import Mathlib.Tactic

/-!
# User-level semaphores of the Fiasco kernel

The counter of a semaphore is in user memory. `l4_usem_down_to` and `l4_usem_up` change it with an
atomic instruction and enter the kernel only where a thread has to sleep or to be woken up
(`__user_locks_impl.h`, `u_semaphore.cpp`). A kernel section runs with interrupts off. A thread in
`block_locked` sleeps in `schedule` and runs the rest of the function as a section of its own.

The model is the threads `T` around one semaphore, as a step function. Each thread takes the
semaphore and gives it back in turns. What happens in a page fault is left open but for its outcome.
-/

namespace L4env.Fiasco

/-- Where a thread is in the user-level code. -/
inductive Pc where
  | idle
  /-- at the head of the loop of `l4_usem_down_to` -/
  | trying
  /-- the atomic decrement gave a negative counter -/
  | failed
  /-- sleeps in `block_locked` -/
  | blocked
  /-- `l4_usem_down_to` returned 0 -/
  | critical
  /-- the atomic increment of `l4_usem_up` is done -/
  | released
  /-- `l4_usem_up` found the flag set -/
  | waking
  deriving DecidableEq

/-- The timeout of a thread that sleeps: none, one of zero, or a finite one. -/
inductive SemTimeout where
  | never
  | zero
  | finite

/-- `U_semaphore::Result` -/
inductive SemResult where
  | ok
  | retry
  | timeout
  | invalid

structure Semaphore (T : Type) where
  /-- the counter in user memory, a `long` -/
  counter : Int
  /-- the flag in user memory: threads are queued -/
  flags : Bool
  /-- the priority list of the queued threads, each with the priority it was inserted with -/
  queue : List (T × Nat)
  valid : Bool
  pc : T → Pc
  /-- `Thread_ready` -/
  ready : T → Bool
  timeoutSet : T → Bool
  timeoutHit : T → Bool

/-- What a thread, the timer or the owner of the semaphore does. -/
inductive SemAct (T : Type) where
  | down (t : T)
  | block (t : T) (fault : Bool) (prio : Nat) (timeout : SemTimeout) (broken : List (T × Nat))
  | resume (t : T)
  | expire (t : T)
  | up (t : T)
  | test (t : T)
  | wakeup (t : T) (fault : Bool)
  | destroy

namespace Semaphore

variable {T : Type} [DecidableEq T]

/-- The value of an `Smword`. -/
def smword (i : Int) : Int := i.bmod (2 ^ 32)

def setPc (s : Semaphore T) (t : T) (pc : Pc) : Semaphore T :=
  { s with pc := Function.update s.pc t pc }

/-! ## The priority list -/

/-- `Prio_list::insert`. An element that is in the list already breaks the links: the list is then
`broken`, whatever that is. -/
def senderEnqueue (queue : List (T × Nat)) (t : T) (prio : Nat) (broken : List (T × Nat)) :
    List (T × Nat) :=
  if t ∈ queue.map Prod.fst then broken
  else queue.takeWhile (fun e => prio ≤ e.2) ++ (t, prio) :: queue.dropWhile fun e => prio ≤ e.2

def senderDequeue (queue : List (T × Nat)) (t : T) : List (T × Nat) :=
  queue.filter fun e => e.1 ≠ t

theorem mem_senderEnqueue {t u : T} {queue : List (T × Nat)} {prio : Nat} {broken : List (T × Nat)}
    (h : t ∉ queue.map Prod.fst) :
    u ∈ (senderEnqueue queue t prio broken).map Prod.fst ↔ u = t ∨ u ∈ queue.map Prod.fst := by
  have hsplit := List.takeWhile_append_dropWhile (p := fun e : T × Nat => decide (prio ≤ e.2))
    (l := queue)
  rw [senderEnqueue, if_neg h]
  conv => rhs; rw [← hsplit]
  rw [List.map_append, List.map_append, List.map_cons, List.mem_append, List.mem_append,
    List.mem_cons]
  exact or_left_comm

theorem mem_senderDequeue {t u : T} {queue : List (T × Nat)} :
    u ∈ (senderDequeue queue t).map Prod.fst ↔ u ≠ t ∧ u ∈ queue.map Prod.fst := by
  simp only [senderDequeue, List.mem_map, List.mem_filter, decide_eq_true_eq]
  constructor
  · rintro ⟨e, ⟨he, hne⟩, rfl⟩
    exact ⟨hne, e, he, rfl⟩
  · rintro ⟨hne, e, he, rfl⟩
    exact ⟨e, ⟨he, hne⟩, rfl⟩

/-! ## Kernel sections -/

/-- `add_counter`: the new value of the counter is returned as a `bool`. -/
def addCounter (s : Semaphore T) (v : Int) : Bool × Semaphore T :=
  let cnt := smword (s.counter + v)
  (decide (cnt ≠ 0), { s with counter := cnt })

/-- `block_locked` up to the call of `schedule`. There is no result where the thread sleeps. -/
def blockLocked (s : Semaphore T) (t : T) (fault : Bool) (prio : Nat) (timeout : SemTimeout)
    (broken : List (T × Nat)) : Option SemResult × Semaphore T :=
  if fault then (some .invalid, s)
  else
    let s := { s with flags := true }
    let r := s.addCounter 1
    let s := r.2
    if r.1.toNat > 0 then
      let s := if s.queue.head?.isNone then { s with flags := false } else s
      (some .ok, (s.addCounter (-1)).2)
    else
      let s := { s with
        queue := senderEnqueue s.queue t prio broken
        ready := Function.update s.ready t false
        timeoutHit := Function.update s.timeoutHit t false }
      match timeout with
      | .never => (none, s)
      | .zero => (some .timeout, s)
      | .finite => (none, { s with timeoutSet := Function.update s.timeoutSet t true })

/-- `block_locked` from the return of `schedule` on. -/
def afterSchedule (s : Semaphore T) (t : T) : SemResult × Semaphore T :=
  if !s.valid then (.invalid, s)
  else if t ∈ s.queue.map Prod.fst ∧ s.timeoutHit t = true then
    (.timeout, { s with queue := senderDequeue s.queue t })
  else (.retry, s)

def wakeupLocked (s : Semaphore T) (fault : Bool) : Semaphore T :=
  if fault then s
  else
    match s.queue.head? with
    | none => { s with flags := false }
    | some (w, _) =>
      let queue := senderDequeue s.queue w
      { s with
        queue := queue
        flags := queue.head?.isSome
        ready := Function.update s.ready w true
        timeoutSet := Function.update s.timeoutSet w false }

/-- The destructor: every thread in the queue is woken up. -/
def destroyed (s : Semaphore T) : Semaphore T :=
  { s with
    valid := false
    queue := []
    ready := fun t => s.ready t || decide (t ∈ s.queue.map Prod.fst)
    timeoutSet := fun t => s.timeoutSet t && !decide (t ∈ s.queue.map Prod.fst) }

/-! ## Threads -/

/-- What `l4_usem_down_to` does with the result of the kernel. -/
def afterBlock : Option SemResult → Pc
  | none => .blocked
  | some .ok => .critical
  | some .retry => .trying
  | some .timeout | some .invalid => .idle

/-- A step, where it is enabled. -/
def exec (s : Semaphore T) : SemAct T → Option (Semaphore T)
  | .down t =>
    if s.pc t = .idle ∨ s.pc t = .trying then
      let cnt := smword (s.counter - 1)
      some ({ s with counter := cnt }.setPc t (if 0 ≤ cnt then .critical else .failed))
    else none
  | .block t fault prio timeout broken =>
    if s.pc t = .failed then
      let r := s.blockLocked t fault prio timeout broken
      some (r.2.setPc t (afterBlock r.1))
    else none
  | .resume t =>
    if s.pc t = .blocked ∧ s.ready t = true then
      let r := s.afterSchedule t
      some (r.2.setPc t (afterBlock (some r.1)))
    else none
  | .expire t =>
    if s.timeoutSet t then
      some { s with
        timeoutSet := Function.update s.timeoutSet t false
        timeoutHit := Function.update s.timeoutHit t true
        ready := Function.update s.ready t true }
    else none
  | .up t =>
    if s.pc t = .critical then
      some ({ s with counter := smword (s.counter + 1) }.setPc t .released)
    else none
  | .test t =>
    if s.pc t = .released then some (s.setPc t (if s.flags then .waking else .idle)) else none
  | .wakeup t fault =>
    if s.pc t = .waking then some ((s.wakeupLocked fault).setPc t .idle) else none
  | .destroy => some s.destroyed

end Semaphore

end L4env.Fiasco
