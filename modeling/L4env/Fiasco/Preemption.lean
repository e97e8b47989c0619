import L4env.Fiasco.Semaphore

/-!
# Preemption IPC of the Fiasco kernel

Preemption events of a thread are sent to its preempter. An event is kept in the scheduling context on
which it occurred. One of the contexts with an event is pending, and then the sender role `Preemption`
of the thread waits in the list of senders of the preempter (`preemption.cpp`, `sched_context.cpp`,
`receiver.cpp`).

`ipc_receiver_ready` consists of three sections under a lock. The thread whose lock is released may run
before the next one, so that each section is a step of its own.
-/

namespace L4env.Fiasco

/-! ## Scheduling contexts -/

/-- `Sched_context::Preemption_type` -/
inductive PreemptionType where
  | none
  | timesliceOverrun
  | deadlineMiss
  deriving DecidableEq

def PreemptionType.value : PreemptionType → BitVec 32
  | .none => 0
  | .timesliceOverrun => 1
  | .deadlineMiss => 2

/-- The fields of a `Sched_context` for preemption events. -/
structure SchedEvents where
  id : BitVec 16
  preemptionType : PreemptionType
  preemptionTime : BitVec 64
  preemptionCount : BitVec 32
  deriving DecidableEq

namespace SchedEvents

def setPreemptionEvent (e : SchedEvents) (type : PreemptionType) (clock : BitVec 64) : SchedEvents :=
  { e with
    preemptionType := type
    preemptionTime := clock
    preemptionCount := e.preemptionCount + 1 }

def clearPreemptionEvent (e : SchedEvents) : SchedEvents :=
  { e with
    preemptionType := .none
    preemptionCount := 0 }

end SchedEvents

/-! ## Messages -/

/-- `L4_pipc` -/
def l4Pipc (type lost id : BitVec 32) (clock : BitVec 64) : BitVec 64 :=
  (type.setWidth 64 <<< 63 &&& 0x8000000000000000#64) |||
  (lost.setWidth 64 <<< 62 &&& 0x4000000000000000#64) |||
  (id.setWidth 64 <<< 56 &&& 0x3f00000000000000#64) |||
  (clock <<< 0 &&& 0x00ffffffffffffff#64)

def pipcLow (raw : BitVec 64) : BitVec 32 := ((raw &&& 0x00000000ffffffff#64) >>> 0).setWidth 32

def pipcHigh (raw : BitVec 64) : BitVec 32 := ((raw &&& 0xffffffff00000000#64) >>> 32).setWidth 32

theorem getLsbD_mask {i : Nat} (k n : Nat) (h : i < 64) :
    (BitVec.ofNat 64 ((2 ^ n - 1) <<< k)).getLsbD i = (decide (k ≤ i) && decide (i < k + n)) := by
  rw [BitVec.getLsbD_ofNat, Nat.testBit_shiftLeft, Nat.testBit_two_pow_sub_one, decide_eq_true h,
    Bool.true_and]
  by_cases hk : k ≤ i
  · simp [hk]
    omega
  · simp [hk]

theorem getLsbD_l4Pipc {i : Nat} (type lost id : BitVec 32) (clock : BitVec 64) (h : i < 64) :
    (l4Pipc type lost id clock).getLsbD i =
      if i = 63 then type.getLsbD 0
      else if i = 62 then lost.getLsbD 0
      else if 56 ≤ i then id.getLsbD (i - 56)
      else clock.getLsbD i := by
  have htype := getLsbD_mask 63 1 h
  have hlost := getLsbD_mask 62 1 h
  have hid := getLsbD_mask 56 6 h
  have hclock := getLsbD_mask 0 56 h
  change (0x8000000000000000#64).getLsbD i = _ at htype
  change (0x4000000000000000#64).getLsbD i = _ at hlost
  change (0x3f00000000000000#64).getLsbD i = _ at hid
  change (0x00ffffffffffffff#64).getLsbD i = _ at hclock
  simp only [l4Pipc, BitVec.getLsbD_or, BitVec.getLsbD_and, BitVec.getLsbD_shiftLeft,
    BitVec.getLsbD_setWidth, htype, hlost, hid, hclock]
  obtain rfl | rfl | ⟨h62, h56⟩ | h56 : i = 63 ∨ i = 62 ∨ (i < 62 ∧ 56 ≤ i) ∨ i < 56 := by omega
  · simp
  · simp
  · have h8 : i - 56 < 64 := by omega
    simp [h62.ne, h56, h, h8, h62, show i ≠ 63 by omega, show ¬63 ≤ i by omega, show ¬62 ≤ i by omega,
      show ¬i < 56 by omega]
  · simp [h56, h, show i ≠ 63 by omega, show i ≠ 62 by omega, show ¬63 ≤ i by omega,
      show ¬62 ≤ i by omega, show ¬56 ≤ i by omega]

theorem pipc_words (raw : BitVec 64) : pipcHigh raw ++ pipcLow raw = raw := by
  refine BitVec.eq_of_getLsbD_eq fun i hi => ?_
  rw [BitVec.getLsbD_append]
  split
  · rename_i h32
    have hlow := getLsbD_mask 0 32 hi
    change (0x00000000ffffffff#64).getLsbD i = _ at hlow
    rw [pipcLow, BitVec.getLsbD_setWidth, BitVec.getLsbD_ushiftRight, Nat.zero_add,
      BitVec.getLsbD_and, hlow]
    simp [h32]
  · rename_i h32
    have hhigh := getLsbD_mask 32 32 hi
    change (0xffffffff00000000#64).getLsbD i = _ at hhigh
    rw [pipcHigh, BitVec.getLsbD_setWidth, BitVec.getLsbD_ushiftRight,
      show 32 + (i - 32) = i by omega, BitVec.getLsbD_and, hhigh]
    simp [show i - 32 < 32 by omega, show 32 ≤ i by omega, hi]

/-! ## Receivers -/

/-- The senders: the preemption role of the thread and all others. -/
inductive Sender (U : Type) where
  | preemption
  | other (u : U)
  deriving DecidableEq

/-- The registers a receiver gets a message in. -/
structure RcvRegs (U : Type) where
  rcvSrc : Option (Sender U)
  msgDope : BitVec 32
  word₀ : BitVec 32
  word₁ : BitVec 32

structure Receiver (U : Type) where
  /-- `Thread_receiving` and the other bits of the state -/
  receiving : Bool
  ipcInProgress : Bool
  transferInProgress : Bool
  busy : Bool
  cancel : Bool
  ready : Bool
  partner : Option (Sender U)
  senderList : List (Sender U × Nat)
  /-- `sched()->prio()` -/
  prio : Nat
  rcvRegs : RcvRegs U

namespace Receiver

variable {U : Type} [DecidableEq U]

def senderOk (x : Receiver U) (sender : Sender U) : Bool :=
  if !(x.receiving && x.ipcInProgress) then false
  else if x.partner.isNone && (x.senderList.head?.isNone ||
      decide (x.senderList.head?.map Prod.fst = some sender)) then true
  else decide (x.partner = some sender)

def prepareReceive (x : Receiver U) (partner : Option (Sender U)) : Receiver U :=
  { x with
    partner := partner
    transferInProgress := false
    receiving := true
    ipcInProgress := true }

/-- `ipc_init`, `setup_msg` and the change of the state after them. -/
def deliver (x : Receiver U) (raw : BitVec 64) : Receiver U :=
  { x with
    partner := some .preemption
    rcvRegs := ⟨some .preemption, 0, pipcLow raw, pipcHigh raw⟩
    receiving := false
    busy := false
    transferInProgress := false
    ipcInProgress := false
    ready := true }

end Receiver

/-! ## The sender role -/

/-- What the first section of `ipc_receiver_ready` reads. -/
structure Extracted where
  type : PreemptionType
  lost : Bool
  id : BitVec 16
  time : BitVec 64

/-- The message of the second section. -/
def Extracted.raw (info : Extracted) : BitVec 64 :=
  l4Pipc info.type.value (if info.lost then 1 else 0) (info.id.setWidth 32) info.time

def SchedEvents.info (e : SchedEvents) : Extracted :=
  ⟨e.preemptionType, decide (1 < e.preemptionCount), e.id, e.preemptionTime⟩

/-- A call of `ipc_receiver_ready` behind its first or its second section. The call is from `do_ipc` of
the receiver, in a closed or an open wait. -/
inductive Delivery (R : Type) where
  | extracted (recv : R) (closed : Bool) (info : Extracted)
  | sent

/-- A thread's preemption role, with the contexts `C` of the thread, the receivers `R` and the other
senders `U`. -/
structure Preemption (C R U : Type) where
  /-- the ring of the scheduling contexts, from any of them on -/
  ring : List C
  sched : C → SchedEvents
  receiver : Option R
  pending : Option C
  recv : R → Receiver U
  delivery : Option (Delivery R)

namespace Preemption

variable {C R U : Type} [DecidableEq C] [DecidableEq R] [DecidableEq U]

def setRecv (s : Preemption C R U) (r : R) (x : Receiver U) : Preemption C R U :=
  { s with recv := Function.update s.recv r x }

/-- The list of the receiver changes. -/
def setSenderList (s : Preemption C R U) (r : R) (l : List (Sender U × Nat)) : Preemption C R U :=
  s.setRecv r { s.recv r with senderList := l }

/-- An element that is in a list already breaks the links: the list is then `broken`. -/
def senderEnqueue (s : Preemption C R U) (r : R) (prio : Nat) (broken : List (Sender U × Nat)) :
    Preemption C R U :=
  s.setSenderList r (Semaphore.senderEnqueue (s.recv r).senderList .preemption prio broken)

def senderDequeue (s : Preemption C R U) (r : R) : Preemption C R U :=
  s.setSenderList r (Semaphore.senderDequeue (s.recv r).senderList .preemption)

def senderDequeueHead (s : Preemption C R U) (r : R) : Preemption C R U :=
  if (s.recv r).senderList.head?.map Prod.fst = some .preemption then s.senderDequeue r else s

def preempterEnqueue (s : Preemption C R U) (broken : List (Sender U × Nat)) : Preemption C R U :=
  match s.receiver with
  | none => s
  | some r =>
    let s := s.senderEnqueue r (s.recv r).prio broken
    if (s.recv r).senderOk .preemption then
      s.setRecv r { s.recv r with
        busy := false
        ready := true }
    else s

/-- The old preempter's list is left. -/
def leave (s : Preemption C R U) : Preemption C R U :=
  match s.receiver with
  | none => s
  | some r => s.senderDequeue r

def setReceiver (s : Preemption C R U) (receiver : Option R) (broken : List (Sender U × Nat)) :
    Preemption C R U :=
  let s := { s.leave with receiver := receiver }
  if s.pending.isSome then s.preempterEnqueue broken else s

def queue (s : Preemption C R U) (type : PreemptionType) (time : BitVec 64) (c : C)
    (broken : List (Sender U × Nat)) : Preemption C R U :=
  let s := { s with sched := Function.update s.sched c ((s.sched c).setPreemptionEvent type time) }
  if s.pending.isSome then s else { s with pending := some c }.preempterEnqueue broken

/-- The contexts behind `c`, once around the ring. -/
def others (ring : List C) (c : C) : List C :=
  (ring.dropWhile (· ≠ c)).tail ++ ring.takeWhile (· ≠ c)

/-- `find_next_preemption` on the pending context. The context it returns gets pending. -/
def advance (s : Preemption C R U) (c : C) : Preemption C R U :=
  let sched := Function.update s.sched c (s.sched c).clearPreemptionEvent
  { s with
    sched := sched
    pending := (others s.ring c).find? fun tmp => (sched tmp).preemptionType ≠ .none }

/-! ## Deliveries -/

/-- `ipc_receiver_ready` returned false: `do_ipc` takes the sender from the head of the list in an open
wait. -/
def refused (s : Preemption C R U) (r : R) (closed : Bool) : Preemption C R U :=
  { (if closed then s else s.senderDequeueHead r) with delivery := none }

/-- The first section. -/
def extract (s : Preemption C R U) (r : R) (closed : Bool) : Preemption C R U :=
  let s := s.senderDequeue r
  match s.pending with
  | none => s.refused r closed
  | some c => { s with delivery := some (.extracted r closed (s.sched c).info) }

/-- The second section; `r` is the receiver now. -/
def transfer (s : Preemption C R U) (r recv : R) (closed : Bool) (info : Extracted) :
    Preemption C R U :=
  if !(s.recv r).senderOk .preemption then s.refused recv closed
  else { s.setRecv r ((s.recv r).deliver info.raw) with delivery := some .sent }

/-- The third section. -/
def finish (s : Preemption C R U) (broken : List (Sender U × Nat)) : Option (Preemption C R U) :=
  match s.pending with
  | none => some { s with delivery := none }
  | some c =>
    let s := { s.advance c with delivery := none }
    if s.pending.isSome then s.receiver.map fun r => s.senderEnqueue r 255 broken else some s

/-- The preempter accepts a message of the role. -/
def accepts (s : Preemption C R U) : Bool :=
  s.receiver.any fun r => (s.recv r).senderOk .preemption

/-! ## Steps -/

/-- What the timers, the preempter and the other senders do. -/
inductive Act (C R U : Type) where
  | queue (type : PreemptionType) (time : BitVec 64) (c : C) (broken : List (Sender U × Nat))
  | setReceiver (receiver : Option R) (broken : List (Sender U × Nat))
  /-- `ipc_receiver_aborted` -/
  | aborted
  /-- `do_ipc` prepares to receive from the partner, or from all senders if there is none. -/
  | receive (r : R) (partner : Option (Sender U))
  /-- The receiver itself or other senders change the receiver. -/
  | change (r : R) (x : Receiver U)
  /-- `do_ipc` calls `ipc_receiver_ready`. -/
  | offer (r : R) (closed : Bool)
  | transfer
  | finish (broken : List (Sender U × Nat))

/-- `do_ipc` of the receiver calls `ipc_receiver_ready` of the role. -/
def Offered (s : Preemption C R U) (r : R) (closed : Bool) : Prop :=
  s.receiver = some r ∧ (s.recv r).receiving = true ∧ (s.recv r).ipcInProgress = true ∧
    (s.recv r).cancel = false ∧
    if closed then .preemption ∈ (s.recv r).senderList.map Prod.fst
    else (s.recv r).senderList.head?.map Prod.fst = some .preemption

instance (s : Preemption C R U) (r : R) (closed : Bool) : Decidable (s.Offered r closed) := by
  unfold Offered
  infer_instance

/-- A step; there is none where a null pointer would be followed. -/
def step (s : Preemption C R U) : Act C R U → Option (Preemption C R U)
  | .queue type time c broken =>
    if c ∈ s.ring ∧ type ≠ .none then some (s.queue type time c broken) else none
  | .setReceiver receiver broken => some (s.setReceiver receiver broken)
  | .aborted => s.receiver.map fun r => (s.senderDequeue r).setReceiver none []
  | .receive r partner => some (s.setRecv r ((s.recv r).prepareReceive partner))
  | .change r x =>
    if x.senderList.filter (fun e => e.1 = .preemption) =
        (s.recv r).senderList.filter (fun e => e.1 = .preemption) then some (s.setRecv r x)
    else none
  | .offer r closed =>
    if s.delivery.isNone ∧ s.Offered r closed then some (s.extract r closed) else none
  | .transfer =>
    match s.delivery, s.receiver with
    | some (.extracted recv closed info), some r => some (s.transfer r recv closed info)
    | _, _ => none
  | .finish broken =>
    match s.delivery with
    | some .sent => s.finish broken
    | _ => none

end Preemption

end L4env.Fiasco
