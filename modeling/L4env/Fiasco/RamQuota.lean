import L4env.Util.Budget

/-!
# RAM quotas

`ram_quota.cpp`, `ram_quota_alloc.cpp` and what uses them: `q_alloc` and `q_free` of the allocators,
`task_new` with its quota descriptor, `Task::create`, and the end of `Thread::destroy` and
`Fpu_alloc::free_state`, which give a quota back when nothing is charged to it any more. The calls of all
threads interleave; a thread keeps the pointer to the quota that it has looked up in between.
-/

namespace L4env.Fiasco

/-- `L4_quota_desc`. -/
abbrev QuotaDesc := BitVec 32

namespace QuotaDesc

def command (d : QuotaDesc) : Nat := (d >>> 28).toNat

def share : Nat := 1

def new : Nat := 2

def id (d : QuotaDesc) : Nat := (d &&& 0xfff).toNat

def amount (d : QuotaDesc) : Nat := (d &&& ~~~(0xf#32 <<< 28 ||| 0xfff)).toNat

theorem amount_lt (d : QuotaDesc) : amount d < 2 ^ 28 := by
  unfold amount
  rw [BitVec.toNat_and]
  exact lt_of_le_of_lt Nat.and_le_right (by decide)

end QuotaDesc

/-- The size of an allocation, a positive `signed long`. -/
abbrev Size := { n : Nat // 0 < n ∧ n < 2 ^ 31 }

/-- `class Ram_quota`. -/
structure RamQuota (Q : Type) where
  parent : Option Q
  current : Nat
  max : Nat

/-- `sizeof (Ram_quota)`. -/
def sizeofQuota : Nat := 12

def RamQuota.unlimited {Q : Type} (q : RamQuota Q) : Bool := q.max == 2 ^ 32 - 1

/-- What a quota is charged for: an object of the kernel, a task that is in the table of the tasks or one
that is being made, a quota below it, or a quota below it for which there was no memory. -/
inductive Payee (C Q : Type)
  | object
  | task (no chief : Nat)
  | making (c : C)
  | quota (q : Q)
  | lost
deriving DecidableEq

/-- A charge, as the owner of the memory keeps it. -/
structure Charge (C Q : Type) where
  quota : Q
  size : Size
  payee : Payee C Q
deriving DecidableEq

/-- A quota in the hands of a thread: that of its own task or of a task it has named in `task_new`, the one
it is to make a new quota below, the one it has made, and the one whose charges it has checked last. -/
inductive Claim (Q : Type)
  | own (q : Q)
  | shared (q : Q)
  | asked (q : Q) (d : QuotaDesc)
  | fresh (q : Q)
  | reaping (q : Q)

def Claim.quota {Q : Type} : Claim Q → Q
  | own q | shared q | asked q _ | fresh q | reaping q => q

/-- The quotas of the kernel. `slab` has the quotas that are allocated, the newest first. -/
@[ext]
structure Quotas (C Q : Type) where
  taskSize : Size
  root : Q
  quota : Q → RamQuota Q
  slab : List Q
  charges : List (Charge C Q)
  claim : C → Option (Claim Q)

/-- The memory that a new quota takes from the one above it. -/
def QuotaDesc.reservation (d : QuotaDesc) : Size :=
  ⟨sizeofQuota + d.amount, Nat.add_pos_left (by decide) _,
    lt_trans (Nat.add_lt_add_left d.amount_lt _) (by decide)⟩

namespace Quotas

variable {C Q : Type} [DecidableEq C] [DecidableEq Q]

/-- The quota object is there. -/
def Live (s : Quotas C Q) (q : Q) : Prop := q = s.root ∨ q ∈ s.slab

instance (s : Quotas C Q) (q : Q) : Decidable (s.Live q) := inferInstanceAs (Decidable (_ ∨ _))

def setCurrent (s : Quotas C Q) (q : Q) (v : Nat) : Quotas C Q :=
  { s with quota := Function.update s.quota q { s.quota q with current := v } }

/-- `Ram_quota::alloc`, an error for a quota that is gone. The argument is an unsigned word. -/
def alloc (s : Quotas C Q) (q : Q) (bytes : Nat) : Except Q (Bool × Quotas C Q) :=
  if s.Live q then
    let current := ((s.quota q).current + bytes) % 2 ^ 32
    if (s.quota q).unlimited || current ≤ (s.quota q).max then .ok (true, s.setCurrent q current)
    else .ok (false, s)
  else .error q

/-- `Ram_quota::free`. -/
def free (s : Quotas C Q) (q : Q) (bytes : Nat) : Except Q (Quotas C Q) :=
  (s.alloc q ((2 ^ 32 - bytes) % 2 ^ 32)).map Prod.snd

/-- `Ram_quota_alloc::alloc`. What is charged for a quota without memory stays charged. -/
def allocQuota (s : Quotas C Q) (q : Q) (d : QuotaDesc) (nq : Option Q) :
    Except Q (Option Q × Quotas C Q) := do
  let r ← s.alloc q (sizeofQuota + d.amount)
  if r.1 then
    match nq with
    | some n => return (some n, { r.2 with
        quota := Function.update r.2.quota n { parent := some q, current := 0, max := d.amount }
        slab := n :: r.2.slab
        charges := ⟨q, d.reservation, .quota n⟩ :: r.2.charges })
    | none => return (none, { r.2 with charges := ⟨q, d.reservation, .lost⟩ :: r.2.charges })
  else return (none, r.2)

/-- `Ram_quota_alloc::free`. -/
def freeQuota (s : Quotas C Q) (q : Q) : Except Q (Quotas C Q) :=
  if q = s.root then .ok s
  else if s.Live q then do
    let s' ← match (s.quota q).parent with
      | some p => s.free p (sizeofQuota + (s.quota q).max)
      | none => .ok s
    return { s' with
      slab := s'.slab.erase q
      charges := s'.charges.eraseP fun x => x.payee = .quota q }
  else .error q

/-- Charges the quota `q` for `payee`. -/
def charge (s : Quotas C Q) (q : Q) (size : Size) (payee : Payee C Q) : Except Q (Quotas C Q) := do
  let r ← s.alloc q size
  return if r.1 then { r.2 with charges := ⟨q, size, payee⟩ :: r.2.charges } else r.2

/-- `q_free`, also `operator delete` of a task. -/
def release (s : Quotas C Q) (x : Charge C Q) : Except Q (Quotas C Q) := do
  let s' ← s.free x.quota x.size
  return { s' with charges := s'.charges.erase x }

def setClaim (s : Quotas C Q) (c : C) (claim : Option (Claim Q)) : Quotas C Q :=
  { s with claim := Function.update s.claim c claim }

/-- The task with the number `no`. -/
def task (s : Quotas C Q) (no : Nat) : Option (Charge C Q × Nat) :=
  s.charges.findSome? fun x => match x.payee with
    | .task n chief => if n = no then some (x, chief) else none
    | _ => none

/-- The quota of the task `ref` if the caller may use it, in `share_quota` and `new_quota`. -/
def refQuota (s : Quotas C Q) (caller ref : Nat) : Option Q :=
  match s.task ref with
  | some (x, chief) => if chief = caller ∨ ref = caller then some x.quota else none
  | none => none

/-- How `task_new` of a thread of the task `caller` comes to the quota of the new task. -/
def lookup (s : Quotas C Q) (caller : Nat) (d : QuotaDesc) : Option (Claim Q) :=
  if d.command = QuotaDesc.share then (s.refQuota caller d.id).map .shared
  else if d.command = QuotaDesc.new then (s.refQuota caller d.id).map fun q => .asked q d
  else (s.task caller).map fun t => .own t.1.quota

/-- `new_quota`, once the task is found. -/
def newQuota (s : Quotas C Q) (c : C) (nq : Option Q) : Except Q (Quotas C Q) :=
  match s.claim c with
  | some (.asked q d) => do
    let r ← s.allocQuota q d nq
    return r.2.setClaim c (r.1.map .fresh)
  | _ => .ok s

/-- `Task::create` charges for the task object. -/
def createTask (s : Quotas C Q) (c : C) : Except Q (Quotas C Q) :=
  match s.claim c with
  | some claim => do
    let s' ← s.charge claim.quota s.taskSize (.making c)
    return s'.setClaim c none
  | none => .ok s

/-- The constructor of a task enters it under its number; if there is a task already, the new one is
deleted. -/
def register (s : Quotas C Q) (x : Charge C Q) (no chief : Nat) : Except Q (Quotas C Q) :=
  if (s.task no).isSome then s.release x
  else .ok { s with charges := { x with payee := .task no chief } :: s.charges.erase x }

/-- `Thread::destroy` and `Fpu_alloc::free_state` release their memory. -/
def destroy (s : Quotas C Q) (c : C) (x : Charge C Q) : Except Q (Quotas C Q) := do
  let s' ← s.release x
  return s'.setClaim c (some (.reaping x.quota))

/-- Then they give back the quota if there is no charge left. -/
def reap (s : Quotas C Q) (c : C) : Except Q (Quotas C Q) :=
  match s.claim c with
  | some (.reaping q) =>
    if s.Live q then
      if (s.quota q).current = 0 then do
        let s' ← s.freeQuota q
        return s'.setClaim c none
      else .ok (s.setClaim c none)
    else .error q
  | _ => .ok s

/-- A step of a thread. `lookup`, `newQuota`, `createTask` and `register` are the stages of `task_new`,
`createRoot` is `Task::create` for the first tasks, `stop` the end of a thread that is killed. -/
inductive Event (C Q : Type)
  | charge (q : Q) (size : Size)
  | release (x : Charge C Q)
  | lookup (c : C) (d : QuotaDesc)
  | newQuota (c : C) (nq : Option Q)
  | createTask (c : C)
  | createRoot (c : C)
  | register (c : C) (x : Charge C Q) (no chief : Nat)
  | destroy (c : C) (x : Charge C Q)
  | reap (c : C)
  | stop (c : C)

/-- When a step can be taken. An allocation is charged to the quota of a task, of one that is being made, or
to the root; only what was charged is released; a task goes after its threads. -/
def Event.Enabled (taskOf : C → Nat) (s : Quotas C Q) : Event C Q → Prop
  | .charge q _ => q = s.root ∨ ∃ x ∈ s.charges, x.quota = q ∧
      ((∃ no chief, x.payee = .task no chief) ∨ ∃ c, x.payee = .making c)
  | .release x => x ∈ s.charges ∧ (x.payee = .object ∨ (∃ c, x.payee = .making c) ∨
      ∃ no chief, x.payee = .task no chief ∧ ∀ c, taskOf c = no → s.claim c = none)
  | .lookup c _ => s.claim c = none
  | .newQuota c nq => (∃ q d, s.claim c = some (.asked q d)) ∧ ∀ n, nq = some n → ¬ s.Live n
  | .createTask c => ∃ q, s.claim c = some (.own q) ∨ s.claim c = some (.shared q) ∨
      s.claim c = some (.fresh q)
  | .createRoot _ => True
  | .register c x _ _ => x ∈ s.charges ∧ x.payee = .making c
  | .destroy c x => x ∈ s.charges ∧ x.payee = .object ∧ s.claim c = none
  | .reap c => ∃ q, s.claim c = some (.reaping q)
  | .stop _ => True

def step (taskOf : C → Nat) (s : Quotas C Q) : Event C Q → Except Q (Quotas C Q)
  | .charge q size => s.charge q size .object
  | .release x => s.release x
  | .lookup c d => .ok (s.setClaim c (s.lookup (taskOf c) d))
  | .newQuota c nq => s.newQuota c nq
  | .createTask c => s.createTask c
  | .createRoot c => s.charge s.root s.taskSize (.making c)
  | .register _ x no chief => s.register x no chief
  | .destroy c x => s.destroy c x
  | .reap c => s.reap c
  | .stop c => .ok (s.setClaim c none)

end Quotas

end L4env.Fiasco
