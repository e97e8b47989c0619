import L4env.Fiasco.Semaphore

/-!
# Returns of `block_locked`

A thread that sleeps at a semaphore goes on after a wakeup, a timeout, the end of the semaphore or
`thread_ex_regs`. In runs in which no thread goes to sleep with a timeout of zero and no sleeping thread
is cancelled, `block_locked` leaves nothing of the sleep behind, whichever way it returns. The counter
is in user memory: user-level code may write any value to it.
-/

namespace L4env.Fiasco

/-! ## Timeouts -/

/-- `L4_timeout`: 16 bits. -/
structure L4Timeout where
  raw : BitVec 16

namespace L4Timeout

def man (t : L4Timeout) : Nat := (t.raw &&& 0x3ff).toNat

def exp (t : L4Timeout) : Nat := ((t.raw &&& 0x7c00) >>> 10).toNat

def absExp (t : L4Timeout) : Nat := ((t.raw >>> 11) &&& 0xf).toNat

def absClock (t : L4Timeout) : Bool := t.raw &&& 0x0400 != 0

def isAbsolute (t : L4Timeout) : Bool := t.raw &&& 0x8000 != 0

def isNever (t : L4Timeout) : Bool := t.raw == 0

def microsecsRel (t : L4Timeout) (clock : BitVec 64) : BitVec 64 :=
  if t.man = 0 then 0 else clock + BitVec.ofNat 64 t.man <<< t.exp

def microsecsAbs (t : L4Timeout) (clock : BitVec 64) : BitVec 64 :=
  let e := t.absExp
  let timeout := clock &&& ~~~(1#64 <<< (e + 10) - 1) ||| BitVec.ofNat 64 t.man <<< e
  let timeout :=
    if ((clock >>> (e + 10) &&& 1) != 0) != t.absClock then timeout + 1#64 <<< (e + 10) else timeout
  if timeout < clock then 0 else timeout

/-- The time a timeout ends, 0 for a timeout that is over already. -/
def microsecs (t : L4Timeout) (clock : BitVec 64) : BitVec 64 :=
  if t.isAbsolute then t.microsecsAbs clock else t.microsecsRel clock

/-- What `block_locked` makes of a timeout. -/
def semTimeout (t : L4Timeout) (clock : BitVec 64) : SemTimeout :=
  if t.isNever then .never else if t.microsecs clock = 0 then .zero else .finite

end L4Timeout

namespace Semaphore

variable {T : Type} [DecidableEq T] {s s' : Semaphore T} {t u : T}

/-! ## Steps -/

/-- A kernel section that works on the semaphore, or a write to its counter. -/
inductive SemEvent (T : Type) where
  | count (counter : Int)
  | sleep (t : T) (fault : Bool) (prio : Nat) (timeout : L4Timeout) (clock : BitVec 64)
      (broken : List (T × Nat))
  | resume (t : T)
  | expire (t : T)
  | wakeup (fault : Bool)
  | destroy
  /-- `Thread::initialize` by `thread_ex_regs`, with the flag `no_cancel` -/
  | exRegs (t : T) (noCancel : Bool)

/-- The thread sleeps in `schedule`, or goes on. -/
def afterSleep : Option SemResult → Pc
  | none => .blocked
  | some _ => .idle

/-- An event, where it can happen, with the return of `block_locked` if there is one. A capability for
the semaphore is only found until its end. -/
def event (s : Semaphore T) : SemEvent T → Option (Option (T × SemResult) × Semaphore T)
  | .count counter => some (none, { s with counter := counter })
  | .sleep t fault prio timeout clock broken =>
    if s.valid ∧ s.pc t = .idle then
      let r := s.blockLocked t fault prio (timeout.semTimeout clock) broken
      some (r.1.map (t, ·), r.2.setPc t (afterSleep r.1))
    else none
  | .resume t =>
    if s.pc t = .blocked ∧ s.ready t = true then
      let r := s.afterSchedule t
      some (some (t, r.1), r.2.setPc t .idle)
    else none
  | .expire t =>
    if s.timeoutSet t then
      some (none, { s with
        timeoutSet := Function.update s.timeoutSet t false
        timeoutHit := Function.update s.timeoutHit t true
        ready := Function.update s.ready t true })
    else none
  | .wakeup fault => if s.valid then some (none, s.wakeupLocked fault) else none
  | .destroy => some (none, s.destroyed)
  | .exRegs t noCancel =>
    some (none, if noCancel then s else { s with ready := Function.update s.ready t true })

/-! ## Invariant -/

/-- The thread is linked in the list of the semaphore. -/
def Queued (s : Semaphore T) (t : T) : Prop := t ∈ s.queue.map Prod.fst

instance (s : Semaphore T) (t : T) : Decidable (s.Queued t) := inferInstanceAs (Decidable (t ∈ _))

/-- A thread that has left `block_locked`. -/
structure Settled (s : Semaphore T) (t : T) : Prop where
  ready : s.ready t = true
  notQueued : ¬s.Queued t
  notArmed : s.timeoutSet t = false
  flag : s.queue ≠ [] → s.flags = true

/-- What holds between kernel sections: a sleeping thread is in the list until its timeout hits or it is
taken out and woken up. -/
structure Waits (s : Semaphore T) : Prop where
  flags : s.queue ≠ [] → s.flags = true
  ended : s.valid = false → s.queue = []
  sleeps : ∀ t, s.Queued t → s.pc t = .blocked
  hit : ∀ t, s.Queued t → s.ready t = true → s.timeoutHit t = true
  disarmed : ∀ t, s.Queued t → s.timeoutHit t = true → s.timeoutSet t = false
  out : ∀ t, ¬s.Queued t → s.ready t = true ∧ s.timeoutSet t = false

/-- The condition of an event: a thread that is put into the list has no timeout of zero, and a thread
in the list whose timeout has not hit is not cancelled. -/
def EventFits (s : Semaphore T) : SemEvent T → Prop
  | .sleep _ fault _ timeout clock _ =>
    fault = true ∨ smword (s.counter + 1) ≠ 0 ∨ timeout.semTimeout clock ≠ .zero
  | .exRegs t noCancel => noCancel = true ∨ (s.Queued t → s.timeoutHit t = true)
  | _ => True

/-! ## The list -/

omit [DecidableEq T] in
theorem queue_ne_nil (h : s.Queued t) : s.queue ≠ [] := fun hnil => by
  rw [Queued, hnil] at h
  cases h

/-! ## Kernel sections -/

/-- A section that leaves the list and the threads alone. -/
structure Untouched (s s' : Semaphore T) : Prop where
  queue : s'.queue = s.queue
  pc : s'.pc = s.pc
  ready : s'.ready = s.ready
  timeoutSet : s'.timeoutSet = s.timeoutSet
  timeoutHit : s'.timeoutHit = s.timeoutHit
  valid : s'.valid = s.valid
  flags : s'.queue ≠ [] → s'.flags = true

omit [DecidableEq T] in
theorem Waits.untouched (h : s.Waits) (hs : Untouched s s') : s'.Waits := by
  obtain ⟨hqueue, hpc, hready, hset, hhit, hvalid, hflags⟩ := hs
  refine ⟨hflags, ?_, ?_, ?_, ?_, ?_⟩
  · rw [hvalid, hqueue]
    exact h.ended
  all_goals simp only [Queued, hqueue, hpc, hready, hset, hhit]
  · exact h.sleeps
  · exact h.hit
  · exact h.disarmed
  · exact h.out

omit [DecidableEq T] in
theorem Waits.settled (h : s.Waits) (ht : ¬s.Queued t) : s.Settled t :=
  ⟨(h.out t ht).1, ht, (h.out t ht).2, h.flags⟩

/-- A thread that is not in the list goes on in user mode. -/
theorem Waits.idle (h : s.Waits) (ht : ¬s.Queued t) : (s.setPc t .idle).Waits := by
  refine ⟨h.flags, h.ended, fun u hu => ?_, h.hit, h.disarmed, h.out⟩
  have hne : u ≠ t := fun heq => ht (heq ▸ hu)
  exact (Function.update_of_ne hne ..).trans (h.sleeps u hu)

/-- `block_locked` returns before the thread is put into the list. -/
theorem blockLocked_returns (t : T) {fault : Bool} (prio : Nat) (timeout : SemTimeout)
    (broken : List (T × Nat)) (h : fault = true ∨ smword (s.counter + 1) ≠ 0)
    (hflags : s.queue ≠ [] → s.flags = true) :
    ∃ r, (s.blockLocked t fault prio timeout broken).1 = some r ∧
      Untouched s (s.blockLocked t fault prio timeout broken).2 := by
  cases fault with
  | true => exact ⟨.invalid, rfl, rfl, rfl, rfl, rfl, rfl, rfl, hflags⟩
  | false =>
    have hcnt : smword (s.counter + 1) ≠ 0 := h.resolve_left nofun
    refine ⟨.ok, by simp [blockLocked, addCounter, hcnt], ?_⟩
    cases hq : s.queue with
    | nil => constructor <;> simp [blockLocked, addCounter, hcnt, hq]
    | cons e l => constructor <;> simp [blockLocked, addCounter, hcnt, hq]

/-- A thread is put to sleep. -/
structure Asleep (s : Semaphore T) (t : T) (s' : Semaphore T) : Prop where
  flags : s'.flags = true
  valid : s'.valid = s.valid
  pc : s'.pc = s.pc
  queued : ∀ u, s'.Queued u ↔ u = t ∨ s.Queued u
  ready : s'.ready t = false
  notHit : s'.timeoutHit t = false
  other : ∀ u, u ≠ t → s'.ready u = s.ready u ∧ s'.timeoutSet u = s.timeoutSet u ∧
    s'.timeoutHit u = s.timeoutHit u

theorem blockLocked_sleeps (prio : Nat) {timeout : SemTimeout} (broken : List (T × Nat))
    (ht : ¬s.Queued t) (hcnt : smword (s.counter + 1) = 0) (htimeout : timeout ≠ .zero) :
    (s.blockLocked t false prio timeout broken).1 = none ∧
      Asleep s t (s.blockLocked t false prio timeout broken).2 := by
  have hqueued := fun u => @mem_senderEnqueue _ _ t u s.queue prio broken ht
  cases timeout with
  | zero => exact absurd rfl htimeout
  | never =>
    refine ⟨by simp [blockLocked, addCounter, hcnt], ?_⟩
    constructor <;> simp +contextual [blockLocked, addCounter, hcnt, Queued, hqueued]
  | finite =>
    refine ⟨by simp [blockLocked, addCounter, hcnt], ?_⟩
    constructor <;> simp +contextual [blockLocked, addCounter, hcnt, Queued, hqueued]

theorem Waits.asleep (h : s.Waits) (hvalid : s.valid = true) (hs : Asleep s t s') :
    (s'.setPc t .blocked).Waits := by
  have hpc (u : T) (hu : u ≠ t) : (s'.setPc t .blocked).pc u = s.pc u :=
    (Function.update_of_ne hu ..).trans (congrFun hs.pc u)
  refine ⟨fun _ => hs.flags, fun hv => ?_, fun u hu => ?_, fun u hu hready => ?_, fun u hu hhit => ?_,
    fun u hu => ?_⟩
  · cases (hs.valid.symm.trans hv).symm.trans hvalid
  · by_cases hut : u = t
    · rw [hut]
      exact Function.update_self ..
    · exact (hpc u hut).trans (h.sleeps u (((hs.queued u).mp hu).resolve_left hut))
  · have hut : u ≠ t := fun heq => by
      rw [heq] at hready
      cases hs.ready.symm.trans hready
    obtain ⟨hr, -, hhit⟩ := hs.other u hut
    exact hhit.trans (h.hit u (((hs.queued u).mp hu).resolve_left hut) (hr.symm.trans hready))
  · have hut : u ≠ t := fun heq => by
      rw [heq] at hhit
      cases hs.notHit.symm.trans hhit
    obtain ⟨-, hset, hh⟩ := hs.other u hut
    exact hset.trans (h.disarmed u (((hs.queued u).mp hu).resolve_left hut) (hh.symm.trans hhit))
  · have hut : u ≠ t := fun heq => hu ((hs.queued u).mpr (.inl heq))
    obtain ⟨hr, hset, -⟩ := hs.other u hut
    obtain ⟨hr₀, hset₀⟩ := h.out u fun hq => hu ((hs.queued u).mpr (.inr hq))
    exact ⟨hr.trans hr₀, hset.trans hset₀⟩

/-- A thread is taken out of the list and is ready. -/
structure Taken (s : Semaphore T) (t : T) (s' : Semaphore T) : Prop where
  flags : s'.queue ≠ [] → s'.flags = true
  valid : s'.valid = s.valid
  pc : s'.pc = s.pc
  queued : ∀ u, s'.Queued u ↔ u ≠ t ∧ s.Queued u
  ready : s'.ready t = true
  notArmed : s'.timeoutSet t = false
  other : ∀ u, u ≠ t → s'.ready u = s.ready u ∧ s'.timeoutSet u = s.timeoutSet u ∧
    s'.timeoutHit u = s.timeoutHit u

theorem Waits.taken (h : s.Waits) (hs : Taken s t s') : s'.Waits := by
  refine ⟨hs.flags, fun hv => ?_, fun u hu => ?_, fun u hu hready => ?_, fun u hu hhit => ?_,
    fun u hu => ?_⟩
  · have hnil := h.ended (hs.valid.symm.trans hv)
    refine List.eq_nil_iff_forall_not_mem.mpr fun e he => ?_
    have hq := ((hs.queued e.1).mp (List.mem_map_of_mem he)).2
    exact queue_ne_nil hq hnil
  · rw [hs.pc]
    exact h.sleeps u ((hs.queued u).mp hu).2
  · obtain ⟨hut, hq⟩ := (hs.queued u).mp hu
    obtain ⟨hr, -, hhit⟩ := hs.other u hut
    exact hhit.trans (h.hit u hq (hr.symm.trans hready))
  · obtain ⟨hut, hq⟩ := (hs.queued u).mp hu
    obtain ⟨-, hset, hh⟩ := hs.other u hut
    exact hset.trans (h.disarmed u hq (hh.symm.trans hhit))
  · by_cases hut : u = t
    · rw [hut]
      exact ⟨hs.ready, hs.notArmed⟩
    · obtain ⟨hr, hset, -⟩ := hs.other u hut
      obtain ⟨hr₀, hset₀⟩ := h.out u fun hq => hu ((hs.queued u).mpr ⟨hut, hq⟩)
      exact ⟨hr.trans hr₀, hset.trans hset₀⟩

/-- A thread that runs again has been taken out of the list, or its timeout has hit. -/
theorem Waits.afterSchedule (h : s.Waits) (hready : s.ready t = true) :
    (s.afterSchedule t).2.Waits ∧ ¬(s.afterSchedule t).2.Queued t := by
  by_cases hq : s.Queued t
  · have hhit := h.hit t hq hready
    have hset := h.disarmed t hq hhit
    have hvalid : s.valid = true := Bool.not_eq_false _ ▸ fun hv => queue_ne_nil hq (h.ended hv)
    have heq : (s.afterSchedule t).2 = { s with queue := senderDequeue s.queue t } := by
      have hmem : t ∈ s.queue.map Prod.fst := hq
      simp only [Semaphore.afterSchedule, hvalid, hmem, hhit, Bool.not_true, and_self, if_true,
        Bool.false_eq_true, if_false]
    have htaken : Taken s t (s.afterSchedule t).2 := by
      rw [heq]
      refine ⟨fun _ => h.flags (queue_ne_nil hq), rfl, rfl, fun u => mem_senderDequeue, hready, hset,
        fun _ _ => ⟨rfl, rfl, rfl⟩⟩
    exact ⟨h.taken htaken, fun hu => ((htaken.queued t).mp hu).1 rfl⟩
  · have heq : (s.afterSchedule t).2 = s := by
      rw [Semaphore.afterSchedule]
      split
      · rfl
      · rw [if_neg fun hc => hq hc.1]
    rw [heq]
    exact ⟨h, hq⟩

theorem Waits.wakeupLocked (h : s.Waits) (fault : Bool) : (s.wakeupLocked fault).Waits := by
  cases fault with
  | true => exact h
  | false =>
    cases hq : s.queue with
    | nil =>
      refine h.untouched ?_
      constructor <;> simp [Semaphore.wakeupLocked, hq]
    | cons e l =>
      refine h.taken (t := e.1) ?_
      have hqueued := fun u => @mem_senderDequeue _ _ e.1 u s.queue
      constructor <;>
        simp +contextual [Semaphore.wakeupLocked, hq, Queued, Option.isSome_iff_ne_none] at hqueued ⊢
      exact hqueued

theorem Waits.destroyed (h : s.Waits) : s.destroyed.Waits := by
  refine ⟨fun hne => absurd rfl hne, fun _ => rfl, nofun, nofun, nofun, fun u _ => ?_⟩
  by_cases hq : u ∈ s.queue.map Prod.fst
  · simp [Semaphore.destroyed, hq]
  · obtain ⟨hready, hset⟩ := h.out u hq
    simp [Semaphore.destroyed, hready, hset]

theorem Waits.expire (h : s.Waits) (hset : s.timeoutSet t = true) :
    { s with
      timeoutSet := Function.update s.timeoutSet t false
      timeoutHit := Function.update s.timeoutHit t true
      ready := Function.update s.ready t true }.Waits := by
  have hq : s.Queued t := not_not.mp fun hq => by
    rw [(h.out t hq).2] at hset
    cases hset
  refine ⟨h.flags, h.ended, h.sleeps, fun u hu hready => ?_, fun u hu hhit => ?_, fun u hu => ?_⟩
  · by_cases hut : u = t
    · rw [hut]
      exact Function.update_self ..
    · simp only [Function.update_of_ne hut] at hready ⊢
      exact h.hit u hu hready
  · by_cases hut : u = t
    · rw [hut]
      exact Function.update_self ..
    · simp only [Function.update_of_ne hut] at hhit ⊢
      exact h.disarmed u hu hhit
  · have hut : u ≠ t := fun heq => hu (heq ▸ hq)
    simp only [Function.update_of_ne hut]
    exact h.out u hu

theorem Waits.exRegs (h : s.Waits) (hok : s.Queued t → s.timeoutHit t = true) :
    { s with ready := Function.update s.ready t true }.Waits := by
  refine ⟨h.flags, h.ended, h.sleeps, fun u hu hready => ?_, h.disarmed, fun u hu => ?_⟩
  · by_cases hut : u = t
    · rw [hut] at hu ⊢
      exact hok hu
    · exact h.hit u hu ((Function.update_of_ne hut ..).symm.trans hready)
  · by_cases hut : u = t
    · subst hut
      exact ⟨Function.update_self .., (h.out u hu).2⟩
    · exact ⟨(Function.update_of_ne hut ..).trans (h.out u hu).1, (h.out u hu).2⟩

/-! ## Runs -/

/-- What an event leaves. -/
theorem Waits.event (h : s.Waits) {e : SemEvent T} {r : Option (T × SemResult)} (hfits : EventFits s e)
    (hs : s.event e = some (r, s')) : s'.Waits ∧ ∀ t res, r = some (t, res) → s'.Settled t := by
  cases e with
  | count counter =>
    cases hs
    exact ⟨h.untouched ⟨rfl, rfl, rfl, rfl, rfl, rfl, h.flags⟩, nofun⟩
  | sleep t fault prio timeout clock broken =>
    simp only [Semaphore.event] at hs
    split at hs
    · rename_i hcan
      cases hs
      have hout : ¬s.Queued t := fun hq => by cases hcan.2.symm.trans (h.sleeps t hq)
      by_cases hret : fault = true ∨ smword (s.counter + 1) ≠ 0
      · obtain ⟨res, hres, hsame⟩ :=
          blockLocked_returns t prio (timeout.semTimeout clock) broken hret h.flags
        have hwaits := h.untouched hsame
        have hout' : ¬(s.blockLocked t fault prio (timeout.semTimeout clock) broken).2.Queued t := by
          rw [Queued, hsame.queue]
          exact hout
        rw [hres]
        refine ⟨hwaits.idle hout', fun u res' heq => ?_⟩
        cases heq
        exact (hwaits.idle hout').settled hout'
      · obtain ⟨hfault, hcnt⟩ := not_or.mp hret
        rw [Bool.not_eq_true] at hfault
        subst hfault
        obtain ⟨hres, hasleep⟩ := blockLocked_sleeps prio broken hout (not_not.mp hcnt)
          ((hfits.resolve_left nofun).resolve_left hcnt)
        rw [hres]
        exact ⟨h.asleep hcan.1 hasleep, nofun⟩
    · cases hs
  | resume t =>
    simp only [Semaphore.event] at hs
    split at hs
    · rename_i hcan
      cases hs
      obtain ⟨hwaits, hout⟩ := h.afterSchedule hcan.2
      refine ⟨hwaits.idle hout, fun u res heq => ?_⟩
      cases heq
      exact (hwaits.idle hout).settled hout
    · cases hs
  | expire t =>
    simp only [Semaphore.event] at hs
    split at hs
    · cases hs
      exact ⟨h.expire ‹_›, nofun⟩
    · cases hs
  | wakeup fault =>
    simp only [Semaphore.event] at hs
    split at hs
    · cases hs
      exact ⟨h.wakeupLocked fault, nofun⟩
    · cases hs
  | destroy =>
    cases hs
    exact ⟨h.destroyed, nofun⟩
  | exRegs t noCancel =>
    cases noCancel with
    | true =>
      cases hs
      exact ⟨h, nofun⟩
    | false =>
      cases hs
      exact ⟨h.exRegs (hfits.resolve_left nofun), nofun⟩

/-- A new semaphore: no thread is at it. -/
structure New (s : Semaphore T) : Prop where
  queue : s.queue = []
  ready : ∀ t, s.ready t = true
  timeoutSet : ∀ t, s.timeoutSet t = false

/-- The states of the runs in which the condition of each event holds. -/
inductive Serves : Semaphore T → Prop
  | new {s : Semaphore T} : New s → Serves s
  | event {s s' : Semaphore T} {r : Option (T × SemResult)} (e : SemEvent T) : Serves s →
    EventFits s e → s.event e = some (r, s') → Serves s'

theorem Serves.waits (h : Serves s) : s.Waits := by
  induction h with
  | @new s h =>
    have hout (t : T) : ¬s.Queued t := fun hq => queue_ne_nil hq h.queue
    exact ⟨fun hne => absurd h.queue hne, fun _ => h.queue, fun t hq => absurd hq (hout t),
      fun t hq => absurd hq (hout t), fun t hq => absurd hq (hout t),
      fun t _ => ⟨h.ready t, h.timeoutSet t⟩⟩
  | event e _ hfits hs ih => exact (ih.event hfits hs).1

/-- In every run in which no thread goes to sleep with a timeout of zero and no sleeping thread is
cancelled, a thread that returns from `block_locked` is ready, not in the list and without a timeout,
and the flag is set if threads are in the list. -/
theorem blockLocked_settles (h : Serves s) {e : SemEvent T} (hfits : EventFits s e) {res : SemResult}
    (hs : s.event e = some (some (t, res), s')) : s'.Settled t :=
  (h.waits.event hfits hs).2 t res rfl

/-- Two threads at a semaphore without units. -/
def twoThreads : Semaphore (Fin 2) where
  counter := -1
  flags := false
  queue := []
  valid := true
  pc _ := .idle
  ready _ := true
  timeoutSet _ := false
  timeoutHit _ := false

theorem blockLocked_settles_twoThreads :
    ∃ s s', twoThreads.event (.sleep 0 false 10 ⟨0⟩ 0 []) = some (none, s) ∧
      (s.event (.wakeup false)).bind (fun r => r.2.event (.resume 0)) = some (some (0, .retry), s') ∧
      s'.Settled 0 := by
  have hnew : Serves twoThreads := .new ⟨rfl, fun _ => rfl, fun _ => rfl⟩
  have hsleep : Serves _ := .event (.sleep 0 false 10 ⟨0⟩ 0 []) hnew (.inr (.inr nofun)) rfl
  have hwake : Serves _ := .event (.wakeup false) hsleep trivial rfl
  exact ⟨_, _, rfl, rfl, blockLocked_settles hwake (e := .resume 0) trivial rfl⟩

/-- A timeout of zero: `block_locked` returns, and the thread is in the list and not ready. A thread
that is cancelled by `thread_ex_regs` returns and is in the list, with its timeout armed. -/
theorem blockLocked_unsettled :
    (∃ s, twoThreads.event (.sleep 0 false 10 ⟨0x400⟩ 0 []) = some (some (0, .timeout), s) ∧
      s.ready 0 = false ∧ s.Queued 0) ∧
    ∃ s s', twoThreads.event (.sleep 0 false 10 ⟨0x401⟩ 0 []) = some (none, s) ∧
      (s.event (.exRegs 0 false)).bind (fun r => r.2.event (.resume 0)) =
        some (some (0, .retry), s') ∧ s'.Queued 0 ∧ s'.timeoutSet 0 = true :=
  ⟨⟨_, rfl, rfl, by decide⟩, _, _, rfl, rfl, by decide, rfl⟩

end Semaphore

end L4env.Fiasco
