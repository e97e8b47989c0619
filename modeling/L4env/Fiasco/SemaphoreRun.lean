import L4env.Fiasco.Semaphore

/-!
# Safety of user-level semaphores

The counter and the threads that hold or still try to get a unit add up to the initial count, less
the units lost in calls the kernel rejected.
-/

namespace L4env.Fiasco

/-- The number of units of the counter that a thread accounts for. -/
def Pc.units : Pc → Nat
  | .critical | .failed => 1
  | _ => 0

namespace Semaphore

variable {T : Type} [DecidableEq T] [Fintype T] {s s' : Semaphore T} {t : T} {N : Nat} {a : SemAct T}

/-! ## Units -/

def usedUnits (s : Semaphore T) : Nat := ∑ t, (s.pc t).units

/-- The threads between a successful down and their next up. -/
def holders (s : Semaphore T) : Finset T := {t | s.pc t = .critical}

theorem usedUnits_setPc (s : Semaphore T) (t : T) (pc : Pc) :
    (s.setPc t pc).usedUnits + (s.pc t).units = s.usedUnits + pc.units := by
  have hother : ∀ u ∈ Finset.univ.erase t, ((s.setPc t pc).pc u).units = (s.pc u).units := by
    intro u hu
    exact congrArg Pc.units (Function.update_of_ne (Finset.ne_of_mem_erase hu) _ _)
  unfold usedUnits
  rw [← Finset.add_sum_erase _ _ (Finset.mem_univ t), Finset.sum_congr rfl hother,
    ← Finset.add_sum_erase Finset.univ (fun u => (s.pc u).units) (Finset.mem_univ t)]
  simp only [setPc, Function.update_self]
  omega

omit [DecidableEq T] in
theorem holders_card_le (s : Semaphore T) : s.holders.card ≤ s.usedUnits := by
  rw [holders, Finset.card_filter]
  refine Finset.sum_le_sum fun t _ => ?_
  split
  · rename_i h
    rw [h]
    exact Nat.le_refl _
  · exact Nat.zero_le _

theorem holders_setPc {pc : Pc} (h : pc ≠ .critical) (s : Semaphore T) (t : T) :
    (s.setPc t pc).holders ⊆ s.holders := by
  intro u hu
  simp only [holders, Finset.mem_filter, Finset.mem_univ, true_and, setPc, Function.update_apply]
    at hu ⊢
  split at hu
  · exact absurd hu h
  · exact hu

/-! ## Steps -/

structure Inv (N : Nat) (s : Semaphore T) : Prop where
  units : ∃ lost : Nat, s.counter + s.usedUnits + lost = N
  holders : s.holders.card ≤ N
  range : -2 ^ 31 ≤ s.counter ∧ N < 2 ^ 31
  flags : s.queue ≠ [] → s.flags = true

/-- The conditions of a step: a decrement of the counter does not wrap, and `block_locked` finds the
counter at -1 or above. -/
def ActOk (s : Semaphore T) : SemAct T → Prop
  | .down _ => -2 ^ 31 < s.counter
  | .block _ fault _ _ _ => fault = true ∨ -1 ≤ s.counter
  | _ => True

theorem smword_eq {i : Int} (h : -2 ^ 31 ≤ i ∧ i < 2 ^ 31) : smword i = i :=
  Int.bmod_eq_of_le_mul_two (by omega) (by omega)

omit [DecidableEq T] in
theorem Inv.le (h : Inv N s) (t : T) : s.counter + (s.pc t).units ≤ N := by
  obtain ⟨lost, hunits⟩ := h.units
  have hle : (s.pc t).units ≤ s.usedUnits :=
    Finset.single_le_sum (f := fun t => (s.pc t).units) (fun _ _ => Nat.zero_le _)
      (Finset.mem_univ t)
  omega

/-- A thread goes on, and the units it accounts for change with the counter. -/
theorem Inv.setPc (h : Inv N s) {s₁ : Semaphore T} {pc : Pc} (lost : Nat) (hpc : s₁.pc = s.pc)
    (hunits : s₁.counter + pc.units + lost = s.counter + (s.pc t).units)
    (hrange : -2 ^ 31 ≤ s₁.counter) (hflags : s₁.queue ≠ [] → s₁.flags = true)
    (hcritical : pc = .critical → 0 ≤ s₁.counter) : Inv N (s₁.setPc t pc) := by
  obtain ⟨lost₀, hlost⟩ := h.units
  have hused : s₁.usedUnits = s.usedUnits := by rw [usedUnits, usedUnits, hpc]
  have hset := usedUnits_setPc s₁ t pc
  rw [hused, hpc] at hset
  have hsum : s₁.counter + (s₁.setPc t pc).usedUnits + (lost₀ + lost : Nat) = N := by
    push_cast
    omega
  refine ⟨⟨lost₀ + lost, hsum⟩, ?_, ⟨hrange, h.range.2⟩, hflags⟩
  by_cases hp : pc = .critical
  · have hle := holders_card_le (s₁.setPc t pc)
    have hpos := hcritical hp
    omega
  · have hsub := Finset.card_le_card (holders_setPc hp s₁ t)
    have hsame : s₁.holders = s.holders := by rw [Semaphore.holders, Semaphore.holders, hpc]
    rw [hsame] at hsub
    exact hsub.trans h.holders

omit [DecidableEq T] in
/-- A step that leaves the counter and the places of the threads alone. -/
theorem Inv.congr (h : Inv N s) (hcounter : s'.counter = s.counter) (hpc : s'.pc = s.pc)
    (hflags : s'.queue ≠ [] → s'.flags = true) : Inv N s' := by
  refine ⟨?_, ?_, ?_, hflags⟩
  · rw [hcounter, usedUnits, hpc]
    exact h.units
  · rw [Semaphore.holders, hpc]
    exact h.holders
  · rw [hcounter]
    exact h.range

omit [Fintype T] in
theorem senderDequeue_flags (h : s.queue ≠ [] → s.flags = true)
    (hne : senderDequeue s.queue t ≠ []) : s.flags = true := by
  refine h fun hnil => hne ?_
  rw [hnil]
  rfl

omit [Fintype T] in
/-- `block_locked` puts the thread to sleep, or its timeout is zero. -/
theorem blockLocked_sleep (s : Semaphore T) (t : T) (prio : Nat) (timeout : SemTimeout)
    (broken : List (T × Nat)) (hcnt : smword (s.counter + 1) = 0) :
    (afterBlock (s.blockLocked t false prio timeout broken).1).units = 0 ∧
    (s.blockLocked t false prio timeout broken).2.counter = 0 ∧
    (s.blockLocked t false prio timeout broken).2.pc = s.pc ∧
    (s.blockLocked t false prio timeout broken).2.flags = true := by
  cases timeout <;> simp [blockLocked, addCounter, hcnt, afterBlock, Pc.units]

omit [Fintype T] in
/-- `block_locked` takes the unit back and lets the thread go on. -/
theorem blockLocked_ok (s : Semaphore T) (t : T) (prio : Nat) (timeout : SemTimeout)
    (broken : List (T × Nat)) (hcnt : smword (s.counter + 1) ≠ 0) :
    (s.blockLocked t false prio timeout broken).1 = some .ok ∧
    (s.blockLocked t false prio timeout broken).2.counter = smword (smword (s.counter + 1) + -1) ∧
    (s.blockLocked t false prio timeout broken).2.pc = s.pc ∧
    ((s.blockLocked t false prio timeout broken).2.queue ≠ [] →
      (s.blockLocked t false prio timeout broken).2.flags = true) := by
  have hpos : (decide (smword (s.counter + 1) ≠ 0)).toNat > 0 := by simp [hcnt]
  cases hq : s.queue with
  | nil => simp [blockLocked, addCounter, hcnt, hq]
  | cons e l => simp [blockLocked, addCounter, hcnt, hq]

theorem Inv.block (h : Inv N s) {fault : Bool} {prio : Nat} {timeout : SemTimeout}
    {broken : List (T × Nat)} (hok : fault = true ∨ -1 ≤ s.counter) (hpc : s.pc t = .failed) :
    Inv N ((s.blockLocked t fault prio timeout broken).2.setPc t
      (afterBlock (s.blockLocked t fault prio timeout broken).1)) := by
  have hunits : (s.pc t).units = 1 := by rw [hpc]; rfl
  have hle := h.le t
  have hrange := h.range
  cases fault with
  | true =>
    refine h.setPc 1 rfl ?_ hrange.1 h.flags nofun
    rw [hunits]
    simp [blockLocked, afterBlock, Pc.units]
  | false =>
    have hcnt : -1 ≤ s.counter := hok.resolve_left nofun
    have hadd : smword (s.counter + 1) = s.counter + 1 := smword_eq (by omega)
    by_cases hzero : s.counter + 1 = 0
    · obtain ⟨hz, hc, hp, hf⟩ := blockLocked_sleep s t prio timeout broken (hadd.trans hzero)
      refine h.setPc 0 hp ?_ (by rw [hc]; decide) (fun _ => hf) fun hcr => ?_
      · rw [hc, hz, hunits]
        omega
      · rw [hcr] at hz
        cases hz
    · obtain ⟨hz, hc, hp, hf⟩ := blockLocked_ok s t prio timeout broken (by rw [hadd]; exact hzero)
      rw [hadd, smword_eq (by omega)] at hc
      rw [hz]
      refine h.setPc 0 hp ?_ (by omega) hf fun _ => by omega
      rw [hc, hunits]
      simp [afterBlock, Pc.units]

omit [Fintype T] in
theorem wakeupLocked_spec (s : Semaphore T) (fault : Bool) (h : s.queue ≠ [] → s.flags = true) :
    (s.wakeupLocked fault).counter = s.counter ∧ (s.wakeupLocked fault).pc = s.pc ∧
    ((s.wakeupLocked fault).queue ≠ [] → (s.wakeupLocked fault).flags = true) := by
  unfold wakeupLocked
  split
  · exact ⟨rfl, rfl, h⟩
  · split
    · rename_i hnone
      exact ⟨rfl, rfl, fun hne => absurd (List.head?_eq_none_iff.mp hnone) hne⟩
    · refine ⟨rfl, rfl, fun hne => ?_⟩
      obtain ⟨e, l, hl⟩ := List.exists_cons_of_ne_nil hne
      simp only at hl ⊢
      rw [hl]
      rfl

omit [Fintype T] in
theorem afterSchedule_spec (s : Semaphore T) (t : T) (h : s.queue ≠ [] → s.flags = true) :
    (afterBlock (some (s.afterSchedule t).1)).units = 0 ∧
    (s.afterSchedule t).2.counter = s.counter ∧ (s.afterSchedule t).2.pc = s.pc ∧
    ((s.afterSchedule t).2.queue ≠ [] → (s.afterSchedule t).2.flags = true) := by
  unfold afterSchedule
  split
  · exact ⟨rfl, rfl, rfl, h⟩
  · split
    · exact ⟨rfl, rfl, rfl, senderDequeue_flags h⟩
    · exact ⟨rfl, rfl, rfl, h⟩

/-- A thread goes on to a place where it accounts for no unit, and the counter stays. -/
theorem Inv.move (h : Inv N s) {s₁ : Semaphore T} {pc : Pc} (hpc : s₁.pc = s.pc)
    (hcounter : s₁.counter = s.counter) (hold : (s.pc t).units = 0) (hnew : pc.units = 0)
    (hflags : s₁.queue ≠ [] → s₁.flags = true) : Inv N (s₁.setPc t pc) := by
  refine h.setPc 0 hpc ?_ ?_ hflags fun hcr => ?_
  · rw [hcounter, hold, hnew, Nat.cast_zero, add_zero]
  · rw [hcounter]
    exact h.range.1
  · rw [hcr] at hnew
    cases hnew

theorem Inv.step (h : Inv N s) (hok : ActOk s a) (hs : s.exec a = some s') : Inv N s' := by
  have hrange := h.range
  cases a with
  | down t =>
    simp only [exec] at hs
    split at hs
    · rename_i hpc
      cases hs
      have hok : -2 ^ 31 < s.counter := hok
      have hle := h.le t
      have hunits : (s.pc t).units = 0 := by rcases hpc with hpc | hpc <;> rw [hpc] <;> rfl
      have hsub : smword (s.counter - 1) = s.counter - 1 := smword_eq (by omega)
      rw [hsub]
      split
      · exact h.setPc 0 rfl (by rw [hunits]; simp [Pc.units]) (by simp; omega) h.flags fun _ => ‹_›
      · exact h.setPc 0 rfl (by rw [hunits]; simp [Pc.units]) (by simp; omega) h.flags nofun
    · cases hs
  | block t fault prio timeout broken =>
    simp only [exec] at hs
    split at hs
    · cases hs
      exact h.block hok ‹_›
    · cases hs
  | resume t =>
    simp only [exec] at hs
    split at hs
    · rename_i hpc
      cases hs
      obtain ⟨hunits, hcounter, hsame, hflags⟩ := afterSchedule_spec s t h.flags
      exact h.move hsame hcounter (by rw [hpc.1]; rfl) hunits hflags
    · cases hs
  | expire t =>
    simp only [exec] at hs
    split at hs
    · cases hs
      exact h.congr rfl rfl h.flags
    · cases hs
  | up t =>
    simp only [exec] at hs
    split at hs
    · rename_i hpc
      cases hs
      have hunits : (s.pc t).units = 1 := by rw [hpc]; rfl
      have hle := h.le t
      have hadd : smword (s.counter + 1) = s.counter + 1 := smword_eq (by omega)
      rw [hadd]
      exact h.setPc 0 rfl (by rw [hunits]; simp [Pc.units]) (by simp; omega) h.flags nofun
    · cases hs
  | test t =>
    simp only [exec] at hs
    split at hs
    · rename_i hpc
      cases hs
      refine h.move rfl rfl (by rw [hpc]; rfl) ?_ h.flags
      split <;> rfl
    · cases hs
  | wakeup t fault =>
    simp only [exec] at hs
    split at hs
    · rename_i hpc
      cases hs
      obtain ⟨hcounter, hsame, hflags⟩ := wakeupLocked_spec s fault h.flags
      exact h.move hsame hcounter (by rw [hpc]; rfl) rfl hflags
    · cases hs
  | destroy =>
    cases hs
    exact h.congr rfl rfl fun hne => absurd rfl hne

/-! ## Runs -/

/-- A semaphore with `N` units and no thread at it. -/
structure Initial (N : Nat) (s : Semaphore T) : Prop where
  counter : s.counter = N
  lt : N < 2 ^ 31
  queue : s.queue = []
  pc : ∀ t, s.pc t = .idle

/-- The states of the runs in which the condition of each step holds. -/
inductive Reachable (N : Nat) : Semaphore T → Prop
  | initial {s : Semaphore T} : Initial N s → Reachable N s
  | step {s s' : Semaphore T} (a : SemAct T) : Reachable N s → ActOk s a → s.exec a = some s' →
    Reachable N s'

omit [DecidableEq T] in
theorem Initial.inv (h : Initial N s) : Inv N s := by
  have hused : s.usedUnits = 0 :=
    Finset.sum_eq_zero fun t _ => by rw [h.pc t]; rfl
  have hle := holders_card_le s
  have hlt := h.lt
  have hcounter := h.counter
  refine ⟨⟨0, ?_⟩, by omega, ⟨by omega, hlt⟩, fun hne => absurd h.queue hne⟩
  rw [hused, hcounter]
  rfl

theorem Reachable.inv (h : Reachable N s) : Inv N s := by
  induction h with
  | initial h => exact h.inv
  | step a _ hok hs ih => exact ih.step hok hs

/-- In every interleaving in which `block_locked` always finds the counter at -1 or above, at most
`N` threads are between a successful down and their next up. -/
theorem semaphore_safe (h : Reachable N s) : s.holders.card ≤ N := h.inv.holders

/-- Three threads at a semaphore with one unit. -/
def threeThreads : Semaphore (Fin 3) where
  counter := 1
  flags := false
  queue := []
  valid := true
  pc _ := .idle
  ready _ := true
  timeoutSet _ := false
  timeoutHit _ := false

theorem semaphore_safe_threeThreads :
    ∃ s, threeThreads.exec (.down 0) = some s ∧ s.pc 0 = .critical ∧ s.holders.card ≤ 1 := by
  have hinit : Initial 1 threeThreads := ⟨rfl, by decide, rfl, fun _ => rfl⟩
  refine ⟨_, rfl, rfl, semaphore_safe (N := 1) ?_⟩
  exact .step (.down 0) (.initial hinit) (show -2 ^ 31 < (1 : Int) by decide) rfl

/-- Two threads hold the one unit: the second and the third thread decrement the counter to -2 before
the second one enters the kernel, which finds that -1 is not 0. -/
theorem semaphore_unsafe : ∃ s, threeThreads.exec (.down 0) >>= (exec · (.down 1)) >>=
    (exec · (.down 2)) >>= (exec · (.block 1 false 0 .never [])) = some s ∧
    s.holders.card = 2 := ⟨_, rfl, by decide⟩


end Semaphore

end L4env.Fiasco
