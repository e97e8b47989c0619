import L4env.Util.Count
import L4env.L4semaphore.SemThread

/-!
# The units of an L4Env semaphore

The initial count and the up calls on one side, the successful down calls, the threads that have
decremented the counter and still wait, and the counter on the other side, balance in every run. The
releases on their way to the semaphore thread and the pending ones balance with the threads that
wait, but for the decrements undone too late and the releases that found nobody to wake up.
-/

namespace L4env.L4semaphore

/-- The number of threads that have decremented the counter and did not get the semaphore yet. -/
def Pc.waits : Pc → Nat
  | .wantBlock _ | .waiting _ | .timedOut => 1
  | _ => 0

/-- The number of releases on the way to the semaphore thread. -/
def Pc.releases : Pc → Nat
  | .wantRelease => 1
  | _ => 0

def Serving.releases {T : Type} : Serving T → Nat
  | .release _ | .search => 1
  | _ => 0

namespace State

variable {T : Type} [DecidableEq T]

/-! ## Work of the semaphore thread -/

/-- The semaphore thread wakes a thread up when it goes on. -/
def wakes (s : State T) : Prop :=
  match s.serving with
  | .block _ => 0 < s.pending
  | .blockTimed t => 0 < s.pending ∧ ∃ timed, s.pc t = .waiting timed
  | .search => ∃ wp t timed, s.wq.queue = some wp ∧ s.wq.thread wp = some t ∧
      s.pc t = .waiting timed
  | _ => False

/-- What a step of the semaphore thread does to the threads and the numbers. -/
inductive Handled (s s' : State T) : Prop
  | wake (t : T) (timed : Bool) (hwakes : s.wakes) (hpc : s.pc t = .waiting timed)
    (hpc' : s'.pc = Function.update s.pc t .idle)
    (htally : s'.tally = { s.tally with downs := s.tally.downs + 1 })
    (hpending : 0 ≤ s.pending → 0 ≤ s'.pending)
    (hreleases : s'.serving.releases + s'.pending + 1 = s.serving.releases + s.pending)
    (hserving : s'.serving = .idle)
  | other (hpc : s'.pc = s.pc) (htally : s'.tally = s.tally) (hpending : s'.pending = s.pending)
    (hreleases : s'.serving.releases = s.serving.releases)
    (hserving : s'.serving = .idle ∨ s'.serving = .search)
  | drop (hpc : s'.pc = s.pc) (htally : s'.tally = { s.tally with dropped := s.tally.dropped + 1 })
    (hpending : s'.pending = s.pending) (hserving : s.serving = .search)
    (hserving' : s'.serving = .idle)
  | release (t : T) (hserving : s.serving = .release t)
    (hpc : s'.pc = Function.update s.pc t .idle) (htally : s'.tally = s.tally)
    (hpending : s'.serving = .idle ∧ s'.pending = int (s.pending + 1) ∨
      s'.serving = .search ∧ s'.pending = s.pending)

variable {s s' : State T} {t : T} {n : Nat} {a : Act T} {prio : Int}

theorem wakeupThread_cases {nowait : Bool} {r : Bool × State T}
    (h : s.wakeupThread t nowait = some r) :
    (∃ timed, s.pc t = .waiting timed ∧ r = (true, s.gotSemaphore t)) ∨
    (∀ timed, s.pc t ≠ .waiting timed) ∧ nowait = true ∧ r = (false, s) := by
  rw [wakeupThread] at h
  split at h
  · rename_i timed hpc
    cases h
    exact .inl ⟨timed, hpc, rfl⟩
  · rename_i hpc
    split at h
    · cases h
      exact .inr ⟨hpc, ‹_›, rfl⟩
    · cases h

theorem handled_block (hserving : s.serving = .block t)
    (h : { s with serving := .idle }.block t prio = some s') :
    Handled s s' ∧ s'.counter = s.counter := by
  rw [block] at h
  split at h
  · rename_i hpending
    obtain ⟨r, hwake, rfl⟩ := Option.map_eq_some_iff.mp h
    obtain ⟨timed, hpc, rfl⟩ | ⟨-, hnowait, -⟩ := wakeupThread_cases hwake
    · refine ⟨.wake t timed ?_ hpc rfl rfl (fun _ => ?_) ?_ rfl, rfl⟩
      · rw [wakes, hserving]
        exact hpending
      · exact Int.sub_nonneg_of_le hpending
      · rw [hserving]
        simp [gotSemaphore, setPc, Serving.releases]
    · cases hnowait
  · obtain ⟨r, -, rfl⟩ := Option.map_eq_some_iff.mp h
    exact ⟨.other rfl rfl rfl (by rw [hserving]; rfl) (.inl rfl), rfl⟩

theorem handled_blockTimed (hserving : s.serving = .blockTimed t)
    (h : { s with serving := .idle }.blockTimed t prio = some s') :
    Handled s s' ∧ s'.counter = s.counter := by
  rw [blockTimed] at h
  split at h
  · rename_i hpending
    obtain ⟨r, hwake, rfl⟩ := Option.map_eq_some_iff.mp h
    obtain ⟨timed, hpc, rfl⟩ | ⟨-, -, rfl⟩ := wakeupThread_cases hwake
    · refine ⟨.wake t timed ?_ hpc rfl rfl (fun _ => ?_) ?_ rfl, rfl⟩
      · rw [wakes, hserving]
        exact ⟨hpending, timed, hpc⟩
      · exact Int.sub_nonneg_of_le hpending
      · rw [hserving]
        simp [gotSemaphore, setPc, Serving.releases]
    · exact ⟨.other rfl rfl rfl (by rw [hserving]; rfl) (.inl rfl), rfl⟩
  · obtain ⟨r, -, rfl⟩ := Option.map_eq_some_iff.mp h
    exact ⟨.other rfl rfl rfl (by rw [hserving]; rfl) (.inl rfl), rfl⟩

theorem handled_search (hserving : s.serving = .search) (h : s.search = some s') :
    Handled s s' ∧ s'.counter = s.counter := by
  rw [search] at h
  split at h
  · cases h
    exact ⟨.drop rfl rfl rfl hserving rfl, rfl⟩
  · rename_i wp hqueue
    simp only at h
    split at h
    · cases h
      exact ⟨.other rfl rfl rfl rfl (.inr hserving), rfl⟩
    · rename_i t hthread
      split at h
      · obtain ⟨r, hwake, rfl⟩ := Option.map_eq_some_iff.mp h
        obtain ⟨timed, hpc, rfl⟩ | ⟨-, -, rfl⟩ := wakeupThread_cases hwake
        · refine ⟨.wake t timed ?_ hpc rfl rfl id ?_ rfl, rfl⟩
          · rw [wakes, hserving]
            exact ⟨wp, t, timed, hqueue, hthread, hpc⟩
          · rw [hserving]
            simp [gotSemaphore, setPc, setMark, Serving.releases]
            omega
        · exact ⟨.other rfl rfl rfl rfl (.inr hserving), rfl⟩
      · obtain ⟨r, hwake, rfl⟩ := Option.map_eq_some_iff.mp h
        obtain ⟨timed, hpc, rfl⟩ | ⟨-, hnowait, -⟩ := wakeupThread_cases hwake
        · refine ⟨.wake t timed ?_ hpc rfl rfl id ?_ rfl, rfl⟩
          · rw [wakes, hserving]
            exact ⟨wp, t, timed, hqueue, hthread, hpc⟩
          · rw [hserving]
            simp [gotSemaphore, setPc, Serving.releases]
            omega
        · cases hnowait

theorem handled_release (hserving : s.serving = .release t) :
    Handled s (s.release t) ∧ (s.release t).counter = s.counter := by
  rw [State.release]
  split
  · exact ⟨.release t hserving rfl rfl (.inl ⟨rfl, rfl⟩), rfl⟩
  · exact ⟨.release t hserving rfl rfl (.inr ⟨rfl, rfl⟩), rfl⟩

theorem handled_releaseTimed (hserving : s.serving = .releaseTimed t) :
    Handled s ({ s with serving := .idle }.releaseTimed t) ∧
      ({ s with serving := .idle }.releaseTimed t).counter = s.counter := by
  rw [State.releaseTimed]
  split
  · exact ⟨.other rfl rfl rfl (by rw [hserving]; rfl) (.inl rfl), rfl⟩
  · exact ⟨.other rfl rfl rfl (by rw [hserving]; rfl) (.inl rfl), rfl⟩

theorem handle_handled (h : s.handle prio = some s') :
    Handled s s' ∧ s'.counter = s.counter := by
  rw [handle] at h
  split at h
  · cases h
  · exact handled_block ‹_› h
  · exact handled_blockTimed ‹_› h
  · cases h
    exact handled_release ‹_›
  · exact handled_search ‹_› h
  · cases h
    exact handled_releaseTimed ‹_›

/-! ## Balance -/

variable [Fintype T]

def waiters (s : State T) : Nat := ∑ t, (s.pc t).waits

/-- The releases that the semaphore thread has not received yet. -/
def sentReleases (s : State T) : Nat := ∑ t, (s.pc t).releases

structure Balance (n : Nat) (s : State T) : Prop where
  units : s.counter + s.waiters + s.tally.downs = n + s.tally.ups
  releases : s.sentReleases + s.serving.releases + s.pending + s.tally.dropped =
    s.waiters + min s.counter 0 + s.tally.late
  range : -2 ^ 31 ≤ s.counter ∧ s.counter < 2 ^ 31
  pending : 0 ≤ s.pending
  reply : ∀ t, s.serving = .release t → s.pc t = .waitReply

/-- The counter and the number of pending wakeups do not wrap in the step. -/
def NoWrap (s : State T) : Act T → Prop
  | .down _ _ => -2 ^ 31 < s.counter
  | .up _ | .giveBack _ => s.counter < 2 ^ 31 - 1
  | .handle _ => ∀ t, s.serving = .release t → s.pending < 2 ^ 31 - 1
  | _ => True

/-- The semaphore thread wakes nobody up while a decrement that was undone too late has left a
release behind. -/
def Covered (s : State T) : Act T → Prop
  | .handle _ => s.wakes → s.tally.late ≤ s.tally.dropped
  | _ => True

theorem waiters_update {pc : Pc} (hpc : s'.pc = Function.update s.pc t pc) :
    s'.waiters + (s.pc t).waits = s.waiters + pc.waits := by
  rw [waiters, hpc]
  exact sum_update Pc.waits s.pc t pc

theorem sentReleases_update {pc : Pc} (hpc : s'.pc = Function.update s.pc t pc) :
    s'.sentReleases + (s.pc t).releases = s.sentReleases + pc.releases := by
  rw [sentReleases, hpc]
  exact sum_update Pc.releases s.pc t pc

theorem int_eq {i : Int} (h : -2 ^ 31 ≤ i ∧ i < 2 ^ 31) : int i = i :=
  Int.bmod_eq_of_le_mul_two (by omega) (by omega)

/-- The thread `t` goes on to `pc`, and the numbers change with it. -/
theorem Balance.move {pc : Pc} (h : Balance n s) (hpc : s'.pc = Function.update s.pc t pc)
    (hunits : s'.counter + pc.waits + s'.tally.downs + s.tally.ups =
      s.counter + (s.pc t).waits + s.tally.downs + s'.tally.ups)
    (hreleases : pc.releases + s'.serving.releases + s'.pending + s'.tally.dropped +
        (s.pc t).waits + min s.counter 0 + s.tally.late =
      (s.pc t).releases + s.serving.releases + s.pending + s.tally.dropped + pc.waits +
        min s'.counter 0 + s'.tally.late)
    (hrange : -2 ^ 31 ≤ s'.counter ∧ s'.counter < 2 ^ 31) (hpending : 0 ≤ s'.pending)
    (hreply : ∀ u, s'.serving = .release u → s'.pc u = .waitReply) : Balance n s' := by
  have hwaiters := waiters_update hpc
  have hsent := sentReleases_update hpc
  have hu := h.units
  have hr := h.releases
  exact ⟨by omega, by omega, hrange, hpending, hreply⟩

omit [DecidableEq T] in
/-- No thread moves. -/
theorem Balance.stay (h : Balance n s) (hpc : s'.pc = s.pc) (hcounter : s'.counter = s.counter)
    (htally : s'.tally.ups = s.tally.ups ∧ s'.tally.downs = s.tally.downs ∧
      s'.tally.late = s.tally.late)
    (hreleases : s'.serving.releases + s'.pending + s'.tally.dropped =
      s.serving.releases + s.pending + s.tally.dropped)
    (hpending : 0 ≤ s'.pending) (hreply : ∀ u, s'.serving ≠ .release u) : Balance n s' := by
  have hu := h.units
  have hr := h.releases
  have hwaiters : s'.waiters = s.waiters := by rw [waiters, waiters, hpc]
  have hsent : s'.sentReleases = s.sentReleases := by rw [sentReleases, sentReleases, hpc]
  refine ⟨?_, ?_, hcounter ▸ h.range, hpending, fun u hserving => absurd hserving (hreply u)⟩
  · rw [hwaiters, hcounter, htally.1, htally.2.1]
    exact hu
  · rw [hwaiters, hsent, hcounter, htally.2.2]
    omega

/-- A thread that the semaphore thread does not work for moves on. -/
theorem Balance.reply_update (h : Balance n s) (hpc : s.pc t ≠ .waitReply) (pc : Pc) (u : T)
    (hserving : s.serving = .release u) : Function.update s.pc t pc u = .waitReply := by
  have hu := h.reply u hserving
  have hne : u ≠ t := fun e => hpc (e ▸ hu)
  rwa [Function.update_of_ne hne]

theorem Balance.handled (h : Balance n s) (hs : Handled s s') (hcounter : s'.counter = s.counter)
    (hok : ∀ t, s.serving = .release t → s.pending < 2 ^ 31 - 1) : Balance n s' := by
  have hpending := h.pending
  cases hs with
  | wake t timed hwakes hpc hpc' htally hpending' hreleases hserving =>
    refine h.move hpc' ?_ ?_ (hcounter ▸ h.range) (hpending' hpending) ?_
    · rw [hcounter, htally, hpc]
      simp only [Pc.waits]
      omega
    · rw [hcounter, htally, hpc]
      simp only [Pc.waits, Pc.releases]
      omega
    · rw [hserving]
      exact nofun
  | other hpc htally hpending' hreleases hserving =>
    refine h.stay hpc hcounter (by rw [htally]; exact ⟨rfl, rfl, rfl⟩) ?_ (by omega) ?_
    · rw [htally, hreleases, hpending']
    · rintro u hrelease
      rcases hserving with hserving | hserving <;> rw [hserving] at hrelease <;> cases hrelease
  | drop hpc htally hpending' hserving hserving' =>
    refine h.stay hpc hcounter (by rw [htally]; exact ⟨rfl, rfl, rfl⟩) ?_ (by omega) ?_
    · rw [htally, hserving, hserving', hpending']
      simp only [Serving.releases]
      omega
    · rw [hserving']
      exact nofun
  | release t hserving hpc htally hpending' =>
    have hreply := h.reply t hserving
    have hlt := hok t hserving
    have hint : int (s.pending + 1) = s.pending + 1 := int_eq (by omega)
    rw [hint] at hpending'
    refine h.move hpc ?_ ?_ (hcounter ▸ h.range) ?_ ?_
    · rw [hcounter, htally, hreply]
      simp only [Pc.waits]
    · rw [hcounter, htally, hreply, hserving]
      rcases hpending' with ⟨hs, hp⟩ | ⟨hs, hp⟩
      · rw [hs, hp]
        simp only [Pc.waits, Pc.releases, Serving.releases]
        omega
      · rw [hs, hp]
        rfl
    · omega
    · rcases hpending' with ⟨hs, -⟩ | ⟨hs, -⟩ <;> rw [hs] <;> exact nofun

theorem Balance.deliver (h : Balance n s) (hidle : s.serving = .idle) (hs : s.deliver t = some s') :
    Balance n s' := by
  have hpending := h.pending
  rw [State.deliver] at hs
  split at hs
  case h_1 hpc | h_2 hpc =>
    cases hs
    refine h.move rfl ?_ ?_ h.range hpending nofun
    · rw [hpc]
      rfl
    · rw [hpc, hidle]
      rfl
  case h_3 hpc =>
    cases hs
    refine h.move rfl ?_ ?_ h.range hpending ?_
    · rw [hpc]
      rfl
    · rw [hpc, hidle]
      simp only [Pc.waits, Pc.releases, Serving.releases, setPc]
      omega
    · rintro u ⟨⟩
      exact Function.update_self _ _ _
  case h_4 hpc =>
    cases hs
    refine h.move rfl ?_ ?_ h.range hpending nofun
    · rw [hpc]
      rfl
    · rw [hpc, hidle]
      rfl
  case h_5 => cases hs

theorem Balance.down (h : Balance n s) {timed : Bool} (hpc : s.pc t = .idle)
    (hok : -2 ^ 31 < s.counter) : Balance n (s.down t timed) := by
  have hrange := h.range
  have hint : int (s.counter - 1) = s.counter - 1 := int_eq (by omega)
  have hne : s.pc t ≠ .waitReply := by rw [hpc]; nofun
  rw [State.down]
  simp only [hint]
  split
  · refine h.move rfl ?_ ?_ ?_ h.pending (h.reply_update hne _)
    · rw [hpc]
      simp only [Pc.waits, setPc]
      omega
    · rw [hpc]
      simp only [Pc.waits, Pc.releases, setPc]
      omega
    · simp only [setPc]
      omega
  · refine h.move rfl ?_ ?_ ?_ h.pending (h.reply_update hne _)
    · rw [hpc]
      simp only [Pc.waits, gotSemaphore, setPc]
      omega
    · rw [hpc]
      simp only [Pc.waits, Pc.releases, gotSemaphore, setPc]
      omega
    · simp only [gotSemaphore, setPc]
      omega

theorem Balance.tryDown (h : Balance n s) (hpc : s.pc t = .idle) : Balance n (s.tryDown t) := by
  have hrange := h.range
  rw [State.tryDown]
  split
  · exact h
  · have hint : int (s.counter - 1) = s.counter - 1 := int_eq (by omega)
    refine h.move rfl ?_ ?_ ?_ h.pending (h.reply_update (by rw [hpc]; nofun) _)
    · rw [hpc]
      simp only [Pc.waits, gotSemaphore, setPc, hint]
      omega
    · rw [hpc]
      simp only [Pc.waits, Pc.releases, gotSemaphore, setPc, hint]
      omega
    · simp only [gotSemaphore, setPc, hint]
      omega

theorem Balance.up (h : Balance n s) (hpc : s.pc t = .idle) (hok : s.counter < 2 ^ 31 - 1) :
    Balance n (s.up t) := by
  have hrange := h.range
  have hint : int (s.counter + 1) = s.counter + 1 := int_eq (by omega)
  have hne : s.pc t ≠ .waitReply := by rw [hpc]; nofun
  rw [State.up]
  simp only [hint]
  split
  · refine h.move rfl ?_ ?_ ?_ h.pending (h.reply_update hne _)
    · rw [hpc]
      simp only [Pc.waits, setPc]
      omega
    · rw [hpc]
      simp only [Pc.waits, Pc.releases, setPc]
      omega
    · simp only [setPc]
      omega
  · -- the thread stays where it is
    refine h.move (Function.update_eq_self t s.pc).symm ?_ ?_ ?_ h.pending h.reply
    · simp only
      omega
    · simp only
      omega
    · simp only
      omega

theorem Balance.expire (h : Balance n s) (hpc : s.pc t = .waiting true) :
    Balance n (s.setPc t .timedOut) := by
  refine h.move rfl ?_ ?_ h.range h.pending (h.reply_update (by rw [hpc]; nofun) _)
  · rw [hpc]
    rfl
  · rw [hpc]
    rfl

theorem Balance.giveBack (h : Balance n s) (hpc : s.pc t = .timedOut)
    (hok : s.counter < 2 ^ 31 - 1) : Balance n (s.giveBack t) := by
  have hrange := h.range
  have hint : int (s.counter + 1) = s.counter + 1 := int_eq (by omega)
  refine h.move rfl ?_ ?_ ?_ h.pending (h.reply_update (by rw [hpc]; nofun) _)
  · rw [hpc]
    simp only [Pc.waits, State.giveBack, setPc, hint]
    omega
  · rw [hpc]
    simp only [Pc.waits, Pc.releases, State.giveBack, setPc, hint]
    split <;> omega
  · simp only [State.giveBack, hint]
    omega

theorem Balance.step (h : Balance n s) (hok : NoWrap s a) (hs : s.exec a = some s') :
    Balance n s' := by
  cases a with
  | handle prio =>
    obtain ⟨hhandled, hcounter⟩ := handle_handled hs
    exact h.handled hhandled hcounter hok
  | deliver t =>
    obtain ⟨hidle, hs⟩ := Option.ite_none_right_eq_some.mp hs
    exact h.deliver hidle hs
  | down t timed =>
    obtain ⟨hpc, hs⟩ := Option.ite_none_right_eq_some.mp hs
    cases hs
    exact h.down hpc hok
  | tryDown t =>
    obtain ⟨hpc, hs⟩ := Option.ite_none_right_eq_some.mp hs
    cases hs
    exact h.tryDown hpc
  | up t =>
    obtain ⟨hpc, hs⟩ := Option.ite_none_right_eq_some.mp hs
    cases hs
    exact h.up hpc hok
  | expire t =>
    obtain ⟨hpc, hs⟩ := Option.ite_none_right_eq_some.mp hs
    cases hs
    exact h.expire hpc
  | giveBack t =>
    obtain ⟨hpc, hs⟩ := Option.ite_none_right_eq_some.mp hs
    cases hs
    exact h.giveBack hpc hok

/-! ## The bound -/

/-- The states of the runs whose steps all meet the condition `ok`. -/
inductive Reachable (ok : State T → Act T → Prop) (n : Nat) : State T → Prop
  | initial : Reachable ok n (initial n)
  | step {s s' : State T} (a : Act T) : Reachable ok n s → ok s a → s.exec a = some s' →
    Reachable ok n s'

omit [DecidableEq T] in
theorem balance_initial (hn : n < 2 ^ 31) : Balance n (initial n : State T) := by
  have hwaiters : (initial n : State T).waiters = 0 := Finset.sum_eq_zero fun _ _ => rfl
  have hsent : (initial n : State T).sentReleases = 0 := Finset.sum_eq_zero fun _ _ => rfl
  refine ⟨?_, ?_, ?_, le_rfl, nofun⟩
  · rw [hwaiters]
    rfl
  · rw [hwaiters, hsent]
    simp only [initial, Serving.releases]
    omega
  · simp only [initial]
    omega

theorem Reachable.balance {ok : State T → Act T → Prop} (hn : n < 2 ^ 31)
    (hok : ∀ s a, ok s a → NoWrap s a) (h : Reachable ok n s) : Balance n s := by
  induction h with
  | initial => exact balance_initial hn
  | step a _ ha hs ih => exact ih.step (hok _ a ha) hs

omit [DecidableEq T] in
theorem Balance.le_of_counter (h : Balance n s) (hcounter : 0 ≤ s.counter) :
    s.tally.downs ≤ n + s.tally.ups := by
  have hunits := h.units
  omega

omit [DecidableEq T] in
theorem Balance.le_of_late (h : Balance n s) (hlate : s.tally.late ≤ s.tally.dropped) :
    s.tally.downs ≤ n + s.tally.ups := by
  have hunits := h.units
  have hreleases := h.releases
  have hpending := h.pending
  omega

omit [Fintype T] in
theorem Handled.downs (h : Handled s s') :
    s'.tally.downs = s.tally.downs ∧ s'.tally.ups = s.tally.ups ∨
      s.wakes ∧ s'.tally = { s.tally with downs := s.tally.downs + 1 } := by
  cases h with
  | wake t timed hwakes _ _ htally => exact .inr ⟨hwakes, htally⟩
  | other _ htally | drop _ htally | release _ _ _ htally =>
    rw [htally]
    exact .inl ⟨rfl, rfl⟩

omit [Fintype T] in
theorem deliver_tally (hs : s.deliver t = some s') : s'.tally = s.tally := by
  rw [deliver] at hs
  split at hs
  case h_5 => cases hs
  all_goals
    cases hs
    rfl

/-- A step lets a thread through only where the counter is positive, or by a wakeup. -/
theorem Balance.exec_downs (h : Balance n s) (hs : s.exec a = some s') :
    s'.tally.downs = s.tally.downs ∧ s.tally.ups ≤ s'.tally.ups ∨ 0 ≤ s'.counter ∨
      (∃ prio, a = .handle prio) ∧ s.wakes ∧
        s'.tally = { s.tally with downs := s.tally.downs + 1 } := by
  cases a with
  | handle prio =>
    rcases (handle_handled hs).1.downs with ⟨hdowns, hups⟩ | ⟨hwakes, htally⟩
    · exact .inl ⟨hdowns, hups.ge⟩
    · exact .inr (.inr ⟨⟨prio, rfl⟩, hwakes, htally⟩)
  | deliver t =>
    obtain ⟨-, hs⟩ := Option.ite_none_right_eq_some.mp hs
    rw [deliver_tally hs]
    exact .inl ⟨rfl, le_rfl⟩
  | down t timed =>
    obtain ⟨-, hs⟩ := Option.ite_none_right_eq_some.mp hs
    cases hs
    rw [State.down]
    simp only
    split
    · exact .inl ⟨rfl, le_rfl⟩
    · exact .inr (.inl (not_lt.mp ‹_›))
  | tryDown t =>
    obtain ⟨-, hs⟩ := Option.ite_none_right_eq_some.mp hs
    cases hs
    rw [State.tryDown]
    split
    · exact .inl ⟨rfl, le_rfl⟩
    · have hrange := h.range
      have hint : int (s.counter - 1) = s.counter - 1 := int_eq (by omega)
      refine .inr (.inl ?_)
      simp only [gotSemaphore, setPc, hint]
      omega
  | up t =>
    obtain ⟨-, hs⟩ := Option.ite_none_right_eq_some.mp hs
    cases hs
    rw [State.up]
    simp only
    split
    · exact .inl ⟨rfl, Nat.le_succ _⟩
    · exact .inl ⟨rfl, Nat.le_succ _⟩
  | expire t | giveBack t =>
    obtain ⟨-, hs⟩ := Option.ite_none_right_eq_some.mp hs
    cases hs
    exact .inl ⟨rfl, le_rfl⟩

theorem Balance.bound_step (h : Balance n s) (hb : s.tally.downs ≤ n + s.tally.ups)
    (hok : NoWrap s a) (hcovered : Covered s a) (hs : s.exec a = some s') :
    s'.tally.downs ≤ n + s'.tally.ups := by
  have h' := h.step hok hs
  rcases h.exec_downs hs with ⟨hdowns, hups⟩ | hcounter | ⟨⟨prio, rfl⟩, hwakes, htally⟩
  · omega
  · exact h'.le_of_counter hcounter
  · refine h'.le_of_late ?_
    rw [htally]
    exact hcovered hwakes

/-- In every interleaving in which the semaphore thread wakes nobody up with a release left behind,
and no number wraps, the successful downs are at most the initial count and the ups. -/
theorem downs_le (hn : n < 2 ^ 31) (h : Reachable (fun s a => NoWrap s a ∧ Covered s a) n s) :
    s.tally.downs ≤ n + s.tally.ups := by
  induction h with
  | initial => exact Nat.zero_le _
  | step a hr ha hs ih =>
    exact (hr.balance hn fun _ _ h => h.1).bound_step ih ha.1 ha.2 hs

theorem downs_le_one :
    ∃ s, (initial 1 : State (Fin 2)).exec (.down 0 false) = some s ∧
      s.tally.downs = 1 ∧ s.tally.downs ≤ 1 + s.tally.ups := by
  refine ⟨_, rfl, rfl, downs_le (by decide) ?_⟩
  have hwrap : NoWrap (initial 1 : State (Fin 2)) (.down 0 false) :=
    show -2 ^ 31 < (1 : Int) by decide
  exact .step (.down 0 false) .initial ⟨hwrap, trivial⟩ rfl

/-- A locked semaphore lets two threads through after one up: the release arrives before the message
of thread 0, stays pending because thread 0 times out before it is woken up, and is left behind when
thread 0 undoes its decrement. -/
theorem downs_overrun : ∃ s, [Act.down 0 true, .up 1, .deliver 1, .handle 0, .deliver 0, .expire 0,
      .handle 0, .giveBack 0, .deliver 0, .handle 0, .down 2 false, .down 3 false, .deliver 3,
      .handle 0].foldlM exec (initial 0 : State (Fin 4)) = some s ∧
    0 + s.tally.ups < s.tally.downs := ⟨_, rfl, by decide⟩

end State

end L4env.L4semaphore
