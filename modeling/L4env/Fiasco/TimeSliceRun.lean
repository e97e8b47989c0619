import L4env.Fiasco.TimeSliceInv
import L4env.Util.Outcome

/-!
# Runs of the time slices

The rings of scheduling contexts, their times and the global time slice stay consistent in every order of
calls and interrupts, so that the assertions of `switch_sched` and of the timer never fail. What can go
wrong is a call that needs the global time slice when there is none: it is null from the time when a
context has left it until the next `schedule`, and not every way out of it ends in a `schedule`.
-/

namespace L4env.Fiasco

variable {T S : Type} [DecidableEq T] [DecidableEq S] {k k' : Sched T S} {c c' : TimeSlices T S}
  {periodic : T → Bool} {t : T} {next : S} {e : TimeSlices.Event T S} {f : SliceFault} {fuel mcp : Nat}

/-- Outside of the periodic mode a context runs on its timesharing slice. -/
structure Timesharing (periodic : T → Bool) (k : Sched T S) : Prop where
  active : ∀ t, periodic t = false → k.sched t = k.schedContext t
  id : ∀ t, (k.slice (k.schedContext t)).id = 0

namespace Timesharing

omit [DecidableEq T] [DecidableEq S] in
theorem same (h : Timesharing periodic k) (hs : SameSlices k k') : Timesharing periodic k' := by
  refine ⟨fun t ht => ?_, fun t => ?_⟩
  · rw [hs.sched, hs.schedContext]
    exact h.active t ht
  · rw [hs.slice, hs.schedContext]
    exact h.id t

omit [DecidableEq T] in
theorem setCurrentSched (h : Timesharing periodic k) (timeout : Int) (s : S) :
    Timesharing periodic (k.setCurrentSched timeout s) := by
  have hsame := setCurrentSched_same k timeout s
  refine ⟨fun t ht => ?_, fun t => ?_⟩
  · rw [hsame.1, hsame.2.1]
    exact h.active t ht
  · rw [(setCurrentSched_slice k timeout s _).2.2.2.2.1, hsame.1]
    exact h.id t

/-- A context that is not in the periodic mode turns to its timesharing slice. -/
theorem switched (hid : ∀ t, (k.slice (k.schedContext t)).id = 0) (hw : Switched k k' t next)
    (hother : ∀ x, x ≠ t → periodic x = false → k.sched x = k.schedContext x)
    (hself : periodic t = false → next = k.schedContext t ∧
      ((k.slice next).prio ≠ 0 ∨ k.sched t = next)) : Timesharing periodic k' := by
  refine ⟨fun x hx => ?_, fun x => ?_⟩
  · rw [hw.schedContext]
    by_cases hxt : x = t
    · subst hxt
      obtain ⟨hnext, hprio⟩ := hself hx
      obtain hs | ⟨hs, hzero⟩ := hw.sched
      · rw [hs, Function.update_self]
        exact hnext
      · rw [hs, ← hnext]
        exact hprio.resolve_left (not_not.mpr hzero)
    · obtain hs | ⟨hs, -⟩ := hw.sched
      · rw [hs, Function.update_of_ne hxt]
        exact hother x hxt hx
      · rw [hs]
        exact hother x hxt hx
  · rw [hw.schedContext, hw.slice, Function.update_apply]
    split
    · rename_i e
      dsimp only
      rw [← e]
      exact hid x
    · exact hid x

end Timesharing

namespace TimeSlices

/-- A global time slice is there for the calls, and contexts outside of the periodic mode run on their
timesharing slice. -/
structure Clock (c : TimeSlices T S) : Prop where
  running : c.inSchedule = false → c.k.currentSched ≠ none
  timesharing : Timesharing c.periodic c.k

def Consistent (c : TimeSlices T S) : Prop := SliceInv c.k c.used

/-- What a call leaves: a consistent state, and if it is careful the global time slice that it found. -/
def Kept (c : TimeSlices T S) (careful : Prop) (c' : TimeSlices T S) : Prop :=
  c'.Consistent ∧ (c.Clock → careful → c'.Clock)

omit [DecidableEq T] [DecidableEq S] in
theorem Kept.refl {careful : Prop} (h : c.Consistent) : Kept c careful c := ⟨h, fun hclock _ => hclock⟩

omit [DecidableEq T] [DecidableEq S] in
/-- Neither the scheduling contexts nor the mode of a context change. -/
theorem Kept.same {careful : Prop} {d : TimeSlices T S} (h : Kept c careful c') (hk : SameSlices c'.k d.k)
    (hp : d.periodic = c'.periodic) (hu : d.used = c'.used) (hi : d.inSchedule = c'.inSchedule) :
    Kept c careful d := by
  refine ⟨?_, fun hclock hcareful => ⟨fun hin => ?_, ?_⟩⟩
  · unfold Consistent
    rw [hu]
    exact hk.inv h.1
  · rw [hk.currentSched]
    exact (h.2 hclock hcareful).running (hi.symm.trans hin)
  · rw [hp]
    exact (h.2 hclock hcareful).timesharing.same hk

theorem switchSched_eq (hn : Belongs c.k c.used t next) :
    c.switchSched t next = .ok { c with k := c.k.switchSched t next } := if_pos hn.assertion

theorem switchSched_bind (F : TimeSlices T S → Except SliceFault (TimeSlices T S))
    (hn : Belongs c.k c.used t next) :
    (c.switchSched t next >>= F) = F { c with k := c.k.switchSched t next } := by
  rw [switchSched_eq hn]
  rfl

/-! ## The end of a call -/

omit [DecidableEq S] in
theorem schedule_consistent (h : c.Consistent) : c.schedule.Consistent :=
  (SameSlices.updateReadyList c.k).inv h

omit [DecidableEq S] in
theorem schedule_clock (h : Timesharing c.periodic c.k) : c.schedule.Clock :=
  ⟨fun hin => (by cases hin), h.same (.updateReadyList c.k)⟩

omit [DecidableEq S] in
theorem reschedule_consistent (h : c.Consistent) : c.reschedule.Consistent := by
  unfold reschedule
  split
  · exact h
  · exact schedule_consistent h

omit [DecidableEq S] in
theorem reschedule_clock (h : Timesharing c.periodic c.k) : c.reschedule.Clock := by
  unfold reschedule
  split
  · rename_i hin
    refine ⟨fun hout => ?_, h⟩
    rw [hin] at hout
    cases hout
  · exact schedule_clock h

theorem preempt_consistent (h : c.Consistent) (t : T) : (c.preempt t).Consistent := by
  unfold preempt
  split
  · exact reschedule_consistent h
  · exact h

theorem preempt_clock (h : Timesharing c.periodic c.k)
    (ht : c.inSchedule = true ∨ c.k.currentSched ≠ none ∨
      c.k.canPreemptCurrent (c.k.sched t) = true) : (c.preempt t).Clock := by
  unfold preempt
  split
  · exact reschedule_clock h
  · rename_i hstay
    refine ⟨fun hin => ?_, h⟩
    obtain ht | ht | ht := ht
    · rw [hin] at ht
      cases ht
    · exact ht
    · exact absurd ht hstay

omit [DecidableEq T] in
/-- A context of a higher priority that has left the global time slice preempts the running one. -/
theorem canPreempt_switched [DecidableEq T] (hw : Switched k k' t next)
    (hcur : k.currentSched = some (k.sched t)) (ht : t ≠ k.current)
    (hp : k.prio k.current < (k.slice next).prio) : k'.canPreemptCurrent (k'.sched t) = true := by
  have hprio : ∀ s, (k'.slice s).prio = (k.slice s).prio := by
    intro s
    rw [hw.slice, Function.update_apply]
    split
    · rename_i e
      rw [e]
    · rfl
  have hsched : k'.sched = Function.update k.sched t next :=
    hw.sched.resolve_right fun hs => by omega
  unfold Sched.canPreemptCurrent
  rw [hw.currentSched, if_pos hcur]
  have hlow : k'.prio k'.current = k.prio k.current := by
    unfold Sched.prio
    rw [hw.current, hsched, Function.update_of_ne ht.symm, hprio]
  rw [hlow, hprio, hsched, Function.update_self, if_neg (Nat.not_le.mpr hp)]

/-! ## The calls -/

omit [DecidableEq T] [DecidableEq S] in
theorem belongs_first (h : c.Consistent) (t : T) : Belongs c.k c.used t (c.firstRealtime t) :=
  (SliceInv.own h t).succ

omit [DecidableEq T] [DecidableEq S] in
theorem belongs_successor {s : S} (hs : Belongs c.k c.used t s) :
    Belongs c.k c.used t (c.successor s) := by
  unfold successor
  split
  · exact hs.succ
  · exact hs

omit [DecidableEq T] [DecidableEq S] in
/-- The timesharing slice is followed by itself. -/
theorem successor_timesharing (h : Timesharing c.periodic c.k) (ht : c.periodic t = false) :
    c.successor (c.k.sched t) = c.k.schedContext t ∧
      ((c.k.slice (c.successor (c.k.sched t))).prio ≠ 0 ∨
        c.k.sched t = c.successor (c.k.sched t)) := by
  have hs : c.successor (c.k.sched t) = c.k.sched t := by
    unfold successor
    rw [h.active t ht, if_neg (not_not.mpr (h.id t))]
  rw [hs]
  exact ⟨h.active t ht, .inr rfl⟩

/-- A context yields its time slice to the one that follows it. -/
theorem yield_timesharing (h : Timesharing c.periodic c.k) (t : T) :
    Timesharing c.periodic (c.k.switchSched t (c.successor (c.k.sched t))) :=
  .switched h.id (switchSched_switched _ _ _) (fun x _ => h.active x) (successor_timesharing h)

theorem sysThreadSwitch_outcome (h : c.Consistent) (dst : SwitchDst T) :
    Outcome (Kept c True)
      (fun f => f = .nullSched ∧ c.k.currentSched = none ∧ ∃ t run, dst = .thread t run)
      (c.sysThreadSwitch dst) := by
  have hyield : ∀ t, Kept c True ({ c with k := c.k.switchSched t (c.successor (c.k.sched t)) } :
      TimeSlices T S).schedule := fun t =>
    ⟨schedule_consistent (h.switchSched (belongs_successor (h.active t))), fun hclock _ =>
      schedule_clock (yield_timesharing hclock.timesharing t)⟩
  unfold sysThreadSwitch
  dsimp only
  split
  · rename_i id
    split
    · exact ⟨h, fun hclock _ => hclock⟩
    · rw [switchSched_eq (belongs_successor (h.active _))]
      exact hyield _
  · rename_i t run
    split
    · refine ⟨(SameSlices.switchExecLocked c.k run).inv h, fun hclock _ => ⟨fun hin => ?_, ?_⟩⟩
      · rw [(SameSlices.switchExecLocked c.k run).currentSched]
        exact hclock.running hin
      · exact hclock.timesharing.same (.switchExecLocked c.k run)
    · split
      · rename_i hnone
        exact ⟨rfl, hnone, t, run, rfl⟩
      · rename_i cs hcs
        have hactive := h.global cs hcs
        rw [← hactive, h.owner_sched, switchSched_eq (belongs_successor (h.active _))]
        exact hyield _

theorem timesliceExpired_outcome (h : c.Consistent) :
    Outcome (Kept c True) (fun _ => False) c.timesliceExpired := by
  unfold timesliceExpired
  split
  · exact ⟨reschedule_consistent h, fun hclock _ => reschedule_clock hclock.timesharing⟩
  · rename_i s hs
    have hactive := h.global s hs
    dsimp only
    rw [if_neg (not_not.mpr hactive)]
    generalize (c.k.slice s).owner = t at hactive
    subst hactive
    rw [switchSched_eq (belongs_successor (h.active t))]
    exact ⟨reschedule_consistent (SliceInv.switchSched h (belongs_successor (h.active t))), fun hclock _ =>
      reschedule_clock (yield_timesharing hclock.timesharing t)⟩

/-- `Deadline_timeout::expired` turns to the first time slice of the next period. -/
def StartsPeriod (c : TimeSlices T S) (t : T) : Prop :=
  if c.delayedDeadline t then c.delayedIpc t = false else c.periodic t = true

/-- The end of a deadline that is missed, or waited for, takes the global time slice away from the context
only for one that preempts the running context at once. -/
def DeadlineCareful (c : TimeSlices T S) (t : T) : Prop :=
  c.StartsPeriod t → c.k.currentSched = some (c.k.sched t) → c.inSchedule = true ∨
    t ≠ c.k.current ∧ c.k.prio c.k.current < (c.k.slice (c.firstRealtime t)).prio

/-- After the switch to the first time slice of a period there is a global time slice, or the context
preempts the running one. -/
theorem DeadlineCareful.preempts (h : c.DeadlineCareful t) (hs : c.StartsPeriod t) (hclock : c.Clock)
    (hw : Switched c.k k' t (c.firstRealtime t)) : c.inSchedule = true ∨ k'.currentSched ≠ none ∨
      k'.canPreemptCurrent (k'.sched t) = true := by
  by_cases hin : c.inSchedule = true
  · exact .inl hin
  · right
    by_cases hcur : c.k.currentSched = some (c.k.sched t)
    · obtain hin' | ⟨ht, hp⟩ := h hs hcur
      · exact absurd hin' hin
      · exact .inr (canPreempt_switched hw hcur ht hp)
    · left
      rw [hw.currentSched, if_neg hcur]
      exact hclock.running (by simpa using hin)

omit [DecidableEq T] [DecidableEq S] in
theorem canPreempt_same (h : Sched.Relinked k k') (s : S) [DecidableEq S] :
    k'.canPreemptCurrent s = k.canPreemptCurrent s := by
  unfold Sched.canPreemptCurrent
  rw [h.prio, h.current, h.slice, h.currentSched]

theorem deadlineExpired_outcome (h : c.Consistent) (t : T) :
    Outcome (Kept c (c.DeadlineCareful t)) (fun _ => False) (c.deadlineExpired t) := by
  have hn := belongs_first h t
  have hw := switchSched_switched c.k t (c.firstRealtime t)
  have hinv := SliceInv.switchSched h hn
  -- the context is in the periodic mode when it turns to its first time slice
  have hperiod : ∀ periodic : T → Bool, periodic t = true → (∀ x, x ≠ t → periodic x = c.periodic x) →
      Timesharing c.periodic c.k → Timesharing periodic (c.k.switchSched t (c.firstRealtime t)) :=
    fun periodic ht hx hold => .switched hold.id hw
      (fun x hne hpx => hold.active x ((hx x hne).symm.trans hpx))
      fun hf => by rw [ht] at hf; cases hf
  unfold deadlineExpired
  dsimp only
  by_cases hd : c.delayedDeadline t = true
  · rw [if_pos hd]
    have hupd : ∀ x, x ≠ t → Function.update c.periodic t true x = c.periodic x := fun x hx =>
      Function.update_of_ne hx ..
    by_cases hi : c.delayedIpc t = true
    · rw [if_pos hi]
      refine ⟨h, fun hclock _ => ⟨hclock.running, fun x hx => ?_, hclock.timesharing.id⟩⟩
      refine hclock.timesharing.active x ?_
      have hx' : Function.update c.periodic t true x = false := hx
      by_cases hxt : x = t
      · subst hxt
        rw [Function.update_self] at hx'
        cases hx'
      · rwa [hupd x hxt] at hx'
    · have hs : c.StartsPeriod t := by
        unfold StartsPeriod
        rw [if_pos hd]
        simpa using hi
      rw [if_neg hi, switchSched_bind]
      on_goal 2 => exact hn
      -- the context becomes ready, too
      obtain ⟨k₁, hk₁⟩ : ∃ k₁ : Sched T S, k₁ =
        { c.k.switchSched t (c.firstRealtime t) with
          ready := Function.update (c.k.switchSched t (c.firstRealtime t)).ready t true } := ⟨_, rfl⟩
      have hready : SameSlices (c.k.switchSched t (c.firstRealtime t)) k₁ := by
        rw [hk₁]
        exact ⟨rfl, rfl, rfl, rfl⟩
      have hsame := hready.trans (.readyEnqueue k₁ t)
      have hpre : (k₁.readyEnqueue t).canPreemptCurrent ((k₁.readyEnqueue t).sched t) =
          (c.k.switchSched t (c.firstRealtime t)).canPreemptCurrent
            ((c.k.switchSched t (c.firstRealtime t)).sched t) := by
        rw [hsame.sched, canPreempt_same (Sched.readyEnqueue_relinked k₁ t), hk₁]
        rfl
      have htimes := fun hold => (hperiod _ (Function.update_self t true c.periodic) hupd hold).same hsame
      rw [hk₁] at hsame hpre htimes
      refine ⟨preempt_consistent ?_ t, fun hclock hcareful => preempt_clock
        (htimes hclock.timesharing) ?_⟩
      · exact hsame.inv hinv
      obtain hin | hcur | hp := hcareful.preempts hs hclock hw
      · exact .inl hin
      · exact .inr (.inl fun hnone => hcur (hsame.currentSched.symm.trans hnone))
      · exact .inr (.inr (hpre.trans hp))
  · rw [if_neg hd]
    by_cases hp : c.periodic t = true
    · have hs : c.StartsPeriod t := by
        unfold StartsPeriod
        rw [if_neg hd]
        exact hp
      rw [if_pos hp, switchSched_bind]
      on_goal 2 => exact hn
      refine ⟨preempt_consistent ?_ t, fun hclock hcareful => preempt_clock
        (hperiod _ hp (fun _ _ => rfl) hclock.timesharing) (hcareful.preempts hs hclock hw)⟩
      exact hinv
    · rw [if_neg hp]
      refine ⟨preempt_consistent ?_ t, fun hclock _ => preempt_clock hclock.timesharing ?_⟩
      · exact h
      by_cases hin : c.inSchedule = true
      · exact .inl hin
      · exact .inr (.inl (hclock.running (by simpa using hin)))

theorem setRealtimeParam_kept (h : c.Consistent) (t : T) (mcp : Nat) (param : Sched.SchedParam) {fresh : S}
    (hf : c.used fresh = false) : Kept c True (c.setRealtimeParam t mcp param fresh) := by
  unfold setRealtimeParam
  split
  · exact ⟨h, fun hclock _ => hclock⟩
  · dsimp only
    split
    · exact ⟨h, fun hclock _ => hclock⟩
    · obtain ⟨hinv, hid⟩ := SliceInv.enqueue h hf (c := ⟨t, ((c.k.slice (c.k.slice
        (c.k.schedContext t)).prev).id + 1) % 65536, param.prio, _, _, fresh, fresh⟩) rfl rfl
      refine ⟨hinv, fun hclock _ => ⟨hclock.running, hclock.timesharing.active, fun x => ?_⟩⟩
      refine (hid _ ?_).trans (hclock.timesharing.id x)
      intro e
      have hx : c.k.schedContext x = fresh := e
      have hused := (SliceInv.own h x).inUse
      rw [hx, hf] at hused
      cases hused

theorem removeRealtimeParam_outcome (h : c.Consistent) {r : Except SliceFault (TimeSlices T S)}
    (hr : c.removeRealtimeParam fuel t = some r) :
    Outcome (Kept c True)
      (fun f => f = .notTimesharing ∧ c.periodic t = false ∧ c.k.sched t ≠ c.k.schedContext t) r := by
  unfold removeRealtimeParam at hr
  split at hr
  · cases hr
    exact ⟨h, fun hclock _ => hclock⟩
  · rename_i hmode
    split at hr
    · rename_i hs
      cases hr
      refine ⟨rfl, ?_, hs⟩
      simp only [Bool.or_eq_true, not_or, Bool.not_eq_true] at hmode
      exact hmode.1
    · rename_i hs
      rw [not_not] at hs
      obtain ⟨c', hc', rfl⟩ := Option.map_eq_some_iff.mp hr
      obtain ⟨l, hl⟩ := h.rings t
      obtain ⟨hinv, -, hun, hperiodic, hin⟩ := (SliceInv.removeLoop h hl hs).2 fuel c' hc'
      refine ⟨hinv, fun hclock _ => ⟨fun hout => ?_, fun x hx => ?_, fun x => ?_⟩⟩
      · rw [hun.currentSched]
        exact hclock.running (hin.symm.trans hout)
      · rw [hun.sched, hun.schedContext]
        exact hclock.timesharing.active x (by rwa [hperiodic] at hx)
      · rw [hun.id, hun.schedContext]
        exact hclock.timesharing.id x

omit [DecidableEq S] in
theorem beginPeriodic_outcome [DecidableEq S] (h : c.Consistent) (t : T) (clock now : Nat) :
    Outcome (Kept c True)
      (fun f => f = .notTimesharing ∧ c.periodic t = false ∧ c.k.sched t ≠ c.k.schedContext t)
      (c.beginPeriodic t clock now) := by
  unfold beginPeriodic
  split
  · exact ⟨h, fun hclock _ => hclock⟩
  · rename_i hmode
    split
    · exact ⟨h, fun hclock _ => hclock⟩
    · split
      · rename_i hs
        refine ⟨rfl, ?_, hs⟩
        simp only [Bool.or_eq_true, not_or, Bool.not_eq_true] at hmode
        exact hmode.1
      · exact ⟨h, fun hclock _ => ⟨hclock.running, hclock.timesharing.active, hclock.timesharing.id⟩⟩

/-- A context that returns to its timesharing slice does not take the global time slice with it, and its
timesharing slice does not have the priority 0. -/
def LeavesWell (c : TimeSlices T S) (t : T) : Prop :=
  c.k.sched t ≠ c.k.schedContext t → c.k.currentSched ≠ some (c.k.sched t) ∧
    (c.k.slice (c.k.schedContext t)).prio ≠ 0

/-- What the return to the timesharing slice leaves. -/
structure Left (c : TimeSlices T S) (t : T) (k' : Sched T S) : Prop where
  consistent : SliceInv k' c.used
  current : k'.current = c.k.current
  currentSched : k'.currentSched =
    if c.k.sched t ≠ c.k.schedContext t ∧ c.k.currentSched = some (c.k.sched t) then none
    else c.k.currentSched
  timesharing : ∀ periodic : T → Bool, Timesharing periodic c.k → c.LeavesWell t →
    Timesharing (Function.update periodic t false) k'

theorem leavePeriodic_eq (h : c.Consistent) (t : T) : ∃ k', Left c t k' ∧
    c.leavePeriodic t = .ok { c with
      k := k'
      periodic := Function.update c.periodic t false
      deadline := Function.update c.deadline t false } := by
  unfold leavePeriodic
  dsimp only
  by_cases hs : c.k.sched t ≠ c.k.schedContext t
  · have hw := switchSched_switched c.k t (c.k.schedContext t)
    refine ⟨c.k.switchSched t (c.k.schedContext t), ⟨SliceInv.switchSched h (SliceInv.own h t), hw.current,
      ?_, fun periodic hold hwell => .switched hold.id hw (fun x hx hp => ?_) fun _ =>
        ⟨rfl, .inl (hwell hs).2⟩⟩, ?_⟩
    · rw [hw.currentSched]
      simp [hs]
    · rw [Function.update_of_ne hx] at hp
      exact hold.active x hp
    · rw [if_pos hs, switchSched_eq]
      exact SliceInv.own h t
  · refine ⟨c.k, ⟨h, rfl, ?_, fun periodic hold _ => ⟨fun x hx => ?_, hold.id⟩⟩, ?_⟩
    · simp [hs]
    · by_cases hxt : x = t
      · rw [hxt]
        exact not_not.mp hs
      · rw [Function.update_of_ne hxt] at hx
        exact hold.active x hx
    · rw [if_neg hs]
      rfl

namespace Left

omit [DecidableEq S] in
/-- A global time slice that the context does not take with it stays. -/
theorem running [DecidableEq S] (h : Left c t k') (hwell : c.LeavesWell t)
    (hcur : c.k.currentSched ≠ none) : k'.currentSched ≠ none := by
  rw [h.currentSched, if_neg fun hs => (hwell hs.1).1 hs.2]
  exact hcur

end Left

theorem endPeriodic_outcome (h : c.Consistent) (t : T) :
    Outcome (Kept c (c.LeavesWell t)) (fun _ => False) (c.endPeriodic t) := by
  unfold endPeriodic
  split
  · exact ⟨h, fun hclock _ => hclock⟩
  · obtain ⟨k', hleft, heq⟩ := leavePeriodic_eq h t
    rw [heq]
    clear heq
    have hclock : ∀ k'', SameSlices k' k'' → c.Clock → c.LeavesWell t →
        (c.inSchedule = false → k''.currentSched ≠ none) ∧
          Timesharing (Function.update c.periodic t false) k'' := by
      intro k'' hsame hclock hwell
      refine ⟨fun hin => ?_, (hleft.timesharing _ hclock.timesharing hwell).same hsame⟩
      rw [hsame.currentSched]
      exact hleft.running hwell (hclock.running hin)
    show Outcome _ _ (if _ then _ else _)
    dsimp only
    split
    · split
      · exact ⟨hleft.consistent, fun hc hwell =>
          ⟨(hclock k' ⟨rfl, rfl, rfl, rfl⟩ hc hwell).1, (hclock k' ⟨rfl, rfl, rfl, rfl⟩ hc hwell).2⟩⟩
      · have hready : SameSlices k' { k' with ready := Function.update k'.ready t true } :=
          ⟨rfl, rfl, rfl, rfl⟩
        have hsame := hready.trans (.readyEnqueue _ t)
        exact ⟨hsame.inv hleft.consistent, fun hc hwell =>
          ⟨(hclock _ hsame hc hwell).1, (hclock _ hsame hc hwell).2⟩⟩
    · exact ⟨hleft.consistent, fun hc hwell =>
        ⟨(hclock k' ⟨rfl, rfl, rfl, rfl⟩ hc hwell).1, (hclock k' ⟨rfl, rfl, rfl, rfl⟩ hc hwell).2⟩⟩

theorem kill_outcome (h : c.Consistent) (t : T) (timeout : Int) :
    Outcome (Kept c (c.LeavesWell t))
      (fun f => f = .nullSched ∧ (c.k.currentSched = none ∨
        c.k.sched t ≠ c.k.schedContext t ∧ c.k.currentSched = some (c.k.sched t))) (c.kill t timeout) := by
  unfold kill
  obtain ⟨k', hleft, heq⟩ := leavePeriodic_eq h t
  rw [heq]
  clear heq
  dsimp only [bind, Except.bind]
  split
  · rename_i hcur
    refine ⟨rfl, ?_⟩
    have hcur' : k'.currentSched = none := hcur
    rw [hleft.currentSched] at hcur'
    split at hcur'
    · rename_i hs
      exact .inr hs
    · exact .inl hcur'
  · rename_i s hcur
    have hclock : c.Clock → c.LeavesWell t →
        Timesharing (Function.update c.periodic t false) k' := fun hclock hwell =>
      hleft.timesharing _ hclock.timesharing hwell
    split
    · exact ⟨hleft.consistent.setCurrentSched timeout k'.current, fun hc hwell =>
        ⟨fun _ hnone => (by cases hnone), (hclock hc hwell).setCurrentSched timeout _⟩⟩
    · refine ⟨hleft.consistent, fun hc hwell => ⟨fun _ hnone => ?_, hclock hc hwell⟩⟩
      exact absurd (hcur.symm.trans hnone) (by simp)

/-- The branch of `wake_receiver` in which the sender starts its next period. -/
def SenderStarts (c : TimeSlices T S) (receiving : Bool) : Prop :=
  receiving = false ∧ c.delayedDeadline c.k.current = false ∧ c.delayedIpc c.k.current = true

def WakeCareful (c : TimeSlices T S) (receiving : Bool) : Prop :=
  c.SenderStarts receiving → c.k.currentSched ≠ some (c.k.sched c.k.current) ∧
    c.periodic c.k.current = true

theorem wakeReceiver_outcome (h : c.Consistent) (r : T) (receiving : Bool) :
    Outcome (Kept c (c.WakeCareful receiving)) (fun _ => False) (c.wakeReceiver r receiving) := by
  unfold wakeReceiver
  dsimp only
  split
  · exact (Kept.refl h).same ⟨rfl, rfl, rfl, rfl⟩ rfl rfl rfl
  · by_cases hs : (!receiving && !c.delayedDeadline c.k.current && c.delayedIpc c.k.current) = true
    · rw [if_pos hs, switchSched_bind]
      on_goal 2 => exact belongs_first h _
      have hw := switchSched_switched c.k c.k.current (c.firstRealtime c.k.current)
      have hkept : Kept c (c.WakeCareful receiving)
          { c with k := c.k.switchSched c.k.current (c.firstRealtime c.k.current) } := by
        refine ⟨SliceInv.switchSched h (belongs_first h _), fun hclock hcareful => ?_⟩
        obtain ⟨hcur, hp⟩ := hcareful (by simpa [SenderStarts, and_assoc] using hs)
        refine ⟨fun hin => ?_, .switched hclock.timesharing.id hw
          (fun x _ => hclock.timesharing.active x) fun hf => ?_⟩
        · rw [hw.currentSched, if_neg hcur]
          exact hclock.running hin
        · rw [hp] at hf
          cases hf
      exact hkept.same ⟨rfl, rfl, rfl, rfl⟩ rfl rfl rfl
    · rw [if_neg hs]
      exact (Kept.refl h).same ⟨rfl, rfl, rfl, rfl⟩ rfl rfl rfl

theorem switchToLocked_kept (h : c.Consistent) (timeout : Int) (t : T) (run : Option T) (inSchedule : Bool) :
    Kept c True { c with k := c.k.switchToLocked timeout t run, inSchedule := inSchedule } := by
  refine ⟨SliceInv.switchToLocked h timeout t run, fun hclock _ => ?_⟩
  obtain ⟨k', hk', hcur, htimes⟩ : ∃ k', k' = (if c.k.currentSched = some (c.k.sched t) then c.k
      else c.k.setCurrentSched timeout (c.k.sched t)) ∧ k'.currentSched ≠ none ∧
      Timesharing c.periodic k' := by
    refine ⟨_, rfl, ?_⟩
    split
    · rename_i hs
      rw [hs]
      exact ⟨by simp, hclock.timesharing⟩
    · exact ⟨fun hnone => (by cases hnone), hclock.timesharing.setCurrentSched timeout _⟩
  have hswitch : c.k.switchToLocked timeout t run = if t = k'.current then k' else k'.switchExecLocked run := by
    rw [hk']
    rfl
  have hsame : SameSlices k' (c.k.switchToLocked timeout t run) := by
    rw [hswitch]
    split
    · exact ⟨rfl, rfl, rfl, rfl⟩
    · exact .switchExecLocked k' run
  refine ⟨fun _ => ?_, htimes.same hsame⟩
  rw [hsame.currentSched]
  exact hcur

/-! ## Steps -/

namespace Event

/-- The calls that need the global time slice when there is none, and the calls of the real-time
interface for a context that is not on its timesharing slice. -/
def Faults (c : TimeSlices T S) (f : SliceFault) : Event T S → Prop
  | .threadSwitch (.thread _ _) => f = .nullSched ∧ c.k.currentSched = none
  | .kill t _ => f = .nullSched ∧ (c.k.currentSched = none ∨
      c.k.sched t ≠ c.k.schedContext t ∧ c.k.currentSched = some (c.k.sched t))
  | .threadSchedule t _ .removeRealtime | .threadSchedule t _ (.beginPeriodic _ _) =>
    f = .notTimesharing ∧ c.periodic t = false ∧ c.k.sched t ≠ c.k.schedContext t
  | _ => False

/-- What a step must heed for the global time slice to stay. -/
def Careful (c : TimeSlices T S) : Event T S → Prop
  | .deadlineExpired t => c.DeadlineCareful t
  | .threadSchedule t _ .endPeriodic => c.LeavesWell t
  | .kill t _ => c.LeavesWell t
  | .wakeReceiver _ receiving => c.WakeCareful receiving
  | _ => True

end Event

theorem setScheduleParam_kept (h : c.Consistent) {id : Nat} {param : Sched.SchedParam}
    {r : Bool × Sched T S} (hr : c.k.setScheduleParam fuel t mcp param id = some r) :
    Kept c True { c with k := r.2 } := by
  obtain ⟨hinv, hadj⟩ := SliceInv.setScheduleParam h hr
  refine ⟨hinv, fun hclock _ => ⟨fun hin => ?_, fun x hx => ?_, fun x => ?_⟩⟩
  · rw [hadj.currentSched]
    exact hclock.running hin
  · rw [hadj.sched, hadj.schedContext]
    exact hclock.timesharing.active x hx
  · rw [hadj.id, hadj.schedContext]
    exact hclock.timesharing.id x

theorem sysThreadSchedule_outcome (h : c.Consistent) {mode : ScheduleMode S}
    (he : (Event.threadSchedule t mcp mode : Event T S).Enabled c)
    {r : Except SliceFault (TimeSlices T S)} (hr : c.sysThreadSchedule fuel t mcp mode = some r) :
    Outcome (Kept c ((Event.threadSchedule t mcp mode : Event T S).Careful c))
      (fun f => (Event.threadSchedule t mcp mode : Event T S).Faults c f) r := by
  unfold sysThreadSchedule at hr
  split at hr
  · cases hr
    exact Kept.refl h
  · cases mode with
    | setTimesharing param =>
      obtain ⟨k', hk', rfl⟩ := Option.map_eq_some_iff.mp hr
      exact setScheduleParam_kept h hk'
    | setRealtime param fresh =>
      cases hr
      exact setRealtimeParam_kept h t mcp param he.2
    | removeRealtime => exact removeRealtimeParam_outcome h hr
    | setPeriod =>
      cases hr
      exact Kept.refl h
    | beginPeriodic clock now =>
      cases hr
      exact beginPeriodic_outcome h t clock now
    | endPeriodic =>
      cases hr
      exact endPeriodic_outcome h t
    | changeRealtime id param =>
      obtain ⟨k', hk', rfl⟩ := Option.map_eq_some_iff.mp hr
      exact setScheduleParam_kept h hk'

theorem step_outcome (h : c.Consistent) (he : e.Enabled c) {r : Except SliceFault (TimeSlices T S)}
    (hr : c.step fuel e = some r) : Outcome (Kept c (e.Careful c)) (fun f => e.Faults c f) r := by
  cases e with
  | threadSwitch dst =>
    cases hr
    refine (sysThreadSwitch_outcome h dst).mono (fun _ h => h) fun f hf => ?_
    obtain ⟨hf, hnone, t, run, rfl⟩ := hf
    exact ⟨hf, hnone⟩
  | threadSchedule dst mcp mode => exact sysThreadSchedule_outcome h he hr
  | wakeReceiver r receiving =>
    cases hr
    exact wakeReceiver_outcome h r receiving
  | kill t timeout =>
    cases hr
    exact kill_outcome h t timeout
  | switchTo t timeout run =>
    cases hr
    exact switchToLocked_kept h timeout t run c.inSchedule
  | switchExec run =>
    cases hr
    exact (Kept.refl h).same (.switchExecLocked c.k run) rfl rfl rfl
  | scheduleRound timeout run =>
    cases hk : c.k.scheduleRound with
    | none => simp [step, hk] at hr
    | some x =>
      simp only [step, hk] at hr
      cases x with
      | inl t =>
        cases hr
        exact switchToLocked_kept h timeout t run false
      | inr k' =>
        cases hr
        unfold Sched.scheduleRound at hk
        split at hk
        · cases hk
        · split at hk
          · cases hk
          · cases hk
            exact (Kept.refl h).same (.readyDequeue c.k _) rfl rfl rfl
  | timesliceExpired =>
    cases hr
    exact timesliceExpired_outcome h
  | deadlineExpired t =>
    cases hr
    exact deadlineExpired_outcome h t
  | readyEnqueue t =>
    cases hr
    exact (Kept.refl h).same (.readyEnqueue c.k t) rfl rfl rfl
  | readyDequeue t =>
    cases hr
    exact (Kept.refl h).same (.readyDequeue c.k t) rfl rfl rfl
  | setState ready delayedDeadline delayedIpc =>
    cases hr
    exact (Kept.refl h).same ⟨rfl, rfl, rfl, rfl⟩ rfl rfl rfl

/-! ## Runs -/

/-- Contexts that run on their own full scheduling contexts, one of which is the global time slice. -/
structure Booted (c : TimeSlices T S) : Prop where
  alone : ∀ t, (c.k.slice (c.k.schedContext t)).next = c.k.schedContext t ∧
    (c.k.slice (c.k.schedContext t)).prev = c.k.schedContext t
  owner : ∀ t, (c.k.slice (c.k.schedContext t)).owner = t
  id : ∀ t, (c.k.slice (c.k.schedContext t)).id = 0
  used : ∀ t, c.used (c.k.schedContext t) = true
  sched : c.k.sched = c.k.schedContext
  currentSched : c.k.currentSched = some (c.k.sched c.k.current)

omit [DecidableEq T] [DecidableEq S] in
theorem Booted.consistent (h : Booted c) : c.Consistent := by
  refine ⟨fun t => ⟨[], ?_, List.nodup_singleton _, ?_, ?_, ?_, ?_⟩, fun s hs => ?_⟩
  · simp [IsRing, h.alone t]
  · simp [h.owner t]
  · simp [h.used t]
  · rw [h.sched]
    exact List.mem_cons_self
  · intro s hs hne
    rw [h.sched] at hne
    exact absurd (List.mem_singleton.mp hs) hne
  · rw [h.currentSched, h.sched] at hs
    cases hs
    rw [h.owner, h.sched]

omit [DecidableEq T] [DecidableEq S] in
theorem Booted.clock (h : Booted c) : c.Clock := by
  refine ⟨fun _ => ?_, fun t _ => ?_, h.id⟩
  · rw [h.currentSched]
    simp
  · rw [h.sched]

/-- The states of all runs. -/
inductive Reachable : TimeSlices T S → Prop
  | boot {c : TimeSlices T S} : Booted c → Reachable c
  | step {c c' : TimeSlices T S} {e : Event T S} (fuel : Nat) : Reachable c → e.Enabled c →
    c.step fuel e = some (.ok c') → Reachable c'

/-- The states of the runs in which every step is careful. -/
inductive CarefullyReachable : TimeSlices T S → Prop
  | boot {c : TimeSlices T S} : Booted c → CarefullyReachable c
  | step {c c' : TimeSlices T S} {e : Event T S} (fuel : Nat) : CarefullyReachable c → e.Enabled c →
    e.Careful c → c.step fuel e = some (.ok c') → CarefullyReachable c'

theorem Reachable.consistent (h : Reachable c) : c.Consistent := by
  induction h with
  | boot h => exact h.consistent
  | step fuel _ he hr ih => exact (step_outcome ih he hr).1

theorem CarefullyReachable.kept (h : CarefullyReachable c) : c.Consistent ∧ c.Clock := by
  induction h with
  | boot h => exact ⟨h.consistent, h.clock⟩
  | step fuel _ he hcareful hr ih =>
    have hkept := step_outcome ih.1 he hr
    exact ⟨hkept.1, hkept.2 ih.2 hcareful⟩

/-- Two contexts of the priorities 1 and 2, the first one running. -/
def twoContexts : TimeSlices Bool (Option Bool) where
  k :=
    { current := false
      readyNext _ := none
      readyPrev _ := none
      ready _ := true
      schedContext := some
      sched := some
      slice s := ⟨decide (s = some true), 0, if s = some true then 2 else 1, 10000, 10000, s, s⟩
      prioNext _ := none
      prioHighest := 0
      currentSched := some (some false) }
  periodic _ := false
  deadline _ := false
  delayedDeadline _ := false
  delayedIpc _ := false
  used s := s.isSome
  inSchedule := false

theorem twoContexts_booted : Booted twoContexts where
  alone _ := ⟨rfl, rfl⟩
  owner t := by cases t <;> rfl
  id _ := rfl
  used _ := rfl
  sched := rfl
  currentSched := rfl

/-- The second context has a real-time slice. -/
def realtime : TimeSlices Bool (Option Bool) := twoContexts.setRealtimeParam true 5 ⟨3, some 2500⟩ none

end TimeSlices

end L4env.Fiasco
