import L4env.L4semaphore.Tally

/-!
# Wakeups at an L4Env semaphore

Where each thread stands in the wait queue, in every reachable state, and what is left when no thread
is in an operation other than those that are blocked in the queue.
-/

namespace L4env.L4semaphore

/-- A thread in `l4semaphore_down_timed` whose message to block has been received. -/
def Pc.waitsTimed : Pc → Prop
  | .waiting true | .timedOut | .wantReleaseTimed => True
  | _ => False

/-- A thread that has not sent a message since its last call was complete. -/
def Pc.atHome : Pc → Prop
  | .idle | .wantBlock _ | .wantRelease => True
  | _ => False

inductive Request where
  | block
  | blockTimed
  | release
  | releaseTimed

/-- The request of the thread `t` that the semaphore thread works on. -/
def Serving.request {T : Type} [DecidableEq T] (serving : Serving T) (t : T) : Option Request :=
  match serving with
  | .block u => if u = t then some .block else none
  | .blockTimed u => if u = t then some .blockTimed else none
  | .release u => if u = t then some .release else none
  | .releaseTimed u => if u = t then some .releaseTimed else none
  | .idle | .search => none

/-- How the place of a thread, its mark, its entry in the queue and its request go together. -/
inductive Place : Pc → Option Nat → Option Nat → Option Request → Prop
  | away {pc : Pc} (hwaiting : ∀ timed, pc ≠ .waiting timed) (hreply : pc ≠ .waitReply) :
    Place pc none none none
  | sent : Place (.waiting false) none none (some .block)
  | sentTimed {pc : Pc} (hpc : pc.waitsTimed) : Place pc none none (some .blockTimed)
  | queued (wp : Nat) : Place (.waiting false) none (some wp) none
  | queuedTimed {pc : Pc} (wp : Nat) (hpc : pc.waitsTimed) : Place pc (some wp) (some wp) none
  | reply : Place .waitReply none none (some .release)
  /-- the semaphore thread will remove the entry -/
  | leaving {pc : Pc} (wp : Nat) (hpc : pc.atHome) :
    Place pc (some wp) (some wp) (some .releaseTimed)
  /-- a release has removed the entry before -/
  | gone {pc : Pc} (hpc : pc.atHome) : Place pc none none (some .releaseTimed)

section
variable {pc pc' : Pc} {mark place : Option Nat} {request : Option Request} {wp : Nat}

theorem Pc.atHome.not_waitsTimed (h : pc.atHome) : ¬ pc.waitsTimed := by
  cases pc <;> simp_all [Pc.atHome, Pc.waitsTimed]

/-- The thread starts a call. -/
theorem Place.start (h : Place .idle mark place request) (hpc : pc.atHome) :
    Place pc mark place request := by
  cases h with
  | away =>
    refine .away ?_ ?_
    · rintro timed rfl
      exact hpc
    · rintro rfl
      exact hpc
  | sentTimed h | queuedTimed _ h => exact h.elim
  | leaving wp => exact .leaving wp hpc
  | gone => exact .gone hpc

/-- The timeout of the thread hits, or the thread undoes its decrement. -/
theorem Place.time_out (h : Place pc mark place request) (hpc : pc.waitsTimed)
    (hpc' : pc' = .timedOut ∨ pc' = .wantReleaseTimed) : Place pc' mark place request := by
  have htimed : pc'.waitsTimed := by rcases hpc' with rfl | rfl <;> trivial
  cases h with
  | away =>
    refine .away ?_ ?_
    · rintro timed rfl
      simp at hpc'
    · rintro rfl
      simp at hpc'
  | sent | queued | reply => exact hpc.elim
  | sentTimed => exact .sentTimed htimed
  | queuedTimed wp => exact .queuedTimed wp htimed
  | leaving _ h | gone h => exact (h.not_waitsTimed hpc).elim

theorem Place.block (h : Place pc mark place (some .block)) :
    pc = .waiting false ∧ mark = none ∧ place = none := by
  cases h
  exact ⟨rfl, rfl, rfl⟩

theorem Place.blockTimed (h : Place pc mark place (some .blockTimed)) :
    pc.waitsTimed ∧ mark = none ∧ place = none := by
  cases h
  exact ⟨‹_›, rfl, rfl⟩

theorem Place.release (h : Place pc mark place (some .release)) :
    pc = .waitReply ∧ mark = none ∧ place = none := by
  cases h
  exact ⟨rfl, rfl, rfl⟩

theorem Place.releaseTimed (h : Place pc mark place (some .releaseTimed)) :
    pc.atHome ∧ mark = place := by
  cases h <;> exact ⟨‹_›, rfl⟩

/-- A thread whose entry is in the queue, and that the semaphore thread does not work for. -/
theorem Place.entry (h : Place pc mark (some wp) none) :
    pc = .waiting false ∧ mark = none ∨ pc.waitsTimed ∧ mark = some wp := by
  cases h with
  | queued => exact .inl ⟨rfl, rfl⟩
  | queuedTimed _ hpc => exact .inr ⟨hpc, rfl⟩

/-- A thread that has not sent its message yet has no entry. -/
theorem Place.unsent (h : Place pc mark place none) (hpc : pc.atHome) :
    mark = none ∧ place = none := by
  cases h with
  | away => exact ⟨rfl, rfl⟩
  | queued => exact hpc.elim
  | queuedTimed _ h => exact (hpc.not_waitsTimed h).elim

theorem Place.queued_of_waiting {timed : Bool} (h : Place (.waiting timed) mark place none) :
    ∃ wp, place = some wp := by
  cases h with
  | away hwaiting => exact absurd rfl (hwaiting timed)
  | queued wp | queuedTimed wp => exact ⟨wp, rfl⟩

theorem Place.leave (h : Place .wantReleaseTimed mark place none) (hpc : pc.atHome) :
    Place pc mark place (some .releaseTimed) := by
  cases h with
  | away => exact .gone hpc
  | queuedTimed wp => exact .leaving wp hpc

theorem Place.idle : Place .idle none none none := .away nofun nofun

/-- A thread that timed out is no longer in the queue. -/
theorem Place.forgotten (hpc : pc.waitsTimed) (hwaiting : ∀ timed, pc ≠ .waiting timed) :
    Place pc none none none := by
  refine .away hwaiting ?_
  rintro rfl
  exact hpc

end

namespace State

variable {T : Type} [DecidableEq T] {s s' : State T} {t u : T} {n i : Nat} {a : Act T} {prio : Int}
  {l l' : List Nat} {entry entry' : T → Option Nat}

/-- The entries `l` are queued, those of the threads given by `entry`. -/
structure Queued (s : State T) (l : List Nat) (entry : T → Option Nat) : Prop where
  holds : s.wq.Holds l
  owned : ∀ i ∈ l, ∃ t, s.wq.thread i = some t ∧ entry t = some i
  mem : ∀ t i, entry t = some i → i ∈ l ∧ s.wq.thread i = some t
  place : ∀ t, Place (s.pc t) (s.mark t) (entry t) (s.serving.request t)
  pending : 0 ≤ s.pending ∧ (0 < s.pending → l = [])

/-- The place of the thread `t` changes, and the queue stays. -/
theorem Queued.move (h : s.Queued l entry) (hwq : s'.wq = s.wq)
    (hpc : ∀ u, u ≠ t → s'.pc u = s.pc u) (hmark : s'.mark = s.mark)
    (hrequest : ∀ u, u ≠ t → s'.serving.request u = s.serving.request u)
    (hplace : Place (s'.pc t) (s.mark t) (entry t) (s'.serving.request t))
    (hpending : 0 ≤ s'.pending ∧ (0 < s'.pending → l = [])) : s'.Queued l entry := by
  refine ⟨hwq ▸ h.holds, hwq ▸ h.owned, hwq ▸ h.mem, fun u => ?_, hpending⟩
  rw [hmark]
  by_cases hu : u = t
  · rwa [hu]
  · rw [hpc u hu, hrequest u hu]
    exact h.place u

/-- The thread `t` is given a new entry. -/
theorem Queued.insert (h : s.Queued l entry) (hi : i ∉ l) (ht : entry t = none)
    (hl : ∀ j, j ∈ l' ↔ j = i ∨ j ∈ l) (hholds : s'.wq.Holds l')
    (hthread : s'.wq.thread = Function.update s.wq.thread i (some t))
    (hpc : s'.pc = s.pc) (hmark : ∀ u, u ≠ t → s'.mark u = s.mark u)
    (hrequest : ∀ u, u ≠ t → s'.serving.request u = s.serving.request u)
    (hplace : Place (s.pc t) (s'.mark t) (some i) (s'.serving.request t))
    (hpending : s'.pending = 0) : s'.Queued l' (Function.update entry t (some i)) := by
  have hne : ∀ u j, entry u = some j → u ≠ t ∧ j ≠ i := by
    intro u j hu
    refine ⟨?_, ?_⟩
    · rintro rfl
      simp [ht] at hu
    · rintro rfl
      exact hi (h.mem u j hu).1
  refine ⟨hholds, ?_, ?_, fun u => ?_, by omega⟩
  · intro j hj
    rcases (hl j).mp hj with rfl | hj
    · exact ⟨t, by simp [hthread], by simp⟩
    · obtain ⟨u, hu, hentry⟩ := h.owned j hj
      obtain ⟨hut, hji⟩ := hne u j hentry
      exact ⟨u, by simp [hthread, hji, hu], by simp [hut, hentry]⟩
  · intro u j hu
    by_cases hut : u = t
    · subst hut
      obtain rfl : i = j := by simpa using hu
      exact ⟨(hl i).mpr (.inl rfl), by simp [hthread]⟩
    · rw [Function.update_of_ne hut] at hu
      obtain ⟨hj, huj⟩ := h.mem u j hu
      exact ⟨(hl j).mpr (.inr hj), by simp [hthread, (hne u j hu).2, huj]⟩
  · rw [hpc]
    by_cases hut : u = t
    · rw [hut, Function.update_self]
      exact hplace
    · rw [Function.update_of_ne hut, hmark u hut, hrequest u hut]
      exact h.place u

/-- The entry of the thread `t` leaves the queue. -/
theorem Queued.remove (h : s.Queued l entry) (ht : entry t = some i)
    (hwq : s'.wq = s.wq.removeEntry i)
    (hpc : ∀ u, u ≠ t → s'.pc u = s.pc u) (hmark : ∀ u, u ≠ t → s'.mark u = s.mark u)
    (hrequest : ∀ u, u ≠ t → s'.serving.request u = s.serving.request u)
    (hplace : Place (s'.pc t) (s'.mark t) none (s'.serving.request t))
    (hpending : s'.pending = s.pending) :
    s'.Queued (l.erase i) (Function.update entry t none) := by
  obtain ⟨hi, hti⟩ := h.mem t i ht
  obtain ⟨hholds, hthread⟩ := h.holds.removeEntry hi
  rw [← hwq] at hholds hthread
  refine ⟨hholds, ?_, ?_, fun u => ?_, ?_⟩
  · intro j hj
    obtain ⟨hji, hj⟩ := h.holds.nodup.mem_erase_iff.mp hj
    obtain ⟨u, hu, hentry⟩ := h.owned j hj
    have hut : u ≠ t := by
      rintro rfl
      exact hji (Option.some.inj (hentry.symm.trans ht))
    exact ⟨u, by simp [hthread, hji, hu], by simp [hut, hentry]⟩
  · intro u j hu
    have hut : u ≠ t := by
      rintro rfl
      simp at hu
    rw [Function.update_of_ne hut] at hu
    obtain ⟨hj, huj⟩ := h.mem u j hu
    have hji : j ≠ i := by
      rintro rfl
      exact hut (Option.some.inj (huj.symm.trans hti))
    exact ⟨h.holds.nodup.mem_erase_iff.mpr ⟨hji, hj⟩, by simp [hthread, hji, huj]⟩
  · by_cases hut : u = t
    · rw [hut, Function.update_self]
      exact hplace
    · rw [Function.update_of_ne hut, hpc u hut, hmark u hut, hrequest u hut]
      exact h.place u
  · rw [hpending]
    refine ⟨h.pending.1, fun hpos => ?_⟩
    rw [h.pending.2 hpos]
    rfl

/-! ## Steps of the threads -/

/-- The thread `t` goes on to a place that is as good for its entry as the old one. -/
theorem Queued.setPc {pc : Pc} (h : s.Queued l entry) (hwq : s'.wq = s.wq)
    (hpc : s'.pc = Function.update s.pc t pc) (hmark : s'.mark = s.mark)
    (hserving : s'.serving = s.serving) (hpending : s'.pending = s.pending)
    (hplace : Place pc (s.mark t) (entry t) (s.serving.request t)) : s'.Queued l entry := by
  have hother : ∀ u, u ≠ t → s'.pc u = s.pc u := fun u hu => by
    rw [hpc, Function.update_of_ne hu]
  refine h.move hwq hother hmark (fun u _ => by rw [hserving]) ?_ (hpending ▸ h.pending)
  rwa [hpc, Function.update_self, hserving]

theorem Queued.place_of (h : s.Queued l entry) {pc : Pc} (hpc : s.pc t = pc) :
    Place pc (s.mark t) (entry t) (s.serving.request t) := hpc ▸ h.place t

theorem Queued.down (h : s.Queued l entry) (hpc : s.pc t = .idle) (timed : Bool) :
    (s.down t timed).Queued l entry := by
  rw [State.down]
  split
  · exact h.setPc rfl rfl rfl rfl rfl ((h.place_of hpc).start trivial)
  · exact h.setPc rfl rfl rfl rfl rfl (h.place_of hpc)

theorem Queued.tryDown (h : s.Queued l entry) (hpc : s.pc t = .idle) :
    (s.tryDown t).Queued l entry := by
  rw [State.tryDown]
  split
  · exact h
  · exact h.setPc rfl rfl rfl rfl rfl (h.place_of hpc)

theorem Queued.up (h : s.Queued l entry) (hpc : s.pc t = .idle) : (s.up t).Queued l entry := by
  rw [State.up]
  split
  · exact h.setPc rfl rfl rfl rfl rfl ((h.place_of hpc).start trivial)
  · exact ⟨h.holds, h.owned, h.mem, h.place, h.pending⟩

/-- The semaphore thread receives a message of the thread `t`. -/
theorem Queued.receive {pc : Pc} {serving : Serving T} (h : s.Queued l entry)
    (hidle : s.serving = .idle) (hother : ∀ u, u ≠ t → serving.request u = none)
    (hplace : Place pc (s.mark t) (entry t) (serving.request t)) :
    { s.setPc t pc with serving := serving }.Queued l entry := by
  refine h.move rfl (fun u hu => Function.update_of_ne hu _ _) rfl ?_ ?_ h.pending
  · intro u hu
    rw [hidle]
    exact hother u hu
  · have hpc : ({ s.setPc t pc with serving := serving } : State T).pc t = pc :=
      Function.update_self _ _ _
    rwa [hpc]

theorem Queued.deliver (h : s.Queued l entry) (hidle : s.serving = .idle)
    (hs : s.deliver t = some s') : s'.Queued l entry := by
  have hplace : ∀ {pc : Pc}, s.pc t = pc → Place pc (s.mark t) (entry t) none := by
    intro pc hpc
    have hp := h.place_of hpc
    rwa [hidle] at hp
  rw [State.deliver] at hs
  split at hs
  case h_1 hpc =>
    cases hs
    refine h.receive hidle (fun u hu => if_neg (Ne.symm hu)) ?_
    obtain ⟨hmark, hentry⟩ := (hplace hpc).unsent trivial
    rw [Serving.request, if_pos rfl, hmark, hentry]
    exact .sent
  case h_2 hpc =>
    cases hs
    refine h.receive hidle (fun u hu => if_neg (Ne.symm hu)) ?_
    obtain ⟨hmark, hentry⟩ := (hplace hpc).unsent trivial
    rw [Serving.request, if_pos rfl, hmark, hentry]
    exact .sentTimed trivial
  case h_3 hpc =>
    cases hs
    refine h.receive hidle (fun u hu => if_neg (Ne.symm hu)) ?_
    obtain ⟨hmark, hentry⟩ := (hplace hpc).unsent trivial
    rw [Serving.request, if_pos rfl, hmark, hentry]
    exact .reply
  case h_4 hpc =>
    cases hs
    refine h.receive hidle (fun u hu => if_neg (Ne.symm hu)) ?_
    rw [Serving.request, if_pos rfl]
    exact (hplace hpc).leave trivial
  case h_5 => cases hs

/-! ## Steps of the semaphore thread -/

theorem Queued.request_of (h : s.Queued l entry) {serving : Serving T}
    (hserving : s.serving = serving) (t : T) :
    Place (s.pc t) (s.mark t) (entry t) (serving.request t) := hserving ▸ h.place t

theorem place_idle {pc : T → Pc} :
    Place (Function.update pc t .idle t) none none none := by
  rw [Function.update_self]
  exact .idle

/-- The new entry of `__enqueue_thread`. -/
theorem Queued.enqueue (h : s.Queued l entry) (ht : entry t = none) {wp : Nat} {wq : WaitQueue T}
    (hwq : s.wq.enqueueThread t prio = some (wp, wq)) (hwq' : s'.wq = wq) (hpc : s'.pc = s.pc)
    (hmark : ∀ u, u ≠ t → s'.mark u = s.mark u)
    (hrequest : ∀ u, u ≠ t → s'.serving.request u = s.serving.request u)
    (hplace : Place (s.pc t) (s'.mark t) (some wp) (s'.serving.request t))
    (hpending : s'.pending = 0) : ∃ l' entry', s'.Queued l' entry' := by
  subst hwq'
  obtain ⟨i, w, l₁, l₂, heq, hi, rfl, hholds, hthread⟩ | ⟨hnone, -⟩ :=
    h.holds.enqueueThread t prio
  · cases heq.symm.trans hwq
    refine ⟨_, _, h.insert hi ht ?_ hholds hthread hpc hmark hrequest hplace hpending⟩
    intro j
    simp only [List.mem_append, List.mem_cons]
    tauto
  · rw [hnone] at hwq
    cases hwq

theorem Queued.block (h : s.Queued l entry) (hserving : s.serving = .block t)
    (hs : { s with serving := .idle }.block t prio = some s') :
    ∃ l' entry', s'.Queued l' entry' := by
  have hplace := h.request_of hserving t
  rw [Serving.request, if_pos rfl] at hplace
  obtain ⟨hpc, hmark, hentry⟩ := hplace.block
  have hother : ∀ u, u ≠ t → none = s.serving.request u := by
    intro u hu
    rw [hserving, Serving.request, if_neg (Ne.symm hu)]
  rw [State.block] at hs
  split at hs
  · rename_i hpending
    obtain ⟨r, hwake, rfl⟩ := Option.map_eq_some_iff.mp hs
    obtain ⟨timed, -, rfl⟩ | ⟨hwaiting, -⟩ := wakeupThread_cases hwake
    · refine ⟨l, entry, h.move rfl (fun u hu => Function.update_of_ne hu _ _) rfl hother ?_ ?_⟩
      · rw [hmark, hentry]
        exact place_idle
      · exact ⟨Int.sub_nonneg_of_le hpending, fun _ => h.pending.2 hpending⟩
    · exact absurd hpc (hwaiting false)
  · rename_i hpending
    obtain ⟨⟨wp, wq⟩, hwq, rfl⟩ := Option.map_eq_some_iff.mp hs
    have hzero : s.pending = 0 := Int.le_antisymm (not_lt.mp hpending) h.pending.1
    refine h.enqueue hentry hwq rfl rfl (fun _ _ => rfl) hother ?_ hzero
    simp only [hpc, hmark]
    exact .queued wp

theorem Queued.blockTimed (h : s.Queued l entry) (hserving : s.serving = .blockTimed t)
    (hs : { s with serving := .idle }.blockTimed t prio = some s') :
    ∃ l' entry', s'.Queued l' entry' := by
  have hplace := h.request_of hserving t
  rw [Serving.request, if_pos rfl] at hplace
  obtain ⟨hpc, hmark, hentry⟩ := hplace.blockTimed
  have hother : ∀ u, u ≠ t → none = s.serving.request u := by
    intro u hu
    rw [hserving, Serving.request, if_neg (Ne.symm hu)]
  rw [State.blockTimed] at hs
  split at hs
  · rename_i hpending
    obtain ⟨r, hwake, rfl⟩ := Option.map_eq_some_iff.mp hs
    obtain ⟨timed, -, rfl⟩ | ⟨hwaiting, -, rfl⟩ := wakeupThread_cases hwake
    · refine ⟨l, entry, h.move rfl (fun u hu => Function.update_of_ne hu _ _) rfl hother ?_ ?_⟩
      · rw [hmark, hentry]
        exact place_idle
      · exact ⟨Int.sub_nonneg_of_le hpending, fun _ => h.pending.2 hpending⟩
    · -- the thread has timed out: it is not queued and the wakeup stays pending
      refine ⟨l, entry, h.move rfl (fun _ _ => rfl) rfl hother ?_ h.pending⟩
      rw [hmark, hentry]
      exact .forgotten hpc hwaiting
  · rename_i hpending
    obtain ⟨⟨wp, wq⟩, hwq, rfl⟩ := Option.map_eq_some_iff.mp hs
    have hzero : s.pending = 0 := Int.le_antisymm (not_lt.mp hpending) h.pending.1
    refine h.enqueue hentry hwq rfl rfl (fun u hu => Function.update_of_ne hu _ _) hother ?_ hzero
    simp only [setMark, Function.update_self]
    exact .queuedTimed wp hpc

theorem Queued.release (h : s.Queued l entry) (hserving : s.serving = .release t)
    (hok : s.pending < 2 ^ 31 - 1) : (s.release t).Queued l entry := by
  have hplace := h.request_of hserving t
  rw [Serving.request, if_pos rfl] at hplace
  obtain ⟨hpc, hmark, hentry⟩ := hplace.release
  have hother : ∀ u, u ≠ t → none = s.serving.request u := by
    intro u hu
    rw [hserving, Serving.request, if_neg (Ne.symm hu)]
  have hidle : Place (Function.update s.pc t .idle t) (s.mark t) (entry t) none := by
    rw [hmark, hentry]
    exact place_idle
  have hpending := h.pending
  rw [State.release]
  split
  · rename_i hqueue
    have hnil : l = [] := List.head?_eq_none_iff.mp (h.holds.head_eq.symm.trans hqueue)
    have hint : int (s.pending + 1) = s.pending + 1 := int_eq (by omega)
    refine h.move rfl (fun u hu => Function.update_of_ne hu _ _) rfl hother hidle ?_
    refine ⟨?_, fun _ => hnil⟩
    simp only [State.setPc, hint]
    omega
  · exact h.move rfl (fun u hu => Function.update_of_ne hu _ _) rfl hother hidle h.pending

theorem Queued.releaseTimed (h : s.Queued l entry) (hserving : s.serving = .releaseTimed t) :
    ∃ l' entry', ({ s with serving := .idle }.releaseTimed t).Queued l' entry' := by
  have hplace := h.request_of hserving t
  rw [Serving.request, if_pos rfl] at hplace
  obtain ⟨hpc, hmark⟩ := hplace.releaseTimed
  have hother : ∀ u, u ≠ t → none = s.serving.request u := by
    intro u hu
    rw [hserving, Serving.request, if_neg (Ne.symm hu)]
  have haway : Place (s.pc t) none none none := by
    refine .away ?_ ?_
    · intro timed e
      rw [e] at hpc
      exact hpc
    · intro e
      rw [e] at hpc
      exact hpc
  rw [State.releaseTimed]
  split
  · rename_i hnone
    refine ⟨l, entry, h.move rfl (fun _ _ => rfl) rfl hother ?_ h.pending⟩
    rw [← hmark, show s.mark t = none from hnone]
    exact haway
  · rename_i wp hsome
    have hentry : entry t = some wp := hmark.symm.trans hsome
    refine ⟨_, _, h.remove hentry rfl (fun _ _ => rfl) (fun u hu => Function.update_of_ne hu _ _)
      hother ?_ rfl⟩
    simp only [setMark, Function.update_self]
    exact haway

/-- The semaphore thread ends its work or goes on, and no thread moves. -/
theorem Queued.serve (h : s.Queued l entry) (hwq : s'.wq = s.wq) (hpc : s'.pc = s.pc)
    (hmark : s'.mark = s.mark) (hpending : s'.pending = s.pending)
    (hrequest : ∀ u, s'.serving.request u = s.serving.request u) : s'.Queued l entry := by
  refine ⟨hwq ▸ h.holds, hwq ▸ h.owned, hwq ▸ h.mem, fun u => ?_, hpending ▸ h.pending⟩
  rw [hpc, hmark, hrequest]
  exact h.place u

/-- The head of the queue, which the loop of `RELEASE` takes out. -/
theorem Queued.head (h : s.Queued l entry) {wp : Nat} (hqueue : s.wq.queue = some wp) :
    ∃ t, s.wq.thread wp = some t ∧ entry t = some wp ∧
      s.wq.dequeueHead wp = s.wq.removeEntry wp := by
  have hmem : wp ∈ l := List.mem_of_mem_head? (h.holds.head_eq.symm.trans hqueue)
  obtain ⟨t, hthread, hentry⟩ := h.owned wp hmem
  exact ⟨t, hthread, hentry, h.holds.dequeueHead hqueue⟩

theorem Queued.search (h : s.Queued l entry) (hserving : s.serving = .search)
    (hs : s.search = some s') : ∃ l' entry', s'.Queued l' entry' := by
  have hother : ∀ u, none = s.serving.request u := by
    intro u
    rw [hserving]
    rfl
  rw [State.search] at hs
  split at hs
  · cases hs
    exact ⟨l, entry, h.serve rfl rfl rfl rfl hother⟩
  · rename_i wp hqueue
    obtain ⟨t, hthread, hentry, hdequeue⟩ := h.head hqueue
    have hplace := h.request_of hserving t
    rw [hentry] at hplace
    simp only [hthread] at hs
    obtain ⟨hpc, hmark⟩ | ⟨hpc, hmark⟩ := Place.entry hplace
    · -- the thread called `l4semaphore_down`
      rw [hmark] at hs
      obtain ⟨r, hwake, rfl⟩ := Option.map_eq_some_iff.mp hs
      obtain ⟨timed, -, rfl⟩ | ⟨-, hnowait, -⟩ := wakeupThread_cases hwake
      · have hidle : Place (Function.update s.pc t .idle t) (s.mark t) none none := by
          rw [hmark]
          exact place_idle
        exact ⟨_, _, h.remove hentry hdequeue (fun u hu => Function.update_of_ne hu _ _)
          (fun _ _ => rfl) (fun u _ => hother u) hidle rfl⟩
      · cases hnowait
    · rw [hmark] at hs
      obtain ⟨r, hwake, rfl⟩ := Option.map_eq_some_iff.mp hs
      have hmark' : Function.update s.mark t none t = none := Function.update_self _ _ _
      obtain ⟨timed, -, rfl⟩ | ⟨hwaiting, -, rfl⟩ := wakeupThread_cases hwake
      · have hidle : Place (Function.update s.pc t .idle t) (Function.update s.mark t none t) none
            none := by
          rw [hmark']
          exact place_idle
        exact ⟨_, _, h.remove hentry hdequeue (fun u hu => Function.update_of_ne hu _ _)
          (fun u hu => Function.update_of_ne hu _ _) (fun u _ => hother u) hidle rfl⟩
      · have hforgotten : Place (s.pc t) (Function.update s.mark t none t) none
            (s.serving.request t) := by
          rw [hmark', ← hother t]
          exact .forgotten hpc hwaiting
        exact ⟨_, _, h.remove hentry hdequeue (fun _ _ => rfl)
          (fun u hu => Function.update_of_ne hu _ _) (fun _ _ => rfl) hforgotten rfl⟩

theorem Queued.handle (h : s.Queued l entry) (hs : s.handle prio = some s')
    (hok : ∀ t, s.serving = .release t → s.pending < 2 ^ 31 - 1) :
    ∃ l' entry', s'.Queued l' entry' := by
  rw [State.handle] at hs
  split at hs
  · cases hs
  · exact h.block ‹_› hs
  · exact h.blockTimed ‹_› hs
  · cases hs
    exact ⟨l, entry, h.release ‹_› (hok _ ‹_›)⟩
  · exact h.search ‹_› hs
  · cases hs
    exact h.releaseTimed ‹_›

theorem Queued.step (h : s.Queued l entry) (hok : NoWrap s a) (hs : s.exec a = some s') :
    ∃ l' entry', s'.Queued l' entry' := by
  cases a with
  | handle prio => exact h.handle hs hok
  | deliver t =>
    obtain ⟨hidle, hs⟩ := Option.ite_none_right_eq_some.mp hs
    exact ⟨l, entry, h.deliver hidle hs⟩
  | down t timed =>
    obtain ⟨hpc, hs⟩ := Option.ite_none_right_eq_some.mp hs
    cases hs
    exact ⟨l, entry, h.down hpc timed⟩
  | tryDown t =>
    obtain ⟨hpc, hs⟩ := Option.ite_none_right_eq_some.mp hs
    cases hs
    exact ⟨l, entry, h.tryDown hpc⟩
  | up t =>
    obtain ⟨hpc, hs⟩ := Option.ite_none_right_eq_some.mp hs
    cases hs
    exact ⟨l, entry, h.up hpc⟩
  | expire t =>
    obtain ⟨hpc, hs⟩ := Option.ite_none_right_eq_some.mp hs
    cases hs
    exact ⟨l, entry, h.setPc rfl rfl rfl rfl rfl ((h.place_of hpc).time_out trivial (.inl rfl))⟩
  | giveBack t =>
    obtain ⟨hpc, hs⟩ := Option.ite_none_right_eq_some.mp hs
    cases hs
    exact ⟨l, entry, h.setPc rfl rfl rfl rfl rfl ((h.place_of hpc).time_out trivial (.inr rfl))⟩

theorem queued_initial : (initial n : State T).Queued [] fun _ => none where
  holds := WaitQueue.holds_empty
  owned := nofun
  mem := nofun
  place _ := .idle
  pending := ⟨le_rfl, fun _ => rfl⟩

theorem Reachable.queued (h : Reachable NoWrap n s) : ∃ l entry, s.Queued l entry := by
  induction h with
  | initial => exact ⟨_, _, queued_initial⟩
  | step a _ ha hs ih =>
    obtain ⟨l, entry, ih⟩ := ih
    exact ih.step ha hs

/-! ## Quiet states -/

/-- No message is in flight, and no thread is in an operation but those that wait for a wakeup. -/
structure Quiet (s : State T) : Prop where
  serving : s.serving = .idle
  pc : ∀ t, s.pc t = .idle ∨ ∃ timed, s.pc t = .waiting timed

theorem Queued.waiting_iff (h : s.Queued l entry) (hq : s.Quiet) (t : T) :
    (∃ timed, s.pc t = .waiting timed) ↔ ∃ i, entry t = some i := by
  have hplace := h.request_of hq.serving t
  rcases hq.pc t with hpc | ⟨timed, hpc⟩
  · rw [hpc] at hplace ⊢
    rw [(hplace.unsent trivial).2]
    simp
  · rw [hpc] at hplace ⊢
    exact iff_of_true ⟨timed, rfl⟩ hplace.queued_of_waiting

/-- The threads of the queue, in its order. -/
def queueThreads (s : State T) (l : List Nat) : List T := l.filterMap s.wq.thread

theorem Queued.map_thread (h : s.Queued l entry) :
    l.map s.wq.thread = (s.queueThreads l).map some := by
  have hl : ∀ i ∈ l, (s.wq.thread i).isSome := by
    intro i hi
    obtain ⟨t, ht, -⟩ := h.owned i hi
    rw [ht]
    rfl
  clear h
  rw [queueThreads]
  induction l with
  | nil => rfl
  | cons i l ih =>
    obtain ⟨t, ht⟩ := Option.isSome_iff_exists.mp (hl i List.mem_cons_self)
    rw [List.map_cons, List.filterMap_cons_some ht, List.map_cons, ht,
      ih fun j hj => hl j (List.mem_cons_of_mem _ hj)]

theorem Queued.mem_queueThreads (h : s.Queued l entry) :
    t ∈ s.queueThreads l ↔ ∃ i, entry t = some i := by
  rw [queueThreads, List.mem_filterMap]
  constructor
  · rintro ⟨i, hi, ht⟩
    obtain ⟨u, hu, hentry⟩ := h.owned i hi
    cases ht.symm.trans hu
    exact ⟨i, hentry⟩
  · rintro ⟨i, hi⟩
    exact ⟨i, h.mem t i hi⟩

theorem Queued.nodup_queueThreads (h : s.Queued l entry) : (s.queueThreads l).Nodup := by
  have hnodup : (l.map s.wq.thread).Nodup := by
    refine h.holds.nodup.map_on fun i hi j hj hij => ?_
    obtain ⟨t, ht, hentry⟩ := h.owned i hi
    obtain ⟨u, hu, hentry'⟩ := h.owned j hj
    rw [ht, hu] at hij
    cases hij
    exact Option.some.inj (hentry.symm.trans hentry')
  rw [h.map_thread] at hnodup
  exact hnodup.of_map some

variable [Fintype T]

/-- The threads blocked in the semaphore. -/
def blocked (s : State T) : Finset T := {t | s.pc t = .waiting false ∨ s.pc t = .waiting true}

/-- What holds of a quiet state if no wakeup was lost. -/
structure Settled (n : Nat) (s : State T) : Prop where
  /-- a thread is blocked only if there is no unit left -/
  unit : s.blocked.Nonempty → n + s.tally.ups ≤ s.tally.downs
  /-- the queue holds the blocked threads, each once, in descending order of the priorities -/
  queue : ∃ (l : List Nat) (ts : List T), IsDList s.wq.next s.wq.prev s.wq.queue l ∧ l.map s.wq.thread = ts.map some ∧
    ts.Nodup ∧ (∀ t, t ∈ ts ↔ t ∈ s.blocked) ∧ l.Pairwise fun i j => s.wq.prio j ≤ s.wq.prio i
  counter : s.counter + s.tally.downs + s.blocked.card = n + s.tally.ups
  pending : s.pending = 0

omit [DecidableEq T] in
theorem mem_blocked : t ∈ s.blocked ↔ ∃ timed, s.pc t = .waiting timed := by
  simp [blocked]

omit [DecidableEq T] in
theorem Quiet.waiters (hq : s.Quiet) : s.waiters = s.blocked.card := by
  rw [State.waiters, blocked, Finset.card_filter]
  refine Finset.sum_congr rfl fun t _ => ?_
  rcases hq.pc t with hpc | ⟨timed, hpc⟩
  · rw [hpc]
    rfl
  · rw [hpc]
    cases timed <;> rfl

omit [DecidableEq T] in
theorem Quiet.sentReleases (hq : s.Quiet) : s.sentReleases = 0 := by
  refine Finset.sum_eq_zero fun t _ => ?_
  rcases hq.pc t with hpc | ⟨timed, hpc⟩ <;> rw [hpc] <;> rfl

omit [DecidableEq T] in
/-- The releases of a quiet state: all of them are pending. -/
theorem Quiet.pending (hq : s.Quiet) (h : Balance n s) :
    s.pending + s.tally.dropped = s.blocked.card + min s.counter 0 + s.tally.late := by
  have hreleases := h.releases
  rw [hq.waiters, hq.sentReleases, hq.serving] at hreleases
  simpa [Serving.releases] using hreleases

theorem Queued.blocked_nil (h : s.Queued l entry) (hq : s.Quiet) (hpending : 0 < s.pending) :
    s.blocked.card = 0 := by
  rw [Finset.card_eq_zero, Finset.eq_empty_iff_forall_notMem]
  intro t ht
  obtain ⟨i, hi⟩ := (h.waiting_iff hq t).mp (mem_blocked.mp ht)
  have hmem := (h.mem t i hi).1
  rw [h.pending.2 hpending] at hmem
  cases hmem

theorem Queued.settled (h : s.Queued l entry) (hb : Balance n s) (hq : s.Quiet)
    (hlate : s.tally.late = s.tally.dropped) : s.Settled n := by
  have hpending := hq.pending hb
  have hunits := hb.units
  rw [hq.waiters] at hunits
  have hzero : s.pending = 0 := by
    by_contra hne
    have hblocked := h.blocked_nil hq (lt_of_le_of_ne hb.pending (Ne.symm hne))
    have hge := hb.pending
    omega
  refine ⟨fun hne => ?_, ⟨l, s.queueThreads l, h.holds.list, h.map_thread, h.nodup_queueThreads, ?_,
    h.holds.sorted⟩, by omega, hzero⟩
  · have hpos := Finset.card_pos.mpr hne
    omega
  · intro t
    rw [h.mem_queueThreads, mem_blocked, h.waiting_iff hq]

omit [DecidableEq T] in
/-- Where nothing was handed out twice, each unit that is lost is one too many for a blocked thread. -/
theorem Settled.late_eq (hs : s.Settled n) (hb : Balance n s) (hq : s.Quiet)
    (hle : s.tally.downs ≤ n + s.tally.ups) : s.tally.late = s.tally.dropped := by
  have hpending := hq.pending hb
  have hcounter := hs.counter
  have hzero := hs.pending
  rcases s.blocked.eq_empty_or_nonempty with hnil | hne
  · rw [hnil, Finset.card_empty] at hpending hcounter
    omega
  · have hunit := hs.unit hne
    have hpos := Finset.card_pos.mpr hne
    omega

/-- In every quiet state that is reached, no wakeup is lost if as many decrements were undone too late
as releases found nobody to wake up; and only then, where no unit was handed out twice. -/
theorem quiet_settled (hn : n < 2 ^ 31) (h : Reachable NoWrap n s) (hq : s.Quiet) :
    (s.tally.late = s.tally.dropped → s.Settled n) ∧
    (s.Settled n → s.tally.downs ≤ n + s.tally.ups → s.tally.late = s.tally.dropped) := by
  have hb := h.balance hn fun _ _ hok => hok
  obtain ⟨l, entry, hqueued⟩ := h.queued
  exact ⟨hqueued.settled hb hq, fun hs hle => hs.late_eq hb hq hle⟩

/-- Thread 0 blocks at a locked semaphore. -/
theorem quiet_settled_blocked : ∃ s, [Act.down 0 false, .deliver 0, .handle 7].foldlM exec
      (initial 0 : State (Fin 2)) = some s ∧ s.pc 0 = .waiting false ∧ s.Settled 0 := by
  have hdown : NoWrap (initial 0 : State (Fin 2)) (.down 0 false) :=
    show -2 ^ 31 < (0 : Int) by decide
  have h₁ : Reachable NoWrap 0 ((initial 0 : State (Fin 2)).down 0 false) :=
    .step (.down 0 false) .initial hdown rfl
  have h₂ := Reachable.step (.deliver 0) h₁ trivial rfl
  have h₃ := Reachable.step (.handle 7) h₂ nofun rfl
  refine ⟨_, rfl, rfl, (quiet_settled (by decide) h₃ ⟨rfl, ?_⟩).1 rfl⟩
  intro t
  fin_cases t
  · exact .inr ⟨false, rfl⟩
  · exact .inl rfl

/-- A wakeup is lost: the release finds thread 0 in the queue, which has timed out, and not thread 1,
which has decremented the counter and sends its message afterwards. -/
theorem quiet_not_settled : ∃ s, [Act.down 0 true, .deliver 0, .handle 0, .down 1 false, .up 2,
      .deliver 2, .handle 0, .expire 0, .giveBack 0, .handle 0, .handle 0, .deliver 1, .handle 0,
      .deliver 0, .handle 0].foldlM exec (initial 0 : State (Fin 3)) = some s ∧
    s.Quiet ∧ s.pc 1 = .waiting false ∧ s.tally.downs < 0 + s.tally.ups ∧ ¬ s.Settled 0 := by
  refine ⟨_, rfl, ⟨rfl, ?_⟩, rfl, by decide, fun h => ?_⟩
  · intro t
    fin_cases t
    · exact .inl rfl
    · exact .inr ⟨false, rfl⟩
    · exact .inl rfl
  · exact absurd (h.unit ⟨1, mem_blocked.mpr ⟨false, rfl⟩⟩) (by decide)

end State

end L4env.L4semaphore
