import L4env.Dsi.Select

/-!
# Select: what is left behind

A select thread in a queue of a component waits there. So if no thread is stopped while it waits, none is left
behind.
-/

namespace L4env.Dsi.Select

open EventServer (Agrees OpOk)

variable {sockets : Nat → SelectSocket} {n i c id : Nat} {S S' S₀ : System} {phase : Nat → Phase} {p : Phase}
  {wakeups : List (Wakeup Client)} {signals : Nat → Signals Client} {σ : Signals Client} {client : Client}
  {events : EventMask} {w : Waiter Client} {s : EventServer Client} {r : Request Client} {res : Result Client}
  {q : Nat → List Nat} {fails : Client → EventMask → Bool}

/-! ## Notifications -/

theorem wake_cases (wakeups : List (Wakeup Client)) (phase : Nat → Phase) (i : Nat) :
    wake wakeups phase i = phase i ∨ phase i = .waiting ∧ ∃ m, wake wakeups phase i = .answered (.ok m) := by
  unfold wake
  split
  · rename_i k hphase hk
    exact .inr ⟨hphase, k.sent, rfl⟩
  · exact .inl rfl

theorem wake_of_ne (h : phase i ≠ .waiting) : wake wakeups phase i = phase i :=
  (wake_cases wakeups phase i).resolve_right fun hw => h hw.1

theorem wake_of_not_mem (h : ∀ k ∈ wakeups, k.client ≠ .select i) : wake wakeups phase i = phase i := by
  have hnone : (wakeups.find? fun k => k.client = .select i) = none :=
    List.find?_eq_none.mpr fun k hk => by simpa using h k hk
  unfold wake
  rw [hnone]
  cases phase i <;> rfl

/-! ## Queues -/

/-- A select thread in a queue waits, at its own socket for its own events. -/
def Queued (sockets : Nat → SelectSocket) (signals : Nat → Signals Client) (phase : Nat → Phase) : Prop :=
  ∀ c id, ∀ w ∈ (signals c).queue id, ∀ i, w.client = .select i → phase i = .waiting ∧
    (sockets i).component = c ∧ (sockets i).socket = id ∧ w.events = (waitRequest sockets i).dw0 &&& eventMask

/-- A thread that does not wait goes on. -/
theorem Queued.update (Q : Queued sockets signals phase) (h : phase i ≠ .waiting) (p : Phase) :
    Queued sockets signals (Function.update phase i p) := by
  intro c id w hw j hj
  obtain ⟨hphase, hplace⟩ := Q c id w hw j hj
  have hne : j ≠ i := by
    rintro rfl
    exact h hphase
  exact ⟨(Function.update_of_ne hne _ _).trans hphase, hplace⟩

/-- The queues of a component do not change. -/
theorem Queued.congr (Q : Queued sockets signals phase) (h : σ.queue = (signals c).queue) :
    Queued sockets (Function.update signals c σ) phase := by
  intro d id w hw
  by_cases hd : d = c
  · subst hd
    rw [Function.update_self, h] at hw
    exact Q d id w hw
  · rw [Function.update_of_ne hd] at hw
    exact Q d id w hw

/-- A select thread that stays in a queue is not woken up, since it waits for the same events everywhere. -/
theorem Queued.set (Q : Queued sockets signals phase) (c id : Nat) (events : EventMask) :
    Queued sockets (Function.update signals c ((signals c).set id events).2)
      (wake ((signals c).set id events).1 phase) := by
  intro d id' w hw i hi
  have hold : w ∈ (signals d).queue id' ∧ (d = c → id' = id → w.hit events = false) := by
    by_cases hd : d = c
    · subst hd
      rw [Function.update_self, Signals.set] at hw
      by_cases hid : id' = id
      · subst hid
        simp only [Function.update_self, List.mem_filter] at hw
        exact ⟨hw.1, fun _ _ => by simpa using hw.2⟩
      · simp only [Function.update_of_ne hid] at hw
        exact ⟨hw, fun _ h => absurd h hid⟩
    · rw [Function.update_of_ne hd] at hw
      exact ⟨hw, fun h => absurd h hd⟩
  obtain ⟨hphase, hc, hs, hev⟩ := Q d id' w hold.1 i hi
  refine ⟨?_, hc, hs, hev⟩
  rw [wake_of_not_mem, hphase]
  intro k hk hki
  obtain ⟨v, hv, rfl⟩ := List.mem_map.mp hk
  obtain ⟨hmem, hhit⟩ := List.mem_filter.mp hv
  obtain ⟨-, hc', hs', hev'⟩ := Q c id v hmem i hki
  have hmiss := hold.2 (hc.symm.trans hc') (hs.symm.trans hs')
  rw [Waiter.hit, hev, ← hev'] at hmiss
  exact absurd (hhit.symm.trans hmiss) (by simp)

theorem wait_queue {id' : Nat} (hw : w ∈ (σ.wait client id events).2.queue id') : w ∈ σ.queue id' ∨
    w = ⟨client, events⟩ ∧ id' = id ∧ (σ.wait client id events).1 = [] ∧
      ((σ.queue id).any fun w => w.hit events) = false := by
  unfold Signals.wait at hw ⊢
  split at hw
  case isTrue => exact .inl hw
  case isFalse hbusy =>
    rw [if_neg hbusy]
    dsimp only at hw ⊢
    split at hw
    case isTrue => exact .inl hw
    case isFalse hset =>
      rw [if_neg hset]
      by_cases hid : id' = id
      · subst hid
        simp only [Function.update_self, List.mem_append, List.mem_singleton] at hw
        exact hw.imp_right fun h => ⟨h, rfl, rfl, eq_false_of_ne_true hbusy⟩
      · simp only [Function.update_of_ne hid] at hw
        exact .inl hw

theorem wait_wakeups {k : Wakeup Client} (hk : k ∈ (σ.wait client id events).1) : k.client = client := by
  unfold Signals.wait at hk
  split at hk
  · cases hk
  · dsimp only at hk
    split at hk
    · rw [List.mem_singleton.mp hk]
    · cases hk

/-- A request to wait of a client, which is in the phase `p` then if it is a select thread. -/
theorem Queued.wait (Q : Queued sockets signals phase) {phase' : Nat → Phase} (c : Nat)
    (hother : ∀ i, client ≠ .select i → phase' i = phase i)
    (hselect : ∀ i, client = .select i → phase i ≠ .waiting ∧ (sockets i).component = c ∧ (sockets i).socket = id ∧
      events = (waitRequest sockets i).dw0 &&& eventMask ∧
        (((signals c).queue id).any (fun w => w.hit events) = false → phase' i = .waiting)) :
    Queued sockets (Function.update signals c ((signals c).wait client id events).2)
      (wake ((signals c).wait client id events).1 phase') := by
  have hkeep : ∀ d id', ∀ w ∈ (signals d).queue id', ∀ i, w.client = .select i →
      wake ((signals c).wait client id events).1 phase' i = .waiting ∧ (sockets i).component = d ∧
        (sockets i).socket = id' ∧ w.events = (waitRequest sockets i).dw0 &&& eventMask := fun d id' w hw i hi => by
    obtain ⟨hphase, hplace⟩ := Q d id' w hw i hi
    have hne : client ≠ .select i := fun h => (hselect i h).1 hphase
    have hnot : ∀ k ∈ ((signals c).wait client id events).1, k.client ≠ .select i := fun k hk hki =>
      hne ((wait_wakeups hk).symm.trans hki)
    rw [wake_of_not_mem hnot, hother i hne]
    exact ⟨hphase, hplace⟩
  intro d id' w hw i hi
  by_cases hd : d = c
  · subst hd
    rw [Function.update_self] at hw
    obtain hw | ⟨rfl, rfl, hnone, hmiss⟩ := wait_queue hw
    · exact hkeep d id' w hw i hi
    · obtain ⟨-, hc, hs, hev, hwaits⟩ := hselect i hi
      refine ⟨?_, hc, hs, hev⟩
      rw [hnone, wake_of_not_mem fun _ hk => absurd hk List.not_mem_nil]
      exact hwaits hmiss
  · rw [Function.update_of_ne hd] at hw
    exact hkeep d id' w hw i hi

/-! ## Requests -/

theorem exec_of_wait (fails : Client → EventMask → Bool) (hop : s.op r = .wait client id events) : client = r.src ∧ id = r.dw1 ∧
    events = r.dw0 &&& eventMask ∧ s.validSocket id = true ∧
      ∀ fuel, s.exec fails fuel r = s.waitForEvents fuel client id events := by
  unfold EventServer.op at hop
  dsimp only at hop
  split at hop
  · cases hop
  rename_i hvalid
  split at hop
  · split at hop <;> cases hop
  rename_i hset
  split at hop
  · cases hop
  rename_i hreset
  split at hop
  case isFalse => cases hop
  rename_i hwait
  cases hop
  refine ⟨rfl, rfl, rfl, by simpa using hvalid, fun fuel => ?_⟩
  rw [EventServer.exec, if_neg hset, if_neg hreset, if_pos hwait]

/-- A request to wait is not answered at once if nobody waits for one of the events. -/
theorem reply_of_wait (A : Agrees s σ q) (hop : s.op r = .wait client id events)
    (hmiss : ((σ.queue id).any fun w => w.hit events) = false)
    (hres : Returns (fun fuel => s.exec fails fuel r) res) (hpanic : res.reply ≠ .panic) : res.reply = .none := by
  obtain ⟨-, -, -, hvalid, hexec⟩ := exec_of_wait fails hop
  obtain ⟨N, hN⟩ := hres
  have hrun : s.exec fails N r = some res := hN N le_rfl
  have hfree : ¬ (s.socket id).waiting &&& events ≠ 0 := fun h => by
    rw [A.any_hit.mpr h] at hmiss
    cases hmiss
  rw [hexec, EventServer.waitForEvents, if_pos hvalid, if_neg hfree] at hrun
  dsimp only at hrun
  split at hrun
  · cases hrun
    rfl
  · split at hrun
    · cases hrun
      exact absurd rfl hpanic
    · obtain ⟨s', -, rfl⟩ := Option.map_eq_some_iff.mp hrun
      rfl

theorem Queued.step (Q : Queued sockets signals phase) (c : Nat) {o : Op Client}
    (ho : ∀ client id events, o = .wait client id events → ∃ t, client = .other t) :
    Queued sockets (Function.update signals c ((signals c).step o).2) (wake ((signals c).step o).1 phase) := by
  have hwake : wake [] phase = phase := funext fun i => wake_of_not_mem nofun
  cases o with
  | set id events => exact Q.set c id events
  | reset id events =>
    show Queued sockets (Function.update signals c ((signals c).reset id events)) (wake [] phase)
    rw [hwake]
    exact Q.congr rfl
  | wait client id events =>
    obtain ⟨t, rfl⟩ := ho _ _ _ rfl
    exact Q.wait c (fun _ _ => rfl) nofun
  | refused =>
    show Queued sockets (Function.update signals c (signals c)) (wake [] phase)
    rw [hwake]
    exact Q.congr rfl

/-- The request of a select thread, which is in the phase `p` then. -/
theorem Queued.request (Q : Queued sockets signals phase) (hcalling : phase i = .calling) {o : Op Client}
    (ho : ∀ client id events, o = .wait client id events → client = .select i ∧ id = (sockets i).socket ∧
      events = (waitRequest sockets i).dw0 &&& eventMask ∧
        (((signals (sockets i).component).queue id).any (fun w => w.hit events) = false → p = .waiting)) :
    Queued sockets
      (Function.update signals (sockets i).component ((signals (sockets i).component).step o).2)
      (wake ((signals (sockets i).component).step o).1 (Function.update phase i p)) := by
  have hne : phase i ≠ .waiting := by
    rw [hcalling]
    nofun
  cases o with
  | wait client id events =>
    obtain ⟨rfl, rfl, rfl, hp⟩ := ho _ _ _ rfl
    refine Q.wait _ (fun j hj => Function.update_of_ne (fun h => hj (congrArg _ h.symm)) _ _) fun j hj => ?_
    cases hj
    exact ⟨hne, rfl, rfl, rfl, fun h => (Function.update_self ..).trans (hp h)⟩
  | set id events => exact (Q.update hne p).step _ nofun
  | reset id events => exact (Q.update hne p).step _ nofun
  | refused => exact (Q.update hne p).step _ nofun

/-! ## The invariant -/

/-- What a thread has written into its arguments. -/
def Phase.report : Phase → Option (Except Error EventMask)
  | .posted r => some r
  | .stopped r => r
  | _ => none

theorem report_wake (wakeups : List (Wakeup Client)) (phase : Nat → Phase) (i : Nat) :
    (wake wakeups phase i).report = (phase i).report := by
  obtain h | ⟨hw, m, h⟩ := wake_cases wakeups phase i
  · rw [h]
  · rw [h, hw]
    rfl

theorem report_update (h : p.report = (phase i).report) (j : Nat) :
    (Function.update phase i p j).report = (phase j).report := by
  by_cases hj : j = i
  · subst hj
    rw [Function.update_self, h]
  · rw [Function.update_of_ne hj]

theorem report_ofReply (reply : Reply) : (Phase.ofReply reply).report = none := by
  cases reply with
  | code error => cases error <;> rfl
  | none => rfl
  | panic => rfl

namespace System

/-- The first `k` threads are stopped. -/
def Halted (S : System) (k : Nat) : Prop := ∀ i < k, ∃ r, S.phase i = .stopped r

/-- The threads from `k` on are not started. -/
def Idle (S : System) (k : Nat) : Prop := ∀ i ≥ k, S.phase i = .idle

/-- The sockets among the first `k` with events -/
def entries (S : System) (k : Nat) : List (Nat × EventMask) :=
  (List.range k).filterMap fun i => if S.mask i = 0 then none else some (i, S.mask i)

/-- What holds where the client is. -/
def MainOk (n : Nat) (S : System) : Prop :=
  match S.main with
  | .starting k => S.Idle k ∧ S.resets = []
  | .cleanup k j => S.Halted j ∧ S.Idle k
  | .down => S.Idle n ∧ S.resets = []
  | .stopping k e => S.Halted k ∧ S.Idle n ∧ S.resets = [] ∧ e = if k = 0 then none else S.error (k - 1)
  | .listing k l => S.Halted n ∧ S.Idle n ∧ (∀ i < n, S.error i = none) ∧ k ≤ n ∧ l = S.entries k ∧ S.resets = l
  | .done .enothread => ∀ i, S.phase i = .idle ∨ ∃ r, S.phase i = .stopped r
  | .done (.error _) => S.Halted n ∧ S.Idle n ∧ ∃ i < n, S.error i ≠ none
  | .done (.events l) => S.Halted n ∧ S.Idle n ∧ (∀ i < n, S.error i = none) ∧ l = S.entries n ∧ S.resets = l

/-- The step is not one of the client. -/
structure Quiet (S S' : System) : Prop where
  idle : ∀ i, S.phase i = .idle → S'.phase i = .idle
  stopped : ∀ i r, S.phase i = .stopped r → S'.phase i = .stopped r ∧ S'.error i = S.error i ∧ S'.mask i = S.mask i
  main : S'.main = S.main
  resets : S'.resets = S.resets

theorem Quiet.halted (Q : Quiet S S') {k : Nat} (h : S.Halted k) : S'.Halted k :=
  fun i hi => (h i hi).imp fun r hr => (Q.stopped i r hr).1

theorem Quiet.error (Q : Quiet S S') {k : Nat} (h : S.Halted k) (hi : i < k) : S'.error i = S.error i := by
  obtain ⟨r, hr⟩ := h i hi
  exact (Q.stopped i r hr).2.1

theorem Quiet.entries (Q : Quiet S S') {k m : Nat} (h : S.Halted m) (hk : k ≤ m) : S'.entries k = S.entries k := by
  refine List.filterMap_congr fun i hi => ?_
  obtain ⟨r, hr⟩ := h i ((List.mem_range.mp hi).trans_le hk)
  rw [(Q.stopped i r hr).2.2]

theorem MainOk.quiet (h : MainOk n S) (Q : Quiet S S') : MainOk n S' := by
  have hidle : ∀ {k}, S.Idle k → S'.Idle k := fun h i hi => Q.idle i (h i hi)
  unfold MainOk at h ⊢
  rw [Q.main]
  split at h
  · exact ⟨hidle h.1, Q.resets.trans h.2⟩
  · exact ⟨Q.halted h.1, hidle h.2⟩
  · exact ⟨hidle h.1, Q.resets.trans h.2⟩
  · rename_i k e hmain
    obtain ⟨hhalted, hi, hresets, he⟩ := h
    refine ⟨Q.halted hhalted, hidle hi, Q.resets.trans hresets, ?_⟩
    rw [he]
    split
    · rfl
    · exact (Q.error hhalted (by omega)).symm
  · obtain ⟨hhalted, hi, herror, hk, hl, hresets⟩ := h
    exact ⟨Q.halted hhalted, hidle hi, fun i hi => (Q.error hhalted hi).trans (herror i hi), hk,
      hl.trans (Q.entries hhalted hk).symm, Q.resets.trans hresets⟩
  · exact fun i => (h i).imp (Q.idle i) fun ⟨r, hr⟩ => ⟨r, (Q.stopped i r hr).1⟩
  · obtain ⟨hhalted, hi, i, hin, herror⟩ := h
    exact ⟨Q.halted hhalted, hidle hi, i, hin, (Q.error hhalted hin).symm ▸ herror⟩
  · obtain ⟨hhalted, hi, herror, hl, hresets⟩ := h
    exact ⟨Q.halted hhalted, hidle hi, fun i hi => (Q.error hhalted hi).trans (herror i hi),
      hl.trans (Q.entries hhalted le_rfl).symm, Q.resets.trans hresets⟩

/-- The servers are consistent, a select thread in a queue waits, and the arguments have what was reported. -/
structure Inv (sockets : Nat → SelectSocket) (n : Nat) (S : System) : Prop where
  agrees : ∀ c, ∃ q, Agrees (S.server c) (S.signals c) q
  queued : Queued sockets S.signals S.phase
  error : ∀ i, S.error i = errorOf (S.phase i).report
  mask : ∀ i, S.mask i = maskOf (S.phase i).report
  main : MainOk n S

/-! ## Steps of the components -/

theorem quiet_served {phase' : Nat → Phase} (h : ∀ j, S.phase j = .calling ∨ phase' j = S.phase j) :
    Quiet S (S.served c r res phase') where
  idle j hj := by
    have hp := (h j).resolve_left (by rw [hj]; nofun)
    exact (wake_of_ne (by rw [hp, hj]; nofun)).trans (hp.trans hj)
  stopped j a hj := by
    have hp := (h j).resolve_left (by rw [hj]; nofun)
    exact ⟨(wake_of_ne (by rw [hp, hj]; nofun)).trans (hp.trans hj), rfl, rfl⟩
  main := rfl
  resets := rfl

theorem Inv.served (I : Inv sockets n S) (hok : OpOk (S.server c) ((S.server c).op r))
    (hres : Returns (fun fuel => (S.server c).exec fails fuel r) res) :
    res.reply ≠ .panic ∧ res.wakeups = ((S.signals c).step ((S.server c).op r)).1 ∧ ∀ phase d,
      ∃ q, Agrees ((S.served c r res phase).server d) ((S.served c r res phase).signals d) q := by
  obtain ⟨q, A⟩ := I.agrees c
  obtain ⟨res', q', hres', hpanic, hwakeups, A'⟩ := A.exec fails hok
  obtain rfl := hres.unique hres'
  refine ⟨hpanic, hwakeups, fun phase d => ?_⟩
  by_cases hd : d = c
  · subst hd
    exact ⟨q', by simpa only [System.served, Function.update_self] using A'⟩
  · simpa only [System.served, Function.update_of_ne hd] using I.agrees d

/-- A request of another thread. -/
theorem Inv.other (I : Inv sockets n S) {t : Nat} (hsrc : r.src = .other t)
    (hok : OpOk (S.server c) ((S.server c).op r))
    (hres : Returns (fun fuel => (S.server c).exec fails fuel r) res) :
    Inv sockets n (S.served c r res S.phase) := by
  obtain ⟨-, hwakeups, hagrees⟩ := I.served hok hres
  refine ⟨hagrees S.phase, ?_, fun j => ?_, fun j => ?_, I.main.quiet (quiet_served fun j => .inr rfl)⟩
  · show Queued sockets (Function.update S.signals c _) (wake res.wakeups S.phase)
    rw [hwakeups]
    refine I.queued.step c fun client id events hop => ⟨t, ?_⟩
    rw [(exec_of_wait fails hop).1, hsrc]
  · exact (I.error j).trans (congrArg errorOf (report_wake _ _ j).symm)
  · exact (I.mask j).trans (congrArg maskOf (report_wake _ _ j).symm)

/-- The request of a select thread. -/
theorem Inv.request (I : Inv sockets n S) (hcalling : S.phase i = .calling)
    (hok : OpOk (S.server (sockets i).component) ((S.server (sockets i).component).op (waitRequest sockets i)))
    (hres : Returns (fun fuel => (S.server (sockets i).component).exec fails fuel (waitRequest sockets i)) res) :
    Inv sockets n (S.served (sockets i).component (waitRequest sockets i) res
      (Function.update S.phase i (.ofReply res.reply))) := by
  obtain ⟨hpanic, hwakeups, hagrees⟩ := I.served hok hres
  have hreport : ∀ j, (wake res.wakeups (Function.update S.phase i (.ofReply res.reply)) j).report =
      (S.phase j).report := fun j =>
    (report_wake ..).trans (report_update (by rw [report_ofReply, hcalling]; rfl) j)
  refine ⟨hagrees _, ?_, fun j => ?_, fun j => ?_, I.main.quiet (quiet_served fun j => ?_)⟩
  · show Queued sockets (Function.update S.signals _ _) (wake res.wakeups _)
    rw [hwakeups]
    refine I.queued.request hcalling fun client id events hop => ?_
    obtain ⟨q, A⟩ := I.agrees (sockets i).component
    obtain ⟨hclient, hid, hevents, -⟩ := exec_of_wait fails hop
    refine ⟨hclient, hid, hevents, fun hmiss => ?_⟩
    rw [reply_of_wait A hop hmiss hres hpanic]
    rfl
  · exact (I.error j).trans (congrArg errorOf (hreport j).symm)
  · exact (I.mask j).trans (congrArg maskOf (hreport j).symm)
  · by_cases hj : j = i
    · exact .inl (hj ▸ hcalling)
    · exact .inr (Function.update_of_ne hj _ _)

/-! ## Steps of the client -/

theorem Inv.setMain (I : Inv sockets n S) {m : Main} (hmain : MainOk n { S with main := m }) :
    Inv sockets n { S with main := m } :=
  ⟨I.agrees, I.queued, I.error, I.mask, hmain⟩

/-- A thread that does not wait goes on without a report. -/
theorem Inv.update (I : Inv sockets n S) (hne : S.phase i ≠ .waiting) (hp : p.report = (S.phase i).report) {m : Main}
    (hmain : MainOk n { S with phase := Function.update S.phase i p, main := m }) :
    Inv sockets n { S with phase := Function.update S.phase i p, main := m } :=
  ⟨I.agrees, I.queued.update hne p, fun j => (I.error j).trans (congrArg errorOf (report_update hp j).symm),
    fun j => (I.mask j).trans (congrArg maskOf (report_update hp j).symm), hmain⟩

/-- A thread that runs goes on, and all others stay as they are. -/
theorem running_elsewhere {p₀ : Phase} (h : phase i = p₀) (hidle : p₀ ≠ .idle) (hstopped : ∀ r, p₀ ≠ .stopped r) :
    (∀ j, phase j = .idle → Function.update phase i p j = .idle) ∧
      ∀ j r, phase j = .stopped r → j ≠ i ∧ Function.update phase i p j = .stopped r := by
  refine ⟨fun j hj => ?_, fun j r hj => ?_⟩
  · have hne : j ≠ i := by
      rintro rfl
      exact hidle (h.symm.trans hj)
    exact (Function.update_of_ne hne _ _).trans hj
  · have hne : j ≠ i := by
      rintro rfl
      exact hstopped r (h.symm.trans hj)
    exact ⟨hne, (Function.update_of_ne hne _ _).trans hj⟩

theorem stop_stopped (p : Phase) : ∃ r, p.stop = .stopped r := by
  cases p <;> exact ⟨_, rfl⟩

/-- A thread that may be stopped. -/
theorem StepOk.stop (hok : StepOk n S S') (h : S'.phase i = (S.phase i).stop) :
    S.phase i ≠ .waiting ∧ (S.phase i).stop.report = (S.phase i).report := by
  obtain ⟨r, hr⟩ := stop_stopped (S.phase i)
  obtain hp | hp | ⟨a, hp⟩ := hok.stops i r (h.trans hr)
  · rw [hp]
    exact ⟨nofun, rfl⟩
  · rw [hp]
    exact ⟨nofun, rfl⟩
  · rw [hp]
    exact ⟨nofun, rfl⟩

theorem Halted.stop {k : Nat} (h : S.Halted k) {m : Main} :
    ({ S with phase := Function.update S.phase k (S.phase k).stop, main := m } : System).Halted (k + 1) := by
  intro j hj
  by_cases hjk : j = k
  · subst hjk
    obtain ⟨r, hr⟩ := stop_stopped (S.phase j)
    exact ⟨r, (Function.update_self ..).trans hr⟩
  · obtain ⟨r, hr⟩ := h j (by omega)
    exact ⟨r, (Function.update_of_ne hjk _ _).trans hr⟩

theorem Idle.update {k : Nat} (h : S.Idle k) (hi : i < k) {m : Main} :
    ({ S with phase := Function.update S.phase i p, main := m } : System).Idle k :=
  fun j hj => (Function.update_of_ne (by omega) _ _).trans (h j hj)

theorem entries_succ (S : System) (k : Nat) :
    S.entries (k + 1) = S.entries k ++ if S.mask k = 0 then [] else [(k, S.mask k)] := by
  rw [entries, entries, List.range_succ, List.filterMap_append]
  congr 1
  rw [List.filterMap_cons]
  split
  · rename_i h
    split at h
    · rename_i hm
      rw [if_pos hm]
      rfl
    · cases h
  · rename_i h
    split at h
    · cases h
    · rename_i hm
      cases h
      rw [if_neg hm]
      rfl

theorem Inv.step (I : Inv sockets n S) (h : Step sockets n S S') (hok : StepOk n S S') : Inv sockets n S' := by
  have H := I.main
  unfold MainOk at H
  cases h with
  | start hmain hi =>
    rename_i k
    rw [hmain] at H
    have hidle : S.phase k = .idle := H.1 k le_rfl
    refine I.update (by rw [hidle]; nofun) (by rw [hidle]; rfl) ?_
    exact ⟨fun j hj => (Function.update_of_ne (Nat.ne_of_gt hj) _ _).trans (H.1 j (Nat.le_of_lt hj)), H.2⟩
  | startFails hmain hi =>
    rw [hmain] at H
    exact I.setMain ⟨fun _ hj => absurd hj (Nat.not_lt_zero _), H.1⟩
  | cleanup hmain hj =>
    rw [hmain] at H
    obtain ⟨hne, hreport⟩ := StepOk.stop hok (Function.update_self ..)
    exact I.update hne hreport ⟨Halted.stop H.1, Idle.update H.2 hj⟩
  | cleaned hmain =>
    rename_i k
    rw [hmain] at H
    refine I.setMain fun j => ?_
    obtain hj | hj := Nat.lt_or_ge j k
    · exact .inr (H.1 j hj)
    · exact .inl (H.2 j hj)
  | started hmain =>
    rw [hmain] at H
    exact I.setMain H
  | request hcalling hok' hres => exact I.request hcalling hok' hres
  | ipcFails hcalling =>
    obtain ⟨hidle, hstopped⟩ := running_elsewhere hcalling nofun nofun
    exact I.update (by rw [hcalling]; nofun) (by rw [hcalling]; rfl)
      (I.main.quiet ⟨hidle, fun j a hj => ⟨(hstopped j a hj).2, rfl, rfl⟩, rfl, rfl⟩)
  | other hsrc hok' hres => exact I.other hsrc hok' hres
  | post hanswered =>
    rename_i k a
    obtain ⟨hidle, hstopped⟩ := running_elsewhere hanswered nofun nofun
    refine ⟨I.agrees, I.queued.update (by rw [hanswered]; nofun) _, fun j => ?_, fun j => ?_,
      I.main.quiet ⟨hidle, fun j b hj => ?_, rfl, rfl⟩⟩
    · by_cases hj : j = k
      · subst hj
        show Function.update S.error j _ j = errorOf (Function.update S.phase j _ j).report
        rw [Function.update_self, Function.update_self]
        rfl
      · show Function.update S.error k _ j = errorOf (Function.update S.phase k _ j).report
        rw [Function.update_of_ne hj, Function.update_of_ne hj, I.error]
    · by_cases hj : j = k
      · subst hj
        show Function.update S.mask j _ j = maskOf (Function.update S.phase j _ j).report
        rw [Function.update_self, Function.update_self]
        rfl
      · show Function.update S.mask k _ j = maskOf (Function.update S.phase k _ j).report
        rw [Function.update_of_ne hj, Function.update_of_ne hj, I.mask]
    · obtain ⟨hne, hp⟩ := hstopped j b hj
      exact ⟨hp, Function.update_of_ne hne _ _, Function.update_of_ne hne _ _⟩
  | down hmain hsem =>
    rw [hmain] at H
    exact ⟨I.agrees, I.queued, I.error, I.mask, fun _ hj => absurd hj (Nat.not_lt_zero _), H.1, H.2, rfl⟩
  | stop hmain hi =>
    rw [hmain] at H
    obtain ⟨hne, hreport⟩ := StepOk.stop hok (Function.update_self ..)
    exact I.update hne hreport ⟨Halted.stop H.1, Idle.update H.2.1 hi, H.2.2.1, rfl⟩
  | failed hmain =>
    rw [hmain] at H
    obtain ⟨hhalted, hidle, -, he⟩ := H
    split at he
    · cases he
    · refine I.setMain ⟨hhalted, hidle, n - 1, by omega, ?_⟩
      rw [← he]
      nofun
  | succeeded hmain =>
    rw [hmain] at H
    obtain ⟨hhalted, hidle, hresets, he⟩ := H
    refine I.setMain ⟨hhalted, hidle, fun j hj => ?_, Nat.zero_le n, rfl, hresets⟩
    by_contra herror
    rw [if_neg (by omega)] at he
    exact hok.errors none hmain ⟨j, hj, herror⟩ he.symm
  | skip hmain hi hmask =>
    rw [hmain] at H
    obtain ⟨hhalted, hidle, herror, hk, rfl, hresets⟩ := H
    refine I.setMain ⟨hhalted, hidle, herror, hi, ?_, hresets⟩
    show S.entries _ = S.entries _
    rw [entries_succ, if_pos hmask, List.append_nil]
  | list hmain hi hmask hok' hres =>
    have I' := I.other rfl hok' hres
    have H' := I'.main
    unfold MainOk at H'
    rw [show (S.served _ _ _ S.phase).main = S.main from rfl, hmain] at H'
    obtain ⟨hhalted, hidle, herror, hk, hl, hresets⟩ := H'
    refine ⟨I'.agrees, I'.queued, I'.error, I'.mask, hhalted, hidle, herror, hi, ?_, ?_⟩
    · rw [hl]
      show S.entries _ ++ _ = S.entries _
      rw [entries_succ, if_neg hmask]
    · show S.resets ++ _ = _
      rw [show S.resets = _ from hresets]
  | listed hmain =>
    rw [hmain] at H
    obtain ⟨hhalted, hidle, herror, -, hl, hresets⟩ := H
    exact I.setMain ⟨hhalted, hidle, herror, hl, hresets⟩

theorem Initial.inv (h : Initial S) : Inv sockets n S where
  agrees := h.agrees
  queued c id w hw i hi := absurd hi (h.queued c id w hw i)
  error i := by
    rw [h.error, h.phase]
    rfl
  mask i := by
    rw [h.mask, h.phase]
    rfl
  main := by
    unfold MainOk
    rw [h.main]
    exact ⟨fun i _ => h.phase i, h.resets⟩

theorem Inv.run (I : Inv sockets n S) (hrun : Runs sockets n S S') : Inv sockets n S' := by
  induction hrun with
  | refl => exact I
  | tail _ hstep ih => exact ih.step hstep.1 hstep.2

/-! ## The result -/

/-- What a select thread was answered. -/
def answer (S : System) (i : Nat) : Option (Except Error EventMask) :=
  match S.phase i with
  | .answered r => some r
  | .posted r => some r
  | .stopped r => r
  | _ => none

/-- The sockets whose select threads received an event. -/
def received (S : System) (n : Nat) : List (Nat × EventMask) :=
  (List.range n).filterMap fun i => if maskOf (S.answer i) = 0 then none else some (i, maskOf (S.answer i))

/-- The result fits to the answers of the select threads: an error if and only if one of them was answered by an
error, else all events that were received, which were taken back once. If a thread could not be started, there is
an error in any case. -/
def Returned (n : Nat) (S : System) : Outcome → Prop
  | .enothread => True
  | .error _ => ∃ i < n, errorOf (S.answer i) ≠ none
  | .events l => (∀ i < n, errorOf (S.answer i) = none) ∧ l = S.received n ∧ S.resets = l

theorem Inv.answer (I : Inv sockets n S) (h : S.Halted n) (hi : i < n) :
    S.error i = errorOf (S.answer i) ∧ S.mask i = maskOf (S.answer i) := by
  obtain ⟨r, hr⟩ := h i hi
  rw [I.error, I.mask, System.answer, hr]
  exact ⟨rfl, rfl⟩

theorem Inv.returned (I : Inv sockets n S) {o : Outcome} (hdone : S.main = .done o) : Returned n S o := by
  have H := I.main
  unfold MainOk at H
  rw [hdone] at H
  cases o with
  | enothread => trivial
  | error e =>
    obtain ⟨hhalted, -, i, hi, herror⟩ := H
    exact ⟨i, hi, (I.answer hhalted hi).1 ▸ herror⟩
  | events l =>
    obtain ⟨hhalted, -, herror, hl, hresets⟩ := H
    refine ⟨fun i hi => (I.answer hhalted hi).1 ▸ herror i hi, ?_, hresets⟩
    rw [hl, entries, received]
    refine List.filterMap_congr fun i hi => ?_
    rw [(I.answer hhalted (List.mem_range.mp hi)).2]

/-- After the call no thread runs. -/
theorem Inv.over (I : Inv sockets n S) {o : Outcome} (hdone : S.main = .done o) (i : Nat) :
    S.phase i = .idle ∨ ∃ r, S.phase i = .stopped r := by
  have H := I.main
  unfold MainOk at H
  rw [hdone] at H
  have hsplit : S.Halted n → S.Idle n → S.phase i = .idle ∨ ∃ r, S.phase i = .stopped r := fun hhalted hidle => by
    obtain hi | hi := Nat.lt_or_ge i n
    · exact .inr (hhalted i hi)
    · exact .inl (hidle i hi)
  cases o with
  | enothread => exact H i
  | error e => exact hsplit H.1 H.2.1
  | events l => exact hsplit H.1 H.2.1

/-- No select thread waits, so none is in a queue. -/
theorem Inv.no_waiter (I : Inv sockets n S) {o : Outcome} (hdone : S.main = .done o) (c id : Nat) :
    ∀ w ∈ (S.signals c).queue id, ∀ i, w.client ≠ .select i := by
  intro w hw i hi
  have hwaits := (I.queued c id w hw i hi).1
  obtain hp | ⟨r, hp⟩ := I.over hdone i
  · exact absurd (hp.symm.trans hwaits) nofun
  · exact absurd (hp.symm.trans hwaits) nofun

/-- Where nobody waits at a socket, a request to wait is not refused as busy. -/
theorem not_busy (A : Agrees s σ q) (hempty : σ.queue id = []) {fuel : Nat}
    (hres : s.waitForEvents fuel client id events = some res) : res.reply ≠ .code (some .ebusy) := by
  have hfree : ¬ (s.socket id).waiting &&& events ≠ 0 := fun h => by
    have hany := A.any_hit.mpr h
    rw [hempty] at hany
    cases hany
  rw [EventServer.waitForEvents, if_neg hfree] at hres
  dsimp only at hres
  split at hres
  · split at hres
    · cases hres
      simp
    · split at hres
      · cases hres
        simp
      · obtain ⟨s', -, rfl⟩ := Option.map_eq_some_iff.mp hres
        simp
  · cases hres
    simp

/-- Nothing is left behind: no select thread is in the client list of a component, and a socket at which no other
client waits refuses nobody as busy. -/
def NothingLeft (S : System) : Prop :=
  ∀ c, ∃ q, Agrees (S.server c) (S.signals c) q ∧ (∀ id, ∀ e ∈ q id, ∀ i, (S.server c).id e ≠ .select i) ∧
    ∀ id, (∀ e ∈ q id, ∃ i, (S.server c).id e = .select i) → ∀ client events fuel res,
      (S.server c).waitForEvents fuel client id events = some res → res.reply ≠ .code (some .ebusy)

theorem Inv.nothingLeft (I : Inv sockets n S) {o : Outcome} (hdone : S.main = .done o) : NothingLeft S := by
  intro c
  obtain ⟨q, A⟩ := I.agrees c
  have hnone : ∀ id, ∀ e ∈ q id, ∀ i, (S.server c).id e ≠ .select i := fun id e he => by
    refine I.no_waiter hdone c id ((S.server c).waiter e) ?_
    rw [A.queue]
    exact List.mem_map_of_mem he
  refine ⟨q, A, hnone, fun id hselect client events fuel res hres => not_busy A ?_ hres⟩
  have hempty : q id = [] := List.eq_nil_iff_forall_not_mem.mpr fun e he => by
    obtain ⟨i, hi⟩ := hselect e he
    exact hnone id e he i hi
  rw [A.queue, hempty]
  rfl

end System

/-! ## One and two sockets -/

/-- A component with one socket, whose events were all set `set` times. -/
def component (set : Nat) : EventServer Client where
  socket _ := ⟨true, fun _ => set, 0, none⟩
  id _ := .other 0
  events _ := 0
  next _ := none

/-- The call of `dsi_stream_select` where the events of the component `c` were set `c` times. -/
def called : System where
  server c := component c
  signals c := ⟨fun _ => [], fun _ _ => c, fun _ _ => 0⟩
  phase _ := .idle
  error _ := none
  mask _ := 0
  sem := 0
  main := .starting 0
  resets := []

theorem called_initial : Initial called where
  agrees c := ⟨fun _ => [], {
    inv := {
      listed := fun _ => ⟨rfl, List.nodup_nil, List.Pairwise.nil, rfl⟩
      disjoint := nofun
      lt := nofun
      used := nofun
      free := fun _ _ hne => absurd rfl hne
      valid := fun _ hne => absurd rfl hne }
    queue := fun _ => rfl
    count := fun _ _ _ => rfl }⟩
  queued _ _ _ hw := absurd hw List.not_mem_nil
  phase _ := rfl
  error _ := rfl
  mask _ := rfl
  sem := rfl
  main := rfl
  resets := rfl

/-- The event 0 of the component `i`, for the socket `i` of the list -/
def eventZero (i : Nat) : SelectSocket := ⟨i, 0, 1⟩

theorem StepOk.of_running (h : ∀ i r, S'.phase i ≠ .stopped r) (hmain : ∀ e, S.main ≠ .stopping n e) :
    StepOk n S S' :=
  ⟨fun i r hr => absurd hr (h i r), fun e he => absurd he (hmain e)⟩

theorem running_update (h : ∀ j r, phase j ≠ .stopped r) (hp : ∀ r, p ≠ .stopped r) (j : Nat)
    (r : Option (Except Error EventMask)) : Function.update phase i p j ≠ .stopped r := by
  by_cases hj : j = i
  · subst hj
    rw [Function.update_self]
    exact hp r
  · rw [Function.update_of_ne hj]
    exact h j r

theorem op_eventZero (i : Nat) : (component i).op (waitRequest eventZero i) = .wait (.select i) 0 1 := by
  have hcmd : (waitRequest eventZero i).dw0 &&& ~~~ eventMask = eventWait := by
    show (eventWait ||| (1 &&& eventMask)) &&& ~~~ eventMask = eventWait
    decide
  have hevents : (waitRequest eventZero i).dw0 &&& eventMask = 1 := by
    show (eventWait ||| (1 &&& eventMask)) &&& eventMask = 1
    decide
  have hvalid : ¬ (component i).validSocket (waitRequest eventZero i).dw1 = false := by
    show ¬ (decide (0 < maxSockets) && true) = false
    decide
  rw [EventServer.op, hcmd, hevents, if_neg hvalid, if_neg (by decide), if_neg (by decide), if_pos rfl]
  rfl

/-- The first thread is still in the queue of its component when the second one has its event. -/
theorem select_waiter : ∃ S, Relation.ReflTransGen (Step eventZero 2) called S ∧
    S.main = .done (.events [(1, 1)]) ∧ ∃ w ∈ (S.signals 0).queue 0, w.client = .select 0 := by
  have hwait : ∀ i, OpOk (component i) ((component i).op (waitRequest eventZero i)) := fun i => by
    rw [op_eventZero]
    exact (by decide : (1 : EventMask) ≠ 0)
  have hexec : ∀ {s : EventServer Client} {r : Request Client} {res : Result Client},
      Returns (fun fuel => s.exec (fun _ _ => false) fuel r) res →
        Returns (fun fuel => s.exec (fun _ _ => false) fuel r) res := id
  have hrun : Relation.ReflTransGen (Step eventZero 2) called _ := .head (.start rfl (by decide)) <|
    .head (.start rfl (by decide)) <|
    .head (.started rfl) <|
    .head (.request (i := 0) rfl (hwait 0) (hexec ⟨0, fun _ _ => rfl⟩)) <|
    .head (.request (i := 1) rfl (hwait 1) (hexec ⟨0, fun _ _ => rfl⟩)) <|
    .head (.post (i := 1) rfl) <|
    .head (.down rfl (by decide)) <|
    .head (.stop rfl (by decide)) <|
    .head (.stop rfl (by decide)) <|
    .head (.succeeded rfl) <|
    .head (.skip rfl (by decide) rfl) <|
    .head (.list rfl (by decide) (by decide) trivial (hexec ⟨0, fun _ _ => rfl⟩)) <|
    .single (.listed rfl)
  exact ⟨_, hrun, rfl, ⟨.select 0, 1⟩, .head _, rfl⟩

end L4env.Dsi.Select
