import L4env.SimpleTs.Server
import L4env.SimpleTs.KillRun

/-!
# Task server: the life of a task number

A task number is free, owned, or dying: then it still has its owner, and waits for the acknowledgement of
its exit. The server and the acknowledge thread together move every number along this life, in any order of
their steps, if nobody frees a number that is dying: the server does not look whether it is, and would hand
it out again before the acknowledgement of the old task comes and takes it away from its new owner.
-/

namespace L4env.SimpleTs

/-- The life of a task number; `free` if the number is free after the end of its task. -/
inductive Life where
  | idle
  | owned (owner : ThreadId)
  | dying (owner : ThreadId) (free : Bool)
  deriving DecidableEq

namespace TsState

variable {s s' : TsState} {o : Others} {caller client taskid : ThreadId} {n i : Nat} {options : KillOptions}
  {taskno nr pos : Nat}

def life (s : TsState) (i : Nat) : Life :=
  if s.table.used i then
    if s.table.term i then .dying (s.table.owner i) (s.table.free i) else .owned (s.table.owner i)
  else .idle

/-- The tasks whose exits are to be acknowledged. -/
def pending (s : TsState) : List Nat := s.inbox.toList ++ s.queue.map Prod.fst

/-- The numbers that wait for an acknowledgement are dying, and wait for one each. -/
structure Inv (s : TsState) : Prop where
  used : ∀ i, s.table.term i = true → s.table.used i = true
  term : ∀ i ∈ s.pending, s.table.term i = true
  nodup : s.pending.Nodup

theorem life_eq (h : s'.table.used i = s.table.used i) (ht : s'.table.term i = s.table.term i)
    (ho : s'.table.owner i = s.table.owner i) (hf : s'.table.free i = s.table.free i) :
    s'.life i = s.life i := by
  unfold life
  rw [h, ht, ho, hf]

theorem life_owned (hu : s.table.used i = true) (ht : s.table.term i = false) :
    s.life i = .owned (s.table.owner i) := by
  unfold life
  rw [if_pos hu, if_neg (by rw [ht]; simp)]

theorem life_dying (hu : s.table.used i = true) (ht : s.table.term i = true) :
    s.life i = .dying (s.table.owner i) (s.table.free i) := by
  unfold life
  rw [if_pos hu, if_pos ht]

theorem life_idle (hu : s.table.used i = false) : s.life i = .idle := by
  unfold life
  rw [if_neg (by rw [hu]; simp)]

/-! ## Kills -/

/-- What `task_kill` does to a task that it kills: the task is dying, or its number is free at once, or
stays allocated. -/
structure Killed (s s' : TsState) (caller taskid : ThreadId) (n : Nat) : Prop where
  index : s.table.index taskid = some n
  used : s.table.used n = true
  term : s.table.term n = false
  may : s.table.mayKill caller taskid n = true
  queue : s'.queue = s.queue
  moves : s'.life n = s.life n ∨ s'.life n = .idle ∨
    ∃ f, s'.life n = .dying (s.table.owner n) f
  others : ∀ i, i ≠ n → s'.life i = s.life i ∧ s'.table.used i = s.table.used i ∧
    s'.table.term i = s.table.term i
  inbox : s'.inbox = s.inbox ∨ s'.inbox = some n ∧ s'.table.term n = true
  alive : s'.table.term n = true → s'.table.used n = true

/-- With the event server a task that is killed is dying, even if roottask refuses to delete it. Else its
number is free, or nothing changes but what was deleted. -/
theorem killIndex_cases (o : Others) (t : TaskServer) (taskid : ThreadId) (n : Nat) (options : KillOptions) :
    ((t.killIndex o taskid n options).2.used = t.used ∧
      (t.killIndex o taskid n options).2.owner = t.owner ∧
      (t.killIndex o taskid n options).2.term = Function.update t.term n true ∧
      ∀ i, i ≠ n → (t.killIndex o taskid n options).2.free i = t.free i) ∨
    ((t.usingEvents && !options.noev) = false ∧
      (t.killIndex o taskid n options).2.term = t.term ∧
      (t.killIndex o taskid n options).2.free = t.free ∧
      ((t.killIndex o taskid n options).2.used = t.used ∧
        (t.killIndex o taskid n options).2.owner = t.owner ∨
        (t.killIndex o taskid n options).2.used = Function.update t.used n false ∧
        (t.killIndex o taskid n options).2.owner = Function.update t.owner n nilId)) := by
  unfold TaskServer.killIndex
  dsimp only
  by_cases hev : (t.usingEvents && !options.noev) = true
  · rw [hev]
    left
    simp only [if_true]
    split
    · exact ⟨rfl, rfl, rfl, fun _ _ => rfl⟩
    · exact ⟨rfl, rfl, rfl, fun i hi => Function.update_of_ne hi ..⟩
  · rw [Bool.not_eq_true] at hev
    rw [hev]
    right
    simp only [Bool.false_eq_true, if_false]
    split
    · exact ⟨trivial, rfl, rfl, .inl ⟨rfl, rfl⟩⟩
    · split
      · exact ⟨trivial, rfl, rfl, .inr ⟨rfl, rfl⟩⟩
      · exact ⟨trivial, rfl, rfl, .inl ⟨rfl, rfl⟩⟩

/-- A task is killed or not by what the table says about it. -/
theorem tableKill_cases (t : TaskServer) (o : Others) (caller taskid : ThreadId) (options : KillOptions) :
    (∃ e, t.taskKill o caller taskid options = (some e, t)) ∨
      ∃ n, t.index taskid = some n ∧ t.used n = true ∧ t.term n = false ∧
        t.mayKill caller taskid n = true ∧
        t.taskKill o caller taskid options = t.killIndex o taskid n options := by
  unfold TaskServer.taskKill
  cases hi : t.index taskid with
  | none => exact .inl ⟨_, rfl⟩
  | some n =>
    dsimp only
    by_cases hu : t.used n = false
    · rw [if_pos hu]
      exact .inl ⟨_, rfl⟩
    · by_cases ht : t.term n = true
      · rw [if_neg hu, if_pos ht]
        exact .inl ⟨_, rfl⟩
      · by_cases hm : t.mayKill caller taskid n = false
        · rw [if_neg hu, if_neg ht, if_pos hm]
          exact .inl ⟨_, rfl⟩
        · rw [if_neg hu, if_neg ht, if_neg hm]
          exact .inr ⟨n, rfl, by simpa using hu, by simpa using ht, by simpa using hm, rfl⟩

theorem taskKill_cases (s : TsState) (o : Others) (caller taskid : ThreadId) (options : KillOptions) :
    (s.taskKill o caller taskid options).2 = s ∨
      ∃ n, Killed s (s.taskKill o caller taskid options).2 caller taskid n := by
  have hkill := tableKill_cases s.table o caller taskid options
  unfold taskKill
  generalize s.table.taskKill o caller taskid options = r at hkill
  obtain ⟨e, rfl⟩ | ⟨n, hi, hu, ht, hm, rfl⟩ := hkill
  · exact .inl rfl
  · dsimp only
    rw [hi]
    right
    refine ⟨n, ?_⟩
    have hcases := killIndex_cases o s.table taskid n options
    generalize s.table.killIndex o taskid n options = r at hcases
    obtain ⟨hused, howner, hterm, hfree⟩ | ⟨hev, hterm, hfree, hrest⟩ := hcases
    · have hn : r.2.term n = true := by rw [hterm, Function.update_self]
      refine ⟨hi, hu, ht, hm, rfl, .inr (.inr ⟨r.2.free n, ?_⟩), fun i hi => ⟨life_eq ?_ ?_ ?_ ?_, ?_, ?_⟩, ?_,
        fun _ => ?_⟩
      · rw [life_dying (by rw [hused]; exact hu) hn, howner]
      · rw [hused]
      · rw [hterm, Function.update_of_ne hi]
      · rw [howner]
      · exact hfree i hi
      · rw [hused]
      · rw [hterm, Function.update_of_ne hi]
      · dsimp only
        split
        · exact .inr ⟨rfl, hn⟩
        · exact .inl rfl
      · rw [hused]
        exact hu
    · have hinbox : (r.1.isNone && s.table.usingEvents && !options.noev) = false := by
        rw [Bool.and_assoc, hev, Bool.and_false]
      rw [hinbox]
      obtain ⟨hused, howner⟩ | ⟨hused, howner⟩ := hrest
      · exact ⟨hi, hu, ht, hm, rfl, .inl (life_eq (by rw [hused]) (by rw [hterm]) (by rw [howner])
          (by rw [hfree])), fun i _ => ⟨life_eq (by rw [hused]) (by rw [hterm]) (by rw [howner])
            (by rw [hfree]), by rw [hused], by rw [hterm]⟩, .inl rfl, fun _ => by rw [hused]; exact hu⟩
      · refine ⟨hi, hu, ht, hm, rfl, .inr (.inl (life_idle ?_)), fun i hi => ⟨life_eq ?_ ?_ ?_ ?_, ?_, ?_⟩,
          .inl rfl, fun hn => ?_⟩
        · rw [hused, Function.update_self]
        · rw [hused, Function.update_of_ne hi]
        · rw [hterm]
        · rw [howner, Function.update_of_ne hi]
        · rw [hfree]
        · rw [hused, Function.update_of_ne hi]
        · rw [hterm]
        · rw [hterm, ht] at hn
          cases hn

/-! ## Steps -/

/-- What a step does to the life of a number. -/
def Kills (s : TsState) (caller taskid : ThreadId) (i : Nat) (l l' : Life) : Prop :=
  s.table.index taskid = some i ∧ s.table.mayKill caller taskid i = true ∧
    ∃ o, l = .owned o ∧ (l' = .idle ∨ ∃ f, l' = .dying o f)

/-- The steps that change the life of the number `i`, and by whom: a client gets only a free number, only
the owner frees it or gives it away, and only the acknowledgement of its own exit ends a dying one. -/
def Event.Moves (s : TsState) (i : Nat) (l l' : Life) : Event → Prop
  | .request client (.allocate _) | .request client (.allocate2 _) => l = .idle ∧ l' = .owned client
  | .request client (.free _) => (∃ o, taskEqual o client = true ∧ l = .owned o) ∧ l' = .idle
  | .request client (.owner _ owner) => ∃ o, taskEqual o client = true ∧
      (l = .owned o ∧ l' = .owned owner ∨ ∃ f, l = .dying o f ∧ l' = .dying owner f)
  | .request client (.kill taskid _) | .killRecursive client taskid => Kills s client taskid i l l'
  | .exit client => Kills s client client i l l'
  | .killRound => ∃ n, taskEqual (s.table.owner i) (s.table.id n) = true ∧
      Kills s (s.table.id n) (s.table.id i) i l l'
  | .handleAck nr => (i, nr) ∈ s.queue ∧
      ((∃ o, l = .dying o true ∧ l' = .idle) ∨ ∃ o, l = .dying o false ∧ l' = .owned o)
  | _ => False

/-- The owner of a number does not free it while it is dying. -/
def Event.Careful (s : TsState) : Event → Prop
  | .request client (.free taskid) => ∀ n, s.table.entry taskid.task = some n →
      taskEqual (s.table.owner n) client = true → s.table.term n = false
  | _ => True

theorem Inv.congr (h : Inv s) (hterm : s'.table.term = s.table.term)
    (hpending : s'.pending.Subperm s.pending)
    (hused : ∀ i, s.table.term i = true → s.table.used i = true → s'.table.used i = true) : Inv s' := by
  refine ⟨fun i hi => ?_, fun i hi => ?_, ?_⟩
  · rw [hterm] at hi
    exact hused i hi (h.used i hi)
  · rw [hterm]
    exact h.term i (hpending.subset hi)
  · obtain ⟨l, hl, hsub⟩ := hpending
    exact hl.nodup_iff.mp (h.nodup.sublist hsub)

theorem Killed.inv (hk : Killed s s' caller taskid n) (h : Inv s) (hin : s.inbox = none) : Inv s' := by
  have hpending : s.pending = s.queue.map Prod.fst := by
    unfold pending
    rw [hin]
    rfl
  have hn : n ∉ s.pending := fun hmem => by
    have ht := h.term n hmem
    rw [hk.term] at ht
    cases ht
  have hother : ∀ i ∈ s.pending, s'.table.term i = true := by
    intro i hi
    rw [(hk.others i fun e => hn (e ▸ hi)).2.2]
    exact h.term i hi
  have hused : ∀ i, s'.table.term i = true → s'.table.used i = true := by
    intro i hi
    by_cases e : i = n
    · subst e
      exact hk.alive hi
    · rw [(hk.others i e).2.1]
      rw [(hk.others i e).2.2] at hi
      exact h.used i hi
  obtain hin' | ⟨hin', hterm⟩ := hk.inbox
  · have hp' : s'.pending = s.pending := by
      unfold pending
      rw [hin', hk.queue]
    refine ⟨hused, fun i hi => hother i (hp' ▸ hi), ?_⟩
    rw [hp']
    exact h.nodup
  · have hp' : s'.pending = n :: s.pending := by
      rw [hpending]
      unfold pending
      rw [hin', hk.queue]
      rfl
    refine ⟨hused, fun i hi => ?_, ?_⟩
    · rw [hp'] at hi
      obtain rfl | hi := List.mem_cons.mp hi
      · exact hterm
      · exact hother i hi
    · rw [hp']
      exact List.nodup_cons.mpr ⟨hn, h.nodup⟩

theorem Killed.kills (hk : Killed s s' caller taskid n) (i : Nat) :
    s'.life i = s.life i ∨ Kills s caller taskid i (s.life i) (s'.life i) := by
  by_cases e : i = n
  · subst e
    obtain hl | hl := hk.moves
    · exact .inl hl
    · refine .inr ⟨hk.index, hk.may, _, life_owned hk.used hk.term, hl⟩
  · exact .inl (hk.others i e).1

/-- `task_kill` keeps the invariant, and kills what it may. -/
theorem taskKill_moves (h : Inv s) (hin : s.inbox = none) (o : Others) (caller taskid : ThreadId)
    (options : KillOptions) : Inv (s.taskKill o caller taskid options).2 ∧
      ∀ i, (s.taskKill o caller taskid options).2.life i = s.life i ∨
        Kills s caller taskid i (s.life i) ((s.taskKill o caller taskid options).2.life i) := by
  obtain hs | ⟨n, hk⟩ := taskKill_cases s o caller taskid options
  · rw [hs]
    exact ⟨h, fun _ => .inl rfl⟩
  · exact ⟨hk.inv h hin, hk.kills⟩

/-- The stack of the server thread is no data of the tasks. -/
theorem killRecursive_moves (h : Inv s) (hin : s.inbox = none) (o : Others) (caller taskid : ThreadId) :
    Inv (s.killRecursive o caller taskid) ∧
      ∀ i, (s.killRecursive o caller taskid).life i = s.life i ∨
        Kills s caller taskid i (s.life i) ((s.killRecursive o caller taskid).life i) := by
  obtain ⟨hinv, hmoves⟩ := taskKill_moves h hin o caller taskid { free := true, noev := false }
  unfold killRecursive
  dsimp only
  split
  · exact ⟨hinv.congr rfl (.refl _) fun _ _ hu => hu, hmoves⟩
  · exact ⟨hinv, hmoves⟩

theorem take_moves (h : Inv s) (hu : s.table.used n = false) (client : ThreadId) :
    Inv { s with table := s.table.take client n } ∧
      ∀ i, ({ s with table := s.table.take client n } : TsState).life i = s.life i ∨
        s.life i = .idle ∧ ({ s with table := s.table.take client n } : TsState).life i = .owned client := by
  have hterm : s.table.term n = false := by
    by_contra ht
    rw [h.used n (by simpa using ht)] at hu
    cases hu
  refine ⟨h.congr rfl (.refl _) fun i _ hi => ?_, fun i => ?_⟩
  · show Function.update s.table.used n true i = true
    rw [Function.update_apply]
    split
    · rfl
    · exact hi
  · by_cases e : i = n
    · subst e
      refine .inr ⟨life_idle hu, (life_owned ?_ ?_).trans ?_⟩
      · exact Function.update_self ..
      · exact hterm
      · exact congrArg _ (Function.update_self ..)
    · exact .inl (life_eq (Function.update_of_ne e ..) rfl (Function.update_of_ne e ..) rfl)

theorem taskAlloc_eq {t : TaskServer} {taskno : Option Nat} {r : Nat × TaskServer}
    (hr : t.taskAlloc client taskno = .ok r) : t.used r.1 = false ∧ r.2 = t.take client r.1 := by
  unfold TaskServer.taskAlloc at hr
  split at hr
  · split at hr
    · cases hr
    · split at hr
      · cases hr
      · rename_i hu
        cases hr
        exact ⟨by simpa using hu, rfl⟩
  · split at hr
    · cases hr
    · rename_i hn
      cases hr
      exact ⟨by simpa using List.find?_some hn, rfl⟩

theorem taskFree_eq {t t' : TaskServer} (hr : t.taskFree client taskno = .ok t') :
    ∃ n, t.entry taskno = some n ∧ taskEqual (t.owner n) client = true ∧ t.used n = true ∧
      t' = { t with
        used := Function.update t.used n false
        owner := Function.update t.owner n nilId } := by
  unfold TaskServer.taskFree at hr
  split at hr
  · cases hr
  · rename_i n hn
    split at hr
    · cases hr
    · rename_i ho
      split at hr
      · cases hr
      · rename_i hu
        cases hr
        exact ⟨n, hn, by simpa using ho, by simpa using hu, rfl⟩

theorem handleAck_moves (h : Inv s) (nr : Nat) : Inv (s.handleAck nr) ∧
    ∀ i, (s.handleAck nr).life i = s.life i ∨ (i, nr) ∈ s.queue ∧
      ((∃ o, s.life i = .dying o true ∧ (s.handleAck nr).life i = .idle) ∨
        ∃ o, s.life i = .dying o false ∧ (s.handleAck nr).life i = .owned o) := by
  unfold handleAck
  split
  · exact ⟨h, fun _ => .inl rfl⟩
  · rename_i item hitem
    obtain ⟨n, nr'⟩ := item
    have hmem := List.mem_of_find?_eq_some hitem
    have hnr : nr' = nr := by simpa using List.find?_some hitem
    subst hnr
    have hn : n ∈ s.pending := List.mem_append_right _ (List.mem_map_of_mem hmem)
    have hterm := h.term n hn
    have hused := h.used n hterm
    -- the item is the only one of its task
    have hnodup : (s.queue.map Prod.fst).Nodup := (List.nodup_append.mp h.nodup).2.1
    have hperm : s.queue.Perm ((n, nr') :: s.queue.erase (n, nr')) := List.perm_cons_erase hmem
    have hp : s.pending.Perm (n :: (s.inbox.toList ++ (s.queue.erase (n, nr')).map Prod.fst)) := by
      unfold pending
      exact ((hperm.map Prod.fst).append_left _).trans List.perm_middle
    obtain ⟨hout, hnodup'⟩ := List.nodup_cons.mp (hp.nodup_iff.mp h.nodup)
    have hrest : ∀ i ∈ s.inbox.toList ++ (s.queue.erase (n, nr')).map Prod.fst, i ≠ n ∧ i ∈ s.pending :=
      fun i hi => ⟨fun e => hout (e ▸ hi), hp.mem_iff.mpr (List.mem_cons_of_mem _ hi)⟩
    have hlife := life_dying hused hterm
    unfold TaskServer.handleAck
    rw [if_pos hterm]
    dsimp only
    by_cases hf : s.table.free n = true
    · rw [if_pos hf]
      rw [hf] at hlife
      refine ⟨⟨fun i hi => ?_, fun i hi => ?_, hnodup'⟩, fun i => ?_⟩
      · by_cases e : i = n
        · subst e
          cases (Function.update_self i false s.table.term).symm.trans hi
        · exact (Function.update_of_ne e ..).trans
            (h.used i ((Function.update_of_ne e false s.table.term).symm.trans hi))
      · obtain ⟨e, hi⟩ := hrest i hi
        exact (Function.update_of_ne e ..).trans (h.term i hi)
      · by_cases e : i = n
        · subst e
          exact .inr ⟨hmem, .inl ⟨_, hlife, life_idle (Function.update_self ..)⟩⟩
        · exact .inl (life_eq (Function.update_of_ne e ..) (Function.update_of_ne e ..)
            (Function.update_of_ne e ..) rfl)
    · rw [if_neg hf]
      rw [Bool.not_eq_true] at hf
      rw [hf] at hlife
      refine ⟨⟨fun i hi => ?_, fun i hi => ?_, hnodup'⟩, fun i => ?_⟩
      · by_cases e : i = n
        · subst e
          cases (Function.update_self i false s.table.term).symm.trans hi
        · exact h.used i ((Function.update_of_ne e false s.table.term).symm.trans hi)
      · obtain ⟨e, hi⟩ := hrest i hi
        exact (Function.update_of_ne e ..).trans (h.term i hi)
      · by_cases e : i = n
        · subst e
          exact .inr ⟨hmem, .inr ⟨_, hlife, life_owned hused (Function.update_self ..)⟩⟩
        · exact .inl (life_eq rfl (Function.update_of_ne e ..) rfl rfl)

theorem request_moves (h : Inv s) (hin : s.inbox = none) (o : Others) {r : Request}
    (hc : (Event.request client r).Careful s) : Inv (s.request o client r).2 ∧
      ∀ i, (s.request o client r).2.life i = s.life i ∨
        (Event.request client r).Moves s i (s.life i) ((s.request o client r).2.life i) := by
  have hstay : Inv s ∧ ∀ i, s.life i = s.life i ∨
      (Event.request client r).Moves s i (s.life i) (s.life i) := ⟨h, fun _ => .inl rfl⟩
  cases r with
  | allocate taskno =>
    simp only [request]
    split
    · exact hstay
    · rename_i n t hr
      obtain ⟨hu, ht⟩ := taskAlloc_eq hr
      dsimp only at hu ht
      subst ht
      exact take_moves h hu client
  | allocate2 taskno =>
    simp only [request]
    split
    · exact hstay
    · rename_i n t hr
      obtain ⟨hu, ht⟩ := taskAlloc_eq hr
      dsimp only at hu ht
      subst ht
      split
      · exact take_moves h hu client
      · exact take_moves h hu client
  | free taskid =>
    simp only [request]
    split
    · exact hstay
    · rename_i t hr
      obtain ⟨n, hn, ho, hu, rfl⟩ := taskFree_eq hr
      have hterm := hc n hn ho
      refine ⟨h.congr rfl (.refl _) fun i hi hused => ?_, fun i => ?_⟩
      · refine (Function.update_of_ne (fun e => ?_) ..).trans hused
        subst e
        rw [hterm] at hi
        cases hi
      · by_cases e : i = n
        · subst e
          exact .inr ⟨⟨_, ho, life_owned hu hterm⟩, life_idle (Function.update_self ..)⟩
        · exact .inl (life_eq (Function.update_of_ne e ..) rfl (Function.update_of_ne e ..) rfl)
  | tasknoToTaskid taskno => exact hstay
  | create taskid =>
    simp only [request]
    split
    · exact hstay
    · split
      · exact hstay
      · split
        · exact hstay
        · split
          · exact hstay
          · exact hstay
  | kill taskid options => exact taskKill_moves h hin o client taskid options
  | owner taskid owner =>
    simp only [request]
    split
    · exact hstay
    · rename_i ho
      split
      · exact hstay
      · rename_i t hr
        unfold TaskServer.taskSetOwner at hr
        unfold TaskServer.taskGetOwner at ho
        split at hr
        · cases hr
        · rename_i n hn
          split at hr
          · rename_i hu
            cases hr
            rw [hn] at ho
            dsimp only at ho
            rw [if_pos hu, Bool.not_eq_false] at ho
            refine ⟨h.congr rfl (.refl _) fun _ _ hused => hused, fun i => ?_⟩
            by_cases e : i = n
            · subst e
              refine .inr ⟨_, ho, ?_⟩
              by_cases ht : s.table.term i = true
              · refine .inr ⟨_, life_dying hu ht, (life_dying (s := { s with table := { s.table with
                  owner := Function.update s.table.owner i owner } }) hu ht).trans ?_⟩
                exact congrArg (Life.dying · _) (Function.update_self ..)
              · rw [Bool.not_eq_true] at ht
                refine .inl ⟨life_owned hu ht, (life_owned (s := { s with table := { s.table with
                  owner := Function.update s.table.owner i owner } }) hu ht).trans ?_⟩
                exact congrArg _ (Function.update_self ..)
            · exact .inl (life_eq rfl rfl (Function.update_of_ne e ..) rfl)
          · cases hr

theorem step_moves (h : Inv s) (o : Others) {e : Event} (he : e.Enabled s) (hc : e.Careful s) :
    Inv (s.step o e) ∧ ∀ i, (s.step o e).life i = s.life i ∨
      e.Moves s i (s.life i) ((s.step o e).life i) := by
  cases e with
  | request client r => exact request_moves h he.2 o hc
  | exit client =>
    simp only [step, exit]
    split
    · exact ⟨h, fun _ => .inl rfl⟩
    · split
      · exact ⟨h, fun _ => .inl rfl⟩
      · exact killRecursive_moves h he.2 o client client
  | killRecursive client taskid => exact killRecursive_moves h he.2 o client taskid
  | killRound =>
    simp only [step, killRound]
    split
    · exact ⟨h, fun _ => .inl rfl⟩
    · rename_i n j stack hstack
      split
      · rename_i hj
        have hs : Inv { s with stack := (n, j + 1) :: stack } := h.congr rfl (.refl _) fun _ _ hu => hu
        split
        · rename_i hown
          rw [Bool.and_eq_true] at hown
          obtain ⟨hinv, hmoves⟩ := killRecursive_moves hs he.2 o (s.table.id n) (s.table.id j)
          refine ⟨hinv, fun i => ?_⟩
          obtain hl | hk := hmoves i
          · exact .inl hl
          · have hij : j = i := Option.some.inj ((TaskServer.index_id hj).symm.trans hk.1)
            subst hij
            exact .inr ⟨n, hown.2, hk⟩
        · exact ⟨hs, fun _ => .inl rfl⟩
      · exact ⟨h.congr rfl (.refl _) fun _ _ hu => hu, fun _ => .inl rfl⟩
  | sendExitEvent eventnr pos =>
    simp only [step, sendExitEvent]
    split
    · rename_i n nr hn
      refine ⟨h.congr rfl (List.Perm.subperm ?_) fun _ _ hu => hu, fun _ => .inl rfl⟩
      unfold pending
      rw [hn]
      exact (List.perm_insertIdx (n, nr) s.queue he.2).map Prod.fst
    · refine ⟨h.congr rfl (List.Sublist.subperm ?_) fun _ _ hu => hu, fun _ => .inl rfl⟩
      exact List.sublist_append_right _ _
  | handleAck nr => exact handleAck_moves h nr
  | handleTimeout pos =>
    simp only [step, handleTimeout]
    split
    · exact ⟨h, fun _ => .inl rfl⟩
    · rename_i item queue hqueue
      refine ⟨h.congr rfl (List.Perm.subperm ?_) fun _ _ hu => hu, fun _ => .inl rfl⟩
      have hpos : pos ≤ queue.length := by
        have hlt : pos < s.queue.length := he
        rw [hqueue] at hlt
        exact Nat.le_of_lt_succ hlt
      unfold pending
      rw [hqueue]
      exact ((List.perm_insertIdx item queue hpos).map Prod.fst).append_left _

/-! ## Runs -/

/-- A server that has started: the numbers that roottask has refused are marked as terminating. -/
structure Started (s : TsState) : Prop where
  inbox : s.inbox = none
  queue : s.queue = []
  stack : s.stack = []
  term : ∀ i, s.table.term i = s.table.used i

/-- The states of the runs in which nobody frees a number that is dying. -/
inductive Reachable : TsState → Prop
  | start {s : TsState} : Started s → Reachable s
  | step {s : TsState} {e : Event} (o : Others) : Reachable s → e.Enabled s → e.Careful s →
    Reachable (s.step o e)

theorem Started.inv (h : Started s) : Inv s := by
  have hpending : s.pending = [] := by
    unfold pending
    rw [h.inbox, h.queue]
    rfl
  refine ⟨fun i hi => (h.term i).symm.trans hi, fun i hi => ?_, ?_⟩
  · rw [hpending] at hi
    cases hi
  · rw [hpending]
    exact List.nodup_nil

theorem Reachable.inv (h : Reachable s) : Inv s := by
  induction h with
  | start h => exact h.inv
  | step o _ he hc ih => exact (step_moves ih o he hc).1

/-- Two task numbers, both free. -/
def twoNumbers : TsState where
  table :=
    { noOwnerCheck := false
      usingEvents := true
      masterId := 0xffffffff
      taskCnt := 2
      owner _ := nilId
      id i := if i = 0 then 0x00140000 else 0x00160000
      used _ := false
      term _ := false
      free _ := false
      deleted := []
      clock := 0
      id_task := by decide }
  inbox := none
  queue := []
  stack := []

def willing : Others where
  acks _ := []
  getTask _ _ := true

end TsState

end L4env.SimpleTs
