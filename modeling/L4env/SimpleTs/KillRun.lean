import L4env.SimpleTs.Kill
import Mathlib.Tactic

/-!
# Task server: the tasks that a recursive kill deletes

The recursion ends, since a task that it has deleted is never killed again. It deletes what the task owns
transitively, unless a task in between is terminating already: then it turns back there, and what that task
owns stays alive.
-/

namespace L4env.SimpleTs

namespace Others

/-- Roottask deletes every task it is asked to. -/
def Deletes (o : Others) : Prop := ∀ time taskno, o.getTask time taskno = true

/-- No exit is acknowledged. -/
def Quiet (o : Others) : Prop := ∀ time, o.acks time = []

end Others

namespace TaskServer

variable {o : Others} {s s' s'' : TaskServer} {caller taskid : ThreadId} {i j n x : Nat} {d d' : List Nat}

/-- The task is not allocated, or waits only for the acknowledgement that frees it. It is never killed
again. -/
def Dead (s : TaskServer) (i : Nat) : Prop := s.used i = false ∨ s.term i = true ∧ s.free i = true

instance : DecidablePred s.Dead := fun _ => inferInstanceAs (Decidable (_ ∨ _))

/-- The number of tasks that may still be killed. -/
def alive (s : TaskServer) : Nat := ((Finset.range s.taskCnt).filter fun i => ¬ s.Dead i).card

/-- What the server and the others have done, with the tasks `d` that were deleted. -/
structure Since (o : Others) (s s' : TaskServer) (d : List Nat) : Prop where
  taskCnt : s'.taskCnt = s.taskCnt
  id : s'.id = s.id
  noOwnerCheck : s'.noOwnerCheck = s.noOwnerCheck
  masterId : s'.masterId = s.masterId
  deleted : s'.deleted = s.deleted ++ d
  used : ∀ i, s'.used i = true → s.used i = true ∧ s'.owner i = s.owner i
  dead : ∀ i, s.Dead i → s'.Dead i
  gone : ∀ i ∈ d, ¬ s.Dead i ∧ s'.Dead i
  nodup : d.Nodup
  untouched : o.Deletes → ∀ i ∉ d, s.used i = true → s.term i = false →
    s'.used i = true ∧ s'.term i = false
  quiet : o.Quiet → ∀ i, s.term i = true → s'.term i = true ∧ i ∉ d

theorem Since.refl (o : Others) (s : TaskServer) : Since o s s [] where
  taskCnt := rfl
  id := rfl
  noOwnerCheck := rfl
  masterId := rfl
  deleted := (List.append_nil _).symm
  used _ h := ⟨h, rfl⟩
  dead _ h := h
  gone := nofun
  nodup := List.nodup_nil
  untouched _ _ _ hu ht := ⟨hu, ht⟩
  quiet _ _ h := ⟨h, List.not_mem_nil⟩

theorem Since.trans (S : Since o s s' d) (S' : Since o s' s'' d') : Since o s s'' (d ++ d') where
  taskCnt := S'.taskCnt.trans S.taskCnt
  id := S'.id.trans S.id
  noOwnerCheck := S'.noOwnerCheck.trans S.noOwnerCheck
  masterId := S'.masterId.trans S.masterId
  deleted := by rw [S'.deleted, S.deleted, List.append_assoc]
  used i h := by
    obtain ⟨h', howner'⟩ := S'.used i h
    obtain ⟨h'', howner⟩ := S.used i h'
    exact ⟨h'', howner'.trans howner⟩
  dead i h := S'.dead i (S.dead i h)
  gone i hi := by
    obtain hi | hi := List.mem_append.mp hi
    · exact ⟨(S.gone i hi).1, S'.dead i (S.gone i hi).2⟩
    · exact ⟨mt (S.dead i) (S'.gone i hi).1, (S'.gone i hi).2⟩
  nodup := by
    refine List.nodup_append.mpr ⟨S.nodup, S'.nodup, fun i hi j hj e => ?_⟩
    exact (S'.gone j hj).1 (e ▸ (S.gone i hi).2)
  untouched hdel i hi hu ht := by
    rw [List.mem_append, not_or] at hi
    obtain ⟨hu', ht'⟩ := S.untouched hdel i hi.1 hu ht
    exact S'.untouched hdel i hi.2 hu' ht'
  quiet hquiet i h := by
    obtain ⟨h', hi⟩ := S.quiet hquiet i h
    obtain ⟨h'', hi'⟩ := S'.quiet hquiet i h'
    exact ⟨h'', by simp [hi, hi']⟩

theorem Since.alive_subset (S : Since o s s' d) :
    ((Finset.range s'.taskCnt).filter fun i => ¬ s'.Dead i) ⊆
      (Finset.range s.taskCnt).filter fun i => ¬ s.Dead i := by
  intro i hi
  rw [Finset.mem_filter, S.taskCnt] at hi
  exact Finset.mem_filter.mpr ⟨hi.1, mt (S.dead i) hi.2⟩

theorem Since.alive_le (S : Since o s s' d) : s'.alive ≤ s.alive := Finset.card_le_card S.alive_subset

theorem Since.alive_lt (S : Since o s s' d) (hi : i ∈ d) (hcnt : i < s.taskCnt) : s'.alive < s.alive := by
  refine Finset.card_lt_card ⟨S.alive_subset, fun h => ?_⟩
  have hmem := h (Finset.mem_filter.mpr ⟨Finset.mem_range.mpr hcnt, (S.gone i hi).1⟩)
  exact (Finset.mem_filter.mp hmem).2 (S.gone i hi).2

/-! ## Steps -/

theorem handleAck_since (hquiet : ¬ o.Quiet) (i : Nat) : Since o s (s.handleAck i) [] := by
  by_cases ht : s.term i = true
  · by_cases hf : s.free i = true
    · simp only [handleAck, ht, hf, if_true]
      refine { Since.refl o s with used := ?_, dead := ?_, gone := nofun, untouched := ?_, quiet := ?_ }
      · intro j hj
        have hji : j ≠ i := by
          rintro rfl
          simp at hj
        simpa [hji] using hj
      · rintro j hj
        by_cases hji : j = i
        · exact .inl (by simp [hji])
        · simpa [Dead, hji] using hj
      · intro _ j _ hu ht'
        have hji : j ≠ i := by
          rintro rfl
          cases ht.symm.trans ht'
        simpa [hji] using ⟨hu, ht'⟩
      · exact fun h => absurd h hquiet
    · simp only [handleAck, ht, hf, if_true, if_false]
      refine { Since.refl o s with used := ?_, dead := ?_, gone := nofun, untouched := ?_, quiet := ?_ }
      · exact fun j hj => ⟨hj, rfl⟩
      · rintro j (hj | ⟨hj, hj'⟩)
        · exact .inl hj
        · have hji : j ≠ i := fun e => hf (e ▸ hj')
          exact .inr (by simpa [hji] using ⟨hj, hj'⟩)
      · intro _ j _ hu ht'
        by_cases hji : j = i
        · simpa [hji] using hji ▸ hu
        · simpa [hji] using ⟨hu, ht'⟩
      · exact fun h => absurd h hquiet
  · rw [handleAck, if_neg ht]
    exact .refl o s

theorem others_since (o : Others) (s : TaskServer) : Since o s (s.others o) [] := by
  have hclock : Since o s { s with clock := s.clock + 1 } [] := { Since.refl o s with }
  have acks : ∀ (l : List Nat) (t : TaskServer), (o.Quiet → l = []) → Since o t (l.foldl handleAck t) [] := by
    intro l
    induction l with
    | nil => exact fun t _ => .refl o t
    | cons i l ih =>
      intro t hl
      have hquiet : ¬ o.Quiet := fun h => List.cons_ne_nil i l (hl h)
      exact (handleAck_since hquiet i).trans (ih _ fun h => absurd h hquiet)
  exact hclock.trans (acks _ _ fun h => h s.clock)

/-- Only the entry of the task `n` changes, which is deleted. -/
theorem Since.kill (hu : s.used n = true) (ht : s.term n = false) (hcnt : s'.taskCnt = s.taskCnt)
    (hid : s'.id = s.id) (hcheck : s'.noOwnerCheck = s.noOwnerCheck) (hmaster : s'.masterId = s.masterId)
    (hdeleted : s'.deleted = s.deleted ++ [n])
    (hothers : ∀ i, i ≠ n → s'.used i = s.used i ∧ s'.owner i = s.owner i ∧ s'.term i = s.term i ∧
      s'.free i = s.free i)
    (howner : s'.used n = true → s'.owner n = s.owner n) (hdead : s'.Dead n) : Since o s s' [n] where
  taskCnt := hcnt
  id := hid
  noOwnerCheck := hcheck
  masterId := hmaster
  deleted := hdeleted
  used i h := by
    by_cases hi : i = n
    · rw [hi] at h ⊢
      exact ⟨hu, howner h⟩
    · obtain ⟨h1, h2, -, -⟩ := hothers i hi
      exact ⟨h1 ▸ h, h2⟩
  dead i h := by
    by_cases hi : i = n
    · rwa [hi]
    · obtain ⟨h1, -, h3, h4⟩ := hothers i hi
      rwa [Dead, h1, h3, h4]
  gone i hi := by
    rw [List.mem_singleton.mp hi]
    exact ⟨by simp [Dead, hu, ht], hdead⟩
  nodup := List.nodup_singleton n
  untouched _ i hi hu' ht' := by
    obtain ⟨h1, -, h3, -⟩ := hothers i fun e => hi (List.mem_singleton.mpr e)
    exact ⟨h1.trans hu', h3.trans ht'⟩
  quiet _ i h := by
    have hi : i ≠ n := by
      rintro rfl
      cases h.symm.trans ht
    exact ⟨(hothers i hi).2.2.1.trans h, by simpa using hi⟩

/-- The task `n`, which may be killed, is deleted unless roottask fails. -/
theorem killIndex_since (o : Others) (taskid : ThreadId) (hu : s.used n = true) (ht : s.term n = false) :
    ∃ e s' d, s.killIndex o taskid n { free := true, noev := false } = (e, s') ∧ Since o s s' d ∧
      (e ≠ none → d = []) ∧ (e = none → d = [n]) ∧ (o.Deletes → e = none) := by
  have hterm : ∀ {x}, s.term x = true → x ≠ n := by
    rintro x hx rfl
    cases hx.symm.trans ht
  by_cases hget : o.getTask s.clock taskid.task = false
  · have hdel : ¬ o.Deletes := fun h => by cases hget.symm.trans (h _ _)
    cases hev : s.usingEvents with
    | true =>
      refine ⟨some .unknown, { s with term := Function.update s.term n true }, [],
        by simp [killIndex, hev, hget], ?_, fun _ => rfl, nofun, fun h => absurd h hdel⟩
      refine { Since.refl o s with
        used := fun i h => ⟨h, rfl⟩, dead := ?_, gone := nofun, untouched := fun h => absurd h hdel, quiet := ?_ }
      · rintro i (h | ⟨h, h'⟩)
        · exact .inl h
        · exact .inr ⟨by simpa [hterm h] using h, h'⟩
      · intro _ i h
        exact ⟨by simpa [hterm h] using h, List.not_mem_nil⟩
    | false =>
      exact ⟨some .unknown, s, [], by simp [killIndex, hev, hget], .refl o s, fun _ => rfl, nofun,
        fun h => absurd h hdel⟩
  · cases hev : s.usingEvents with
    | true =>
      refine ⟨none, _, [n], by simp [killIndex, hev, hget]; rfl, ?_, by simp, fun _ => rfl, fun _ => rfl⟩
      refine .kill hu ht rfl rfl rfl rfl rfl (fun i hi => ?_) (fun _ => rfl) (.inr ?_)
      · simp [hi]
      · simp
    | false =>
      refine ⟨none, _, [n], by simp [killIndex, hev, hget]; rfl, ?_, by simp, fun _ => rfl, fun _ => rfl⟩
      refine .kill hu ht rfl rfl rfl rfl rfl (fun i hi => ?_) (fun h => ?_) (.inl ?_)
      · simp [hi]
      · simp at h
      · simp

/-- `task_kill` has returned `e`, with the tasks `d` deleted: one task, or none if it fails. -/
structure Kill (o : Others) (s : TaskServer) (caller taskid : ThreadId) (e : Option KillError)
    (s' : TaskServer) (d : List Nat) : Prop where
  since : Since o s s' d
  failed : e ≠ none → d = []
  deleted : e = none → ∃ n, s.index taskid = some n ∧ d = [n]
  succeeds : o.Deletes → ∀ n, s.index taskid = some n → s.used n = true → s.term n = false →
    s.mayKill caller taskid n = true → e = none

theorem taskKill_spec (o : Others) (s : TaskServer) (caller taskid : ThreadId) : ∃ e s' d,
    s.taskKill o caller taskid { free := true, noev := false } = (e, s') ∧ Kill o s caller taskid e s' d := by
  have fails : ∀ e : KillError, (∀ n, s.index taskid = some n → s.used n = true → s.term n = false →
      s.mayKill caller taskid n = false) → Kill o s caller taskid (some e) s [] := by
    refine fun e hno => ⟨.refl o s, fun _ => rfl, nofun, fun _ n hn hu ht hmay => ?_⟩
    cases hmay.symm.trans (hno n hn hu ht)
  cases hn : s.index taskid with
  | none => exact ⟨some .notFound, s, [], by rw [taskKill, hn], fails _ (by simp [hn])⟩
  | some n =>
    simp only [taskKill, hn]
    cases hu : s.used n with
    | false => exact ⟨some .unknown, s, [], rfl, fails _ (by simp [hn, hu])⟩
    | true =>
      cases ht : s.term n with
      | true => exact ⟨some .unknown, s, [], rfl, fails _ (by simp [hn, ht])⟩
      | false =>
        cases hmay : s.mayKill caller taskid n with
        | false => exact ⟨some .notOwner, s, [], rfl, fails _ (by simp [hn, hmay])⟩
        | true =>
          obtain ⟨e, s', d, hkill, S, hfail, hok, hdel⟩ := killIndex_since o taskid hu ht
          exact ⟨e, s', d, hkill, S, hfail, fun h => ⟨n, hn, hok h⟩, fun h _ _ _ _ _ => hdel h⟩

/-! ## The recursion -/

theorem Since.owns (S : Since o s s' d) (h : s'.Owns i j) : s.Owns i j := by
  obtain ⟨hj, hu, howner⟩ := h
  obtain ⟨hu', howner'⟩ := S.used j hu
  exact ⟨S.taskCnt ▸ hj, hu', by rw [← howner', ← S.id]; exact howner⟩

theorem Since.ownsAll (S : Since o s s' d) (h : s'.OwnsAll i j) : s.OwnsAll i j :=
  Relation.ReflTransGen.mono (fun _ _ => S.owns) _ _ h

/-- A task that was not deleted is still there with its owner. -/
theorem Since.owns_of_not_mem (S : Since o s s' d) (hdel : o.Deletes) (hj : j ∉ d) (h : s.Owns i j)
    (ht : s.term j = false) : s'.Owns i j ∧ s'.term j = false := by
  obtain ⟨hlt, hu, howner⟩ := h
  obtain ⟨hu', ht'⟩ := S.untouched hdel j hj hu ht
  obtain ⟨-, howner'⟩ := S.used j hu'
  exact ⟨⟨S.taskCnt ▸ hlt, hu', by rw [howner', S.id]; exact howner⟩, ht'⟩

/-- The tasks `d` were deleted: tasks that `x` owns, and with each of them those it owns. -/
structure Covers (o : Others) (s s' : TaskServer) (x : Nat) (d : List Nat) : Prop where
  since : Since o s s' d
  sound : ∀ i ∈ d, s.OwnsAll x i
  closed : o.Deletes → ∀ i ∈ d, ∀ j, s.Owns i j → s.term j = false → j ∈ d

theorem Since.covers (S : Since o s s' []) : Covers o s s' x [] := ⟨S, nofun, fun _ => nofun⟩

theorem Covers.trans (C : Covers o s s' x d) (C' : Covers o s' s'' x d') : Covers o s s'' x (d ++ d') where
  since := C.since.trans C'.since
  sound i hi := by
    obtain hi | hi := List.mem_append.mp hi
    · exact C.sound i hi
    · exact C.since.ownsAll (C'.sound i hi)
  closed hdel i hi j hij ht := by
    obtain hi | hi := List.mem_append.mp hi
    · exact List.mem_append_left _ (C.closed hdel i hi j hij ht)
    · by_cases hj : j ∈ d
      · exact List.mem_append_left _ hj
      · obtain ⟨hij', ht'⟩ := C.since.owns_of_not_mem hdel hj hij ht
        exact List.mem_append_right _ (C'.closed hdel i hi j hij' ht')

/-- The task `x` may be killed by the caller. -/
def Killable (s : TaskServer) (caller taskid : ThreadId) (x : Nat) : Prop :=
  s.index taskid = some x ∧ s.used x = true ∧ s.term x = false ∧ s.mayKill caller taskid x = true

/-- What `task_kill_recursive` returns and does. -/
structure KillAll (o : Others) (s : TaskServer) (caller taskid : ThreadId) (e : Option KillError)
    (s' : TaskServer) (d : List Nat) : Prop where
  covers : Covers o s s' (taskid.task - tasknoMin) d
  succeeds : o.Deletes → ∀ x, s.Killable caller taskid x → e = none ∧ x ∈ d

theorem index_id (hi : i < s.taskCnt) : s.index (s.id i) = some i := by
  have htask := s.id_task i hi
  rw [index, htask, Nat.add_sub_cancel, if_pos ⟨Nat.le_add_left _ _, hi⟩]

theorem index_eq (h : s.index taskid = some x) : taskid.task - tasknoMin = x ∧ x < s.taskCnt := by
  rw [index] at h
  split at h
  · rename_i hlt
    cases h
    exact ⟨rfl, hlt.2⟩
  · cases h

/-- The recursive calls on servers with less than `k` tasks alive do what they should. -/
def Kills (o : Others) (k : Nat) : Prop := ∀ t : TaskServer, t.alive < k → ∀ caller taskid, ∃ e t' d,
  Returns (fun fuel => taskKillRecursive o fuel t caller taskid) (e, t') ∧ KillAll o t caller taskid e t' d

theorem killOwned_spec {k : Nat} (ih : Kills o k) (hk : s.alive < k) (hi : i < s.taskCnt) (n : Nat) :
    ∃ s' d, Returns (fun fuel => killOwned o (taskKillRecursive o fuel) n s i) s' ∧ Covers o s s' n d ∧
      (o.Deletes → s.Owns n i → s.term i = false → i ∈ d) := by
  have S := others_since o s
  have hi₁ : i < (s.others o).taskCnt := S.taskCnt ▸ hi
  by_cases hown : ((s.others o).used i && taskEqual ((s.others o).owner i) ((s.others o).id n)) = true
  · have hown' := Bool.and_eq_true_iff.mp hown
    have howns : (s.others o).Owns n i := ⟨hi₁, hown'⟩
    obtain ⟨e, s', d, hrun, K⟩ := ih (s.others o) (S.alive_le.trans_lt hk) ((s.others o).id n)
      ((s.others o).id i)
    have hindex := index_id hi₁
    obtain ⟨htask, -⟩ := index_eq hindex
    have C := K.covers
    rw [htask] at C
    refine ⟨s', d, ?_, S.covers.trans ⟨C.since, fun j hj => .head howns (C.sound j hj), C.closed⟩, ?_⟩
    · refine (hrun.map Prod.snd).congr fun fuel => ?_
      simp only [killOwned, hown, if_true]
    · intro hdel howns' ht
      obtain ⟨-, ht'⟩ := S.owns_of_not_mem hdel List.not_mem_nil howns' ht
      refine (K.succeeds hdel i ⟨hindex, hown'.1, ht', ?_⟩).2
      simp [mayKill, hown'.2]
  · refine ⟨s.others o, [], (Returns.const _).congr fun fuel => ?_, S.covers, fun hdel howns ht => ?_⟩
    · simp only [killOwned, hown]
      rfl
    · obtain ⟨⟨-, hu, howner⟩, -⟩ := S.owns_of_not_mem hdel List.not_mem_nil howns ht
      exact absurd (Bool.and_eq_true_iff.mpr ⟨hu, howner⟩) hown

/-- A recursive call for each task in the list that `n` owns. -/
theorem killOwned_loop {k : Nat} (ih : Kills o k) {l : List Nat} (hk : s.alive < k)
    (hl : ∀ i ∈ l, i < s.taskCnt) (n : Nat) :
    ∃ s' d, Returns (fun fuel => l.foldlM (killOwned o (taskKillRecursive o fuel) n) s) s' ∧
      Covers o s s' n d ∧ (o.Deletes → ∀ i ∈ l, s.Owns n i → s.term i = false → i ∈ d) := by
  induction l generalizing s with
  | nil => exact ⟨s, [], Returns.const s, (Since.refl o s).covers, fun _ => nofun⟩
  | cons i l ihl =>
    obtain ⟨s₁, d₁, hround, C₁, hi₁⟩ := killOwned_spec ih hk (hl i List.mem_cons_self) n
    obtain ⟨s₂, d₂, hloop, C₂, hi₂⟩ := ihl (C₁.since.alive_le.trans_lt hk) fun j hj =>
      C₁.since.taskCnt ▸ hl j (List.mem_cons_of_mem _ hj)
    refine ⟨s₂, d₁ ++ d₂, hround.foldlM_cons hloop, C₁.trans C₂, fun hdel j hj hown ht => ?_⟩
    obtain rfl | hj := List.mem_cons.mp hj
    · exact List.mem_append_left _ (hi₁ hdel hown ht)
    · by_cases hj₁ : j ∈ d₁
      · exact List.mem_append_left _ hj₁
      · obtain ⟨hown', ht'⟩ := C₁.since.owns_of_not_mem hdel hj₁ hown ht
        exact List.mem_append_right _ (hi₂ hdel j hj hown' ht')

/-- The recursion ends: with each task it deletes there is one less that it may delete. -/
theorem taskKillRecursive_spec (o : Others) (s : TaskServer) (caller taskid : ThreadId) : ∃ e s' d,
    Returns (fun fuel => taskKillRecursive o fuel s caller taskid) (e, s') ∧
      KillAll o s caller taskid e s' d := by
  induction hk : s.alive using Nat.strong_induction_on generalizing s caller taskid with
  | _ k ih =>
    have ih : Kills o k := fun t ht caller taskid => ih _ ht t caller taskid rfl
    have S₁ := others_since o s
    obtain ⟨e, s₂, d₂, hkill, K⟩ := taskKill_spec o (s.others o) caller taskid
    have S₂ := S₁.trans K.since
    have hindex : (s.others o).index taskid = s.index taskid := by rw [index, index, S₁.taskCnt]
    -- the others leave a task alone that may be killed
    have hmay : o.Deletes → ∀ x, s.Killable caller taskid x → e = none := by
      rintro hdel x ⟨hx, hu, ht, hmay⟩
      obtain ⟨hu', ht'⟩ := S₁.untouched hdel x List.not_mem_nil hu ht
      refine K.succeeds hdel x (hindex.trans hx) hu' ht' ?_
      rw [mayKill, S₁.noOwnerCheck, S₁.masterId, (S₁.used x hu').2]
      exact hmay
    cases e with
    | some e =>
      obtain rfl := K.failed nofun
      refine ⟨some e, s₂, [], (Returns.const _).round fun fuel => ?_, S₂.covers, fun hdel x hx => ?_⟩
      · rw [taskKillRecursive, hkill]
      · cases hmay hdel x hx
    | none =>
      obtain ⟨n, hn, rfl⟩ := K.deleted rfl
      rw [hindex] at hn
      obtain ⟨htask, hlt⟩ := index_eq hn
      have hlt₂ : s₂.alive < k := hk ▸ S₂.alive_lt (List.mem_singleton_self n) hlt
      obtain ⟨s₃, d₃, hloop, C₃, hall⟩ := killOwned_loop ih hlt₂ (l := List.range s₂.taskCnt)
        (fun i hi => List.mem_range.mp hi) n
      refine ⟨none, s₃, [n] ++ d₃, (hloop.map fun s => (none, s)).round fun fuel => ?_, ?_, fun _ x hx => ?_⟩
      · rw [taskKillRecursive, hkill, htask]
      · rw [htask]
        refine ⟨S₂.trans C₃.since, fun i hi => ?_, fun hdel i hi j hown ht => ?_⟩
        · obtain hi | hi := List.mem_append.mp hi
          · rw [List.mem_singleton.mp hi]
            exact .refl
          · exact S₂.ownsAll (C₃.sound i hi)
        · by_cases hj : j ∈ [n]
          · exact List.mem_append_left _ hj
          · obtain ⟨hown', ht'⟩ := S₂.owns_of_not_mem hdel hj hown ht
            refine List.mem_append_right _ ?_
            obtain hi | hi := List.mem_append.mp hi
            · rw [List.mem_singleton.mp hi] at hown'
              exact hall hdel j (List.mem_range.mpr hown'.1) hown' ht'
            · exact C₃.closed hdel i hi j hown' ht'
      · obtain rfl : n = x := Option.some.inj (hn.symm.trans hx.1)
        exact ⟨rfl, by simp⟩

/-! ## The tasks that are deleted -/

/-- The kill deletes the task `x` and all tasks it owns transitively, each once. -/
def DeletesClosure (o : Others) (s : TaskServer) (caller taskid : ThreadId) (x : Nat) : Prop :=
  ∃ s' d, Returns (fun fuel => taskKillRecursive o fuel s caller taskid) (none, s') ∧
    s'.deleted = s.deleted ++ d ∧ d.Nodup ∧ ∀ i, i ∈ d ↔ s.OwnsAll x i

/-- A task that is terminating already is not deleted if its exit is not acknowledged meanwhile. -/
theorem not_deletesClosure (hquiet : o.Quiet) (hown : s.OwnsAll x i) (ht : s.term i = true) :
    ¬ s.DeletesClosure o caller taskid x := by
  rintro ⟨s', d, hrun, hdeleted, -, hmem⟩
  obtain ⟨e, s'', d', hrun', K⟩ := taskKillRecursive_spec o s caller taskid
  have heq := hrun.unique hrun'
  obtain rfl : s' = s'' := congrArg Prod.snd heq
  obtain rfl : d = d' := List.append_cancel_left (hdeleted.symm.trans K.covers.since.deleted)
  exact (K.covers.since.quiet hquiet i ht).2 ((hmem i).mpr hown)

theorem deletesClosure (hdel : o.Deletes) (hkill : s.Killable caller taskid x)
    (hterm : ∀ i, s.OwnsAll x i → s.term i = false) : s.DeletesClosure o caller taskid x := by
  obtain ⟨e, s', d, hrun, K⟩ := taskKillRecursive_spec o s caller taskid
  obtain ⟨rfl, hx⟩ := K.succeeds hdel x hkill
  have hsound := K.covers.sound
  rw [(index_eq hkill.1).1] at hsound
  refine ⟨s', d, hrun, K.covers.since.deleted, K.covers.since.nodup, fun i => ⟨hsound i, fun hown => ?_⟩⟩
  induction hown with
  | refl => exact hx
  | tail hown hstep ih => exact K.covers.closed hdel _ ih _ hstep (hterm _ (.tail hown hstep))

/-- A recursive kill ends. It deletes exactly the tasks that the task owns transitively, whatever exits
are acknowledged meanwhile, if and only if none of them is terminating. -/
theorem kills_closure_iff (s : TaskServer) (caller taskid : ThreadId) :
    (∀ o : Others, ∃ r, Returns (fun fuel => taskKillRecursive o fuel s caller taskid) r) ∧
    ∀ x, s.Killable caller taskid x →
      ((∀ o : Others, o.Deletes → s.DeletesClosure o caller taskid x) ↔
        ∀ i, s.OwnsAll x i → s.term i = false) := by
  refine ⟨fun o => ?_, fun x hkill => ⟨fun H i hown => ?_, ?_⟩⟩
  · obtain ⟨e, s', -, hrun, -⟩ := taskKillRecursive_spec o s caller taskid
    exact ⟨(e, s'), hrun⟩
  · by_contra ht
    rw [Bool.not_eq_false] at ht
    exact not_deletesClosure (o := ⟨fun _ => [], fun _ _ => true⟩) (fun _ => rfl) hown ht
      (H _ fun _ _ => rfl)
  · exact fun hterm o hdel => deletesClosure hdel hkill hterm

/-- The task 0 owns the task 1, which is terminating if `t` says so, and that one owns the task 2. -/
def chain (t : Bool) : TaskServer where
  noOwnerCheck := false
  usingEvents := true
  masterId := 0xffffffff
  taskCnt := 3
  owner i := if i = 0 then nilId else BitVec.ofNat 32 ((i + 9) * 131072)
  id i := BitVec.ofNat 32 ((i + 10) * 131072)
  used _ := true
  term i := i = 1 && t
  free _ := true
  deleted := []
  clock := 0
  id_task := by decide

theorem chain_killable (t : Bool) : (chain t).Killable 0x00140000 0x00140000 0 := by
  cases t <;> exact ⟨by decide, rfl, rfl, by decide⟩

theorem kills_closure_iff_chain :
    (∀ o : Others, o.Deletes → (chain false).DeletesClosure o 0x00140000 0x00140000 0) ↔
      ∀ i, (chain false).OwnsAll 0 i → (chain false).term i = false :=
  (kills_closure_iff _ _ _).2 _ (chain_killable false)

/-- The kill turns back at the task 1. -/
theorem kills_not_closure : ¬ ∀ (o : Others) (s : TaskServer) (caller taskid : ThreadId) (x : Nat),
    s.Killable caller taskid x → o.Deletes → s.DeletesClosure o caller taskid x := by
  intro H
  have hown : (chain true).OwnsAll 0 1 := .single ⟨by decide, rfl, by decide⟩
  exact not_deletesClosure (o := ⟨fun _ => [], fun _ _ => true⟩) (fun _ => rfl) hown rfl
    (H _ _ _ _ _ (chain_killable true) fun _ _ => rfl)

/-- The task 2 stays alive. -/
example : (taskKillRecursive ⟨fun _ => [], fun _ _ => true⟩ 3 (chain true) 0x00140000 0x00140000).map
    (fun r => r.2.deleted) = some [0] := by decide +kernel

end TaskServer

end L4env.SimpleTs
