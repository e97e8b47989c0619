import L4env.Fiasco.TimeoutInv

/-!
# Runs of the timeout queue

Each call of `do_timeouts` delivers the timeouts that are due, as long as the timeouts set and the
handlers keep to what the scan of the queues relies on.
-/

namespace L4env.Fiasco.TimeoutQ

open TimeoutNode

variable {α : Type} [DecidableEq α] {q q' q'' : TimeoutQ α} {Q Q' Q'' : Fin 8 → List α}
  {i j : Fin 8} {t u : α} {c w k : Nat} {b : Nat → Bool} {a : TimeoutCall α}
  {l : List (TimeoutCall α)} {f : Expired α} {r : Scan α}

/-! ## Calls -/

/-- The timeout of the call is not set, and the time it is to wake up satisfies `b`. -/
def CallOk (b : Nat → Bool) (q : TimeoutQ α) : TimeoutCall α → Prop
  | .set t clock => q.isSet t = false ∧ b clock = true
  | .setAgain t => q.isSet t = false ∧ (q.hasHit t = true ∨ b (q.wakeup t) = true)
  | .reset _ => True

/-- The calls meet their conditions one after the other. -/
def CallsOk (b : Nat → Bool) : TimeoutQ α → List (TimeoutCall α) → Prop
  | _, [] => True
  | q, a :: l => CallOk b q a ∧ ∀ q', Returns (fun n => call n q a) q' → CallsOk b q' l

/-- The timeouts of a queue whose wakeup time does not satisfy `b`. -/
def pending (b : Nat → Bool) (q : TimeoutQ α) (Q : Fin 8 → List α) (i : Fin 8) : List α :=
  (Q i).filter fun t => !b (q.wakeup t)

/-- New timeouts satisfy `b`, and the others stay in their order. -/
structure Keeps (b : Nat → Bool) (q : TimeoutQ α) (Q : Fin 8 → List α) (q' : TimeoutQ α)
    (Q' : Fin 8 → List α) : Prop where
  queues : Queues q' Q'
  oldClock : q'.oldClock = q.oldClock
  wakeup : ∀ u, q'.wakeup u = q.wakeup u ∨ b (q'.wakeup u) = true
  isSet : ∀ u, q'.isSet u = true →
    q.isSet u = true ∧ q'.wakeup u = q.wakeup u ∨ b (q'.wakeup u) = true
  order : ∀ i, (pending b q' Q' i).Sublist (pending b q Q i)

omit [DecidableEq α] in
theorem Queues.keeps_refl (h : Queues q Q) : Keeps b q Q q Q :=
  ⟨h, rfl, fun _ => .inl rfl, fun _ hu => .inl ⟨hu, rfl⟩, fun _ => .refl _⟩

omit [DecidableEq α] in
theorem Keeps.trans (h : Keeps b q Q q' Q') (h' : Keeps b q' Q' q'' Q'') :
    Keeps b q Q q'' Q'' := by
  refine ⟨h'.queues, h'.oldClock.trans h.oldClock, fun u => ?_, fun u hu => ?_,
    fun i => (h'.order i).trans (h.order i)⟩
  · rcases h'.wakeup u with hw | hw
    · rw [hw]
      exact h.wakeup u
    · exact .inr hw
  · rcases h'.isSet u hu with ⟨hu', hw⟩ | hw
    · rw [hw]
      exact h.isSet u hu'
    · exact .inr hw

/-- A timeout that is not set is put into its queue. -/
theorem Queues.keeps_enqueue (h : Queues q Q) (ht : q.isSet t = false) (hok : b (q.wakeup t)) :
    ∃ q' Q', Returns (fun n => q.enqueue n t) q' ∧ Keeps b q Q q' Q' ∧
      ∀ u, q.isSet u = true → q'.isSet u = true ∧ q'.wakeup u = q.wakeup u := by
  obtain ⟨m, m', q', hQ, hret, hqueues, hset, hw, -, hold⟩ := h.enqueue ht
  refine ⟨q', _, hret, ⟨hqueues, hold, fun u => .inl (by rw [hw]), fun u hu => ?_, fun i => ?_⟩,
    fun u hu => ⟨?_, by rw [hw]⟩⟩
  · rw [hset, Function.update_apply] at hu
    split at hu
    · rename_i e
      rw [hw, e]
      exact .inr hok
    · exact .inl ⟨hu, by rw [hw]⟩
  · unfold pending
    rw [hw, Function.update_apply]
    split
    · rename_i e
      rw [e, hQ, List.filter_append, List.filter_append, List.filter_cons]
      simp [hok]
    · exact .refl _
  · rw [hset, Function.update_apply]
    split
    · rfl
    · exact hu

theorem Queues.keeps_unlink (h : Queues q Q) (ht : q.isSet t = true) :
    ∃ Q', Keeps b q Q (q.unlink t) Q' ∧
      Q' (queueOf (q.wakeup t)) = (Q (queueOf (q.wakeup t))).erase t := by
  obtain ⟨l₁, l₂, hQ, hqueues⟩ := h.unlink ht
  have herase : l₁ ++ l₂ = (l₁ ++ t :: l₂).erase t := by
    have hnd := hQ ▸ h.nodup (queueOf (q.wakeup t))
    have hout : t ∉ l₁ := fun hmem => (List.disjoint_of_nodup_append hnd) hmem (by simp)
    rw [List.erase_append_right _ hout, List.erase_cons_head]
  refine ⟨_, ⟨hqueues, rfl, fun u => .inl rfl, fun u hu => ?_, fun i => ?_⟩, ?_⟩
  · have hu : Function.update q.isSet t false u = true := hu
    rw [Function.update_apply] at hu
    split at hu
    · cases hu
    · exact .inl ⟨hu, rfl⟩
  · refine List.Sublist.filter _ ?_
    rw [Function.update_apply]
    split
    · rename_i e
      rw [e, hQ]
      exact (List.Sublist.refl l₁).append (List.sublist_cons_self t l₂)
    · exact .refl _
  · rw [Function.update_self, hQ, herase]

theorem Queues.call (h : Queues q Q) (ha : CallOk b q a) :
    ∃ q' Q', Returns (fun n => call n q a) q' ∧ Keeps b q Q q' Q' ∧
      ∀ u, q.isSet u = true → a ≠ .reset u → q'.isSet u = true ∧ q'.wakeup u = q.wakeup u := by
  cases a with
  | set t clock =>
    obtain ⟨ht, hok⟩ := ha
    let q₁ : TimeoutQ α := { q with wakeup := Function.update q.wakeup t clock }
    have hw : ∀ u, q.isSet u = true → q₁.wakeup u = q.wakeup u := fun u hu => by
      refine Function.update_of_ne ?_ _ _
      rintro rfl
      rw [ht] at hu
      cases hu
    have hw₁ : q₁.wakeup t = clock := Function.update_self ..
    have h₁ : Queues q₁ Q := h.congr rfl rfl rfl hw
    have hkeeps : Keeps b q Q q₁ Q := by
      refine ⟨h₁, rfl, fun u => ?_, fun u hu => .inl ⟨hu, hw u hu⟩, fun i => ?_⟩
      · rcases eq_or_ne u t with rfl | hu
        · rw [hw₁]
          exact .inr hok
        · exact .inl (Function.update_of_ne hu _ _)
      · unfold pending
        rw [List.filter_congr fun u hu => by rw [hw u ((h.mem u i).mp hu).1]]
    obtain ⟨q', Q', hret, hk, hstay⟩ := h₁.keeps_enqueue (b := b) ht (by rw [hw₁]; exact hok)
    refine ⟨q', Q', hret.congr fun n => ?_, hkeeps.trans hk, fun u hu _ => ?_⟩
    · simp [TimeoutQ.call, TimeoutQ.set, ht, q₁]
    · obtain ⟨hs, hwu⟩ := hstay u hu
      exact ⟨hs, hwu.trans (hw u hu)⟩
  | setAgain t =>
    obtain ⟨ht, hok⟩ := ha
    cases hhit : q.hasHit t with
    | true =>
      refine ⟨q, Q, (Returns.const q).congr fun n => ?_, h.keeps_refl, fun u hu _ => ⟨hu, rfl⟩⟩
      simp [TimeoutQ.call, TimeoutQ.setAgain, ht, hhit]
    | false =>
      rw [hhit, Bool.false_eq_true, false_or] at hok
      obtain ⟨q', Q', hret, hk, hstay⟩ := h.keeps_enqueue ht hok
      refine ⟨q', Q', hret.congr fun n => ?_, hk, fun u hu _ => hstay u hu⟩
      simp [TimeoutQ.call, TimeoutQ.setAgain, ht, hhit]
  | reset t =>
    cases ht : q.isSet t with
    | false =>
      refine ⟨q, Q, (Returns.const q).congr fun n => ?_, h.keeps_refl, fun u hu _ => ⟨hu, rfl⟩⟩
      simp [TimeoutQ.call, TimeoutQ.reset, ht]
    | true =>
      obtain ⟨Q', hk, -⟩ := h.keeps_unlink (b := b) ht
      refine ⟨_, Q', (Returns.const (q.unlink t)).congr fun n => ?_, hk, fun u hu hne => ⟨?_, rfl⟩⟩
      · simp [TimeoutQ.call, TimeoutQ.reset, ht]
      · have hut : u ≠ t := fun e => hne (by rw [e])
        exact (Function.update_of_ne hut _ _).trans hu

theorem Queues.calls (h : Queues q Q) (hl : CallsOk b q l) :
    ∃ q' Q', Returns (fun n => l.foldlM (TimeoutQ.call n) q) q' ∧ Keeps b q Q q' Q' ∧
      ∀ u, q.isSet u = true → .reset u ∉ l → q'.isSet u = true ∧ q'.wakeup u = q.wakeup u := by
  induction l generalizing q Q with
  | nil => exact ⟨q, Q, Returns.const q, h.keeps_refl, fun u hu _ => ⟨hu, rfl⟩⟩
  | cons a l ih =>
    obtain ⟨ha, hrest⟩ := hl
    obtain ⟨q₁, Q₁, hret, hk, hstay⟩ := h.call ha
    obtain ⟨q', Q', hret', hk', hstay'⟩ := ih hk.queues (hrest q₁ hret)
    refine ⟨q', Q', hret.foldlM_cons hret', hk.trans hk', fun u hu hout => ?_⟩
    rw [List.mem_cons, not_or] at hout
    obtain ⟨hs, hw⟩ := hstay u hu (Ne.symm hout.1)
    obtain ⟨hs', hw'⟩ := hstay' u hs hout.2
    exact ⟨hs', hw'.trans hw⟩

/-! ## Scan -/

/-- The wakeup times that are not due. -/
def later (clock w : Nat) : Bool := clock < w

/-- In every consistent state in which a timeout is due, its handler sets timeouts for later only,
and it does not reset the timeout behind it where that one is due as well. -/
def HandlerOk (clock : Nat) (f : Expired α) : Prop :=
  ∀ q Q t, Queues q Q → q.isSet t = true → 0 < q.wakeup t → q.wakeup t ≤ clock →
    CallsOk (later clock) (q.dequeue t) (f (q.dequeue t) t).1 ∧
    ∀ u, .reset u ∈ (f (q.dequeue t) t).1 → q.next (timer t) = some (timer u) → clock < q.wakeup u

/-- What holds of the progress of `do_timeouts` that began in the state `q`. -/
structure Scanned (f : Expired α) (c : Nat) (q : TimeoutQ α) (r : Scan α) (Q : Fin 8 → List α) :
    Prop where
  queues : Queues r.queue Q
  oldClock : r.queue.oldClock = c
  pos : ∀ t, r.queue.isSet t = true → 0 < r.queue.wakeup t
  found : ∀ p ∈ r.calls, p.2.isSet p.1 = true ∧ 0 < p.2.wakeup p.1 ∧ p.2.wakeup p.1 ≤ c
  once : (r.calls.map Prod.fst).Nodup
  again : ∀ p ∈ r.calls, r.queue.isSet p.1 = true → c < r.queue.wakeup p.1
  left : ∀ t, q.isSet t = true → q.wakeup t ≤ c →
    r.queue.isSet t = true ∧ r.queue.wakeup t = q.wakeup t ∨ t ∈ r.calls.map Prod.fst ∨
      ∃ p ∈ r.calls, .reset t ∈ (f (p.2.dequeue p.1) p.1).1

/-- The timeouts that are due are in the queues `S`. -/
def DueIn (c : Nat) (q : TimeoutQ α) (S : Fin 8 → Prop) : Prop :=
  ∀ t, q.isSet t = true → q.wakeup t ≤ c → S (queueOf (q.wakeup t))

/-- The scan of the queue `i` is at its first timeout, which is due, or no timeout of the queue is
due and the scan is about to end. -/
def ScanAt (c : Nat) (q : TimeoutQ α) (Q : Fin 8 → List α) (i : Fin 8) (x : TimeoutNode α) : Prop :=
  (∃ t, x = timer t ∧ (Q i).head? = some t ∧ q.wakeup t ≤ c) ∨
  ((∀ t ∈ Q i, c < q.wakeup t) ∧ (x = root (i + 1) ∨ ∃ t, x = timer t ∧ c < q.wakeup t))

theorem Queues.keeps_dequeue (h : Queues q Q) (ht : q.isSet t = true) :
    ∃ Q', Keeps b q Q (q.dequeue t) Q' ∧
      Q' (queueOf (q.wakeup t)) = (Q (queueOf (q.wakeup t))).erase t := by
  obtain ⟨Q', hk, herase⟩ := h.keeps_unlink (b := b) ht
  exact ⟨Q', ⟨hk.queues.congr rfl rfl rfl fun _ _ => rfl, hk.oldClock, hk.wakeup, hk.isSet,
    hk.order⟩, herase⟩

theorem dequeue_isSet (q : TimeoutQ α) (t u : α) :
    (q.dequeue t).isSet u = true ↔ u ≠ t ∧ q.isSet u = true := by
  show Function.update q.isSet t false u = true ↔ _
  rcases eq_or_ne u t with rfl | hu
  · simp
  · simp [hu]

omit [DecidableEq α] in
/-- The first timeout of a queue that is due stays the first one of the queue. -/
theorem Queues.head_of_sublist {rest : List α} (h : Queues q Q) (hu : u ∈ Q i)
    (hok : b (q.wakeup u) = false) (hanti : ∀ w w', w ≤ w' → b w' = false → b w = false)
    (hsub : (pending b q Q i).Sublist (u :: rest)) (hout : u ∉ rest) : (Q i).head? = some u := by
  unfold pending at hsub
  have hsorted := h.sorted i
  cases hQ : Q i with
  | nil => simp [hQ] at hu
  | cons v m =>
    rw [hQ] at hu hsub hsorted
    have hle : q.wakeup v ≤ q.wakeup u := by
      rcases List.mem_cons.mp hu with rfl | hu
      · exact Nat.le_refl _
      · exact List.rel_of_pairwise_cons hsorted hu
    have hv := hanti _ _ hle hok
    have hmem : u ∈ (v :: m).filter fun t => !b (q.wakeup t) :=
      List.mem_filter.mpr ⟨hu, by simp [hok]⟩
    rw [List.filter_cons_of_pos (by simp [hv])] at hsub hmem
    cases hsub with
    | cons _ hsub => exact absurd (hsub.subset hmem) hout
    | cons_cons _ _ => rfl

theorem later_eq_false : later c w = false ↔ w ≤ c := by simp [later]

omit [DecidableEq α] in
theorem Queues.scanAt_of_pending (h : pending (later c) q Q i = [])
    {x : TimeoutNode α} (hx : x = root (i + 1) ∨ ∃ t, x = timer t ∧ c < q.wakeup t) :
    ScanAt c q Q i x := by
  refine .inr ⟨fun t ht => ?_, hx⟩
  have ht := List.filter_eq_nil_iff.mp h t ht
  simpa [later] using ht

omit [DecidableEq α] in
/-- Where the scan goes on after the handler of the timeout `t` at the front of the queue. -/
theorem Queues.scanAt {L : List α} {x : TimeoutNode α} (h : Queues q Q)
    (hQ : Q i = t :: L) (hx : q.next (timer t) = some x) (hk : Keeps (later c) q Q q' Q')
    (hsub : (pending (later c) q' Q' i).Sublist (L.filter fun u => !later c (q.wakeup u)))
    (hstay : ∀ u ∈ L.head?, x = timer u → q.wakeup u ≤ c →
      q'.isSet u = true ∧ q'.wakeup u = q.wakeup u) : ScanAt c q' Q' i x := by
  obtain ⟨post, hpost⟩ := otherNodes_head Q i
  have hring : IsRing q.next q.prev
      ([root i] ++ timer t :: (L.map timer ++ root (i + 1) :: post)) := by
    rw [← hpost]
    simpa [ringFrom, queueNodes, hQ] using h.ring i
  have hnext := hring.next_eq.symm.trans hx
  cases L with
  | nil => exact scanAt_of_pending (List.sublist_nil.mp hsub) (.inl (Option.some.inj hnext).symm)
  | cons u L =>
    have hxu : x = timer u := (Option.some.inj hnext).symm
    have hsorted := h.sorted i
    have hnd := h.nodup i
    rw [hQ] at hsorted hnd
    rcases Nat.lt_or_ge c (q.wakeup u) with hlt | hle
    · have hnil : ((u :: L).filter fun u => !later c (q.wakeup u)) = [] := by
        refine List.filter_eq_nil_iff.mpr fun v hv => ?_
        have huv : q.wakeup u ≤ q.wakeup v := by
          rcases List.mem_cons.mp hv with rfl | hv
          · exact Nat.le_refl _
          · exact List.rel_of_pairwise_cons (List.pairwise_cons.mp hsorted).2 hv
        simpa [later] using hlt.trans_le huv
      rw [hnil, List.sublist_nil] at hsub
      refine scanAt_of_pending hsub (.inr ⟨u, hxu, ?_⟩)
      rcases hk.wakeup u with hw | hw
      · rw [hw]
        exact hlt
      · exact of_decide_eq_true hw
    · obtain ⟨hset, hw⟩ := hstay u rfl hxu hle
      have hi : queueOf (q.wakeup u) = i := ((h.mem u i).mp (by simp [hQ])).2
      have hmem : u ∈ Q' i := (hk.queues.mem u i).mpr ⟨hset, by rw [hw, hi]⟩
      rw [List.filter_cons_of_pos (by simpa [later] using hle)] at hsub
      refine .inl ⟨u, hxu, hk.queues.head_of_sublist hmem ?_ ?_ hsub ?_, by rwa [hw]⟩
      · rw [hw]
        exact later_eq_false.mpr hle
      · exact fun w w' hww hw' => later_eq_false.mpr (hww.trans (later_eq_false.mp hw'))
      · intro hmem'
        exact (List.nodup_cons.mp (List.nodup_cons.mp hnd).2).1 (List.mem_filter.mp hmem').1

/-- A due timeout is delivered. The scan of its queue goes on at the next one. -/
theorem Scanned.expire (h : Scanned f c q r Q) (hf : HandlerOk c f)
    (ht : (Q i).head? = some t) (hw : r.queue.wakeup t ≤ c) :
    ∃ x r' Q', r.queue.next (timer t) = some x ∧ Returns (fun n => expire f n r t) r' ∧
      Scanned f c q r' Q' ∧ Keeps (later c) r.queue Q r'.queue Q' ∧ ScanAt c r'.queue Q' i x ∧
      (pending (later c) r'.queue Q' i).length < (pending (later c) r.queue Q i).length := by
  obtain ⟨L, hL⟩ := List.head?_eq_some_iff.mp ht
  obtain ⟨hset, hi⟩ := (h.queues.mem t i).mp (by simp [hL])
  have hpos := h.pos t hset
  obtain ⟨hcalls, hreset⟩ := hf r.queue Q t h.queues hset hpos hw
  obtain ⟨Q₁, hk₁, herase⟩ := h.queues.keeps_dequeue (b := later c) hset
  obtain ⟨q', Q', hret, hk₂, hstay⟩ := hk₁.queues.calls hcalls
  rw [hi, hL, List.erase_cons_head] at herase
  have hk := hk₁.trans hk₂
  have hsub : (pending (later c) q' Q' i).Sublist
      (L.filter fun u => !later c (r.queue.wakeup u)) := by
    have hsub := hk₂.order i
    unfold pending at hsub ⊢
    rwa [herase] at hsub
  have hdue : ∀ u, q'.isSet u = true → q'.wakeup u ≤ c →
      u ≠ t ∧ r.queue.isSet u = true ∧ q'.wakeup u = r.queue.wakeup u := by
    intro u hu hle
    rcases hk₂.isSet u hu with ⟨hu', hwu⟩ | hlate
    · obtain ⟨hne, hu'⟩ := (dequeue_isSet r.queue t u).mp hu'
      exact ⟨hne, hu', hwu⟩
    · exact absurd hle (Nat.not_le.mpr (of_decide_eq_true hlate))
  obtain ⟨x, hx⟩ : ∃ x, r.queue.next (timer t) = some x := by
    have hring : IsRing r.queue.next r.queue.prev
        ([root i] ++ timer t :: (L.map timer ++ otherNodes Q i)) := by
      simpa [ringFrom, queueNodes, hL] using h.queues.ring i
    rw [hring.next_eq]
    exact Option.isSome_iff_exists.mp (by simp)
  refine ⟨x, ⟨q', r.reschedule || (f (r.queue.dequeue t) t).2, r.calls ++ [(t, r.queue)]⟩, Q', hx,
    hret.bind (Returns.const _), ⟨hk₂.queues, hk.oldClock.trans h.oldClock, fun u hu => ?_,
    fun p hp => ?_, ?_, fun p hp hp' => ?_, fun u hu hle => ?_⟩, hk, ?_, ?_⟩
  · rcases Nat.lt_or_ge c (q'.wakeup u) with hlt | hle
    · exact Nat.zero_lt_of_lt hlt
    · obtain ⟨-, hu', hwu⟩ := hdue u hu hle
      rw [hwu]
      exact h.pos u hu'
  · rcases List.mem_append.mp hp with hp | hp
    · exact h.found p hp
    · rw [List.mem_singleton.mp hp]
      exact ⟨hset, hpos, hw⟩
  · rw [List.map_append, List.map_singleton, ← List.concat_eq_append, List.nodup_concat]
    refine ⟨fun hmem => ?_, h.once⟩
    obtain ⟨p, hp, rfl⟩ := List.mem_map.mp hmem
    exact absurd hw (Nat.not_le.mpr (h.again p hp hset))
  · by_contra hnot
    obtain ⟨hne, hset', hwu⟩ := hdue p.1 hp' (Nat.le_of_not_lt hnot)
    rcases List.mem_append.mp hp with hp | hp
    · rw [hwu] at hnot
      exact hnot (h.again p hp hset')
    · rw [List.mem_singleton.mp hp] at hne
      exact hne rfl
  · rw [List.map_append, List.mem_append]
    rcases h.left u hu hle with ⟨hu', hwu⟩ | hcall | ⟨p, hp, hres⟩
    · rcases eq_or_ne u t with rfl | hne
      · exact .inr (.inl (.inr (by simp)))
      · by_cases hres : .reset u ∈ (f (r.queue.dequeue t) t).1
        · exact .inr (.inr ⟨(t, r.queue), by simp, hres⟩)
        · obtain ⟨hs, hw'⟩ := hstay u ((dequeue_isSet r.queue t u).mpr ⟨hne, hu'⟩) hres
          exact .inl ⟨hs, hw'.trans hwu⟩
    · exact .inr (.inl (.inl hcall))
    · exact .inr (.inr ⟨p, List.mem_append_left _ hp, hres⟩)
  · refine h.queues.scanAt hL hx hk hsub fun u hu hxu hle => ?_
    have hne : u ≠ t := by
      have hnd := hL ▸ h.queues.nodup i
      rintro rfl
      exact (List.nodup_cons.mp hnd).1 (List.mem_of_mem_head? hu)
    have hu' : r.queue.isSet u = true :=
      ((h.queues.mem u i).mp (by rw [hL]; exact List.mem_cons_of_mem _ (List.mem_of_mem_head? hu))).1
    refine hstay u ((dequeue_isSet r.queue t u).mpr ⟨hne, hu'⟩) fun hres => ?_
    exact absurd hle (Nat.not_le.mpr (hreset u hres (hxu ▸ hx)))
  · refine Nat.lt_of_le_of_lt hsub.length_le ?_
    unfold pending
    rw [hL, List.filter_cons_of_pos (by simpa [later] using hw)]
    exact Nat.lt_succ_self _

omit [DecidableEq α] in
/-- What is due after some calls was so before. -/
theorem Keeps.dueIn {S : Fin 8 → Prop} (h : Keeps (later c) q Q q' Q') (hd : DueIn c q S) :
    DueIn c q' S := by
  intro t ht hle
  rcases h.isSet t ht with ⟨ht', hw⟩ | hlate
  · rw [hw] at hle ⊢
    exact hd t ht' hle
  · exact absurd hle (Nat.not_le.mpr (of_decide_eq_true hlate))

/-- The scan of a queue ends, and no timeout of the queue is due then. -/
theorem Scanned.scanQueue {S : Fin 8 → Prop} {x : TimeoutNode α} (h : Scanned f c q r Q)
    (hf : HandlerOk c f) (hd : DueIn c r.queue S) (hx : ScanAt c r.queue Q i x) :
    ∃ r' Q', Returns (fun n => scanQueue f c (root (i + 1)) n r x) r' ∧ Scanned f c q r' Q' ∧
      DueIn c r'.queue fun j => S j ∧ j ≠ i := by
  generalize hn : (pending (later c) r.queue Q i).length = n
  induction n using Nat.strong_induction_on generalizing r Q x with
  | _ n ih =>
    rcases hx with ⟨t, rfl, ht, hw⟩ | ⟨hlate, hx⟩
    · obtain ⟨x, r₁, Q₁, hnext, hret, h₁, hk, hx, hlt⟩ := h.expire hf ht hw
      obtain ⟨r', Q', hret', h', hd'⟩ := ih _ (hn ▸ hlt) h₁ (hk.dueIn hd) hx rfl
      have hpos := h.pos t ((h.queues.mem t i).mp (List.mem_of_mem_head? ht)).1
      refine ⟨r', Q', (hret.bind (k := fun n r => TimeoutQ.scanQueue f c (root (i + 1)) n r x)
        hret').round fun n => ?_, h', hd'⟩
      rw [TimeoutQ.scanQueue, if_neg (by simp), if_neg (by omega), hnext]
      rfl
    · have hdone : DueIn c r.queue fun j => S j ∧ j ≠ i := by
        intro t ht hle
        refine ⟨hd t ht hle, fun hi => ?_⟩
        exact absurd hle (Nat.not_le.mpr (hlate t ((h.queues.mem t i).mpr ⟨ht, hi⟩)))
      refine ⟨r, Q, (Returns.const r).round fun n => ?_, h, hdone⟩
      rcases hx with rfl | ⟨t, rfl, hlt⟩
      · rw [TimeoutQ.scanQueue, if_pos rfl]
      · rw [TimeoutQ.scanQueue, if_neg (by simp), if_pos (.inr hlt)]

omit [DecidableEq α] in
/-- The scan of a queue begins at its first node. -/
theorem Queues.scanAt_first (h : Queues q Q) (i : Fin 8) :
    ∃ x, q.next (root i) = some x ∧ ScanAt c q Q i x := by
  obtain ⟨post, hpost⟩ := otherNodes_head Q i
  have hring := h.ring i
  unfold ringFrom queueNodes at hring
  rw [List.cons_append] at hring
  have hnext := hring.next_first
  rw [hnext, hpost]
  have hsorted := h.sorted i
  cases hQ : Q i with
  | nil => exact ⟨root (i + 1), rfl, .inr ⟨by simp [hQ], .inl rfl⟩⟩
  | cons t L =>
    refine ⟨timer t, rfl, ?_⟩
    rcases Nat.lt_or_ge c (q.wakeup t) with hlt | hle
    · refine .inr ⟨fun u hu => ?_, .inr ⟨t, rfl, hlt⟩⟩
      rw [hQ] at hu hsorted
      rcases List.mem_cons.mp hu with rfl | hu
      · exact hlt
      · exact hlt.trans_le (List.rel_of_pairwise_cons hsorted hu)
    · exact .inl ⟨t, rfl, by rw [hQ]; rfl, hle⟩

/-- The queues from `i` to the one `k` behind it are scanned, which are all in which a timeout is
due. -/
theorem Scanned.scanQueues (h : Scanned f c q r Q) (hf : HandlerOk c f) (hk : k < 8)
    (hd : DueIn c r.queue fun j => ∃ m ≤ k, j = i + Fin.ofNat 8 m) :
    ∃ r' Q', Returns (fun n => scanQueues f c (i + Fin.ofNat 8 (k + 1)) n r i) r' ∧
      Scanned f c q r' Q' ∧ DueIn c r'.queue fun _ => False := by
  have hstep : ∀ i m, i + Fin.ofNat 8 (m + 1) = i + 1 + Fin.ofNat 8 m := by
    intro i m
    rw [add_assoc]
    congr 1
    ext
    simp [Fin.val_add, Nat.add_comm]
  induction k generalizing i r Q with
  | zero =>
    obtain ⟨x, hx, hat⟩ := h.queues.scanAt_first (c := c) i
    obtain ⟨r', Q', hret, h', hd'⟩ := h.scanQueue hf hd hat
    have hstop : i + 1 = i + Fin.ofNat 8 (0 + 1) := rfl
    refine ⟨r', Q', (hret.bind (k := fun n r => if i + 1 = i + Fin.ofNat 8 (0 + 1) then some r else
      TimeoutQ.scanQueues f c (i + Fin.ofNat 8 (0 + 1)) n r (i + 1))
      ((Returns.const r').congr fun n => if_pos hstop)).round fun n => ?_, h', fun t ht hle => ?_⟩
    · rw [TimeoutQ.scanQueues, hx]
      rfl
    · obtain ⟨⟨m, hm, hi⟩, hne⟩ := hd' t ht hle
      rw [Nat.le_zero.mp hm] at hi
      exact hne (by simpa using hi)
  | succ k ih =>
    obtain ⟨x, hx, hat⟩ := h.queues.scanAt_first (c := c) i
    obtain ⟨r₁, Q₁, hret, h₁, hd₁⟩ := h.scanQueue hf hd hat
    have hrest : DueIn c r₁.queue fun j => ∃ m ≤ k, j = i + 1 + Fin.ofNat 8 m := by
      intro t ht hle
      obtain ⟨⟨m, hm, hi⟩, hne⟩ := hd₁ t ht hle
      cases m with
      | zero => exact absurd (by simpa using hi) hne
      | succ m => exact ⟨m, Nat.le_of_succ_le_succ hm, hi.trans (hstep i m)⟩
    obtain ⟨r', Q', hret', h', hd'⟩ := ih h₁ (Nat.lt_of_succ_lt hk) hrest
    rw [← hstep] at hret'
    have hgo : i + 1 ≠ i + Fin.ofNat 8 (k + 1 + 1) := by
      intro e
      have hval := congrArg Fin.val (add_left_cancel e)
      simp only [Fin.val_one, Fin.val_ofNat] at hval
      omega
    refine ⟨r', Q', (hret.bind (k := fun n r => if i + 1 = i + Fin.ofNat 8 (k + 1 + 1) then some r
      else TimeoutQ.scanQueues f c (i + Fin.ofNat 8 (k + 1 + 1)) n r (i + 1))
      (hret'.congr fun n => if_neg hgo)).round fun n => ?_, h', hd'⟩
    rw [TimeoutQ.scanQueues, hx]
    rfl

/-! ## Timer interrupt -/

/-- The queues that `do_timeouts` scans are those of all the times since it ran last: there are less
than eight windows, or the difference `diff` shows more, or it has the right end by chance. -/
def Covered (oldClock clock : Nat) : Prop :=
  clock >>> wakeupQueueDistance - oldClock >>> wakeupQueueDistance < 8 ∨
  8 ≤ toInt (clock >>> wakeupQueueDistance - oldClock >>> wakeupQueueDistance : Nat) ∨
  toInt (clock >>> wakeupQueueDistance - oldClock >>> wakeupQueueDistance : Nat) % 8 = 7

theorem maskQueue_val (x : Int) : (maskQueue x).val = (x % 8).toNat := by
  unfold maskQueue
  simp only [Fin.val_ofNat]
  omega

theorem toInt_emod (x : Int) : toInt x % 8 = x % 8 := by
  have hdvd : (8 : Int) ∣ 2 ^ 32 := by decide
  have hmod : toInt x % 2 ^ 32 = x % 2 ^ 32 := Int.bmod_emod
  rw [← Int.emod_emod_of_dvd _ hdvd, hmod, Int.emod_emod_of_dvd _ hdvd]

theorem toInt_sub (x y : Int) : toInt (x - toInt y) = toInt (x - y) := Int.sub_bmod_bmod

theorem toInt_of_lt {d : Nat} (h : d < 8) : toInt d = d :=
  Int.bmod_eq_of_le_mul_two (by omega) (by omega)

theorem maskQueue_add (x : Int) (m : Nat) : maskQueue (x + m) = maskQueue x + Fin.ofNat 8 m := by
  ext
  rw [Fin.val_add, maskQueue_val, maskQueue_val, Fin.val_ofNat]
  omega

/-- The queue after a whole round is the first one again. -/
theorem maskQueue_round (x : Int) {d : Int} (hd : d % 8 = 7) :
    maskQueue (x + d + 1) = maskQueue x + Fin.ofNat 8 8 := by
  ext
  rw [Fin.val_add, maskQueue_val, maskQueue_val, Fin.val_ofNat]
  omega

theorem maskQueue_toInt (x : Int) : maskQueue (toInt x) = maskQueue x := by
  ext
  rw [maskQueue_val, maskQueue_val, toInt_emod]

theorem scanRange_spec {old : Nat} (hle : old ≤ c) (hcov : Covered old c) :
    ∃ k < 8, (scanRange old c).2 = (scanRange old c).1 + Fin.ofNat 8 (k + 1) ∧
      ∀ w, old ≤ w → w ≤ c → ∃ m ≤ k, queueOf w = (scanRange old c).1 + Fin.ofNat 8 m := by
  have hmono : ∀ {x y : Nat}, x ≤ y → x >>> wakeupQueueDistance ≤ y >>> wakeupQueueDistance := by
    intro x y hxy
    rw [Nat.shiftRight_eq_div_pow, Nat.shiftRight_eq_div_pow]
    exact Nat.div_le_div_right hxy
  have hall : ∀ i j : Fin 8, ∃ m ≤ 7, j = i + Fin.ofNat 8 m := by
    intro i j
    refine ⟨(j - i).val, Nat.le_of_lt_succ (j - i).isLt, ?_⟩
    rw [Fin.ofNat_val_eq_self, add_sub_cancel]
  have hab := hmono hle
  have hw : ∀ w, old ≤ w → w ≤ c → old >>> wakeupQueueDistance ≤ w >>> wakeupQueueDistance ∧
      w >>> wakeupQueueDistance ≤ c >>> wakeupQueueDistance := fun w h₁ h₂ => ⟨hmono h₁, hmono h₂⟩
  unfold Covered at hcov
  simp only [scanRange, queueOf]
  generalize old >>> wakeupQueueDistance = a at hab hw hcov ⊢
  generalize c >>> wakeupQueueDistance = b at hab hw hcov ⊢
  obtain ⟨d, rfl⟩ := Nat.exists_eq_add_of_le hab
  rw [Nat.add_sub_cancel_left] at hcov
  have hd : ((a + d : Nat) : Int) - (a : Int) = d := by
    rw [Nat.cast_add]
    exact add_sub_cancel_left _ _
  rw [toInt_sub, hd]
  split
  · exact ⟨7, by decide, rfl, fun w _ _ => hall _ _⟩
  · rename_i hlt
    rcases Nat.lt_or_ge d 8 with hsmall | hbig
    · refine ⟨d, hsmall, ?_, fun w h₁ h₂ => ?_⟩
      · rw [toInt_of_lt hsmall, add_assoc, ← Nat.cast_succ, maskQueue_add]
      · obtain ⟨hwa, hwd⟩ := hw w h₁ h₂
        obtain ⟨m, hm⟩ := Nat.exists_eq_add_of_le hwa
        refine ⟨m, Nat.le_of_add_le_add_left (hm ▸ hwd), ?_⟩
        rw [hm, Nat.cast_add, maskQueue_add, maskQueue_toInt]
    · have hseven : toInt d % 8 = 7 := by
        rcases hcov with h | h | h
        · exact absurd h (Nat.not_lt.mpr hbig)
        · exact absurd h hlt
        · exact h
      exact ⟨7, by decide, maskQueue_round _ hseven, fun w _ _ => hall _ _⟩

/-! ## Runs -/

/-- The wakeup times a timeout may be set to: not 0, and not before `do_timeouts` ran last. -/
def ahead (oldClock w : Nat) : Bool := 0 < w ∧ oldClock ≤ w

structure Inv (q : TimeoutQ α) : Prop where
  queues : ∃ Q, Queues q Q
  ahead : ∀ t, q.isSet t = true → 0 < q.wakeup t ∧ q.oldClock ≤ q.wakeup t

/-- A queue without timeouts, as the constructor leaves it. -/
structure Initial (q : TimeoutQ α) : Prop where
  next : ∀ i, q.next (root i) = some (root (i + 1))
  prev : ∀ i, q.prev (root i) = some (root (i - 1))
  isSet : ∀ t, q.isSet t = false
  hasHit : ∀ t, q.hasHit t = false
  oldClock : q.oldClock = 0

/-- What `do_timeouts` relies on when it runs at the time `clock`. -/
structure TickOk (q : TimeoutQ α) (f : Expired α) (clock : Nat) : Prop where
  le : q.oldClock ≤ clock
  covered : Covered q.oldClock clock
  handler : HandlerOk clock f

/-- Calls on timeouts and timer interrupts that meet their conditions. -/
inductive Step : TimeoutQ α → TimeoutQ α → Prop
  | call {q q' : TimeoutQ α} (a : TimeoutCall α) : CallOk (ahead q.oldClock) q a →
    Returns (fun n => call n q a) q' → Step q q'
  | doTimeouts {q : TimeoutQ α} {r : Scan α} (f : Expired α) (clock : Nat) : TickOk q f clock →
    Returns (fun n => q.doTimeouts n f clock) r → Step q r.queue

inductive Reachable : TimeoutQ α → Prop
  | initial {q : TimeoutQ α} : Initial q → Reachable q
  | step {q q' : TimeoutQ α} : Reachable q → Step q q' → Reachable q'

omit [DecidableEq α] in
theorem Initial.inv (h : Initial q) : Inv q := by
  have hne : ∀ t, q.isSet t ≠ true := fun t => by simp [h.isSet t]
  have hring : IsRing q.next q.prev (ringFrom (fun _ : Fin 8 => ([] : List α)) 0) := by
    simp [IsRing, ringFrom, otherNodes, queueNodes, h.next, h.prev]
    rfl
  refine ⟨⟨fun _ => [], ringFrom_all hring, fun _ => List.nodup_nil, fun _ => .nil, fun t i => ?_⟩,
    fun t ht => absurd ht (hne t)⟩
  simp [hne t]

/-- A call on a timeout returns. -/
theorem Inv.call (h : Inv q) (ha : CallOk (TimeoutQ.ahead q.oldClock) q a) :
    ∃ q', Returns (fun n => call n q a) q' ∧ Inv q' := by
  obtain ⟨Q, hQ⟩ := h.queues
  obtain ⟨q', Q', hret, hk, -⟩ := hQ.call ha
  refine ⟨q', hret, ⟨Q', hk.queues⟩, fun t ht => ?_⟩
  rw [hk.oldClock]
  rcases hk.isSet t ht with ⟨ht', hw⟩ | hw
  · rw [hw]
    exact h.ahead t ht'
  · exact of_decide_eq_true hw

theorem Inv.doTimeouts (h : Inv q) (ht : TickOk q f c) :
    ∃ r Q, Returns (fun n => q.doTimeouts n f c) r ∧ Scanned f c q r Q ∧
      ∀ t, r.queue.isSet t = true → c < r.queue.wakeup t := by
  obtain ⟨Q, hQ⟩ := h.queues
  obtain ⟨k, hk, hend, hin⟩ := scanRange_spec ht.le ht.covered
  let r₀ : Scan α := ⟨{ q with oldClock := c }, false, []⟩
  have h₀ : Scanned f c q r₀ Q :=
    ⟨hQ.congr rfl rfl rfl fun _ _ => rfl, rfl, fun t ht => (h.ahead t ht).1, by simp [r₀],
      List.nodup_nil, by simp [r₀], fun t ht _ => .inl ⟨ht, rfl⟩⟩
  have hdue : DueIn c r₀.queue fun j => ∃ m ≤ k, j = (scanRange q.oldClock c).1 + Fin.ofNat 8 m :=
    fun t ht' hle => hin _ (h.ahead t ht').2 hle
  obtain ⟨r, Q', hret, hr, hdone⟩ := h₀.scanQueues ht.handler hk hdue
  refine ⟨r, Q', hret.congr fun n => ?_, hr, fun t ht' => Nat.lt_of_not_le fun hle => hdone t ht' hle⟩
  rw [TimeoutQ.doTimeouts, hend]

theorem Inv.step (h : Inv q) (hs : Step q q') : Inv q' := by
  cases hs with
  | call a ha hret =>
    obtain ⟨q₁, hret', h'⟩ := h.call ha
    rw [hret.unique hret']
    exact h'
  | doTimeouts f clock ht hret =>
    obtain ⟨r, Q, hret', hr, hlate⟩ := h.doTimeouts ht
    rw [hret.unique hret']
    refine ⟨⟨Q, hr.queues⟩, fun t ht' => ⟨hr.pos t ht', ?_⟩⟩
    rw [hr.oldClock]
    exact (hlate t ht').le

theorem Reachable.inv (h : Reachable q) : Inv q := by
  induction h with
  | initial h => exact h.inv
  | step _ hs ih => exact ih.step hs

/-- In every state of a run whose steps meet their conditions, the eight queues hold the timeouts
that are set, sorted by wakeup time. Calls on timeouts return, and `do_timeouts` returns after it
called `expired` once for each timeout that was due and that no handler reset before, and for no
other timeout, and no timeout is due then. -/
theorem timeouts_delivered (h : Reachable q) :
    (∃ Q, Queues q Q) ∧
    (∀ t, q.isSet t = true → 0 < q.wakeup t ∧ q.oldClock ≤ q.wakeup t) ∧
    (∀ a, CallOk (ahead q.oldClock) q a → ∃ q', Returns (fun n => call n q a) q') ∧
    ∀ f clock, TickOk q f clock → ∃ r, Returns (fun n => q.doTimeouts n f clock) r ∧
      (∀ p ∈ r.calls, p.2.isSet p.1 = true ∧ 0 < p.2.wakeup p.1 ∧ p.2.wakeup p.1 ≤ clock) ∧
      (r.calls.map Prod.fst).Nodup ∧
      (∀ t, q.isSet t = true → q.wakeup t ≤ clock → t ∈ r.calls.map Prod.fst ∨
        ∃ p ∈ r.calls, .reset t ∈ (f (p.2.dequeue p.1) p.1).1) ∧
      ∀ t, r.queue.isSet t = true → clock < r.queue.wakeup t := by
  have hinv := h.inv
  refine ⟨hinv.queues, hinv.ahead, fun a ha => ?_, fun f clock ht => ?_⟩
  · obtain ⟨q', hret, -⟩ := hinv.call ha
    exact ⟨q', hret⟩
  · obtain ⟨r, Q, hret, hr, hlate⟩ := hinv.doTimeouts ht
    refine ⟨r, hret, hr.found, hr.once, fun t hset hle => ?_, hlate⟩
    rcases hr.left t hset hle with ⟨hset', hw⟩ | hfound
    · rw [← hw] at hle
      exact absurd hle (Nat.not_le.mpr (hlate t hset'))
    · exact hfound

/-- Four timeouts, none of them set. -/
def fourTimeouts : TimeoutQ (Fin 4) where
  next
    | root i => some (root (i + 1))
    | timer _ => none
  prev
    | root i => some (root (i - 1))
    | timer _ => none
  wakeup _ := 0
  isSet _ := false
  hasHit _ := false
  oldClock := 0

/-- Handlers that do nothing. -/
def idle : Expired (Fin 4) := fun _ _ => ([], false)

/-- The first timeout is set to wake up at 100. -/
def oneTimeout : TimeoutQ (Fin 4) :=
  { fourTimeouts with
    wakeup := Function.update fourTimeouts.wakeup 0 100
    isSet := Function.update fourTimeouts.isSet 0 true }.linkBehind 0 (root 0)

theorem timeouts_delivered_oneTimeout :
    ∃ r, Returns (fun n => oneTimeout.doTimeouts n idle 200) r ∧ 0 ∈ r.calls.map Prod.fst := by
  have hinit : Initial fourTimeouts :=
    ⟨fun _ => rfl, fun _ => rfl, fun _ => rfl, fun _ => rfl, rfl⟩
  have hset : Returns (fun n => call n fourTimeouts (.set 0 100)) oneTimeout :=
    (Returns.const oneTimeout).round fun n => rfl
  have hreach : Reachable oneTimeout := .step (.initial hinit) (.call (.set 0 100) ⟨rfl, rfl⟩ hset)
  have htick : TickOk oneTimeout idle 200 :=
    ⟨by decide, .inl (by decide), fun _ _ _ _ _ _ _ => ⟨trivial, fun _ h => by cases h⟩⟩
  obtain ⟨r, hret, -, -, hall, -⟩ := (timeouts_delivered hreach).2.2.2 idle 200 htick
  refine ⟨r, hret, (hall 0 rfl (by decide)).resolve_right ?_⟩
  rintro ⟨p, -, hp⟩
  cases hp

/-- The handler of the first timeout resets the second one. -/
def resetSecond : Expired (Fin 4) := fun _ t => (if t = 0 then [.reset 1] else [], false)

/-- Where the conditions are not met: no queue with the timeout is scanned after 2^31 windows without
an interrupt, or once a timeout is set again to a time that is over; and a timeout that the handler
before it resets is delivered. -/
theorem timeouts_not_delivered :
    (do
      let q ← fourTimeouts.set 9 0 4096
      let r ← q.doTimeouts 9 idle (2 ^ 43)
      some (r.calls.map Prod.fst, r.queue.isSet 0, r.queue.wakeup 0)) =
      some ([], true, 4096) ∧
    (do
      let q ← fourTimeouts.set 9 0 100
      let r ← q.doTimeouts 9 idle 50
      let r ← (r.queue.reset 0).doTimeouts 9 idle 50000
      let q ← r.queue.setAgain 9 0
      let r ← q.doTimeouts 9 idle 50001
      some (r.calls.map Prod.fst, r.queue.isSet 0, r.queue.wakeup 0)) =
      some ([], true, 100) ∧
    (do
      let q ← fourTimeouts.set 9 0 100
      let q ← q.set 9 1 200
      let r ← q.doTimeouts 9 resetSecond 500
      some (r.calls.map fun p => (p.1, p.2.isSet p.1))) =
      some [(0, true), (1, false)] := by
  decide +kernel

end L4env.Fiasco.TimeoutQ
