import L4env.Fiasco.Preemption

/-!
# Preemption events are not lost

In runs in which every sender that is called back is accepted, no event occurs on a context that is
being delivered, and the preempter changes only between deliveries, an event is pending exactly if the
role is in the list of the preempter, and every event is delivered with what is known of it.

A callback in an open wait is refused if there are other senders in the list. The event stays pending
then, but the role is in no list.
-/

namespace L4env.Fiasco

/-! ## Messages -/

/-- What the words of a message tell. -/
def Extracted.ofWords (word₀ word₁ : BitVec 32) : Extracted :=
  let raw : BitVec 64 := word₁ ++ word₀
  ⟨if raw.getLsbD 63 then .timesliceOverrun else .deadlineMiss, raw.getLsbD 62,
    (raw.extractLsb' 56 6).setWidth 16, (raw.extractLsb' 0 56).setWidth 64⟩

theorem getLsbD_of_lt {w n i : Nat} {v : BitVec w} (h : v.toNat < 2 ^ n) (hi : n ≤ i) :
    v.getLsbD i = false :=
  Nat.testBit_lt_two_pow (h.trans_le (Nat.pow_le_pow_right (by decide) hi))

/-- An id of six bits and a time of 56 bits are not cut. -/
theorem Extracted.ofWords_raw (info : Extracted) (htype : info.type ≠ .none)
    (hid : info.id.toNat < 2 ^ 6) (htime : info.time.toNat < 2 ^ 56) :
    ofWords (pipcLow info.raw) (pipcHigh info.raw) = info := by
  obtain ⟨type, lost, id, time⟩ := info
  have hbit {i : Nat} (h : i < 64) := getLsbD_l4Pipc type.value (if lost then 1 else 0)
    (id.setWidth 32) time h
  simp only [ofWords, pipc_words, raw, mk.injEq]
  refine ⟨?_, ?_, BitVec.eq_of_getLsbD_eq fun i hi => ?_, BitVec.eq_of_getLsbD_eq fun i hi => ?_⟩
  · rw [hbit (by decide)]
    cases type with
    | none => exact absurd rfl htype
    | timesliceOverrun => rfl
    | deadlineMiss => rfl
  · rw [hbit (by decide)]
    cases lost <;> rfl
  · rw [BitVec.getLsbD_setWidth, BitVec.getLsbD_extractLsb']
    by_cases h6 : i < 6
    · rw [hbit (by omega), if_neg (by omega), if_neg (by omega), if_pos (by omega),
        Nat.add_sub_cancel_left, BitVec.getLsbD_setWidth]
      simp [h6, hi, show i < 32 by omega]
    · rw [getLsbD_of_lt hid (by omega)]
      simp [h6]
  · rw [BitVec.getLsbD_setWidth, BitVec.getLsbD_extractLsb']
    by_cases h56 : i < 56
    · rw [hbit (by omega), if_neg (by omega), if_neg (by omega), if_neg (by omega)]
      simp [h56, hi]
    · rw [getLsbD_of_lt htime (by omega)]
      simp [h56]

namespace Preemption

variable {C R U : Type} {s s' : Preemption C R U} {c d : C} {r : R} {a : Act C R U}

/-- An event: its type and its time. -/
abbrev Event := PreemptionType × BitVec 64

/-! ## The events of a context -/

/-- The fields tell of the events that were not sent. -/
def Tells (e : SchedEvents) (l : List Event) : Prop :=
  e.preemptionCount.toNat = l.length ∧
    (l = [] ∧ e.preemptionType = .none ∨
      e.preemptionType ≠ .none ∧ e.id.toNat < 2 ^ 6 ∧ e.preemptionTime.toNat < 2 ^ 56 ∧
        ∃ l', l = l' ++ [(e.preemptionType, e.preemptionTime)])

theorem Tells.setPreemptionEvent {e : SchedEvents} {l : List Event} (h : Tells e l)
    {type : PreemptionType} {time : BitVec 64} (htype : type ≠ .none) (hid : e.id.toNat < 2 ^ 6)
    (htime : time.toNat < 2 ^ 56) (hcount : e.preemptionCount + 1 ≠ 0) :
    Tells (e.setPreemptionEvent type time) (l ++ [(type, time)]) := by
  refine ⟨?_, .inr ⟨htype, hid, htime, l, rfl⟩⟩
  have hsucc : (e.preemptionCount + 1).toNat = e.preemptionCount.toNat + 1 := by
    have hne : (e.preemptionCount + 1).toNat ≠ 0 := fun h => hcount (BitVec.eq_of_toNat_eq h)
    have hlt := e.preemptionCount.isLt
    rw [BitVec.toNat_add] at hne ⊢
    change (e.preemptionCount.toNat + 1) % 2 ^ 32 ≠ 0 at hne
    change (e.preemptionCount.toNat + 1) % 2 ^ 32 = _
    omega
  rw [List.length_append, SchedEvents.setPreemptionEvent, hsucc, h.1]
  rfl

theorem tells_clear (e : SchedEvents) : Tells e.clearPreemptionEvent [] :=
  ⟨rfl, .inl ⟨rfl, rfl⟩⟩

theorem Tells.type_ne {e : SchedEvents} {l : List Event} (h : Tells e l) (hl : l ≠ []) :
    e.preemptionType ≠ .none :=
  h.2.elim (fun h => absurd h.1 hl) fun h => h.1

/-! ## Lists -/

section

variable [DecidableEq R]

/-- The role is in the list of the receiver. -/
def Listed (s : Preemption C R U) (r : R) : Prop :=
  .preemption ∈ (s.recv r).senderList.map Prod.fst

/-- Nothing but the receivers changes. -/
structure Keeps (s s' : Preemption C R U) : Prop where
  ring : s'.ring = s.ring
  sched : s'.sched = s.sched
  pending : s'.pending = s.pending
  delivery : s'.delivery = s.delivery

theorem setRecv_self (s : Preemption C R U) (r : R) (x : Receiver U) : (s.setRecv r x).recv r = x :=
  Function.update_self ..

theorem setRecv_of_ne {q : R} (h : q ≠ r) (x : Receiver U) : (s.setRecv r x).recv q = s.recv q :=
  Function.update_of_ne h ..

theorem listed_setRecv (x : Receiver U) (q : R) : (s.setRecv r x).Listed q ↔
    if q = r then .preemption ∈ x.senderList.map Prod.fst else s.Listed q := by
  by_cases hq : q = r
  · rw [if_pos hq, hq, Listed, setRecv_self]
  · rw [if_neg hq, Listed, setRecv_of_ne hq, Listed]

/-- The receiver changes but for the role's place in its list. -/
theorem listed_setRecv_of_iff {x : Receiver U}
    (h : .preemption ∈ x.senderList.map Prod.fst ↔ s.Listed r) (q : R) :
    (s.setRecv r x).Listed q ↔ s.Listed q := by
  rw [listed_setRecv]
  split
  · rename_i hq
    rw [hq]
    exact h
  · rfl

variable [DecidableEq U]

theorem listed_senderDequeue {q : R} : (s.senderDequeue r).Listed q ↔ q ≠ r ∧ s.Listed q := by
  rw [senderDequeue, setSenderList, listed_setRecv, Semaphore.mem_senderDequeue]
  by_cases hq : q = r <;> simp [hq]

theorem listed_senderEnqueue {prio : Nat} {b : List (Sender U × Nat)} {q : R} (h : ¬s.Listed r) :
    (s.senderEnqueue r prio b).Listed q ↔ q = r ∨ s.Listed q := by
  rw [senderEnqueue, setSenderList, listed_setRecv, Semaphore.mem_senderEnqueue h]
  by_cases hq : q = r <;> simp [hq]

/-- The role is put into the list of the preempter, if there is one. -/
theorem preempterEnqueue_spec (b : List (Sender U × Nat)) (h : ∀ q, ¬s.Listed q) :
    Keeps s (s.preempterEnqueue b) ∧ (s.preempterEnqueue b).receiver = s.receiver ∧
      ∀ q, (s.preempterEnqueue b).Listed q ↔ s.receiver = some q := by
  cases hr : s.receiver with
  | none =>
    have hsame : s.preempterEnqueue b = s := by rw [preempterEnqueue, hr]
    rw [hsame]
    exact ⟨⟨rfl, rfl, rfl, rfl⟩, hr, fun q => iff_of_false (h q) nofun⟩
  | some r =>
    have hlisted (q : R) : (s.senderEnqueue r (s.recv r).prio b).Listed q ↔ some r = some q := by
      rw [listed_senderEnqueue (h r), or_iff_left (h q), Option.some.injEq, eq_comm]
    rw [preempterEnqueue, hr]
    dsimp only
    split
    · refine ⟨⟨rfl, rfl, rfl, rfl⟩, hr, fun q => ?_⟩
      refine (listed_setRecv_of_iff ?_ q).trans (hlisted q)
      exact Iff.rfl
    · exact ⟨⟨rfl, rfl, rfl, rfl⟩, hr, hlisted⟩

theorem leave_spec (hl : ∀ q, s.Listed q → s.receiver = some q) :
    Keeps s s.leave ∧ ∀ q, ¬s.leave.Listed q := by
  unfold leave
  cases hr : s.receiver with
  | none => exact ⟨⟨rfl, rfl, rfl, rfl⟩, fun q hq => nomatch hr.symm.trans (hl q hq)⟩
  | some r =>
    refine ⟨⟨rfl, rfl, rfl, rfl⟩, fun q hq => ?_⟩
    obtain ⟨hne, hq⟩ := listed_senderDequeue.mp hq
    exact hne (Option.some.inj ((hl q hq).symm.trans hr))

end

/-! ## The ring -/

variable [DecidableEq C]

theorem mem_others {ring : List C} (hnd : ring.Nodup) (hc : c ∈ ring) :
    d ∈ others ring c ↔ d ∈ ring ∧ d ≠ c := by
  obtain ⟨l₁, l₂, rfl⟩ := List.append_of_mem hc
  have hc₁ : ∀ x ∈ l₁, x ≠ c := fun x hx h =>
    (List.nodup_append.mp hnd).2.2 x hx c List.mem_cons_self h
  have hc₂ : c ∉ l₂ := (List.nodup_cons.mp (List.nodup_append.mp hnd).2.1).1
  have hothers : others (l₁ ++ c :: l₂) c = l₂ ++ l₁ := by
    have hall : ∀ x ∈ l₁, decide (x ≠ c) = true := fun x hx => decide_eq_true (hc₁ x hx)
    rw [others, List.dropWhile_append_of_pos hall, List.takeWhile_append_of_pos hall]
    simp
  rw [hothers, List.mem_append, List.mem_append, List.mem_cons]
  constructor
  · rintro (h | h)
    · exact ⟨.inr (.inr h), fun e => hc₂ (e ▸ h)⟩
    · exact ⟨.inl h, hc₁ d h⟩
  · rintro ⟨h | rfl | h, hne⟩
    · exact .inr h
    · exact absurd rfl hne
    · exact .inl h

/-- The pending context gives way to the next one. -/
def nextPending (s : Preemption C R U) : Preemption C R U :=
  match s.pending with
  | none => s
  | some c => s.advance c

/-- The contexts with an event. -/
def eventful (s : Preemption C R U) : Finset C :=
  s.ring.toFinset.filter fun c => (s.sched c).preemptionType ≠ .none

theorem mem_eventful : c ∈ s.eventful ↔ c ∈ s.ring ∧ (s.sched c).preemptionType ≠ .none := by
  rw [eventful, Finset.mem_filter, List.mem_toFinset]

theorem advance_sched_self (s : Preemption C R U) (c : C) :
    (s.advance c).sched c = (s.sched c).clearPreemptionEvent := Function.update_self ..

theorem advance_sched_of_ne (h : d ≠ c) : (s.advance c).sched d = s.sched d :=
  Function.update_of_ne h ..

theorem eventful_advance : (s.advance c).eventful = s.eventful.erase c := by
  ext d
  rw [mem_eventful, Finset.mem_erase, mem_eventful]
  by_cases h : d = c
  · rw [h, advance_sched_self]
    simp [SchedEvents.clearPreemptionEvent]
  · rw [advance_sched_of_ne h]
    exact (and_iff_right h).symm

theorem advance_pending (hnd : s.ring.Nodup) (hc : c ∈ s.ring) :
    (∀ d, (s.advance c).pending = some d → d ∈ (s.advance c).eventful) ∧
      ((s.advance c).pending = none → (s.advance c).eventful = ∅) := by
  have hmem {d : C} := mem_others (d := d) hnd hc
  constructor
  · intro d hd
    have htype := List.find?_some hd
    rw [mem_eventful]
    exact ⟨(hmem.mp (List.mem_of_find?_eq_some hd)).1, of_decide_eq_true htype⟩
  · intro hnone
    refine Finset.eq_empty_of_forall_notMem fun d hd => ?_
    have hold := hd
    rw [eventful_advance] at hold
    obtain ⟨hne, hold⟩ := Finset.mem_erase.mp hold
    have htype := List.find?_eq_none.mp hnone d (hmem.mpr ⟨(mem_eventful.mp hold).1, hne⟩)
    exact htype (decide_eq_true (mem_eventful.mp hd).2)

/-- A context with an event gets pending. -/
theorem found_later (hnd : s.ring.Nodup) (hp : ∀ d, s.pending = some d → d ∈ s.eventful)
    (hidle : s.pending = none → s.eventful = ∅) (hc : c ∈ s.eventful) :
    ∃ k, (nextPending^[k] s).pending = some c := by
  induction hn : s.eventful.card using Nat.strong_induction_on generalizing s with
  | _ n ih =>
  cases hd : s.pending with
  | none =>
    rw [hidle hd] at hc
    cases hc
  | some d =>
    by_cases h : d = c
    · exact ⟨0, h ▸ hd⟩
    · have hstep : s.nextPending = s.advance d := by rw [nextPending, hd]
      have hmem := hp d hd
      obtain ⟨hp', hidle'⟩ := advance_pending hnd (mem_eventful.mp hmem).1
      have hlt : (s.advance d).eventful.card < n := by
        rw [eventful_advance, ← hn]
        exact Finset.card_erase_lt_of_mem hmem
      have hc' : c ∈ (s.advance d).eventful := by
        rw [eventful_advance]
        exact Finset.mem_erase.mpr ⟨Ne.symm h, hc⟩
      obtain ⟨k, hk⟩ := ih _ hlt (s := s.advance d) hnd hp' hidle' hc' rfl
      exact ⟨k + 1, by rw [Function.iterate_succ_apply, hstep, hk]⟩

/-! ## The invariant -/

/-- The event of the context was sent, but is not cleared yet. -/
def Sent (s : Preemption C R U) (c : C) : Prop := s.delivery = some .sent ∧ s.pending = some c

/-- The contexts hold what is known of the events that were not sent. -/
structure Holds (s : Preemption C R U) (unsent : C → List Event) : Prop where
  nodup : s.ring.Nodup
  pending : ∀ c, s.pending = some c → c ∈ s.eventful
  idle : s.pending = none → s.eventful = ∅
  busy : s.delivery ≠ none → s.pending ≠ none
  tells : ∀ c ∈ s.ring, ¬s.Sent c → Tells (s.sched c) (unsent c)
  sent : ∀ c, s.Sent c → unsent c = []
  extracted : ∀ r closed i, s.delivery = some (.extracted r closed i) →
    ∃ c, s.pending = some c ∧ i = (s.sched c).info

structure Inv (s : Preemption C R U) (unsent : C → List Event) : Prop extends Holds s unsent where
  listed : ∀ r, s.Listed r ↔ s.delivery = none ∧ s.receiver = some r ∧ s.pending ≠ none

variable {unsent : C → List Event}

theorem Holds.congr (h : Holds s unsent) (hs : Keeps s s') : Holds s' unsent := by
  obtain ⟨ring, sched, receiver, pending, recv, delivery⟩ := s'
  obtain ⟨rfl, rfl, rfl, rfl⟩ := hs
  exact ⟨h.nodup, h.pending, h.idle, h.busy, h.tells, h.sent, h.extracted⟩

theorem Inv.congr (h : Inv s unsent) (hs : Keeps s s') (hr : s'.receiver = s.receiver)
    (hl : ∀ q, s'.Listed q ↔ s.Listed q) : Inv s' unsent :=
  ⟨h.toHolds.congr hs, fun q => by rw [hl, h.listed, hs.delivery, hs.pending, hr]⟩

theorem Inv.unlisted (h : Inv s unsent) (hd : s.delivery ≠ none ∨ s.pending = none) (q : R) :
    ¬s.Listed q := by
  rw [h.listed]
  tauto

/-- No events at the start. -/
structure Initial (s : Preemption C R U) : Prop where
  nodup : s.ring.Nodup
  clear : ∀ c ∈ s.ring, (s.sched c).preemptionType = .none ∧ (s.sched c).preemptionCount = 0
  pending : s.pending = none
  delivery : s.delivery = none
  unlisted : ∀ r, ¬s.Listed r

theorem Initial.inv (h : s.Initial) : Inv s fun _ => [] where
  nodup := h.nodup
  pending _ hd := nomatch h.pending.symm.trans hd
  idle _ := Finset.eq_empty_of_forall_notMem fun d hd =>
    (mem_eventful.mp hd).2 (h.clear d (mem_eventful.mp hd).1).1
  busy hd := absurd h.delivery hd
  tells d hd _ := ⟨congrArg BitVec.toNat (h.clear d hd).2, .inl ⟨rfl, (h.clear d hd).1⟩⟩
  sent _ _ := rfl
  extracted _ _ _ hd := nomatch h.delivery.symm.trans hd
  listed r := iff_of_false (h.unlisted r) fun hr => hr.2.2 h.pending

/-- An event occurs on a context that is not being delivered. -/
theorem Holds.setEvent (h : Holds s unsent) {type : PreemptionType} {time : BitVec 64} {x : C → SchedEvents}
    (hx : x = Function.update s.sched c ((s.sched c).setPreemptionEvent type time))
    (hc : c ∈ s.ring) (htype : type ≠ .none) (hpend : s.pending = some c → s.delivery = none)
    (hid : (s.sched c).id.toNat < 2 ^ 6) (htime : time.toNat < 2 ^ 56)
    (hcount : (s.sched c).preemptionCount + 1 ≠ 0) :
    Holds { s with sched := x, pending := some (s.pending.getD c) }
      (Function.update unsent c (unsent c ++ [(type, time)])) := by
  have hself : x c = (s.sched c).setPreemptionEvent type time := by rw [hx, Function.update_self]
  have hne {d : C} (hd : d ≠ c) : x d = s.sched d := by rw [hx, Function.update_of_ne hd]
  have hsent : ¬s.Sent c := fun hs => nomatch (hpend hs.2).symm.trans hs.1
  -- while something is delivered, another context is pending
  have hother {d : C} (hd : s.delivery ≠ none) (hp : s.pending.getD c = d) :
      s.pending = some d ∧ d ≠ c := by
    cases hold : s.pending with
    | none => exact absurd hold (h.busy hd)
    | some p =>
      rw [hold, Option.getD_some] at hp
      exact ⟨congrArg some hp, fun he => hd (hpend (hold.trans (congrArg some (hp.trans he))))⟩
  refine ⟨h.nodup, fun d hd => ?_, nofun, fun _ => nofun, fun d hd hs => ?_, fun d hs => ?_,
    fun r closed i hi => ?_⟩
  · have hd : s.pending.getD c = d := Option.some.inj hd
    rw [mem_eventful]
    show d ∈ s.ring ∧ (x d).preemptionType ≠ .none
    by_cases he : d = c
    · rw [he, hself]
      exact ⟨hc, htype⟩
    · cases hold : s.pending with
      | none => exact absurd (by rw [hold] at hd; exact hd.symm) he
      | some p =>
        rw [hold, Option.getD_some] at hd
        rw [hne he]
        exact mem_eventful.mp (h.pending d (hold.trans (congrArg some hd)))
  · show Tells (x d) _
    by_cases he : d = c
    · rw [he, hself, Function.update_self]
      exact (h.tells c hc hsent).setPreemptionEvent htype hid htime hcount
    · rw [hne he, Function.update_of_ne he]
      refine h.tells d hd fun hs' => hs ⟨hs'.1, ?_⟩
      show some (s.pending.getD c) = some d
      rw [hs'.2, Option.getD_some]
  · obtain ⟨hdel, hp⟩ := hs
    have hdel : s.delivery = some .sent := hdel
    obtain ⟨hp, hdc⟩ := hother (by rw [hdel]; nofun) (Option.some.inj hp)
    rw [Function.update_of_ne hdc]
    exact h.sent d ⟨hdel, hp⟩
  · have hdel : s.delivery = some (.extracted r closed i) := hi
    obtain ⟨d, hp, hinfo⟩ := h.extracted r closed i hdel
    obtain ⟨-, hdc⟩ := hother (by rw [hdel]; nofun) (d := d) (by rw [hp, Option.getD_some])
    refine ⟨d, by rw [hp, Option.getD_some], hinfo.trans ?_⟩
    show (s.sched d).info = (x d).info
    rw [hne hdc]

/-! ## Events and preempters -/

variable [DecidableEq R] [DecidableEq U]

/-- The role is in no list, and is enqueued where it has to be. -/
theorem Holds.preempterEnqueue (h : Holds s unsent) (b : List (Sender U × Nat))
    (hl : ∀ q, ¬s.Listed q) (hd : s.delivery = none) (hp : s.pending ≠ none) :
    Inv (s.preempterEnqueue b) unsent := by
  obtain ⟨hs, hr, hlisted⟩ := preempterEnqueue_spec b hl
  exact ⟨h.congr hs, fun q => by rw [hlisted, hs.delivery, hs.pending, hr]; tauto⟩

/-- The preempter changes between deliveries. -/
theorem Holds.setReceiver (h : Holds s unsent) (rv : Option R) (b : List (Sender U × Nat))
    (hl : ∀ q, s.Listed q → s.receiver = some q) (hd : s.delivery = none) :
    Inv (s.setReceiver rv b) unsent := by
  obtain ⟨hs, hnone⟩ := leave_spec hl
  have h₁ : Holds { s.leave with receiver := rv } unsent := (h.congr hs).congr ⟨rfl, rfl, rfl, rfl⟩
  unfold Preemption.setReceiver
  dsimp only
  by_cases hp : s.leave.pending.isSome = true
  · rw [if_pos hp]
    exact h₁.preempterEnqueue b hnone (hs.delivery.trans hd) (Option.isSome_iff_ne_none.mp hp)
  · rw [if_neg hp]
    refine ⟨h₁, fun q => iff_of_false (hnone q) fun hq => hp ?_⟩
    exact Option.isSome_iff_ne_none.mpr hq.2.2

theorem Inv.queue (h : Inv s unsent) {type : PreemptionType} {time : BitVec 64}
    (b : List (Sender U × Nat)) (hc : c ∈ s.ring) (htype : type ≠ .none)
    (hpend : s.pending = some c → s.delivery = none) (hid : (s.sched c).id.toNat < 2 ^ 6)
    (htime : time.toNat < 2 ^ 56) (hcount : (s.sched c).preemptionCount + 1 ≠ 0) :
    Inv (s.queue type time c b) (Function.update unsent c (unsent c ++ [(type, time)])) := by
  have hs := h.setEvent rfl hc htype hpend hid htime hcount
  unfold Preemption.queue
  dsimp only
  cases hp : s.pending with
  | some p =>
    rw [hp, Option.getD_some] at hs
    have hlisted := h.listed
    rw [hp] at hlisted
    exact ⟨hs, hlisted⟩
  | none =>
    rw [hp, Option.getD_none] at hs
    have hd : s.delivery = none := Classical.not_not.mp fun hd => h.busy hd hp
    exact hs.preempterEnqueue b (h.unlisted (.inr hp)) hd nofun

/-! ## Deliveries -/

/-- The events that were not sent, after a message. -/
def clearSent (s : Preemption C R U) (unsent : C → List Event) : C → List Event :=
  match s.pending with
  | none => unsent
  | some c => Function.update unsent c []

theorem Inv.offer (h : Inv s unsent) {closed : Bool} (hd : s.delivery = none)
    (ho : s.Offered r closed) : Inv (s.extract r closed) unsent := by
  obtain ⟨hr, -, -, -, hin⟩ := ho
  have hlist : s.Listed r := by
    cases closed with
    | true => exact hin
    | false =>
      obtain ⟨e, he, hfst⟩ := Option.map_eq_some_iff.mp hin
      exact List.mem_map.mpr ⟨e, List.mem_of_head? he, hfst⟩
  obtain ⟨-, -, hp⟩ := (h.listed r).mp hlist
  obtain ⟨c, hc⟩ := Option.ne_none_iff_exists'.mp hp
  have hnone (q : R) : ¬(s.senderDequeue r).Listed q := fun hq => by
    obtain ⟨hne, hq⟩ := listed_senderDequeue.mp hq
    exact hne (Option.some.inj (((h.listed q).mp hq).2.1.symm.trans hr))
  have hex : s.extract r closed =
      { s.senderDequeue r with delivery := some (.extracted r closed (s.sched c).info) } := by
    have hc' : (s.senderDequeue r).pending = some c := hc
    rw [extract]
    simp only [hc']
    rfl
  rw [hex]
  refine ⟨⟨h.nodup, h.pending, h.idle, fun _ => hp, fun d hd' _ => h.tells d hd' fun hs => ?_,
    fun d hs => (nomatch hs.1), fun q cl i hi => ?_⟩, fun q => iff_of_false (hnone q) nofun⟩
  · exact nomatch hd.symm.trans hs.1
  · obtain ⟨rfl, rfl, rfl⟩ := Delivery.extracted.inj (Option.some.inj hi)
    exact ⟨c, hc, rfl⟩

/-- A message that is accepted. -/
theorem transfer_accepted (hok : s.accepts = true) (hs : s.step .transfer = some s') :
    ∃ r recv closed i, s.receiver = some r ∧ s.delivery = some (.extracted recv closed i) ∧
      s' = { s.setRecv r ((s.recv r).deliver i.raw) with delivery := some .sent } := by
  obtain ⟨r, hr, hok⟩ := (Option.any_eq_true ..).mp hok
  simp only [Preemption.step, hr] at hs
  split at hs
  · rename_i recv closed i r' hd hr'
    cases hr'
    cases hs
    refine ⟨r, recv, closed, i, hr, hd, ?_⟩
    rw [Preemption.transfer, hok]
    rfl
  · cases hs

theorem Inv.transfer (h : Inv s unsent) (hok : s.accepts = true) (hs : s.step .transfer = some s') :
    Inv s' (s.clearSent unsent) := by
  obtain ⟨r, recv, closed, i, -, hd, rfl⟩ := transfer_accepted hok hs
  obtain ⟨c, hc, -⟩ := h.extracted recv closed i hd
  have hlisted (q : R) : (s.setRecv r ((s.recv r).deliver i.raw)).Listed q ↔ s.Listed q := by
    refine listed_setRecv_of_iff ?_ q
    exact Iff.rfl
  have hclear : s.clearSent unsent = Function.update unsent c [] := by rw [clearSent, hc]
  have hbusy : s.delivery ≠ none := by
    rw [hd]
    nofun
  rw [hclear]
  refine ⟨⟨h.nodup, h.pending, h.idle, fun _ => h.busy hbusy, fun d hd' hs => ?_, fun d hs => ?_,
    nofun⟩, fun q => iff_of_false (fun hq => h.unlisted (.inl hbusy) q ((hlisted q).mp hq)) nofun⟩
  · have hne : d ≠ c := fun he => hs ⟨rfl, he ▸ hc⟩
    rw [Function.update_of_ne hne]
    exact h.tells d hd' fun hs => nomatch hd.symm.trans hs.1
  · have he : c = d := Option.some.inj (hc.symm.trans hs.2)
    rw [← he, Function.update_self]

theorem Inv.finish (h : Inv s unsent) {b : List (Sender U × Nat)} (hd : s.delivery = some .sent)
    (hs' : s.finish b = some s') : Inv s' unsent := by
  obtain ⟨c, hc⟩ := Option.ne_none_iff_exists'.mp (h.busy (by rw [hd]; nofun))
  have hring := (mem_eventful.mp (h.pending c hc)).1
  obtain ⟨hpend, hidle⟩ := advance_pending h.nodup hring
  have hs : Holds { s.advance c with delivery := none } unsent := by
    refine ⟨h.nodup, hpend, hidle, fun hn => absurd rfl hn, fun d hd' _ => ?_,
      fun d hs => (nomatch hs.1), nofun⟩
    show Tells ((s.advance c).sched d) (unsent d)
    by_cases he : d = c
    · rw [he, advance_sched_self, h.sent c ⟨hd, hc⟩]
      exact tells_clear _
    · rw [advance_sched_of_ne he]
      exact h.tells d hd' fun hs => he (Option.some.inj (hs.2.symm.trans hc))
  have hnone (q : R) : ¬Listed { s.advance c with delivery := none } q :=
    h.unlisted (.inl (by rw [hd]; nofun)) q
  simp only [Preemption.finish, hc] at hs'
  by_cases hp : (s.advance c).pending.isSome = true
  · rw [if_pos hp] at hs'
    obtain ⟨r, hr, rfl⟩ := Option.map_eq_some_iff.mp hs'
    refine ⟨hs.congr ⟨rfl, rfl, rfl, rfl⟩, fun q => ?_⟩
    rw [listed_senderEnqueue (hnone r), or_iff_left (hnone q)]
    refine ⟨fun hq => ⟨rfl, hq ▸ hr, Option.isSome_iff_ne_none.mp hp⟩, fun hq => ?_⟩
    exact Option.some.inj (hq.2.1.symm.trans hr)
  · rw [if_neg hp] at hs'
    cases hs'
    exact ⟨hs, fun q => iff_of_false (hnone q) fun hq => hp (Option.isSome_iff_ne_none.mpr hq.2.2)⟩

/-! ## Runs -/

/-- The events that were not sent, after a step. -/
def record (s : Preemption C R U) (unsent : C → List Event) : Act C R U → C → List Event
  | .queue type time c _ => Function.update unsent c (unsent c ++ [(type, time)])
  | .transfer => if s.accepts then s.clearSent unsent else unsent
  | _ => unsent

/-- The runs of steps with the condition, with the events that were not sent. -/
inductive Run (G : Preemption C R U → Act C R U → Prop) :
    Preemption C R U → (C → List Event) → Prop
  | start {s : Preemption C R U} : s.Initial → Run G s fun _ => []
  | step {s s' : Preemption C R U} {unsent : C → List Event} {a : Act C R U} :
    Run G s unsent → G s a → s.step a = some s' → Run G s' (s.record unsent a)

/-- An event does not occur on the context that is being delivered; its context, its time and the number
of events on the context are not too large for the message. The preempter changes between deliveries
only. A sender that is called back is accepted: in an open wait there are no other senders. -/
def Fits (s : Preemption C R U) : Act C R U → Prop
  | .queue _ time c _ => (s.pending = some c → s.delivery = none) ∧ (s.sched c).id.toNat < 2 ^ 6 ∧
    time.toNat < 2 ^ 56 ∧ (s.sched c).preemptionCount + 1 ≠ 0
  | .setReceiver .. | .aborted => s.delivery = none
  | .transfer => s.accepts = true
  | _ => True

theorem mem_filter_preemption {l : List (Sender U × Nat)} :
    .preemption ∈ l.map Prod.fst ↔ l.filter (fun e => e.1 = .preemption) ≠ [] := by
  rw [List.mem_map, ne_eq, List.filter_eq_nil_iff]
  simp only [decide_eq_true_eq]
  push Not
  rfl

theorem Inv.step (h : Inv s unsent) (hG : s.Fits a) (hs : s.step a = some s') :
    Inv s' (s.record unsent a) := by
  cases a with
  | queue type time c b =>
    obtain ⟨hpend, hid, htime, hcount⟩ := hG
    obtain ⟨⟨hc, htype⟩, heq⟩ := Option.ite_none_right_eq_some.mp hs
    cases heq
    exact h.queue b hc htype hpend hid htime hcount
  | setReceiver rv b =>
    cases hs
    exact h.toHolds.setReceiver rv b (fun q hq => ((h.listed q).mp hq).2.1) hG
  | aborted =>
    obtain ⟨r, hr, rfl⟩ := Option.map_eq_some_iff.mp hs
    have hs : Holds (s.senderDequeue r) unsent := h.toHolds.congr ⟨rfl, rfl, rfl, rfl⟩
    exact hs.setReceiver none [] (fun q hq => ((h.listed q).mp (listed_senderDequeue.mp hq).2).2.1) hG
  | receive r p =>
    cases hs
    exact h.congr ⟨rfl, rfl, rfl, rfl⟩ rfl (listed_setRecv_of_iff (by exact Iff.rfl))
  | change r x =>
    obtain ⟨hx, heq⟩ := Option.ite_none_right_eq_some.mp hs
    cases heq
    refine h.congr ⟨rfl, rfl, rfl, rfl⟩ rfl (listed_setRecv_of_iff ?_)
    rw [mem_filter_preemption, hx, ← mem_filter_preemption, Listed]
  | offer r closed =>
    obtain ⟨⟨hd, ho⟩, heq⟩ := Option.ite_none_right_eq_some.mp hs
    cases heq
    exact h.offer (Option.isNone_iff_eq_none.mp hd) ho
  | transfer =>
    have hok : s.accepts = true := hG
    rw [record, if_pos hok]
    exact h.transfer hG hs
  | finish b =>
    simp only [Preemption.step] at hs
    split at hs
    · rename_i hd
      exact h.finish hd hs
    · cases hs

theorem Run.inv (h : Run Fits s unsent) : Inv s unsent := by
  induction h with
  | start hs => exact hs.inv
  | step _ hG hs ih => exact ih.step hG hs

/-! ## No event is lost -/

/-- Between deliveries the role is in the list of the preempter exactly if an event is pending, and each
context with an event that was not sent is pending or gets pending. A message tells of the latest event of
the context, and whether there was more than one. -/
structure Lossless (s : Preemption C R U) (unsent : C → List Event) : Prop where
  enqueued : s.delivery = none → ∀ r, s.receiver = some r → (s.pending.isSome = true ↔ s.Listed r)
  found : s.delivery = none → ∀ c ∈ s.ring, unsent c ≠ [] → ∃ k, (nextPending^[k] s).pending = some c
  message : ∀ s', s.accepts = true → s.step .transfer = some s' → ∃ c r l type time,
    s.pending = some c ∧ s.receiver = some r ∧ unsent c = l ++ [(type, time)] ∧
      Extracted.ofWords (s'.recv r).rcvRegs.word₀ (s'.recv r).rcvRegs.word₁ =
        ⟨type, decide (l ≠ []), (s.sched c).id, time⟩

theorem Inv.lossless (h : Inv s unsent) : s.Lossless unsent where
  enqueued hd r hr := by
    rw [h.listed, Option.isSome_iff_ne_none]
    exact ⟨fun hp => ⟨hd, hr, hp⟩, fun hl => hl.2.2⟩
  found hd c hc hne := by
    have htells := h.tells c hc fun hs => nomatch hd.symm.trans hs.1
    exact found_later h.nodup h.pending h.idle (mem_eventful.mpr ⟨hc, htells.type_ne hne⟩)
  message s' hok hs := by
    obtain ⟨r, recv, closed, i, hr, hd, rfl⟩ := transfer_accepted hok hs
    obtain ⟨c, hc, rfl⟩ := h.extracted recv closed i hd
    obtain ⟨hring, htype⟩ := mem_eventful.mp (h.pending c hc)
    obtain ⟨hcount, hnone | ⟨-, hid, htime, l, hl⟩⟩ :=
      h.tells c hring fun hs => nomatch hd.symm.trans hs.1
    · exact absurd hnone.2 htype
    refine ⟨c, r, l, _, _, hc, hr, hl, ?_⟩
    have hregs : (({ s.setRecv r ((s.recv r).deliver (s.sched c).info.raw) with
        delivery := some .sent } : Preemption C R U).recv r).rcvRegs =
          ⟨some .preemption, 0, pipcLow (s.sched c).info.raw, pipcHigh (s.sched c).info.raw⟩ :=
      congrArg Receiver.rcvRegs (setRecv_self s r _)
    have hlost : decide (1 < (s.sched c).preemptionCount) = decide (l ≠ []) := by
      rw [hl, List.length_append] at hcount
      refine decide_eq_decide.mpr ?_
      rw [BitVec.lt_def, hcount, ← List.length_pos_iff]
      exact Nat.lt_add_left_iff_pos
    rw [hregs, Extracted.ofWords_raw _ htype hid htime, SchedEvents.info, hlost]

/-- No event is lost in runs in which every sender that is called back is accepted. -/
theorem events_delivered (h : Run Fits s unsent) : s.Lossless unsent := h.inv.lossless

/-- The state after steps that all meet the condition. -/
def after (G : Preemption C R U → Act C R U → Bool) (s : Preemption C R U) (l : List (Act C R U)) :
    Option (Preemption C R U) :=
  l.foldlM (fun s a => if G s a then s.step a else none) s

theorem Run.after {G : Preemption C R U → Act C R U → Prop} {g : Preemption C R U → Act C R U → Bool}
    (hg : ∀ s a, g s a = true → G s a) {l : List (Act C R U)} (h : Run G s unsent)
    (hl : after g s l = some s') : ∃ unsent', Run G s' unsent' := by
  induction l generalizing s unsent with
  | nil =>
    cases hl
    exact ⟨unsent, h⟩
  | cons a l ih =>
    obtain ⟨s₁, hs₁, hl⟩ := Option.bind_eq_some_iff.mp hl
    obtain ⟨ha, hs₁⟩ := Option.ite_none_right_eq_some.mp hs₁
    exact ih (h.step (hg s a ha) hs₁) hl

instance (s : Preemption C R U) (r : R) : Decidable (s.Listed r) :=
  inferInstanceAs (Decidable (_ ∈ _))

instance (s : Preemption C R U) (a : Act C R U) : Decidable (s.Fits a) :=
  match a with
  | .queue .. => inferInstanceAs (Decidable (_ ∧ _ ∧ _ ∧ _))
  | .setReceiver .. => inferInstanceAs (Decidable (s.delivery = none))
  | .aborted => inferInstanceAs (Decidable (s.delivery = none))
  | .transfer => inferInstanceAs (Decidable (_ = true))
  | .receive .. => .isTrue trivial
  | .change .. => .isTrue trivial
  | .offer .. => .isTrue trivial
  | .finish .. => .isTrue trivial

/-- A preempter that does not receive, with senders in its list. -/
def busyReceiver (l : List (Sender Unit × Nat)) : Receiver Unit :=
  ⟨false, false, false, false, false, true, none, l, 10, ⟨none, 0, 0, 0⟩⟩

/-- A thread with one scheduling context and with a preempter. -/
def oneContext : Preemption Unit Unit Unit :=
  ⟨[()], fun _ => ⟨1, .none, 0, 0⟩, some (), none, fun _ => busyReceiver [], none⟩

theorem oneContext_initial : oneContext.Initial :=
  ⟨by decide, by decide, rfl, rfl, fun () => by decide⟩

/-- An event is about to be sent to a preempter without other senders. -/
theorem events_delivered_single : ∃ (s : Preemption Unit Unit Unit) (unsent : Unit → List Event),
    after (fun s a => decide (s.Fits a)) oneContext
      [.queue .timesliceOverrun 1000 () [], .receive () none, .offer () false] = some s ∧
    Run Fits s unsent ∧ s.accepts = true ∧ s.Lossless unsent := by
  obtain ⟨s, hs, hok⟩ : ∃ s, after (fun s a => decide (s.Fits a)) oneContext
      [.queue .timesliceOverrun 1000 () [], .receive () none, .offer () false] = some s ∧
        s.accepts = true := ⟨_, rfl, by decide⟩
  obtain ⟨unsent, hrun⟩ := (Run.start oneContext_initial).after (fun _ _ => of_decide_eq_true) hs
  exact ⟨s, unsent, hs, hrun, hok, events_delivered hrun⟩

/-- The role is the first in the list in an open wait, with another sender behind it. -/
theorem event_lost : ∃ (s : Preemption Unit Unit Unit) (unsent : Unit → List Event),
    Run (fun _ _ => True) s unsent ∧ ¬s.Lossless unsent := by
  obtain ⟨s, hs, hd, hr, hp, hl⟩ : ∃ s, after (fun _ _ => true) oneContext
      [.queue .timesliceOverrun 1000 () [],
        .change () (busyReceiver [(.preemption, 10), (.other (), 5)]), .receive () none,
        .offer () false, .transfer] = some s ∧
      s.delivery = none ∧ s.receiver = some () ∧ s.pending = some () ∧ ¬s.Listed () :=
    ⟨_, rfl, rfl, rfl, rfl, by decide⟩
  obtain ⟨unsent, hrun⟩ := (Run.start oneContext_initial).after (fun _ _ _ => trivial) hs
  refine ⟨s, unsent, hrun, fun h => hl ((h.enqueued hd () hr).mp ?_)⟩
  rw [hp]
  rfl

end Preemption

end L4env.Fiasco
