import L4env.Events.TimeoutQueue
import L4env.Util.Deltas

/-!
# Timeout queue of the event server: runs

The queue holds the events that are linked, in the order in which they were linked, and the sums of the
timeouts are the ticks that are left. Each linking that is not undone is processed in the tick number
`TIMEOUT_TICKS` after it.
-/

namespace L4env.Events

namespace TimeoutQueue

variable {α : Type} [DecidableEq α] {q q' : TimeoutQueue α} {i j : α} {r b : Int}
  {l l₁ l₂ : List (α × Int)}

/-! ## The queue as a list -/

/-- The queue holds the events of `l`, each with the ticks that are left. -/
structure Holds (q : TimeoutQueue α) (l : List (α × Int)) : Prop where
  links : IsDList q.next q.prev q.first (l.map Prod.fst)
  last : q.last = (l.map Prod.fst).getLast?
  nodup : (l.map Prod.fst).Nodup
  deltas : Deltas q.timeout 0 l
  free : ∀ i ∉ l.map Prod.fst, q.timeout i = -1 ∧ q.prev i = none ∧ q.next i = none

omit [DecidableEq α] in
theorem Holds.linked_iff (H : q.Holds l) : 0 ≤ q.timeout i ↔ i ∈ l.map Prod.fst := by
  constructor
  · intro h
    by_contra hi
    rw [(H.free i hi).1] at h
    cases h
  · intro h
    obtain ⟨⟨i, r⟩, hx, rfl⟩ := List.mem_map.mp h
    obtain ⟨l₁, l₂, rfl⟩ := List.append_of_mem hx
    obtain ⟨-, hi, hle, -⟩ := deltas_append.mp H.deltas
    exact hi ▸ sub_nonneg.mpr hle

theorem unchain_eq (h : q.prev i ≠ some i) : q.unchain i =
    { q with
      first := if q.prev i = none then q.next i else q.first
      last := if q.next i = none then q.prev i else q.last
      next := writeAt q.next (q.prev i) (q.next i)
      prev := writeAt q.prev (q.next i) (q.prev i) } := by
  cases hp : q.prev i with
  | none => cases hn : q.next i <;> simp [unchain, writeAt, hp, hn]
  | some j =>
    have hne : i ≠ j := fun e => h (e ▸ hp)
    cases hn : q.next i <;> simp [unchain, writeAt, hp, hn, hne]

omit [DecidableEq α] in
theorem Holds.neighbours (H : q.Holds (l₁ ++ (i, r) :: l₂)) :
    q.prev i = (l₁.map Prod.fst).getLast? ∧ q.next i = (l₂.map Prod.fst).head? := by
  have hlinks := H.links.2
  rw [List.map_append, List.map_cons] at hlinks
  simpa using hlinks.middle

theorem passTimeout_timeout {x : α} : (q.passTimeout i).timeout x =
    if 0 < q.timeout i ∧ q.next i = some x then q.timeout x + q.timeout i else q.timeout x := by
  by_cases h : 0 < q.timeout i
  · cases hn : q.next i with
    | none => simp [passTimeout, h, hn]
    | some j =>
      by_cases hx : x = j
      · simp [passTimeout, setTimeout, h, hn, hx]
      · have hx' : ¬j = x := fun e => hx e.symm
        simp [passTimeout, setTimeout, h, hn, hx, hx']
  · simp [passTimeout, h]

theorem passTimeout_eq : q.passTimeout i = { q with timeout := (q.passTimeout i).timeout } := by
  unfold passTimeout
  split
  · split <;> rfl
  · rfl

/-- What is removed is not behind or before itself. -/
theorem Holds.ne_self (H : q.Holds (l₁ ++ (i, r) :: l₂)) :
    i ∉ l₁.map Prod.fst ∧ i ∉ l₂.map Prod.fst := by
  have hnd := H.nodup
  rw [List.map_append, List.map_cons, List.nodup_append, List.nodup_cons] at hnd
  exact ⟨fun h => hnd.2.2 i h i List.mem_cons_self rfl, hnd.2.1.1⟩

/-- The queue once the event `i` is out of it. -/
def removed (q : TimeoutQueue α) (i : α) : TimeoutQueue α where
  first := if q.prev i = none then q.next i else q.first
  last := if q.next i = none then q.prev i else q.last
  prev := Function.update (writeAt q.prev (q.next i) (q.prev i)) i none
  next := Function.update (writeAt q.next (q.prev i) (q.next i)) i none
  timeout := Function.update (q.passTimeout i).timeout i (-1)

theorem Holds.removed (H : q.Holds (l₁ ++ (i, r) :: l₂)) : (q.removed i).Holds (l₁ ++ l₂) := by
  obtain ⟨hprev, hnext⟩ := H.neighbours
  obtain ⟨hout₁, hout₂⟩ := H.ne_self
  obtain ⟨hhead, hlinks⟩ := H.links
  have hnd := H.nodup
  have hlast := H.last
  rw [List.map_append, List.map_cons] at hlinks hnd hhead hlast
  have hd : 0 ≤ q.timeout i := H.linked_iff.mpr (by simp)
  have hne : ∀ x ∈ l₁ ++ l₂, x.1 ≠ i := by
    rintro x hx rfl
    obtain hx | hx := List.mem_append.mp hx
    · exact hout₁ (List.mem_map_of_mem hx)
    · exact hout₂ (List.mem_map_of_mem hx)
  refine ⟨⟨?_, ?_⟩, ?_, ?_, ?_, fun x hx => ?_⟩
  · rw [List.map_append]
    simp only [TimeoutQueue.removed, hprev, hnext, hhead]
    cases l₁ <;> simp
  · rw [List.map_append]
    refine hlinks.remove hnd (fun y hy hy' => ?_) (fun a ha => ?_) (fun y hy hy' => ?_) fun b hb => ?_
    · simp only [TimeoutQueue.removed, Function.update_of_ne hy, writeAt_of_ne hy']
    · have hai : a ≠ i := by
        rintro rfl
        exact hout₁ (List.mem_of_getLast? (hprev ▸ ha))
      simp only [TimeoutQueue.removed, Function.update_of_ne hai, ha, writeAt_some]
    · simp only [TimeoutQueue.removed, Function.update_of_ne hy, writeAt_of_ne hy']
    · have hbi : b ≠ i := by
        rintro rfl
        exact hout₂ (List.mem_of_mem_head? (hnext ▸ hb))
      simp only [TimeoutQueue.removed, Function.update_of_ne hbi, hb, writeAt_some]
  · rw [List.map_append]
    simp only [TimeoutQueue.removed, hprev, hnext, hlast]
    cases l₂ with
    | nil => simp
    | cons x l₂ => simp [List.getLast?_append, List.getLast?_cons_cons]
  · rw [List.map_append]
    exact hnd.sublist ((List.Sublist.refl _).append (List.sublist_cons_self ..))
  · have htimeout : ∀ x ∈ l₁ ++ l₂, (q.removed i).timeout x.1 =
        if 0 < q.timeout i ∧ q.next i = some x.1 then q.timeout x.1 + q.timeout i else q.timeout x.1 := by
      intro x hx
      simp only [TimeoutQueue.removed, Function.update_of_ne (hne x hx), passTimeout_timeout]
    have hnd₂ : ∀ x ∈ l₁, x.1 ∉ l₂.map Prod.fst := by
      intro x hx hx'
      rw [List.nodup_append] at hnd
      exact hnd.2.2 x.1 (List.mem_map_of_mem hx) x.1 (List.mem_cons_of_mem _ hx') rfl
    refine H.deltas.remove (fun x hx => ?_) (fun x hx => ?_) fun x hx => ?_
    · rw [htimeout x (List.mem_append_left _ hx), if_neg]
      rintro ⟨-, hn⟩
      exact hnd₂ x hx (List.mem_of_mem_head? (hnext ▸ hn))
    · have hn : q.next i = some x.1 := by rw [hnext, List.head?_map, hx, Option.map_some]
      rw [htimeout x (List.mem_append_right _ (List.mem_of_mem_head? hx))]
      split
      · rfl
      · rename_i h
        have h0 : ¬ 0 < q.timeout i := fun h' => h ⟨h', hn⟩
        omega
    · rw [htimeout x (List.mem_append_right _ (List.mem_of_mem_tail hx)), if_neg]
      rintro ⟨-, hn⟩
      cases l₂ with
      | nil => cases hx
      | cons y l₂ =>
        have hy : y.1 = x.1 := by simpa [hnext] using hn
        rw [List.nodup_append, List.map_cons, List.nodup_cons, List.nodup_cons] at hnd
        exact hnd.2.1.2.1 (hy ▸ List.mem_map_of_mem hx)
  · rw [List.map_append, List.mem_append, not_or] at hx
    by_cases hxi : x = i
    · simp [TimeoutQueue.removed, hxi]
    · have hfree := H.free x (by simp [hxi, hx.1, hx.2])
      have hp : q.prev i ≠ some x := fun e => hx.1 (List.mem_of_getLast? (hprev ▸ e))
      have hn : q.next i ≠ some x := fun e => hx.2 (List.mem_of_mem_head? (hnext ▸ e))
      simp only [TimeoutQueue.removed, Function.update_of_ne hxi, writeAt_of_ne hp, writeAt_of_ne hn,
        passTimeout_timeout, hn, and_false, if_false]
      exact hfree

omit [DecidableEq α] in
/-- The second assertion of `unlink_event_from_timeout_queue`. -/
theorem Holds.first_last (H : q.Holds l) : q.first.isSome = q.last.isSome := by
  rw [H.links.1, H.last]
  cases l <;> simp

theorem Holds.unlink (H : q.Holds (l₁ ++ (i, r) :: l₂)) :
    ∃ q', q.unlink i = some q' ∧ q'.Holds (l₁ ++ l₂) := by
  have hlinked : ¬ q.timeout i < 0 := not_lt.mpr (H.linked_iff.mpr (by simp))
  have hself : q.prev i ≠ some i := by
    rw [H.neighbours.1]
    exact fun e => H.ne_self.1 (List.mem_of_getLast? e)
  have hpass : (q.passTimeout i).unchain i = _ := unchain_eq (by rwa [passTimeout_eq])
  refine ⟨q.removed i, ?_, H.removed⟩
  have hassert := H.removed.first_last
  rw [TimeoutQueue.unlink, if_neg hlinked, hpass, passTimeout_eq]
  exact if_pos hassert

/-! ## Linking -/

/-- The ticks that are left do not exceed those of a new event, which finds its place at the end. -/
theorem linkLoop_returns {p : α → Option α} {h o : Option α}
    (hlinks : Links q.next p o (l.map Prod.fst) none) (hh : h = (l.map Prod.fst).head?)
    (hdeltas : Deltas q.timeout b l) (hle : ∀ x ∈ l, x.2 ≤ timeoutTicks) (hi : i ∉ l.map Prod.fst)
    (ht : q.timeout i = timeoutTicks - b) :
    Returns (fun n => linkLoop i n q h) (q.setTimeout i (timeoutTicks - lastKey b l), false) := by
  induction l generalizing q b h o with
  | nil =>
    cases hh
    have hq : q.setTimeout i (timeoutTicks - b) = q := by
      rw [setTimeout, ← ht, Function.update_eq_self]
    rw [lastKey, hq]
    exact (Returns.const _).round fun _ => rfl
  | cons x l ih =>
    cases hh
    obtain ⟨h1, h2, h3⟩ := hdeltas
    rw [List.map_cons, List.mem_cons, not_or] at hi
    have hxi : x.1 ≠ i := Ne.symm hi.1
    have hx := hle x List.mem_cons_self
    have hge : ¬ q.timeout i < q.timeout x.1 := by omega
    have hnext : q.next x.1 = (l.map Prod.fst).head? := by simpa using hlinks.2.1
    have hne : ∀ y ∈ l, y.1 ≠ i := fun y hy e => hi.2 (e ▸ List.mem_map_of_mem hy)
    have hrest := ih (q := q.setTimeout i (q.timeout i - q.timeout x.1)) (b := x.2) (h := q.next x.1)
      hlinks.2.2 hnext (h3.congr fun y hy => Function.update_of_ne (hne y hy) _ _)
      (fun y hy => hle y (List.mem_cons_of_mem _ hy)) hi.2
      (by simp only [setTimeout, Function.update_self]; omega)
    have hq : (q.setTimeout i (q.timeout i - q.timeout x.1)).setTimeout i
        (timeoutTicks - lastKey x.2 l) = q.setTimeout i (timeoutTicks - lastKey b (x :: l)) := by
      simp [setTimeout, lastKey]
    rw [hq] at hrest
    refine hrest.round fun n => ?_
    simp only [List.map_cons, List.head?_cons, linkLoop, if_neg hge]

theorem Holds.append (H : q.Holds l) (hle : ∀ x ∈ l, x.2 ≤ timeoutTicks) (hi : i ∉ l.map Prod.fst) :
    ∃ q', (q.setTimeout i (timeoutTicks - lastKey 0 l)).append i = some q' ∧
      q'.Holds (l ++ [(i, timeoutTicks)]) := by
  obtain ⟨hhead, hlinks⟩ := H.links
  obtain ⟨-, hp, hn⟩ := H.free i hi
  have hne : ∀ x ∈ l, x.1 ≠ i := fun x hx e => hi (e ▸ List.mem_map_of_mem hx)
  have hdeltas : Deltas (Function.update q.timeout i (timeoutTicks - lastKey 0 l)) 0
      (l ++ [(i, timeoutTicks)]) :=
    H.deltas.push (lastKey_le (by decide) hle) (fun x hx => Function.update_of_ne (hne x hx) _ _)
      (Function.update_self ..)
  have hnd : ((l ++ [(i, timeoutTicks)]).map Prod.fst).Nodup := by
    rw [List.map_append, List.nodup_append]
    refine ⟨H.nodup, List.nodup_singleton _, fun x hx y hy e => hi ?_⟩
    obtain rfl : y = i := List.mem_singleton.mp hy
    exact e ▸ hx
  obtain rfl | ⟨l, ⟨j, r⟩, rfl⟩ := l.eq_nil_or_concat
  · have hfirst : q.first = none := hhead
    refine ⟨_, by rw [TimeoutQueue.append, setTimeout, hfirst], ⟨rfl, ?_⟩, rfl, hnd, hdeltas,
      fun x hx => ?_⟩
    · exact ⟨hp, hn, trivial⟩
    · have hxi : x ≠ i := by simpa using hx
      simpa [hxi] using H.free x (by simp)
  · rw [List.concat_eq_append] at *
    have hlast : q.last = some j := by simp [H.last]
    obtain ⟨k, hfirst⟩ : ∃ k, q.first = some k := by
      rw [← Option.isSome_iff_exists, H.first_last, hlast]
      rfl
    refine ⟨_, by rw [TimeoutQueue.append, setTimeout, hfirst, hlast], ⟨?_, ?_⟩, ?_, hnd, hdeltas,
      fun x hx => ?_⟩
    · simp only [← hfirst, hhead]
      simp
    · have hji : j ≠ i := hne (j, r) (by simp)
      have hnj : q.next j = none := by
        rw [List.map_append] at hlinks
        simpa using hlinks.middle.2
      rw [List.map_append, List.map_append, List.append_assoc]
      rw [List.map_append] at hlinks hi
      have hnd' := H.nodup
      rw [List.map_append] at hnd'
      refine hlinks.insert_after (x := i) hnd' hi ?_ (Function.update_self ..) ?_ ?_
        (Function.update_self ..) ?_
      · exact fun y hy _ => Function.update_of_ne hy _ _
      · simpa [hji.symm] using hn.trans hnj.symm
      · exact fun y hy _ => Function.update_of_ne hy _ _
      · intro k hk
        cases hnj.symm.trans hk
    · simp
    · rw [List.map_append, List.mem_append, not_or] at hx
      have hxi : x ≠ i := by simpa using hx.2
      have hxj : x ≠ j := by
        rintro rfl
        exact hx.1 (by simp)
      simpa [hxi, hxj] using H.free x hx.1

/-- The list without the event `i`. -/
def drop (i : α) (l : List (α × Int)) : List (α × Int) := l.filter fun x => x.1 ≠ i

theorem drop_of_not_mem (hi : i ∉ l.map Prod.fst) : drop i l = l := by
  refine List.filter_eq_self.mpr fun x hx => decide_eq_true ?_
  rintro rfl
  exact hi (List.mem_map_of_mem hx)

theorem Holds.drop_eq (H : q.Holds (l₁ ++ (i, r) :: l₂)) : drop i (l₁ ++ (i, r) :: l₂) = l₁ ++ l₂ := by
  obtain ⟨h₁, h₂⟩ := H.ne_self
  have hi : drop i ((i, r) :: l₂) = drop i l₂ := List.filter_cons_of_neg (by simp)
  rw [drop, List.filter_append]
  exact congrArg₂ _ (drop_of_not_mem h₁) (hi.trans (drop_of_not_mem h₂))

/-- `unlink_event_from_timeout_queue` takes an event out of the queue. -/
theorem Holds.unlink_drop (H : q.Holds l) (hi : 0 ≤ q.timeout i) :
    ∃ q', q.unlink i = some q' ∧ q'.Holds (drop i l) := by
  obtain ⟨⟨i, r⟩, hx, rfl⟩ := List.mem_map.mp (H.linked_iff.mp hi)
  obtain ⟨l₁, l₂, rfl⟩ := List.append_of_mem hx
  rw [H.drop_eq]
  exact H.unlink

/-- `link_event_to_timeout_queue` puts an event at the end of the queue. -/
theorem Holds.link (H : q.Holds l) (hle : ∀ x ∈ l, x.2 ≤ timeoutTicks) (i : α) :
    ∃ q', Returns (fun n => q.link n i) q' ∧ q'.Holds (drop i l ++ [(i, timeoutTicks)]) := by
  obtain ⟨q₁, hunlink, H₁⟩ : ∃ q₁, (if 0 ≤ q.timeout i then q.unlink i else some q) = some q₁ ∧
      q₁.Holds (drop i l) := by
    by_cases hi : 0 ≤ q.timeout i
    · rw [if_pos hi]
      exact H.unlink_drop hi
    · rw [if_neg hi, drop_of_not_mem (mt H.linked_iff.mpr hi)]
      exact ⟨q, rfl, H⟩
  have hle₁ : ∀ x ∈ drop i l, x.2 ≤ timeoutTicks := fun x hx => hle x (List.mem_of_mem_filter hx)
  have hi₁ : i ∉ (drop i l).map Prod.fst := by
    simp [drop]
  have hne : ∀ x ∈ drop i l, x.1 ≠ i := fun x hx e => hi₁ (List.mem_map.mpr ⟨x, hx, e⟩)
  obtain ⟨q₂, happend, H₂⟩ := H₁.append hle₁ hi₁
  have hloop := linkLoop_returns (q := q₁.setTimeout i timeoutTicks) H₁.links.2 H₁.links.1
    (H₁.deltas.congr fun x hx => Function.update_of_ne (hne x hx) _ _) hle₁ hi₁
    (by simp [setTimeout])
  refine ⟨q₂, ?_, H₂⟩
  have hset : (q₁.setTimeout i timeoutTicks).setTimeout i (timeoutTicks - lastKey 0 (drop i l)) =
      q₁.setTimeout i (timeoutTicks - lastKey 0 (drop i l)) := by
    simp [setTimeout]
  rw [hset] at hloop
  have hrest := hloop.bind (k := fun _ r => if r.2 then some r.1 else r.1.append i)
    (u := q₂) (by simp only [Bool.false_eq_true, if_false, happend]; exact Returns.const _)
  refine hrest.congr fun n => ?_
  simp only [TimeoutQueue.link, hunlink, Option.bind_eq_bind, Option.bind_some]
  rfl

/-! ## Ticks -/

omit [DecidableEq α] in
theorem Holds.first_none (H : q.Holds l) (h : q.first = none) : l = [] := by
  have hhead := H.links.1
  rw [h] at hhead
  cases l with
  | nil => rfl
  | cons x l => cases hhead

omit [DecidableEq α] in
theorem Holds.first_some (H : q.Holds l) (h : q.first = some i) : ∃ l', l = (i, q.timeout i) :: l' := by
  have hhead := H.links.1
  rw [h] at hhead
  cases l with
  | nil => cases hhead
  | cons x l =>
    cases hhead
    have hx : q.timeout x.1 = x.2 - 0 := H.deltas.1
    exact ⟨l, by rw [hx, sub_zero]⟩

/-- A tick takes one from all ticks that are left, at least one for the first event. -/
theorem Holds.tick (H : q.Holds ((i, r) :: l)) (hr : 1 ≤ r) :
    (q.setTimeout i (q.timeout i - 1)).Holds (((i, r) :: l).map fun x => (x.1, x.2 - 1)) := by
  have hmap : (((i, r) :: l).map fun x => (x.1, x.2 - 1)).map Prod.fst = ((i, r) :: l).map Prod.fst := by
    simp
  obtain ⟨h1, h2, h3⟩ := H.deltas
  have h1 : q.timeout i = r - 0 := h1
  have hne : ∀ x ∈ l.map fun x => (x.1, x.2 - 1), x.1 ≠ i := by
    rintro x hx rfl
    obtain ⟨y, hy, rfl⟩ := List.mem_map.mp hx
    exact (List.nodup_cons.mp H.nodup).1 (List.mem_map.mpr ⟨y, hy, rfl⟩)
  refine ⟨hmap ▸ H.links, hmap ▸ H.last, hmap ▸ H.nodup, ⟨?_, ?_, ?_⟩, fun x hx => ?_⟩
  · simp only [setTimeout, Function.update_self]
    omega
  · simp only
    omega
  · exact (h3.shift 1).congr fun x hx => Function.update_of_ne (hne x hx) _ _
  · rw [hmap] at hx
    have hxi : x ≠ i := by
      rintro rfl
      exact hx (by simp)
    simpa [setTimeout, hxi] using H.free x hx

end TimeoutQueue

namespace TimeoutRun

open TimeoutQueue (drop)

variable {α : Type} [DecidableEq α] {s s' : TimeoutRun α} {i : α} {r : Int} {ticks t : Nat}
  {es es₁ es₂ : List (Linking α)} {l : List (α × Int)} {fate : Fate} {lo : Nat} {a : TimeoutCall α}

/-! ## Linkings -/

/-- The events of the pending linkings, each with the ticks that are left. -/
def dues (ticks : Nat) (es : List (Linking α)) : List (α × Int) :=
  (es.filter fun e => e.fate = .pending).map fun e => (e.event, e.tick + timeoutTicks - ticks)

/-- What was processed in a linking: the event and the tick. -/
def done (e : Linking α) : Option (α × Nat) :=
  match e.fate with
  | .processed t => some (e.event, t)
  | _ => none

omit [DecidableEq α] in
theorem dues_cons {e : Linking α} : dues ticks (e :: es) =
    if e.fate = .pending then (e.event, e.tick + timeoutTicks - ticks) :: dues ticks es
    else dues ticks es := by
  by_cases h : e.fate = .pending <;> simp [dues, h]

omit [DecidableEq α] in
theorem mem_dues {x : α × Int} : x ∈ dues ticks es ↔
    ∃ e ∈ es, e.fate = .pending ∧ (e.event, e.tick + timeoutTicks - (ticks : Int)) = x := by
  simp [dues, and_assoc]

omit [DecidableEq α] in
theorem dues_succ : dues (ticks + 1) es = (dues ticks es).map fun x => (x.1, x.2 - 1) := by
  simp only [dues, List.map_map]
  refine List.map_congr_left fun e _ => ?_
  simp only [Function.comp, Prod.mk.injEq, true_and]
  omega

theorem dues_settle (hfate : fate ≠ .pending) :
    dues ticks (es.map (settle fate i)) = drop i (dues ticks es) := by
  induction es with
  | nil => rfl
  | cons e es ih =>
    rw [List.map_cons, dues_cons, dues_cons, ih]
    by_cases he : e.fate = .pending <;> by_cases hi : e.event = i <;>
      simp [settle, drop, he, hi, hfate]

theorem done_settle (e : Linking α) : done (settle .cancelled i e) = done e := by
  by_cases he : e.fate = .pending <;> by_cases hi : e.event = i <;> simp [settle, done, he, hi]

theorem settle_eq_self (hi : i ∉ (dues ticks es).map Prod.fst) : es.map (settle fate i) = es := by
  refine (List.map_congr_left fun e he => ?_).trans (List.map_id es)
  refine if_neg ?_
  rintro ⟨rfl, hp⟩
  exact hi (List.mem_map.mpr ⟨_, mem_dues.mpr ⟨e, he, hp, rfl⟩, rfl⟩)

omit [DecidableEq α] in
/-- The first pending linking. -/
theorem dues_eq_cons (h : dues ticks es = (i, r) :: l) : ∃ es₁ e es₂, es = es₁ ++ e :: es₂ ∧
    (∀ e' ∈ es₁, e'.fate ≠ .pending) ∧ e.fate = .pending ∧ e.event = i ∧
    r = e.tick + timeoutTicks - ticks ∧ dues ticks es₂ = l := by
  induction es with
  | nil => cases h
  | cons e es ih =>
    rw [dues_cons] at h
    by_cases he : e.fate = .pending
    · rw [if_pos he] at h
      cases h
      exact ⟨[], e, es, rfl, nofun, he, rfl, rfl, rfl⟩
    · rw [if_neg he] at h
      obtain ⟨es₁, e', es₂, rfl, h1, h2⟩ := ih h
      refine ⟨e :: es₁, e', es₂, rfl, fun x hx => ?_, h2⟩
      obtain rfl | hx := List.mem_cons.mp hx
      · exact he
      · exact h1 x hx

/-! ## Invariant -/

/-- The first of two linkings is not pending if the second one was processed. -/
def Fifo (e e' : Linking α) : Prop := e.fate = .pending → done e' = none

/-- The linkings after `ticks` ticks, where at least `lo` ticks are left to the pending ones. -/
structure History (lo ticks : Nat) (es : List (Linking α)) (processed : List (α × Nat)) : Prop where
  past : ∀ e ∈ es, e.tick ≤ ticks
  left : ∀ e ∈ es, e.fate = .pending → (ticks : Int) + lo ≤ e.tick + timeoutTicks
  onTime : ∀ e ∈ es, ∀ t, e.fate = .processed t → (t : Int) = e.tick + timeoutTicks
  fifo : es.Pairwise Fifo
  processed : processed = es.filterMap done

structure Inv (lo : Nat) (s : TimeoutRun α) : Prop where
  holds : s.queue.Holds (dues s.ticks s.linkings)
  history : History lo s.ticks s.linkings s.processed

theorem init_inv : (init : TimeoutRun α).Inv 1 :=
  ⟨⟨⟨rfl, trivial⟩, rfl, List.nodup_nil, trivial, fun _ _ => ⟨rfl, rfl, rfl⟩⟩,
    ⟨nofun, nofun, nofun, List.Pairwise.nil, rfl⟩⟩

omit [DecidableEq α] in
theorem History.due_le {log : List (α × Nat)} (H : History lo ticks es log) :
    ∀ x ∈ dues ticks es, x.2 ≤ timeoutTicks := by
  intro x hx
  obtain ⟨e, he, -, rfl⟩ := mem_dues.mp hx
  have hpast := H.past e he
  show (e.tick : Int) + timeoutTicks - ticks ≤ timeoutTicks
  omega

/-- The number of linkings that are due in this tick. -/
def dueCount (s : TimeoutRun α) : Nat := (dues s.ticks s.linkings).countP fun x => x.2 = 0

theorem settle_fate {e : Linking α} (h : (settle fate i e).fate = .pending) (hfate : fate ≠ .pending) :
    e.fate = .pending := by
  rw [settle] at h
  split at h
  · exact absurd h hfate
  · exact h

/-- The pending linking of an event is cancelled. -/
theorem History.cancel {log : List (α × Nat)} (H : History lo ticks es log) (i : α) :
    History lo ticks (es.map (settle .cancelled i)) log := by
  have hmem : ∀ e ∈ es.map (settle .cancelled i), ∃ e' ∈ es, e.tick = e'.tick ∧
      (e.fate = e'.fate ∨ e.fate = .cancelled) := by
    intro e he
    obtain ⟨e', he', rfl⟩ := List.mem_map.mp he
    refine ⟨e', he', ?_⟩
    rw [settle]
    split
    · exact ⟨rfl, .inr rfl⟩
    · exact ⟨rfl, .inl rfl⟩
  refine ⟨fun e he => ?_, fun e he hp => ?_, fun e he t ht => ?_, ?_, ?_⟩
  · obtain ⟨e', he', htick, -⟩ := hmem e he
    exact htick ▸ H.past e' he'
  · obtain ⟨e', he', htick, hfate | hfate⟩ := hmem e he
    · exact htick ▸ H.left e' he' (hfate ▸ hp)
    · cases hfate.symm.trans hp
  · obtain ⟨e', he', htick, hfate | hfate⟩ := hmem e he
    · exact htick ▸ H.onTime e' he' t (hfate ▸ ht)
    · cases hfate.symm.trans ht
  · refine List.pairwise_map.mpr (H.fifo.imp fun {e e'} h hp => ?_)
    rw [done_settle]
    exact h (settle_fate hp (by decide))
  · rw [H.processed, List.filterMap_map]
    exact List.filterMap_congr fun e _ => (done_settle e).symm

omit [DecidableEq α] in
/-- An event is linked for `TIMEOUT_TICKS` ticks. -/
theorem History.add {log : List (α × Nat)} (H : History lo ticks es log) (hlo : lo ≤ timeoutTicks)
    (i : α) : History lo ticks (es ++ [{ event := i, tick := ticks, fate := .pending }]) log := by
  have hmem : ∀ e ∈ es ++ [{ event := i, tick := ticks, fate := .pending }],
      e ∈ es ∨ e = { event := i, tick := ticks, fate := .pending } := by
    simp
  refine ⟨fun e he => ?_, fun e he hp => ?_, fun e he t ht => ?_, ?_, ?_⟩
  · obtain he | rfl := hmem e he
    · exact H.past e he
    · exact le_rfl
  · obtain he | rfl := hmem e he
    · exact H.left e he hp
    · simp only
      omega
  · obtain he | rfl := hmem e he
    · exact H.onTime e he t ht
    · cases ht
  · refine List.pairwise_append.mpr ⟨H.fifo, List.pairwise_singleton _ _, fun e _ e' he' _ => ?_⟩
    rw [List.mem_singleton.mp he']
    rfl
  · simp [H.processed, done]

omit [DecidableEq α] in
theorem dues_add : dues ticks (es ++ [{ event := i, tick := ticks, fate := .pending }]) =
    dues ticks es ++ [(i, timeoutTicks)] := by
  simp [dues]

theorem countP_drop : (drop i l).countP (fun x => x.2 = 0) ≤ l.countP fun x => x.2 = 0 :=
  List.filter_sublist.countP_le

theorem Inv.call (I : s.Inv lo) (hlo : lo ≤ timeoutTicks) (a : TimeoutCall α) :
    ∃ s', Returns (fun n => s.call n a) s' ∧ s'.Inv lo ∧ s'.dueCount ≤ s.dueCount := by
  have hdues : ∀ i, dues s.ticks (s.linkings.map (settle .cancelled i)) =
      drop i (dues s.ticks s.linkings) := fun i => dues_settle (by decide)
  cases a with
  | link i =>
    obtain ⟨queue, hlink, H⟩ := I.holds.link I.history.due_le i
    refine ⟨_, hlink.bind (Returns.const _), ⟨?_, (I.history.cancel i).add hlo i⟩, ?_⟩
    · rw [dues_add, hdues]
      exact H
    · rw [dueCount, dues_add, hdues, List.countP_append]
      exact countP_drop
  | unlink i =>
    by_cases hi : 0 ≤ s.queue.timeout i
    · obtain ⟨queue, hunlink, H⟩ := I.holds.unlink_drop hi
      refine ⟨{ s with queue, linkings := s.linkings.map (settle .cancelled i) },
        (Returns.const _).congr fun n => ?_, ⟨?_, I.history.cancel i⟩, ?_⟩
      · rw [TimeoutRun.call, if_pos hi, hunlink]
        rfl
      · rw [hdues]
        exact H
      · rw [dueCount, hdues]
        exact countP_drop
    · refine ⟨s, (Returns.const s).congr fun n => ?_, I, le_rfl⟩
      rw [TimeoutRun.call, if_neg hi]

theorem Inv.calls (I : s.Inv lo) (hlo : lo ≤ timeoutTicks) (as : List (TimeoutCall α)) :
    ∃ s', Returns (fun n => as.foldlM (TimeoutRun.call n) s) s' ∧ s'.Inv lo ∧ s'.dueCount ≤ s.dueCount := by
  induction as generalizing s with
  | nil => exact ⟨s, Returns.const s, I, le_rfl⟩
  | cons a as ih =>
    obtain ⟨s₁, hcall, I₁, hle₁⟩ := I.call hlo a
    obtain ⟨s₂, hcalls, I₂, hle₂⟩ := ih I₁
    exact ⟨s₂, hcall.foldlM_cons hcalls, I₂, hle₂.trans hle₁⟩

/-! ## Ticks -/

/-- The first pending linking is processed in its tick. -/
theorem History.expire {log : List (α × Nat)} {e : Linking α} (H : History 0 ticks (es₁ ++ e :: es₂) log)
    (hbefore : ∀ e' ∈ es₁, e'.fate ≠ .pending) (hp : e.fate = .pending)
    (ht : (ticks : Int) = e.tick + timeoutTicks) :
    History 0 ticks (es₁ ++ { e with fate := .processed ticks } :: es₂) (log ++ [(e.event, ticks)]) := by
  have hmem : ∀ e' ∈ es₁ ++ { e with fate := .processed ticks } :: es₂,
      e' ∈ es₁ ++ e :: es₂ ∨ e' = { e with fate := .processed ticks } := by
    intro e' he'
    simp only [List.mem_append, List.mem_cons] at he' ⊢
    tauto
  obtain ⟨hfifo₁, hfifo', -⟩ := List.pairwise_append.mp H.fifo
  obtain ⟨hfifo, hfifo₂⟩ := List.pairwise_cons.mp hfifo'
  have hnone : es₂.filterMap done = [] := List.filterMap_eq_nil_iff.mpr fun e' he' => hfifo e' he' hp
  have hdone : done e = none := by rw [done, hp]
  refine ⟨fun e' he' => ?_, fun e' he' hp' => ?_, fun e' he' t ht' => ?_, ?_, ?_⟩
  · obtain he' | rfl := hmem e' he'
    · exact H.past e' he'
    · exact H.past e (by simp)
  · obtain he' | rfl := hmem e' he'
    · exact H.left e' he' hp'
    · cases hp'
  · obtain he' | rfl := hmem e' he'
    · exact H.onTime e' he' t ht'
    · cases ht'
      exact ht
  · refine List.pairwise_append.mpr ⟨hfifo₁, List.pairwise_cons.mpr ⟨fun e' _ => nofun, hfifo₂⟩,
      fun e' he' _ _ hp' => ?_⟩
    exact absurd hp' (hbefore e' he')
  · have hdone' : done { e with fate := .processed ticks } = some (e.event, ticks) := rfl
    rw [H.processed, List.filterMap_append, List.filterMap_append, List.filterMap_cons_none hdone,
      List.filterMap_cons_some hdone', hnone, List.append_nil]

/-- The first event of the queue is processed in its tick. -/
theorem Inv.expire (I : s.Inv 0) (f : Processing α) (hfirst : s.queue.first = some i)
    (hdue : s.queue.timeout i = 0) :
    ∃ s', Returns (fun n => s.expire f n i) s' ∧ s'.Inv 0 ∧ s'.dueCount < s.dueCount := by
  obtain ⟨l, hl⟩ := I.holds.first_some hfirst
  have H := I.holds
  rw [hl] at H
  have Hfirst : s.queue.Holds ([] ++ (i, _) :: l) := H
  obtain ⟨queue, hunlink, H'⟩ := Hfirst.unlink
  obtain ⟨es₁, e, es₂, hes, hbefore, hpending, rfl, hr, rfl⟩ := dues_eq_cons hl
  have hout : e.event ∉ (dues s.ticks es₂).map Prod.fst := Hfirst.ne_self.2
  have hdues₁ : dues s.ticks es₁ = [] := by
    rw [dues, List.map_eq_nil_iff, List.filter_eq_nil_iff]
    simpa using hbefore
  have hnotIn : e.event ∉ (dues s.ticks es₁).map Prod.fst := by simp [hdues₁]
  have hsettle : s.linkings.map (settle (.processed s.ticks) e.event) =
      es₁ ++ { e with fate := .processed s.ticks } :: es₂ := by
    rw [hes, List.map_append, List.map_cons, settle_eq_self hnotIn,
      settle_eq_self hout, settle, if_pos ⟨rfl, hpending⟩]
  have ht : (s.ticks : Int) = e.tick + timeoutTicks := by omega
  have hhistory := I.history
  rw [hes] at hhistory
  have hdues : dues s.ticks (es₁ ++ { e with fate := .processed s.ticks } :: es₂) = dues s.ticks es₂ := by
    simpa [dues] using hdues₁
  let s₁ : TimeoutRun α :=
    { s with
      queue
      linkings := es₁ ++ { e with fate := .processed s.ticks } :: es₂
      processed := s.processed ++ [(e.event, s.ticks)] }
  have I₁ : s₁.Inv 0 := ⟨by rw [hdues]; exact H', hhistory.expire hbefore hpending ht⟩
  obtain ⟨s', hcalls, I', hle⟩ := I₁.calls (by decide) (f s₁ e.event)
  refine ⟨s', hcalls.congr fun n => ?_, I', hle.trans_lt ?_⟩
  · rw [TimeoutRun.expire, hunlink, hsettle]
    rfl
  · rw [dueCount, dueCount, hl, hdues, hdue, List.countP_cons_of_pos (by simp)]
    exact Nat.lt_succ_self _

/-- No pending linking is due any more. -/
theorem Inv.of_first (I : s.Inv 0) (h : ∀ i, s.queue.first = some i → s.queue.timeout i ≠ 0) :
    s.Inv 1 := by
  refine ⟨I.holds, { I.history with left := fun e he hp => ?_ }⟩
  have hx : (e.event, (e.tick : Int) + timeoutTicks - s.ticks) ∈ dues s.ticks s.linkings :=
    mem_dues.mpr ⟨e, he, hp, rfl⟩
  have H := I.holds.deltas
  cases hfirst : s.queue.first with
  | none =>
    rw [I.holds.first_none hfirst] at hx
    cases hx
  | some i =>
    obtain ⟨l, hl⟩ := I.holds.first_some hfirst
    have hne := h i hfirst
    rw [hl] at hx H
    have hpos : 0 ≤ s.queue.timeout i := H.2.1
    have hle : s.queue.timeout i ≤ e.tick + timeoutTicks - s.ticks := by
      obtain hx | hx := List.mem_cons.mp hx
      · exact (congrArg Prod.snd hx).ge
      · exact H.2.2.le hx
    omega

/-- The loop of a tick ends: each round processes an event that is due, and no call adds one. -/
theorem Inv.expireLoop (I : s.Inv 0) (f : Processing α) :
    ∃ s', Returns (fun n => TimeoutRun.expireLoop f n s) s' ∧ s'.Inv 1 := by
  induction hn : s.dueCount using Nat.strong_induction_on generalizing s with
  | _ n ih =>
    have stop : (∀ i, s.queue.first = some i → s.queue.timeout i ≠ 0) →
        Returns (fun n => TimeoutRun.expireLoop f n s) s := by
      refine fun h => (Returns.const s).round fun n => ?_
      rw [TimeoutRun.expireLoop]
      cases hfirst : s.queue.first with
      | none => rfl
      | some i => exact if_neg (h i hfirst)
    by_cases hdue : ∃ i, s.queue.first = some i ∧ s.queue.timeout i = 0
    · obtain ⟨i, hfirst, hzero⟩ := hdue
      obtain ⟨s₁, hexpire, I₁, hlt⟩ := I.expire f hfirst hzero
      obtain ⟨s₂, hloop, I₂⟩ := ih _ (hn ▸ hlt) I₁ rfl
      refine ⟨s₂, (hexpire.bind hloop).round fun n => ?_, I₂⟩
      simp only [TimeoutRun.expireLoop, hfirst, hzero, if_true]
    · push Not at hdue
      exact ⟨s, stop hdue, I.of_first hdue⟩

theorem Inv.handleTimeout (I : s.Inv 1) (f : Processing α) :
    ∃ s', Returns (fun n => s.handleTimeout f n) s' ∧ s'.Inv 1 := by
  have H := I.history
  have past : ∀ e ∈ s.linkings, e.tick ≤ s.ticks + 1 := fun e he => Nat.le_succ_of_le (H.past e he)
  cases hfirst : s.queue.first with
  | none =>
    have hnil := I.holds.first_none hfirst
    have hdues : dues (s.ticks + 1) s.linkings = [] := by rw [dues_succ, hnil, List.map_nil]
    refine ⟨{ s with ticks := s.ticks + 1 }, (Returns.const _).congr fun n => ?_, ?_,
      { H with past, left := fun e he hp => ?_ }⟩
    · rw [TimeoutRun.handleTimeout]
      simp only [hfirst]
    · rw [hdues, ← hnil]
      exact I.holds
    · have hx : _ ∈ dues s.ticks s.linkings := mem_dues.mpr ⟨e, he, hp, rfl⟩
      rw [hnil] at hx
      cases hx
  | some i =>
    obtain ⟨l, hl⟩ := I.holds.first_some hfirst
    have hq := I.holds
    have hx : (i, s.queue.timeout i) ∈ dues s.ticks s.linkings := by simp [hl]
    obtain ⟨e, he, hp, heq⟩ := mem_dues.mp hx
    have hone : 1 ≤ s.queue.timeout i := by
      have hleft := H.left e he hp
      have heq : (e.tick : Int) + timeoutTicks - s.ticks = s.queue.timeout i := congrArg Prod.snd heq
      omega
    rw [hl] at hq
    have hq' := hq.tick hone
    rw [← hl, ← dues_succ] at hq'
    have I₁ : Inv 0 { s with
        ticks := s.ticks + 1, queue := s.queue.setTimeout i (s.queue.timeout i - 1) } :=
      ⟨hq', { H with past, left := fun e he hp => by have hleft := H.left e he hp; simp only; omega }⟩
    obtain ⟨s', hloop, I'⟩ := I₁.expireLoop f
    refine ⟨s', hloop.congr fun n => ?_, I'⟩
    rw [TimeoutRun.handleTimeout]
    simp only [hfirst]

theorem Inv.step (I : s.Inv 1) (a : Event α) : ∃ s', Returns (fun n => s.step n a) s' ∧ s'.Inv 1 := by
  cases a with
  | call a =>
    obtain ⟨s', hcall, I', -⟩ := I.call (by decide) a
    exact ⟨s', hcall, I'⟩
  | tick f => exact I.handleTimeout f

theorem Reachable.inv (H : Reachable s) : s.Inv 1 := by
  induction H with
  | init => exact init_inv
  | step _ hrun ih =>
    obtain ⟨s', hrun', I⟩ := ih.step _
    exact hrun.unique hrun' ▸ I

/-- What holds of the queue between the ticks. -/
structure OnTime (s : TimeoutRun α) : Prop where
  /-- The queue holds the events of the pending linkings. -/
  links : IsDList s.queue.next s.queue.prev s.queue.first ((dues s.ticks s.linkings).map Prod.fst)
  last : s.queue.last = ((dues s.ticks s.linkings).map Prod.fst).getLast?
  nodup : ((dues s.ticks s.linkings).map Prod.fst).Nodup
  linked : ∀ i, 0 ≤ s.queue.timeout i ↔ i ∈ (dues s.ticks s.linkings).map Prod.fst
  bounds : ∀ i, -1 ≤ s.queue.timeout i ∧ s.queue.timeout i ≤ timeoutTicks
  /-- The sum of the timeouts up to an event is the number of ticks that are left. -/
  sums : ∀ l₁ i r l₂, dues s.ticks s.linkings = l₁ ++ (i, r) :: l₂ →
    ((l₁ ++ [(i, r)]).map fun x => s.queue.timeout x.1).sum = r
  pending : ∀ e ∈ s.linkings, e.fate = .pending → (s.ticks : Int) < e.tick + timeoutTicks
  onTime : ∀ e ∈ s.linkings, ∀ t, e.fate = .processed t → (t : Int) = e.tick + timeoutTicks
  /-- The events are processed in the order in which they were linked. -/
  order : s.processed = s.linkings.filterMap done

omit [DecidableEq α] in
theorem Inv.to_onTime (I : s.Inv 1) : s.OnTime where
  links := I.holds.links
  last := I.holds.last
  nodup := I.holds.nodup
  linked _ := I.holds.linked_iff
  bounds i := by
    by_cases hi : i ∈ (dues s.ticks s.linkings).map Prod.fst
    · obtain ⟨x, hx, rfl⟩ := List.mem_map.mp hi
      have hd := I.holds.deltas.mem hx
      have hle := I.history.due_le x hx
      omega
    · rw [(I.holds.free i hi).1]
      decide
  sums l₁ i r l₂ h := by
    have H := I.holds.deltas
    rw [h] at H
    exact (zero_add _).symm.trans H.sum
  pending e he hp := by
    have hleft := I.history.left e he hp
    omega
  onTime := I.history.onTime
  order := I.history.processed

end TimeoutRun

end L4env.Events
