import L4env.Util.Links

/-!
# Wait queue of the L4Env semaphores

A wait-queue entry is an element of the static array `wq_entries` and belongs to a thread or is free.
The entries of the threads that wait at a semaphore are a doubly linked list in descending order of
their priorities (`lib/src/semaphore.c`). A pointer to an entry is its index; NULL is `none`.
-/

namespace L4env.L4semaphore

/-- `L4SEMAPHORE_MAX_WQ_ENTRIES` -/
def maxWqEntries : Nat := 256

/-- The wait-queue entries and the head of the queue of the semaphore. -/
structure WaitQueue (T : Type) where
  /-- a free entry has an invalid thread id -/
  thread : Nat → Option T
  prio : Nat → Int
  next : Nat → Option Nat
  prev : Nat → Option Nat
  nextEntry : Nat
  /-- `sem->queue` -/
  queue : Option Nat

namespace WaitQueue

variable {T : Type}

/-- The array after the semaphore thread has started, and an empty queue. -/
def empty : WaitQueue T where
  thread _ := none
  prio _ := 0
  next _ := none
  prev _ := none
  nextEntry := 0
  queue := none

/-- The loop of `__alloc_entry`, which looks at `fuel` entries from `i` on. -/
def findEntry (w : WaitQueue T) : Nat → Nat → Option Nat
  | 0, _ => none
  | fuel + 1, i =>
    if (w.thread i).isNone then some i else w.findEntry fuel ((i + 1) % maxWqEntries)

/-- `__alloc_entry`. There is no result where it panics. -/
def allocEntry (w : WaitQueue T) : Option (Nat × WaitQueue T) :=
  match w.findEntry maxWqEntries w.nextEntry with
  | none => none
  | some i => some (i, { w with nextEntry := (i + 1) % maxWqEntries })

def freeEntry (w : WaitQueue T) (wq : Nat) : WaitQueue T :=
  let next := writeAt w.next (w.prev wq) (w.next wq)
  { w with
    thread := Function.update w.thread wq none
    next := next
    prev := writeAt w.prev (next wq) (w.prev wq) }

/-- The entry `wq` is given to the thread `t`. -/
def initEntry (w : WaitQueue T) (wq : Nat) (t : T) (prio : Int) : WaitQueue T :=
  { w with
    thread := Function.update w.thread wq (some t)
    prio := Function.update w.prio wq prio
    next := Function.update w.next wq none }

/-- The part of `__enqueue_thread` that finds the place of the new entry `wq`. The walk is at most as
long as there are entries. -/
def linkEntry (w : WaitQueue T) (wq : Nat) (prio : Int) : Option (WaitQueue T) :=
  match w.queue with
  | none => some { w with prev := Function.update w.prev wq none, queue := some wq }
  | some head =>
    if w.prio head < prio then
      some { w with
        next := Function.update w.next wq (some head)
        prev := Function.update (Function.update w.prev wq none) head (some wq)
        queue := some wq }
    else
      match walkWhile w.next (fun y => decide (prio ≤ w.prio y)) maxWqEntries head with
      | none => none
      | some wp =>
        some { w with
          next := Function.update (Function.update w.next wq (w.next wp)) wp (some wq)
          prev := writeAt (Function.update w.prev wq (some wp)) (w.next wp) (some wq) }

/-- `__enqueue_thread`, where `l4thread_get_prio` gives `answer`: a negative one is an error. -/
def enqueueThread (w : WaitQueue T) (t : T) (answer : Int) : Option (Nat × WaitQueue T) :=
  let prio := if answer < 0 then 0 else answer
  match w.allocEntry with
  | none => none
  | some (wq, w) => ((w.initEntry wq t prio).linkEntry wq prio).map fun w => (wq, w)

/-- `RELEASE` takes the entry `wq` from the head of the queue. -/
def dequeueHead (w : WaitQueue T) (wq : Nat) : WaitQueue T :=
  { w with queue := w.next wq }.freeEntry wq

/-- `RELEASETIMED` takes the entry `wq` from its place in the queue. -/
def removeEntry (w : WaitQueue T) (wq : Nat) : WaitQueue T :=
  (if w.prev wq = none then { w with queue := w.next wq } else w).freeEntry wq

/-! ## The queue -/

/-- The entries `l` are queued in this order, and no other one is in use. -/
structure Holds (w : WaitQueue T) (l : List Nat) : Prop where
  list : IsDList w.next w.prev w.queue l
  nodup : l.Nodup
  lt : ∀ i ∈ l, i < maxWqEntries
  used : ∀ i < maxWqEntries, (w.thread i).isSome ↔ i ∈ l
  sorted : l.Pairwise fun i j => w.prio j ≤ w.prio i
  nextEntry : w.nextEntry < maxWqEntries

variable {w w' : WaitQueue T} {l : List Nat} {i n : Nat} {t : T} {answer : Int}

theorem holds_empty : (empty : WaitQueue T).Holds [] where
  list := ⟨rfl, trivial⟩
  nodup := List.nodup_nil
  lt := nofun
  used := by simp [empty]
  sorted := List.Pairwise.nil
  nextEntry := Nat.zero_lt_succ _

theorem length_le_max (hnd : l.Nodup) (hlt : ∀ i ∈ l, i < maxWqEntries) :
    l.length ≤ maxWqEntries := by
  have hsub : l.toFinset ⊆ Finset.range maxWqEntries := by
    intro i hi
    exact Finset.mem_range.mpr (hlt i (List.mem_toFinset.mp hi))
  have hcard := Finset.card_le_card hsub
  rwa [List.toFinset_card_of_nodup hnd, Finset.card_range] at hcard

theorem Holds.head_eq (h : w.Holds l) : w.queue = l.head? := h.list.1

/-! ## Allocation -/

/-- An entry that the search passes is in use. -/
theorem findEntry_none (hi : i < maxWqEntries) (h : w.findEntry n i = none) :
    ∀ k < n, (w.thread ((i + k) % maxWqEntries)).isSome := by
  induction n generalizing i with
  | zero => simp
  | succ n ih =>
    rw [findEntry] at h
    split at h
    · cases h
    rename_i hused
    intro k hk
    cases k with
    | zero =>
      rw [Nat.add_zero, Nat.mod_eq_of_lt hi]
      simpa [Option.isSome_iff_ne_none] using hused
    | succ k =>
      have hrest := ih (Nat.mod_lt _ (by decide)) h k (by omega)
      rwa [Nat.mod_add_mod, show i + 1 + k = i + (k + 1) by omega] at hrest

theorem findEntry_some (hi : i < maxWqEntries) (h : w.findEntry n i = some j) :
    j < maxWqEntries ∧ w.thread j = none := by
  induction n generalizing i with
  | zero => cases h
  | succ n ih =>
    rw [findEntry] at h
    split at h
    · rename_i hfree
      cases h
      exact ⟨hi, Option.isNone_iff_eq_none.mp hfree⟩
    · exact ih (Nat.mod_lt _ (by decide)) h

/-- There is a free entry unless all of them are queued. -/
theorem Holds.findEntry_isSome (h : w.Holds l) (hl : l.length < maxWqEntries) :
    (w.findEntry maxWqEntries w.nextEntry).isSome := by
  rw [Option.isSome_iff_ne_none]
  intro hnone
  have hall : Finset.range maxWqEntries ⊆ l.toFinset := by
    intro i hi
    have hi := Finset.mem_range.mp hi
    have hnext := h.nextEntry
    have hused := findEntry_none hnext hnone ((i + maxWqEntries - w.nextEntry) % maxWqEntries)
      (Nat.mod_lt _ (by decide))
    rw [Nat.add_mod_mod, show w.nextEntry + (i + maxWqEntries - w.nextEntry) = i + maxWqEntries by
      omega, Nat.add_mod_right, Nat.mod_eq_of_lt hi] at hused
    exact List.mem_toFinset.mpr ((h.used i hi).mp hused)
  have hcard := Finset.card_le_card hall
  rw [List.toFinset_card_of_nodup h.nodup, Finset.card_range] at hcard
  omega

/-! ## Insertion -/

/-- An entry that is about to be inserted, with its fields filled in. -/
structure Fresh (w : WaitQueue T) (l : List Nat) (i : Nat) (t : T) : Prop where
  list : IsDList w.next w.prev w.queue l
  nodup : (i :: l).Nodup
  lt : ∀ j ∈ i :: l, j < maxWqEntries
  used : ∀ j < maxWqEntries, (w.thread j).isSome ↔ j ∈ i :: l
  sorted : l.Pairwise fun j k => w.prio k ≤ w.prio j
  nextEntry : w.nextEntry < maxWqEntries
  next : w.next i = none

theorem Holds.not_mem (h : w.Holds l) (hi : i < maxWqEntries) (hfree : w.thread i = none) :
    i ∉ l := by
  rw [← h.used i hi, hfree]
  exact Bool.false_ne_true

theorem Holds.fresh (h : w.Holds l) (hi : i < maxWqEntries) (hfree : w.thread i = none) (t : T)
    (prio : Int) :
    ({ w with nextEntry := (i + 1) % maxWqEntries }.initEntry i t prio).Fresh l i t := by
  have hnot := h.not_mem hi hfree
  have hne : ∀ j ∈ l, j ≠ i := fun j hj e => hnot (e ▸ hj)
  refine ⟨⟨h.list.1, h.list.2.congr ?_ fun _ _ => rfl⟩, List.nodup_cons.mpr ⟨hnot, h.nodup⟩, ?_, ?_,
    ?_, Nat.mod_lt _ (by decide), Function.update_self _ _ _⟩
  · exact fun j hj => Function.update_of_ne (hne j hj) _ _
  · rintro j (_ | ⟨_, hj⟩)
    · exact hi
    · exact h.lt j hj
  · intro j hj
    by_cases hji : j = i
    · simp [hji, initEntry]
    · simpa [hji, initEntry] using h.used j hj
  · refine h.sorted.imp_of_mem fun {j k} hj hk hle => ?_
    simpa only [initEntry, Function.update_of_ne (hne j hj), Function.update_of_ne (hne k hk)]
      using hle

/-- The list fields are written, and the entry is in its place. -/
theorem Fresh.holds {l₁ l₂ : List Nat} {next prev : Nat → Option Nat} {queue : Option Nat}
    (h : w.Fresh (l₁ ++ l₂) i t) (hlist : IsDList next prev queue (l₁ ++ i :: l₂))
    (hbefore : ∀ j ∈ l₁, w.prio i ≤ w.prio j) (hafter : ∀ j ∈ l₂, w.prio j ≤ w.prio i) :
    { w with next := next, prev := prev, queue := queue }.Holds (l₁ ++ i :: l₂) := by
  have hperm : (i :: (l₁ ++ l₂)).Perm (l₁ ++ i :: l₂) := List.perm_middle.symm
  refine ⟨hlist, hperm.nodup_iff.mp h.nodup, fun j hj => h.lt j (hperm.mem_iff.mpr hj),
    fun j hj => (h.used j hj).trans hperm.mem_iff, ?_, h.nextEntry⟩
  have hsorted := List.pairwise_append.mp h.sorted
  refine List.pairwise_append.mpr ⟨hsorted.1, List.pairwise_cons.mpr ⟨hafter, hsorted.2.1⟩, ?_⟩
  rintro j hj k (_ | ⟨_, hk⟩)
  · exact hbefore j hj
  · exact hsorted.2.2 j hj k hk

theorem Fresh.linkEntry_nil (h : w.Fresh [] i t) :
    ∃ w', w.linkEntry i (w.prio i) = some w' ∧ w'.Holds [i] ∧ w'.thread = w.thread := by
  have hqueue : w.queue = none := h.list.1
  have hlink : w.linkEntry i (w.prio i) =
      some { w with prev := Function.update w.prev i none, queue := some i } := by
    rw [linkEntry, hqueue]
  have h' : w.Fresh ([] ++ []) i t := h
  refine ⟨_, hlink, h'.holds ⟨rfl, ?_⟩ nofun nofun, rfl⟩
  simp [h.next]

/-- A priority above that of the head: the entry becomes the head. -/
theorem Fresh.linkEntry_head {head : Nat} (h : w.Fresh (head :: l) i t)
    (hprio : w.prio head < w.prio i) :
    ∃ w', w.linkEntry i (w.prio i) = some w' ∧ w'.Holds (i :: head :: l) ∧
      w'.thread = w.thread := by
  have hqueue : w.queue = some head := h.list.1
  obtain ⟨hnot, hnd⟩ := List.nodup_cons.mp h.nodup
  have hne : head ≠ i := fun e => hnot (by simp [e])
  have hlink : w.linkEntry i (w.prio i) = some { w with
      next := Function.update w.next i (some head)
      prev := Function.update (Function.update w.prev i none) head (some i)
      queue := some i } := by
    rw [linkEntry, hqueue]
    exact if_pos hprio
  have h' : w.Fresh ([] ++ head :: l) i t := h
  refine ⟨_, hlink, h'.holds ⟨rfl, ?_⟩ nofun ?_, rfl⟩
  · refine h.list.2.cons_head hnot ?_ (by simp) ?_ (by simp [hne.symm]) (by simp) hnd
    · intro y hy
      have hyi : y ≠ i := fun e => hnot (e ▸ hy)
      exact Function.update_of_ne hyi _ _
    · intro y hy hhead
      have hyi : y ≠ i := fun e => hnot (e ▸ hy)
      have hyh : y ≠ head := fun e => hhead (by simp [e])
      simp only [Function.update_of_ne hyh, Function.update_of_ne hyi]
  · rintro j (_ | ⟨_, hj⟩)
    · exact hprio.le
    · exact ((List.rel_of_pairwise_cons h.sorted hj).trans hprio.le)

/-- Otherwise the entry goes behind the last one of its priority or above. -/
theorem Fresh.linkEntry_walk {head : Nat} (h : w.Fresh (head :: l) i t)
    (hprio : ¬ w.prio head < w.prio i) :
    ∃ w' l₁ l₂, w.linkEntry i (w.prio i) = some w' ∧ head :: l = l₁ ++ l₂ ∧
      w'.Holds (l₁ ++ i :: l₂) ∧ w'.thread = w.thread := by
  have hqueue : w.queue = some head := h.list.1
  obtain ⟨hnot, hnd⟩ := List.nodup_cons.mp h.nodup
  have hlen : l.length < maxWqEntries := by
    have hle := length_le_max h.nodup h.lt
    simp only [List.length_cons] at hle
    omega
  obtain ⟨l₁, wp, l₂, heq, hwalk, hpassed, hstop⟩ : ∃ l₁ wp l₂, head :: l = l₁ ++ wp :: l₂ ∧
      walkWhile w.next (fun y => decide (w.prio i ≤ w.prio y)) maxWqEntries head = some wp ∧
      (∀ y ∈ l₁ ++ [wp], y = head ∨ decide (w.prio i ≤ w.prio y) = true) ∧
      ∀ y ∈ l₂.head?, decide (w.prio i ≤ w.prio y) = false := h.list.2.walkWhile_eq hlen
  rw [heq] at hnot hnd
  have hlinks := heq ▸ h.list.2
  have hnext : w.next wp = l₂.head? := by simpa using hlinks.middle.2
  have hlink : w.linkEntry i (w.prio i) = some { w with
      next := Function.update (Function.update w.next i (w.next wp)) wp (some i)
      prev := writeAt (Function.update w.prev i (some wp)) (w.next wp) (some i) } := by
    rw [linkEntry, hqueue]
    simp only [if_neg hprio, hwalk]
  have h' : w.Fresh ((l₁ ++ [wp]) ++ l₂) i t := by simpa [heq] using h
  refine ⟨_, l₁ ++ [wp], l₂, hlink, by simp [heq], h'.holds ⟨?_, ?_⟩ ?_ ?_, rfl⟩
  · rw [h.list.1, heq]
    cases l₁ <;> rfl
  · rw [hnext, List.append_assoc]
    exact hlinks.insert_behind_write hnd hnot
  · intro j hj
    rcases hpassed j hj with rfl | hgo
    · exact not_lt.mp hprio
    · simpa using hgo
  · intro j hj
    cases l₂ with
    | nil => cases hj
    | cons b l₂ =>
      have hb : w.prio b < w.prio i := by simpa using hstop b rfl
      have hsorted := (List.pairwise_append.mp h'.sorted).2.1
      rcases List.mem_cons.mp hj with rfl | hj
      · exact hb.le
      · exact (List.rel_of_pairwise_cons hsorted hj).trans hb.le

/-- The place of a new entry in the queue. -/
theorem Fresh.linkEntry (h : w.Fresh l i t) :
    ∃ w' l₁ l₂, w.linkEntry i (w.prio i) = some w' ∧ l = l₁ ++ l₂ ∧ w'.Holds (l₁ ++ i :: l₂) ∧
      w'.thread = w.thread := by
  cases l with
  | nil =>
    obtain ⟨w', hlink, hholds, hthread⟩ := h.linkEntry_nil
    exact ⟨w', [], [], hlink, rfl, hholds, hthread⟩
  | cons head l =>
    by_cases hprio : w.prio head < w.prio i
    · obtain ⟨w', hlink, hholds, hthread⟩ := h.linkEntry_head hprio
      exact ⟨w', [], head :: l, hlink, rfl, hholds, hthread⟩
    · exact h.linkEntry_walk hprio

/-- `__enqueue_thread` finds an entry and a place for it, unless all entries are queued. -/
theorem Holds.enqueueThread (h : w.Holds l) (t : T) (answer : Int) :
    (∃ i w' l₁ l₂, w.enqueueThread t answer = some (i, w') ∧ i ∉ l ∧ l = l₁ ++ l₂ ∧
      w'.Holds (l₁ ++ i :: l₂) ∧ w'.thread = Function.update w.thread i (some t)) ∨
    w.enqueueThread t answer = none ∧ l.length = maxWqEntries := by
  rw [WaitQueue.enqueueThread, allocEntry]
  cases hfind : w.findEntry maxWqEntries w.nextEntry with
  | none =>
    refine .inr ⟨rfl, Nat.le_antisymm (length_le_max h.nodup h.lt) ?_⟩
    by_contra hlt
    have hsome := h.findEntry_isSome (by omega)
    rw [hfind] at hsome
    cases hsome
  | some i =>
    obtain ⟨hi, hfree⟩ := findEntry_some h.nextEntry hfind
    have hfresh := h.fresh hi hfree t (if answer < 0 then 0 else answer)
    obtain ⟨w', l₁, l₂, hlink, heq, hholds, hthread⟩ := hfresh.linkEntry
    refine .inl ⟨i, w', l₁, l₂, ?_, h.not_mem hi hfree, heq, hholds, hthread⟩
    simp only [initEntry, Function.update_self] at hlink ⊢
    rw [hlink]
    rfl

/-! ## Removal -/

/-- The fields of a queue whose entry `i` is taken out of the list. -/
theorem Holds.removeEntry_eq {l₁ l₂ : List Nat} (h : w.Holds (l₁ ++ i :: l₂)) :
    w.removeEntry i = { w with
      thread := Function.update w.thread i none
      next := writeAt w.next l₁.getLast? l₂.head?
      prev := writeAt w.prev l₂.head? l₁.getLast?
      queue := (l₁ ++ l₂).head? } := by
  have hprev : w.prev i = l₁.getLast? := by simpa using h.list.2.middle.1
  have hnext : w.next i = l₂.head? := by simpa using h.list.2.middle.2
  have hlast : l₁.getLast? ≠ some i := by
    intro e
    exact (List.nodup_append.mp h.nodup).2.2 i (List.mem_of_getLast? e) i List.mem_cons_self rfl
  have hnext' : writeAt w.next l₁.getLast? l₂.head? i = l₂.head? := by
    rw [writeAt_of_ne hlast, hnext]
  rw [WaitQueue.removeEntry]
  cases l₁ with
  | nil =>
    rw [if_pos (show w.prev i = none from hprev)]
    simp only [freeEntry, hprev, hnext, hnext', List.nil_append]
  | cons j l₁ =>
    have hsome : w.prev i ≠ none := by simp [hprev]
    have hqueue : w.queue = some j := h.list.1
    rw [if_neg hsome]
    simp only [freeEntry, hprev, hnext, hnext', List.cons_append, List.head?_cons, ← hqueue]

theorem Holds.removeEntry (h : w.Holds l) (hi : i ∈ l) :
    (w.removeEntry i).Holds (l.erase i) ∧
      (w.removeEntry i).thread = Function.update w.thread i none := by
  obtain ⟨l₁, l₂, rfl⟩ := List.append_of_mem hi
  have herase : (l₁ ++ i :: l₂).erase i = l₁ ++ l₂ := by
    have hnot : i ∉ l₁ := fun hi =>
      (List.nodup_append.mp h.nodup).2.2 i hi i List.mem_cons_self rfl
    rw [List.erase_append_right _ hnot, List.erase_cons_head]
  rw [h.removeEntry_eq, herase]
  refine ⟨⟨⟨rfl, h.list.2.remove_write h.nodup⟩, ?_, ?_, ?_, ?_, h.nextEntry⟩, rfl⟩
  · exact herase ▸ h.nodup.erase i
  · exact fun j hj => h.lt j (List.mem_of_mem_erase (herase ▸ hj))
  · intro j hj
    rw [← herase, h.nodup.mem_erase_iff, ← h.used j hj]
    by_cases hji : j = i <;> simp [hji]
  · exact h.sorted.sublist (by simp)

/-- The head of the queue is removed the same way in both places. -/
theorem Holds.dequeueHead (h : w.Holds l) (hi : w.queue = some i) :
    w.dequeueHead i = w.removeEntry i := by
  have hprev : w.prev i = none := h.list.2.prev_head (h.list.1 ▸ hi)
  rw [WaitQueue.dequeueHead, WaitQueue.removeEntry, if_pos hprev]

end WaitQueue

end L4env.L4semaphore
