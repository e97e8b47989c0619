import L4env.Fiasco.PrioList
import L4env.Util.Returns

/-!
# Priority lists: runs

A priority list is a stable priority queue. The elements are in the order of their priorities, and in
the order of their insertion within a priority, after any sequence of calls that insert elements that
are not queued and dequeue elements that are.
-/

namespace L4env.Fiasco

namespace PrioList

open HHeap (slotBehind)

variable {α : Type} {q q' : PrioList α} {g : Group α} {gs gs₁ gs₂ : List (Group α)} {x y e : α}
  {l l₁ l₂ m : List α} {p fuel : Nat}

/-! ## Groups -/

@[simp] theorem elems_nil : elems ([] : List (Group α)) = [] := rfl

@[simp] theorem elems_cons : elems (g :: gs) = g.toList ++ elems gs := rfl

@[simp] theorem elems_append : elems (gs₁ ++ gs₂) = elems gs₁ ++ elems gs₂ := List.flatMap_append

theorem mem_elems : y ∈ elems gs ↔ ∃ g ∈ gs, y ∈ g.toList := List.mem_flatMap

theorem first_mem (hg : g ∈ gs) : g.1 ∈ elems gs := mem_elems.mpr ⟨g, hg, List.mem_cons_self⟩

theorem firsts_subset (hy : y ∈ gs.map Prod.fst) : y ∈ elems gs := by
  obtain ⟨g, hg, rfl⟩ := List.mem_map.mp hy
  exact first_mem hg

/-- An element is in one group only. -/
theorem group_unique {g' : Group α} (hnd : (elems gs).Nodup) (hg : g ∈ gs) (hg' : g' ∈ gs)
    (hy : y ∈ g.toList) (hy' : y ∈ g'.toList) : g = g' := by
  by_contra hne
  have : Std.Symm (Function.onFun List.Disjoint (@Group.toList α)) := ⟨fun _ _ h => h.symm⟩
  have hdisj := (List.nodup_flatMap.mp hnd).2.forall hg hg' hne
  exact hdisj hy hy'

theorem group_nodup (hnd : (elems gs).Nodup) (hg : g ∈ gs) : g.toList.Nodup :=
  (List.nodup_flatMap.mp hnd).1 g hg

theorem group_other {g' : Group α} (hnd : (elems (gs₁ ++ g :: gs₂)).Nodup) (hg' : g' ∈ gs₁ ++ gs₂)
    (hy : y ∈ g'.toList) : y ∉ g.toList := by
  intro hyg
  rw [elems_append, elems_cons] at hnd
  obtain hg' | hg' := List.mem_append.mp hg'
  · have hmem : y ∈ elems gs₁ := mem_elems.mpr ⟨g', hg', hy⟩
    exact List.disjoint_of_nodup_append hnd hmem (List.mem_append_left _ hyg)
  · have hmem : y ∈ elems gs₂ := mem_elems.mpr ⟨g', hg', hy⟩
    exact List.disjoint_of_nodup_append (List.nodup_append.mp hnd).2.1 hyg hmem

theorem rest_notMem (hnd : (elems gs).Nodup) (hg : g ∈ gs) (hy : y ∈ g.2) :
    y ∉ gs.map Prod.fst := by
  intro h
  obtain ⟨g', hg', rfl⟩ := List.mem_map.mp h
  have := group_unique hnd hg' hg List.mem_cons_self (List.mem_cons_of_mem _ hy)
  subst this
  exact (List.nodup_cons.mp (group_nodup hnd hg)).1 hy

/-- A group that stays as it is. -/
theorem Filed.congr (F : q.Filed g)
    (hring : ∀ y ∈ g.toList, q'.sNext y = q.sNext y ∧ q'.sPrev y = q.sPrev y ∧ q'.prio y = q.prio y)
    (hrest : ∀ y ∈ g.2, q'.pNext y = q.pNext y ∧ q'.pPrevNext y = q.pPrevNext y) : q'.Filed g := by
  refine ⟨F.ring.congr (fun y hy => (hring y hy).1) fun y hy => (hring y hy).2.1, fun y hy => ?_,
    fun y hy => ?_⟩
  · rw [(hrest y hy).1, (hrest y hy).2]
    exact F.rest y hy
  · rw [(hring y (List.mem_cons_of_mem _ hy)).2.2, (hring g.1 List.mem_cons_self).2.2]
    exact F.prio y hy

theorem Filed.prio_eq (F : q.Filed g) (hy : y ∈ g.toList) : q.prio y = q.prio g.1 := by
  obtain rfl | hy := List.mem_cons.mp hy
  · rfl
  · exact F.prio y hy

/-- The elements of the list are marked as queued. -/
theorem Built.queued (B : q.Built gs) (hy : y ∈ elems gs) : q.sNext y ≠ none := by
  obtain ⟨g, hg, hy⟩ := mem_elems.mp hy
  obtain ⟨l₁, l₂, h⟩ := List.append_of_mem hy
  have hring := (B.filed g hg).ring
  rw [h] at hring
  rw [hring.next_eq]
  simp

/-! ## Insertion -/

variable [DecidableEq α]

/-- Everything is as before, except at the element that is not in the list. -/
theorem Built.init (B : q.Built gs) (he : e ∉ elems gs) : (q.init e p).Built gs := by
  have hne : ∀ y ∈ elems gs, y ≠ e := fun y hy h => he (h ▸ hy)
  refine ⟨⟨B.spine.list.congr rfl (fun y hy => ?_) fun y hy => ?_, B.spine.nodup, fun y hy => ?_⟩,
    fun g hg => (B.filed g hg).congr (fun y hy => ?_) fun y hy => ?_, ?_, B.nodup⟩
  · simp [PrioList.spine, PrioList.init, hne y (firsts_subset hy)]
  · simp [PrioList.spine, PrioList.init, hne y (firsts_subset hy)]
  · simpa [PrioList.init, hne y (firsts_subset hy)] using B.spine.first y hy
  · simp [PrioList.init, hne y (mem_elems.mpr ⟨g, hg, hy⟩)]
  · simp [PrioList.init, hne y (mem_elems.mpr ⟨g, hg, List.mem_cons_of_mem _ hy⟩)]
  · refine B.sorted.imp_of_mem fun {a b} ha hb h => ?_
    simpa [PrioList.init, hne a (firsts_subset ha), hne b (firsts_subset hb)] using h

omit [DecidableEq α] in
/-- The place where an element of the priority `p` belongs. -/
theorem findPos_returns {s : PrioSlot α} (H : q.spine.Chain s (gs.map Prod.fst))
    (hs : q.read s = (gs.map Prod.fst).head?) :
    ∃ gs₁ gs₂, gs = gs₁ ++ gs₂ ∧
      Returns (fun fuel => q.findPos p fuel s) (slotBehind s (gs₁.map Prod.fst)) ∧
      (∀ g ∈ gs₁, p < q.prio g.1) ∧ ∀ g ∈ gs₂.head?, q.prio g.1 ≤ p := by
  induction gs generalizing s with
  | nil =>
    have hread : q.read s = none := hs
    refine ⟨[], [], rfl, Returns.round (Returns.const s) fun n => ?_, nofun, nofun⟩
    simp [findPos, hread]
  | cons g gs ih =>
    have hread : q.read s = some g.1 := hs
    by_cases hp : p < q.prio g.1
    · obtain ⟨gs₁, gs₂, rfl, hpos, hhigh, hlow⟩ := ih H.2.2 H.2.1
      refine ⟨g :: gs₁, gs₂, rfl, hpos.round fun n => ?_, ?_, hlow⟩
      · simp [findPos, hread, hp]
      · rintro g' (_ | ⟨_, hg'⟩)
        · exact hp
        · exact hhigh g' hg'
    · refine ⟨[], g :: gs, rfl, Returns.round (Returns.const s) fun n => ?_, nofun, ?_⟩
      · simp [findPos, hread, hp]
      · rintro g' ⟨⟩
        exact Nat.le_of_not_lt hp

/-- `init` has prepared the element `e`. -/
structure Fresh (q : PrioList α) (e : α) (p : Nat) : Prop where
  sNext : q.sNext e = some e
  sPrev : q.sPrev e = some e
  pNext : q.pNext e = none
  pPrevNext : q.pPrevNext e = none
  prio : q.prio e = p

theorem init_fresh : (q.init e p).Fresh e p := by
  constructor <;> simp [PrioList.init]

/-- The element is put at the end of the ring of its priority. -/
theorem Filed.insert (F : q.Filed (x, m)) (hnd : (x :: m).Nodup) (he : e ∉ x :: m)
    (hf : q.Fresh e (q.prio x)) : (q.sInsert e x).Filed (x, m ++ [e]) := by
  have hring := F.ring.push_write hnd rfl he
  refine ⟨?_, fun y hy => ?_, fun y hy => ?_⟩
  · simpa [sInsert, setSNext, setSPrev, writeAt, Group.toList] using hring
  · obtain hy | hy := List.mem_append.mp hy
    · exact F.rest y hy
    · rw [List.mem_singleton.mp hy]
      exact ⟨hf.pNext, hf.pPrevNext⟩
  · obtain hy | hy := List.mem_append.mp hy
    · exact F.prio y hy
    · rw [List.mem_singleton.mp hy]
      exact hf.prio

theorem sInsert_frame (F : q.Filed (x, m)) (hy : y ∉ x :: m) (hye : y ≠ e) :
    (q.sInsert e x).sNext y = q.sNext y ∧ (q.sInsert e x).sPrev y = q.sPrev y := by
  have hyx : y ≠ x := fun h => hy (h ▸ List.mem_cons_self)
  have hprev : q.sPrev x ≠ some y := fun h => hy (F.ring.prev_mem List.mem_cons_self h)
  constructor
  · simp [sInsert, setSNext, setSPrev, writeAt_apply, hprev, hye.symm]
  · simp [sInsert, setSNext, setSPrev, hyx, hye]

/-- The priority of the new element has a ring. -/
theorem Built.insert_ring (B : q.Built (gs₁ ++ (x, m) :: gs₂)) (he : e ∉ elems (gs₁ ++ (x, m) :: gs₂))
    (hf : q.Fresh e (q.prio x)) : (q.sInsert e x).Built (gs₁ ++ (x, m ++ [e]) :: gs₂) := by
  have hx : (x, m) ∈ gs₁ ++ (x, m) :: gs₂ := List.mem_append_right _ List.mem_cons_self
  have hem : e ∉ x :: m := fun h => he (mem_elems.mpr ⟨_, hx, h⟩)
  have hfirsts : (gs₁ ++ (x, m ++ [e]) :: gs₂).map Prod.fst =
      (gs₁ ++ (x, m) :: gs₂).map Prod.fst := by
    simp
  refine ⟨hfirsts ▸ ⟨B.spine.list, B.spine.nodup, B.spine.first⟩, fun g hg => ?_,
    hfirsts ▸ B.sorted, ?_⟩
  · have hcase : g = (x, m ++ [e]) ∨ g ∈ gs₁ ++ gs₂ := by
      simp only [List.mem_append, List.mem_cons] at hg ⊢
      tauto
    obtain rfl | hg := hcase
    · exact (B.filed _ hx).insert (group_nodup B.nodup hx) hem hf
    · have hg' : g ∈ gs₁ ++ (x, m) :: gs₂ := by
        simp only [List.mem_append, List.mem_cons] at hg ⊢
        exact hg.imp_right .inr
      refine (B.filed g hg').congr (fun y hy => ?_) fun y _ => ⟨rfl, rfl⟩
      have hye : y ≠ e := fun h => he (mem_elems.mpr ⟨g, hg', h ▸ hy⟩)
      obtain ⟨hn, hp⟩ := sInsert_frame (B.filed _ hx) (group_other B.nodup hg hy) hye
      exact ⟨hn, hp, rfl⟩
  · have hperm : (elems (gs₁ ++ (x, m ++ [e]) :: gs₂)).Perm (e :: elems (gs₁ ++ (x, m) :: gs₂)) := by
      have hl : elems (gs₁ ++ (x, m ++ [e]) :: gs₂) = (elems gs₁ ++ x :: m) ++ e :: elems gs₂ := by
        simp [Group.toList]
      have hr : elems (gs₁ ++ (x, m) :: gs₂) = (elems gs₁ ++ x :: m) ++ elems gs₂ := by
        simp [Group.toList]
      rw [hl, hr]
      exact List.perm_middle
    exact hperm.nodup_iff.mpr (List.nodup_cons.mpr ⟨he, B.nodup⟩)

/-- The new element is the first one of its priority. -/
theorem Built.insert_group (B : q.Built (gs₁ ++ gs₂)) (he : e ∉ elems (gs₁ ++ gs₂)) (hf : q.Fresh e p)
    (hhigh : ∀ g ∈ gs₁, p < q.prio g.1) (hlow : ∀ g ∈ gs₂, q.prio g.1 < p) :
    ∃ q', q.pInsert e (slotBehind (.head ()) (gs₁.map Prod.fst)) = q' ∧
      q'.Built (gs₁ ++ (e, []) :: gs₂) ∧ q'.sNext = q.sNext ∧ q'.prio = q.prio := by
  have S := B.spine
  rw [List.map_append] at S
  have hefirst : e ∉ gs₁.map Prod.fst ++ gs₂.map Prod.fst := by
    rw [← List.map_append]
    exact fun h => he (firsts_subset h)
  obtain ⟨S', F⟩ := S.insert hefirst
  have hfirsts : (gs₁ ++ (e, []) :: gs₂).map Prod.fst = gs₁.map Prod.fst ++ e :: gs₂.map Prod.fst := by
    simp
  refine ⟨_, rfl, ⟨hfirsts ▸ S', fun g hg => ?_, ?_, ?_⟩, F.sNext, F.prio⟩
  · have hcase : g = (e, []) ∨ g ∈ gs₁ ++ gs₂ := by
      simp only [List.mem_append, List.mem_cons] at hg ⊢
      tauto
    obtain rfl | hg := hcase
    · refine ⟨⟨?_, ?_, trivial⟩, nofun, nofun⟩
      · rw [F.sPrev]
        exact hf.sPrev
      · rw [F.sNext]
        exact hf.sNext
    · refine (B.filed g hg).congr (fun y hy => ?_) fun y hy => F.links y ?_
      · exact ⟨congrFun F.sNext y, congrFun F.sPrev y, congrFun F.prio y⟩
      · have hye : y ≠ e := fun h => he (mem_elems.mpr ⟨g, hg, h ▸ List.mem_cons_of_mem _ hy⟩)
        have hfirst := rest_notMem B.nodup hg hy
        simp only [List.map_append, List.mem_append, List.mem_cons, not_or] at hfirst ⊢
        exact ⟨hfirst.1, hye, hfirst.2⟩
  · have hsorted := B.sorted
    rw [List.map_append] at hsorted
    obtain ⟨h1, h2, h3⟩ := List.pairwise_append.mp hsorted
    rw [hfirsts, F.prio]
    refine List.pairwise_append.mpr ⟨h1, List.pairwise_cons.mpr ⟨fun a ha => ?_, h2⟩, ?_⟩
    · obtain ⟨g, hg, rfl⟩ := List.mem_map.mp ha
      rw [hf.prio]
      exact hlow g hg
    · rintro a ha b (_ | ⟨_, hb⟩)
      · obtain ⟨g, hg, rfl⟩ := List.mem_map.mp ha
        rw [hf.prio]
        exact hhigh g hg
      · exact h3 a ha b hb
  · have helems : elems (gs₁ ++ (e, []) :: gs₂) = elems gs₁ ++ e :: elems gs₂ := by
      simp [Group.toList]
    rw [helems]
    exact List.nodup_middle.mpr (List.nodup_cons.mpr ⟨by simpa using he, by simpa using B.nodup⟩)

/-- The list before and after an insertion. -/
structure Inserted (q q' : PrioList α) (gs : List (Group α)) (e : α) (p : Nat)
    (gs' : List (Group α)) (l₁ l₂ : List α) : Prop where
  built : q'.Built gs'
  before : elems gs = l₁ ++ l₂
  after : elems gs' = l₁ ++ e :: l₂
  above : ∀ y ∈ l₁, p ≤ q.prio y
  below : ∀ y ∈ l₂, q.prio y < p
  prio : q'.prio = Function.update q.prio e p
  others : ∀ y ∉ elems gs', q'.sNext y = q.sNext y

theorem Built.insert (B : q.Built gs) (he : e ∉ elems gs) (p : Nat) :
    ∃ q' gs' l₁ l₂, Returns (fun fuel => q.insert fuel e p) q' ∧ Inserted q q' gs e p gs' l₁ l₂ := by
  have B' := B.init (p := p) he
  have hf := init_fresh (q := q) (e := e) (p := p)
  have hinit : ∀ y, y ≠ e → (q.init e p).sNext y = q.sNext y ∧ (q.init e p).prio y = q.prio y :=
    fun y hy => by simp [PrioList.init, hy]
  have hne : ∀ y ∈ elems gs, y ≠ e := fun y hy h => he (h ▸ hy)
  obtain ⟨gs₁, gs₂, rfl, hpos, hhigh, hlow⟩ := findPos_returns (p := p) B'.spine.list.2 B'.spine.list.1
  have hread := B'.spine.list
  rw [List.map_append] at hread
  have hread := hread.2.read_slotBehind hread.1
  rw [spine_read] at hread
  have hgroup : ∀ g ∈ gs₁ ++ gs₂, ∀ y ∈ g.toList, q.prio y = (q.init e p).prio g.1 := by
    intro g hg y hy
    rw [← (hinit y (hne y (mem_elems.mpr ⟨g, hg, hy⟩))).2]
    exact (B'.filed g hg).prio_eq hy
  have habove : ∀ y ∈ elems gs₁, p ≤ q.prio y := by
    intro y hy
    obtain ⟨g, hg, hyg⟩ := mem_elems.mp hy
    rw [hgroup g (List.mem_append_left _ hg) y hyg]
    exact (hhigh g hg).le
  have hreturns : Returns (fun fuel => q.insert fuel e p)
      ((q.init e p).place e p (slotBehind (.head ()) (gs₁.map Prod.fst))) :=
    hpos.bind (Returns.const _)
  rw [place, hread] at hreturns
  -- the elements behind the place have lower priorities, but for those of an equal one
  cases gs₂ with
  | nil =>
    obtain ⟨q', hq', B'', hn, hp⟩ := B'.insert_group he hf hhigh nofun
    rw [← hq'] at B'' hn hp
    refine ⟨_, _, elems gs₁, [], hreturns, B'', by simp, by simp [Group.toList], habove, nofun, hp,
      fun y hy => ?_⟩
    have hye : y ≠ e := fun h => hy (by simp [h, Group.toList])
    exact (congrFun hn y).trans (hinit y hye).1
  | cons g gs₂ =>
    obtain ⟨x, m⟩ := g
    have hx : (x, m) ∈ gs₁ ++ (x, m) :: gs₂ := List.mem_append_right _ List.mem_cons_self
    have hle : (q.init e p).prio x ≤ p := hlow _ rfl
    have hbelow : ∀ g ∈ gs₂, (q.init e p).prio g.1 < (q.init e p).prio x := by
      intro g hg
      have hsorted := B'.sorted
      rw [List.map_append] at hsorted
      exact (List.pairwise_cons.mp (List.pairwise_append.mp hsorted).2.1).1 g.1
        (List.mem_map_of_mem hg)
    rw [List.map_cons, List.head?_cons] at hreturns
    by_cases heq : (q.init e p).prio x = p
    · simp only [heq, if_true] at hreturns
      refine ⟨_, _, elems gs₁ ++ x :: m, elems gs₂, hreturns, B'.insert_ring he (heq.symm ▸ hf),
        by simp [Group.toList], by simp [Group.toList], fun y hy => ?_, fun y hy => ?_, rfl,
        fun y hy => ?_⟩
      · obtain hy | hy := List.mem_append.mp hy
        · exact habove y hy
        · rw [hgroup _ hx y hy, heq]
      · obtain ⟨g, hg, hyg⟩ := mem_elems.mp hy
        rw [hgroup g (by simp [hg]) y hyg]
        exact (hbelow g hg).trans_eq heq
      · have hye : y ≠ e := fun h => hy (by simp [h, Group.toList])
        have hym : y ∉ x :: m := fun h => hy (by
          simp only [elems_append, elems_cons, Group.toList, List.mem_append, List.mem_cons] at h ⊢
          tauto)
        exact (sInsert_frame (B'.filed _ hx) hym hye).1.trans (hinit y hye).1
    · simp only [heq, if_false] at hreturns
      have hlt : ∀ g ∈ (x, m) :: gs₂, (q.init e p).prio g.1 < p := by
        rintro g (_ | ⟨_, hg⟩)
        · exact Nat.lt_of_le_of_ne hle heq
        · exact (hbelow g hg).trans_le hle
      obtain ⟨q', hq', B'', hn, hp⟩ := B'.insert_group he hf hhigh hlt
      rw [← hq'] at B'' hn hp
      refine ⟨_, _, elems gs₁, elems ((x, m) :: gs₂), hreturns, B'', by simp,
        by simp [Group.toList], habove, fun y hy => ?_, hp, fun y hy => ?_⟩
      · obtain ⟨g, hg, hyg⟩ := mem_elems.mp hy
        rw [hgroup g (List.mem_append_right _ hg) y hyg]
        exact hlt g hg
      · have hye : y ≠ e := fun h => hy (by simp [h, Group.toList])
        exact (congrFun hn y).trans (hinit y hye).1

/-! ## Removal -/

/-- Only links of the elements `l` in their ring are written. -/
structure RingFrame (q q' : PrioList α) (l : List α) : Prop where
  head : q'.head = q.head
  pNext : q'.pNext = q.pNext
  pPrevNext : q'.pPrevNext = q.pPrevNext
  prio : q'.prio = q.prio
  links : ∀ y ∉ l, q'.sNext y = q.sNext y ∧ q'.sPrev y = q.sPrev y

omit [DecidableEq α] in
theorem Spine.congr (S : q.Spine l) (F : RingFrame q q' m) : q'.Spine l := by
  have hspine : q'.spine = q.spine := by
    simp only [spine, F.head, F.pNext, F.pPrevNext]
  exact ⟨hspine ▸ S.list, S.nodup, F.pPrevNext ▸ S.first⟩

/-- An element is taken out of its ring. -/
theorem sDequeue_spec (l₁ l₂ : List α) (h : IsRing q.sNext q.sPrev (l₁ ++ e :: l₂)) (hnd : (l₁ ++ e :: l₂).Nodup) :
    ∃ q', q.sDequeue e = some q' ∧ RingFrame q q' (l₁ ++ e :: l₂) ∧
      IsRing (q'.setSNext (some e) none).sNext q'.sPrev (l₁ ++ l₂) ∧
      (l₁ ++ l₂ ≠ [] → q'.sNext e = q.sNext e) := by
  obtain ⟨n, hn⟩ : ∃ n, q.sNext e = some n := by
    rw [← Option.ne_none_iff_exists', h.next_eq]
    simp
  obtain ⟨p, hp⟩ : ∃ p, q.sPrev e = some p := by
    rw [← Option.ne_none_iff_exists', h.prev_eq]
    simp
  have hreread : (q.setSPrev n (some p)).sPrev e = some p := by
    by_cases hne : e = n <;> simp [setSPrev, hne, hp]
  refine ⟨(q.setSPrev n (some p)).setSNext (some p) (some n), ?_, ⟨rfl, rfl, rfl, rfl, ?_⟩, ?_, ?_⟩
  · have hnext : (q.setSPrev n (some p)).sNext e = some n := hn
    simp [sDequeue, hn, hp, hreread, hnext]
  · intro y hy
    have hmem : e ∈ l₁ ++ e :: l₂ := List.mem_append_right _ List.mem_cons_self
    have hyn : y ≠ n := fun h' => hy (h' ▸ h.next_mem hmem hn)
    have hyp : y ≠ p := fun h' => hy (h' ▸ h.prev_mem hmem hp)
    simp [setSPrev, setSNext, writeAt, hyn, hyp]
  · have hring := h.remove_write hnd (v := none)
    rw [hn, hp] at hring
    exact hring
  · intro hne
    have hpe : p ≠ e := by
      intro hpe
      rw [hpe, h.prev_eq] at hp
      have hmem : e ∈ l₂ ++ l₁ := by
        have hne' : l₂ ++ l₁ ≠ [] := fun h' => hne (by simpa [and_comm] using h')
        rw [List.getLast?_cons_of_ne_nil hne'] at hp
        exact List.mem_of_getLast? hp
      have hnot := (List.nodup_cons.mp (List.nodup_middle.mp hnd)).1
      exact hnot (List.mem_append.mpr (List.mem_append.mp hmem).symm)
    simp [setSPrev, setSNext, writeAt, hpe.symm]

/-- The list before and after a removal. -/
structure Removed (q q' : PrioList α) (gs : List (Group α)) (e : α) (gs' : List (Group α))
    (l₁ l₂ : List α) : Prop where
  built : q'.Built gs'
  before : elems gs = l₁ ++ e :: l₂
  after : elems gs' = l₁ ++ l₂
  prio : q'.prio = q.prio
  gone : q'.sNext e = none
  others : ∀ y ∉ elems gs, q'.sNext y = q.sNext y

/-- What remains of the group `g` of `e` are the groups `new`. -/
theorem Built.remove {new : List (Group α)} (B : q.Built (gs₁ ++ g :: gs₂))
    (l₁ l₂ : List α) (hg : g.toList = l₁ ++ e :: l₂) (hnew : elems new = l₁ ++ l₂)
    (S : q'.Spine ((gs₁ ++ (new ++ gs₂)).map Prod.fst)) (hprio : q'.prio = q.prio)
    (hring : ∀ y ∉ g.toList, q'.sNext y = q.sNext y ∧ q'.sPrev y = q.sPrev y)
    (hlinks : ∀ y ∉ (gs₁ ++ g :: gs₂).map Prod.fst, y ∉ g.toList →
      q'.pNext y = q.pNext y ∧ q'.pPrevNext y = q.pPrevNext y)
    (hfiled : ∀ g ∈ new, (q'.setSNext (some e) none).Filed g)
    (hsub : (new.map fun g => q.prio g.1).Sublist [q.prio g.1]) :
    Removed q (q'.setSNext (some e) none) (gs₁ ++ g :: gs₂) e (gs₁ ++ (new ++ gs₂))
      (elems gs₁ ++ l₁) (l₂ ++ elems gs₂) := by
  have heg : e ∈ g.toList := hg ▸ List.mem_append_right _ List.mem_cons_self
  have hbefore : elems (gs₁ ++ g :: gs₂) = (elems gs₁ ++ l₁) ++ e :: (l₂ ++ elems gs₂) := by
    simp [hg]
  have hafter : elems (gs₁ ++ (new ++ gs₂)) = (elems gs₁ ++ l₁) ++ (l₂ ++ elems gs₂) := by
    simp [hnew]
  have hother : ∀ y, y ≠ e → (q'.setSNext (some e) none).sNext y = q'.sNext y :=
    fun y hy => by simp [setSNext, writeAt, hy]
  refine ⟨⟨⟨S.list, S.nodup, S.first⟩, fun g' hg' => ?_, ?_, ?_⟩, hbefore, hafter, hprio, ?_, fun y hy => ?_⟩
  · have hcase : g' ∈ new ∨ g' ∈ gs₁ ++ gs₂ := by
      simp only [List.mem_append] at hg' ⊢
      tauto
    obtain hg' | hg' := hcase
    · exact hfiled g' hg'
    · have hmem : g' ∈ gs₁ ++ g :: gs₂ := by
        simp only [List.mem_append, List.mem_cons] at hg' ⊢
        exact hg'.imp_right .inr
      refine (B.filed g' hmem).congr (fun y hy => ?_) fun y hy => ?_
      · have hyg := group_other B.nodup hg' hy
        have hye : y ≠ e := fun h => hyg (h ▸ heg)
        exact ⟨(hother y hye).trans (hring y hyg).1, (hring y hyg).2, congrFun hprio y⟩
      · exact hlinks y (rest_notMem B.nodup hmem hy)
          (group_other B.nodup hg' (List.mem_cons_of_mem _ hy))
  · have hsorted := List.pairwise_map.mp B.sorted
    refine List.pairwise_map.mpr ?_
    have hmap : ((gs₁ ++ (new ++ gs₂)).map fun g => q.prio g.1).Sublist
        ((gs₁ ++ g :: gs₂).map fun g => q.prio g.1) := by
      simp only [List.map_append, List.map_cons]
      exact (List.Sublist.refl _).append (hsub.append (List.Sublist.refl _))
    have hsorted' : ((gs₁ ++ g :: gs₂).map fun g => q.prio g.1).Pairwise (· > ·) :=
      List.pairwise_map.mpr hsorted
    have hpw := List.pairwise_map.mp (hsorted'.sublist hmap)
    exact hpw.imp fun {a b} h => by simpa [setSNext, hprio] using h
  · rw [hafter]
    exact (List.nodup_cons.mp (List.nodup_middle.mp (hbefore ▸ B.nodup))).2
  · simp [setSNext]
  · have hyg : y ∉ g.toList := fun h => hy (mem_elems.mpr ⟨g, by simp, h⟩)
    exact (hother y fun h => hyg (h ▸ heg)).trans (hring y hyg).1

theorem Built.dequeue (B : q.Built gs) (he : e ∈ elems gs) :
    ∃ q' gs' l₁ l₂, q.dequeue e = some q' ∧ Removed q q' gs e gs' l₁ l₂ := by
  obtain ⟨g, hg, heg⟩ := mem_elems.mp he
  obtain ⟨gs₁, gs₂, rfl⟩ := List.append_of_mem hg
  obtain ⟨x, m⟩ := g
  have F := B.filed _ hg
  have hnd := group_nodup B.nodup hg
  have S := B.spine
  rw [List.map_append, List.map_cons] at S
  obtain rfl | hem := List.mem_cons.mp heg
  · -- the first element of its priority
    have hhead : q.isHead e = true := by
      simp [isHead, S.pPrevNext_eq]
    have hnext : q.sNext e = (m ++ [e]).head? := F.ring.next_first
    cases m with
    | nil =>
      have hsib : q.hasSibling e = false := by
        simpa [hasSibling] using hnext
      obtain ⟨q₁, hq₁, S₁, F₁⟩ := S.dequeue
      refine ⟨_, gs₁ ++ ([] ++ gs₂), _, _, ?_, B.remove [] [] rfl rfl ?_ F₁.prio ?_ ?_ nofun
        (List.nil_sublist _)⟩
      · simp only [PrioList.dequeue, hhead, hsib, hq₁]
        rfl
      · simpa using S₁
      · exact fun y _ => ⟨congrFun F₁.sNext y, congrFun F₁.sPrev y⟩
      · intro y hy _
        refine F₁.links y fun h => hy ?_
        simp only [List.map_append, List.map_cons, List.mem_append, List.mem_cons] at h ⊢
        exact h.imp_right .inr
    | cons y m =>
      -- the next element of the ring takes its place
      have hye : y ≠ e := fun h => (List.nodup_cons.mp hnd).1 (h ▸ List.mem_cons_self)
      have hsib : q.hasSibling e = true := by
        have hnext' : q.sNext e = some y := hnext
        simp [hasSibling, hnext', hye]
      obtain ⟨q₁, hq₁, F₁, hring, hkept⟩ := sDequeue_spec [] (y :: m) F.ring hnd
      have hq₁ : q.sDequeue e = some q₁ := hq₁
      have hq₁next : q₁.sNext e = some y := (hkept (List.cons_ne_nil y m)).trans hnext
      have hyfirst := rest_notMem B.nodup hg (List.mem_cons_self (a := y))
      rw [List.map_append, List.map_cons] at hyfirst
      obtain ⟨q₂, hq₂, S₂, F₂⟩ := (S.congr F₁).replace hyfirst
      have hq₂ : q₁.replaceWith e y = some q₂ := hq₂
      refine ⟨_, gs₁ ++ ([(y, m)] ++ gs₂), _, _, ?_, B.remove [] (y :: m) rfl
        (by simp [Group.toList]) (by simpa using S₂) (F₂.prio.trans F₁.prio) ?_ ?_ ?_ ?_⟩
      · simp [PrioList.dequeue, hhead, hsib, hq₁, hq₁next, hq₂]
      · intro z hz
        exact ⟨(congrFun F₂.sNext z).trans (F₁.links z hz).1,
          (congrFun F₂.sPrev z).trans (F₁.links z hz).2⟩
      · intro z hz hzg
        have hzy : z ≠ y := fun h => hzg (h ▸ List.mem_cons_of_mem _ List.mem_cons_self)
        have hlinks := F₂.links z fun h => hz (by
          simp only [List.map_append, List.map_cons, List.mem_append, List.mem_cons] at h ⊢
          tauto)
        rw [hlinks.1, hlinks.2, F₁.pNext, F₁.pPrevNext]
        exact ⟨rfl, rfl⟩
      · intro g hg'
        rw [List.mem_singleton.mp hg']
        refine ⟨?_, fun z hz => ?_, fun z hz => ?_⟩
        · simpa [setSNext, F₂.sNext, F₂.sPrev, Group.toList] using hring
        · have hzm : z ∈ y :: m := List.mem_cons_of_mem _ hz
          have hzy : z ≠ y := fun h => (List.nodup_cons.mp (List.nodup_cons.mp hnd).2).1 (h ▸ hz)
          have hzfirst := rest_notMem B.nodup hg hzm
          have hlinks := F₂.links z fun h => hzfirst (by
            simp only [List.map_append, List.map_cons, List.mem_append, List.mem_cons] at h ⊢
            tauto)
          have hrest := F.rest z hzm
          simp only [setSNext]
          rw [hlinks.1, hlinks.2, F₁.pNext, F₁.pPrevNext]
          exact hrest
        · have hz' := F.prio z (List.mem_cons_of_mem _ hz)
          have hy' := F.prio y List.mem_cons_self
          simp only [setSNext]
          rw [F₂.prio, F₁.prio]
          exact hz'.trans hy'.symm
      · rw [List.map_singleton, F.prio y List.mem_cons_self]
  · -- an element behind the first one
    obtain ⟨m₁, m₂, rfl⟩ := List.append_of_mem hem
    have hrest := F.rest e hem
    have hhead : q.isHead e = false := by
      simp [isHead, hrest.1, hrest.2]
    obtain ⟨q₁, hq₁, F₁, hring, -⟩ := sDequeue_spec (x :: m₁) m₂ F.ring hnd
    have hsubset : ∀ z ∈ m₁ ++ m₂, z ∈ m₁ ++ e :: m₂ := by
      intro z hz
      simp only [List.mem_append, List.mem_cons] at hz ⊢
      exact hz.imp_right .inr
    refine ⟨_, gs₁ ++ ([(x, m₁ ++ m₂)] ++ gs₂), _, _, ?_, B.remove (x :: m₁) m₂ rfl
      (by simp [Group.toList]) ?_ F₁.prio F₁.links ?_ ?_ (List.Sublist.refl _)⟩
    · simp only [PrioList.dequeue, hhead, hq₁]
      rfl
    · simpa using S.congr F₁
    · exact fun z _ _ => ⟨congrFun F₁.pNext z, congrFun F₁.pPrevNext z⟩
    · intro g hg'
      rw [List.mem_singleton.mp hg']
      refine ⟨hring, fun z hz => ?_, fun z hz => ?_⟩
      · have hz' := F.rest z (hsubset z hz)
        simp only [setSNext]
        rw [F₁.pNext, F₁.pPrevNext]
        exact hz'
      · simp only [setSNext]
        rw [F₁.prio]
        exact F.prio z (hsubset z hz)

/-! ## The sequence a list denotes -/

/-- The elements `A`, in the order of their insertion, are in `l` in the order of their priorities;
those of one priority keep their order. -/
structure StableSorted (A l : List (α × Nat)) : Prop where
  sorted : l.Pairwise fun a b => b.2 ≤ a.2
  stable : ∀ p, l.filter (fun a => a.2 = p) = A.filter fun a => a.2 = p

/-- The elements of the list with their priorities. -/
def entries (q : PrioList α) (gs : List (Group α)) : List (α × Nat) :=
  (elems gs).map fun y => (y, q.prio y)

omit [DecidableEq α] in
theorem StableSorted.mem_iff {A l : List (α × Nat)} (h : StableSorted A l) {a : α × Nat} :
    a ∈ l ↔ a ∈ A := by
  have hfilter := h.stable a.2
  have hl : a ∈ l ↔ a ∈ l.filter fun b => b.2 = a.2 := by simp
  have hA : a ∈ A ↔ a ∈ A.filter fun b => b.2 = a.2 := by simp
  rw [hl, hA, hfilter]

omit [DecidableEq α] in
theorem StableSorted.insert {A l₁ l₂ : List (α × Nat)} {a : α × Nat} (h : StableSorted A (l₁ ++ l₂))
    (h₁ : ∀ b ∈ l₁, a.2 ≤ b.2) (h₂ : ∀ b ∈ l₂, b.2 < a.2) :
    StableSorted (A ++ [a]) (l₁ ++ a :: l₂) := by
  obtain ⟨hs₁, hs₂, hs⟩ := List.pairwise_append.mp h.sorted
  refine ⟨List.pairwise_append.mpr ⟨hs₁, List.pairwise_cons.mpr ⟨fun b hb => (h₂ b hb).le, hs₂⟩, ?_⟩,
    fun p => ?_⟩
  · rintro b hb c (_ | ⟨_, hc⟩)
    · exact h₁ b hb
    · exact hs b hb c hc
  · have hold := h.stable p
    rw [List.filter_append] at hold
    rw [List.filter_append, List.filter_append, List.filter_cons, ← hold]
    by_cases hp : a.2 = p
    · -- no element behind the new one has its priority
      have hnone : l₂.filter (fun b => b.2 = p) = [] := by
        refine List.filter_eq_nil_iff.mpr fun b hb h => ?_
        have := h₂ b hb
        simp only [decide_eq_true_eq] at h
        omega
      simp [hp, hnone]
    · simp [hp]

theorem StableSorted.remove {A l : List (α × Nat)} (h : StableSorted A l) (e : α) :
    StableSorted (A.filter fun a => a.1 ≠ e) (l.filter fun a => a.1 ≠ e) := by
  refine ⟨h.sorted.filter _, fun p => ?_⟩
  rw [List.filter_comm, h.stable p]
  exact List.filter_comm _ _ _

omit [DecidableEq α] in
/-- A list is known by the pointers. -/
theorem Built.unique {gs' : List (Group α)} (B : q.Built gs) (B' : q.Built gs') : gs = gs' := by
  have hgroup : ∀ g ∈ gs, ∀ g' ∈ gs', g.1 = g'.1 → g = g' := by
    rintro ⟨x, m⟩ hg ⟨y, m'⟩ hg' rfl
    have hm : m = m' := (B.filed _ hg).ring.unique (B'.filed _ hg').ring (group_nodup B.nodup hg)
      (group_nodup B'.nodup hg')
    rw [hm]
  have hfirsts := B.spine.list.unique B'.spine.list
  clear B B'
  induction gs generalizing gs' with
  | nil => exact (List.map_eq_nil_iff.mp hfirsts.symm).symm
  | cons g gs ih =>
    cases gs' with
    | nil => cases hfirsts
    | cons g' gs' =>
      obtain ⟨hfirst, hrest⟩ := List.cons.inj hfirsts
      rw [hgroup g List.mem_cons_self g' List.mem_cons_self hfirst,
        ih (fun a ha b hb => hgroup a (List.mem_cons_of_mem _ ha) b (List.mem_cons_of_mem _ hb)) hrest]

omit [DecidableEq α] in
theorem Built.denotes_iff (B : q.Built gs) {l : List (α × Nat)} : q.Denotes l ↔ l = q.entries gs := by
  constructor
  · rintro ⟨gs', B', rfl⟩
    rw [B.unique B', entries]
  · rintro rfl
    exact ⟨gs, B, rfl⟩

omit [DecidableEq α] in
theorem Built.head_eq (B : q.Built gs) : q.head = (q.entries gs).head?.map Prod.fst := by
  refine B.spine.list.1.trans ?_
  cases gs with
  | nil => rfl
  | cons g gs => rfl

/-! ## Runs -/

/-- Calls of `insert` for elements that are not queued and of `dequeue` for elements that are, from an
empty list on. The queued elements with their priorities are known, in the order of insertion. -/
inductive Run : PrioList α → List (α × Nat) → Prop
  | init {q : PrioList α} (hhead : q.head = none) (hq : ∀ e, q.sNext e = none) : Run q []
  | insert {q q' : PrioList α} {A : List (α × Nat)} {e : α} {p : Nat} (h : Run q A)
      (he : e ∉ A.map Prod.fst) (hrun : Returns (fun fuel => q.insert fuel e p) q') :
      Run q' (A ++ [(e, p)])
  | dequeue {q q' : PrioList α} {A : List (α × Nat)} {e : α} (h : Run q A) (he : e ∈ A.map Prod.fst)
      (hrun : q.dequeue e = some q') : Run q' (A.filter fun a => a.1 ≠ e)

/-- The list `q` is a queue of the elements `A`. -/
structure Inv (q : PrioList α) (A : List (α × Nat)) (gs : List (Group α)) : Prop where
  built : q.Built gs
  stable : StableSorted A (q.entries gs)
  idle : ∀ y ∉ elems gs, q.sNext y = none

omit [DecidableEq α] in
theorem entries_congr {l : List α} (h : ∀ y ∈ l, q'.prio y = q.prio y) :
    (l.map fun y => (y, q'.prio y)) = l.map fun y => (y, q.prio y) :=
  List.map_congr_left fun y hy => by rw [h y hy]

omit [DecidableEq α] in
theorem Inv.mem_iff {A : List (α × Nat)} (I : q.Inv A gs) : e ∈ A.map Prod.fst ↔ e ∈ elems gs := by
  have hmap : elems gs = (q.entries gs).map Prod.fst := by simp [entries, Function.comp_def]
  rw [hmap, List.mem_map, List.mem_map]
  exact exists_congr fun a => and_congr_left fun _ => I.stable.mem_iff.symm

/-- What an insertion does to the queue. -/
theorem Inv.insert {A : List (α × Nat)} (I : q.Inv A gs) (he : e ∉ elems gs) (p : Nat) :
    ∃ q' gs', Returns (fun fuel => q.insert fuel e p) q' ∧ q'.Inv (A ++ [(e, p)]) gs' := by
  obtain ⟨q', gs', l₁, l₂, hrun, hins⟩ := I.built.insert he p
  refine ⟨q', gs', hrun, hins.built, ?_, fun y hy => ?_⟩
  · have hne : ∀ y ∈ l₁ ++ l₂, q'.prio y = q.prio y := by
      intro y hy
      have hye : y ≠ e := fun h => he (hins.before ▸ h ▸ hy)
      rw [hins.prio, Function.update_of_ne hye]
    have hstable := I.stable
    rw [entries, hins.before, List.map_append] at hstable
    have hprio : q'.prio e = p := by
      rw [hins.prio, Function.update_self]
    rw [entries, hins.after, List.map_append, List.map_cons, hprio,
      entries_congr fun y hy => hne y (List.mem_append_left _ hy),
      entries_congr fun y hy => hne y (List.mem_append_right _ hy)]
    refine hstable.insert ?_ ?_
    · intro b hb
      obtain ⟨y, hy, rfl⟩ := List.mem_map.mp hb
      exact hins.above y hy
    · intro b hb
      obtain ⟨y, hy, rfl⟩ := List.mem_map.mp hb
      exact hins.below y hy
  · rw [hins.others y hy]
    refine I.idle y fun h => hy ?_
    rw [hins.before] at h
    rw [hins.after]
    simp only [List.mem_append, List.mem_cons] at h ⊢
    exact h.imp_right .inr

/-- What a removal does to the queue. -/
theorem Inv.dequeue {A : List (α × Nat)} (I : q.Inv A gs) (he : e ∈ elems gs) :
    ∃ q' gs', q.dequeue e = some q' ∧ q'.Inv (A.filter fun a => a.1 ≠ e) gs' ∧
      q'.entries gs' = (q.entries gs).filter fun a => a.1 ≠ e := by
  obtain ⟨q', gs', l₁, l₂, hrun, hrem⟩ := I.built.dequeue he
  have hnd := I.built.nodup
  rw [hrem.before] at hnd
  have hnot := (List.nodup_cons.mp (List.nodup_middle.mp hnd)).1
  have hentries : q'.entries gs' = (q.entries gs).filter fun a => a.1 ≠ e := by
    have hkeep : ∀ l : List α, e ∉ l → ((l.map fun y => (y, q.prio y)).filter fun a => a.1 ≠ e) =
        l.map fun y => (y, q.prio y) := by
      intro l hl
      refine List.filter_eq_self.mpr fun a ha => ?_
      obtain ⟨y, hy, rfl⟩ := List.mem_map.mp ha
      have hye : y ≠ e := fun h => hl (h ▸ hy)
      simpa using hye
    have h₁ := hkeep l₁ fun h => hnot (List.mem_append_left _ h)
    have h₂ := hkeep l₂ fun h => hnot (List.mem_append_right _ h)
    rw [entries, entries, hrem.before, hrem.after, hrem.prio, List.map_append, List.map_append,
      List.map_cons, List.filter_append, List.filter_cons, h₁, h₂]
    simp
  refine ⟨q', gs', hrun, ⟨hrem.built, hentries ▸ I.stable.remove e, fun y hy => ?_⟩, hentries⟩
  by_cases hye : y = e
  · rw [hye]
    exact hrem.gone
  · have hy' : y ∉ elems gs := by
      rw [hrem.after] at hy
      rw [hrem.before]
      simp only [List.mem_append, List.mem_cons, not_or] at hy ⊢
      exact ⟨hy.1, hye, hy.2⟩
    exact (hrem.others y hy').trans (I.idle y hy')

theorem Run.inv {A : List (α × Nat)} (h : Run q A) : ∃ gs, q.Inv A gs := by
  induction h with
  | init hhead hq =>
    refine ⟨[], ⟨⟨⟨hhead, trivial⟩, .nil, nofun⟩, nofun, .nil, .nil⟩, ⟨.nil, fun _ => rfl⟩, ?_⟩
    exact fun y _ => hq y
  | insert h he hrun ih =>
    obtain ⟨gs, I⟩ := ih
    obtain ⟨q', gs', hret, I'⟩ := I.insert (mt I.mem_iff.mpr he) _
    exact ⟨gs', hret.unique hrun ▸ I'⟩
  | dequeue h he hrun ih =>
    obtain ⟨gs, I⟩ := ih
    obtain ⟨q', gs', hret, I', -⟩ := I.dequeue (I.mem_iff.mp he)
    cases hret.symm.trans hrun
    exact ⟨gs', I'⟩

/-- An empty list, and elements that were never queued. -/
def unused : PrioList Nat where
  head := none
  pNext _ := none
  pPrevNext _ := none
  sNext _ := none
  sPrev _ := none
  prio _ := 0

end PrioList

end L4env.Fiasco
