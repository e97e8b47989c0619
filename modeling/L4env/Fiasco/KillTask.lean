import L4env.Util.Ring
import L4env.Fiasco.TaskTree

/-!
# Killing the threads of a task

`View chief s l` ties a kernel state to the list `l` of its threads and to the chiefs of their
tasks. Under it each operation of the present list is an edit of `l`. `Visits top s thread0 vs s'`
describes the rest of a run of `kill_task`, from the point where the iterator looks for the next
thread: its rules are the four ways through `kill_iter::advance_to_next`, and every derivation is a
terminating run of the loop. The threads of a forest are then visited by induction over the forest.
-/

namespace L4env.Fiasco

/-- The present list of `s` is the ring `l`. -/
structure PresentList (s : Kernel) (l : List ThreadId) : Prop where
  ring : IsRing s.presentNext s.presentPrev l
  nodup : l.Nodup
  present : ∀ t, s.inPresentList t = true ↔ t ∈ l

/-- `l` is the present list of `s`, and `chief` the chief of each task in it. -/
structure View (chief : TaskNum → TaskNum) (s : Kernel) (l : List ThreadId) : Prop
    extends PresentList s l where
  chiefs : ∀ t ∈ l, s.chiefIndex t = some (chief t.task)
  lives : ∀ i, s.lives i = true ↔ i ≠ Config.kernelTaskno ∧ lookupFirstThread i ∈ l
  kernel : s.spaces Config.kernelTaskno = .dead Config.kernelTaskno

variable {chief : TaskNum → TaskNum} {s s' s'' : Kernel} {l l₁ l₂ A B P vs : List ThreadId}
  {a t x top : ThreadId} {c i number : TaskNum}

namespace Kernel

theorem chiefIndex_congr (h : s'.spaces = s.spaces) : s'.chiefIndex t = s.chiefIndex t := by
  simp only [chiefIndex, h]

theorem lives_congr (h : s'.spaces = s.spaces) : s'.lives i = s.lives i := by
  simp only [lives, h]

theorem lives_iff : s.lives i = true ↔ ∃ c, s.spaces i = .space c := by
  simp only [lives]
  cases s.spaces i <;> simp

theorem del_spaces_self : (s.del number c).spaces number = .dead c := by
  simp [del, reparentChildren]

/-- `del` leaves the numbers of other chiefs as they are. -/
theorem del_spaces_of_dead (h : i ≠ number) {k : TaskNum} (hk : k ≠ number)
    (hi : s.spaces i = .dead k) : (s.del number c).spaces i = .dead k := by
  simp [del, reparentChildren, Function.update_of_ne h, hi, hk]

/-- `del` leaves the other spaces as they are. -/
theorem del_spaces_of_space (h : i ≠ number) {k : TaskNum} :
    (s.del number c).spaces i = .space k ↔ s.spaces i = .space k := by
  simp only [del, reparentChildren, Function.update_of_ne h]
  cases s.spaces i with
  | space k' => simp
  | dead k' => by_cases hk : k' = number <;> simp [hk]

theorem del_lives : (s.del number c).lives i = true ↔ s.lives i = true ∧ i ≠ number := by
  by_cases h : i = number
  · subst h
    simp [lives, del_spaces_self]
  · simp [lives_iff, del_spaces_of_space h, h]

theorem del_chiefIndex (h : t.task ≠ number) {k : TaskNum} (ht : s.chiefIndex t = some k) :
    (s.del number c).chiefIndex t = some k := by
  unfold chiefIndex at ht ⊢
  split at ht
  · rename_i h0
    rw [if_pos h0, ht]
  · rename_i h0
    rw [if_neg h0]
    cases hs : s.spaces t.task with
    | dead k' => simp [hs] at ht
    | space k' =>
      simp only [hs, Option.some.injEq] at ht
      rw [(del_spaces_of_space h).mpr hs, ht]

end Kernel

namespace PresentList

theorem inPresentList (h : PresentList s l) (ht : t ∈ l) : s.inPresentList t = true :=
  (h.present t).mpr ht

theorem congr (h : PresentList s l) (hn : s'.presentNext = s.presentNext)
    (hp : s'.presentPrev = s.presentPrev) : PresentList s' l where
  ring := by rw [hn, hp]; exact h.ring
  nodup := h.nodup
  present := fun t => by rw [Kernel.inPresentList, hn]; exact h.present t

theorem rotate (h : PresentList s (l₁ ++ l₂)) : PresentList s (l₂ ++ l₁) where
  ring := h.ring.rotate
  nodup := List.perm_append_comm.nodup_iff.mp h.nodup
  present := fun t => (h.present t).trans List.perm_append_comm.mem_iff

/-- `present_enqueue` puts a new thread behind its sibling. -/
theorem presentEnqueueAfter (h : PresentList s (l₁ ++ a :: l₂)) (ht : t ∉ l₁ ++ a :: l₂) :
    ∃ s', s.presentEnqueueAfter t a = some s' ∧ s'.spaces = s.spaces ∧
      PresentList s' (l₁ ++ a :: t :: l₂) := by
  have hnew : s.inPresentList t = false := by
    rw [Bool.eq_false_iff, ne_eq, h.present]
    exact ht
  have hin := h.inPresentList (t := a) (by simp)
  rw [Kernel.inPresentList, Option.isSome_iff_exists] at hin
  obtain ⟨n, hn⟩ := hin
  have hring := h.ring.insert_behind h.nodup ht
  rw [hn] at hring
  refine ⟨{ s with
    presentNext := Function.update (Function.update s.presentNext t (some n)) a (some t)
    presentPrev := Function.update (Function.update s.presentPrev t (some a)) n (some t) },
    by simp [Kernel.presentEnqueueAfter, hnew, hn], rfl, hring,
    ?_, fun y => ?_⟩
  · rw [List.append_cons] at *
    exact List.perm_middle.nodup_iff.mpr (List.nodup_cons.mpr ⟨ht, h.nodup⟩)
  have hy := h.present y
  simp only [Kernel.inPresentList, Function.update_apply, List.mem_append, List.mem_cons] at hy ⊢
  split
  · rename_i e
    simp [e]
  · split
    · rename_i e
      simp [e]
    · rename_i hya hyt
      rw [hy]
      simp [hya, hyt]

/-- `present_dequeue` takes a thread out. -/
theorem presentDequeue (h : PresentList s (l₁ ++ t :: l₂)) :
    ∃ s', s.presentDequeue t = some s' ∧ s'.spaces = s.spaces ∧ PresentList s' (l₁ ++ l₂) := by
  have hin := h.inPresentList (t := t) (by simp)
  rw [Kernel.inPresentList, Option.isSome_iff_exists] at hin
  obtain ⟨n, hn⟩ := hin
  obtain ⟨q, hq⟩ : ∃ q, s.presentPrev t = some q := by
    rw [h.ring.prev_eq, List.getLast?_cons]
    exact ⟨_, rfl⟩
  have hring := h.ring.remove_write h.nodup (v := none)
  rw [hn, hq] at hring
  refine ⟨{ s with
    presentNext := Function.update (Function.update s.presentNext q (some n)) t none
    presentPrev := Function.update s.presentPrev n (some q) },
    by simp [Kernel.presentDequeue, hn, hq], rfl, hring,
    h.nodup.sublist (List.Sublist.append_left (List.sublist_cons_self _ _) _), fun y => ?_⟩
  have ht : t ∉ l₁ ∧ t ∉ l₂ := by
    have hnd := h.nodup
    simp only [List.nodup_append, List.nodup_cons] at hnd
    exact ⟨fun hm => hnd.2.2 t hm t List.mem_cons_self rfl, hnd.2.1.1⟩
  have hy := h.present y
  simp only [Kernel.inPresentList, Function.update_apply, List.mem_append, List.mem_cons] at hy ⊢
  split
  · rename_i e
    simp [e, ht]
  · rename_i hyt
    split
    · -- the predecessor of `t` is another thread of the ring
      rename_i e
      subst e
      have hmem : y ∈ l₂ ++ l₁ := by
        have hlast : y ∈ t :: (l₂ ++ l₁) := List.mem_of_getLast? (h.ring.prev_eq.symm.trans hq)
        exact (List.mem_cons.mp hlast).resolve_left hyt
      simpa [or_comm] using List.mem_append.mp hmem
    · rw [hy]
      simp [hyt]

/-- The thread that is enqueued behind the predecessor of `a` stands in front of `a`. -/
theorem presentEnqueueBefore (h : PresentList s (l₁ ++ a :: l₂)) (hx : x ∉ l₁ ++ a :: l₂) :
    ∃ q s', s.presentPrev a = some q ∧ s.presentEnqueueAfter x q = some s' ∧ s'.spaces = s.spaces ∧
      PresentList s' (l₁ ++ x :: a :: l₂) := by
  have hp := h.ring.prev_eq
  rcases List.eq_nil_or_concat l₁ with rfl | ⟨l₀, q, rfl⟩
  · -- `a` is at the front, so that the new thread goes to the end of the list
    rcases List.eq_nil_or_concat (a :: l₂) with e | ⟨m, q, e⟩
    · cases e
    simp only [List.concat_eq_append, List.nil_append, List.append_nil] at *
    rw [e] at h hx hp
    rw [List.getLast?_concat] at hp
    obtain ⟨s', hs', hspaces, hlist⟩ := PresentList.presentEnqueueAfter h hx
    have hlist : PresentList s' ((a :: l₂) ++ [x]) := by
      rw [e]
      simpa using hlist
    exact ⟨q, s', hp, hs', hspaces, hlist.rotate⟩
  · simp only [List.concat_eq_append, List.append_assoc, List.singleton_append] at *
    rw [← List.append_assoc, ← List.cons_append, List.getLast?_concat] at hp
    obtain ⟨s', hs', hspaces, hlist⟩ := h.presentEnqueueAfter hx
    exact ⟨q, s', hp, hs', hspaces, hlist⟩

end PresentList

namespace View

open Kernel

theorem spaces_eq (h : View chief s l) (ht : t ∈ l) (hk : t.task ≠ Config.kernelTaskno) :
    s.spaces t.task = .space (chief t.task) := by
  have hc := h.chiefs t ht
  simp only [chiefIndex, if_neg hk] at hc
  cases hs : s.spaces t.task with
  | dead k => simp [hs] at hc
  | space k =>
    simp only [hs, Option.some.injEq] at hc
    rw [hc]

/-- `kill` takes the thread out of the present list, with its space if it is the first thread. -/
theorem kill (h : View chief s (l₁ ++ t :: l₂))
    (h0 : t.lthread = 0 → t.task ≠ Config.kernelTaskno ∧ ∀ y ∈ l₁ ++ l₂, y.task ≠ t.task) :
    ∃ s', s.kill t = some (true, s') ∧ View chief s' (l₁ ++ l₂) ∧
      (t.lthread = 0 → s'.spaces t.task = .dead (chief t.task)) := by
  have hin := h.inPresentList (t := t) (by simp)
  have hsub : ∀ y ∈ l₁ ++ l₂, y ∈ l₁ ++ t :: l₂ := by
    intro y hy
    simp only [List.mem_append, List.mem_cons] at hy ⊢
    tauto
  by_cases ht : t.lthread = 0
  · obtain ⟨hk, hothers⟩ := h0 ht
    have hlist : PresentList (s.del t.task (chief t.task)) (l₁ ++ t :: l₂) :=
      h.toPresentList.congr rfl rfl
    obtain ⟨s', hs', hspaces, hlist'⟩ := hlist.presentDequeue
    refine ⟨s', ?_, ⟨hlist', ?_, ?_, ?_⟩, fun _ => ?_⟩
    · simp [Kernel.kill, hin, ht, h.chiefs t (by simp), hs']
    · intro y hy
      rw [chiefIndex_congr hspaces]
      exact del_chiefIndex (hothers y hy) (h.chiefs y (hsub y hy))
    · intro i
      rw [lives_congr hspaces, del_lives, h.lives]
      constructor
      · rintro ⟨⟨hi, hmem⟩, hne⟩
        refine ⟨hi, ?_⟩
        have : lookupFirstThread i ≠ t := fun e => hne (by rw [← e, lookupFirstThread_task])
        simpa [this] using hmem
      · rintro ⟨hi, hmem⟩
        exact ⟨⟨hi, hsub _ hmem⟩, hothers _ hmem⟩
    · rw [hspaces]
      exact del_spaces_of_dead (Ne.symm hk) (Ne.symm hk) h.kernel
    · rw [hspaces, del_spaces_self]
  · obtain ⟨s', hs', hspaces, hlist'⟩ := h.toPresentList.presentDequeue
    refine ⟨s', ?_, ⟨hlist', ?_, ?_, hspaces ▸ h.kernel⟩, fun e => absurd e ht⟩
    · simp [Kernel.kill, hin, ht, hs']
    · intro y hy
      rw [chiefIndex_congr hspaces, h.chiefs y (hsub y hy)]
    · intro i
      have : lookupFirstThread i ≠ t := fun e => ht (by rw [← e, lookupFirstThread_lthread])
      rw [lives_congr hspaces, h.lives]
      simp [this]

/-! ## The neighbours of a thread -/

theorem nextSibling_some (h : View chief s (l₁ ++ a :: x :: l₂)) (hx : x.task = a.task) :
    s.nextSibling a = some (some x) := by
  have hn : s.presentNext a = some x := by simpa using h.ring.next_eq
  have hne : x ≠ a := by
    rintro rfl
    have := h.nodup
    simp [List.nodup_append] at this
  simp [nextSibling, hn, hne, hx]

theorem nextSibling_none (h : View chief s (l₁ ++ a :: l₂))
    (hx : ∀ x, (l₂ ++ l₁).head? = some x → x.task ≠ a.task) : s.nextSibling a = some none := by
  have hn := h.ring.next_eq
  cases hl : l₂ ++ l₁ with
  | nil =>
    rw [hl] at hn
    simp only [List.nil_append, List.head?_cons] at hn
    simp [nextSibling, hn]
  | cons y l =>
    rw [hl] at hn
    simp only [List.cons_append, List.head?_cons] at hn
    simp [nextSibling, hn, hx y (by rw [hl]; rfl)]

theorem nextChild_some (h : View chief s (l₁ ++ x :: a :: l₂)) (hx : chief x.task = a.task) :
    s.nextChild a = some (some x) := by
  have h' : View chief s ((l₁ ++ [x]) ++ a :: l₂) := by simpa using h
  have hp : s.presentPrev a = some x := by
    rw [h'.ring.prev_eq, ← List.append_assoc, ← List.cons_append, List.getLast?_concat]
  have hne : x ≠ a := by
    rintro rfl
    have := h.nodup
    simp [List.nodup_append] at this
  simp [nextChild, hp, hne, h.chiefs x (by simp), hx]

theorem nextChild_none (h : View chief s (l₁ ++ a :: l₂))
    (hx : ∀ x, (l₂ ++ l₁).getLast? = some x → chief x.task ≠ a.task) :
    s.nextChild a = some none := by
  have hp := h.ring.prev_eq
  cases hl : (l₂ ++ l₁).getLast? with
  | none =>
    rw [List.getLast?_cons, hl] at hp
    have hp : s.presentPrev a = some a := hp
    simp [nextChild, hp]
  | some y =>
    rw [List.getLast?_cons, hl] at hp
    have hp : s.presentPrev a = some y := hp
    have hmem : y ∈ l₁ ++ a :: l₂ := by
      have := List.mem_append.mp (List.mem_of_getLast? hl)
      simp only [List.mem_append, List.mem_cons]
      tauto
    by_cases hy : y = a
    · simp [nextChild, hp, hy]
    · simp [nextChild, hp, hy, h.chiefs y hmem, hx y hl]

end View

/-! ## The iteration -/

/-- The rest of a run of `kill_task` from where its iterator, with the task of `thread0` at hand,
looks for the next thread: the threads it visits and the state it ends in. -/
inductive Visits (top : ThreadId) : Kernel → ThreadId → List ThreadId → Kernel → Prop
  | sibling {s s₁ s' : Kernel} {thread0 x : ThreadId} {b : Bool} {vs : List ThreadId} :
    s.nextSibling thread0 = some (some x) → x ≠ top → s.kill x = some (b, s₁) →
    Visits top s₁ thread0 vs s' → Visits top s thread0 (x :: vs) s'
  | child {s s' : Kernel} {thread0 x : ThreadId} {vs : List ThreadId} :
    s.nextSibling thread0 = some none → s.nextChild thread0 = some (some x) →
    Visits top s x vs s' → Visits top s thread0 vs s'
  | up {s s₁ s' : Kernel} {thread0 : ThreadId} {b : Bool} {c : TaskNum} {vs : List ThreadId} :
    s.nextSibling thread0 = some none → s.nextChild thread0 = some none → thread0 ≠ top →
    s.chiefIndex thread0 = some c → s.kill thread0 = some (b, s₁) →
    Visits top s₁ (lookupFirstThread c) vs s' → Visits top s thread0 (thread0 :: vs) s'
  | top {s s' : Kernel} {b : Bool} :
    s.nextSibling top = some none → s.nextChild top = some none → s.kill top = some (b, s') →
    Visits top s top [top] s'

/-- Every derivation is a run of the loop, with enough fuel for both loops. -/
theorem Visits.killLoop_eq {thread0 : ThreadId} (h : Visits top s thread0 vs s') :
    ∃ N, ∀ n ≥ N, ∀ m ≥ N,
      (s.descend top n thread0).bind (Kernel.killLoop m s) = some (vs, s') := by
  induction h with
  | sibling hsib hx hk _ ih =>
    obtain ⟨N, ih⟩ := ih
    refine ⟨N + 1, fun n hn m hm => ?_⟩
    obtain ⟨n, rfl⟩ : ∃ k, n = k + 1 := ⟨n - 1, by omega⟩
    obtain ⟨m, rfl⟩ : ∃ k, m = k + 1 := ⟨m - 1, by omega⟩
    have hrest := ih m (by omega) m (by omega)
    rw [Option.bind_eq_some_iff] at hrest
    obtain ⟨it, hit, hloop⟩ := hrest
    simp [Kernel.descend, hsib, Kernel.killLoop, hk, Kernel.advanceToNext, hx, hit, hloop]
  | child hsib hchild _ ih =>
    obtain ⟨N, ih⟩ := ih
    refine ⟨N + 1, fun n hn m hm => ?_⟩
    obtain ⟨n, rfl⟩ : ∃ k, n = k + 1 := ⟨n - 1, by omega⟩
    simpa [Kernel.descend, hsib, hchild] using ih n (by omega) m (by omega)
  | up hsib hchild hne hc hk _ ih =>
    obtain ⟨N, ih⟩ := ih
    refine ⟨N + 1, fun n hn m hm => ?_⟩
    obtain ⟨n, rfl⟩ : ∃ k, n = k + 1 := ⟨n - 1, by omega⟩
    obtain ⟨m, rfl⟩ : ∃ k, m = k + 1 := ⟨m - 1, by omega⟩
    have hrest := ih m (by omega) m (by omega)
    rw [Option.bind_eq_some_iff] at hrest
    obtain ⟨it, hit, hloop⟩ := hrest
    simp [Kernel.descend, hsib, hchild, hne, hc, Kernel.killLoop, hk, Kernel.advanceToNext, hit,
      hloop]
  | top hsib hchild hk =>
    refine ⟨2, fun n hn m hm => ?_⟩
    obtain ⟨n, rfl⟩ : ∃ k, n = k + 1 := ⟨n - 1, by omega⟩
    obtain ⟨m, rfl⟩ : ∃ k, m = k + 2 := ⟨m - 2, by omega⟩
    simp [Kernel.descend, hsib, hchild, Kernel.killLoop, hk, Kernel.advanceToNext]

/-- The threads `vs` are visited on the way from `s` to `s'`, the task of `thread0` at hand. -/
def Leads (top : ThreadId) (s : Kernel) (thread0 : ThreadId) (vs : List ThreadId) (s' : Kernel) :
    Prop :=
  ∀ ws s'', Visits top s' thread0 ws s'' → Visits top s thread0 (vs ++ ws) s''

theorem Leads.refl : Leads top s t [] s := fun _ _ h => h

theorem Leads.trans {ws : List ThreadId} (h : Leads top s t vs s') (h' : Leads top s' t ws s'') :
    Leads top s t (vs ++ ws) s'' := by
  intro us r hr
  rw [List.append_assoc]
  exact h _ _ (h' _ _ hr)

/-- The other threads of the youngest subtask of `c` are taken for its first thread, one by one from
the last one on. Each has the chief `c`, so that the iterator is back at `c` after each. -/
theorem leads_others {u : TaskNum} {others : List ThreadId}
    (hv : View chief s (P ++ (lookupFirstThread u :: others ++ lookupFirstThread c :: B)))
    (ho : Forest.Others u others) (hu : chief u = c) (hne : u ≠ c)
    (hout : ∀ y ∈ B ++ P, y.task ≠ c) (htop : top.task ≠ u) :
    ∃ s', View chief s' (P ++ lookupFirstThread u :: lookupFirstThread c :: B) ∧
      Leads top s (lookupFirstThread c) others.reverse s' := by
  induction others using List.reverseRecOn generalizing s with
  | nil => exact ⟨s, hv, .refl⟩
  | append_singleton others x ih =>
    obtain ⟨hxu, hx0⟩ := ho x (by simp)
    have hv₁ : View chief s
        ((P ++ lookupFirstThread u :: others) ++ x :: lookupFirstThread c :: B) := by
      simpa using hv
    have hv₂ : View chief s
        ((P ++ lookupFirstThread u :: (others ++ [x])) ++ lookupFirstThread c :: B) := by
      simpa using hv
    have hsib : s.nextSibling (lookupFirstThread c) = some none := by
      refine hv₂.nextSibling_none fun y hy => ?_
      have hy := List.mem_of_mem_head? hy
      simp only [List.mem_append, List.mem_cons, List.not_mem_nil, or_false] at hy
      obtain hy | hy | rfl | hy | rfl := hy
      · exact hout y (by simp [hy])
      · exact hout y (by simp [hy])
      · exact hne
      · rw [(ho y (by simp [hy])).1]; exact hne
      · rw [hxu]; exact hne
    have hchild : s.nextChild (lookupFirstThread c) = some (some x) :=
      hv₁.nextChild_some (by rw [hxu, hu, lookupFirstThread_task])
    have hsib' : s.nextSibling x = some none := by
      refine hv₁.nextSibling_none fun y hy => ?_
      cases hy
      rw [hxu]
      exact hne.symm
    have hchild' : s.nextChild x = some none := by
      refine hv₁.nextChild_none fun y hy => ?_
      rw [← List.append_assoc, List.getLast?_append, List.getLast?_cons] at hy
      cases hy
      have hyu : ((others.getLast?).getD (lookupFirstThread u)).task = u := by
        cases hl : others.getLast? with
        | none => rfl
        | some z => exact (ho z (by simp [List.mem_of_getLast? hl])).1
      rw [hyu, hu, hxu]
      exact hne.symm
    have hxt : x ≠ top := fun e => htop (by rw [← e, hxu])
    obtain ⟨s₁, hk, hv', -⟩ := hv₁.kill fun e => absurd e hx0
    obtain ⟨s', hs', hleads⟩ := ih (s := s₁) (by simpa using hv') fun y hy => ho y (by simp [hy])
    refine ⟨s', hs', fun ws r hr => ?_⟩
    rw [List.reverse_append, List.append_assoc]
    refine .child hsib hchild (.up hsib' hchild' hxt ?_ hk (hleads ws r hr))
    rw [hv₁.chiefs x (by simp), hxu, hu]

/-- The threads in `l` are outside of the tasks `c :: us`, and so are their chiefs for `us`. -/
def Outside (chief : TaskNum → TaskNum) (c : TaskNum) (us : List TaskNum) (l : List ThreadId) :
    Prop :=
  ∀ y ∈ l, y.task ∉ c :: us ∧ chief y.task ∉ us

/-- All subtasks of `c` are visited, with their threads and their own subtasks, once the other
threads of `c` are gone. -/
theorem leads_forest {F : Forest} (top : ThreadId)
    (hv : View chief s (A ++ (F.flat ++ lookupFirstThread c :: B)))
    (hF : F.Under chief c) (hnd : (c :: F.tasks).Nodup) (hk : Config.kernelTaskno ∉ F.tasks)
    (hc : chief c ∉ F.tasks) (hout : Outside chief c F.tasks (A ++ B)) (htop : top.task ∉ F.tasks) :
    ∃ s', View chief s' (A ++ lookupFirstThread c :: B) ∧
      Leads top s (lookupFirstThread c) F.visits s' := by
  induction F generalizing c s A B with
  | nil => exact ⟨s, hv, .refl⟩
  | snoc older t subtasks others ih₁ ih₂ =>
    obtain ⟨hF₁, ht, hF₂, ho⟩ := hF
    simp only [Forest.tasks, List.nodup_cons, List.nodup_append, List.mem_append, List.mem_cons,
      not_or] at hnd hk hc htop
    obtain ⟨⟨hc₁, hct, hc₂⟩, hnd₁, ⟨ht₂, hnd₂⟩, hdisj⟩ := hnd
    have hout' : ∀ y ∈ A ++ B, (y.task ≠ c ∧ y.task ∉ older.tasks ∧ y.task ≠ t ∧
        y.task ∉ subtasks.tasks) ∧ chief y.task ∉ older.tasks ∧ chief y.task ≠ t ∧
        chief y.task ∉ subtasks.tasks := by
      intro y hy
      have h := hout y hy
      simp only [Forest.tasks, List.mem_append, List.mem_cons, not_or] at h
      exact h
    -- the threads and the chiefs in front of the task `t` are not of `t` or one of its subtasks
    have holder : ∀ y ∈ older.flat, y.task ∈ older.tasks ∧ y.task ≠ t ∧ y.task ∉ subtasks.tasks ∧
        chief y.task ≠ t ∧ chief y.task ∉ subtasks.tasks := by
      intro y hy
      have hyt := hF₁.task_mem hy
      have hyc := List.mem_cons.mp (hF₁.chief_mem hyt)
      refine ⟨hyt, fun e => hdisj _ hyt t (by simp) e, fun e => hdisj _ hyt _ (by simp [e]) rfl, ?_, ?_⟩
      · rintro e
        obtain h | h := hyc
        · exact hct (h.symm.trans e)
        · exact hdisj _ h t (by simp) e
      · intro e
        obtain h | h := hyc
        · exact hc₂ (h ▸ e)
        · exact hdisj _ h _ (by simp [e]) rfl
    have houtside : ∀ y ∈ A ++ older.flat ++ lookupFirstThread c :: B,
        y.task ≠ t ∧ y.task ∉ subtasks.tasks ∧ chief y.task ≠ t ∧ chief y.task ∉ subtasks.tasks := by
      intro y hy
      simp only [List.mem_append, List.mem_cons] at hy
      obtain (hy | hy) | rfl | hy := hy
      · have h := hout' y (by simp [hy])
        exact ⟨h.1.2.2.1, h.1.2.2.2, h.2.2⟩
      · exact (holder y hy).2
      · exact ⟨hct, hc₂, hc.2⟩
      · have h := hout' y (by simp [hy])
        exact ⟨h.1.2.2.1, h.1.2.2.2, h.2.2⟩
    have hbefore : ∀ y ∈ B ++ (A ++ older.flat ++ subtasks.flat), y.task ≠ c := by
      intro y hy
      simp only [List.mem_append] at hy
      obtain hy | (hy | hy) | hy := hy
      · exact (hout' y (by simp [hy])).1.1
      · exact (hout' y (by simp [hy])).1.1
      · exact fun e => hc₁ (e ▸ (holder y hy).1)
      · exact fun e => hc₂ (e ▸ hF₂.task_mem hy)
    -- first the other threads of the youngest task `t`
    obtain ⟨s₁, hv₁, hleads₁⟩ := leads_others (P := A ++ older.flat ++ subtasks.flat)
      (by simpa [Forest.flat] using hv) ho ht (Ne.symm hct) hbefore htop.2.1
    have hv₁' : View chief s₁ ((A ++ older.flat ++ subtasks.flat ++ [lookupFirstThread t]) ++
        lookupFirstThread c :: B) := by
      simpa using hv₁
    have hsib : s₁.nextSibling (lookupFirstThread c) = some none := by
      refine hv₁'.nextSibling_none fun y hy => ?_
      have hy := List.mem_of_mem_head? hy
      rw [← List.append_assoc, List.mem_append, List.mem_singleton] at hy
      obtain hy | rfl := hy
      · exact hbefore y hy
      · exact Ne.symm hct
    have hchild : s₁.nextChild (lookupFirstThread c) = some (some (lookupFirstThread t)) :=
      hv₁.nextChild_some (by simpa using ht)
    -- then its subtasks
    obtain ⟨s₂, hv₂, hleads₂⟩ := ih₂ (A := A ++ older.flat) (B := lookupFirstThread c :: B)
      (by simpa using hv₁) hF₂ (List.nodup_cons.mpr ⟨ht₂, hnd₂⟩) hk.2.2 (by rw [ht]; exact hc₂)
      (fun y hy => by
        obtain ⟨h₁, h₂, -, h₃⟩ := houtside y hy
        exact ⟨by simp [h₁, h₂], h₃⟩)
      htop.2.2
    -- then its first thread
    have hsib' : s₂.nextSibling (lookupFirstThread t) = some none := by
      refine hv₂.nextSibling_none fun y hy => ?_
      cases hy
      exact hct
    have hchild' : s₂.nextChild (lookupFirstThread t) = some none := by
      refine hv₂.nextChild_none fun y hy => ?_
      have hy := List.mem_of_getLast? hy
      exact (houtside y (by simpa [or_comm, or_assoc, or_left_comm] using hy)).2.2.1
    have htt : lookupFirstThread t ≠ top := fun e => htop.2.1 (by rw [← e, lookupFirstThread_task])
    obtain ⟨s₃, hk₃, hv₃, -⟩ := hv₂.kill fun _ => ⟨Ne.symm hk.2.1, fun y hy => (houtside y hy).1⟩
    -- and then the tasks that are older than `t`
    obtain ⟨s₄, hv₄, hleads₄⟩ := ih₁ (by simpa using hv₃) hF₁ (List.nodup_cons.mpr ⟨hc₁, hnd₁⟩) hk.1
      hc.1
      (fun y hy => by
        have h := hout' y hy
        exact ⟨by simp [h.1.1, h.1.2.1], h.2.1⟩)
      htop.1
    refine ⟨s₄, hv₄, fun ws r hr => ?_⟩
    have hrest := hleads₄ ws r hr
    have hup : Visits top s₂ (lookupFirstThread t)
        (lookupFirstThread t :: (older.visits ++ ws)) r := by
      refine .up hsib' hchild' htt ?_ hk₃ hrest
      rw [hv₂.chiefs _ (by simp), lookupFirstThread_task, ht]
    have hdown := hleads₁ _ _ (.child hsib hchild (hleads₂ _ _ hup))
    simpa [Forest.visits] using hdown

/-- The other threads of the task to be killed are visited in the order of the list. -/
theorem leads_siblings {others : List ThreadId} (ht : top.lthread = 0)
    (hv : View chief s (A ++ top :: (others ++ B))) (ho : Forest.Others top.task others) :
    ∃ s', View chief s' (A ++ top :: B) ∧ Leads top s top others s' := by
  induction others generalizing s with
  | nil => exact ⟨s, hv, .refl⟩
  | cons x others ih =>
    obtain ⟨hxt, hx0⟩ := ho x List.mem_cons_self
    have hsib : s.nextSibling top = some (some x) := hv.nextSibling_some hxt
    have hne : x ≠ top := fun e => hx0 (by rw [e, ht])
    have hv' : View chief s ((A ++ [top]) ++ x :: (others ++ B)) := by simpa using hv
    obtain ⟨s₁, hk, hv₁, -⟩ := hv'.kill fun e => absurd e hx0
    obtain ⟨s', hs', hleads⟩ := ih (s := s₁) (by simpa using hv₁)
      fun y hy => ho y (List.mem_cons_of_mem _ hy)
    exact ⟨s', hs', fun ws r hr => .sibling hsib hne hk (hleads ws r hr)⟩

end L4env.Fiasco
