import L4env.Fiasco.PresentList

/-!
# The task tree behind the present list

The abstract view of the present list: a forest of tasks, in which every task has the forest of its
subtasks, its first thread and its other threads. The list shows the subtasks of a task in front of
its first thread and the other threads of the task right behind it. `Forest.visits` is the order in
which a forest is killed: the youngest task first, and of each task the other threads, the
subtasks and then the first thread.
-/

namespace L4env.Fiasco

/-- Tasks with a common chief, in the order of their creation. -/
inductive Forest
  | nil
  | snoc (older : Forest) (task : TaskNum) (subtasks : Forest) (others : List ThreadId)

namespace Forest

/-- The present list of the tasks in a forest. -/
def flat : Forest → List ThreadId
  | nil => []
  | snoc older t subtasks others => older.flat ++ (subtasks.flat ++ lookupFirstThread t :: others)

def tasks : Forest → List TaskNum
  | nil => []
  | snoc older t subtasks _ => older.tasks ++ t :: subtasks.tasks

def visits : Forest → List ThreadId
  | nil => []
  | snoc older t subtasks others =>
    others.reverse ++ (subtasks.visits ++ lookupFirstThread t :: older.visits)

/-- The other threads of a task. -/
def Others (t : TaskNum) (others : List ThreadId) : Prop := ∀ x ∈ others, x.task = t ∧ x.lthread ≠ 0

/-- The tasks of the forest have the chief `c`, and their subtasks have them as chiefs. -/
def Under (chief : TaskNum → TaskNum) : TaskNum → Forest → Prop
  | _, nil => True
  | c, snoc older t subtasks others =>
    Under chief c older ∧ chief t = c ∧ Under chief t subtasks ∧ Others t others

variable {chief chief' : TaskNum → TaskNum} {c t u : TaskNum} {F G older subtasks : Forest}
  {x : ThreadId} {others : List ThreadId}

theorem Under.congr (h : Under chief c F) (hc : ∀ t ∈ F.tasks, chief' t = chief t) :
    Under chief' c F := by
  induction F generalizing c with
  | nil => trivial
  | snoc older t subtasks others ih₁ ih₂ =>
    obtain ⟨h₁, ht, h₂, ho⟩ := h
    refine ⟨ih₁ h₁ ?_, ?_, ih₂ h₂ ?_, ho⟩
    · exact fun u hu => hc u (by simp [tasks, hu])
    · rw [hc t (by simp [tasks]), ht]
    · exact fun u hu => hc u (by simp [tasks, hu])

/-- Every thread of the list belongs to a task of the forest. -/
theorem Under.task_mem (h : Under chief c F) (hx : x ∈ F.flat) : x.task ∈ F.tasks := by
  induction F generalizing c with
  | nil => cases hx
  | snoc older t subtasks others ih₁ ih₂ =>
    obtain ⟨h₁, ht, h₂, ho⟩ := h
    simp only [flat, tasks, List.mem_append, List.mem_cons] at hx ⊢
    obtain hx | hx | rfl | hx := hx
    · exact .inl (ih₁ h₁ hx)
    · exact .inr (.inr (ih₂ h₂ hx))
    · exact .inr (.inl rfl)
    · exact .inr (.inl (ho x hx).1)

theorem mem_tasks : t ∈ F.tasks → lookupFirstThread t ∈ F.flat := by
  induction F with
  | nil => intro h; cases h
  | snoc older u subtasks others ih₁ ih₂ =>
    simp only [flat, tasks, List.mem_append, List.mem_cons]
    rintro (h | rfl | h)
    · exact .inl (ih₁ h)
    · exact .inr (.inr (.inl rfl))
    · exact .inr (.inl (ih₂ h))

/-- The chief of a task of the forest is `c` or in the forest. -/
theorem Under.chief_mem (h : Under chief c F) (ht : t ∈ F.tasks) : chief t ∈ c :: F.tasks := by
  induction F generalizing c with
  | nil => cases ht
  | snoc older u subtasks others ih₁ ih₂ =>
    obtain ⟨h₁, hu, h₂, -⟩ := h
    simp only [tasks, List.mem_append, List.mem_cons] at ht ⊢
    obtain ht | rfl | ht := ht
    · obtain e | e := List.mem_cons.mp (ih₁ h₁ ht)
      · exact .inl e
      · exact .inr (.inl e)
    · exact .inl hu
    · exact .inr (.inr (List.mem_cons.mp (ih₂ h₂ ht)))

/-- No task of the forest is its own chief. -/
theorem Under.chief_ne (h : Under chief c F) (hnd : (c :: F.tasks).Nodup) (ht : t ∈ F.tasks) :
    chief t ≠ t := by
  induction F generalizing c with
  | nil => cases ht
  | snoc older u subtasks others ih₁ ih₂ =>
    obtain ⟨h₁, hu, h₂, -⟩ := h
    simp only [tasks, List.nodup_cons, List.nodup_append, List.mem_append, List.mem_cons,
      not_or] at ht hnd
    obtain ⟨⟨hc₁, hcu, hc₂⟩, hnd₁, ⟨hu₂, hnd₂⟩, -⟩ := hnd
    obtain ht | rfl | ht := ht
    · exact ih₁ h₁ (List.nodup_cons.mpr ⟨hc₁, hnd₁⟩) ht
    · rw [hu]; exact hcu
    · exact ih₂ h₂ (List.nodup_cons.mpr ⟨hu₂, hnd₂⟩) ht

/-- A forest is visited as a whole, each thread once. -/
theorem visits_perm : F.visits.Perm F.flat := by
  induction F with
  | nil => exact .nil
  | snoc older t subtasks others ih₁ ih₂ =>
    refine List.perm_iff_count.mpr fun x => ?_
    have h₁ := ih₁.count_eq x
    have h₂ := ih₂.count_eq x
    simp only [visits, flat, List.count_append, List.count_cons, List.count_reverse]
    omega

end Forest

/-! ## Places in a forest -/

/-- A place in a forest that holds tasks with a common chief, from the oldest one on. -/
inductive Place
  | here
  | before (p : Place) (task : TaskNum) (subtasks : Forest) (others : List ThreadId)
  | inside (older : Forest) (task : TaskNum) (p : Place) (others : List ThreadId)

namespace Place

/-- The forest with `G` at the place. -/
def plug : Place → Forest → Forest
  | here, G => G
  | before p t subtasks others, G => .snoc (p.plug G) t subtasks others
  | inside older t p others, G => .snoc older t (p.plug G) others

def left : Place → List ThreadId
  | here => []
  | before p _ _ _ => p.left
  | inside older _ p _ => older.flat ++ p.left

def right : Place → List ThreadId
  | here => []
  | before p t subtasks others => p.right ++ (subtasks.flat ++ lookupFirstThread t :: others)
  | inside _ t p others => p.right ++ lookupFirstThread t :: others

/-- The tasks that are not at the place. -/
def tasks : Place → List TaskNum
  | here => []
  | before p t subtasks _ => p.tasks ++ t :: subtasks.tasks
  | inside older t p _ => older.tasks ++ t :: p.tasks

/-- The chief of the tasks at the place. -/
def chief : Place → TaskNum → TaskNum
  | here, c => c
  | before p _ _ _, c => p.chief c
  | inside _ t p _, _ => p.chief t

variable {chief : TaskNum → TaskNum} {c t : TaskNum} {p : Place} {F G G' : Forest}

theorem plug_flat : (p.plug G).flat = p.left ++ (G.flat ++ p.right) := by
  induction p with
  | here => simp [plug, left, right]
  | before p t subtasks others ih => simp [plug, left, right, Forest.flat, ih]
  | inside older t p others ih => simp [plug, left, right, Forest.flat, ih]

theorem plug_tasks : (p.plug G).tasks.Perm (p.tasks ++ G.tasks) := by
  induction p with
  | here => exact .refl _
  | before p t subtasks others ih =>
    refine List.perm_iff_count.mpr fun x => ?_
    have h := ih.count_eq x
    simp only [plug, tasks, Forest.tasks, List.count_append, List.count_cons] at h ⊢
    omega
  | inside older t p others ih =>
    refine List.perm_iff_count.mpr fun x => ?_
    have h := ih.count_eq x
    simp only [plug, tasks, Forest.tasks, List.count_append, List.count_cons] at h ⊢
    omega

/-- The tasks at a place are under the chief of the place. -/
theorem under_of_plug (h : (p.plug G).Under chief c) : G.Under chief (p.chief c) := by
  induction p generalizing c with
  | here => exact h
  | before p t subtasks others ih => exact ih h.1
  | inside older t p others ih => exact ih h.2.2.1

/-- The tasks at a place may be exchanged for others with the same chief. -/
theorem under_plug (h : (p.plug G).Under chief c) (hG : G'.Under chief (p.chief c)) :
    (p.plug G').Under chief c := by
  induction p generalizing c with
  | here => exact hG
  | before p t subtasks others ih => exact ⟨ih h.1 hG, h.2⟩
  | inside older t p others ih => exact ⟨h.1, h.2.1, ih h.2.2.1 hG, h.2.2.2⟩

/-- The chief of a place is elsewhere in the forest. -/
theorem chief_mem : p.chief c ∈ c :: p.tasks := by
  induction p generalizing c with
  | here => simp [Place.chief]
  | before p t subtasks others ih =>
    simp only [Place.chief, tasks, List.mem_cons, List.mem_append] at ih ⊢
    obtain h | h := @ih c
    · exact .inl h
    · exact .inr (.inl h)
  | inside older t p others ih =>
    simp only [Place.chief, tasks, List.mem_cons, List.mem_append] at ih ⊢
    exact .inr (.inr ih)

end Place

/-- Each task of a forest has its place there. -/
theorem Forest.exists_place {t : TaskNum} {F : Forest} (h : t ∈ F.tasks) :
    ∃ p older subtasks others, F = Place.plug p (.snoc older t subtasks others) := by
  induction F with
  | nil => cases h
  | snoc older u subtasks others ih₁ ih₂ =>
    simp only [tasks, List.mem_append, List.mem_cons] at h
    obtain h | rfl | h := h
    · obtain ⟨p, o, k, l, rfl⟩ := ih₁ h
      exact ⟨.before p u subtasks others, o, k, l, rfl⟩
    · exact ⟨.here, older, subtasks, others, rfl⟩
    · obtain ⟨p, o, k, l, rfl⟩ := ih₂ h
      exact ⟨.inside older u p others, o, k, l, rfl⟩

end L4env.Fiasco
