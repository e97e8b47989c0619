import L4env.Fiasco.KillTask

/-!
# Task deletion in every reachable state

The present list of every state that the system calls can reach shows a task tree: new threads are
enqueued behind a thread of their own task, and the first thread of a new task in front of that of
its creator. A task that is deleted is cut out of the tree together with everything below it.
-/

namespace L4env.Fiasco

/-- A task tree with the kernel task at its root. -/
structure Tree (chief : TaskNum → TaskNum) (W : Forest) : Prop where
  under : W.Under chief Config.kernelTaskno
  nodup : W.tasks.Nodup
  root : Config.kernelTaskno ∈ W.tasks
  kernel : chief Config.kernelTaskno = Config.kernelTaskno

/-- The present list shows a task tree. -/
def Inv (s : Kernel) : Prop := ∃ chief W, Tree chief W ∧ View chief s W.flat

variable {chief chief' : TaskNum → TaskNum} {s s' : Kernel} {W : Forest} {p : Place}
  {older subtasks : Forest} {others l l₁ l₂ : List ThreadId} {t u c : TaskNum} {a x y self : ThreadId}

/-! ## The tasks below a task -/

namespace Tree

theorem chief_mem (h : Tree chief W) (hu : u ∈ W.tasks) : chief u ∈ W.tasks := by
  obtain e | e := List.mem_cons.mp (h.under.chief_mem hu)
  · rw [e]
    exact h.root
  · exact e

theorem tasks_perm : (p.plug (.snoc older t subtasks others)).tasks.Perm
    ((p.plug older).tasks ++ t :: subtasks.tasks) := by
  refine Place.plug_tasks.trans ?_
  simp only [Forest.tasks, ← List.append_assoc]
  exact List.Perm.append_right _ Place.plug_tasks.symm

section
variable (h : Tree chief (p.plug (.snoc older t subtasks others))) (ht : t ≠ Config.kernelTaskno)
include h

theorem nodup_append : ((p.plug older).tasks ++ t :: subtasks.tasks).Nodup :=
  tasks_perm.nodup_iff.mp h.nodup

theorem subtasks_nodup : (t :: subtasks.tasks).Nodup := (List.nodup_append.mp h.nodup_append).2.1

theorem disjoint (hu : u ∈ (p.plug older).tasks) : u ∉ t :: subtasks.tasks := by
  intro hu'
  exact (List.nodup_append.mp h.nodup_append).2.2 u hu u hu' rfl

theorem kernel_notMem : Config.kernelTaskno ∉ subtasks.tasks := by
  intro hk
  exact (Place.under_of_plug h.under).2.2.1.chief_ne h.subtasks_nodup hk h.kernel

include ht

/-- The tree without a task and the tasks below it. -/
theorem remove : Tree chief (p.plug older) where
  under := Place.under_plug h.under (Place.under_of_plug h.under).1
  nodup := (List.nodup_append.mp h.nodup_append).1
  root := by
    have hk := tasks_perm.subset h.root
    simp only [List.mem_append, List.mem_cons] at hk
    obtain hk | hk | hk := hk
    · exact hk
    · exact absurd hk.symm ht
    · exact absurd hk h.kernel_notMem
  kernel := h.kernel

theorem chief_top : chief t ∈ (p.plug older).tasks := by
  have hc : chief t = p.chief Config.kernelTaskno := (Place.under_of_plug h.under).2.1
  rw [hc]
  obtain e | e := List.mem_cons.mp (Place.chief_mem (p := p) (c := Config.kernelTaskno))
  · rw [e]
    exact (h.remove ht).root
  · exact Place.plug_tasks.symm.subset (List.mem_append_left _ e)

/-- The rest of the tree is outside of the task and of the tasks below it. -/
theorem outside : Outside chief t subtasks.tasks (p.plug older).flat := by
  intro y hy
  have hyt := (h.remove ht).under.task_mem hy
  refine ⟨h.disjoint hyt, fun e => ?_⟩
  exact h.disjoint ((h.remove ht).chief_mem hyt) (List.mem_cons_of_mem _ e)

theorem chief_ne_top (hy : y ∈ (p.plug older).flat) : chief y.task ≠ t := by
  intro e
  have hyt := (h.remove ht).chief_mem ((h.remove ht).under.task_mem hy)
  exact h.disjoint hyt (by simp [e])

end

end Tree

/-- The threads that are killed with the task `t`, in this order. -/
def Forest.topVisits (t : TaskNum) (subtasks : Forest) (others : List ThreadId) : List ThreadId :=
  others ++ (subtasks.visits ++ [lookupFirstThread t])

/-- `kill_task` cuts the task out of the tree. -/
theorem View.killTask (hv : View chief s (p.plug (.snoc older t subtasks others)).flat)
    (h : Tree chief (p.plug (.snoc older t subtasks others))) (ht : t ≠ Config.kernelTaskno) :
    ∃ s', (∃ N, ∀ n ≥ N,
        s.killTask n (chief t) t = some (true, Forest.topVisits t subtasks others, s')) ∧
      View chief s' (p.plug older).flat ∧ s'.spaces t = .dead (chief t) := by
  obtain ⟨-, -, hsub, ho⟩ := Place.under_of_plug h.under
  have hin : s.inPresentList (lookupFirstThread (chief t)) = true := by
    refine hv.inPresentList (Forest.mem_tasks ?_)
    exact Tree.tasks_perm.symm.subset (List.mem_append_left _ (h.chief_top ht))
  have hchief : s.chief t = chief t := by
    have := hv.spaces_eq (t := lookupFirstThread t) (Forest.mem_tasks ?_) ht
    · simp only [lookupFirstThread_task] at this
      simp [Kernel.chief, this, SpaceRegistry.chief]
    · exact Tree.tasks_perm.symm.subset (by simp)
  have hout := h.outside ht
  have hne := fun y => h.chief_ne_top ht (y := y)
  simp only [Place.plug_flat, Forest.flat] at hv hout hne ⊢
  -- first the other threads of the task, then the subtasks, then its first thread
  obtain ⟨s₁, hv₁, hleads₁⟩ := leads_siblings (lookupFirstThread_lthread (t := t))
    (A := p.left ++ older.flat ++ subtasks.flat) (B := p.right) (by simpa using hv) ho
  obtain ⟨s₂, hv₂, hleads₂⟩ := leads_forest (lookupFirstThread t) (A := p.left ++ older.flat)
    (B := p.right) (by simpa using hv₁) hsub h.subtasks_nodup h.kernel_notMem
    (fun e => h.disjoint (h.chief_top ht) (List.mem_cons_of_mem _ e)) (by simpa using hout)
    (List.nodup_cons.mp h.subtasks_nodup).1
  have hothers : ∀ y ∈ p.left ++ older.flat ++ p.right, y.task ≠ t := by
    intro y hy e
    exact (hout y (by simpa using hy)).1 (by rw [e]; simp)
  obtain ⟨s₃, hk, hv₃, hdead⟩ := hv₂.kill fun _ => ⟨ht, hothers⟩
  refine ⟨s₃, ?_, by simpa using hv₃, hdead rfl⟩
  have hsib : s₂.nextSibling (lookupFirstThread t) = some none := by
    refine hv₂.nextSibling_none fun y hy => hothers y ?_
    exact List.perm_append_comm.subset (List.mem_of_mem_head? hy)
  have hchild : s₂.nextChild (lookupFirstThread t) = some none := by
    refine hv₂.nextChild_none fun y hy => ?_
    have hy := List.mem_of_getLast? hy
    exact hne y (by simpa [or_comm, or_assoc, or_left_comm] using hy)
  have hvisits := hleads₁ _ _ (hleads₂ _ _ (.top hsib hchild hk))
  obtain ⟨N, hN⟩ := hvisits.killLoop_eq
  refine ⟨N, fun n hn => ?_⟩
  have hrun := hN n hn n hn
  rw [Option.bind_eq_some_iff] at hrun
  obtain ⟨it, hit, hloop⟩ := hrun
  simp [Kernel.killTask, hin, hchief, Kernel.advanceToNext, hit, hloop, Forest.topVisits]

/-! ## New threads and tasks -/

namespace View

open Kernel

theorem chief_congr (h : View chief s l) (hc : ∀ x ∈ l, chief' x.task = chief x.task) :
    View chief' s l where
  toPresentList := h.toPresentList
  chiefs := fun x hx => by rw [h.chiefs x hx, hc x hx]
  lives := h.lives
  kernel := h.kernel

/-- Changes of the chiefs of dead numbers do not show. -/
theorem dead_congr (h : View chief s l) (hn : s'.presentNext = s.presentNext)
    (hp : s'.presentPrev = s.presentPrev)
    (hs : ∀ i k, s'.spaces i = .space k ↔ s.spaces i = .space k)
    (hk : s'.spaces Config.kernelTaskno = s.spaces Config.kernelTaskno) : View chief s' l where
  toPresentList := h.toPresentList.congr hn hp
  chiefs := by
    intro x hx
    by_cases hx0 : x.task = Config.kernelTaskno
    · have := h.chiefs x hx
      simp only [chiefIndex, if_pos hx0] at this ⊢
      exact this
    · simp [chiefIndex, if_neg hx0, (hs _ _).mpr (h.spaces_eq hx hx0)]
  lives := by
    intro i
    rw [← h.lives, lives_iff, lives_iff]
    exact exists_congr fun k => hs i k
  kernel := hk.trans h.kernel

/-- A new thread in the list, which is the first thread of a new task or another thread. -/
theorem insert (h : View chief s (l₁ ++ l₂)) (hlist : PresentList s' (l₁ ++ x :: l₂))
    (hold : ∀ y ∈ l₁ ++ l₂, s'.chiefIndex y = s.chiefIndex y)
    (hnew : s'.chiefIndex x = some (chief x.task)) (hxk : x ≠ lookupFirstThread Config.kernelTaskno)
    (hlives : ∀ i, s'.lives i = true ↔ s.lives i = true ∨ lookupFirstThread i = x)
    (hk : s'.spaces Config.kernelTaskno = s.spaces Config.kernelTaskno) :
    View chief s' (l₁ ++ x :: l₂) where
  toPresentList := hlist
  chiefs := by
    intro y hy
    obtain rfl | hy := List.mem_cons.mp (List.perm_middle.subset hy)
    · exact hnew
    · rw [hold y hy, h.chiefs y hy]
  lives := by
    intro i
    have hmem : lookupFirstThread i ∈ l₁ ++ x :: l₂ ↔
        lookupFirstThread i = x ∨ lookupFirstThread i ∈ l₁ ++ l₂ :=
      List.perm_middle.mem_iff.trans List.mem_cons
    have hne : lookupFirstThread i = x → i ≠ Config.kernelTaskno := by
      rintro rfl rfl
      exact hxk rfl
    rw [hlives, h.lives, hmem]
    tauto
  kernel := hk.trans h.kernel

/-- A new thread that is not the first one of its task. -/
theorem insert_thread (h : View chief s (l₁ ++ a :: l₂))
    (hlist : PresentList s' (l₁ ++ a :: x :: l₂)) (hspaces : s'.spaces = s.spaces) (hxa : x.task = a.task) (hx0 : x.lthread ≠ 0) :
    View chief s' (l₁ ++ a :: x :: l₂) := by
  rw [List.append_cons] at h hlist ⊢
  have hne : ∀ i, lookupFirstThread i ≠ x := by
    rintro i rfl
    exact hx0 rfl
  refine h.insert hlist ?_ ?_ (Ne.symm (hne _)) ?_ (by rw [hspaces])
  · exact fun y _ => chiefIndex_congr hspaces
  · have ha := h.chiefs a (by simp)
    rw [chiefIndex_congr hspaces, hxa, ← ha]
    simp only [chiefIndex, hxa]
  · intro i
    rw [lives_congr hspaces]
    simp [hne i]

end View

/-- A thread of a task stands behind the first thread of the task. -/
theorem Tree.mem_task (h : Tree chief (p.plug (.snoc older t subtasks others)))
    (hx : x ∈ (p.plug (.snoc older t subtasks others)).flat) (hxt : x.task = t) :
    x ∈ lookupFirstThread t :: others := by
  rw [Place.plug_flat] at hx
  simp only [Forest.flat, List.mem_append] at hx
  have hmem : ∀ y ∈ (p.plug older).flat, y.task ≠ t := by
    intro y hy e
    have hunder := Place.under_plug h.under (Place.under_of_plug h.under).1
    exact h.disjoint (hunder.task_mem hy) (by simp [e])
  rw [Place.plug_flat] at hmem
  obtain hx | (hx | hx | hx) | hx := hx
  · exact absurd hxt (hmem x (by simp [hx]))
  · exact absurd hxt (hmem x (by simp [hx]))
  · have hsub := (Place.under_of_plug h.under).2.2.1.task_mem hx
    rw [hxt] at hsub
    exact absurd hsub (List.nodup_cons.mp h.subtasks_nodup).1
  · exact hx
  · exact absurd hxt (hmem x (by simp [hx]))

/-- A thread that is inserted behind a thread of its task becomes one of the other threads. -/
theorem Forest.Others.insert {m m' : List ThreadId} (h : Forest.Others t others)
    (hx : x.task = t ∧ x.lthread ≠ 0) (hsplit : lookupFirstThread t :: others = m ++ a :: m') :
    ∃ others', m ++ a :: x :: m' = lookupFirstThread t :: others' ∧ Forest.Others t others' := by
  cases m with
  | nil =>
    obtain ⟨rfl, rfl⟩ := List.cons.inj hsplit
    refine ⟨x :: others, rfl, fun y hy => ?_⟩
    obtain rfl | hy := List.mem_cons.mp hy
    · exact hx
    · exact h y hy
  | cons z m =>
    obtain ⟨rfl, rfl⟩ := List.cons.inj hsplit
    refine ⟨m ++ a :: x :: m', rfl, fun y hy => ?_⟩
    simp only [List.mem_append, List.mem_cons] at hy
    obtain hy | rfl | rfl | hy := hy
    · exact h y (by simp [hy])
    · exact h y (by simp)
    · exact hx
    · exact h y (by simp [hy])

/-- A new thread behind a thread of its task. -/
theorem Inv.add_thread (h : Inv s) (ha : s.inPresentList a = true) (hxa : x.task = a.task)
    (hx : s.inPresentList x = false) :
    ∃ s', s.presentEnqueueAfter x a = some s' ∧ Inv s' := by
  obtain ⟨chief, W, hW, hv⟩ := h
  have hmem : a ∈ W.flat := (hv.present a).mp ha
  obtain ⟨p, older, subtasks, others, rfl⟩ := Forest.exists_place (hW.under.task_mem hmem)
  have hnew : x ∉ (p.plug (.snoc older a.task subtasks others)).flat := by
    rw [← hv.present, hx]
    exact Bool.false_ne_true
  have hx0 : x.lthread ≠ 0 := by
    intro h0
    refine hnew ?_
    have hfirst : x = lookupFirstThread a.task := by
      cases x
      simp only at hxa h0
      rw [hxa, h0]
      rfl
    rw [hfirst]
    exact Forest.mem_tasks (hW.under.task_mem hmem)
  obtain ⟨-, -, -, ho⟩ := Place.under_of_plug hW.under
  obtain ⟨m, m', hsplit⟩ := List.mem_iff_append.mp (hW.mem_task hmem rfl)
  have hflat : (p.plug (.snoc older a.task subtasks others)).flat =
      (p.left ++ (older.flat ++ (subtasks.flat ++ m))) ++ a :: (m' ++ p.right) := by
    simp [Place.plug_flat, Forest.flat, hsplit]
  rw [hflat] at hv hnew
  obtain ⟨s', hs', hspaces, hlist⟩ := hv.toPresentList.presentEnqueueAfter hnew
  -- the first thread of the task stays in front
  obtain ⟨others', hothers, ho'⟩ := ho.insert ⟨hxa, hx0⟩ hsplit
  have hflat' : (p.plug (.snoc older a.task subtasks others')).flat =
      (p.left ++ (older.flat ++ (subtasks.flat ++ m))) ++ a :: x :: (m' ++ p.right) := by
    simp [Place.plug_flat, Forest.flat, ← hothers]
  have hperm : (p.plug (.snoc older a.task subtasks others')).tasks.Perm
      (p.plug (.snoc older a.task subtasks others)).tasks :=
    Tree.tasks_perm.trans Tree.tasks_perm.symm
  refine ⟨s', hs', chief, p.plug (.snoc older a.task subtasks others'), ?_, ?_⟩
  · exact {
      under := Place.under_plug hW.under
        ⟨(Place.under_of_plug hW.under).1, (Place.under_of_plug hW.under).2.1,
          (Place.under_of_plug hW.under).2.2.1, ho'⟩
      nodup := hperm.nodup_iff.mpr hW.nodup
      root := hperm.symm.subset hW.root
      kernel := hW.kernel }
  · rw [hflat']
    exact hv.insert_thread hlist hspaces hxa hx0

/-- The tree with the new task `u` below the task `c`. -/
theorem Tree.add (h : Tree chief (p.plug (.snoc older c subtasks others)))
    (hu : u ∉ (p.plug (.snoc older c subtasks others)).tasks) :
    Tree (Function.update chief u c)
      (p.plug (.snoc older c (.snoc subtasks u .nil []) others)) := by
  have hsame : ∀ t ∈ (p.plug (.snoc older c subtasks others)).tasks,
      Function.update chief u c t = chief t := by
    intro t ht
    have hne : t ≠ u := by
      rintro rfl
      exact hu ht
    exact Function.update_of_ne hne _ _
  have hunder := h.under.congr hsame
  obtain ⟨h₁, hc, h₂, ho⟩ := Place.under_of_plug hunder
  have hperm : (p.plug (.snoc older c (.snoc subtasks u .nil []) others)).tasks.Perm
      (u :: (p.plug (.snoc older c subtasks others)).tasks) := by
    refine Tree.tasks_perm.trans ?_
    refine List.Perm.trans ?_ (Tree.tasks_perm.symm.cons u)
    simp only [Forest.tasks, ← List.cons_append, ← List.append_assoc]
    exact List.perm_append_comm
  exact {
    under := Place.under_plug hunder
      ⟨h₁, hc, ⟨h₂, Function.update_self .., trivial, fun _ hx => by cases hx⟩, ho⟩
    nodup := hperm.nodup_iff.mpr (List.nodup_cons.mpr ⟨hu, h.nodup⟩)
    root := hperm.symm.subset (List.mem_cons_of_mem _ h.root)
    kernel := (hsame _ h.root).trans h.kernel }

/-- A new task, enqueued in front of the first thread of its creator's task. -/
theorem Inv.add_task (h : Inv s) (hc : s.inPresentList (lookupFirstThread c) = true)
    (hu : s.spaces u = .dead c) (huk : u ≠ Config.kernelTaskno) {s₁ : Kernel}
    (hs₁ : s₁ = { s with spaces := Function.update s.spaces u (.space c) }) :
    ∃ q s', s₁.presentPrev (lookupFirstThread c) = some q ∧
      s₁.presentEnqueueAfter (lookupFirstThread u) q = some s' ∧ s'.spaces = s₁.spaces ∧ Inv s' := by
  obtain ⟨chief, W, hW, hv⟩ := h
  have hmem : lookupFirstThread c ∈ W.flat := (hv.present _).mp hc
  obtain ⟨p, older, subtasks, others, rfl⟩ := Forest.exists_place (hW.under.task_mem hmem)
  simp only [lookupFirstThread_task] at *
  have hdead : lookupFirstThread u ∉ (p.plug (.snoc older c subtasks others)).flat := by
    intro hin
    have hlives := (hv.lives u).mpr ⟨huk, hin⟩
    simp [Kernel.lives, hu] at hlives
  have hnew : u ∉ (p.plug (.snoc older c subtasks others)).tasks := fun e =>
    hdead (Forest.mem_tasks e)
  have hne : ∀ y ∈ (p.plug (.snoc older c subtasks others)).flat, y.task ≠ u := fun y hy e =>
    hnew (e ▸ hW.under.task_mem hy)
  have hv' : View (Function.update chief u c) s _ := hv.chief_congr fun y hy =>
    Function.update_of_ne (hne y hy) _ _
  have hflat : (p.plug (.snoc older c subtasks others)).flat =
      (p.left ++ (older.flat ++ subtasks.flat)) ++ lookupFirstThread c :: (others ++ p.right) := by
    simp [Place.plug_flat, Forest.flat]
  have hflat' : (p.plug (.snoc older c (.snoc subtasks u .nil []) others)).flat =
      (p.left ++ (older.flat ++ subtasks.flat)) ++
        lookupFirstThread u :: lookupFirstThread c :: (others ++ p.right) := by
    simp [Place.plug_flat, Forest.flat]
  rw [hflat] at hv' hdead hne
  have hlist₁ : PresentList s₁ _ := hv'.toPresentList.congr (by rw [hs₁]) (by rw [hs₁])
  obtain ⟨q, s', hq, hs', hspaces, hlist⟩ := hlist₁.presentEnqueueBefore hdead
  refine ⟨q, s', hq, hs', hspaces, _, _, hW.add hnew, ?_⟩
  rw [hflat']
  rw [hs₁] at hspaces
  refine hv'.insert hlist ?_ ?_ ?_ ?_ ?_
  · intro y hy
    simp [Kernel.chiefIndex, hspaces, hne y hy]
  · simp [Kernel.chiefIndex, hspaces, huk]
  · exact fun e => huk (congrArg ThreadId.task e)
  · intro i
    by_cases hi : i = u
    · simp [Kernel.lives, hspaces, hi]
    · have hne : lookupFirstThread i ≠ lookupFirstThread u := fun e => hi (congrArg ThreadId.task e)
      simp [Kernel.lives, hspaces, hi, hne]
  · simp [hspaces, Ne.symm huk]

/-! ## System calls -/

inductive Call
  | exRegs (task : TaskNum) (lthread : LThreadNum) (pages mem : Bool)
  | taskNew (si : TaskNum) (req : Kernel.TaskNew) (mem : Kernel.Memory)

namespace Kernel

def syscall (s : Kernel) (fuel : Nat) (self : ThreadId) : Call → Option Kernel
  | .exRegs task lthread pages mem => s.sysThreadExRegs self task lthread pages mem
  | .taskNew si req mem => s.sysTaskNew fuel self si req mem

/-- The thread `self` makes the system call, and its loops end. -/
def Step (s : Kernel) (self : ThreadId) (call : Call) (s' : Kernel) : Prop :=
  ∃ N, ∀ n ≥ N, s.syscall n self call = some s'

theorem Step.unique {s'' : Kernel} {call : Call} (h : s.Step self call s')
    (h' : s.Step self call s'') : s' = s'' := by
  obtain ⟨N, hN⟩ := h
  obtain ⟨M, hM⟩ := h'
  have e := (hN (max N M) (le_max_left _ _)).symm.trans (hM (max N M) (le_max_right _ _))
  exact Option.some.inj e

/-- The states that the system calls of user threads lead to from the boot threads on. -/
inductive Reachable : Kernel → Prop
  | boot {s : Kernel} : bootstrap.initWorkload = some s → Reachable s
  | step {s s' : Kernel} {self : ThreadId} {call : Call} :
    Reachable s → s.inPresentList self = true → self.task ≠ Config.kernelTaskno →
    s.Step self call s' → Reachable s'

end Kernel

namespace Inv

open Kernel

theorem kernel_spaces (h : Inv s) : s.spaces Config.kernelTaskno = .dead Config.kernelTaskno := by
  obtain ⟨chief, W, hW, hv⟩ := h
  exact hv.kernel

theorem kernel_present (h : Inv s) :
    s.inPresentList (lookupFirstThread Config.kernelTaskno) = true := by
  obtain ⟨chief, W, hW, hv⟩ := h
  exact hv.inPresentList (Forest.mem_tasks hW.root)

/-- A thread exists only as long as the first thread of its task. -/
theorem first_present (h : Inv s) (hx : s.inPresentList x = true) :
    s.inPresentList (lookupFirstThread x.task) = true := by
  obtain ⟨chief, W, hW, hv⟩ := h
  exact hv.inPresentList (Forest.mem_tasks (hW.under.task_mem ((hv.present x).mp hx)))

theorem chiefIndex_isSome (h : Inv s) (hx : s.inPresentList x = true) :
    ∃ c, s.chiefIndex x = some c := by
  obtain ⟨chief, W, hW, hv⟩ := h
  exact ⟨_, hv.chiefs x ((hv.present x).mp hx)⟩

theorem dead_congr (h : Inv s) (hn : s'.presentNext = s.presentNext)
    (hp : s'.presentPrev = s.presentPrev)
    (hs : ∀ i k, s'.spaces i = .space k ↔ s.spaces i = .space k)
    (hk : s'.spaces Config.kernelTaskno = s.spaces Config.kernelTaskno) : Inv s' := by
  obtain ⟨chief, W, hW, hv⟩ := h
  exact ⟨chief, W, hW, hv.dead_congr hn hp hs hk⟩

/-- `sys_thread_ex_regs` -/
theorem sysThreadExRegs (h : Inv s) (hself : s.inPresentList self = true) {task : TaskNum}
    {lthread : LThreadNum} {pages mem : Bool} :
    ∃ s', s.sysThreadExRegs self task lthread pages mem = some s' ∧ Inv s' := by
  have create : ∀ dst : ThreadId, s.inPresentList (lookupFirstThread dst.task) = true →
      ∃ s', (if s.inPresentList dst || !mem then some s else s.presentEnqueue dst self) = some s' ∧
        Inv s' := by
    intro dst hfirst
    by_cases hskip : (s.inPresentList dst || !mem) = true
    · rw [if_pos hskip]
      exact ⟨s, rfl, h⟩
    rw [if_neg hskip]
    have hnew : s.inPresentList dst = false := by
      simp only [Bool.or_eq_true, not_or, Bool.not_eq_true] at hskip
      exact hskip.1
    by_cases hown : dst.task = self.task
    · rw [presentEnqueue, if_pos hown]
      exact h.add_thread hself hown hnew
    · have h0 : dst.lthread ≠ 0 := by
        intro h0
        have : lookupFirstThread dst.task = dst := by
          cases dst
          simp only at h0
          rw [h0]
          rfl
        rw [this, hnew] at hfirst
        cases hfirst
      rw [presentEnqueue, if_neg hown, presentEnqueueOtherTask, if_pos h0]
      exact h.add_thread hfirst rfl hnew
  unfold Kernel.sysThreadExRegs
  dsimp only
  split
  · have hfirst := h.first_present hself
    exact create _ hfirst
  · split
    · exact ⟨s, rfl, h⟩
    · rename_i hfirst
      have hfirst : s.inPresentList (lookupFirstThread task) = true := by simpa using hfirst
      obtain ⟨c, hc⟩ := h.chiefIndex_isSome hfirst
      rw [hc]
      dsimp only
      split
      · exact ⟨s, rfl, h⟩
      · exact create _ hfirst

/-- The creation of a task by a thread of its chief. -/
theorem create (h : Inv s) (self : ThreadId)
    (hself : s.inPresentList (lookupFirstThread self.task) = true)
    (hu : s.spaces u = .dead self.task) (huk : u ≠ Config.kernelTaskno) :
    ∃ s₁ s', s.add u = some s₁ ∧ s₁.presentEnqueue (lookupFirstThread u) self = some s' ∧
      s'.spaces = Function.update s.spaces u (.space self.task) ∧ Inv s' := by
  obtain ⟨s₁, hs₁⟩ : ∃ s₁ : Kernel,
      s₁ = { s with spaces := Function.update s.spaces u (.space self.task) } := ⟨_, rfl⟩
  obtain ⟨q, s', hq, hs', hspaces, hinv⟩ := h.add_task hself hu huk hs₁
  refine ⟨s₁, s', by simp [Kernel.add, hu, hs₁], ?_, by rw [hspaces, hs₁], hinv⟩
  have hne : u ≠ self.task := by
    rintro rfl
    obtain ⟨c, hc⟩ := h.chiefIndex_isSome hself
    simp [Kernel.chiefIndex, huk, hu] at hc
  simp only [presentEnqueue, lookupFirstThread_task, hne, if_false, presentEnqueueOtherTask,
    lookupFirstThread_lthread, ne_eq, not_true_eq_false, hq, hs']

theorem setChief (h : Inv s) (huk : u ≠ Config.kernelTaskno) {old new : TaskNum} :
    Inv (s.setChief u old new).2 := by
  unfold Kernel.setChief
  split
  · exact h
  · rename_i c hu
    split
    · exact h
    · refine h.dead_congr rfl rfl (fun i k => ?_) (Function.update_of_ne (Ne.symm huk) _ _)
      by_cases hi : i = u
      · subst hi
        simp [hu]
      · simp [Function.update_of_ne hi]

/-- A task that could not be set up leaves the present list alone. -/
theorem add_del (h : Inv s) (huk : u ≠ Config.kernelTaskno) {k : TaskNum} {s₁ : Kernel}
    (hadd : s.add u = some s₁) : Inv (s₁.del u k) := by
  unfold Kernel.add at hadd
  split at hadd
  · cases hadd
  · rename_i c hu
    cases hadd
    refine h.dead_congr rfl rfl (fun i k' => ?_) ?_
    · by_cases hi : i = u
      · subst hi
        simp [del_spaces_self, hu]
      · rw [del_spaces_of_space hi]
        simp [Function.update_of_ne hi]
    · rw [h.kernel_spaces]
      refine del_spaces_of_dead (Ne.symm huk) (Ne.symm huk) ?_
      simpa [Function.update_of_ne (Ne.symm huk)] using h.kernel_spaces

/-- The part of `sys_task_new` that finds the number dead. -/
theorem sysTaskNewDead (h : Inv s) (hself : s.inPresentList (lookupFirstThread self.task) = true)
    (hk : self.task ≠ Config.kernelTaskno) (hu : s.spaces u = .dead self.task) (req : TaskNew)
    (mem : Memory) : ∃ s', s.sysTaskNewDead self u req mem = some s' ∧ Inv s' := by
  have huk : u ≠ Config.kernelTaskno := by
    rintro rfl
    rw [h.kernel_spaces] at hu
    exact hk (SpaceRegistry.dead.inj hu).symm
  cases req with
  | transfer newChief =>
    by_cases hl : s.lives newChief = true
    · exact ⟨(s.setChief u self.task newChief).2, by simp [Kernel.sysTaskNewDead, hl],
        h.setChief huk⟩
    · exact ⟨s, by simp [Kernel.sysTaskNewDead, hl], h⟩
  | create =>
    obtain ⟨s₁, s', hadd, hs', -, hinv⟩ := h.create self hself hu huk
    cases mem with
    | noTask => exact ⟨s, rfl, h⟩
    | noThread =>
      exact ⟨s₁.del u (s₁.chief u), by simp [Kernel.sysTaskNewDead, hadd], h.add_del huk hadd⟩
    | enough => exact ⟨s', by simp [Kernel.sysTaskNewDead, hadd, hs'], hinv⟩

/-- `sys_task_new` -/
theorem sysTaskNew (h : Inv s) (hself : s.inPresentList self = true)
    (hk : self.task ≠ Config.kernelTaskno) {req : TaskNew} {mem : Memory} :
    ∃ s', (∃ N, ∀ n ≥ N, s.sysTaskNew n self u req mem = some s') ∧ Inv s' := by
  have hfirst := h.first_present hself
  by_cases hchief : s.chief u = self.task
  swap
  · exact ⟨s, ⟨0, fun n _ => by simp [Kernel.sysTaskNew, hchief]⟩, h⟩
  cases hu : s.spaces u with
  | dead c =>
    have hc : c = self.task := by simpa [Kernel.chief, hu, SpaceRegistry.chief] using hchief
    subst hc
    obtain ⟨s', hs', hinv⟩ := h.sysTaskNewDead hfirst hk hu req mem
    exact ⟨s', ⟨0, fun n _ => by simp [Kernel.sysTaskNew, hchief, Kernel.lives, hu, hs']⟩, hinv⟩
  | space c =>
    have hc : c = self.task := by simpa [Kernel.chief, hu, SpaceRegistry.chief] using hchief
    obtain ⟨chief, W, hW, hv⟩ := h
    obtain ⟨huk, hmem⟩ := (hv.lives u).mp (Kernel.lives_iff.mpr ⟨c, hu⟩)
    have hcu : chief u = c := by
      have := hv.spaces_eq hmem huk
      rw [lookupFirstThread_task, hu] at this
      exact (SpaceRegistry.space.inj this).symm
    obtain ⟨p, older, subtasks, others, rfl⟩ := Forest.exists_place (hW.under.task_mem hmem)
    rw [lookupFirstThread_task] at hW hv
    obtain ⟨s₁, ⟨N, hN⟩, hv₁, hdead⟩ := hv.killTask hW huk
    rw [hcu, hc] at hN hdead
    have hfirst₁ : s₁.inPresentList (lookupFirstThread self.task) = true := by
      refine hv₁.inPresentList (Forest.mem_tasks ?_)
      rw [← hc, ← hcu]
      exact hW.chief_top huk
    have hinv₁ : Inv s₁ := ⟨chief, _, hW.remove huk, hv₁⟩
    obtain ⟨s', hs', hinv⟩ := hinv₁.sysTaskNewDead hfirst₁ hk hdead req mem
    refine ⟨s', ⟨N, fun n hn => ?_⟩, hinv⟩
    simp [Kernel.sysTaskNew, hchief, Kernel.lives, hu, hN n hn, hs']

/-- No system call follows a null pointer or runs for ever. -/
theorem step (h : Inv s) (hself : s.inPresentList self = true)
    (hk : self.task ≠ Config.kernelTaskno) (call : Call) :
    ∃ s', s.Step self call s' ∧ Inv s' := by
  cases call with
  | exRegs task lthread pages mem =>
    obtain ⟨s', hs', hinv⟩ := h.sysThreadExRegs hself
    exact ⟨s', ⟨0, fun _ _ => hs'⟩, hinv⟩
  | taskNew si req mem => exact h.sysTaskNew hself hk

end Inv

/-! ## Boot -/

theorem bootstrap_inv : Inv Kernel.bootstrap := by
  refine ⟨fun _ => Config.kernelTaskno, .snoc .nil Config.kernelTaskno .nil [], ?_, ?_⟩
  · exact ⟨⟨trivial, rfl, trivial, fun _ hx => nomatch hx⟩, by decide, by decide, rfl⟩
  · have hpres : ∀ x, Kernel.bootstrap.inPresentList x = true ↔
        x = lookupFirstThread Config.kernelTaskno := by
      intro x
      by_cases hx : x = lookupFirstThread Config.kernelTaskno
      · simp [Kernel.inPresentList, Kernel.bootstrap, hx]
      · simp [Kernel.inPresentList, Kernel.bootstrap, hx]
    refine ⟨⟨?_, by simp [Forest.flat], ?_⟩, ?_, ?_, rfl⟩
    · simp [IsRing, Forest.flat, Kernel.bootstrap]
    · simpa [Forest.flat] using hpres
    · intro x hx
      have hx : x = lookupFirstThread Config.kernelTaskno := by simpa [Forest.flat] using hx
      rw [hx]
      rfl
    · intro i
      have hne : i ≠ Config.kernelTaskno →
          lookupFirstThread i ≠ lookupFirstThread Config.kernelTaskno := fun hi e =>
        hi (congrArg ThreadId.task e)
      simpa [Kernel.lives, Kernel.bootstrap, Forest.flat] using hne

/-- The kernel task creates a task from one of its numbers. -/
theorem Inv.kernel_create (h : Inv s) (hu : s.spaces u = .dead Config.kernelTaskno)
    (huk : u ≠ Config.kernelTaskno) :
    ∃ s₀ s₁ s', (s.setChief u Config.kernelTaskno 0).2 = s₀ ∧ s₀.add u = some s₁ ∧
      s₁.presentEnqueue (lookupFirstThread u) (lookupFirstThread Config.kernelTaskno) = some s' ∧
      s'.spaces = Function.update s.spaces u (.space Config.kernelTaskno) ∧ Inv s' := by
  have hspaces : (s.setChief u Config.kernelTaskno 0).2.spaces =
      Function.update s.spaces u (.dead Config.kernelTaskno) := by
    simp [Kernel.setChief, hu, Config.kernelTaskno]
  have h₀ : Inv (s.setChief u Config.kernelTaskno 0).2 := h.setChief huk
  obtain ⟨s₁, s', hadd, hs', hspaces', hinv⟩ :=
    h₀.create (lookupFirstThread Config.kernelTaskno) h₀.kernel_present
      (by rw [hspaces, Function.update_self]; rfl) huk
  refine ⟨_, s₁, s', rfl, hadd, hs', ?_, hinv⟩
  rw [hspaces', hspaces, Function.update_idem, lookupFirstThread_task]

/-- The kernel reaches the state after boot. -/
theorem initWorkload_inv : ∃ s, Kernel.bootstrap.initWorkload = some s ∧ Inv s := by
  have h₀ : Inv Kernel.bootstrap.allowBootTask := by
    refine bootstrap_inv.dead_congr rfl rfl (fun i k => ?_) rfl
    by_cases hi : Config.bootTaskno < i
    · simp [Kernel.allowBootTask, Kernel.bootstrap, hi, Config.kernelTaskno]
    · simp [Kernel.allowBootTask, Kernel.bootstrap, hi]
  obtain ⟨s₀, s₁, s₂, e₀, e₁, e₂, hspaces, h₂⟩ :=
    h₀.kernel_create (u := Config.sigma0Taskno) rfl (by decide)
  have hboot : s₂.spaces Config.bootTaskno = .dead Config.kernelTaskno := by
    rw [hspaces]
    rfl
  obtain ⟨s₃, s₄, s₅, e₃, e₄, e₅, -, h₅⟩ := h₂.kernel_create hboot (by decide)
  exact ⟨s₅, by simp [Kernel.initWorkload, e₀, e₁, e₂, e₃, e₄, e₅], h₅⟩

theorem Kernel.Reachable.inv (h : s.Reachable) : Inv s := by
  induction h with
  | boot e =>
    obtain ⟨s, hs, hinv⟩ := initWorkload_inv
    rw [hs] at e
    exact Option.some.inj e ▸ hinv
  | step _ hself hk hstep ih =>
    obtain ⟨s', hs', hinv⟩ := ih.step hself hk _
    exact hstep.unique hs' ▸ hinv

/-! ## The threads that are killed -/

namespace Kernel

/-- The task `b` exists and was created by a thread of the task `a`. -/
def Created (s : Kernel) (a b : TaskNum) : Prop := s.spaces b = .space a

/-- The task `b` is `a` or was transitively created by it. -/
def Below (s : Kernel) : TaskNum → TaskNum → Prop := Relation.ReflTransGen s.Created

theorem Below.mem {us : List TaskNum} {a b : TaskNum} (h : s.Below a b) (ha : a ∈ us)
    (hus : ∀ a b, s.Created a b → a ∈ us → b ∈ us) : b ∈ us := by
  induction h with
  | refl => exact ha
  | tail _ hstep ih => exact hus _ _ hstep ih

end Kernel

namespace Forest

open Kernel

theorem below_of_mem {F : Forest} (hF : F.Under chief c)
    (hlive : ∀ u ∈ F.tasks, s.spaces u = .space (chief u)) (hu : u ∈ F.tasks) : s.Below c u := by
  induction F generalizing c with
  | nil => cases hu
  | snoc older t subtasks others ih₁ ih₂ =>
    obtain ⟨h₁, ht, h₂, -⟩ := hF
    have hct : s.Below c t := .single (by
      rw [Created, hlive t (by simp [tasks]), ht])
    simp only [tasks, List.mem_append, List.mem_cons] at hu
    obtain hu | rfl | hu := hu
    · exact ih₁ h₁ (fun v hv => hlive v (by simp [tasks, hv])) hu
    · exact hct
    · exact hct.trans (ih₂ h₂ (fun v hv => hlive v (by simp [tasks, hv])) hu)

/-- No thread of a task or of a task below it comes after the first thread of the task. -/
def PostOrder (s : Kernel) (vs : List ThreadId) : Prop :=
  vs.Pairwise fun x y => x.lthread = 0 → ¬ s.Below x.task y.task

theorem PostOrder.append {vs ws : List ThreadId} (h : PostOrder s vs) (h' : PostOrder s ws)
    (hcross : ∀ x ∈ vs, ∀ y ∈ ws, x.lthread = 0 → ¬ s.Below x.task y.task) :
    PostOrder s (vs ++ ws) :=
  List.pairwise_append.mpr ⟨h, h', hcross⟩

theorem Others.postOrder_append {vs : List ThreadId} (h : Others t others) (h' : PostOrder s vs) :
    PostOrder s (others ++ vs) := by
  refine PostOrder.append ?_ h' fun x hx _ _ e => absurd e (h x hx).2
  exact List.Pairwise.imp_of_mem (fun hx _ _ e => absurd e (h _ hx).2) (List.pairwise_of_forall fun _ _ => trivial)

theorem Others.reverse (h : Others t others) : Others t others.reverse := fun x hx =>
  h x (List.mem_reverse.mp hx)

theorem Under.visits_task (h : Under chief c W) (hx : x ∈ W.visits) : x.task ∈ W.tasks :=
  h.task_mem (visits_perm.subset hx)

theorem postOrder_visits {F : Forest} (hF : F.Under chief c) (hnd : (c :: F.tasks).Nodup)
    (hchief : ∀ a b, s.Created a b → chief b = a)
    (hclosed : ∀ a b, s.Created a b → a ∈ F.tasks → b ∈ F.tasks) : PostOrder s F.visits := by
  induction F generalizing c with
  | nil => exact .nil
  | snoc older t subtasks others ih₁ ih₂ =>
    obtain ⟨h₁, ht, h₂, ho⟩ := hF
    simp only [tasks, List.nodup_cons, List.nodup_append, List.mem_append, List.mem_cons,
      not_or] at hnd hclosed
    obtain ⟨⟨hc₁, hct, hc₂⟩, hnd₁, ⟨ht₂, hnd₂⟩, hdisj⟩ := hnd
    have hold : ∀ a b, s.Created a b → b ∈ older.tasks → a = c ∨ a ∈ older.tasks := by
      intro a b hab hb
      have := h₁.chief_mem hb
      rw [hchief a b hab] at this
      exact List.mem_cons.mp this
    have hnew : ∀ a b, s.Created a b → b ∈ subtasks.tasks → a = t ∨ a ∈ subtasks.tasks := by
      intro a b hab hb
      have := h₂.chief_mem hb
      rw [hchief a b hab] at this
      exact List.mem_cons.mp this
    have htop : ∀ a, s.Created a t → a = c := by
      intro a hat
      rw [← hchief a t hat, ht]
    -- no creation leads from one part of the forest into another
    have hclosed₁ : ∀ a b, s.Created a b → a ∈ older.tasks → b ∈ older.tasks := by
      intro a b hab ha
      obtain hb | rfl | hb := hclosed a b hab (.inl ha)
      · exact hb
      · exact absurd (htop a hab ▸ ha) hc₁
      · obtain rfl | ha' := hnew a b hab hb
        · exact absurd rfl (hdisj _ ha _ (.inl rfl))
        · exact absurd rfl (hdisj _ ha _ (.inr ha'))
    have hclosed₂ : ∀ a b, s.Created a b → a ∈ subtasks.tasks → b ∈ subtasks.tasks := by
      intro a b hab ha
      obtain hb | rfl | hb := hclosed a b hab (.inr (.inr ha))
      · obtain rfl | ha' := hold a b hab hb
        · exact absurd ha hc₂
        · exact absurd rfl (hdisj _ ha' _ (.inr ha))
      · exact absurd (htop a hab ▸ ha) hc₂
      · exact hb
    have hclosed₃ : ∀ a b, s.Created a b → a ∈ t :: subtasks.tasks → b ∈ t :: subtasks.tasks := by
      intro a b hab ha
      obtain hb | rfl | hb := hclosed a b hab (.inr (List.mem_cons.mp ha))
      · obtain rfl | ha' := hold a b hab hb
        · obtain e | ha := List.mem_cons.mp ha
          · exact absurd e hct
          · exact absurd ha hc₂
        · exact absurd rfl (hdisj _ ha' _ (List.mem_cons.mp ha))
      · exact List.mem_cons_self
      · exact List.mem_cons_of_mem _ hb
    have hih₁ := ih₁ h₁ (List.nodup_cons.mpr ⟨hc₁, hnd₁⟩) hclosed₁
    have hih₂ := ih₂ h₂ (List.nodup_cons.mpr ⟨ht₂, hnd₂⟩) hclosed₂
    have hfirst : PostOrder s (lookupFirstThread t :: older.visits) := by
      refine List.pairwise_cons.mpr ⟨fun y hy _ hb => ?_, hih₁⟩
      have hyt := h₁.visits_task hy
      exact hdisj _ hyt _ (List.mem_cons.mp (hb.mem List.mem_cons_self hclosed₃)) rfl
    refine ho.reverse.postOrder_append (hih₂.append hfirst fun x hx y hy _ hb => ?_)
    have hmem := hb.mem (h₂.visits_task hx) hclosed₂
    obtain rfl | hy := List.mem_cons.mp hy
    · exact ht₂ hmem
    · exact hdisj _ (h₁.visits_task hy) _ (.inr hmem) rfl

end Forest

section
variable (hv : View chief s (p.plug (.snoc older t subtasks others)).flat)
  (h : Tree chief (p.plug (.snoc older t subtasks others))) (ht : t ≠ Config.kernelTaskno)
include hv h

theorem View.created {a b : TaskNum} (hab : s.Created a b) :
    b ∈ (p.plug (.snoc older t subtasks others)).tasks ∧ chief b = a := by
  obtain ⟨hb, hmem⟩ := (hv.lives b).mp (Kernel.lives_iff.mpr ⟨a, hab⟩)
  refine ⟨h.under.task_mem hmem, ?_⟩
  have hspace := hv.spaces_eq hmem hb
  rw [lookupFirstThread_task, hab] at hspace
  exact (SpaceRegistry.space.inj hspace).symm

include ht

/-- What the tasks in a part of the tree create is in that part. -/
theorem View.created_mem {a b : TaskNum} (hab : s.Created a b) (ha : a ∈ t :: subtasks.tasks) :
    b ∈ t :: subtasks.tasks := by
  obtain ⟨hb, hba⟩ := hv.created h hab
  obtain hb | hb := List.mem_append.mp (Tree.tasks_perm.subset hb)
  · have := (h.remove ht).chief_mem hb
    rw [hba] at this
    exact absurd ha (h.disjoint this)
  · exact hb

/-- The tasks that a task has transitively created are the ones below it in the tree. -/
theorem View.below_iff : s.Below t u ↔ u ∈ t :: subtasks.tasks := by
  constructor
  · intro hb
    exact hb.mem List.mem_cons_self fun a b hab ha => hv.created_mem h ht hab ha
  · intro hu
    obtain rfl | hu := List.mem_cons.mp hu
    · exact .refl
    · refine Forest.below_of_mem (Place.under_of_plug h.under).2.2.1 (fun v hv' => ?_) hu
      have hmem : v ∈ (p.plug (.snoc older t subtasks others)).tasks :=
        Tree.tasks_perm.symm.subset (by simp [hv'])
      refine hv.spaces_eq (Forest.mem_tasks hmem) ?_
      rintro rfl
      exact h.kernel_notMem hv'

theorem View.postOrder_topVisits : Forest.PostOrder s (Forest.topVisits t subtasks others) := by
  obtain ⟨-, hc, hsub, ho⟩ := Place.under_of_plug h.under
  have hclosed : ∀ a b, s.Created a b → a ∈ subtasks.tasks → b ∈ subtasks.tasks := by
    intro a b hab ha
    obtain rfl | hb := List.mem_cons.mp (hv.created_mem h ht hab (List.mem_cons_of_mem _ ha))
    · rw [← (hv.created h hab).2] at ha
      exact absurd (List.mem_cons_of_mem _ ha) (h.disjoint (h.chief_top ht))
    · exact hb
  have hvisits := Forest.postOrder_visits hsub h.subtasks_nodup
    (fun a b hab => (hv.created h hab).2) hclosed
  refine ho.postOrder_append (hvisits.append (List.pairwise_singleton _ _) fun x hx y hy _ hb => ?_)
  rw [List.mem_singleton.mp hy] at hb
  exact (List.nodup_cons.mp h.subtasks_nodup).1 (hb.mem (hsub.visits_task hx) hclosed)

end

theorem Forest.topVisits_perm :
    (topVisits t subtasks others).Perm (subtasks.flat ++ lookupFirstThread t :: others) := by
  refine List.perm_iff_count.mpr fun x => ?_
  have h := (visits_perm (F := subtasks)).count_eq x
  simp only [topVisits, List.count_append, List.count_cons, List.count_nil]
  omega

theorem filter_notMem_middle {α : Type} [DecidableEq α] {A m B : List α}
    (h : (A ++ (m ++ B)).Nodup) : (A ++ (m ++ B)).filter (· ∉ m) = A ++ B := by
  simp only [List.nodup_append, List.mem_append] at h
  obtain ⟨-, ⟨-, -, hmB⟩, hA⟩ := h
  rw [List.filter_append, List.filter_append]
  have hmid : m.filter (· ∉ m) = [] := List.filter_eq_nil_iff.mpr fun x hx => by simpa using hx
  have hleft : A.filter (· ∉ m) = A := by
    refine List.filter_eq_self.mpr fun x hx => ?_
    simpa using fun e => hA x hx x (.inl e) rfl
  have hright : B.filter (· ∉ m) = B := by
    refine List.filter_eq_self.mpr fun x hx => ?_
    simpa using fun e => hmB x e x hx rfl
  rw [hmid, hleft, hright, List.nil_append]

/-- The threads of a task and of the tasks below it are together in the present list. -/
theorem Tree.mem_block (h : Tree chief (p.plug (.snoc older t subtasks others)))
    (ht : t ≠ Config.kernelTaskno) : x ∈ subtasks.flat ++ lookupFirstThread t :: others ↔
      x ∈ (p.plug (.snoc older t subtasks others)).flat ∧ x.task ∈ t :: subtasks.tasks := by
  obtain ⟨-, -, hsub, ho⟩ := Place.under_of_plug h.under
  have hout := h.outside ht
  simp only [Place.plug_flat, Forest.flat] at hout ⊢
  constructor
  · intro hx
    refine ⟨by simp only [List.mem_append] at hx ⊢; tauto, ?_⟩
    simp only [List.mem_append, List.mem_cons] at hx ⊢
    obtain hx | rfl | hx := hx
    · exact .inr (hsub.task_mem hx)
    · exact .inl rfl
    · exact .inl (ho x hx).1
  · rintro ⟨hx, hxt⟩
    have hnot : x ∉ p.left ++ (older.flat ++ p.right) := fun e => (hout x e).1 hxt
    simp only [List.mem_append] at hx hnot ⊢
    tauto

/-- Deleting a subtask of `c` visits every thread of that task and of the tasks it has transitively
created once and no other thread, each first thread after all threads below it, and takes them out
of the present list. -/
theorem killTask_subtree (hr : s.Reachable) (hsub : s.spaces t = .space c) :
    ∃ l vs s', PresentList s l ∧ (∃ N, ∀ n ≥ N, s.killTask n c t = some (true, vs, s')) ∧
      vs.Nodup ∧ (∀ x, x ∈ vs ↔ x ∈ l ∧ s.Below t x.task) ∧
      (vs.Pairwise fun x y => x.lthread = 0 → ¬ s.Below x.task y.task) ∧
      PresentList s' (l.filter (· ∉ vs)) := by
  obtain ⟨chief, W, hW, hv⟩ := hr.inv
  obtain ⟨htk, hmem⟩ := (hv.lives t).mp (Kernel.lives_iff.mpr ⟨c, hsub⟩)
  obtain ⟨p, older, subtasks, others, rfl⟩ := Forest.exists_place (hW.under.task_mem hmem)
  rw [lookupFirstThread_task] at hW hv
  have hc : chief t = c := (hv.created hW hsub).2
  obtain ⟨s', hrun, hv', -⟩ := hv.killTask hW htk
  rw [hc] at hrun
  have hmem_vs : ∀ x, x ∈ Forest.topVisits t subtasks others ↔
      x ∈ subtasks.flat ++ lookupFirstThread t :: others := fun x => Forest.topVisits_perm.mem_iff
  have hflat : (p.plug (.snoc older t subtasks others)).flat =
      (p.left ++ older.flat) ++ ((subtasks.flat ++ lookupFirstThread t :: others) ++ p.right) := by
    simp [Place.plug_flat, Forest.flat]
  have hnd := hv.nodup
  rw [hflat] at hnd
  refine ⟨_, _, s', hv.toPresentList, hrun, ?_, fun x => ?_, hv.postOrder_topVisits hW htk, ?_⟩
  · have hblock := (List.nodup_append.mp (List.nodup_append.mp hnd).2.1).1
    exact Forest.topVisits_perm.nodup_iff.mpr hblock
  · rw [hmem_vs, hv.below_iff hW htk]
    exact hW.mem_block htk
  · have hrest : (p.plug older).flat = (p.left ++ older.flat) ++ p.right := by
      simp [Place.plug_flat]
    simp only [hmem_vs]
    rw [hflat, filter_notMem_middle hnd, ← hrest]
    exact hv'.toPresentList

/-- The boot task deletes a task that it has created before. -/
theorem killTask_subtree_boot : ∃ s : Kernel, s.Reachable ∧ s.spaces 5 = .space 4 ∧
    ∃ l vs s', PresentList s l ∧ (∃ N, ∀ n ≥ N, s.killTask n 4 5 = some (true, vs, s')) ∧
      vs.Nodup ∧ (∀ x, x ∈ vs ↔ x ∈ l ∧ s.Below 5 x.task) ∧
      (vs.Pairwise fun x y => x.lthread = 0 → ¬ s.Below x.task y.task) ∧
      PresentList s' (l.filter (· ∉ vs)) := by
  let s₁ := Kernel.bootstrap.initWorkload.get (by decide +kernel)
  let s₂ := (s₁.sysTaskNewDead ⟨4, 0⟩ 5 .create .enough).get (by decide +kernel)
  have h₁ : s₁.Reachable := .boot (Option.some_get _).symm
  have hself : s₁.inPresentList ⟨4, 0⟩ = true := by decide +kernel
  have hchief : ¬ s₁.chief 5 ≠ 4 := by decide +kernel
  have hdead : ¬ s₁.lives 5 = true := by decide +kernel
  have hstep : s₁.Step ⟨4, 0⟩ (.taskNew 5 .create .enough) s₂ := by
    refine ⟨0, fun n _ => ?_⟩
    show s₁.sysTaskNew n ⟨4, 0⟩ 5 .create .enough = some s₂
    rw [Kernel.sysTaskNew, if_neg hchief, if_neg hdead]
    exact (Option.some_get _).symm
  have h₂ : s₂.Reachable := .step h₁ hself (by decide) hstep
  have hsub : s₂.spaces 5 = .space 4 := by decide +kernel
  exact ⟨s₂, h₂, hsub, killTask_subtree h₂ hsub⟩

end L4env.Fiasco
