import L4env.Roottask.Requests

/-!
# Requests to the roottask: what they change

`Proper` says that a request stays within the tables and changes entries only between free and owned by
the sender, or by the task that a request to free everything names. Two things go wrong: interrupt
numbers and the ends of port ranges are not checked, and for a sender above `O_MAX` the entries are those
of another task.
-/

namespace L4env.Roottask

variable {t t' t₁ t₂ : Tables} {c tid : Fin RMGR_TASK_MAX} {k K : Kind} {o : Owner} {n i : Nat}
  {idle : Prop} {S S' : Nat → Prop} {num : BitVec 32}

/-- The task that a request names, to free everything it has. -/
def Request.named : Request → Option (Fin RMGR_TASK_MAX)
  | .freeTaskAll tid _ | .freeIrqAll tid => some tid
  | _ => none

/-- Free, or owned by the task `c` or by the named one. -/
def Request.Permits (r : Request) (c : Fin RMGR_TASK_MAX) (o : Owner) : Prop :=
  o = O_FREE ∨ (o : Nat) = c ∨ ∃ tid, r.named = some tid ∧ (o : Nat) = tid

/-- No access is outside of a table, and the entries that change are the sender's before and after. -/
def Proper (t : Tables) (c : Fin RMGR_TASK_MAX) (r : Request) : Prop :=
  ∃ t', handleRequest t c r = some t' ∧ ∀ k i, t'.owner k i ≠ t.owner k i →
    r.Permits c (t.owner k i) ∧ r.Permits c (t'.owner k i)

namespace Tables

/-- The entry is free, and the owner can have it. -/
def Takes (t : Tables) (k : Kind) (n : Nat) (o : Owner) : Prop :=
  t.owner k n = O_FREE ∧ o ≠ O_FREE ∧ t.quotaAllows k o n = true

/-- The entry belongs to the owner. -/
def Holds (t : Tables) (k : Kind) (n : Nat) (o : Owner) : Prop := t.owner k n = o ∧ o ≠ O_FREE

/-- Entries change only between free and owned by `o`. -/
def Moves (t t' : Tables) (o : Owner) : Prop :=
  ∀ k i, t'.owner k i ≠ t.owner k i →
    (t.owner k i = O_FREE ∨ t.owner k i = o) ∧ (t'.owner k i = O_FREE ∨ t'.owner k i = o)

theorem Moves.same (h : t'.owner = t.owner) : Moves t t' o :=
  fun k i hne => absurd (congrFun (congrFun h k) i) hne

theorem Moves.trans (h : Moves t t₁ o) (h' : Moves t₁ t₂ o) : Moves t t₂ o := by
  intro k i hne
  by_cases h₁ : t₁.owner k i = t.owner k i
  · rw [← h₁] at hne ⊢
    exact h' k i hne
  · by_cases h₂ : t₂.owner k i = t₁.owner k i
    · rw [h₂]
      exact h k i h₁
    · exact ⟨(h k i h₁).1, (h' k i h₂).2⟩

/-- The entries move, and none does exactly if `idle`. -/
structure Effect (t t' : Tables) (o : Owner) (idle : Prop) : Prop where
  moves : Moves t t' o
  idle_iff : t'.owner = t.owner ↔ idle

theorem Effect.same (h : t'.owner = t.owner) (hidle : idle) : Effect t t' o idle :=
  ⟨.same h, iff_of_true h hidle⟩

theorem Effect.congr (h : Effect t t' o idle) (h' : t₁.owner = t'.owner) : Effect t t₁ o idle := by
  obtain ⟨hmoves, hidle⟩ := h
  unfold Moves at hmoves
  rw [← h'] at hmoves hidle
  exact ⟨hmoves, hidle⟩

theorem Effect.imp_idle {idle' : Prop} (h : Effect t t' o idle) (hiff : idle ↔ idle') : Effect t t' o idle' :=
  ⟨h.moves, h.idle_iff.trans hiff⟩

/-! ## Entries -/

@[simp] theorem setQuota_owner (j : Fin RMGR_TASK_MAX) (q : TableQuota) :
    (t.setQuota j q).owner = t.owner := rfl

@[simp] theorem charge_owner : (t.charge k o).owner = t.owner := by
  cases k <;> rfl

theorem setOwner_apply : (t.setOwner K n o).owner k i = if k = K ∧ i = n then o else t.owner k i := by
  rw [show (t.setOwner K n o).owner =
    Function.update t.owner K (Function.update (t.owner K) n o) from rfl]
  by_cases hk : k = K
  · subst hk
    by_cases hi : i = n
    · rw [hi, if_pos ⟨rfl, rfl⟩, Function.update_self, Function.update_self]
    · rw [if_neg fun h => hi h.2, Function.update_self, Function.update_of_ne hi]
  · rw [if_neg fun h => hk h.1, Function.update_of_ne hk]

theorem resetPagefault_spec (hn : n < RMGR_TASK_MAX) :
    ∃ t', t.resetPagefault n = some t' ∧ t'.owner = t.owner :=
  ⟨_, dif_pos hn, rfl⟩

/-- A free entry goes to the owner. -/
theorem take_effect (hfree : t.owner K n = O_FREE) (h₁ : t₁.owner = (t.setOwner K n o).owner) :
    Effect t t₁ o (o = O_FREE) := by
  have heffect : Effect t (t.setOwner K n o) o (o = O_FREE) := by
    refine ⟨fun k i hch => ?_, fun heq => ?_, fun heq => ?_⟩
    · rw [setOwner_apply] at hch ⊢
      by_cases hc : k = K ∧ i = n
      · obtain ⟨rfl, rfl⟩ := hc
        exact ⟨.inl hfree, .inr (if_pos ⟨rfl, rfl⟩)⟩
      · rw [if_neg hc] at hch
        exact absurd rfl hch
    · have hself : (t.setOwner K n o).owner K n = t.owner K n := congrFun (congrFun heq K) n
      rwa [setOwner_apply, if_pos ⟨rfl, rfl⟩, hfree] at hself
    · funext k i
      rw [setOwner_apply]
      split
      · rename_i hc
        rw [hc.1, hc.2, hfree, heq]
      · rfl
  exact heffect.congr h₁

theorem allocEntry_effect : Effect t (t.allocEntry K n o).2 o (¬t.Takes K n o) := by
  unfold allocEntry Takes
  by_cases hown : t.owner K n = o
  · rw [if_pos hown]
    exact .same rfl fun h => h.2.1 (hown.symm.trans h.1)
  rw [if_neg hown]
  by_cases hfree : t.owner K n = O_FREE
  · rw [if_neg (not_not.mpr hfree)]
    cases hq : t.quotaAllows K o n with
    | false => exact .same rfl fun h => by cases h.2.2
    | true =>
      have hne : o ≠ O_FREE := fun h => hown (hfree.trans h.symm)
      have h₁ : ((t.charge K o).setOwner K n o).owner = (t.setOwner K n o).owner := by
        rw [setOwner, setOwner, charge_owner]
      exact (take_effect hfree h₁).imp_idle (iff_of_false hne fun h => h ⟨hfree, hne, rfl⟩)
  · rw [if_pos hfree]
    exact .same rfl fun h => hfree h.1

/-- The entries `S` of one table that belong to `o` become free. -/
structure Frees (t t' : Tables) (K : Kind) (S : Nat → Prop) (o : Owner) : Prop where
  freed : ∀ i, S i → t.owner K i = o → t'.owner K i = O_FREE
  other : ∀ k i, ¬(k = K ∧ S i ∧ t.owner k i = o) → t'.owner k i = t.owner k i

theorem Frees.effect (h : Frees t t' K S o) : Effect t t' o (∀ i, S i → ¬t.Holds K i o) := by
  refine ⟨fun k i hch => ?_, fun heq i hi hheld => ?_, fun hidle => ?_⟩
  · by_cases hc : k = K ∧ S i ∧ t.owner k i = o
    · obtain ⟨rfl, hi, hown⟩ := hc
      exact ⟨.inr hown, .inl (h.freed i hi hown)⟩
    · exact absurd (h.other k i hc) hch
  · have hfree := h.freed i hi hheld.1
    rw [heq, hheld.1] at hfree
    exact hheld.2 hfree
  · funext k i
    by_cases hc : k = K ∧ S i ∧ t.owner k i = o
    · obtain ⟨rfl, hi, hown⟩ := hc
      have hfree : o = O_FREE := by
        by_contra hne
        exact hidle i hi ⟨hown, hne⟩
      rw [h.freed i hi hown, hown, hfree]
    · exact h.other k i hc

theorem Frees.trans (h : Frees t t₁ K S o) (h' : Frees t₁ t₂ K S' o) :
    Frees t t₂ K (fun i => S i ∨ S' i) o := by
  refine ⟨fun i hi hown => ?_, fun k i hc => ?_⟩
  · by_cases hs : S i
    · have hfree := h.freed i hs hown
      by_cases hs' : S' i ∧ t₁.owner K i = o
      · exact h'.freed i hs'.1 hs'.2
      · exact (h'.other K i fun hc => hs' hc.2).trans hfree
    · exact h'.freed i (hi.resolve_left hs) ((h.other K i fun hc => hs hc.2.1).trans hown)
  · have hsame := h.other k i fun hcc => hc ⟨hcc.1, .inl hcc.2.1, hcc.2.2⟩
    rw [h'.other k i fun hcc => hc ⟨hcc.1, .inr hcc.2.1, hsame.symm.trans hcc.2.2⟩, hsame]

theorem Frees.congr (h : Frees t t' K S o) (hS : ∀ i, S' i ↔ S i) : Frees t t' K S' o :=
  ⟨fun i hi => h.freed i ((hS i).mp hi), fun k i hc => h.other k i (by rwa [← hS i])⟩

theorem Frees.refl (h : ∀ i, ¬S i) : Frees t t K S o :=
  ⟨fun i hi => absurd hi (h i), fun _ _ _ => rfl⟩

theorem freeEntry_frees : Frees t (t.freeEntry K n o).2 K (· = n) o := by
  unfold freeEntry
  by_cases hfree : t.owner K n = O_FREE
  · rw [if_neg fun h => h.2 hfree, if_neg (not_not.mpr hfree)]
    refine ⟨?_, fun k i _ => rfl⟩
    rintro i rfl -
    exact hfree
  by_cases hown : t.owner K n = o
  · rw [if_neg fun h => h.1 hown, if_pos hfree]
    refine ⟨?_, fun k i hc => ?_⟩
    · rintro i rfl -
      exact setOwner_apply.trans (if_pos ⟨rfl, rfl⟩)
    · refine setOwner_apply.trans (if_neg fun h => hc ⟨h.1, h.2, ?_⟩)
      rw [h.1, h.2, hown]
  · rw [if_pos ⟨hown, hfree⟩]
    refine ⟨?_, fun k i _ => rfl⟩
    rintro i rfl h
    exact absurd h hown

theorem freeEntry_effect : Effect t (t.freeEntry K n o).2 o (¬t.Holds K n o) :=
  freeEntry_frees.effect.imp_idle ⟨fun h => h n rfl, fun h _ hi => hi ▸ h⟩

/-- A free entry that was taken is given back. -/
theorem freeEntry_undo (hfree : t.owner K n = O_FREE) (h₁ : t₁.owner = (t.setOwner K n o).owner) :
    (t₁.freeEntry K n o).2.owner = t.owner := by
  have hfrees := @freeEntry_frees t₁ K o n
  funext k i
  by_cases hc : k = K ∧ i = n
  · obtain ⟨rfl, rfl⟩ := hc
    rw [hfrees.freed i rfl (by rw [h₁, setOwner_apply, if_pos ⟨rfl, rfl⟩]), hfree]
  · rw [hfrees.other k i fun hcc => hc ⟨hcc.1, hcc.2.1⟩, h₁, setOwner_apply, if_neg hc]

theorem freeEntry_congr (h : t₁.owner = t.owner) :
    (t₁.freeEntry K n o).2.owner = (t.freeEntry K n o).2.owner := by
  unfold freeEntry
  rw [h]
  split
  · exact h
  split
  · rw [show (true, t₁.setOwner K n O_FREE).2.owner =
      Function.update t₁.owner K (Function.update (t₁.owner K) n O_FREE) from rfl, h]
    rfl
  · exact h

/-- Nothing changes where an entry is allocated and given back unless `done`. -/
def Keeps (t : Tables) (k : Kind) (n : Nat) (o : Owner) (done : Bool) : Prop :=
  if done = true then ¬t.Takes k n o else ¬t.Holds k n o

/-- An allocation that is given back where what follows fails. -/
theorem acquire_effect (done : Bool) (h₁ : t₁.owner = (t.allocEntry K n o).2.owner) :
    Effect t (if (!(t.allocEntry K n o).1) = true then (t.allocEntry K n o).2
        else if done = true then t₁ else (t₁.freeEntry K n o).2) o
      (t.Keeps K n o done) := by
  unfold Keeps
  cases done with
  | true =>
    rw [if_pos rfl, if_pos rfl]
    split
    · exact allocEntry_effect
    · exact allocEntry_effect.congr h₁
  | false =>
    rw [if_neg Bool.false_ne_true, if_neg Bool.false_ne_true]
    unfold allocEntry at h₁ ⊢
    by_cases hown : t.owner K n = o
    · rw [if_pos hown] at h₁ ⊢
      exact freeEntry_effect.congr (freeEntry_congr h₁)
    rw [if_neg hown] at h₁ ⊢
    by_cases hfree : t.owner K n = O_FREE
    · rw [if_neg (not_not.mpr hfree)] at h₁ ⊢
      cases hq : t.quotaAllows K o n with
      | false => exact .same rfl fun h => hown h.1
      | true =>
        rw [hq] at h₁
        refine .same (freeEntry_undo hfree (h₁.trans ?_)) fun h => hown h.1
        show ((t.charge K o).setOwner K n o).owner = _
        rw [setOwner, setOwner, charge_owner]
    · rw [if_pos hfree]
      exact .same rfl fun h => hown h.1

theorem access_lt {α : Type} {r : α} (h : n < k.max) : access k n r = some r := if_pos h

theorem taskAlloc_lt (h : n < RMGR_TASK_MAX) : t.taskAlloc n o = some (t.allocEntry .task n o) :=
  (if_neg (Nat.not_le.mpr h)).trans (access_lt h)

theorem taskFree_lt (h : n < RMGR_TASK_MAX) : t.taskFree n o = some (t.freeEntry .task n o) :=
  (if_neg (Nat.not_le.mpr h)).trans (access_lt h)

/-! ## Loops -/

theorem freePorts_frees (h : i + n ≤ RMGR_IO_MAX) : ∃ t', t.freePorts o i n = some t' ∧
    Frees t t' .port (fun j => i ≤ j ∧ j < i + n) o := by
  induction n generalizing t i with
  | zero => exact ⟨t, rfl, .refl fun j hj => by omega⟩
  | succ n ih =>
    obtain ⟨t', hrun, hrest⟩ := ih (t := (t.freeEntry .port i o).2) (i := i + 1) (by omega)
    refine ⟨t', ?_, (freeEntry_frees.trans hrest).congr fun j => by omega⟩
    have hi : i < Kind.port.max := show i < RMGR_IO_MAX by omega
    rw [freePorts, portFree, access_lt hi]
    exact hrun

theorem freePorts_outside (hi : i ≤ RMGR_IO_MAX) (h : RMGR_IO_MAX < i + n) :
    t.freePorts o i n = none := by
  induction n generalizing t i with
  | zero => omega
  | succ n ih =>
    rw [freePorts, portFree]
    by_cases hlt : i < RMGR_IO_MAX
    · rw [access_lt (show i < Kind.port.max from hlt)]
      exact ih (by omega) (by omega)
    · rw [access, if_neg (show ¬i < Kind.port.max from hlt)]
      rfl

theorem taskFreeOwned_frees (h : i + n ≤ RMGR_TASK_MAX) : ∃ t', t.taskFreeOwned o i n = some t' ∧
    Frees t t' .task (fun j => i ≤ j ∧ j < i + n) o := by
  induction n generalizing t i with
  | zero => exact ⟨t, rfl, .refl fun j hj => by omega⟩
  | succ n ih =>
    obtain ⟨t', hrun, hrest⟩ := ih (t := (t.freeEntry .task i o).2) (i := i + 1) (by omega)
    refine ⟨t', ?_, (freeEntry_frees.trans hrest).congr fun j => by omega⟩
    rw [taskFreeOwned, taskFree_lt (by omega)]
    exact hrun

/-- Entries of the task `tid` become free, and nothing else changes. -/
def Gone (t t' : Tables) (tid : Fin RMGR_TASK_MAX) : Prop :=
  ∀ k i, t'.owner k i ≠ t.owner k i → (t.owner k i : Nat) = tid ∧ t'.owner k i = O_FREE

theorem Gone.same (h : t'.owner = t.owner) : Gone t t' tid :=
  fun k i hne => absurd (congrFun (congrFun h k) i) hne

theorem Gone.trans (h : Gone t t₁ tid) (h' : Gone t₁ t₂ tid) : Gone t t₂ tid := by
  intro k i hne
  by_cases h₁ : t₁.owner k i = t.owner k i
  · rw [← h₁] at hne ⊢
    exact h' k i hne
  · refine ⟨(h k i h₁).1, ?_⟩
    by_cases h₂ : t₂.owner k i = t₁.owner k i
    · rw [h₂]
      exact (h k i h₁).2
    · exact (h' k i h₂).2

theorem freeEntry_gone (hown : (t.owner K n : Nat) = tid) :
    Gone t (t.freeEntry K n (ownerOfTask tid)).2 tid := by
  intro k i hne
  have hfrees := @freeEntry_frees t K (ownerOfTask tid) n
  by_cases hc : k = K ∧ i = n ∧ t.owner k i = ownerOfTask tid
  · obtain ⟨rfl, rfl, heq⟩ := hc
    exact ⟨hown, hfrees.freed i rfl heq⟩
  · exact absurd (hfrees.other k i hc) hne

theorem freeTaskAll_gone (created : Nat → Bool) (h : i + n ≤ RMGR_TASK_MAX) :
    ∃ t', t.freeTaskAll tid created i n = some t' ∧ Gone t t' tid := by
  induction n generalizing t i with
  | zero => exact ⟨t, rfl, .same rfl⟩
  | succ n ih =>
    rw [freeTaskAll]
    by_cases hown : (t.owner .task i : Nat) = tid
    · rw [if_pos hown]
      obtain ⟨t₁, hreset, h₁⟩ := @resetPagefault_spec t i (by omega)
      rw [hreset, Option.bind_eq_bind, Option.bind_some]
      cases created i with
      | false => exact ⟨t₁, rfl, .same h₁⟩
      | true =>
        have hgone : Gone t₁ (t₁.freeEntry .task i (ownerOfTask tid)).2 tid :=
          freeEntry_gone (by rw [h₁, hown])
        obtain ⟨t', hrun, hrest⟩ :=
          ih (t := (t₁.freeEntry .task i (ownerOfTask tid)).2) (i := i + 1) (by omega)
        refine ⟨t', ?_, (Gone.same h₁).trans (hgone.trans hrest)⟩
        rw [taskFree_lt (by omega)]
        exact hrun
    · rw [if_neg hown]
      exact ih (by omega)

theorem freeIrqAll_gone (h : i + n ≤ RMGR_IRQ_MAX) :
    ∃ t', t.freeIrqAll tid i n = some t' ∧ Gone t t' tid := by
  induction n generalizing t i with
  | zero => exact ⟨t, rfl, .same rfl⟩
  | succ n ih =>
    rw [freeIrqAll]
    by_cases hown : (t.owner .irq i : Nat) = tid
    · rw [if_pos hown]
      obtain ⟨t', hrun, hrest⟩ :=
        ih (t := (t.freeEntry .irq i (ownerOfTask tid)).2) (i := i + 1) (by omega)
      refine ⟨t', ?_, (freeEntry_gone hown).trans hrest⟩
      have hi : i < Kind.irq.max := show i < RMGR_IRQ_MAX by omega
      rw [irqFree, access_lt hi]
      exact hrun
    · rw [if_neg hown]
      exact ih (by omega)

/-- A port from `i` on belongs to somebody else. -/
def Blocked (t : Tables) (o : Owner) (i : Nat) : Prop :=
  ∃ j, i ≤ j ∧ j < RMGR_IO_MAX ∧ t.owner .port j ≠ O_FREE ∧ t.owner .port j ≠ o

theorem allocEntry_port (t : Tables) (o : Owner) (i : Nat) :
    (t.owner .port i ≠ O_FREE ∧ t.owner .port i ≠ o ∧ t.allocEntry .port i o = (false, t)) ∨
      ¬(t.owner .port i ≠ O_FREE ∧ t.owner .port i ≠ o) ∧ (t.allocEntry .port i o).1 = true ∧
        ∀ j, j ≠ i → (t.allocEntry .port i o).2.owner .port j = t.owner .port j := by
  unfold allocEntry
  by_cases hown : t.owner .port i = o
  · rw [if_pos hown]
    exact .inr ⟨fun h => h.2 hown, rfl, fun j _ => rfl⟩
  rw [if_neg hown]
  by_cases hfree : t.owner .port i = O_FREE
  · rw [if_neg (not_not.mpr hfree)]
    refine .inr ⟨fun h => h.1 hfree, rfl, fun j hj => ?_⟩
    exact setOwner_apply.trans (if_neg fun h => hj h.2)
  · rw [if_pos hfree]
    exact .inl ⟨hfree, hown, rfl⟩

theorem allocPorts_spec {fault : Nat × Nat} (hi : i ≤ RMGR_IO_MAX) :
    ((i + n ≤ RMGR_IO_MAX ∨ t.Blocked (ownerOfTask c) i) →
      ∃ t', t.allocPorts c fault i n = some t' ∧ Moves t t' (ownerOfTask c)) ∧
    (¬(i + n ≤ RMGR_IO_MAX ∨ t.Blocked (ownerOfTask c) i) → t.allocPorts c fault i n = none) := by
  induction n generalizing t i with
  | zero => exact ⟨fun _ => ⟨t, rfl, .same rfl⟩, fun h => absurd (.inl hi) h⟩
  | succ n ih =>
    rw [allocPorts, portAlloc]
    by_cases hlt : i < RMGR_IO_MAX
    · rw [access_lt (show i < Kind.port.max from hlt), Option.bind_eq_bind, Option.bind_some]
      obtain ⟨hfree, hown, halloc⟩ | ⟨hok, halloc, hother⟩ := allocEntry_port t (ownerOfTask c) i
      · rw [halloc]
        exact ⟨fun _ => ⟨_, rfl, .same rfl⟩, fun h => absurd (.inr ⟨i, le_rfl, hlt, hfree, hown⟩) h⟩
      · have heffect := @allocEntry_effect t .port (ownerOfTask c) i
        generalize t.allocEntry .port i (ownerOfTask c) = r at halloc hother heffect
        rw [halloc]
        have hblocked : r.2.Blocked (ownerOfTask c) (i + 1) ↔ t.Blocked (ownerOfTask c) i := by
          constructor
          · rintro ⟨j, hle, hlt, h⟩
            rw [hother j (by omega)] at h
            exact ⟨j, by omega, hlt, h⟩
          · rintro ⟨j, hle, hlt, h⟩
            have hne : j ≠ i := by
              rintro rfl
              exact hok h
            refine ⟨j, by omega, hlt, ?_⟩
            rwa [hother j hne]
        obtain ⟨hsome, hnone⟩ := ih (t := r.2) (i := i + 1) hlt
        rw [hblocked, Nat.add_right_comm, Nat.add_assoc] at hsome hnone
        refine ⟨fun h => ?_, hnone⟩
        obtain ⟨t', hrun, hmoves⟩ := hsome h
        exact ⟨t', hrun, heffect.moves.trans hmoves⟩
    · rw [access, if_neg (show ¬i < Kind.port.max from hlt)]
      refine ⟨?_, fun _ => rfl⟩
      rintro (h | ⟨j, hle, hj, -⟩)
      · omega
      · omega

theorem firstFree_none (h : t.firstFree i n = none) :
    ∀ j, i ≤ j → j < i + n → t.owner .task j ≠ O_FREE := by
  induction n generalizing i with
  | zero => intro j hle hlt; omega
  | succ n ih =>
    rw [firstFree] at h
    by_cases hfree : t.owner .task i = O_FREE
    · rw [if_pos hfree] at h
      cases h
    · rw [if_neg hfree] at h
      intro j hle hlt
      obtain rfl | hne := eq_or_ne j i
      · exact hfree
      · exact ih h j (by omega) (by omega)

theorem firstFree_some {j : Nat} (h : t.firstFree i n = some j) :
    i ≤ j ∧ j < i + n ∧ t.owner .task j = O_FREE ∧ ∀ j', i ≤ j' → j' < j → t.owner .task j' ≠ O_FREE := by
  induction n generalizing i with
  | zero => cases h
  | succ n ih =>
    rw [firstFree] at h
    by_cases hfree : t.owner .task i = O_FREE
    · rw [if_pos hfree] at h
      cases h
      exact ⟨le_rfl, by omega, hfree, fun j' hle hlt => by omega⟩
    · rw [if_neg hfree] at h
      obtain ⟨hle, hlt, hj, hbefore⟩ := ih h
      refine ⟨by omega, by omega, hj, fun j' hle' hlt' => ?_⟩
      obtain rfl | hne := eq_or_ne j' i
      · exact hfree
      · exact hbefore j' (by omega) hlt'

/-! ## The requests of the resource manager -/

theorem getTask_effect {created : Bool} : ∃ t', t.getTask c num created = some t' ∧
    Effect t t' (ownerOfTask c)
      (num.toNat < RMGR_TASK_MAX → t.Keeps .task num.toNat (ownerOfTask c) created) := by
  have hnum := BitVec.toInt_eq_toNat_cond num
  rw [getTask]
  by_cases hlt : num.toNat < RMGR_TASK_MAX
  · rw [if_neg (by split at hnum <;> omega), taskAlloc_lt hlt]
    obtain ⟨t₁, hreset, h₁⟩ :=
      @resetPagefault_spec (t.allocEntry .task num.toNat (ownerOfTask c)).2 num.toNat hlt
    refine ⟨_, ?_, (acquire_effect created h₁).imp_idle ⟨fun h _ => h, fun h => h hlt⟩⟩
    simp only [Option.bind_eq_bind, Option.bind_some, hreset, taskFree_lt hlt, apply_ite some]
  · refine ⟨t, ?_, .same rfl fun h => absurd h hlt⟩
    split
    · rfl
    · rw [taskAlloc, if_pos (Nat.not_lt.mp hlt)]
      rfl

theorem setSmallSpace_effect {size : Nat} {invalid : Bool} :
    ∃ t', t.setSmallSpace c size invalid num = some t' ∧
      Effect t t' (ownerOfTask c) (invalid = false → size ≠ 0 → num.toNat < 128 / size →
        ¬t.Takes .small num.toNat (ownerOfTask c)) := by
  rw [setSmallSpace]
  cases invalid with
  | true => exact ⟨t, rfl, .same rfl fun h => by cases h⟩
  | false =>
    rw [if_neg Bool.false_ne_true]
    by_cases hout : size = 0 ∨ 128 / size ≤ num.toNat
    · rw [if_pos hout]
      refine ⟨t, rfl, .same rfl fun _ hsize hlt => ?_⟩
      exact absurd (hout.resolve_left hsize) (Nat.not_le.mpr hlt)
    · obtain ⟨hsize, hlt⟩ := not_or.mp hout
      have hlt := Nat.not_le.mp hlt
      have hmax : num.toNat < Kind.small.max := hlt.trans_le (Nat.div_le_self 128 size)
      rw [if_neg hout, smallAlloc, access_lt hmax]
      exact ⟨_, rfl, allocEntry_effect.imp_idle ⟨fun h _ _ _ => h, fun h => h rfl hsize hlt⟩⟩

theorem taskNew_effect {pagerNil created : Bool} : ∃ t', t.taskNew c tid pagerNil created = some t' ∧
    Effect t t' (ownerOfTask c)
      (pagerNil = false → t.Keeps .task tid (ownerOfTask c) created) := by
  rw [taskNew]
  cases pagerNil with
  | true => exact ⟨t, rfl, .same rfl fun h => by cases h⟩
  | false =>
    rw [if_neg Bool.false_ne_true, taskAlloc_lt tid.isLt]
    cases created with
    | true =>
      have h₁ : ((t.allocEntry .task tid (ownerOfTask c)).2.quotaReset (ownerOfTask tid)).owner =
        (t.allocEntry .task tid (ownerOfTask c)).2.owner := rfl
      refine ⟨_, ?_, (acquire_effect true h₁).imp_idle ⟨fun h _ => h, fun h => h rfl⟩⟩
      simp only [Option.bind_eq_bind, Option.bind_some, if_true, apply_ite some]
    | false =>
      refine ⟨_, ?_, (acquire_effect false rfl).imp_idle ⟨fun h _ => h, fun h => h rfl⟩⟩
      simp only [Option.bind_eq_bind, Option.bind_some, taskFree_lt tid.isLt, Bool.false_eq_true,
        if_false, apply_ite some]

theorem freeTask_effect : ∃ t', t.freeTask c num = some t' ∧
    Effect t t' (ownerOfTask c)
      (num.toNat < RMGR_TASK_MAX → ¬t.Holds .task num.toNat (ownerOfTask c)) := by
  have hnum := BitVec.toInt_eq_toNat_cond num
  rw [freeTask]
  by_cases hlt : num.toNat < RMGR_TASK_MAX
  · rw [if_neg (by split at hnum <;> omega), taskFree_lt hlt]
    exact ⟨_, rfl, freeEntry_effect.imp_idle ⟨fun h _ => h, fun h => h hlt⟩⟩
  · refine ⟨t, ?_, .same rfl fun h => absurd h hlt⟩
    split
    · rfl
    · rw [taskFree, if_pos (Nat.not_lt.mp hlt)]
      rfl

theorem setTaskId_effect {cfg : Option TableQuota} : ∃ t', t.setTaskId c tid cfg = some t' ∧
    Effect t t' (ownerOfTask c) True := by
  rw [setTaskId]
  split
  · cases cfg with
    | none => exact ⟨t, rfl, .same rfl trivial⟩
    | some q => exact ⟨_, rfl, .same rfl trivial⟩
  · exact ⟨t, rfl, .same rfl trivial⟩

/-- An interrupt number that the signed comparison lets through. -/
theorem irq_cases (num : BitVec 32) : (RMGR_IRQ_MAX : Int) ≤ num.toInt ∧ RMGR_IRQ_MAX ≤ num.toNat ∨
    ¬(RMGR_IRQ_MAX : Int) ≤ num.toInt ∧ 0 ≤ num.toInt ∧ num.toNat < RMGR_IRQ_MAX ∨
    ¬(RMGR_IRQ_MAX : Int) ≤ num.toInt ∧ num.toInt < 0 ∧ RMGR_IRQ_MAX ≤ num.toNat := by
  have hnum := BitVec.toInt_eq_toNat_cond num
  have hlt := num.isLt
  have hmax : ((RMGR_IRQ_MAX : Nat) : Int) = 18 := rfl
  split at hnum
  · omega
  · omega

theorem getIrq_effect {refused : Bool} (h : 0 ≤ num.toInt) : ∃ t', t.getIrq c num refused = some t' ∧
    Effect t t' (ownerOfTask c)
      (num.toNat < RMGR_IRQ_MAX → t.Keeps .irq num.toNat (ownerOfTask c) (!refused)) := by
  rw [getIrq]
  obtain ⟨hge, hout⟩ | ⟨hlow, -, hlt⟩ | ⟨-, hneg, -⟩ := irq_cases num
  · rw [if_pos hge]
    exact ⟨t, rfl, .same rfl fun hlt => absurd hlt (Nat.not_lt.mpr hout)⟩
  · have hmax : num.toNat < Kind.irq.max := hlt
    rw [if_neg hlow, irqAlloc, access_lt hmax]
    refine ⟨_, ?_, (acquire_effect (!refused) rfl).imp_idle ⟨fun h _ => h, fun h => h hlt⟩⟩
    simp only [Option.bind_eq_bind, Option.bind_some, irqFree, access_lt hmax, apply_ite some]
  · omega

theorem getIrq_outside {refused : Bool} (h : num.toInt < 0) : t.getIrq c num refused = none := by
  rw [getIrq]
  obtain ⟨hge, -⟩ | ⟨-, hnonneg, -⟩ | ⟨hlow, -, hout⟩ := irq_cases num
  · omega
  · omega
  · rw [if_neg hlow, irqAlloc, access, if_neg (show ¬num.toNat < Kind.irq.max from Nat.not_lt.mpr hout)]
    rfl

theorem freeIrq_effect (h : 0 ≤ num.toInt) : ∃ t', t.freeIrq c num = some t' ∧
    Effect t t' (ownerOfTask c)
      (num.toNat < RMGR_IRQ_MAX → ¬t.Holds .irq num.toNat (ownerOfTask c)) := by
  rw [freeIrq]
  obtain ⟨hge, hout⟩ | ⟨hlow, -, hlt⟩ | ⟨-, hneg, -⟩ := irq_cases num
  · rw [if_pos hge]
    exact ⟨t, rfl, .same rfl fun hlt => absurd hlt (Nat.not_lt.mpr hout)⟩
  · have hmax : num.toNat < Kind.irq.max := hlt
    rw [if_neg hlow, irqFree, access_lt hmax]
    exact ⟨_, rfl, freeEntry_effect.imp_idle ⟨fun h _ => h, fun h => h hlt⟩⟩
  · omega

theorem freeIrq_outside (h : num.toInt < 0) : t.freeIrq c num = none := by
  rw [freeIrq]
  obtain ⟨hge, -⟩ | ⟨-, hnonneg, -⟩ | ⟨hlow, -, hout⟩ := irq_cases num
  · omega
  · omega
  · rw [if_neg hlow, irqFree, access, if_neg (show ¬num.toNat < Kind.irq.max from Nat.not_lt.mpr hout)]
    rfl

/-! ## The requests of the task server -/

/-- Nothing changes where a free task is looked for. -/
def NextKeeps (t : Tables) (o : Owner) (taskno : Nat) : Prop :=
  if taskno = 0 then ∀ i, t.firstFree 0 RMGR_TASK_MAX = some i → ¬t.Takes .task i o
  else taskno < RMGR_TASK_MAX → t.owner .task taskno = O_FREE → o = O_FREE

/-- A free task goes to the sender, or nothing happens. -/
theorem next_cases (taskno : Nat) :
    (∃ i t₁, (if taskno = 0 then t.taskNext c else t.taskNextExplicit c taskno) = (some i, t₁) ∧
      i < RMGR_TASK_MAX ∧ t.owner .task i = O_FREE ∧
      t₁.owner = (t.setOwner .task i (ownerOfTask c)).owner ∧
      (t.NextKeeps (ownerOfTask c) taskno ↔ ownerOfTask c = O_FREE)) ∨
    (if taskno = 0 then t.taskNext c else t.taskNextExplicit c taskno) = (none, t) ∧
      t.NextKeeps (ownerOfTask c) taskno := by
  unfold NextKeeps
  by_cases hzero : taskno = 0
  · rw [if_pos hzero, if_pos hzero, taskNext]
    cases hfirst : t.firstFree 0 RMGR_TASK_MAX with
    | none => exact .inr ⟨rfl, fun i h => by cases h⟩
    | some i =>
      obtain ⟨-, hlt, hfree, -⟩ := firstFree_some hfirst
      cases hq : t.quotaAllows .task (ownerOfTask c) i with
      | false =>
        refine .inr ⟨?_, fun j hj htakes => ?_⟩
        · simp only [hq, Bool.not_false, if_true]
        · cases hj
          rw [htakes.2.2] at hq
          cases hq
      | true =>
        refine .inl ⟨i, (t.charge .task (ownerOfTask c)).setOwner .task i (ownerOfTask c), ?_, by omega,
          hfree, ?_, fun h => ?_, fun h j _ htakes => htakes.2.1 h⟩
        · simp only [hq, Bool.not_true, Bool.false_eq_true, if_false]
        · rw [setOwner, setOwner, charge_owner]
        · by_contra hne
          exact h i rfl ⟨hfree, hne, hq⟩
  · rw [if_neg hzero, if_neg hzero, taskNextExplicit]
    by_cases hout : RMGR_TASK_MAX ≤ taskno
    · rw [if_pos hout]
      exact .inr ⟨rfl, fun hlt => absurd hlt (Nat.not_lt.mpr hout)⟩
    rw [if_neg hout]
    by_cases hfree : t.owner .task taskno = O_FREE
    · rw [if_neg (not_not.mpr hfree)]
      exact .inl ⟨taskno, _, rfl, Nat.not_le.mp hout, hfree, rfl,
        fun h => h (Nat.not_le.mp hout) hfree, fun h _ _ => h⟩
    · rw [if_pos hfree]
      exact .inr ⟨rfl, fun _ h => absurd h hfree⟩

theorem tsAllocate_effect {taskno : Nat} {created : Bool} :
    ∃ t', t.tsAllocate c taskno created = some t' ∧
      Effect t t' (ownerOfTask c) (created = true → t.NextKeeps (ownerOfTask c) taskno) := by
  rw [tsAllocate]
  obtain ⟨i, t₁, hnext, hlt, hfree, h₁, hkeeps⟩ | ⟨hnext, hkeeps⟩ := @next_cases t c taskno
  · obtain ⟨t₂, hreset, h₂⟩ := @resetPagefault_spec t₁ i hlt
    simp only [hnext, Option.bind_eq_bind, hreset, Option.bind_some, taskFree_lt hlt]
    cases created with
    | true =>
      exact ⟨t₂, rfl, (take_effect hfree (h₂.trans h₁)).imp_idle
        ⟨fun h _ => hkeeps.mpr h, fun h => hkeeps.mp (h rfl)⟩⟩
    | false => exact ⟨_, rfl, .same (freeEntry_undo hfree (h₂.trans h₁)) fun h => by cases h⟩
  · simp only [hnext]
    exact ⟨t, rfl, .same rfl fun _ => hkeeps⟩

/-! ## I/O faults -/

/-- Every port that `handle_io` comes to is a port. -/
def PortsInBounds (t : Tables) (o : Owner) (port size : Nat) : Prop :=
  port + flexpage size ≤ RMGR_IO_MAX ∨ t.Blocked o port

theorem handleIo_moves {haveIo : Bool} (fault : Nat × Nat) {port size : Nat} (hport : port < RMGR_IO_MAX)
    (h : haveIo = true → ¬(port = 0 ∧ size = L4_WHOLE_IOADDRESS_SPACE) →
      t.PortsInBounds (ownerOfTask c) port size) :
    ∃ t', t.handleIo c haveIo fault port size = some t' ∧ Moves t t' (ownerOfTask c) := by
  rw [handleIo]
  cases haveIo with
  | false => exact ⟨_, rfl, .same rfl⟩
  | true =>
    rw [if_neg (by decide)]
    by_cases hwhole : port = 0 ∧ size = L4_WHOLE_IOADDRESS_SPACE
    · rw [if_pos hwhole]
      split
      · exact ⟨_, rfl, .same rfl⟩
      · exact ⟨t, rfl, .same rfl⟩
    · rw [if_neg hwhole]
      exact (allocPorts_spec hport.le).1 (h rfl hwhole)

theorem handleIo_outside {fault : Nat × Nat} {port size : Nat} (hport : port < RMGR_IO_MAX)
    (hwhole : ¬(port = 0 ∧ size = L4_WHOLE_IOADDRESS_SPACE))
    (h : ¬t.PortsInBounds (ownerOfTask c) port size) :
    t.handleIo c true fault port size = none := by
  rw [handleIo, if_neg (by decide), if_neg hwhole]
  exact (allocPorts_spec hport.le).2 h

end Tables

/-! ## All requests -/

open Tables in
/-- Every access of the request is within its table. -/
def InBounds (t : Tables) (c : Fin RMGR_TASK_MAX) : Request → Prop
  | .getIrq num _ => 0 ≤ num.toInt
  | .freeIrq num => 0 ≤ num.toInt
  | .freeFpage isIo port size => isIo = true → port + flexpage size ≤ RMGR_IO_MAX
  | .ioFault haveIo _ port size =>
    c ≤ O_MAX → haveIo = true → ¬((port : Nat) = 0 ∧ (size : Nat) = L4_WHOLE_IOADDRESS_SPACE) →
      t.PortsInBounds (ownerOfTask c) port size
  | _ => True

open Tables in
/-- The request finds no entry to change: none that it asks for is free and allowed, and none that it
frees belongs to the owner that stands for the sender. -/
def Idle (t : Tables) (c : Fin RMGR_TASK_MAX) : Request → Prop
  | .getTask num created =>
    num.toNat < RMGR_TASK_MAX → t.Keeps .task num.toNat (ownerOfTask c) created
  | .setSmallSpace size invalid num =>
    invalid = false → size ≠ 0 → num.toNat < 128 / size → ¬t.Takes .small num.toNat (ownerOfTask c)
  | .taskNew tid pagerNil created => pagerNil = false → t.Keeps .task tid (ownerOfTask c) created
  | .freeTask num => num.toNat < RMGR_TASK_MAX → ¬t.Holds .task num.toNat (ownerOfTask c)
  | .getIrq num refused =>
    num.toNat < RMGR_IRQ_MAX → t.Keeps .irq num.toNat (ownerOfTask c) (!refused)
  | .freeIrq num => num.toNat < RMGR_IRQ_MAX → ¬t.Holds .irq num.toNat (ownerOfTask c)
  | .freeFpage isIo port size =>
    isIo = true → ∀ i : Nat, (port : Nat) ≤ i ∧ i < port + flexpage size → ¬t.Holds .port i (ownerOfTask c)
  | .tsAllocate taskno created => created = true → t.NextKeeps (ownerOfTask c) taskno.toNat
  | .tsFree tid => ¬t.Holds .task tid (ownerOfTask c)
  | .tsExit invalid =>
    invalid = false → ∀ i, 0 ≤ i ∧ i < 0 + RMGR_TASK_MAX → ¬t.Holds .task i (ownerOfTask c)
  | _ => True

section
variable {r : Request}

open Tables

theorem request_outside (h : ¬InBounds t c r) : handleRequest t c r = none := by
  cases r with
  | getIrq num refused => exact getIrq_outside (Int.not_le.mp h)
  | freeIrq num => exact freeIrq_outside (Int.not_le.mp h)
  | freeFpage isIo port size =>
    obtain ⟨hio, hend⟩ := Classical.not_imp.mp h
    rw [handleRequest, if_pos hio]
    exact freePorts_outside port.isLt.le (Nat.not_le.mp hend)
  | ioFault haveIo fault port size =>
    obtain ⟨hmax, h⟩ := Classical.not_imp.mp h
    obtain ⟨hio, h⟩ := Classical.not_imp.mp h
    obtain ⟨hwhole, h⟩ := Classical.not_imp.mp h
    rw [handleRequest, if_pos hmax, hio]
    exact handleIo_outside port.isLt hwhole h
  | _ => exact absurd trivial h

/-- A request that names no task acts for the owner that stands for the sender. -/
theorem request_moves (h : InBounds t c r) (hnamed : r.named = none) :
    ∃ t', handleRequest t c r = some t' ∧ Moves t t' (ownerOfTask c) ∧
      (O_MAX < (c : Nat) → (t'.owner = t.owner ↔ Idle t c r)) := by
  have heffect : ∀ {x : Option Tables},
      (∃ t', x = some t' ∧ Effect t t' (ownerOfTask c) (Idle t c r)) →
      ∃ t', x = some t' ∧ Moves t t' (ownerOfTask c) ∧
        (O_MAX < (c : Nat) → (t'.owner = t.owner ↔ Idle t c r)) := by
    rintro x ⟨t', hrun, hmoves, hidle⟩
    exact ⟨t', hrun, hmoves, fun _ => hidle⟩
  cases r with
  | getTask num created => exact heffect getTask_effect
  | setPrio => exact heffect ⟨t, rfl, .same rfl trivial⟩
  | setSmallSpace size invalid num => exact heffect setSmallSpace_effect
  | taskNew tid pagerNil created => exact heffect taskNew_effect
  | freeTaskAll tid created => cases hnamed
  | freeTask num => exact heffect freeTask_effect
  | setTaskId tid cfg => exact heffect setTaskId_effect
  | getIrq num refused => exact heffect (getIrq_effect h)
  | freeIrq num => exact heffect (freeIrq_effect h)
  | freeIrqAll tid => cases hnamed
  | freeFpage isIo port size =>
    cases isIo with
    | false => exact heffect ⟨t, rfl, .same rfl fun hio => by cases hio⟩
    | true =>
      obtain ⟨t', hrun, hfrees⟩ := freePorts_frees (o := ownerOfTask c) (h rfl)
      exact heffect ⟨t', hrun, hfrees.effect.imp_idle ⟨fun hall _ => hall, fun hall => hall rfl⟩⟩
  | tsAllocate taskno created => exact heffect tsAllocate_effect
  | tsFree tid =>
    refine heffect ⟨_, ?_, freeEntry_effect⟩
    rw [handleRequest, taskFree_lt tid.isLt]
    rfl
  | tsExit invalid =>
    cases invalid with
    | true => exact heffect ⟨t, rfl, .same rfl fun hinv => by cases hinv⟩
    | false =>
      obtain ⟨t', hrun, hfrees⟩ :=
        @taskFreeOwned_frees t (ownerOfTask c) RMGR_TASK_MAX 0 (Nat.zero_add _).le
      exact heffect ⟨t', hrun, hfrees.effect.imp_idle ⟨fun hall _ => hall, fun hall => hall rfl⟩⟩
  | ioFault haveIo fault port size =>
    rw [handleRequest]
    by_cases hmax : (c : Nat) ≤ O_MAX
    · rw [if_pos hmax]
      obtain ⟨t', hrun, hmoves⟩ := handleIo_moves fault port.isLt (h hmax)
      exact ⟨t', hrun, hmoves, fun hlt => absurd hmax (Nat.not_le.mpr hlt)⟩
    · rw [if_neg hmax]
      exact ⟨t, rfl, .same rfl, fun _ => iff_of_true rfl trivial⟩

/-- A request to free everything a task has. -/
theorem request_gone (hnamed : r.named = some tid) :
    ∃ t', handleRequest t c r = some t' ∧ Gone t t' tid := by
  cases r with
  | freeTaskAll tid created =>
    cases hnamed
    exact freeTaskAll_gone created (Nat.zero_add _).le
  | freeIrqAll tid =>
    cases hnamed
    exact freeIrqAll_gone (Nat.zero_add _).le
  | _ => cases hnamed

theorem ownerOfTask_eq (h : (c : Nat) ≤ O_MAX) : (ownerOfTask c : Nat) = c :=
  Nat.mod_eq_of_lt (Nat.lt_succ_of_le h)

theorem owner_ne (h : O_MAX < (c : Nat)) (o : Owner) : (o : Nat) ≠ c :=
  (lt_of_le_of_lt (Nat.le_of_lt_succ o.isLt) h).ne

theorem permits_owner (h : (c : Nat) ≤ O_MAX) (ho : o = O_FREE ∨ o = ownerOfTask c) : r.Permits c o := by
  obtain hfree | hown := ho
  · exact .inl hfree
  · exact .inr (.inl (by rw [hown, ownerOfTask_eq h]))

theorem permits_free (h : O_MAX < (c : Nat)) (hnamed : r.named = none) (ho : r.Permits c o) :
    o = O_FREE := by
  obtain hfree | hown | ⟨tid, htid, -⟩ := ho
  · exact hfree
  · exact absurd hown (owner_ne h o)
  · rw [hnamed] at htid
    cases htid

theorem idle_named (h : r.named = some tid) : Idle t c r := by
  cases r with
  | freeTaskAll tid created => trivial
  | freeIrqAll tid => trivial
  | _ => cases h

/-- Within the tables, every request of a task that is an owner is proper. Of another task only one that
finds nothing to change is. -/
theorem proper_iff : Proper t c r ↔ InBounds t c r ∧ ((c : Nat) ≤ O_MAX ∨ Idle t c r) := by
  by_cases hin : InBounds t c r
  swap
  · refine iff_of_false ?_ fun h => hin h.1
    rintro ⟨t', hrun, -⟩
    rw [request_outside hin] at hrun
    cases hrun
  rw [and_iff_right hin]
  cases hnamed : r.named with
  | some tid =>
    obtain ⟨t', hrun, hgone⟩ := @request_gone t c tid r hnamed
    refine iff_of_true ⟨t', hrun, fun k i hch => ⟨.inr (.inr ⟨tid, hnamed, ?_⟩), .inl ?_⟩⟩
      (.inr (idle_named hnamed))
    · exact (hgone k i hch).1
    · exact (hgone k i hch).2
  | none =>
    obtain ⟨t', hrun, hmoves, hidle⟩ := request_moves hin hnamed
    by_cases hmax : (c : Nat) ≤ O_MAX
    · refine iff_of_true ⟨t', hrun, fun k i hch => ?_⟩ (.inl hmax)
      exact ⟨permits_owner hmax (hmoves k i hch).1, permits_owner hmax (hmoves k i hch).2⟩
    · have hlt : O_MAX < (c : Nat) := Nat.not_le.mp hmax
      rw [or_iff_right hmax, ← hidle hlt]
      constructor
      · rintro ⟨t₂, heq, hproper⟩
        rw [hrun] at heq
        cases heq
        funext k i
        by_contra hch
        obtain ⟨hbefore, hafter⟩ := hproper k i hch
        exact hch ((permits_free hlt hnamed hafter).trans (permits_free hlt hnamed hbefore).symm)
      · intro hsame
        exact ⟨t', hrun, fun k i hch => absurd (congrFun (congrFun hsame k) i) hch⟩

end

/-- The task 5 owns the task 7, and nobody has a quota. -/
def sevenOfFive : Tables :=
  ⟨fun k i => if k = .task ∧ i = 7 then ⟨5, by decide⟩ else O_FREE, fun _ => ⟨⟨0, 0, 0, 0⟩, ⟨0, 0, 0, 0⟩, 0, 0, 0⟩,
    fun _ => (0, 0)⟩

/-- The interrupt -1 is not in the table, and the task 261 frees what the task 5 owns. -/
theorem not_proper : ¬Proper sevenOfFive 5 (.getIrq 0xffffffff#32 false) ∧
    ¬Proper sevenOfFive 261 (.freeTask 7#32) := by
  constructor
  · rintro ⟨t', hrun, -⟩
    have hnone : handleRequest sevenOfFive 5 (.getIrq 0xffffffff#32 false) = none :=
      Tables.getIrq_outside (by decide)
    rw [hnone] at hrun
    cases hrun
  · rintro ⟨t', hrun, hproper⟩
    cases hrun
    obtain ⟨hfree | hown | ⟨tid, htid, -⟩, -⟩ := hproper .task 7 (by decide)
    · exact absurd hfree (by decide)
    · exact absurd hown (by decide)
    · cases htid

end L4env.Roottask
