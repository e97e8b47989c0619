import L4env.Fiasco.MappingTreeInv
import L4env.Fiasco.Treemap

/-!
# Flushing nested treemaps

`Treemap_ops::flush` masks the offsets of a flush with the page size of the treemap above instead of the
one of the treemap it flushes, and it uses the mapping tree of every frame in the range. So the offsets it
hands down are those of the subpage only inside the first page of a treemap (`FlushOk`), unless all pages
are deleted as a whole.
-/

namespace L4env.Fiasco

namespace MappingTree

variable {t : MappingTree} {ops : SubmapOps} {restricted i j k m n : Nat} {s : FlushState}

/-! ## The calls of a flush -/

/-- The mapping `j` is the last one in front of `i`. -/
def LastRegular (t : MappingTree) (j i : Nat) : Prop :=
  j < i ∧ t.Regular j ∧ ∀ k, j < k → k < i → ¬ t.Regular k

/-- The mapping is the root, or a child of the root that the restriction selects. -/
def Opens (t : MappingTree) (restricted j : Nat) : Prop :=
  j = 0 ∨ t.depths j = 1 ∧ (restricted = 0 ∨ (t.mappings j).tag = restricted)

/-- A submap entry whose treemap is flushed, if the flush covers it in part. -/
def OpenSubmap (t : MappingTree) (restricted i : Nat) : Prop :=
  t.Live i ∧ (t.mappings i).submap = true ∧ ∃ j, t.LastRegular j i ∧ t.Opens restricted j

/-- The invariant of the loop for a flush of all descendants of the root. -/
structure CallSweep (t : MappingTree) (ops : SubmapOps) (restricted m : Nat) (s : FlushState) : Prop where
  size : s.tree.sizeId = t.sizeId
  kept : ∀ j, m ≤ j → s.tree.mappings j = t.mappings j
  last : ∃ j, t.LastRegular j m ∧ (s.skipSubtree = false ∧ s.mDepth = 1 ↔ t.Opens restricted j)
  calls : ∀ id, .flush id ∈ s.calls ↔
    ∃ i < m, t.OpenSubmap restricted i ∧ (t.mappings i).treemap = id ∧ ops.isPartial id = true

theorem LastRegular.unique (h : t.LastRegular j i) (h' : t.LastRegular k i) : j = k := by
  rcases lt_trichotomy j k with hlt | heq | hlt
  · exact absurd h'.2.1 (h.2.2 k hlt h'.1)
  · exact heq
  · exact absurd h.2.1 (h'.2.2 j hlt h.1)

theorem LastRegular.succ (h : t.LastRegular j m) (hm : ¬ t.Regular m) : t.LastRegular j (m + 1) := by
  refine ⟨h.1.trans m.lt_succ_self, h.2.1, fun k hk hkm => ?_⟩
  rcases Nat.lt_succ_iff_lt_or_eq.mp hkm with hlt | rfl
  · exact h.2.2 k hk hlt
  · exact hm

theorem lastRegular_self (hm : t.Regular m) : t.LastRegular m (m + 1) :=
  ⟨m.lt_succ_self, hm, fun k hk hkm => absurd hkm (by omega)⟩

/-- The calls after an entry that makes none. -/
theorem CallSweep.calls_succ (h : t.CallSweep ops restricted m s) (hm : ¬ t.OpenSubmap restricted m)
    (id : Nat) : .flush id ∈ s.calls ↔
      ∃ i < m + 1, t.OpenSubmap restricted i ∧ (t.mappings i).treemap = id ∧ ops.isPartial id = true := by
  rw [h.calls]
  constructor
  · rintro ⟨i, hi, hrest⟩
    exact ⟨i, by omega, hrest⟩
  · rintro ⟨i, hi, ho, hrest⟩
    rcases Nat.lt_succ_iff_lt_or_eq.mp hi with hlt | rfl
    · exact ⟨i, hlt, ho, hrest⟩
    · exact absurd ho hm

theorem CallSweep.visit (h : t.CallSweep ops restricted m s) (hu : t.InUse m) :
    t.CallSweep ops restricted (m + 1) (s.visit ops 0 restricted false m) := by
  have hm := h.kept m le_rfl
  have hkept : ∀ j, m + 1 ≤ j → s.tree.mappings j = t.mappings j := fun j hj => h.kept j (by omega)
  have hkept' : ∀ d j, m + 1 ≤ j → (s.tree.setDepth m d).mappings j = t.mappings j := fun d j hj => by
    rw [setDepth_mappings_of_ne (by omega), hkept j hj]
  obtain ⟨j, hj, hopen⟩ := h.last
  unfold FlushState.visit
  simp only [hm]
  split
  next hun =>
    have hdead : ¬ t.Live m := fun hl => by rw [hl.2] at hun; cases hun
    exact ⟨h.size, hkept, ⟨j, hj.succ fun hr => hdead hr.live, hopen⟩,
      h.calls_succ fun ho => hdead ho.1⟩
  next hun =>
    have hlive : t.Live m := ⟨hu, by simpa using hun⟩
    cases hsub : (t.mappings m).submap with
    | true =>
      have hreg : ¬ t.Regular m := fun hr => by rw [hr.2] at hsub; cases hsub
      have hdepth : (t.mappings m).depth = Mapping.depthSubmap := Mapping.submap_iff.mp hsub
      have hiff : t.OpenSubmap restricted m ↔ s.skipSubtree = false ∧ s.mDepth = 1 := by
        rw [hopen]
        exact ⟨fun ⟨_, _, k, hk, ho⟩ => hj.unique hk ▸ ho, fun ho => ⟨hlive, hsub, j, hj, ho⟩⟩
      rw [hdepth]
      split
      next hskip =>
        have hno : ¬ t.OpenSubmap restricted m := fun ho => by
          rw [(hiff.mp ho).1] at hskip
          cases hskip.1
        exact ⟨h.size, hkept, ⟨j, hj.succ hreg, hopen⟩, h.calls_succ hno⟩
      next hskip =>
        have hskip : s.skipSubtree = false := by
          cases hs : s.skipSubtree with
          | false => rfl
          | true => exact absurd ⟨hs, by decide⟩ hskip
        have hlast : ∃ j, t.LastRegular j (m + 1) ∧
            (false = false ∧ s.mDepth = 1 ↔ t.Opens restricted j) :=
          ⟨j, hj.succ hreg, by rw [← hopen, hskip]⟩
        rw [hskip] at hiff
        simp only [if_true]
        split
        next hcall =>
          have ho : t.OpenSubmap restricted m := hiff.mpr ⟨rfl, hcall.2.1⟩
          refine ⟨h.size, hkept, hlast, fun id => ?_⟩
          simp only [List.mem_cons, SubmapCall.flush.injEq]
          rw [h.calls]
          constructor
          · rintro (rfl | ⟨i, hi, hrest⟩)
            · exact ⟨m, m.lt_succ_self, ho, rfl, hcall.2.2⟩
            · exact ⟨i, by omega, hrest⟩
          · rintro ⟨i, hi, hrest⟩
            rcases Nat.lt_succ_iff_lt_or_eq.mp hi with hlt | rfl
            · exact .inr ⟨i, hlt, hrest⟩
            · exact .inl hrest.2.1.symm
        next hcall =>
          refine ⟨h.size, hkept' _, hlast, fun id => ?_⟩
          simp only [FlushState.freeMapping, List.mem_cons, reduceCtorEq, false_or]
          rw [h.calls]
          constructor
          · rintro ⟨i, hi, hrest⟩
            exact ⟨i, by omega, hrest⟩
          · rintro ⟨i, hi, ho, htm, hpart⟩
            rcases Nat.lt_succ_iff_lt_or_eq.mp hi with hlt | rfl
            · exact ⟨i, hlt, ho, htm, hpart⟩
            · exact absurd ⟨trivial, (hiff.mp ho).2, htm ▸ hpart⟩ hcall
    | false =>
      have hreg : t.Regular m := ⟨hlive, hsub⟩
      have hno : ¬ t.OpenSubmap restricted m := fun ho => by rw [ho.2.1] at hsub; cases hsub
      have hpos : m ≠ 0 := by have := hj.1; omega
      have hself := lastRegular_self hreg
      split
      next hskip =>
        -- a mapping below a child that is left alone
        refine ⟨h.size, hkept, ⟨m, hself, iff_of_false (fun hs => ?_) ?_⟩, h.calls_succ hno⟩
        · rw [hskip.1] at hs
          cases hs.1
        · rintro (h0 | ⟨hd, -⟩)
          · exact hpos h0
          · exact absurd hskip.2 (by rw [show (t.mappings m).depth = 1 from hd]; decide)
      next hskip =>
        simp only [Bool.false_eq_true, if_false]
        split
        next hspare =>
          refine ⟨h.size, hkept, ⟨m, hself, iff_of_false (fun hs => by cases hs.1) ?_⟩,
            h.calls_succ hno⟩
          rintro (h0 | ⟨-, hr | htag⟩)
          · exact hpos h0
          · exact hspare.1 hr
          · exact hspare.2.2 htag
        next hspare =>
          refine ⟨h.size, hkept' _, ⟨m, hself, ?_⟩, h.calls_succ hno⟩
          constructor
          · rintro ⟨-, hd⟩
            refine .inr ⟨hd, or_iff_not_imp_left.mpr fun hr => not_not.mp fun htag => ?_⟩
            exact hspare ⟨hr, hd, htag⟩
          · rintro (h0 | ⟨hd, -⟩)
            · exact absurd h0 hpos
            · exact ⟨rfl, hd⟩

/-- Behind the root of a well-formed tree there is no entry of its depth. -/
theorem WellFormed.depths_pos (wf : t.WellFormed) (hu : t.InUse m) (hm : 0 < m) : 0 < t.depths m := by
  by_cases hl : t.Live m
  · exact wf.inner m hl hm
  · exact (by decide : 0 < Mapping.depthEmpty).trans_le (hu.le_depths hl)

theorem CallSweep.loop (wf : t.WellFormed) (hm : 0 < m) (hn : m + n = t.numberOfEntries)
    (hu : ∀ j < m, t.InUse j) (h : t.CallSweep ops restricted m s) :
    ∃ m', (∀ k, m' ≤ k → ¬ t.InUse k) ∧
      t.CallSweep ops restricted m' (flushLoop ops 0 restricted false n m s).1 := by
  induction n generalizing m s with
  | zero => exact ⟨m, fun k hk hku => absurd hku.1 (by omega), h⟩
  | succ n ih =>
    rw [flushLoop, h.kept m le_rfl]
    by_cases hend : (t.mappings m).isEndTag = true
    · simp only [hend, if_true]
      exact ⟨m, fun k hk hku => by simp [(hku.of_le hk).isEndTag] at hend, h⟩
    have hum : t.InUse m := inUse_succ hu (by omega) (by simpa using hend)
    have hd : ¬ (t.mappings m).depth ≤ 0 := Nat.not_le.mpr (wf.depths_pos hum hm)
    simp only [hend, Bool.false_eq_true, if_false, hd]
    refine ih (by omega) (by omega) (fun j hj => ?_) (h.visit hum)
    rcases Nat.lt_succ_iff_lt_or_eq.mp hj with hlt | rfl
    · exact hu j hlt
    · exact hum

/-- The treemaps that a flush of all descendants of the root goes into. -/
theorem mem_flush_calls (wf : t.WellFormed) (h0 : t.InUse 0) (id : Nat) :
    .flush id ∈ (t.flush ops 0 false restricted).calls ↔
      ∃ i, t.OpenSubmap restricted i ∧ (t.mappings i).treemap = id ∧ ops.isPartial id = true := by
  obtain ⟨hroot, hd⟩ := wf.root h0
  have hd : (t.mappings 0).depth = 0 := hd
  have hstart : t.CallSweep ops restricted 1 (t.flushStart 0 false) := by
    refine ⟨rfl, fun _ _ => rfl, ⟨0, lastRegular_self hroot, ?_⟩, fun id => ?_⟩
    · refine iff_of_true ⟨rfl, ?_⟩ (.inl rfl)
      simp [flushStart, hd]
    · simp only [flushStart, Bool.false_eq_true, if_false, List.not_mem_nil, false_iff, not_exists,
        not_and]
      rintro i hi ⟨-, -, j, hj, -⟩
      have := hj.1
      omega
  have hn := numberOfEntries_pos (t := t)
  obtain ⟨m', hend, hs⟩ := hstart.loop wf one_pos (n := t.numberOfEntries - 1) (by omega)
    fun j hj => by
      obtain rfl : j = 0 := by omega
      exact h0
  have hcalls : (t.flush ops 0 false restricted).calls =
      (flushLoop ops 0 restricted false (t.numberOfEntries - 1) 1 (t.flushStart 0 false)).1.calls := by
    unfold flush FlushState.finish
    simp only [hd, Nat.zero_add]
    split
    · rfl
    · split <;> rfl
  rw [hcalls, hs.calls]
  constructor
  · rintro ⟨i, -, hrest⟩
    exact ⟨i, hrest⟩
  · rintro ⟨i, ho, hrest⟩
    exact ⟨i, Nat.lt_of_not_le fun hle => hend i hle ho.1.inUse, ho, hrest⟩

end MappingTree

/-! ## Hierarchies -/

/-- The offsets that are handed down are the part of the flushed range in the page, relative to it. -/
def PageVisit.Exact (v : PageVisit) : Prop :=
  ∀ b e, v.handed = some (b, e) →
    b = max v.offsBegin (v.index * v.pageSize) - v.index * v.pageSize ∧
      e = min v.offsEnd (v.index * v.pageSize + v.pageSize) - v.index * v.pageSize

/-- No assertion fails, no missing mapping tree is used, and all offsets are exact. -/
def FlushExact {α : Type} (r : Except TreemapFault (α × List PageVisit)) : Prop :=
  Meets r (fun x => ∀ v ∈ x.2, v.Exact) fun _ => False

section
variable {σ : Type} {sub : SubTreemaps σ} {f : Physframe σ} {t : TreemapOf σ}
  {opsSize pageSize restricted b e i k n : Nat} {subWf : σ → Prop}
  {subOk : σ → Nat → Nat → Nat → Prop}

/-- A hierarchy: the page sizes are powers of two, the mapping trees are well-formed, and the submap
entries have treemaps of the size of a page. -/
def TreemapOf.Wf (sub : SubTreemaps σ) (subWf : σ → Prop) (t : TreemapOf σ) : Prop :=
  (∃ k < 32, t.pageSize = 2 ^ k) ∧ ∀ i f, t.frames i = some f →
    f.tree.WellFormed ∧ f.tree.InUse 0 ∧ ∀ m, f.tree.Live m → (f.tree.mappings m).submap = true →
      ∃ s, f.submaps (f.tree.mappings m).treemap = some s ∧ sub.size s = t.pageSize ∧ subWf s

/-- All pages are deleted as a whole, or the range is inside the first page, which has a mapping tree, and
the same holds in the treemaps that the flush goes into. -/
def TreemapOf.FlushOk (sub : SubTreemaps σ) (subOk : σ → Nat → Nat → Nat → Prop) (t : TreemapOf σ)
    (restricted offsBegin offsEnd : Nat) : Prop :=
  (restricted = 0 ∧ t.pageSize ∣ offsBegin ∧ t.pageSize ∣ offsEnd) ∨
    (offsEnd ≤ t.pageSize ∧ ∃ f, t.frames 0 = some f ∧
      ∀ i s, f.tree.OpenSubmap restricted i → f.submaps (f.tree.mappings i).treemap = some s →
        sub.isPartial s offsBegin offsEnd = true → subOk s restricted offsBegin offsEnd)

theorem Physframe.runCalls_exact (cs : List MappingTree.SubmapCall) (submaps : Nat → Option σ) :
    FlushExact (f.runCalls sub pageSize restricted b e cs submaps) ↔
      ∀ id, .flush id ∈ cs → ∃ s, f.submaps id = some s ∧
        FlushExact (sub.flush pageSize s restricted b e) := by
  induction cs generalizing submaps with
  | nil => exact iff_of_true (fun v hv => absurd hv List.not_mem_nil) (by simp)
  | cons c cs ih =>
    cases c with
    | del id =>
      unfold Physframe.runCalls
      rw [ih]
      simp
    | flush id =>
      unfold Physframe.runCalls
      simp only [List.mem_cons, MappingTree.SubmapCall.flush.injEq, forall_eq_or_imp]
      cases hs : f.submaps id with
      | none => exact iff_of_false (fun h => h) (by simp)
      | some s =>
        simp only [Option.some.injEq, exists_eq_left']
        cases hr : sub.flush pageSize s restricted b e with
        | error e => exact iff_of_false (fun h => h) fun h => h.1
        | ok r =>
          rw [← ih (Function.update submaps id (some r.1))]
          simp only [ok_bind]
          cases f.runCalls sub pageSize restricted b e cs (Function.update submaps id (some r.1)) with
          | error e => exact iff_of_false (fun h => h) fun h => h.2
          | ok r' =>
            simp only [FlushExact, ok_bind, meets_pure, meets_ok, List.forall_mem_append]

theorem Physframe.flush_exact (wf : f.tree.WellFormed) (h0 : f.tree.InUse 0)
    (hsub : ∀ m, f.tree.Live m → (f.tree.mappings m).submap = true →
      ∃ s, f.submaps (f.tree.mappings m).treemap = some s) :
    FlushExact (f.flush sub pageSize 0 false restricted b e) ↔
      ∀ i s, f.tree.OpenSubmap restricted i → f.submaps (f.tree.mappings i).treemap = some s →
        sub.isPartial s b e = true → FlushExact (sub.flush pageSize s restricted b e) := by
  have hroot := (wf.root h0).1.live.2
  have hrun : FlushExact (f.flush sub pageSize 0 false restricted b e) ↔
      FlushExact (f.runCalls sub pageSize restricted b e
        (f.tree.flush (f.ops sub b e) 0 false restricted).calls.reverse f.submaps) := by
    unfold Physframe.flush
    rw [hroot]
    simp only [Bool.false_eq_true, if_false]
    cases f.runCalls sub pageSize restricted b e
      (f.tree.flush (f.ops sub b e) 0 false restricted).calls.reverse f.submaps <;> rfl
  rw [hrun, runCalls_exact]
  simp only [List.mem_reverse, MappingTree.mem_flush_calls wf h0]
  constructor
  · intro h i s ho hs hpart
    obtain ⟨s', hs', hex⟩ := h _ ⟨i, ho, rfl, by simpa [ops, hs] using hpart⟩
    rw [hs] at hs'
    cases hs'
    exact hex
  · rintro h id ⟨i, ho, rfl, hpart⟩
    obtain ⟨s, hs⟩ := hsub i ho.1 ho.2.1
    exact ⟨s, hs, h i s ho hs (by simpa [ops, hs] using hpart)⟩

/-! ## Pages -/

namespace TreemapOf

/-- The page is deleted as a whole. -/
def Whole (t : TreemapOf σ) (restricted b e i : Nat) : Prop :=
  restricted = 0 ∧ b ≤ i * t.pageSize ∧ i * t.pageSize + t.pageSize ≤ e

/-- The offsets that are handed down to the page. -/
def handed (t : TreemapOf σ) (opsSize b e i : Nat) : Nat × Nat :=
  (if b < i * t.pageSize then 0 else b &&& (opsSize - 1),
    if i * t.pageSize + t.pageSize < e then opsSize else ((e - 1) &&& (opsSize - 1)) + 1)

/-- The flush of a page goes well. -/
def PageOk (sub : SubTreemaps σ) (t : TreemapOf σ) (opsSize restricted b e i : Nat) : Prop :=
  i < t.keyEnd ∧ (¬ t.Whole restricted b e i → ∃ f, t.frames i = some f ∧
    PageVisit.Exact ⟨t.pageSize, i, b, e, some (t.handed opsSize b e i)⟩ ∧
    FlushExact (f.flush sub t.pageSize 0 false restricted (t.handed opsSize b e i).1
      (t.handed opsSize b e i).2))

theorem pageOk_setFrame {x : Option (Physframe σ)} {k : Nat} (h : k ≠ i) :
    (t.setFrame i x).PageOk sub opsSize restricted b e k ↔ t.PageOk sub opsSize restricted b e k := by
  have hf : (t.setFrame i x).frames k = t.frames k := by simp [setFrame, h]
  unfold PageOk
  rw [hf]
  rfl

theorem flushPages_exact (hword : ∀ k, i ≤ k → k < i + n → k * t.pageSize + t.pageSize < 4294967296) :
    FlushExact (t.flushPages sub opsSize restricted b e n i) ↔
      ∀ k, i ≤ k → k < i + n → t.PageOk sub opsSize restricted b e k := by
  induction n generalizing i t with
  | zero => exact iff_of_true (fun v hv => absurd hv List.not_mem_nil) fun k _ _ => by omega
  | succ n ih =>
    have hi := hword i le_rfl (by omega)
    have hsplit : (∀ k, i ≤ k → k < i + (n + 1) → t.PageOk sub opsSize restricted b e k) ↔
        t.PageOk sub opsSize restricted b e i ∧
          ∀ k, i + 1 ≤ k → k < i + 1 + n → t.PageOk sub opsSize restricted b e k := by
      constructor
      · exact fun h => ⟨h i le_rfl (by omega), fun k h1 h2 => h k (by omega) (by omega)⟩
      · rintro ⟨h, hrest⟩ k h1 h2
        rcases h1.eq_or_lt with rfl | hlt
        · exact h
        · exact hrest k hlt (by omega)
    -- the rest of the pages, after the frame of this one was written
    have hrest : ∀ x, FlushExact ((t.setFrame i x).flushPages sub opsSize restricted b e n (i + 1)) ↔
        ∀ k, i + 1 ≤ k → k < i + 1 + n → t.PageOk sub opsSize restricted b e k := by
      intro x
      have hword' : ∀ k, i + 1 ≤ k → k < i + 1 + n →
          k * (t.setFrame i x).pageSize + (t.setFrame i x).pageSize < 4294967296 :=
        fun k h1 h2 => hword k (by omega) (by omega)
      refine (ih hword').trans ?_
      exact forall₃_congr fun k h1 _ => pageOk_setFrame (by omega)
    rw [hsplit]
    unfold flushPages
    have hmod : i * t.pageSize % 4294967296 = i * t.pageSize := Nat.mod_eq_of_lt (by omega)
    simp only [hmod, Word.add_eq hi]
    split
    next hend => exact iff_of_false (fun h => h) fun h => absurd h.1.1 (by omega)
    next hend =>
      split
      next hwhole =>
        have hok : t.PageOk sub opsSize restricted b e i := ⟨by omega, fun hn => absurd hwhole hn⟩
        rw [← hrest none]
        simp only [hok, true_and]
        cases (t.setFrame i none).flushPages sub opsSize restricted b e n (i + 1) with
        | error e => exact Iff.rfl
        | ok r =>
          simp only [FlushExact, ok_bind, meets_pure, meets_ok, List.forall_mem_cons]
          exact and_iff_right fun _ _ h => by cases h
      next hwhole =>
        have hwhole : ¬ t.Whole restricted b e i := hwhole
        have hok : t.PageOk sub opsSize restricted b e i ↔ ∃ f, t.frames i = some f ∧
            PageVisit.Exact ⟨t.pageSize, i, b, e, some (t.handed opsSize b e i)⟩ ∧
            FlushExact (f.flush sub t.pageSize 0 false restricted (t.handed opsSize b e i).1
              (t.handed opsSize b e i).2) :=
          ⟨fun h => h.2 hwhole, fun h => ⟨by omega, fun _ => h⟩⟩
        rw [hok]
        cases hf : t.frames i with
        | none => exact iff_of_false (fun h => h) (by simp)
        | some f =>
          simp only [Option.some.injEq, exists_eq_left']
          have hb : (if b < i * t.pageSize then 0 else b &&& (opsSize - 1)) =
              (t.handed opsSize b e i).1 := rfl
          have he : (if i * t.pageSize + t.pageSize < e then opsSize
              else ((e - 1) &&& (opsSize - 1)) + 1) = (t.handed opsSize b e i).2 := rfl
          rw [hb, he]
          cases f.flush sub t.pageSize 0 false restricted (t.handed opsSize b e i).1
              (t.handed opsSize b e i).2 with
          | error e => exact iff_of_false (fun h => h) fun h => h.1.2
          | ok r =>
            rw [← hrest (some r.1)]
            simp only [ok_bind]
            cases (t.setFrame i (some r.1)).flushPages sub opsSize restricted b e n (i + 1) with
            | error e => exact iff_of_false (fun h => h) fun h => h.2
            | ok r' =>
              simp only [FlushExact, ok_bind, meets_pure, meets_ok, List.forall_mem_append,
                List.forall_mem_cons]

/-- The offsets handed down are right only inside the first page. -/
theorem handed_exact_iff (hb : b < e) (he : e ≤ 2 ^ k) (hi : i * t.pageSize < e)
    (hle : i * t.pageSize + t.pageSize ≤ 2 ^ k) (hpos : 0 < t.pageSize) :
    PageVisit.Exact ⟨t.pageSize, i, b, e, some (t.handed (2 ^ k) b e i)⟩ ↔
      i = 0 ∧ e ≤ t.pageSize := by
  have hhanded : t.handed (2 ^ k) b e i = (if b < i * t.pageSize then 0 else b,
      if i * t.pageSize + t.pageSize < e then 2 ^ k else e) := by
    unfold handed
    rw [Nat.and_two_pow_sub_one_eq_mod, Nat.and_two_pow_sub_one_eq_mod, Nat.mod_eq_of_lt (by omega),
      Nat.mod_eq_of_lt (by omega), Nat.sub_add_cancel (by omega)]
  rw [hhanded]
  have hzero : i * t.pageSize = 0 ↔ i = 0 := by
    rw [Nat.mul_eq_zero]
    omega
  unfold PageVisit.Exact
  simp only [Option.some.injEq, Prod.mk.injEq]
  constructor
  · intro h
    obtain ⟨-, h2⟩ := h _ _ ⟨rfl, rfl⟩
    split at h2
    · omega
    · rw [← hzero]
      omega
  · rintro ⟨rfl, hle⟩ b' e' ⟨rfl, rfl⟩
    simp only [Nat.zero_mul, Nat.not_lt_zero, if_false, Nat.zero_add]
    rw [if_neg (by omega)]
    omega

theorem handed_zero (hb : b < e) (he : e ≤ 2 ^ k) (hle : e ≤ t.pageSize) :
    t.handed (2 ^ k) b e 0 = (b, e) := by
  unfold handed
  simp only [Nat.zero_mul, Nat.zero_add, Nat.not_lt_zero, if_false]
  rw [Nat.and_two_pow_sub_one_eq_mod, Nat.and_two_pow_sub_one_eq_mod, Nat.mod_eq_of_lt (by omega),
    Nat.mod_eq_of_lt (by omega), Nat.sub_add_cancel (by omega), if_neg (by omega)]

/-- A flush that is not of whole pages flushes a part of a page. -/
theorem exists_part (hpos : 0 < t.pageSize) (hb : b < e)
    (h : ¬ (restricted = 0 ∧ t.pageSize ∣ b ∧ t.pageSize ∣ e)) :
    ∃ i, b / t.pageSize ≤ i ∧ i < (e + t.pageSize - 1) / t.pageSize ∧ ¬ t.Whole restricted b e i := by
  have hlast : ∀ i, i * t.pageSize < e → i < (e + t.pageSize - 1) / t.pageSize := by
    intro i hi
    refine (Nat.le_div_iff_mul_le hpos).mpr ?_
    rw [Nat.succ_mul]
    omega
  have hdm := Nat.div_add_mod b t.pageSize
  rw [Nat.mul_comm] at hdm
  by_cases h0 : restricted = 0 ∧ t.pageSize ∣ b
  · -- the page of the last byte
    have he : ¬ t.pageSize ∣ e := fun he => h ⟨h0.1, h0.2, he⟩
    have hdm' := Nat.div_add_mod (e - 1) t.pageSize
    rw [Nat.mul_comm] at hdm'
    have hlt := Nat.mod_lt (e - 1) hpos
    refine ⟨(e - 1) / t.pageSize, Nat.div_le_div_right (by omega), hlast _ (by omega), ?_⟩
    rintro ⟨-, -, hle⟩
    refine he ⟨(e - 1) / t.pageSize + 1, ?_⟩
    rw [Nat.mul_comm, Nat.succ_mul]
    omega
  · refine ⟨b / t.pageSize, le_rfl, hlast _ (by omega), ?_⟩
    rintro ⟨hr, hle, -⟩
    refine h0 ⟨hr, b / t.pageSize, ?_⟩
    rw [Nat.mul_comm]
    omega

/-- `Treemap_ops::flush`, when the treemaps below are flushed well exactly if they satisfy `subOk`. -/
theorem flush_exact (hsub : ∀ s r b e, subWf s → b < e → e ≤ t.pageSize → sub.size s = t.pageSize →
      (FlushExact (sub.flush t.pageSize s r b e) ↔ subOk s r b e))
    (wf : t.Wf sub subWf) (hk : k < 32) (hsize : t.pageSize * t.keyEnd = 2 ^ k) (hb : b < e)
    (he : e ≤ 2 ^ k) :
    FlushExact (t.flush sub (2 ^ k) restricted b e) ↔ t.FlushOk sub subOk restricted b e := by
  obtain ⟨⟨j, hj, hpage⟩, hframes⟩ := wf
  have hpos : 0 < t.pageSize := hpage ▸ Nat.two_pow_pos j
  have hkw : 2 ^ k < 4294967296 := Nat.pow_lt_pow_right (n := 32) (by decide) hk
  have hjk : t.pageSize ≤ 2 ^ k := by
    rw [← hsize]
    refine Nat.le_mul_of_pos_right _ (Nat.pos_of_ne_zero fun h0 => ?_)
    rw [h0, Nat.mul_zero] at hsize
    have := Nat.two_pow_pos k
    omega
  have hk31 : 2 ^ k ≤ 2 ^ 31 := Nat.pow_le_pow_right (by decide) (by omega)
  have hlast : Word.sub (Word.add e t.pageSize) 1 = e + t.pageSize - 1 := by
    rw [Word.sub, Word.add]
    omega
  -- the pages of the loop lie in the treemap
  have hin : ∀ i, i < (e + t.pageSize - 1) / t.pageSize →
      i * t.pageSize < e ∧ i < t.keyEnd ∧ i * t.pageSize + t.pageSize ≤ 2 ^ k := by
    intro i hi
    have h1 : (i + 1) * t.pageSize ≤ e + t.pageSize - 1 := (Nat.le_div_iff_mul_le hpos).mp hi
    rw [Nat.succ_mul] at h1
    have h2 : i < t.keyEnd := by
      by_contra hge
      have := Nat.mul_le_mul_right t.pageSize (not_lt.mp hge)
      rw [Nat.mul_comm t.keyEnd, hsize] at this
      omega
    have h3 := Nat.mul_le_mul_right t.pageSize (Nat.succ_le_of_lt h2)
    rw [Nat.mul_comm t.keyEnd, hsize, Nat.succ_mul] at h3
    exact ⟨by omega, h2, h3⟩
  have hfl : b / t.pageSize ≤ (e + t.pageSize - 1) / t.pageSize := Nat.div_le_div_right (by omega)
  have hpages : FlushExact (t.flush sub (2 ^ k) restricted b e) ↔
      ∀ i, b / t.pageSize ≤ i → i < (e + t.pageSize - 1) / t.pageSize →
        t.PageOk sub (2 ^ k) restricted b e i := by
    unfold flush
    simp only [hlast]
    rw [flushPages_exact fun i h1 h2 => ?_, Nat.add_sub_cancel' hfl]
    have := (hin i (by omega)).2.2
    omega
  -- a page of which only a part is flushed
  have hpart : ∀ i, i < (e + t.pageSize - 1) / t.pageSize → ¬ t.Whole restricted b e i →
      (t.PageOk sub (2 ^ k) restricted b e i ↔ i = 0 ∧ e ≤ t.pageSize ∧ ∃ f, t.frames 0 = some f ∧
        ∀ i s, f.tree.OpenSubmap restricted i → f.submaps (f.tree.mappings i).treemap = some s →
          sub.isPartial s b e = true → subOk s restricted b e) := by
    intro i hi hw
    obtain ⟨h1, h2, h3⟩ := hin i hi
    have hsubs : ∀ f, t.frames 0 = some f → e ≤ t.pageSize →
        (FlushExact (f.flush sub t.pageSize 0 false restricted b e) ↔ ∀ i s,
          f.tree.OpenSubmap restricted i → f.submaps (f.tree.mappings i).treemap = some s →
            sub.isPartial s b e = true → subOk s restricted b e) := by
      intro f hf hle
      obtain ⟨hwf, h0, hsm⟩ := hframes 0 f hf
      rw [f.flush_exact hwf h0 fun m hl hm => (hsm m hl hm).imp fun s h => h.1]
      refine forall₄_congr fun i s ho hs => imp_congr_right fun _ => ?_
      obtain ⟨s', hs', hsz, hwf'⟩ := hsm i ho.1 ho.2.1
      rw [hs] at hs'
      cases hs'
      exact hsub s restricted b e hwf' hb hle hsz
    constructor
    · rintro ⟨-, h⟩
      obtain ⟨f, hf, hx, hfl⟩ := h hw
      obtain ⟨rfl, hle⟩ := (handed_exact_iff hb he h1 h3 hpos).mp hx
      rw [handed_zero hb he hle] at hfl
      exact ⟨rfl, hle, f, hf, (hsubs f hf hle).mp hfl⟩
    · rintro ⟨rfl, hle, f, hf, hfl⟩
      refine ⟨h2, fun _ => ⟨f, hf, (handed_exact_iff hb he h1 h3 hpos).mpr ⟨rfl, hle⟩, ?_⟩⟩
      rw [handed_zero hb he hle]
      exact (hsubs f hf hle).mpr hfl
  rw [hpages]
  constructor
  · intro h
    by_cases hwhole : restricted = 0 ∧ t.pageSize ∣ b ∧ t.pageSize ∣ e
    · exact .inl hwhole
    · obtain ⟨i, h1, h2, hw⟩ := exists_part hpos hb hwhole
      exact .inr ((hpart i h2 hw).mp (h i h1 h2)).2
  · rintro (⟨hr, ⟨x, rfl⟩, ⟨y, rfl⟩⟩ | ⟨hle, hfirst⟩) i h1 h2
    · refine ⟨(hin i h2).2.1, fun hn => absurd ⟨hr, ?_, ?_⟩ hn⟩
      · rw [Nat.mul_div_cancel_left x hpos] at h1
        rw [Nat.mul_comm]
        exact Nat.mul_le_mul_right _ h1
      · have h3 := (hin i h2).1
        rw [Nat.mul_comm] at h3
        have h4 := Nat.mul_le_mul_left t.pageSize (Nat.succ_le_of_lt (Nat.lt_of_mul_lt_mul_left h3))
        rwa [Nat.mul_succ, Nat.mul_comm t.pageSize i] at h4
    · by_cases hw : t.Whole restricted b e i
      · exact ⟨(hin i h2).2.1, fun hn => absurd hw hn⟩
      · have hi : i = 0 := by
          have h3 := (hin i h2).1
          by_contra hne
          have := Nat.mul_le_mul_right t.pageSize (Nat.one_le_iff_ne_zero.mpr hne)
          omega
        exact (hpart i h2 hw).mpr ⟨hi, hle, hfirst⟩

end TreemapOf

end

namespace Treemap

/-- A hierarchy of at most `n` levels -/
def Wf : (n : Nat) → Treemap n → Prop
  | 0, _ => True
  | n + 1, t => TreemapOf.Wf (sub n) (Wf n) t

/-- The flushes that hand down exact offsets and use only mapping trees that are there. -/
def FlushOk : (n : Nat) → Treemap n → (restricted offsBegin offsEnd : Nat) → Prop
  | 0, _, _, _, _ => True
  | n + 1, t, restricted, offsBegin, offsEnd =>
    TreemapOf.FlushOk (sub n) (FlushOk n) t restricted offsBegin offsEnd

/-- `Treemap_ops::flush` of a part of a mapping of `2 ^ k` bytes, and the flushes below, do what they
should if and only if they delete whole pages or stay in the first page at every level. -/
theorem submap_flush_iff {n : Nat} (t : Treemap n) (wf : Wf n t) {k : Nat} (hk : k < 32)
    (hsize : (sub n).size t = 2 ^ k) (restricted : Nat) {b e : Nat} (hb : b < e) (he : e ≤ 2 ^ k) :
    FlushExact ((sub n).flush (2 ^ k) t restricted b e) ↔ FlushOk n t restricted b e := by
  induction n generalizing k restricted b e with
  | zero => exact Empty.elim t
  | succ n ih =>
    obtain ⟨j, hj, hpage⟩ := wf.1
    refine TreemapOf.flush_exact (fun s r b e hs hb he hsz => ?_) wf hk hsize hb he
    rw [hpage] at he hsz ⊢
    exact ih s hs hj hsz r hb he

/-- The mapping tree of a page without mappings but its own. -/
def pageTree : MappingTree := .make 0 0 4 fun _ => default

theorem pageTree_submap : ∀ m, pageTree.Live m → (pageTree.mappings m).submap = false := by
  have h : ∀ m < 4, pageTree.Live m → (pageTree.mappings m).submap = false := by decide
  exact fun m hm => h m hm.lt hm

/-- A submap of a superpage, with a mapping tree for its first page. -/
def superpage : Treemap 1 where
  keyEnd := 1024
  ownerId := 4
  pageSize := 4096
  frames i := if i = 0 then some ⟨pageTree, fun _ => none⟩ else none

theorem superpage_wf : Wf 1 superpage := by
  refine ⟨⟨12, by decide, rfl⟩, fun i f hf => ?_⟩
  simp only [superpage] at hf
  split at hf
  · cases hf
    refine ⟨MappingTree.make_wellFormed (by decide), by decide, fun m hl hm => ?_⟩
    rw [pageTree_submap m hl] at hm
    cases hm
  · cases hf

theorem submap_flush_iff_superpage : FlushExact ((sub 1).flush (2 ^ 22) superpage 5 0x100 0x1000) := by
  refine (submap_flush_iff superpage superpage_wf (by decide) rfl 5 (by decide) (by decide)).mpr
    (.inr ⟨le_rfl, ⟨pageTree, fun _ => none⟩, rfl, fun i s ho hs => ?_⟩)
  cases hs

/-- A flush of the second page for one tag: the page has no mapping tree. -/
theorem submap_flush_uses_no_tree : ¬ ∀ (n : Nat) (t : Treemap n), Wf n t → ∀ k < 32,
    (sub n).size t = 2 ^ k → ∀ restricted b e, b < e → e ≤ 2 ^ k →
      FlushExact ((sub n).flush (2 ^ k) t restricted b e) := by
  intro h
  have hex := h 1 superpage superpage_wf 22 (by decide) rfl 5 0x1000 0x2000 (by decide) (by decide)
  have hfail : ((sub 1).flush (2 ^ 22) superpage 5 0x1000 0x2000).toBool = false := by decide +kernel
  cases hr : (sub 1).flush (2 ^ 22) superpage 5 0x1000 0x2000 with
  | error e =>
    rw [hr] at hex
    exact hex
  | ok r =>
    rw [hr] at hfail
    cases hfail

end Treemap

end L4env.Fiasco
