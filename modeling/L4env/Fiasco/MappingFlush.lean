import L4env.Fiasco.MappingTreeInv

/-!
# Flushing a mapping tree
-/

namespace L4env.Fiasco

open Util.Preorder

namespace MappingTree

variable {t t' : MappingTree} {ops : SubmapOps} {parent restricted i j m : Nat} {meToo : Bool}
  {s : FlushState}

/-- `parent` is reached from `i` by `Mapping::parent()`. -/
def Descends (t : MappingTree) (i parent : Nat) : Prop :=
  Relation.TransGen (fun i m => t.parent i = some m) i parent

/-- The entries `flush` is to remove: `parent` itself, and its descendants that have the tag `restricted`
on the level below `parent`. -/
def Selected (t : MappingTree) (parent : Nat) (meToo : Bool) (restricted i : Nat) : Prop :=
  meToo = true ∧ i = parent ∨
    t.Descends i parent ∧ (restricted = 0 ∨ ∃ c, (c = i ∨ t.Descends i c) ∧
      (t.mappings c).depth = (t.mappings parent).depth + 1 ∧ (t.mappings c).tag = restricted)

/-- A child that is left alone. -/
def Spared (t : MappingTree) (parent restricted c : Nat) : Prop :=
  t.Live c ∧ restricted ≠ 0 ∧ t.depths c = t.depths parent + 1 ∧ (t.mappings c).tag ≠ restricted

/-- The subtree of `parent` is the last one of the array, and inside the subtree of the last child that is
left alone there is a hole in front of a live entry. -/
def HoleInSpared (t : MappingTree) (parent restricted : Nat) : Prop :=
  (∀ k, parent < k → t.InUse k → t.depths parent < t.depths k) ∧
    ∃ c h i, parent < c ∧ t.Spared parent restricted c ∧
      (∀ c', c < c' → ¬ t.Spared parent restricted c') ∧
      c < h ∧ h < i ∧ ¬ t.Live h ∧ t.Live i ∧ Under t.depths c i

theorem descends_iff : t.Descends i parent ↔ Under t.depths parent i := by
  rw [under_iff_transGen, Descends]
  simp only [parent_eq_some]

theorem selected_iff : t.Selected parent meToo restricted i ↔
    meToo = true ∧ i = parent ∨
      Under t.depths parent i ∧ (restricted = 0 ∨ ∃ c, (c = i ∨ Under t.depths c i) ∧
        t.depths c = t.depths parent + 1 ∧ (t.mappings c).tag = restricted) := by
  simp only [Selected, descends_iff]
  rfl

/-- What is below a selected entry is selected. -/
theorem Selected.of_isParent (hme : meToo = true → restricted = 0)
    (h : t.Selected parent meToo restricted m) (hm : IsParent t.depths i m) :
    t.Selected parent meToo restricted i := by
  rw [selected_iff] at *
  right
  rcases h with ⟨hmt, rfl⟩ | ⟨hu, hc⟩
  · exact ⟨hm.under, .inl (hme hmt)⟩
  · refine ⟨hu.trans hm.under, hc.imp_right fun ⟨c, hcm, hd, htag⟩ => ⟨c, .inr ?_, hd, htag⟩⟩
    rcases hcm with rfl | hcm
    · exact hm.under
    · exact hcm.trans hm.under

/-- Nothing below a spared child is selected. -/
theorem Spared.not_selected {c : Nat} (hc : t.Spared parent restricted c)
    (hi : c = i ∨ Under t.depths c i) (hme : meToo = true → restricted = 0) :
    ¬ t.Selected parent meToo restricted i := by
  rw [selected_iff]
  rintro (⟨hmt, -⟩ | ⟨-, h0 | ⟨c', hc', hd, htag⟩⟩)
  · exact hc.2.1 (hme hmt)
  · exact hc.2.1 h0
  · -- both are the ancestor on the level below `parent`
    have hcc : c = c' := by
      have hdc := hc.2.2.1
      have hle : c ≤ i := hi.elim (fun h => h.le) fun h => h.1.le
      have hle' : c' ≤ i := hc'.elim (fun h => h.le) fun h => h.1.le
      rcases lt_trichotomy c c' with hlt | heq | hlt
      · have hu : Under t.depths c i := hi.resolve_left (by omega)
        exact absurd (hu.2 c' hlt hle') (by omega)
      · exact heq
      · have hu : Under t.depths c' i := hc'.resolve_left (by omega)
        exact absurd (hu.2 c hlt hle) (by omega)
    exact hc.2.2.2 (hcc ▸ htag)

/-! ## The sweep -/

/-- The sweep has passed the subtree of `parent` up to `m`. -/
def Passed (t : MappingTree) (parent m : Nat) : Prop :=
  parent < m ∧ ∀ k, parent < k → k < m → t.InUse k ∧ t.depths parent < t.depths k

/-- `start_of_deletions` is behind the subtree of the spared child `c`, as far as it was seen, which has no
holes. -/
def Tight (t : MappingTree) (c start m : Nat) : Prop :=
  (∀ k, c < k → k < start → t.Live k) ∧ ∀ k, start ≤ k → k < m → t.Live k → ¬ Under t.depths c k

/-- There is a hole in the subtree, and `start_of_deletions` is not behind the last entry that was seen. -/
def Lags (t : MappingTree) (c start m : Nat) : Prop :=
  ∃ h i, c < h ∧ h < i ∧ i < m ∧ ¬ t.Live h ∧ t.Live i ∧ Under t.depths c i ∧ start ≤ i

/-- Where `start_of_deletions` is when the sweep is at `m`. -/
def StartAt (t : MappingTree) (parent : Nat) (meToo : Bool) (restricted start m : Nat) : Prop :=
  ((∀ c, parent < c → c < m → ¬ t.Spared parent restricted c) ∧
      start = if meToo then parent else parent + 1) ∨
    ∃ c, parent < c ∧ c < m ∧ t.Spared parent restricted c ∧
      (∀ c', c < c' → c' < m → ¬ t.Spared parent restricted c') ∧ c < start ∧ start ≤ m ∧
      (t.Tight c start m ∨ t.Lags c start m)

/-- The sweep is inside the subtree of a spared child. -/
def InSpared (t : MappingTree) (parent restricted m : Nat) : Prop :=
  ∃ c, parent < c ∧ c < m ∧ t.Spared parent restricted c ∧ ∀ k, c < k → k < m → t.depths c < t.depths k

/-- The invariant of the loop. -/
structure Sweep (t : MappingTree) (parent : Nat) (meToo : Bool) (restricted m : Nat) (s : FlushState) :
    Prop where
  size : s.tree.sizeId = t.sizeId
  kept : ∀ j, (m ≤ j ∨ ¬ (t.Live j ∧ t.Selected parent meToo restricted j)) →
    s.tree.mappings j = t.mappings j
  gone : ∀ j < m, t.Live j → t.Selected parent meToo restricted j →
    s.tree.depths j = Mapping.depthEmpty
  skip : s.skipSubtree = true ↔ t.InSpared parent restricted m
  start : t.StartAt parent meToo restricted s.startOfDeletions m

theorem Passed.under (h : t.Passed parent m) (hd : t.depths parent < t.depths m) :
    Under t.depths parent m := by
  refine ⟨h.1, fun k hk hkm => ?_⟩
  rcases hkm.eq_or_lt with rfl | hlt
  · exact hd
  · exact (h.2 k hk hlt).2

theorem Passed.succ (h : t.Passed parent m) (hm : t.InUse m) (hd : t.depths parent < t.depths m) :
    t.Passed parent (m + 1) := by
  refine ⟨by have := h.1; omega, fun k hk hkm => ?_⟩
  rcases Nat.lt_or_ge k m with hlt | hge
  · exact h.2 k hk hlt
  · obtain rfl : k = m := by omega
    exact ⟨hm, hd⟩

/-- The spared child above the sweep is the last one. -/
theorem InSpared.not_spared {c c' : Nat} (hc : t.Spared parent restricted c)
    (hb : ∀ k, c < k → k < m → t.depths c < t.depths k) (hcc : c < c') (hm : c' < m) :
    ¬ t.Spared parent restricted c' := by
  intro hc'
  have h1 := hc.2.2.1
  have h2 := hc'.2.2.1
  exact absurd (hb c' hcc hm) (by omega)

theorem inSpared_succ_of_lt (hd : t.depths parent + 1 < t.depths m) :
    t.InSpared parent restricted (m + 1) ↔ t.InSpared parent restricted m := by
  constructor
  · rintro ⟨c, hpc, hcm, hc, hb⟩
    have hdc := hc.2.2.1
    have hne : c ≠ m := by
      rintro rfl
      omega
    exact ⟨c, hpc, by omega, hc, fun k hk hkm => hb k hk (by omega)⟩
  · rintro ⟨c, hpc, hcm, hc, hb⟩
    refine ⟨c, hpc, by omega, hc, fun k hk hkm => ?_⟩
    rcases Nat.lt_or_ge k m with hlt | hge
    · exact hb k hk hlt
    · obtain rfl : k = m := by omega
      have hdc := hc.2.2.1
      omega

theorem StartAt.le {start : Nat} (h : t.StartAt parent meToo restricted start m) (hp : parent < m) :
    start ≤ m := by
  rcases h with ⟨-, hs⟩ | ⟨_, _, _, _, _, _, hs, _⟩
  · subst hs
    split_ifs <;> omega
  · exact hs

/-- An entry the sweep passes that is neither spared nor below the last spared child. -/
theorem StartAt.pass {start : Nat} (h : t.StartAt parent meToo restricted start m)
    (hm : ¬ t.Spared parent restricted m)
    (hu : ∀ c, parent < c → c < m → t.Spared parent restricted c → t.Live m → ¬ Under t.depths c m) :
    t.StartAt parent meToo restricted start (m + 1) := by
  have hlast : ∀ {c}, (∀ c', c < c' → c' < m → ¬ t.Spared parent restricted c') →
      ∀ c', c < c' → c' < m + 1 → ¬ t.Spared parent restricted c' := fun hb c' hc' hcm => by
    rcases Nat.lt_or_ge c' m with hlt | hge
    · exact hb c' hc' hlt
    · obtain rfl : c' = m := by omega
      exact hm
  rcases h with ⟨hnone, hs⟩ | ⟨c, hpc, hcm, hc, hb, hcs, hs, htl⟩
  · exact .inl ⟨hlast hnone, hs⟩
  · refine .inr ⟨c, hpc, by omega, hc, hlast hb, hcs, by omega, htl.imp ?_ ?_⟩
    · refine fun ⟨ht, hr⟩ => ⟨ht, fun k hk hkm hlive => ?_⟩
      rcases Nat.lt_or_ge k m with hlt | hge
      · exact hr k hk hlt hlive
      · obtain rfl : k = m := by omega
        exact hu c hpc hcm hc hlive
    · exact fun ⟨h, i, hch, hhi, him, hl⟩ => ⟨h, i, hch, hhi, by omega, hl⟩

/-- A live entry below the last spared child moves the start by one. -/
theorem StartAt.skip {start : Nat} (h : t.StartAt parent meToo restricted start m)
    (hin : t.InSpared parent restricted m) (hm : t.Live m)
    (hd : t.depths parent + 1 < t.depths m) :
    t.StartAt parent meToo restricted (start + 1) (m + 1) := by
  obtain ⟨c, hpc, hcm, hc, hb⟩ := hin
  have hum : Under t.depths c m := by
    refine ⟨hcm, fun k hk hkm => ?_⟩
    rcases hkm.eq_or_lt with rfl | hlt
    · have := hc.2.2.1
      omega
    · exact hb k hk hlt
  have hnext : ∀ c', c < c' → c' < m + 1 → ¬ t.Spared parent restricted c' := fun c' hc' hcm' =>
    InSpared.not_spared (m := m + 1) hc (fun k hk hkm => hum.2 k hk (by omega)) hc' hcm'
  rcases h with ⟨hnone, -⟩ | ⟨c', hpc', hcm', hc', hb', hcs, hs, htl⟩
  · exact absurd hc (hnone c hpc hcm)
  · obtain rfl : c' = c := by
      rcases lt_trichotomy c c' with hlt | heq | hlt
      · exact absurd hc' (hnext c' hlt (by omega))
      · exact heq.symm
      · exact absurd hc (hb' c hlt hcm)
    refine .inr ⟨c', hpc, by omega, hc, hnext, by omega, by omega, ?_⟩
    rcases htl with ⟨ht, hr⟩ | ⟨h, i, hch, hhi, him, hh, hi, hu, hsi⟩
    · rcases hs.eq_or_lt with rfl | hlt
      · left
        refine ⟨fun k hk hks => ?_, fun k hk hkm => by omega⟩
        rcases Nat.lt_or_ge k start with hlt | hge
        · exact ht k hk hlt
        · obtain rfl : k = start := by omega
          exact hm
      · right
        -- the first entry behind the part without holes is one
        have hdead : ¬ t.Live start := fun hlive =>
          hr start le_rfl hlt hlive (hum.of_le hcs hlt.le)
        exact ⟨start, m, hcs, hlt, by omega, hdead, hm, hum, by omega⟩
    · right
      exact ⟨h, m, hch, by omega, by omega, hh, hm, hum, by omega⟩

theorem depths_lt_of_spared {c : Nat} (hc : t.Spared parent restricted c)
    (hm : ¬ t.Live m) (hu : t.InUse m) : t.depths c < t.depths m :=
  lt_of_lt_of_le hc.1.depths_lt (hu.le_depths hm)

/-- A hole keeps the sweep inside or outside. -/
theorem inSpared_succ_of_dead (hu : t.InUse m) (hm : ¬ t.Live m) :
    t.InSpared parent restricted (m + 1) ↔ t.InSpared parent restricted m := by
  constructor
  · rintro ⟨c, hpc, hcm, hc, hb⟩
    have hne : c ≠ m := by
      rintro rfl
      exact hm hc.1
    exact ⟨c, hpc, by omega, hc, fun k hk hkm => hb k hk (by omega)⟩
  · rintro ⟨c, hpc, hcm, hc, hb⟩
    refine ⟨c, hpc, by omega, hc, fun k hk hkm => ?_⟩
    rcases Nat.lt_or_ge k m with hlt | hge
    · exact hb k hk hlt
    · obtain rfl : k = m := by omega
      exact depths_lt_of_spared hc hm hu

theorem Sweep.hole (h : t.Sweep parent meToo restricted m s) (hu : t.InUse m) (hm : ¬ t.Live m)
    {n : Nat} : t.Sweep parent meToo restricted (m + 1) { s with emptyElemsPassed := n } where
  size := h.size
  kept j hj := h.kept j (hj.imp_left fun hj => by omega)
  gone j hj hlive hsel := by
    rcases Nat.lt_or_ge j m with hlt | hge
    · exact h.gone j hlt hlive hsel
    · obtain rfl : j = m := by omega
      exact absurd hlive hm
  skip := h.skip.trans (inSpared_succ_of_dead hu hm).symm
  start := h.start.pass (fun hs => hm hs.1) fun _ _ _ _ hlive => absurd hlive hm

/-- Going on inside the subtree of a spared child. -/
theorem Sweep.pass (h : t.Sweep parent meToo restricted m s) (hme : meToo = true → restricted = 0)
    (hm : t.Live m) (hskip : s.skipSubtree = true) (hd : t.depths parent + 1 < t.depths m) :
    t.Sweep parent meToo restricted (m + 1)
      { s with startOfDeletions := s.startOfDeletions + 1 } where
  size := h.size
  kept j hj := h.kept j (hj.imp_left fun hj => by omega)
  gone j hj hlive hsel := by
    rcases Nat.lt_or_ge j m with hlt | hge
    · exact h.gone j hlt hlive hsel
    · obtain rfl : j = m := by omega
      obtain ⟨c, _, hcm, hc, hb⟩ := h.skip.mp hskip
      refine absurd hsel (hc.not_selected (.inr ⟨hcm, fun k hk hkm => ?_⟩) hme)
      rcases hkm.eq_or_lt with rfl | hlt
      · have := hc.2.2.1
        omega
      · exact hb k hk hlt
  skip := h.skip.trans (inSpared_succ_of_lt hd).symm
  start := h.start.skip (h.skip.mp hskip) hm hd

theorem startAt_of_spared (hp : parent < m) (hm : t.Spared parent restricted m) :
    t.StartAt parent meToo restricted (m + 1) (m + 1) :=
  .inr ⟨m, hp, by omega, hm, fun c' _ _ => by omega, by omega, le_rfl,
    .inl ⟨fun k _ _ => by omega, fun k _ _ => by omega⟩⟩

/-- A child is left alone. -/
theorem Sweep.spare (h : t.Sweep parent meToo restricted m s) (hme : meToo = true → restricted = 0)
    (hp : parent < m) (hm : t.Spared parent restricted m) {n : Nat} {e : BitVec 11} :
    t.Sweep parent meToo restricted (m + 1)
      { s with
        mDepth := n
        tree := { s.tree with emptyCount := e }
        skipSubtree := true
        startOfDeletions := m + 1 } where
  size := h.size
  kept j hj := h.kept j (hj.imp_left fun hj => by omega)
  gone j hj hlive hsel := by
    rcases Nat.lt_or_ge j m with hlt | hge
    · exact h.gone j hlt hlive hsel
    · obtain rfl : j = m := by omega
      exact absurd hsel (hm.not_selected (.inl rfl) hme)
  skip := ⟨fun _ => ⟨m, hp, by omega, hm, fun k _ _ => by omega⟩, fun _ => rfl⟩
  start := startAt_of_spared hp hm

/-- An entry that is neither below a spared child nor one is selected. -/
theorem selected_of_not_inSpared (wf : t.WellFormed) (hreg : t.Regular m)
    (hu : Under t.depths parent m) (hin : t.depths parent + 1 < t.depths m → ¬ t.InSpared parent restricted m)
    (hm : ¬ t.Spared parent restricted m) : t.Selected parent meToo restricted m := by
  rw [selected_iff]
  refine .inr ⟨hu, ?_⟩
  rcases eq_or_ne restricted 0 with h0 | h0
  · exact .inl h0
  have hdm := hu.2 m hu.1 le_rfl
  obtain ⟨c, hcm, hc, hdc, hb⟩ := wf.exists_ancestor (t.depths parent + 1) hreg hdm
  have hpc : parent < c := by
    by_contra hle
    rcases (Nat.le_of_not_lt hle).eq_or_lt with rfl | hlt
    · omega
    · exact absurd (hb parent hlt hu.1.le) (by omega)
  refine .inr ⟨c, ?_, hdc, ?_⟩
  · rcases hcm.eq_or_lt with heq | hlt
    · exact .inl heq
    · exact .inr ⟨hlt, fun k hk hkm => by rw [hdc]; exact hb k hk hkm⟩
  · by_contra htag
    have hs : t.Spared parent restricted c := ⟨hc.live, h0, hdc, htag⟩
    rcases hcm.eq_or_lt with rfl | hlt
    · exact hm hs
    · refine hin (hb m hlt le_rfl) ⟨c, hpc, hlt, hs, fun k hk hkm => ?_⟩
      rw [hdc]
      exact hb k hk hkm.le

/-- An entry is removed. -/
theorem Sweep.remove (wf : t.WellFormed) (h : t.Sweep parent meToo restricted m s)
    (hreg : t.Regular m) (hu : Under t.depths parent m)
    (hin : t.depths parent + 1 < t.depths m → ¬ t.InSpared parent restricted m)
    (hm : ¬ t.Spared parent restricted m) {space n : Nat} :
    t.Sweep parent meToo restricted (m + 1)
      ({ s with skipSubtree := false, mDepth := n }.freeMapping space m) := by
  have hsel : t.Selected parent meToo restricted m := selected_of_not_inSpared wf hreg hu hin hm
  have hout : ¬ t.InSpared parent restricted (m + 1) := by
    by_cases hd : t.depths parent + 1 < t.depths m
    · rw [inSpared_succ_of_lt hd]
      exact hin hd
    · rintro ⟨c, _, hcm, hc, hb⟩
      rcases (Nat.le_of_lt_succ hcm).eq_or_lt with rfl | hlt
      · exact hm hc
      · have h1 := hb m hlt (by omega)
        have h2 := hc.2.2.1
        omega
  refine ⟨h.size, fun j hj => ?_, fun j hj hlive hselj => ?_, ⟨nofun, fun hin => absurd hin hout⟩, ?_⟩
  · have hne : j ≠ m := by
      rintro rfl
      rcases hj with hj | hj
      · omega
      · exact hj ⟨hreg.live, hsel⟩
    simp only [FlushState.freeMapping, setDepth, store, Function.update_of_ne hne]
    exact h.kept j (hj.imp_left fun hj => by omega)
  · rcases eq_or_ne j m with rfl | hne
    · simp [FlushState.freeMapping, setDepth, store, depths]
    · simp only [FlushState.freeMapping, setDepth, store, depths, Function.update_of_ne hne]
      exact h.gone j (by omega) hlive hselj
  · refine h.start.pass hm fun c hpc hcm hc _ hum => hout ⟨c, hpc, by omega, hc, fun k hk hkm => ?_⟩
    exact hum.2 k hk (by omega)

/-- One turn of the loop. -/
theorem Sweep.visit (wf : t.WellFormed) (hsub : ∀ i, t.Live i → (t.mappings i).submap = false)
    (hme : meToo = true → restricted = 0) (h : t.Sweep parent meToo restricted m s)
    (hp : t.Passed parent m) (hu : t.InUse m) (hd : t.depths parent < t.depths m) :
    t.Sweep parent meToo restricted (m + 1)
      (s.visit ops (t.depths parent) restricted meToo m) := by
  have hread : s.tree.mappings m = t.mappings m := h.kept m (.inl le_rfl)
  rw [FlushState.visit, hread]
  by_cases hun : (t.mappings m).unused = true
  · simp only [hun, if_true]
    exact h.hole hu fun hlive => by simp [hlive.2] at hun
  have hlive : t.Live m := ⟨hu, by simpa using hun⟩
  have hreg : t.Regular m := ⟨hlive, hsub m hlive⟩
  simp only [hun, Bool.false_eq_true, if_false, hreg.2]
  by_cases hskip : s.skipSubtree = true ∧ t.depths parent + 1 < (t.mappings m).depth
  · rw [if_pos hskip]
    exact h.pass hme hlive hskip.1 hskip.2
  rw [if_neg hskip]
  by_cases hspare : restricted ≠ 0 ∧ (t.mappings m).depth = t.depths parent + 1 ∧
      (t.mappings m).tag ≠ restricted
  · rw [if_pos hspare]
    exact h.spare hme hp.1 ⟨hlive, hspare.1, hspare.2⟩
  · rw [if_neg hspare]
    refine h.remove wf hreg (hp.under hd) (fun hdm hin => hskip ⟨h.skip.mpr hin, hdm⟩) fun hs => ?_
    exact hspare ⟨hs.2.1, hs.2.2⟩

/-- The loop of `flush`. -/
theorem Sweep.loop (ops : SubmapOps) (wf : t.WellFormed) (hsub : ∀ i, t.Live i → (t.mappings i).submap = false)
    (hme : meToo = true → restricted = 0) (hpar : t.InUse parent) {n : Nat}
    (hn : m + n = t.numberOfEntries) (h : t.Sweep parent meToo restricted m s)
    (hp : t.Passed parent m) :
    ∃ m' ≤ t.numberOfEntries, t.Passed parent m' ∧
      t.Sweep parent meToo restricted m' (flushLoop ops (t.depths parent) restricted meToo n m s).1 ∧
      if (flushLoop ops (t.depths parent) restricted meToo n m s).2
      then t.InUse m' ∧ t.depths m' ≤ t.depths parent else ∀ k, m' ≤ k → ¬ t.InUse k := by
  induction n generalizing m s with
  | zero => exact ⟨m, hn.le, hp, h, fun k hk hu => absurd hu.1 (by omega)⟩
  | succ n ih =>
    have hread : s.tree.mappings m = t.mappings m := h.kept m (.inl le_rfl)
    rw [flushLoop, hread]
    by_cases hend : (t.mappings m).isEndTag = true
    · simp only [hend, if_true]
      exact ⟨m, by omega, hp, h, fun k hk hu => by simp [(hu.of_le hk).isEndTag] at hend⟩
    have hu : t.InUse m := by
      refine inUse_succ (fun j hj => ?_) (by omega) (by simpa using hend)
      rcases Nat.lt_or_ge parent j with hlt | hge
      · exact (hp.2 j hlt hj).1
      · exact hpar.of_le hge
    simp only [hend, Bool.false_eq_true, if_false]
    by_cases hd : (t.mappings m).depth ≤ t.depths parent
    · simp only [hd, if_true]
      exact ⟨m, by omega, hp, h, hu, hd⟩
    · simp only [hd, if_false]
      have hlt : t.depths parent < t.depths m := Nat.lt_of_not_le hd
      exact ih (by omega) (h.visit wf hsub hme hp hu hlt) (hp.succ hu hlt)

theorem sweep_start (meToo : Bool) (restricted : Nat) (hpar : t.Live parent) :
    t.Sweep parent meToo restricted (parent + 1) (t.flushStart parent meToo) := by
  have hnot : ∀ j < parent + 1, t.Selected parent meToo restricted j → meToo = true ∧ j = parent := by
    intro j hj hsel
    rcases selected_iff.mp hsel with h | ⟨hu, -⟩
    · exact h
    · exact absurd hu.1 (by omega)
  have hskip : false = true ↔ t.InSpared parent restricted (parent + 1) :=
    ⟨nofun, fun ⟨c, hpc, hcm, _⟩ => absurd hpc (by omega)⟩
  have hstart : ∀ start, (start = if meToo then parent else parent + 1) →
      t.StartAt parent meToo restricted start (parent + 1) := fun start hs =>
    .inl ⟨fun c hpc hcm => absurd hpc (by omega), hs⟩
  cases meToo with
  | false =>
    exact ⟨rfl, fun j _ => rfl, fun j hj _ hsel => absurd (hnot j hj hsel).1 nofun, hskip, hstart _ rfl⟩
  | true =>
    refine ⟨rfl, fun j hj => ?_, fun j hj _ hsel => ?_, hskip, hstart _ rfl⟩
    · have hne : j ≠ parent := by
        rintro rfl
        rcases hj with hj | hj
        · omega
        · exact hj ⟨hpar, .inl ⟨rfl, rfl⟩⟩
      simp [flushStart, FlushState.freeMapping, setDepth, store, hne]
    · obtain rfl := (hnot j hj hsel).2
      simp [flushStart, FlushState.freeMapping, setDepth, store, depths]

/-- Where the sweep starts its last part, and what is behind it. -/
theorem StartAt.exact {start : Nat} (wf : t.WellFormed)
    (hsub : ∀ i, t.Live i → (t.mappings i).submap = false) (hme : meToo = true → restricted = 0)
    (hp : t.Passed parent m) (hend : ∀ k, m ≤ k → ¬ t.InUse k)
    (h : t.StartAt parent meToo restricted start m) :
    (∀ j, t.Live j → ¬ t.Selected parent meToo restricted j → j < start) ↔
      ¬ t.HoleInSpared parent restricted := by
  have hlt : ∀ k, t.Live k → k < m := fun k hk => Nat.lt_of_not_le fun hle => hend k hle hk.inUse
  have hunder : ∀ j, parent < j → t.Live j → Under t.depths parent j := fun j hj hlive =>
    ⟨hj, fun k hk hkj => (hp.2 k hk (lt_of_le_of_lt hkj (hlt j hlive))).2⟩
  rcases h with ⟨hnone, hs⟩ | ⟨c, hpc, hcm, hc, hb, hcs, hs, ht | ⟨h, i, hch, hhi, him, hh, hi, hu, hsi⟩⟩
  · -- no child is spared
    constructor
    · rintro - ⟨-, c, _, _, hpc, hc, -⟩
      exact hnone c hpc (hlt c hc.1) hc
    · intro _ j hj hsel
      rcases lt_trichotomy j parent with hjp | rfl | hpj
      · subst hs
        split_ifs <;> omega
      · cases meToo with
        | true => exact absurd (.inl ⟨rfl, rfl⟩) hsel
        | false =>
          simp only [Bool.false_eq_true, if_false] at hs
          omega
      · refine absurd (selected_of_not_inSpared wf ⟨hj, hsub j hj⟩ (hunder j hpj hj) ?_ ?_) hsel
        · rintro - ⟨c, hpc, hcj, hc, -⟩
          exact hnone c hpc (hlt c hc.1) hc
        · exact fun hs => hnone j hpj (hlt j hj) hs
  · -- no holes
    have hlast : ∀ c', c < c' → ¬ t.Spared parent restricted c' := fun c' hcc hs =>
      hb c' hcc (hlt c' hs.1) hs
    constructor
    · rintro - ⟨-, c', h, i, _, hc', hb', hch, hhi, hh, hi, hu⟩
      obtain rfl : c' = c := by
        rcases lt_trichotomy c c' with hlt | heq | hlt
        · exact absurd hc' (hlast c' hlt)
        · exact heq.symm
        · exact absurd hc (hb' c hlt)
      have his : i < start := Nat.lt_of_not_le fun hle => ht.2 i hle (hlt i hi) hi hu
      exact hh (ht.1 h hch (hhi.trans his))
    · intro _ j hj hsel
      by_contra hjs
      refine hsel (selected_of_not_inSpared wf ⟨hj, hsub j hj⟩ (hunder j (by omega) hj) ?_ ?_)
      · rintro hdj ⟨c', hpc', hcj', hc', hb'⟩
        obtain rfl : c' = c := by
          rcases lt_trichotomy c c' with hlt | heq | hlt
          · exact absurd hc' (hlast c' hlt)
          · exact heq.symm
          · have h1 := hb' c hlt (by omega)
            have h2 := hc.2.2.1
            have h3 := hc'.2.2.1
            omega
        refine ht.2 j (by omega) (hlt j hj) hj ⟨hcj', fun k hk hkj => ?_⟩
        rcases hkj.eq_or_lt with rfl | hkj
        · have := hc.2.2.1
          omega
        · exact hb' k hk hkj
      · exact fun hs => hlast j (by omega) hs
  · -- the hole
    constructor
    · intro hall
      have := hall i hi (hc.not_selected (.inr hu) hme)
      omega
    · refine fun hno => absurd ⟨fun k hk hu => (hp.2 k hk ?_).2, c, h, i, hpc, hc, ?_, hch, hhi, hh, hi, hu⟩ hno
      · exact Nat.lt_of_not_le fun hle => hend k hle hu
      · exact fun c' hcc hs => hb c' hcc (hlt c' hs.1) hs

/-! ## The result -/

/-- The selected entries are removed, and the array is cut off at `e`. -/
structure CutAt (t t' : MappingTree) (parent : Nat) (meToo : Bool) (restricted e : Nat) : Prop where
  use : ∀ j, t'.InUse j ↔ t.InUse j ∧ j < e
  kept : ∀ j < e, ¬ (t.Live j ∧ t.Selected parent meToo restricted j) →
    t'.mappings j = t.mappings j
  gone : ∀ j < e, t.Live j → t.Selected parent meToo restricted j →
    t'.depths j = Mapping.depthEmpty

theorem CutAt.live {e : Nat} (h : t.CutAt t' parent meToo restricted e) :
    t'.Live j ↔ t.Live j ∧ ¬ t.Selected parent meToo restricted j ∧ j < e := by
  constructor
  · intro hj
    obtain ⟨hu, hje⟩ := (h.use j).mp hj.inUse
    by_cases hsel : t.Live j ∧ t.Selected parent meToo restricted j
    · have := hj.depths_lt
      rw [h.gone j hje hsel.1 hsel.2] at this
      exact absurd this (lt_irrefl _)
    · have hlive : t.Live j := ⟨hu, by rw [← h.kept j hje hsel]; exact hj.2⟩
      exact ⟨hlive, fun hs => hsel ⟨hlive, hs⟩, hje⟩
  · rintro ⟨hlive, hsel, hje⟩
    exact ⟨(h.use j).mpr ⟨hlive.inUse, hje⟩, by rw [h.kept j hje fun hs => hsel hs.2]; exact hlive.2⟩

theorem CutAt.carries_iff {e : Nat} (wf : t.WellFormed) (hme : meToo = true → restricted = 0)
    (h : t.CutAt t' parent meToo restricted e) :
    t.Carries t' (fun i => ¬ t.Selected parent meToo restricted i) (fun _ => False) id ↔
      ∀ j, t.Live j → ¬ t.Selected parent meToo restricted j → j < e := by
  constructor
  · intro hc j hj hsel
    exact (h.live.mp ((hc.live j).mpr (.inr ⟨j, hj, hsel, rfl⟩))).2.2
  · intro hall
    have hentry : ∀ i, t.Live i → ¬ t.Selected parent meToo restricted i →
        t'.mappings i = t.mappings i := fun i hi hsel =>
      h.kept i (hall i hi hsel) fun hs => hsel hs.2
    refine ⟨fun j => ?_, fun i _ _ => id, fun i j _ _ _ _ => id, hentry, fun i hi hsel => ?_⟩
    · rw [h.live]
      exact ⟨fun ⟨hj, hsel, _⟩ => .inr ⟨j, hj, hsel, rfl⟩, fun hj => by
        obtain ⟨i, hi, hsel, rfl⟩ := hj.resolve_left id
        exact ⟨hi, hsel, hall i hi hsel⟩⟩
    · refine parent_map wf (L := fun i => t.Live i ∧ ¬ t.Selected parent meToo restricted i)
        (fun _ => And.left) (fun i m hi hm => ⟨(isParent_regular hi.1 hm).live, fun hsm => ?_⟩) rfl
        (fun _ _ _ _ => id) (fun i hi => by rw [depths, id, hentry i hi.1 hi.2]; rfl) ⟨hi, hsel⟩ ?_
      · exact hi.2 (hsm.of_isParent hme hm)
      · intro m _ j _ hji
        by_cases hj : t.Live j ∧ ¬ t.Selected parent meToo restricted j
        · exact .inl ⟨j, hj, rfl⟩
        · -- a hole, old or new
          right
          have hdead : ¬ t'.Live j := fun hl => hj ⟨(h.live.mp hl).1, (h.live.mp hl).2.1⟩
          have huse : t'.InUse j := (h.use j).mpr ⟨hi.inUse.of_le (le_of_lt hji),
            lt_trans hji (hall i hi hsel)⟩
          have h1 := huse.le_depths hdead
          have h2 := hi.depths_lt
          omega

theorem Sweep.cutAt {e : Nat} (h : t.Sweep parent meToo restricted m s)
    (hall : ∀ j, t.Live j → t.Selected parent meToo restricted j → j < m)
    (hsize : t'.sizeId = s.tree.sizeId) (hsame : ∀ j < e, t'.mappings j = s.tree.mappings j)
    (hend : e = t.numberOfEntries ∨ (t'.mappings e).isEndTag = true) (he : e ≤ t.numberOfEntries) :
    t.CutAt t' parent meToo restricted e := by
  have hn : t'.numberOfEntries = t.numberOfEntries := by
    simp only [numberOfEntries, hsize, h.size]
  have hkept : ∀ j < e, ¬ (t.Live j ∧ t.Selected parent meToo restricted j) →
      t'.mappings j = t.mappings j := fun j hj hsel => (hsame j hj).trans (h.kept j (.inr hsel))
  have hgone : ∀ j < e, t.Live j → t.Selected parent meToo restricted j →
      t'.depths j = Mapping.depthEmpty := fun j hj hlive hsel => by
    rw [depths, hsame j hj]
    exact h.gone j (hall j hlive hsel) hlive hsel
  have htag : ∀ j < e, (t'.mappings j).isEndTag = (t.mappings j).isEndTag := fun j hj => by
    by_cases hsel : t.Live j ∧ t.Selected parent meToo restricted j
    · rw [Mapping.isEndTag_of_used hsel.1.2, Mapping.isEndTag_eq_false]
      exact (hgone j hj hsel.1 hsel.2).trans_ne (by decide)
    · rw [hkept j hj hsel]
  refine ⟨fun j => ⟨fun hu => ?_, ?_⟩, hkept, hgone⟩
  · have hje : j < e := by
      have hjn := hu.1
      rcases hend with rfl | hend
      · omega
      · by_contra hle
        have := (hu.of_le (Nat.le_of_not_lt hle)).isEndTag
        rw [hend] at this
        cases this
    refine ⟨⟨by have := hu.1; omega, fun k hk => ?_⟩, hje⟩
    rw [← htag k (by omega)]
    exact hu.2 k hk
  · rintro ⟨hu, hje⟩
    refine ⟨by omega, fun k hk => ?_⟩
    rw [htag k (by omega)]
    exact hu.2 k hk

/-- The end of `flush`: what is left is what lies in front of `e`, which leaves out no entry that is to stay
exactly if there is no hole. -/
theorem Sweep.finish (wf : t.WellFormed) (hsub : ∀ i, t.Live i → (t.mappings i).submap = false)
    (hme : meToo = true → restricted = 0) {stopped : Bool} (hmn : m ≤ t.numberOfEntries)
    (hp : t.Passed parent m) (h : t.Sweep parent meToo restricted m s)
    (hlast : if stopped then t.InUse m ∧ t.depths m ≤ t.depths parent else ∀ k, m ≤ k → ¬ t.InUse k) :
    ∃ e, t.CutAt (s.finish stopped).tree parent meToo restricted e ∧
      ((∀ j, t.Live j → ¬ t.Selected parent meToo restricted j → j < e) ↔
        ¬ t.HoleInSpared parent restricted) := by
  have hn : s.tree.numberOfEntries = t.numberOfEntries := by
    simp only [numberOfEntries, h.size]
  cases stopped with
  | true =>
    -- an entry behind the subtree was found, nothing is cut off
    obtain ⟨hu, hd⟩ := hlast
    have hall : ∀ j, t.Live j → t.Selected parent meToo restricted j → j < m := by
      intro j _ hj
      rcases selected_iff.mp hj with ⟨-, rfl⟩ | ⟨hund, -⟩
      · exact hp.1
      · by_contra hle
        exact absurd (hund.2 m hp.1 (by omega)) (by omega)
    refine ⟨t.numberOfEntries, h.cutAt hall rfl (fun _ _ => rfl) (.inl rfl) le_rfl, fun _ hno => ?_,
      fun _ j hj _ => hj.lt⟩
    exact absurd (hno.1 m hp.1 hu) (by omega)
  | false =>
    have hall : ∀ j, t.Live j → t.Selected parent meToo restricted j → j < m := fun j hj _ =>
      Nat.lt_of_not_le fun hle => hlast j hle hj.inUse
    refine ⟨s.startOfDeletions, ?_, h.start.exact wf hsub hme hp hlast⟩
    have hle := h.start.le hp.1
    simp only [FlushState.finish, Bool.false_eq_true, if_false]
    split_ifs with hs
    · refine h.cutAt hall rfl (fun j hj => ?_) (.inr ?_) (by omega)
      · simp [setDepth, store, hj.ne]
      · simp [setDepth, store, Mapping.isEndTag]
    · exact h.cutAt hall rfl (fun _ _ => rfl) (.inl (by omega)) (by omega)

/-- `flush` removes the selected entries, and all others stay as and where they are in the tree, exactly if no
hole inside the last child that is left alone comes in front of a live entry of it, with nothing behind the
subtree of `parent`. -/
theorem flush_exact_iff (wf : t.WellFormed) (hsub : ∀ i, t.Live i → (t.mappings i).submap = false)
    (hpar : t.Live parent) (hme : meToo = true → restricted = 0) :
    t.Carries (t.flush ops parent meToo restricted).tree
        (fun i => ¬ t.Selected parent meToo restricted i) (fun _ => False) id ↔
      ¬ t.HoleInSpared parent restricted := by
  have hlt := hpar.lt
  obtain ⟨m, hmn, hp, hsweep, hlast⟩ := Sweep.loop ops wf hsub hme hpar.inUse
    (n := t.numberOfEntries - (parent + 1)) (by omega) (sweep_start meToo restricted hpar)
    ⟨by omega, fun k _ _ => by omega⟩
  obtain ⟨e, hcut, hexact⟩ := hsweep.finish wf hsub hme hmn hp hlast
  exact (hcut.carries_iff wf hme).trans hexact

/-- A root, a child and a grandchild behind the hole its removed sibling has left. -/
def holed : MappingTree where
  count := 3
  sizeId := 1
  emptyCount := 1
  mappings := fun i =>
    [⟨0, 1, 0, 1, 0⟩, ⟨1, 5, 0, 5, 0⟩, ⟨Mapping.depthEmpty, 6, 0, 6, 0⟩, ⟨2, 7, 0, 7, 0⟩].getD i
      ⟨Mapping.depthEnd, 0, 0, 0, 0⟩

theorem holed_wellFormed : holed.WellFormed :=
  .of_lt (by decide) (by decide) (by decide) (by decide) (by decide) (by decide) (by decide)

theorem holed_regular : ∀ i, holed.Live i → (holed.mappings i).submap = false := by
  intro i hi
  have hlt := hi.lt
  revert hi
  revert i
  decide

theorem flush_exact_iff_holed :
    holed.Carries (holed.flush ⟨fun _ => 0, fun _ => false⟩ 1 true 0).tree (fun i => ¬ holed.Selected 1 true 0 i)
      (fun _ => False) id :=
  (flush_exact_iff holed_wellFormed holed_regular (by decide) fun _ => rfl).mpr
    fun ⟨_, _, _, _, _, hc, _⟩ => hc.2.1 rfl

/-- The grandchild is behind the end tag when the mappings of another task are flushed. -/
theorem flush_cuts_off : ¬ ∀ (t : MappingTree) (ops : SubmapOps) (parent : Nat) (meToo : Bool)
    (restricted : Nat), t.WellFormed → (∀ i, t.Live i → (t.mappings i).submap = false) →
    t.Live parent → (meToo = true → restricted = 0) →
    t.Carries (t.flush ops parent meToo restricted).tree
      (fun i => ¬ t.Selected parent meToo restricted i) (fun _ => False) id := by
  intro h
  have hc := h holed ⟨fun _ => 0, fun _ => false⟩ 0 false 6 holed_wellFormed holed_regular (by decide) nofun
  have hkeep : ¬ holed.Selected 0 false 6 3 :=
    Spared.not_selected (c := 1) ⟨by decide, by decide, by decide, by decide⟩
      (.inr ⟨by decide, fun k hk hk3 => by interval_cases k <;> decide⟩) nofun
  exact absurd ((hc.live 3).mpr (.inr ⟨3, by decide, hkeep, rfl⟩)) (by decide)

end MappingTree

end L4env.Fiasco
