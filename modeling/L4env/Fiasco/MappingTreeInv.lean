import L4env.Fiasco.MappingTree
import L4env.Util.Count
import L4env.Util.Preorder

/-!
# Well-formed mapping trees
-/

namespace L4env.Fiasco

open Util.Preorder

namespace Mapping

variable {m : Mapping}

theorem not_unused : m.unused = false ↔ m.depth < depthEmpty := by
  simp [unused]

theorem isEndTag_eq_false : m.isEndTag = false ↔ m.depth ≠ depthEnd := by
  simp [isEndTag]

theorem isEndTag_iff : m.isEndTag = true ↔ m.depth = depthEnd := by
  simp [isEndTag]

theorem submap_iff : m.submap = true ↔ m.depth = depthSubmap := by
  simp [submap]

theorem isEndTag_of_used (h : m.unused = false) : m.isEndTag = false := by
  rw [not_unused] at h
  rw [isEndTag_eq_false]
  simp only [depthEmpty, depthEnd] at *
  omega

end Mapping

namespace MappingTree

variable {t t' : MappingTree} {i j k m : Nat}

theorem numberOfEntries_pos : 3 < t.numberOfEntries := by
  have := Nat.two_pow_pos t.sizeId
  simp only [numberOfEntries]
  omega

/-- The depths along the array. -/
def depths (t : MappingTree) (i : Nat) : Nat := (t.mappings i).depth

@[simp] theorem store_sizeId {x : Mapping} : (t.store i x).sizeId = t.sizeId := rfl

theorem setDepth_mappings_of_ne {d : Nat} (h : j ≠ i) : (t.setDepth i d).mappings j = t.mappings j := by
  simp [setDepth, store, h]

@[simp] theorem setDepth_depths {d : Nat} : (t.setDepth i d).depths i = d := by
  simp [setDepth, store, depths]

/-- The entry is in front of the end tag. -/
def InUse (t : MappingTree) (i : Nat) : Prop :=
  i < t.numberOfEntries ∧ ∀ j < i + 1, (t.mappings j).isEndTag = false

instance : DecidablePred t.InUse := fun _ => inferInstanceAs (Decidable (_ ∧ _))

/-- A live entry is a mapping or a submap. -/
def Live (t : MappingTree) (i : Nat) : Prop := t.InUse i ∧ (t.mappings i).unused = false

instance : DecidablePred t.Live := fun _ => inferInstanceAs (Decidable (_ ∧ _))

/-- A live entry that is a mapping. -/
def Regular (t : MappingTree) (i : Nat) : Prop := t.Live i ∧ (t.mappings i).submap = false

instance : DecidablePred t.Regular := fun _ => inferInstanceAs (Decidable (_ ∧ _))

/-- The pre-order encoding: a root, mappings at most one level below the one in front of them, submaps
behind the mapping they subdivide, and the number of live entries. Without an end tag the array is full to
its last entry. -/
structure WellFormed (t : MappingTree) : Prop where
  size : t.sizeId ≤ sizeIdMax
  root : t.InUse 0 → t.Regular 0 ∧ t.depths 0 = 0
  inner : ∀ i, t.Live i → 0 < i → 0 < t.depths i
  step : ∀ i, t.Regular i → 0 < i →
    ∃ j < i, t.Regular j ∧ t.depths i ≤ t.depths j + 1 ∧ ∀ k, j < k → k < i → ¬ t.Regular k
  submap : ∀ i, t.Live i → (t.mappings i).submap = true →
    ∃ j < i, t.Regular j ∧ ∀ k, j < k → k < i → ¬ t.Live k
  count : t.count = Nat.count t.Live t.numberOfEntries
  room : t.InUse (t.numberOfEntries - 1) → t.Live (t.numberOfEntries - 1)

/-- The live entries of `t` that satisfy `Keep` are at the positions `f` in `t'`, in their order, with their
contents and their parents; the other live entries of `t'` are the ones in `New`. -/
structure Carries (t t' : MappingTree) (Keep New : Nat → Prop) (f : Nat → Nat) : Prop where
  live : ∀ j, t'.Live j ↔ New j ∨ ∃ i, t.Live i ∧ Keep i ∧ f i = j
  fresh : ∀ i, t.Live i → Keep i → ¬ New (f i)
  mono : ∀ i j, t.Live i → Keep i → t.Live j → Keep j → i < j → f i < f j
  entry : ∀ i, t.Live i → Keep i → t'.mappings (f i) = t.mappings i
  parent : ∀ i, t.Live i → Keep i → t'.parent (f i) = (t.parent i).map f

/-! ## Entries in use -/

theorem InUse.of_le (h : t.InUse i) (hj : j ≤ i) : t.InUse j :=
  ⟨by have := h.1; omega, fun k hk => h.2 k (by omega)⟩

theorem InUse.isEndTag (h : t.InUse i) : (t.mappings i).isEndTag = false := h.2 i (by omega)

theorem inUse_succ (h : ∀ j < i, t.InUse j) (hi : i < t.numberOfEntries)
    (hend : (t.mappings i).isEndTag = false) : t.InUse i := by
  refine ⟨hi, fun j hj => ?_⟩
  rcases Nat.lt_or_ge j i with hlt | hge
  · exact (h j hlt).isEndTag
  · obtain rfl : j = i := by omega
    exact hend

theorem Live.inUse (h : t.Live i) : t.InUse i := h.1

theorem Live.lt (h : t.Live i) : i < t.numberOfEntries := h.1.1

theorem Live.depths_lt (h : t.Live i) : t.depths i < Mapping.depthEmpty := Mapping.not_unused.mp h.2

theorem Regular.live (h : t.Regular i) : t.Live i := h.1

theorem Regular.depths_lt (h : t.Regular i) : t.depths i < Mapping.depthSubmap := by
  have hlt := h.live.depths_lt
  have hne : t.depths i ≠ Mapping.depthSubmap := by
    simpa [Mapping.submap, depths] using h.2
  simp only [Mapping.depthEmpty, Mapping.depthSubmap] at *
  omega

/-- An entry in use is live if its depth is not that of a hole. -/
theorem InUse.live (h : t.InUse i) (hd : t.depths i < Mapping.depthEmpty) : t.Live i :=
  ⟨h, Mapping.not_unused.mpr hd⟩

theorem InUse.le_depths (h : t.InUse i) (hl : ¬ t.Live i) : Mapping.depthEmpty ≤ t.depths i := by
  by_contra hlt
  exact hl (h.live (by omega))

theorem Live.regular_of_depths (h : t.Live i) (hd : t.depths i < Mapping.depthSubmap) : t.Regular i := by
  refine ⟨h, ?_⟩
  simp only [depths] at hd
  simp only [Mapping.submap, decide_eq_false_iff_not]
  omega

/-- An entry in use that is no mapping is deeper than all mappings. -/
theorem InUse.le_depths_of_not_regular (h : t.InUse i) (hl : ¬ t.Regular i) :
    Mapping.depthSubmap ≤ t.depths i := by
  by_contra hlt
  refine hl ((h.live ?_).regular_of_depths (by omega))
  simp only [Mapping.depthEmpty, Mapping.depthSubmap] at *
  omega

/-- The entries in use are those in front of `e`. -/
structure Ends (t : MappingTree) (e : Nat) : Prop where
  le : e ≤ t.numberOfEntries
  tag : ∀ j < e, (t.mappings j).isEndTag = false
  stop : e = t.numberOfEntries ∨ (t.mappings e).isEndTag = true

theorem Ends.inUse {e : Nat} (h : t.Ends e) : t.InUse j ↔ j < e := by
  constructor
  · intro hu
    by_contra hle
    rcases h.stop with rfl | hend
    · exact hle hu.1
    · have := (hu.of_le (Nat.le_of_not_lt hle)).isEndTag
      rw [hend] at this
      cases this
  · intro hj
    exact ⟨by have := h.le; omega, fun k hk => h.tag k (by omega)⟩

theorem exists_ends (t : MappingTree) : ∃ e, t.Ends e := by
  suffices ∀ n, n ≤ t.numberOfEntries →
      (∃ e, t.Ends e) ∨ ∀ j < n, (t.mappings j).isEndTag = false by
    rcases this t.numberOfEntries le_rfl with h | h
    · exact h
    · exact ⟨_, le_rfl, h, .inl rfl⟩
  intro n
  induction n with
  | zero => exact fun _ => .inr fun j hj => by omega
  | succ n ih =>
    intro hn
    rcases ih (by omega) with h | h
    · exact .inl h
    · cases hend : (t.mappings n).isEndTag with
      | true => exact .inl ⟨n, by omega, h, .inr hend⟩
      | false =>
        refine .inr fun j hj => ?_
        rcases Nat.lt_or_ge j n with hlt | hge
        · exact h j hlt
        · obtain rfl : j = n := by omega
          exact hend

/-! ## `next` -/

theorem nextFrom_spec {n : Nat} (hn : m + n = t.numberOfEntries) (hm : ∀ j < m, t.InUse j) :
    match t.nextFrom n m with
    | some k => m ≤ k ∧ t.Live k ∧ ∀ l, m ≤ l → l < k → ¬ t.Live l
    | none => ∀ l, m ≤ l → ¬ t.Live l := by
  induction n generalizing m with
  | zero => exact fun l hl hlive => absurd hlive.lt (by omega)
  | succ n ih =>
    rw [nextFrom]
    split_ifs with hend hun
    · exact fun l hl hlive => absurd ((hlive.inUse.of_le hl).isEndTag) (by simp [hend])
    · have huse : t.InUse m := inUse_succ hm (by omega) (by simpa using hend)
      have hdead : ¬ t.Live m := fun h => by simp [h.2] at hun
      have hrest := ih (m := m + 1) (by omega) fun j hj => huse.of_le (by omega)
      have hfirst : ∀ l, m ≤ l → l < m + 1 → ¬ t.Live l := fun l hl hlm => by
        obtain rfl : l = m := by omega
        exact hdead
      cases hnext : t.nextFrom n (m + 1) with
      | some k =>
        simp only [hnext] at hrest
        refine ⟨by omega, hrest.2.1, fun l hl hlk => ?_⟩
        rcases Nat.lt_or_ge l (m + 1) with hlt | hge
        · exact hfirst l hl hlt
        · exact hrest.2.2 l hge hlk
      | none =>
        simp only [hnext] at hrest
        intro l hl
        rcases Nat.lt_or_ge l (m + 1) with hlt | hge
        · exact hfirst l hl hlt
        · exact hrest l hge
    · have huse : t.InUse m := inUse_succ hm (by omega) (by simpa using hend)
      exact ⟨le_rfl, ⟨huse, by simpa using hun⟩, fun l hl hlm => by omega⟩

theorem next_spec (h : t.InUse i) :
    match t.next i with
    | some k => i < k ∧ t.Live k ∧ ∀ l, i < l → l < k → ¬ t.Live l
    | none => ∀ l, i < l → ¬ t.Live l :=
  nextFrom_spec (by have := h.1; omega) fun j hj => h.of_le (by omega)

theorem next_eq_some (h : t.InUse i) :
    t.next i = some k ↔ i < k ∧ t.Live k ∧ ∀ l, i < l → l < k → ¬ t.Live l := by
  have hspec := next_spec h
  cases hnext : t.next i with
  | none =>
    simp only [hnext] at hspec
    exact ⟨nofun, fun ⟨hik, hk, _⟩ => absurd hk (hspec k hik)⟩
  | some q =>
    simp only [hnext] at hspec
    obtain ⟨hiq, hq, hb⟩ := hspec
    refine ⟨fun heq => (Option.some.inj heq) ▸ ⟨hiq, hq, hb⟩, fun ⟨hik, hk, hbk⟩ => ?_⟩
    rcases lt_trichotomy q k with hlt | rfl | hlt
    · exact absurd hq (hbk q hiq hlt)
    · rfl
    · exact absurd hk (hb k hik hlt)

theorem next_eq_none (h : t.InUse i) : t.next i = none ↔ ∀ l, i < l → ¬ t.Live l := by
  have hspec := next_spec h
  cases hnext : t.next i with
  | none => exact ⟨fun _ => by simpa only [hnext] using hspec, fun _ => rfl⟩
  | some k =>
    simp only [hnext] at hspec
    exact ⟨nofun, fun hnone => absurd hspec.2.1 (hnone k hspec.1)⟩

/-! ## `parent` -/

theorem parentFrom_spec (t : MappingTree) (depth m : Nat) :
    match t.parentFrom depth m with
    | some q => q < m ∧ t.depths q < depth ∧ ∀ k, q < k → k < m → depth ≤ t.depths k
    | none => ∀ k < m, depth ≤ t.depths k := by
  induction m with
  | zero => exact fun k hk => by omega
  | succ m ih =>
    rw [parentFrom]
    split_ifs with hle
    · cases hp : t.parentFrom depth m with
      | some q =>
        simp only [hp] at ih
        refine ⟨by omega, ih.2.1, fun k hk hkm => ?_⟩
        rcases Nat.lt_or_ge k m with hlt | hge
        · exact ih.2.2 k hk hlt
        · obtain rfl : k = m := by omega
          exact hle
      | none =>
        simp only [hp] at ih
        intro k hk
        rcases Nat.lt_or_ge k m with hlt | hge
        · exact ih k hlt
        · obtain rfl : k = m := by omega
          exact hle
    · exact ⟨by omega, by simpa [depths] using hle, fun k _ _ => by omega⟩

theorem parent_eq_some : t.parent i = some m ↔ IsParent t.depths i m := by
  rw [parent]
  split_ifs with h0
  · refine ⟨nofun, fun h => absurd h.2.1 ?_⟩
    simp only [depths] at *
    omega
  · have hspec := parentFrom_spec t (t.depths i) i
    change t.parentFrom (t.depths i) i = some m ↔ _
    cases hp : t.parentFrom (t.depths i) i with
    | none =>
      simp only [hp] at hspec
      exact ⟨nofun, fun h => absurd (hspec m h.1) (by have := h.2.1; omega)⟩
    | some q =>
      simp only [hp] at hspec
      refine ⟨fun heq => (Option.some.inj heq) ▸ hspec, fun h => ?_⟩
      rw [IsParent.unique hspec h]

theorem parent_eq_none : t.parent i = none ↔ ∀ k < i, t.depths i ≤ t.depths k := by
  constructor
  · intro h k hk
    by_contra hlt
    obtain ⟨q, _, hq⟩ := exists_isParent hk (Nat.lt_of_not_le hlt)
    rw [parent_eq_some.mpr hq] at h
    cases h
  · intro h
    cases hp : t.parent i with
    | none => rfl
    | some q =>
      obtain ⟨hqi, hd, _⟩ := parent_eq_some.mp hp
      exact absurd (h q hqi) (by omega)

/-- Parents are mappings. -/
theorem isParent_regular (hi : t.Live i) (h : IsParent t.depths i m) : t.Regular m := by
  have hlt := hi.depths_lt
  have hd := h.2.1
  simp only [Mapping.depthEmpty] at hlt
  exact ((hi.inUse.of_le h.1.le).live (by simp only [Mapping.depthEmpty]; omega)).regular_of_depths
    (by simp only [Mapping.depthSubmap]; omega)

/-! ## Trees -/

namespace WellFormed

variable (wf : t.WellFormed)
include wf

/-- Between the entry and the mapping in front of it there is nothing shallower. -/
theorem step_le (hi : t.Regular i) (h0 : 0 < t.depths i) :
    ∃ j < i, t.Regular j ∧ t.depths i ≤ t.depths j + 1 ∧ ∀ k, j < k → k < i → t.depths i ≤ t.depths k := by
  have hpos : 0 < i := by
    rcases Nat.eq_zero_or_pos i with rfl | h
    · exact absurd (wf.root hi.live.inUse).2 h0.ne'
    · exact h
  obtain ⟨j, hj, hreg, hd, hb⟩ := wf.step i hi hpos
  refine ⟨j, hj, hreg, hd, fun k hk hki => ?_⟩
  have hle := (hi.live.inUse.of_le hki.le).le_depths_of_not_regular (hb k hk hki)
  have := hi.depths_lt
  omega

theorem exists_ancestor (e : Nat) (hi : t.Regular i) (he : e ≤ t.depths i) :
    ∃ k ≤ i, t.Regular k ∧ t.depths k = e ∧ ∀ l, k < l → l ≤ i → e < t.depths l :=
  Util.Preorder.exists_ancestor (fun _ => wf.step_le) e hi he

/-- With the last entry unused there is an end tag. -/
theorem exists_end_lt (hlast : t.last.unused = true) :
    ∃ e < t.numberOfEntries, t.Ends e ∧ (t.mappings e).isEndTag = true := by
  obtain ⟨e, he⟩ := t.exists_ends
  have hpos := t.numberOfEntries_pos
  have hlt : e < t.numberOfEntries := by
    refine lt_of_le_of_ne he.le fun heq => ?_
    have hlive := wf.room (he.inUse.mpr (by omega))
    rw [last, hlive.2] at hlast
    cases hlast
  exact ⟨e, hlt, he, he.stop.resolve_left (by omega)⟩

/-- All entries other than the root have a parent. -/
theorem exists_isParent (hi : t.Live i) (h0 : 0 < i) : ∃ m, IsParent t.depths i m := by
  have hroot : t.depths 0 < t.depths i := by
    rw [(wf.root (hi.inUse.of_le (Nat.zero_le i))).2]
    exact wf.inner i hi h0
  obtain ⟨m, _, hm⟩ := Util.Preorder.exists_isParent h0 hroot
  exact ⟨m, hm⟩

end WellFormed

/-- It is enough to look at the entries of the array. -/
theorem WellFormed.of_lt (size : t.sizeId ≤ sizeIdMax) (root : t.InUse 0 → t.Regular 0 ∧ t.depths 0 = 0)
    (inner : ∀ i < t.numberOfEntries, t.Live i → 0 < i → 0 < t.depths i)
    (step : ∀ i < t.numberOfEntries, t.Regular i ∧ 0 < i →
      ∃ j < i, t.Regular j ∧ t.depths i ≤ t.depths j + 1 ∧ ∀ k < i, j < k → ¬ t.Regular k)
    (submap : ∀ i < t.numberOfEntries, t.Live i ∧ (t.mappings i).submap = true →
      ∃ j < i, t.Regular j ∧ ∀ k < i, j < k → ¬ t.Live k)
    (count : t.count = Nat.count t.Live t.numberOfEntries)
    (room : t.InUse (t.numberOfEntries - 1) → t.Live (t.numberOfEntries - 1)) : t.WellFormed where
  size := size
  root := root
  inner i hi := inner i hi.lt hi
  step i hi h0 := by
    obtain ⟨j, hj, hreg, hd, hb⟩ := step i hi.live.lt ⟨hi, h0⟩
    exact ⟨j, hj, hreg, hd, fun k hk hki => hb k hki hk⟩
  submap i hi hs := by
    obtain ⟨j, hj, hreg, hb⟩ := submap i hi.lt ⟨hi, hs⟩
    exact ⟨j, hj, hreg, fun k hk hki => hb k hki hk⟩
  count := count
  room := room

/-- A fresh tree is well-formed. -/
theorem make_wellFormed {sizeFactor page owner : Nat} {mem : Nat → Mapping} (h : sizeFactor ≤ sizeIdMax) :
    (make sizeFactor page owner mem).WellFormed := by
  have hpos := Nat.two_pow_pos sizeFactor
  have hne : 0 ≠ 4 * 2 ^ sizeFactor - 1 := by omega
  have hne' : 1 ≠ 4 * 2 ^ sizeFactor - 1 := by omega
  have hroot : (make sizeFactor page owner mem).depths 0 = 0 := by
    simp [make, setDepth, store, depths, numberOfEntries, hne]
  have hend : (make sizeFactor page owner mem).depths 1 = Mapping.depthEnd := by
    simp [make, setDepth, store, depths, numberOfEntries, hne']
  have hends : (make sizeFactor page owner mem).Ends 1 := by
    refine ⟨?_, fun j hj => ?_, .inr (Mapping.isEndTag_iff.mpr hend)⟩
    · change 1 ≤ 4 * 2 ^ sizeFactor
      omega
    · obtain rfl : j = 0 := by omega
      exact Mapping.isEndTag_eq_false.mpr (hroot.trans_ne (by decide))
  have hlive : (make sizeFactor page owner mem).Live 0 :=
    (hends.inUse.mpr (by omega)).live (hroot.trans_lt (by decide))
  have honly : ∀ i, (make sizeFactor page owner mem).Live i → i = 0 := fun i hi => by
    have := hends.inUse.mp hi.inUse
    omega
  refine ⟨h, fun _ => ⟨hlive.regular_of_depths (hroot.trans_lt (by decide)), hroot⟩, fun i hi h0 => ?_,
    fun i hi h0 => ?_, fun i hi hs => ?_, ?_, fun hu => ?_⟩
  · exact absurd (honly i hi) h0.ne'
  · exact absurd (honly i hi.live) h0.ne'
  · obtain rfl := honly i hi
    rw [Mapping.submap_iff] at hs
    exact absurd (hs.symm.trans hroot) (by decide)
  · change 1 = Nat.count _ (4 * 2 ^ sizeFactor)
    rw [count_eq_succ hlive (by omega) fun k hk _ hl => absurd (honly k hl) hk.ne', Nat.count_zero]
  · have := hends.inUse.mp hu
    change 4 * 2 ^ sizeFactor - 1 < 1 at this
    omega

/-- Parents are carried along if the depths are and nothing shallower gets in between. -/
theorem parent_map (wf : t.WellFormed) {L : Nat → Prop} {f : Nat → Nat} (hL : ∀ i, L i → t.Live i)
    (closed : ∀ i m, L i → IsParent t.depths i m → L m) (h0 : f 0 = 0)
    (mono : ∀ i j, L i → L j → i < j → f i < f j)
    (depth : ∀ i, L i → t'.depths (f i) = t.depths i) (hi : L i)
    (other : ∀ m, IsParent t.depths i m → ∀ j, f m < j → j < f i →
      (∃ k, L k ∧ f k = j) ∨ t.depths i ≤ t'.depths j) :
    t'.parent (f i) = (t.parent i).map f := by
  rcases Nat.eq_zero_or_pos i with rfl | hpos
  · have hnone : t.parent 0 = none := parent_eq_none.mpr fun k hk => by omega
    rw [hnone, Option.map_none, parent_eq_none, h0]
    exact fun k hk => by omega
  · obtain ⟨m, hm⟩ := wf.exists_isParent (hL i hi) hpos
    rw [parent_eq_some.mpr hm, Option.map_some, parent_eq_some]
    exact hm.map mono depth (closed i m hi hm) hi (other m hm)

end MappingTree

end L4env.Fiasco
