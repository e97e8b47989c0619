import L4env.Fiasco.MappingAlloc

/-!
# Packing a mapping tree
-/

namespace L4env.Fiasco

open Util.Preorder

namespace MappingTree

variable {t t' dst : MappingTree} {src : Option MappingTree} {i j k n s d e : Nat}

/-- The number of live entries in front of an entry. -/
def rank (t : MappingTree) (i : Nat) : Nat := Nat.count t.Live i

theorem rank_le : t.rank i ≤ i := Nat.count_le _

theorem rank_lt (hi : t.Live i) (h : i < j) : t.rank i < t.rank j := Nat.count_strict_mono hi h

theorem lt_of_rank_lt (h : t.rank i < t.rank j) : i < j := Nat.lt_of_count_lt_count h

namespace WellFormed

variable (wf : t.WellFormed)
include wf

theorem count_le : t.count ≤ t.numberOfEntries := by
  rw [wf.count]
  exact Nat.count_le _

theorem rank_lt_count (hi : t.Live i) : t.rank i < t.count := by
  rw [wf.count]
  exact rank_lt hi hi.lt

theorem exists_rank (h : j < t.count) : ∃ i, t.Live i ∧ t.rank i = j := by
  rw [wf.count] at h
  obtain ⟨i, -, hi, heq⟩ := exists_count_eq h
  exact ⟨i, hi, heq⟩

end WellFormed

/-- `t'` has the live entries of `t` without holes in front of its end tag. -/
structure Compact (t t' : MappingTree) : Prop where
  size : t'.sizeId ≤ sizeIdMax
  count : t'.count = t.count
  entry : ∀ i, t.Live i → t'.mappings (t.rank i) = t.mappings i
  ends : t'.Ends t.count
  last : t'.last.unused = true

namespace Compact

variable (h : t.Compact t') (wf : t.WellFormed)
include h

theorem depths_rank (hi : t.Live i) : t'.depths (t.rank i) = t.depths i := by
  rw [depths, h.entry i hi, depths]

include wf

theorem live : t'.Live j ↔ ∃ i, t.Live i ∧ t.rank i = j := by
  constructor
  · intro hj
    exact wf.exists_rank (h.ends.inUse.mp hj.inUse)
  · rintro ⟨i, hi, rfl⟩
    exact ⟨h.ends.inUse.mpr (wf.rank_lt_count hi), by rw [h.entry i hi]; exact hi.2⟩

theorem regular_rank (hi : t.Live i) : t'.Regular (t.rank i) ↔ t.Regular i := by
  rw [Regular, Regular, h.entry i hi]
  exact and_congr_left' ⟨fun _ => hi, fun _ => (h.live wf).mpr ⟨i, hi, rfl⟩⟩

theorem carries : t.Carries t' (fun _ => True) (fun _ => False) t.rank := by
  refine ⟨fun j => ?_, fun _ _ _ => id, fun i j hi _ _ _ => rank_lt hi, fun i hi _ => h.entry i hi,
    fun i hi _ => ?_⟩
  · rw [h.live wf]
    simp
  · refine parent_map wf (L := t.Live) (fun _ => id) (fun i m hi hm => (isParent_regular hi hm).live)
      (Nat.count_zero _) (fun i j hi _ => rank_lt hi) (fun i hi => h.depths_rank hi) hi fun m _ j _ hji => ?_
    have hj : j < t.count := hji.trans (wf.rank_lt_count hi)
    exact .inl (wf.exists_rank hj)

theorem wellFormed : t'.WellFormed where
  size := h.size
  root hu := by
    obtain ⟨i, hi, -⟩ := wf.exists_rank (h.ends.inUse.mp hu)
    have hroot := wf.root (hi.inUse.of_le (Nat.zero_le i))
    have h0 : t.rank 0 = 0 := Nat.count_zero _
    rw [← h0]
    exact ⟨(h.regular_rank wf hroot.1.live).mpr hroot.1, by rw [h.depths_rank hroot.1.live]; exact hroot.2⟩
  inner j hj hpos := by
    obtain ⟨i, hi, rfl⟩ := (h.live wf).mp hj
    rw [h.depths_rank hi]
    exact wf.inner i hi (lt_of_lt_of_le hpos rank_le)
  step j hj hpos := by
    obtain ⟨i, hi, rfl⟩ := (h.live wf).mp hj.live
    obtain ⟨m, hm, hreg, hd, hb⟩ := wf.step i ((h.regular_rank wf hi).mp hj) (lt_of_lt_of_le hpos rank_le)
    refine ⟨t.rank m, rank_lt hreg.live hm, (h.regular_rank wf hreg.live).mpr hreg, ?_, fun k hk hki hkr => ?_⟩
    · rw [h.depths_rank hi, h.depths_rank hreg.live]
      exact hd
    · obtain ⟨l, hl, rfl⟩ := (h.live wf).mp hkr.live
      exact hb l (lt_of_rank_lt hk) (lt_of_rank_lt hki) ((h.regular_rank wf hl).mp hkr)
  submap j hj hs := by
    obtain ⟨i, hi, rfl⟩ := (h.live wf).mp hj
    rw [h.entry i hi] at hs
    obtain ⟨m, hm, hreg, hb⟩ := wf.submap i hi hs
    refine ⟨t.rank m, rank_lt hreg.live hm, (h.regular_rank wf hreg.live).mpr hreg, fun k hk hki hkl => ?_⟩
    obtain ⟨l, hl, rfl⟩ := (h.live wf).mp hkl
    exact hb l (lt_of_rank_lt hk) (lt_of_rank_lt hki) hl
  count := by
    have hiff : ∀ j, t'.Live j ↔ j < t.count := fun j => ⟨fun hj => h.ends.inUse.mp hj.inUse, fun hj =>
      (h.live wf).mpr (wf.exists_rank hj)⟩
    have hle := h.ends.le
    rw [h.count, Nat.count_eq_card_filter_range]
    have hfilter : {j ∈ Finset.range t'.numberOfEntries | t'.Live j} = Finset.range t.count := by
      ext j
      simp only [Finset.mem_filter, Finset.mem_range, hiff]
      omega
    rw [hfilter, Finset.card_range]
  room hu := by
    obtain ⟨i, hi, heq⟩ := wf.exists_rank (h.ends.inUse.mp hu)
    exact (h.live wf).mpr ⟨i, hi, heq⟩

end Compact

/-! ## `copy_compact_tree` -/

theorem next_congr {u : MappingTree} (hsize : u.sizeId = t.sizeId)
    (h : ∀ j, i < j → u.mappings j = t.mappings j) : u.next i = t.next i := by
  have hfrom : ∀ n m, i < m → u.nextFrom n m = t.nextFrom n m := by
    intro n
    induction n with
    | zero => exact fun _ _ => rfl
    | succ n ih =>
      intro m hm
      rw [nextFrom, nextFrom, h m hm, ih (m + 1) (by omega)]
  rw [next, next, hfrom _ _ (by omega)]
  simp only [numberOfEntries, hsize]

/-- The loop is at the entry `s` of the tree `t` and has stored the live entries in front of it. -/
structure Copied (t : MappingTree) (src : Option MappingTree) (s d : Nat) (dst : MappingTree) : Prop where
  size : (src.getD dst).sizeId = t.sizeId
  rest : ∀ j, s ≤ j → (src.getD dst).mappings j = t.mappings j
  rank : d = t.rank s
  done : ∀ i < s, t.Live i → dst.mappings (t.rank i) = t.mappings i
  count : dst.count = d

/-- One entry is stored, and the loop goes on at `k`. -/
theorem Copied.store (h : t.Copied src s d dst) (hs : t.Live s) (hsk : s < k)
    (hb : ∀ l, s < l → l < k → ¬ t.Live l) :
    t.Copied src k (d + 1) { dst.store d (t.mappings s) with count := dst.count + 1 } := by
  have hds : d ≤ s := h.rank ▸ rank_le
  refine ⟨?_, fun j hj => ?_, ?_, fun i hi hlive => ?_, by rw [h.count]⟩
  · have := h.size
    cases src <;> exact this
  · have := h.rest j (by omega)
    cases src with
    | none => simpa [MappingTree.store, Function.update_of_ne (by omega : j ≠ d)] using this
    | some u => exact this
  · rw [h.rank, MappingTree.rank, MappingTree.rank, count_eq_succ hs hsk hb]
  · rcases lt_trichotomy i s with hlt | rfl | hlt
    · have hne : t.rank i ≠ d := by
        rw [h.rank]
        exact (rank_lt hlive hlt).ne
      simp only [MappingTree.store, Function.update_of_ne hne]
      exact h.done i hlt hlive
    · simp only [MappingTree.store, ← h.rank, Function.update_self]
    · exact absurd hlive (hb i hlt hi)

theorem copyLoop_spec (wf : t.WellFormed) (h : t.Copied src s d dst) (hs : t.Live s)
    (hn : t.numberOfEntries ≤ s + n) :
    ∃ r, copyLoop src n s d dst = .ok (r, t.count) ∧ r.sizeId = dst.sizeId ∧ r.count = t.count ∧
      ∀ i, t.Live i → r.mappings (t.rank i) = t.mappings i := by
  induction n generalizing s d dst with
  | zero => exact absurd hs.lt (by omega)
  | succ n ih =>
    have hread := h.rest s le_rfl
    have hend : (t.mappings s).isEndTag = false := hs.inUse.isEndTag
    have hnext : (src.getD { dst.store d (t.mappings s) with count := dst.count + 1 }).next s = t.next s := by
      have hstore := h.store hs (Nat.lt_succ_self s) fun l _ _ => by omega
      exact next_congr hstore.size fun j hj => hstore.rest j hj
    rw [copyLoop]
    simp only [hread, hend, Bool.false_eq_true, if_false, hnext]
    cases hk : t.next s with
    | some k =>
      obtain ⟨hsk, hlive, hb⟩ := (next_eq_some hs.inUse).mp hk
      obtain ⟨r, hr, hsize, hcount, hentry⟩ := ih (h.store hs hsk hb) hlive (by omega)
      exact ⟨r, hr, hsize, hcount, hentry⟩
    | none =>
      have hb := (next_eq_none hs.inUse).mp hk
      have hstore := h.store hs hs.lt fun l hl _ => hb l hl
      have hd : d + 1 = t.count := by
        rw [wf.count]
        exact hstore.rank
      refine ⟨{ dst.store d (t.mappings s) with count := dst.count + 1 }, ?_, rfl, hstore.count.trans hd,
        fun i hi => hstore.done i hi.lt hi⟩
      rw [hd]
      rfl

/-- The end tags behind the entries that were stored. -/
theorem compact_of_stored {r : MappingTree} (wf : t.WellFormed) (hsize : r.sizeId ≤ sizeIdMax)
    (hcap : t.count < r.numberOfEntries) (hcount : r.count = t.count)
    (hentry : ∀ i, t.Live i → r.mappings (t.rank i) = t.mappings i) :
    t.Compact ((r.setDepth t.count Mapping.depthEnd).setDepth (r.numberOfEntries - 1) Mapping.depthEnd) := by
  have hsame : ∀ j, j < t.count → ((r.setDepth t.count Mapping.depthEnd).setDepth
      (r.numberOfEntries - 1) Mapping.depthEnd).mappings j = r.mappings j := fun j hj => by
    rw [setDepth_mappings_of_ne (by omega), setDepth_mappings_of_ne (by omega)]
  have hend : ((r.setDepth t.count Mapping.depthEnd).setDepth
      (r.numberOfEntries - 1) Mapping.depthEnd).depths t.count = Mapping.depthEnd := by
    rcases eq_or_ne t.count (r.numberOfEntries - 1) with heq | hne
    · rw [heq, setDepth_depths]
    · rw [depths, setDepth_mappings_of_ne hne]
      exact setDepth_depths
  have hlast : ((r.setDepth t.count Mapping.depthEnd).setDepth
      (r.numberOfEntries - 1) Mapping.depthEnd).depths (r.numberOfEntries - 1) = Mapping.depthEnd :=
    setDepth_depths
  refine ⟨hsize, hcount, fun i hi => ?_, ⟨hcap.le, fun j hj => ?_, .inr ?_⟩, ?_⟩
  · rw [hsame _ (wf.rank_lt_count hi)]
    exact hentry i hi
  · obtain ⟨i, hi, rfl⟩ := wf.exists_rank hj
    rw [hsame _ hj, hentry i hi]
    exact hi.inUse.isEndTag
  · exact Mapping.isEndTag_iff.mpr hend
  · simp only [last, Mapping.unused]
    exact decide_eq_true (le_of_le_of_eq (by decide) hlast.symm)

theorem copyCompactTree_spec (wf : t.WellFormed) (hsrc : src = some t ∨ src = none ∧ dst = t)
    (hcap : t.count < dst.numberOfEntries) (hsize : dst.sizeId ≤ sizeIdMax) :
    ∃ r, dst.copyCompactTree src = .ok r ∧ t.Compact r := by
  have hget : src.getD dst = t := by
    rcases hsrc with rfl | ⟨rfl, rfl⟩ <;> rfl
  have hstart : t.Copied src 0 0 { dst with count := 0, emptyCount := 0 } := by
    refine ⟨?_, fun j _ => ?_, (Nat.count_zero _).symm, fun i hi => by omega, rfl⟩ <;>
      rcases hsrc with rfl | ⟨rfl, rfl⟩ <;> rfl
  have hloop : ∃ r, copyLoop src t.numberOfEntries 0 0 { dst with count := 0, emptyCount := 0 } =
      .ok (r, t.count) ∧ r.sizeId = dst.sizeId ∧ r.count = t.count ∧
      ∀ i, t.Live i → r.mappings (t.rank i) = t.mappings i := by
    by_cases hu : t.InUse 0
    · exact copyLoop_spec wf hstart (wf.root hu).1.live (by omega)
    · -- an empty tree
      have hpos := t.numberOfEntries_pos
      have hdead : ∀ i, ¬ t.Live i := fun i hi => hu (hi.inUse.of_le (Nat.zero_le i))
      have hend : (t.mappings 0).isEndTag = true := by
        by_contra hne
        exact hu (inUse_succ (fun j hj => by omega) (by omega) (by simpa using hne))
      have hcount : t.count = 0 := by
        rw [wf.count]
        exact Nat.count_iff_forall_not.mpr fun i _ => hdead i
      obtain ⟨n, hn⟩ : ∃ n, t.numberOfEntries = n + 1 := ⟨t.numberOfEntries - 1, by omega⟩
      refine ⟨{ dst with count := 0, emptyCount := 0 }, ?_, rfl, hcount.symm, fun i hi => absurd hi (hdead i)⟩
      rw [hn, copyLoop, hstart.rest 0 le_rfl, hcount]
      simp only [hend, if_true]
      rfl
  obtain ⟨r, hr, hrsize, hrcount, hentry⟩ := hloop
  have hrn : r.numberOfEntries = dst.numberOfEntries := by
    simp only [numberOfEntries, hrsize]
  have hnot : ¬ (src.isNone = true ∧ dst.numberOfEntries = t.count) := fun h => by omega
  refine ⟨(r.setDepth t.count Mapping.depthEnd).setDepth (r.numberOfEntries - 1) Mapping.depthEnd, ?_,
    compact_of_stored wf (hrsize.trans_le hsize) (by omega) hrcount hentry⟩
  have hroom : ¬ (r.count ≠ t.count ∨ r.numberOfEntries ≤ t.count) := by omega
  simp only [copyCompactTree, hget, hnot, Nat.not_le.mpr hcap, if_false, hr, bind, Except.bind, pure,
    Except.pure, hroom]
  rfl

/-! ## `pack` -/

/-- The loop that looks for a smaller size stops where twice the entries still have room. -/
theorem lt_smallerId (count sid : Nat) (h : count < 2 * 2 ^ sid) :
    smallerId count sid ≤ sid ∧ count < 2 * 2 ^ smallerId count sid := by
  induction sid with
  | zero => exact ⟨le_rfl, h⟩
  | succ sid ih =>
    rw [smallerId]
    split_ifs with hlt
    · have := ih (by rw [Nat.pow_succ] at hlt; omega)
      exact ⟨by omega, this.2⟩
    · exact ⟨le_rfl, h⟩

/-- The tree is as it was, or copied without holes. -/
inductive Packed (t t' : MappingTree) : Prop
  | same (h : t' = t)
  | compact (h : t.Compact t')

theorem Packed.wellFormed (h : t.Packed t') (wf : t.WellFormed) : t'.WellFormed := by
  cases h with
  | same h => exact h ▸ wf
  | compact h => exact h.wellFormed wf

theorem Packed.carries (h : t.Packed t') (wf : t.WellFormed) :
    ∃ f, t.Carries t' (fun _ => True) (fun _ => False) f := by
  cases h with
  | same h =>
    subst h
    refine ⟨id, fun j => ?_, fun _ _ _ => id, fun i j _ _ _ _ => id, fun i _ _ => rfl, fun i _ _ => ?_⟩
    · simp
    · rw [Option.map_id]
      rfl
  | compact h => exact ⟨t.rank, h.carries wf⟩

theorem makeCopy_spec (wf : t.WellFormed) (sizeFactor : Nat) (mem : Nat → Mapping)
    (hcap : t.count < 4 * 2 ^ sizeFactor) (hsize : sizeFactor ≤ sizeIdMax) :
    ∃ r, makeCopy sizeFactor t mem = .ok r ∧ t.Compact r :=
  copyCompactTree_spec wf (.inl rfl) hcap hsize

/-- In place a completely used tree is left alone. -/
theorem copyCompactTree_self (wf : t.WellFormed) : ∃ r, t.copyCompactTree none = .ok r ∧ t.Packed r ∧
    (t.count < t.numberOfEntries → r.last.unused = true) := by
  rcases wf.count_le.eq_or_lt with heq | hlt
  · refine ⟨t, ?_, .same rfl, fun h => by omega⟩
    simp only [copyCompactTree, Option.getD_none, heq, Option.isNone_none, and_self, if_true]
    rfl
  · obtain ⟨r, hr, hc⟩ := copyCompactTree_spec wf (.inr ⟨rfl, rfl⟩) hlt wf.size
    exact ⟨r, hr, .compact hc, fun _ => hc.last⟩

/-- What `pack` leaves: without room at the end only where the tree cannot grow. -/
structure PackResult (t : MappingTree) (alloc : Nat → Option (Nat → Mapping)) (r : MappingTree × Bool) :
    Prop where
  packed : t.Packed r.1
  last : r.1.last.unused = true ∨
    r.2 = true ∧ (t.sizeId = sizeIdMax ∨ (alloc (t.sizeId + 1)).isNone = true)

theorem packOrGrow_spec (wf : t.WellFormed) (alloc : Nat → Option (Nat → Mapping)) :
    ∃ r, t.packOrGrow alloc = .ok r ∧ t.PackResult alloc r := by
  rw [packOrGrow]
  by_cases hlast : t.last.unused = true
  · simp only [hlast, if_true]
    exact ⟨_, rfl, .same rfl, .inl hlast⟩
  simp only [hlast, Bool.false_eq_true, if_false]
  obtain ⟨self, hself, hpacked, hroom⟩ := copyCompactTree_self wf
  by_cases hkeep : t.count < t.numberOfEntries / 4 + t.numberOfEntries / 2 ∨ t.sizeId = sizeIdMax
  · simp only [hkeep, if_true, hself, bind, Except.bind]
    refine ⟨_, rfl, hpacked, ?_⟩
    by_cases hmax : t.sizeId = sizeIdMax
    · exact .inr ⟨by simp [hmax], .inl hmax⟩
    · exact .inl (hroom (by have := hkeep.resolve_right hmax; omega))
  simp only [hkeep, if_false]
  push Not at hkeep
  cases halloc : alloc (t.sizeId + 1) with
  | some mem =>
    have hle := wf.count_le
    have hpos := Nat.two_pow_pos t.sizeId
    have hsize := wf.size
    obtain ⟨r, hr, hc⟩ := makeCopy_spec wf (t.sizeId + 1) mem
      (by rw [Nat.pow_succ]; simp only [numberOfEntries] at hle; omega) (by have := hkeep.2; omega)
    simp only [hr, bind, Except.bind]
    exact ⟨_, rfl, .compact hc, .inl hc.last⟩
  | none =>
    simp only [hself, bind, Except.bind]
    exact ⟨_, rfl, hpacked, .inr ⟨rfl, .inr (by simp [halloc])⟩⟩

theorem packTree_spec (wf : t.WellFormed) (alloc : Nat → Option (Nat → Mapping)) :
    ∃ r, t.packTree alloc = .ok r ∧ t.PackResult alloc r := by
  rw [packTree]
  by_cases hsmall : 0 < t.sizeId ∧ t.count * 4 < t.numberOfEntries
  · simp only [hsmall, and_self, if_true]
    have hpow : 2 ^ t.sizeId = 2 * 2 ^ (t.sizeId - 1) := by
      rw [← Nat.pow_succ', Nat.succ_eq_add_one, Nat.sub_add_cancel hsmall.1]
    have hcount := hsmall.2
    simp only [numberOfEntries, hpow] at hcount
    obtain ⟨hle, hlt⟩ := lt_smallerId t.count (t.sizeId - 1) (by omega)
    cases alloc (smallerId t.count (t.sizeId - 1)) with
    | some mem =>
      have hpos := Nat.two_pow_pos (smallerId t.count (t.sizeId - 1))
      have hsize := wf.size
      obtain ⟨r, hr, hc⟩ := makeCopy_spec wf _ mem (by omega) (hle.trans (by omega))
      simp only [hr, bind, Except.bind]
      exact ⟨_, rfl, .compact hc, .inl hc.last⟩
    | none => exact packOrGrow_spec wf alloc
  · simp only [hsmall, if_false]
    exact packOrGrow_spec wf alloc

end MappingTree

end L4env.Fiasco
