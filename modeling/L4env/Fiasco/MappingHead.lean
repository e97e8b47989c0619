import L4env.Fiasco.MappingFlush

/-!
# The head of a mapping tree

`head_of` goes back from an entry by the entry's depth. A mapping is at most one level below the one in
front of it, so its depth is at most its position, and the steps end at the root.
-/

namespace L4env.Fiasco.MappingTree

variable {t : MappingTree} {i n : Nat}

namespace WellFormed

variable (wf : t.WellFormed)
include wf

/-- There are at least as many entries in front of a mapping as levels above it. -/
theorem depths_le (hi : t.Regular i) : t.depths i ≤ i := by
  induction i using Nat.strong_induction_on with
  | _ i ih =>
    rcases Nat.eq_zero_or_pos (t.depths i) with h0 | hpos
    · omega
    · obtain ⟨j, hj, hreg, hd, -⟩ := wf.step_le hi hpos
      have hle := ih j hj hreg
      omega

/-- Only the root has depth 0. -/
theorem depths_eq_zero (hi : t.InUse i) : t.depths i = 0 ↔ i = 0 := by
  constructor
  · intro h0
    by_contra hne
    have hlive : t.Live i := hi.live (by rw [h0]; decide)
    have := wf.inner i hlive (Nat.pos_of_ne_zero hne)
    omega
  · rintro rfl
    exact (wf.root hi).2

/-- A bigger step stays in the array. -/
theorem jump_le (hi : t.InUse i) (hd : t.depths i ≤ Mapping.depthMax) : t.depths i ≤ i := by
  refine wf.depths_le (by_contra fun hreg => ?_)
  have := hi.le_depths_of_not_regular hreg
  simp only [Mapping.depthSubmap, Mapping.depthMax] at *
  omega

theorem headOf_root (hi : t.InUse i) (hn : i < n) : t.headOf n i = some 0 := by
  induction n generalizing i with
  | zero => omega
  | succ n ih =>
    have hzero := wf.depths_eq_zero hi
    rw [headOf]
    split_ifs with h0 hmax hle hpos
    · rw [hzero.mp h0]
    · exact ih (hi.of_le (Nat.sub_le i _)) (by omega)
    · exact absurd (wf.jump_le hi hmax) hle
    · exact ih (hi.of_le (Nat.sub_le i 1)) (by omega)
    · exact absurd (hzero.mpr (by omega)) h0

theorem scanHead_root (hi : t.InUse i) : t.scanHead i = some 0 := by
  have hzero := wf.depths_eq_zero hi
  induction i with
  | zero => exact if_pos (hzero.mpr rfl)
  | succ i ih =>
    have hu := hi.of_le (Nat.le_succ i)
    have hne : (t.mappings (i + 1)).depth ≠ 0 := fun h0 => absurd (hzero.mp h0) (Nat.succ_ne_zero i)
    rw [scanHead, if_neg hne]
    exact ih hu (wf.depths_eq_zero hu)

end WellFormed

/-- From every entry in use `head_of` gets to the root, as the search without the bigger steps does: with at
most one step for each entry in front, and none over the start of the array. -/
theorem head_of_eq_scan (wf : t.WellFormed) (hi : t.InUse i) :
    t.depths 0 = 0 ∧ t.scanHead i = some 0 ∧ ∀ n, i < n → t.headOf n i = t.scanHead i := by
  have hscan := wf.scanHead_root hi
  refine ⟨(wf.root (hi.of_le (Nat.zero_le i))).2, hscan, fun n hn => ?_⟩
  rw [hscan]
  exact wf.headOf_root hi hn

/-- From the grandchild behind the hole over its parent. -/
theorem head_of_eq_scan_holed :
    holed.depths 0 = 0 ∧ holed.scanHead 3 = some 0 ∧ ∀ n, 3 < n → holed.headOf n 3 = holed.scanHead 3 :=
  head_of_eq_scan holed_wellFormed (by decide)

end L4env.Fiasco.MappingTree
