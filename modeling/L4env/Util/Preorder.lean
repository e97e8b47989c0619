import Mathlib.Tactic
import Mathlib.Logic.Relation

/-!
# Pre-order encodings

A sequence of depths encodes a forest in pre-order: the parent of an entry is the last one in front of
it with a smaller depth.
-/

namespace L4env.Util.Preorder

variable {d d' : Nat → Nat} {i j k m q : Nat}

/-- `m` is the parent of `i`. -/
def IsParent (d : Nat → Nat) (i m : Nat) : Prop :=
  m < i ∧ d m < d i ∧ ∀ k, m < k → k < i → d i ≤ d k

/-- `i` is in the subtree below `m`. -/
def Under (d : Nat → Nat) (m i : Nat) : Prop :=
  m < i ∧ ∀ k, m < k → k ≤ i → d m < d k

theorem IsParent.unique (h : IsParent d i m) (h' : IsParent d i q) : m = q := by
  obtain ⟨hm, hdm, hbm⟩ := h
  obtain ⟨hq, hdq, hbq⟩ := h'
  rcases lt_trichotomy m q with hlt | rfl | hlt
  · exact absurd (hbm q hlt hq) (by omega)
  · rfl
  · exact absurd (hbq m hlt hm) (by omega)

/-- An entry with a shallower one in front of it has a parent, not in front of that one. -/
theorem exists_isParent (hm : m < i) (hd : d m < d i) : ∃ q, m ≤ q ∧ IsParent d i q := by
  -- the last entry below `m + 1 + n` with a smaller depth
  suffices ∀ n, m + 1 + n ≤ i →
      ∃ q, m ≤ q ∧ q < m + 1 + n ∧ d q < d i ∧ ∀ k, q < k → k < m + 1 + n → d i ≤ d k by
    obtain ⟨q, hmq, hqn, hq, hb⟩ := this (i - (m + 1)) (by omega)
    exact ⟨q, hmq, by omega, hq, fun k hk hki => hb k hk (by omega)⟩
  intro n
  induction n with
  | zero => exact fun _ => ⟨m, le_refl _, by omega, hd, fun k _ _ => by omega⟩
  | succ n ih =>
    intro hn
    obtain ⟨q, hmq, hqn, hq, hb⟩ := ih (by omega)
    by_cases hlast : d (m + 1 + n) < d i
    · exact ⟨m + 1 + n, by omega, by omega, hlast, fun k _ _ => by omega⟩
    · refine ⟨q, hmq, by omega, hq, fun k hk hkn => ?_⟩
      rcases Nat.lt_or_ge k (m + 1 + n) with hlt | hge
      · exact hb k hk hlt
      · obtain rfl : k = m + 1 + n := by omega
        omega

theorem IsParent.under (h : IsParent d i m) : Under d m i := by
  refine ⟨h.1, fun k hk hki => ?_⟩
  rcases Nat.lt_or_ge k i with hlt | hge
  · exact lt_of_lt_of_le h.2.1 (h.2.2 k hk hlt)
  · obtain rfl : k = i := by omega
    exact h.2.1

theorem Under.trans (h : Under d m q) (h' : Under d q i) : Under d m i := by
  refine ⟨h.1.trans h'.1, fun k hk hki => ?_⟩
  rcases Nat.lt_or_ge q k with hlt | hge
  · exact (h.2 q h.1 le_rfl).trans (h'.2 k hlt hki)
  · exact h.2 k hk hge

/-- Everything between is below as well. -/
theorem Under.of_le (h : Under d m i) (hq : m < q) (hqi : q ≤ i) : Under d m q :=
  ⟨hq, fun k hk hkq => h.2 k hk (hkq.trans hqi)⟩

/-- The entries below `m` are those that reach `m` by going to the parent. -/
theorem under_iff_transGen : Under d m i ↔ Relation.TransGen (IsParent d) i m := by
  constructor
  · induction i using Nat.strong_induction_on with
    | _ i ih =>
      intro h
      obtain ⟨q, hmq, hq⟩ := exists_isParent h.1 (h.2 i h.1 le_rfl)
      rcases hmq.eq_or_lt with rfl | hlt
      · exact .single hq
      · exact .head hq (ih q hq.1 (h.of_le hlt hq.1.le))
  · intro h
    induction h with
    | single h => exact h.under
    | tail _ h ih => exact h.under.trans ih

/-- Where every entry is at most one level deeper than some entry in front of it that the entries between
do not undercut, there is an ancestor on every level. -/
theorem exists_ancestor {L : Nat → Prop}
    (step : ∀ i, L i → 0 < d i → ∃ j < i, L j ∧ d i ≤ d j + 1 ∧ ∀ k, j < k → k < i → d i ≤ d k)
    (e : Nat) (hi : L i) (he : e ≤ d i) :
    ∃ k ≤ i, L k ∧ d k = e ∧ ∀ l, k < l → l ≤ i → e < d l := by
  induction i using Nat.strong_induction_on with
  | _ i ih =>
    rcases he.eq_or_lt with heq | hlt
    · exact ⟨i, le_rfl, hi, heq.symm, fun l _ _ => by omega⟩
    · obtain ⟨j, hj, hLj, hd, hb⟩ := step i hi (by omega)
      obtain ⟨k, hk, hLk, hdk, hbk⟩ := ih j hj hLj (by omega)
      refine ⟨k, by omega, hLk, hdk, fun l hl hli => ?_⟩
      rcases Nat.lt_or_ge j l with hjl | hjl
      · rcases hli.eq_or_lt with rfl | hli
        · exact hlt
        · exact lt_of_lt_of_le hlt (hb l hjl hli)
      · exact hbk l hl hjl

/-- A map that keeps the order and the depths of the entries in `L` keeps parents, if what lies between
the images and is no image does not undercut them. -/
theorem IsParent.map {L : Nat → Prop} {f : Nat → Nat}
    (mono : ∀ i j, L i → L j → i < j → f i < f j) (depth : ∀ i, L i → d' (f i) = d i)
    (hm : L m) (hi : L i) (h : IsParent d i m)
    (other : ∀ j, f m < j → j < f i → (∃ k, L k ∧ f k = j) ∨ d i ≤ d' j) :
    IsParent d' (f i) (f m) := by
  obtain ⟨hmi, hd, hb⟩ := h
  refine ⟨mono m i hm hi hmi, by rw [depth m hm, depth i hi]; exact hd, fun j hj hji => ?_⟩
  rw [depth i hi]
  rcases other j hj hji with ⟨k, hk, rfl⟩ | hle
  · rw [depth k hk]
    refine hb k (Nat.lt_of_not_le fun hkm => ?_) (Nat.lt_of_not_le fun hik => ?_)
    · rcases hkm.eq_or_lt with rfl | hlt
      · exact absurd hj (lt_irrefl _)
      · exact absurd (mono k m hk hm hlt) (by omega)
    · rcases hik.eq_or_lt with rfl | hlt
      · exact absurd hji (lt_irrefl _)
      · exact absurd (mono i k hi hk hlt) (by omega)
  · exact hle

end L4env.Util.Preorder
