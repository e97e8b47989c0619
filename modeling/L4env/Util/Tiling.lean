import Mathlib.Data.List.Basic
import Mathlib.Tactic

/-!
# Tilings of an interval

A list of elements with a first and a last address, `lo` and `hi`, tiles the addresses from `a` up
to but excluding `e` if the elements are not empty and each one begins where the one before it ends.
-/

namespace L4env

variable {α : Type} {lo hi : α → Nat}

/-- The elements of the list follow each other from `a` to `e`, without a gap. -/
def Tiles (lo hi : α → Nat) : Nat → List α → Nat → Prop
  | a, [], e => a = e
  | a, x :: l, e => lo x = a ∧ lo x ≤ hi x ∧ Tiles lo hi (hi x + 1) l e

section
variable {a e k : Nat} {x y : α} {l l₁ l₂ m n : List α}

@[simp] theorem tiles_nil : Tiles lo hi a [] e ↔ a = e := Iff.rfl

@[simp] theorem tiles_cons :
    Tiles lo hi a (x :: l) e ↔ lo x = a ∧ lo x ≤ hi x ∧ Tiles lo hi (hi x + 1) l e := Iff.rfl

theorem tiles_append :
    Tiles lo hi a (l₁ ++ l₂) e ↔ ∃ b, Tiles lo hi a l₁ b ∧ Tiles lo hi b l₂ e := by
  induction l₁ generalizing a with
  | nil => simp
  | cons x l ih =>
    simp only [List.cons_append, tiles_cons, ih]
    constructor
    · intro ⟨h1, h2, b, h3, h4⟩
      exact ⟨b, ⟨h1, h2, h3⟩, h4⟩
    · intro ⟨b, ⟨h1, h2, h3⟩, h4⟩
      exact ⟨h1, h2, b, h3, h4⟩

theorem Tiles.le (h : Tiles lo hi a l e) : a ≤ e := by
  induction l generalizing a with
  | nil => exact h.le
  | cons x l ih =>
    obtain ⟨h1, h2, h3⟩ := h
    have := ih h3
    omega

/-- Every element lies inside the interval. -/
theorem Tiles.bounds (h : Tiles lo hi a l e) (hx : x ∈ l) : a ≤ lo x ∧ lo x ≤ hi x ∧ hi x < e := by
  induction l generalizing a with
  | nil => cases hx
  | cons y l ih =>
    obtain ⟨h1, h2, h3⟩ := h
    cases hx with
    | head =>
      have := h3.le
      omega
    | tail _ hx =>
      have := ih h3 hx
      omega

/-- A segment is replaced by one that tiles the same addresses. -/
theorem Tiles.splice (h : Tiles lo hi a (l₁ ++ (m ++ l₂)) e)
    (hm : ∀ b c, Tiles lo hi b m c → Tiles lo hi b n c) :
    Tiles lo hi a (l₁ ++ (n ++ l₂)) e := by
  simp only [tiles_append] at h ⊢
  obtain ⟨b, h1, c, h2, h3⟩ := h
  exact ⟨b, h1, c, hm b c h2, h3⟩

/-- Tilings by other elements of the same extent. -/
theorem Tiles.map {β : Type} {lo' hi' : β → Nat} {f : α → β} (h : Tiles lo hi a l e)
    (hf : ∀ x ∈ l, lo' (f x) = lo x ∧ hi' (f x) = hi x) : Tiles lo' hi' a (l.map f) e := by
  induction l generalizing a with
  | nil => exact h
  | cons x l ih =>
    obtain ⟨h1, h2, h3⟩ := h
    obtain ⟨hlo, hhi⟩ := hf x List.mem_cons_self
    rw [List.map_cons, tiles_cons, hlo, hhi]
    exact ⟨h1, h2, ih h3 fun y hy => hf y (List.mem_cons_of_mem _ hy)⟩

/-- The elements before `x` end below it, those behind it start above it. -/
theorem Tiles.middle (h : Tiles lo hi a (l₁ ++ x :: l₂) e) :
    lo x ≤ hi x ∧ (∀ y ∈ l₁, hi y < lo x) ∧ ∀ y ∈ l₂, hi x < lo y := by
  obtain ⟨b, h1, rfl, h2, h3⟩ := tiles_append.mp h
  refine ⟨h2, fun y hy => (h1.bounds hy).2.2, fun y hy => ?_⟩
  have := (h3.bounds hy).1
  omega

theorem Tiles.pairwise (h : Tiles lo hi a l e) : l.Pairwise fun x y => hi x < lo y := by
  induction l generalizing a with
  | nil => exact .nil
  | cons x l ih =>
    refine .cons (fun y hy => ?_) (ih h.2.2)
    have := (h.2.2.bounds hy).1
    omega

theorem Tiles.nodup (h : Tiles lo hi a l e) : l.Nodup := by
  induction l generalizing a with
  | nil => exact List.nodup_nil
  | cons x l ih =>
    refine List.nodup_cons.mpr ⟨fun hx => ?_, ih h.2.2⟩
    have h₁ := (h.2.2.bounds hx).1
    have h₂ := h.2.1
    omega

/-- The first element that does not end below an address contains it. -/
theorem Tiles.find_eq (h : Tiles lo hi a l e) (hx : x ∈ l) (h1 : lo x ≤ k) (h2 : k ≤ hi x) :
    l.find? (fun y => k ≤ hi y) = some x := by
  obtain ⟨l₁, l₂, rfl⟩ := List.append_of_mem hx
  have hbefore := h.middle.2.1
  rw [List.find?_append, List.find?_eq_none.mpr, Option.none_or, List.find?_cons_of_pos]
  · exact decide_eq_true h2
  · intro y hy
    have := hbefore y hy
    simp
    omega

theorem Tiles.unique (h : Tiles lo hi a l e) (hx : x ∈ l) (hy : y ∈ l) (hx1 : lo x ≤ k)
    (hx2 : k ≤ hi x) (hy1 : lo y ≤ k) (hy2 : k ≤ hi y) : x = y := by
  have := (h.find_eq hx hx1 hx2).symm.trans (h.find_eq hy hy1 hy2)
  exact Option.some.inj this

/-- Every address of the interval is in an element. -/
theorem Tiles.cover (h : Tiles lo hi a l e) (h1 : a ≤ k) (h2 : k < e) :
    ∃ x ∈ l, lo x ≤ k ∧ k ≤ hi x := by
  induction l generalizing a with
  | nil =>
    rw [tiles_nil] at h
    omega
  | cons x l ih =>
    obtain ⟨rfl, h3, h4⟩ := h
    cases le_or_gt k (hi x) with
    | inl hk => exact ⟨x, List.mem_cons_self, h1, hk⟩
    | inr hk =>
      obtain ⟨y, hy, hy'⟩ := ih h4 (by omega)
      exact ⟨y, List.mem_cons_of_mem _ hy, hy'⟩

/-- An element that begins where another one ends is the next one. -/
theorem Tiles.consecutive (h : Tiles lo hi a l e) (hx : x ∈ l) (hy : y ∈ l)
    (hxy : lo y = hi x + 1) : ∃ l₁ l₂, l = l₁ ++ x :: y :: l₂ := by
  obtain ⟨l₁, l', rfl⟩ := List.append_of_mem hx
  have hmid := h.middle
  have hb := h.bounds hy
  obtain ⟨b, -, -, -, hrest⟩ := tiles_append.mp h
  rw [List.mem_append, List.mem_cons] at hy
  obtain hy | rfl | hy := hy
  · have := hmid.2.1 y hy
    omega
  · omega
  · cases l' with
    | nil => cases hy
    | cons z l' =>
      have hz : lo z = hi x + 1 := hrest.1
      have hyz : y = z := hrest.unique (k := lo y) hy List.mem_cons_self (Nat.le_refl _) (by omega)
        (by omega) (by have := hrest.2.1; omega)
      exact ⟨l₁, l', by rw [hyz]⟩

end

end L4env
