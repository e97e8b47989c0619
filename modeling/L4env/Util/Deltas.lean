import Mathlib.Data.List.Basic
import Mathlib.Tactic

/-!
# Lists with differences

Of a list in ascending order of a key only the differences of the keys are stored, each with its element:
`Deltas d b l` says that `d` stores them for the elements and keys of `l`, the first of which is counted
from `b`. A removal adds the difference of the element to that of the next one.
-/

namespace L4env

variable {α : Type} {d d' : α → Int} {b c r : Int} {i : α} {l l₁ l₂ : List (α × Int)}

def Deltas (d : α → Int) : Int → List (α × Int) → Prop
  | _, [] => True
  | b, x :: l => d x.1 = x.2 - b ∧ b ≤ x.2 ∧ Deltas d x.2 l

/-- The key of the last element, or `b` if there is none. -/
def lastKey : Int → List (α × Int) → Int
  | b, [] => b
  | _, x :: l => lastKey x.2 l

@[simp] theorem deltas_nil : Deltas d b [] := trivial

@[simp] theorem deltas_cons {x : α × Int} :
    Deltas d b (x :: l) ↔ d x.1 = x.2 - b ∧ b ≤ x.2 ∧ Deltas d x.2 l := Iff.rfl

theorem Deltas.congr (H : Deltas d b l) (h : ∀ x ∈ l, d' x.1 = d x.1) : Deltas d' b l := by
  induction l generalizing b with
  | nil => trivial
  | cons x l ih =>
    obtain ⟨h1, h2, h3⟩ := H
    exact ⟨(h x List.mem_cons_self).trans h1, h2, ih h3 fun y hy => h y (List.mem_cons_of_mem _ hy)⟩

theorem deltas_append : Deltas d b (l₁ ++ l₂) ↔ Deltas d b l₁ ∧ Deltas d (lastKey b l₁) l₂ := by
  induction l₁ generalizing b with
  | nil => simp [lastKey]
  | cons x l ih => simp [lastKey, ih, and_assoc]

theorem Deltas.le (H : Deltas d b l) {x : α × Int} (hx : x ∈ l) : b ≤ x.2 := by
  induction l generalizing b with
  | nil => cases hx
  | cons y l ih =>
    obtain ⟨-, h2, h3⟩ := H
    obtain rfl | hx := List.mem_cons.mp hx
    · exact h2
    · exact h2.trans (ih h3 hx)

theorem Deltas.mem (H : Deltas d b l) {x : α × Int} (hx : x ∈ l) : 0 ≤ d x.1 ∧ d x.1 ≤ x.2 - b := by
  induction l generalizing b with
  | nil => cases hx
  | cons y l ih =>
    obtain ⟨h1, h2, h3⟩ := H
    obtain rfl | hx := List.mem_cons.mp hx
    · omega
    · have hd := ih h3 hx
      omega

theorem lastKey_le (hb : b ≤ c) (h : ∀ x ∈ l, x.2 ≤ c) : lastKey b l ≤ c := by
  induction l generalizing b with
  | nil => exact hb
  | cons x l ih => exact ih (h x List.mem_cons_self) fun y hy => h y (List.mem_cons_of_mem _ hy)

/-- The sum of the differences up to an element is its key. -/
theorem Deltas.sum (H : Deltas d b (l₁ ++ (i, r) :: l₂)) :
    b + (((l₁ ++ [(i, r)]).map fun x => d x.1).sum) = r := by
  induction l₁ generalizing b with
  | nil =>
    have h : d i = r - b := H.1
    simp [h]
  | cons x l ih =>
    obtain ⟨h1, -, h3⟩ := H
    have hsum := ih h3
    simp only [List.cons_append, List.map_cons, List.sum_cons, h1]
    omega

theorem Deltas.push (H : Deltas d b l) (hr : lastKey b l ≤ r) (hd : ∀ x ∈ l, d' x.1 = d x.1)
    (hi : d' i = r - lastKey b l) : Deltas d' b (l ++ [(i, r)]) :=
  deltas_append.mpr ⟨H.congr hd, hi, hr, trivial⟩

theorem Deltas.remove (H : Deltas d b (l₁ ++ (i, r) :: l₂)) (hd₁ : ∀ x ∈ l₁, d' x.1 = d x.1)
    (hhead : ∀ x, l₂.head? = some x → d' x.1 = d x.1 + d i) (htail : ∀ x ∈ l₂.tail, d' x.1 = d x.1) :
    Deltas d' b (l₁ ++ l₂) := by
  obtain ⟨H₁, hi, hle, H₂⟩ := deltas_append.mp H
  refine deltas_append.mpr ⟨H₁.congr hd₁, ?_⟩
  cases l₂ with
  | nil => trivial
  | cons x l₂ =>
    obtain ⟨h1, h2, h3⟩ := H₂
    have hx := hhead x rfl
    have hi : d i = r - lastKey b l₁ := hi
    have hle : lastKey b l₁ ≤ r := hle
    have h1 : d x.1 = x.2 - r := h1
    have h2 : r ≤ x.2 := h2
    exact ⟨by omega, by omega, h3.congr htail⟩

/-- All keys less the same number. -/
theorem Deltas.shift (H : Deltas d b l) (c : Int) :
    Deltas d (b - c) (l.map fun x => (x.1, x.2 - c)) := by
  induction l generalizing b with
  | nil => trivial
  | cons x l ih =>
    obtain ⟨h1, h2, h3⟩ := H
    exact ⟨by simp only [h1]; omega, by simp only; omega, ih h3⟩

end L4env
