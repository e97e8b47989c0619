import Mathlib.Data.List.Infix
import Mathlib.Tactic

/-!
# Search in lists

`search p l` splits the list `l` at the first occurrence of `p`, as `strstr` and `memmem` do. `replaceAll`
replaces all occurrences from left to right that do not overlap, and `sizes` are the lengths before and
after each replacement. `search_replace` ties the two to a loop of searches.
-/

namespace L4env

variable {α : Type} [DecidableEq α] {p w l pre post : List α} {n : Nat}

/-- The list before the first occurrence of `p`, and the list from there on. -/
def search (p : List α) : List α → Option (List α × List α)
  | [] => if p = [] then some ([], []) else none
  | x :: l => if p <+: x :: l then some ([], x :: l) else (search p l).map fun r => (x :: r.1, r.2)

theorem search_some (h : search p l = some (pre, post)) : l = pre ++ post ∧ p <+: post := by
  induction l generalizing pre with
  | nil =>
    rw [search] at h
    split at h
    · cases h
      exact ⟨rfl, by simp [*]⟩
    · cases h
  | cons x l ih =>
    rw [search] at h
    split at h
    · rename_i hp
      cases h
      exact ⟨rfl, hp⟩
    · obtain ⟨⟨pre', post'⟩, hr, heq⟩ := Option.map_eq_some_iff.mp h
      cases heq
      obtain ⟨rfl, hp⟩ := ih hr
      exact ⟨rfl, hp⟩

/-- There is no earlier occurrence. -/
theorem search_first (h : search p l = some (pre, post)) {l₁ l₂ : List α} (hl : l = l₁ ++ l₂)
    (hp : p <+: l₂) : pre.length ≤ l₁.length := by
  induction l generalizing pre l₁ with
  | nil =>
    rw [search] at h
    split at h
    · cases h
      exact Nat.zero_le _
    · cases h
  | cons x l ih =>
    rw [search] at h
    split at h
    · cases h
      exact Nat.zero_le _
    · rename_i hno
      obtain ⟨⟨pre', post'⟩, hr, heq⟩ := Option.map_eq_some_iff.mp h
      cases heq
      cases l₁ with
      | nil => exact absurd (hl ▸ hp) hno
      | cons y l₁ => exact Nat.succ_le_succ (ih hr (List.cons.inj hl).2)

theorem search_none (h : search p l = none) {l₁ l₂ : List α} (hl : l = l₁ ++ l₂) : ¬ p <+: l₂ := by
  induction l generalizing l₁ with
  | nil =>
    rw [search] at h
    split at h
    · cases h
    · rename_i hne
      obtain ⟨-, rfl⟩ := List.nil_eq_append_iff.mp hl
      exact fun hp => hne (List.prefix_nil.mp hp)
  | cons x l ih =>
    rw [search] at h
    split at h
    · cases h
    · rename_i hno
      cases l₁ with
      | nil =>
        obtain rfl : x :: l = l₂ := hl
        exact hno
      | cons y l₁ => exact ih (Option.map_eq_none_iff.mp h) (List.cons.inj hl).2

/-- A list is found at its start where it begins another one. -/
theorem search_prefix (h : p <+: l) : search p l = some ([], l) := by
  cases l with
  | nil => rw [search, if_pos (List.prefix_nil.mp h)]
  | cons x l => rw [search, if_pos h]

theorem search_isSome : (search p l).isSome = true ↔ p <:+: l := by
  constructor
  · intro h
    obtain ⟨⟨pre, post⟩, hs⟩ := Option.isSome_iff_exists.mp h
    obtain ⟨rfl, post, rfl⟩ := search_some hs
    exact ⟨pre, post, by rw [List.append_assoc]⟩
  · rintro ⟨pre, post, rfl⟩
    cases hs : search p (pre ++ p ++ post) with
    | some found => rfl
    | none => exact absurd (List.prefix_append p post) (search_none hs (List.append_assoc pre p post))

/-- The search for a single element. -/
theorem search_char {c : α} (h : c ∉ pre) (post : List α) :
    search [c] (pre ++ c :: post) = some (pre, c :: post) := by
  induction pre with
  | nil => exact search_prefix (List.prefix_append [c] post)
  | cons x pre ih =>
    obtain ⟨hx, hpre⟩ := List.ne_and_not_mem_of_not_mem_cons h
    rw [List.cons_append, search, if_neg (by simpa using hx), ih hpre]
    rfl

/-! ## Replacement -/

/-- All occurrences of `p` are replaced by `w`, once `skip` elements are left out. -/
def replaceFrom (p w : List α) : List α → Nat → List α
  | [], _ => []
  | _ :: l, skip + 1 => replaceFrom p w l skip
  | x :: l, 0 => if p <+: x :: l then w ++ replaceFrom p w l (p.length - 1) else x :: replaceFrom p w l 0

def replaceAll (p w l : List α) : List α := replaceFrom p w l 0

/-- The lengths before and after each replacement, from the length `n` on. -/
def sizesFrom (p w : List α) : List α → Nat → Nat → List (Nat × Nat)
  | [], _, _ => []
  | _ :: l, skip + 1, n => sizesFrom p w l skip n
  | x :: l, 0, n =>
    if p <+: x :: l then
      (n, n - p.length + w.length) :: sizesFrom p w l (p.length - 1) (n - p.length + w.length)
    else sizesFrom p w l 0 n

def sizes (p w l : List α) : List (Nat × Nat) := sizesFrom p w l 0 l.length

theorem replaceFrom_skip (l : List α) (k : Nat) : replaceFrom p w l k = replaceFrom p w (l.drop k) 0 := by
  induction l generalizing k with
  | nil => simp [replaceFrom]
  | cons x l ih =>
    cases k with
    | zero => rfl
    | succ k => exact ih k

theorem sizesFrom_skip (l : List α) (k n : Nat) : sizesFrom p w l k n = sizesFrom p w (l.drop k) 0 n := by
  induction l generalizing k with
  | nil => simp [sizesFrom]
  | cons x l ih =>
    cases k with
    | zero => rfl
    | succ k => exact ih k

omit [DecidableEq α] in
theorem drop_pred (hp : p ≠ []) (x : α) (l : List α) : l.drop (p.length - 1) = (x :: l).drop p.length := by
  obtain ⟨y, p, rfl⟩ := List.exists_cons_of_ne_nil hp
  rfl

/-- A search, the replacement, and what is behind it. -/
theorem search_replace (hp : p ≠ []) (h : search p l = some (pre, post)) :
    replaceFrom p w l 0 = pre ++ w ++ replaceFrom p w (post.drop p.length) 0 ∧
      sizesFrom p w l 0 n = (n, n - p.length + w.length) ::
        sizesFrom p w (post.drop p.length) 0 (n - p.length + w.length) := by
  induction l generalizing pre with
  | nil =>
    rw [search, if_neg hp] at h
    cases h
  | cons x l ih =>
    rw [search] at h
    split at h
    · rename_i hpre
      cases h
      rw [replaceFrom, if_pos hpre, replaceFrom_skip, sizesFrom, if_pos hpre, sizesFrom_skip,
        drop_pred hp x]
      exact ⟨rfl, rfl⟩
    · rename_i hno
      obtain ⟨⟨pre', post'⟩, hr, heq⟩ := Option.map_eq_some_iff.mp h
      cases heq
      obtain ⟨h1, h2⟩ := ih hr
      rw [replaceFrom, if_neg hno, sizesFrom, if_neg hno, h1, h2]
      exact ⟨rfl, rfl⟩

theorem replace_none (h : search p l = none) :
    replaceFrom p w l 0 = l ∧ sizesFrom p w l 0 n = [] := by
  induction l with
  | nil => exact ⟨rfl, rfl⟩
  | cons x l ih =>
    rw [search] at h
    split at h
    · cases h
    · rename_i hno
      obtain ⟨h1, h2⟩ := ih (Option.map_eq_none_iff.mp h)
      rw [replaceFrom, if_neg hno, sizesFrom, if_neg hno, h1, h2]
      exact ⟨rfl, rfl⟩

/-- A replacement adds at most the length of `w`. -/
theorem sizesFrom_growth (l : List α) (k n : Nat) : ∀ x ∈ sizesFrom p w l k n, x.2 - x.1 ≤ w.length := by
  induction l generalizing k n with
  | nil => simp [sizesFrom]
  | cons x l ih =>
    cases k with
    | succ k => exact ih k n
    | zero =>
      rw [sizesFrom]
      split
      · refine List.forall_mem_cons.mpr ⟨?_, ih _ _⟩
        dsimp only
        omega
      · exact ih 0 n

/-- Each length is the one that the replacement before left. -/
def Chained : Nat → List (Nat × Nat) → Prop
  | _, [] => True
  | n, x :: l => x.1 = n ∧ Chained x.2 l

def lastOf : Nat → List (Nat × Nat) → Nat
  | n, [] => n
  | _, x :: l => lastOf x.2 l

theorem Chained.append {l l' : List (Nat × Nat)} (h : Chained n l) (h' : Chained (lastOf n l) l') :
    Chained n (l ++ l') := by
  induction l generalizing n with
  | nil => exact h'
  | cons x l ih => exact ⟨h.1, ih h.2 h'⟩

/-- The last length is the length of the list with the replacements. -/
theorem sizesFrom_chained (hp : p ≠ []) (w : List α) (hl : l.length ≤ n) :
    Chained n (sizesFrom p w l 0 n) ∧
      lastOf n (sizesFrom p w l 0 n) + l.length = n + (replaceFrom p w l 0).length := by
  induction hlen : l.length using Nat.strong_induction_on generalizing l n with
  | _ len ih =>
    cases hs : search p l with
    | none =>
      obtain ⟨htext, hsizes⟩ := replace_none (w := w) (n := n) hs
      rw [htext, hsizes, ← hlen]
      exact ⟨trivial, rfl⟩
    | some found =>
      obtain ⟨pre, found⟩ := found
      obtain ⟨rfl, post, rfl⟩ := search_some hs
      obtain ⟨htext, hsizes⟩ := search_replace (w := w) (n := n) hp hs
      have hpos := List.length_pos_of_ne_nil hp
      rw [List.drop_left] at htext hsizes
      simp only [List.length_append] at hlen hl
      obtain ⟨h1, h2⟩ := ih post.length (by omega) (n := n - p.length + w.length) (by omega) rfl
      rw [htext, hsizes]
      refine ⟨⟨rfl, h1⟩, ?_⟩
      simp only [lastOf, List.length_append]
      omega

end L4env
