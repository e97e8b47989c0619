import Mathlib.Tactic

/-!
# Contents of scattered memory

A buffer may lie in pieces: `locate l i` is the address of its byte `i`, for a list `l` of pieces with
a first address and a size. `Writes loc i n v m m'` says that a step put the values `v` into `n` bytes
of such a buffer, from the byte `i` on, and changed nothing else.
-/

namespace L4env

variable {β : Type}

/-- `memset` -/
def fillBytes (m : Nat → β) (addr n : Nat) (b : β) : Nat → β :=
  fun x => if addr ≤ x ∧ x < addr + n then b else m x

/-- `memcpy` -/
def copyBytes (m : Nat → β) (dst src n : Nat) : Nat → β :=
  fun x => if dst ≤ x ∧ x < dst + n then m (src + (x - dst)) else m x

/-! ## Buffers -/

/-- The size of a buffer. -/
def extent (l : List (Nat × Nat)) : Nat := (l.map (·.2)).sum

/-- The address of a byte of a buffer. -/
def locate : List (Nat × Nat) → Nat → Nat
  | [], i => i
  | r :: l, i => if r.2 ≤ i then locate l (i - r.2) else r.1 + i

section
variable {l l₁ l₂ : List (Nat × Nat)} {r : Nat × Nat} {i j : Nat}

@[simp] theorem extent_nil : extent [] = 0 := rfl

@[simp] theorem extent_cons : extent (r :: l) = r.2 + extent l := by simp [extent]

/-- A byte of a piece lies at its offset in the piece. -/
theorem locate_append (l₁ : List (Nat × Nat)) (r : Nat × Nat) (l₂ : List (Nat × Nat)) (h : j < r.2) :
    locate (l₁ ++ r :: l₂) (extent l₁ + j) = r.1 + j := by
  induction l₁ with
  | nil => simp [locate, h]
  | cons r' l₁ ih =>
    simp only [List.cons_append, extent_cons, locate]
    rw [if_pos (by omega), ← ih]
    congr 1
    omega

theorem locate_append_right (l₁ l₂ : List (Nat × Nat)) (k : Nat) :
    locate (l₁ ++ l₂) (extent l₁ + k) = locate l₂ k := by
  induction l₁ with
  | nil => simp
  | cons r l₁ ih =>
    simp only [List.cons_append, extent_cons, locate]
    rw [if_pos (by omega), ← ih]
    congr 1
    omega

theorem locate_append_left (h : i < extent l₁) : locate (l₁ ++ l₂) i = locate l₁ i := by
  induction l₁ generalizing i with
  | nil => cases h
  | cons r l₁ ih =>
    rw [extent_cons] at h
    simp only [List.cons_append, locate]
    split
    · exact ih (by omega)
    · rfl

/-- The bytes from the offset `k` of a piece on. -/
theorem locate_append_add (l₁ : List (Nat × Nat)) (r : Nat × Nat) (l₂ : List (Nat × Nat)) (h : j ≤ r.2)
    (k : Nat) : locate (l₁ ++ r :: l₂) (extent l₁ + j + k) = locate ((r.1 + j, r.2 - j) :: l₂) k := by
  rw [Nat.add_assoc, locate_append_right]
  simp only [locate]
  split
  next h' =>
    rw [if_pos (by omega)]
    congr 1
    omega
  next h' =>
    rw [if_neg (by omega)]
    omega

/-- Every byte lies in a piece. -/
theorem locate_mem (h : i < extent l) : ∃ r ∈ l, r.1 ≤ locate l i ∧ locate l i < r.1 + r.2 := by
  induction l generalizing i with
  | nil => cases h
  | cons r l ih =>
    rw [extent_cons] at h
    unfold locate
    split
    · obtain ⟨r', hr', hloc⟩ := ih (i := i - r.2) (by omega)
      exact ⟨r', by simp [hr'], hloc⟩
    · exact ⟨r, by simp, by omega, by omega⟩

/-- The addresses of a buffer are those of its pieces. -/
theorem exists_locate_iff {x : Nat} :
    (∃ i < extent l, locate l i = x) ↔ ∃ r ∈ l, r.1 ≤ x ∧ x < r.1 + r.2 := by
  constructor
  · rintro ⟨i, hi, rfl⟩
    exact locate_mem hi
  · rintro ⟨r, hr, h1, h2⟩
    obtain ⟨l₁, l₂, rfl⟩ := List.append_of_mem hr
    refine ⟨extent l₁ + (x - r.1), ?_, ?_⟩
    · simp only [extent, List.map_append, List.map_cons, List.sum_append, List.sum_cons]
      omega
    · rw [locate_append l₁ r l₂ (by omega)]
      omega

/-- Disjoint pieces: no two bytes of the buffer share an address. -/
theorem locate_inj (hl : l.Pairwise fun r r' => r.1 + r.2 ≤ r'.1 ∨ r'.1 + r'.2 ≤ r.1)
    (hi : i < extent l) (hj : j < extent l) (h : locate l i = locate l j) : i = j := by
  induction l generalizing i j with
  | nil => cases hi
  | cons r l ih =>
    rw [List.pairwise_cons] at hl
    rw [extent_cons] at hi hj
    -- a byte of the first piece is not one of a later piece
    have hout : ∀ k, r.2 ≤ k → k < r.2 + extent l →
        ¬(r.1 ≤ locate l (k - r.2) ∧ locate l (k - r.2) < r.1 + r.2) := by
      intro k hk hk' hin
      obtain ⟨r', hr', hloc⟩ := locate_mem (l := l) (i := k - r.2) (by omega)
      have := hl.1 r' hr'
      omega
    simp only [locate] at h
    split at h
    next hri =>
      split at h
      next hrj =>
        have := ih hl.2 (by omega) (by omega) h
        omega
      next hrj => exact absurd ⟨by omega, by omega⟩ (hout i hri hi)
    next hri =>
      split at h
      next hrj => exact absurd ⟨by omega, by omega⟩ (hout j hrj hj)
      next hrj => omega

end

/-! ## Writing -/

/-- The bytes `i` to `i + n` of a buffer were set to the values `v`, and no other byte was changed. -/
structure Writes (loc : Nat → Nat) (i n : Nat) (v : Nat → β) (m m' : Nat → β) : Prop where
  written : ∀ k < n, m' (loc (i + k)) = v k
  frame : ∀ x, (∀ k < n, loc (i + k) ≠ x) → m' x = m x

section
variable {loc src : Nat → Nat} {addr i j n k : Nat} {v : Nat → β} {m m' m'' : Nat → β} {b : β}

theorem Writes.refl : Writes loc i 0 v m m :=
  ⟨fun _ h => absurd h (Nat.not_lt_zero _), fun _ _ => rfl⟩

theorem Writes.congr {w : Nat → β} (h : Writes loc i n v m m') (hv : ∀ k < n, v k = w k) :
    Writes loc i n w m m' :=
  ⟨fun k hk => (h.written k hk).trans (hv k hk), h.frame⟩

theorem Writes.trans (h : Writes loc i n v m m') (h' : Writes loc (i + n) k (fun x => v (n + x)) m' m'')
    (hinj : ∀ x < n + k, ∀ y < n + k, loc (i + x) = loc (i + y) → x = y) :
    Writes loc i (n + k) v m m'' := by
  refine ⟨fun x hx => ?_, fun x hx => ?_⟩
  · by_cases hn : x < n
    · rw [h'.frame, h.written x hn]
      intro y hy he
      have := hinj (n + y) (by omega) x hx (by rw [← he]; congr 1; omega)
      omega
    · have := h'.written (x - n) (by omega)
      rwa [show i + n + (x - n) = i + x by omega, show n + (x - n) = x by omega] at this
  · rw [h'.frame x fun y hy => ?_, h.frame x fun y hy => hx y (by omega)]
    have := hx (n + y) (by omega)
    rwa [show i + (n + y) = i + n + y by omega] at this

/-- `memset` of a part that lies in one piece. -/
theorem writes_fillBytes (h : ∀ k < n, loc (i + k) = addr + k) :
    Writes loc i n (fun _ => b) m (fillBytes m addr n b) := by
  refine ⟨fun k hk => ?_, fun x hx => ?_⟩
  · rw [h k hk]
    exact if_pos ⟨by omega, by omega⟩
  · refine if_neg fun ⟨h1, h2⟩ => hx (x - addr) (by omega) ?_
    rw [h _ (by omega)]
    omega

/-- `memcpy` between parts that lie in one piece each. -/
theorem writes_copyBytes {saddr : Nat} (h : ∀ k < n, loc (i + k) = addr + k)
    (hs : ∀ k < n, src (j + k) = saddr + k) :
    Writes loc i n (fun k => m (src (j + k))) m (copyBytes m addr saddr n) := by
  refine ⟨fun k hk => ?_, fun x hx => ?_⟩
  · rw [h k hk, hs k hk]
    refine (if_pos ⟨by omega, by omega⟩).trans ?_
    congr 1
    omega
  · refine if_neg fun ⟨h1, h2⟩ => hx (x - addr) (by omega) ?_
    rw [h _ (by omega)]
    omega

/-- A buffer apart from the written one keeps its contents. -/
theorem Writes.other (h : Writes loc i n v m m') (hsep : ∀ k < n, loc (i + k) ≠ src j) :
    m' (src j) = m (src j) :=
  h.frame _ hsep

end

end L4env
