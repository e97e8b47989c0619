import Mathlib.Data.List.Basic
import Mathlib.Tactic

/-!
# Intrusive linked lists

A heap of nodes is a pair of maps `n p : α → Option α`, the `next` and `prev` field of every node;
a null pointer is `none`. `Links n p q l r` says that the nodes of `l` are linked both ways in this
order, that the first one points back to `q` and the last one points on to `r`. A null-terminated
doubly linked list with head pointer `h` is `IsDList n p h l`. `IsSList n h l` is its singly linked
counterpart. `walkWhile` and `scan` are the two loops programs run over such lists, with the number
of steps they may take; both are shown to need no more steps than the list has nodes.

Edits are stated by what the new maps are at the nodes they touch, so that one lemma serves every
order in which a program writes the fields.
-/

namespace L4env

variable {α : Type}

/-- The nodes of `l` are linked both ways, between the pointers `q` and `r`. -/
def Links (n p : α → Option α) : Option α → List α → Option α → Prop
  | _, [], _ => True
  | q, x :: xs, r => p x = q ∧ n x = xs.head?.or r ∧ Links n p (some x) xs r

/-- `h` is the head of a null-terminated doubly linked list of the nodes `l`. -/
def IsDList (n p : α → Option α) (h : Option α) (l : List α) : Prop :=
  h = l.head? ∧ Links n p none l none

/-- `h` is the head of a null-terminated singly linked list of the nodes `l`. -/
def IsSList (n : α → Option α) : Option α → List α → Prop
  | h, [] => h = none
  | h, x :: xs => h = some x ∧ IsSList n (n x) xs

/-- `if (p) p->f = v`: a write to the field `f` of a node that may be missing. -/
def writeAt {β : Type} [DecidableEq α] (f : α → β) (p : Option α) (v : β) : α → β :=
  match p with
  | some x => Function.update f x v
  | none => f

theorem writeAt_of_ne {β : Type} [DecidableEq α] {f : α → β} {p : Option α} {v : β} {x : α}
    (h : p ≠ some x) : writeAt f p v x = f x := by
  cases p with
  | none => rfl
  | some y =>
    have : x ≠ y := fun e => h (by rw [e])
    simp [writeAt, this]

theorem writeAt_apply {β : Type} [DecidableEq α] {f : α → β} {p : Option α} {v : β} {x : α} :
    writeAt f p v x = if p = some x then v else f x := by
  cases p with
  | none => rfl
  | some y => simp [writeAt, Function.update_apply, eq_comm]

@[simp] theorem writeAt_some {β : Type} [DecidableEq α] {f : α → β} {v : β} {x : α} :
    writeAt f (some x) v x = v := by simp [writeAt]

section
variable {n p n' p' : α → Option α} {q r : Option α} {x : α} {l l₁ l₂ : List α}

@[simp] theorem links_nil : Links n p q [] r := trivial

@[simp] theorem links_cons :
    Links n p q (x :: l) r ↔ p x = q ∧ n x = l.head?.or r ∧ Links n p (some x) l r := Iff.rfl

/-- Links of a concatenation: both halves, each ending at the seam. -/
theorem links_append : Links n p q (l₁ ++ l₂) r ↔
    Links n p q l₁ (l₂.head?.or r) ∧ Links n p (l₁.getLast?.or q) l₂ r := by
  induction l₁ generalizing q with
  | nil => simp
  | cons x l₁ ih =>
    have hlast : (x :: l₁).getLast?.or q = l₁.getLast?.or (some x) := by
      cases l₁ <;> simp [List.getLast?_cons]
    simp only [List.cons_append, links_cons, ih, hlast, List.head?_append, Option.or_assoc]
    tauto

/-- Links read only the fields of their own nodes. -/
theorem Links.congr (h : Links n p q l r) (hn : ∀ x ∈ l, n' x = n x) (hp : ∀ x ∈ l, p' x = p x) :
    Links n' p' q l r := by
  induction l generalizing q with
  | nil => trivial
  | cons x l ih =>
    refine ⟨(hp x (by simp)).trans h.1, (hn x (by simp)).trans h.2.1, ih h.2.2 ?_ ?_⟩
    · exact fun y hy => hn y (by simp [hy])
    · exact fun y hy => hp y (by simp [hy])

theorem Links.next_mem (h : Links n p q l none) (hx : x ∈ l) (hy : n x = some y) : y ∈ l := by
  induction l generalizing q with
  | nil => simp at hx
  | cons z l ih =>
    rcases List.mem_cons.mp hx with rfl | hx
    · rw [h.2.1, Option.or_none] at hy
      exact List.mem_cons_of_mem _ (List.mem_of_mem_head? hy)
    · exact List.mem_cons_of_mem _ (ih h.2.2 hx)

/-- The successor and the predecessor of a node of the list, by its position. -/
theorem Links.middle (h : Links n p q (l₁ ++ x :: l₂) r) :
    p x = l₁.getLast?.or q ∧ n x = l₂.head?.or r := by
  rw [links_append] at h
  exact ⟨h.2.1, h.2.2.1⟩

/-! ## Insertion -/

theorem Links.cons_head (h : Links n p none l none) (hx : x ∉ l)
    (hn : ∀ y ∈ l, n' y = n y) (hnx : n' x = l.head?) (hp : ∀ y ∈ l, some y ≠ l.head? → p' y = p y)
    (hpx : p' x = none) (hph : ∀ y, l.head? = some y → p' y = some x) (hnd : l.Nodup) :
    Links n' p' none (x :: l) none := by
  refine ⟨hpx, by simpa using hnx, ?_⟩
  cases l with
  | nil => trivial
  | cons y l =>
    refine ⟨hph y rfl, (hn y (by simp)).trans h.2.1, h.2.2.congr (fun z hz => hn z (by simp [hz])) ?_⟩
    intro z hz
    refine hp z (by simp [hz]) ?_
    rintro ⟨⟩
    simp_all

/-- Insertion of `x` after the node `a`. -/
theorem Links.insert_after {a : α} (h : Links n p none (l₁ ++ a :: l₂) none)
    (hnd : (l₁ ++ a :: l₂).Nodup) (hx : x ∉ l₁ ++ a :: l₂)
    (hn : ∀ y, y ≠ a → y ≠ x → n' y = n y) (hna : n' a = some x) (hnx : n' x = n a)
    (hp : ∀ y, y ≠ x → n a ≠ some y → p' y = p y) (hpx : p' x = some a)
    (hpb : ∀ b, n a = some b → p' b = some x) :
    Links n' p' none (l₁ ++ a :: x :: l₂) none := by
  have hmid := h.middle.2
  rw [Option.or_none] at hmid
  rw [links_append] at h ⊢
  obtain ⟨h1, ha, -, h2⟩ := h
  simp only [List.nodup_append, List.nodup_cons, List.mem_cons, List.mem_append, not_or] at hnd hx
  obtain ⟨-, ⟨ha2, hnd2⟩, hdisj⟩ := hnd
  have hnext : ∀ y ∈ l₁, n a ≠ some y := by
    intro y hy hay
    rw [hmid] at hay
    exact hdisj y hy y (Or.inr (List.mem_of_mem_head? hay)) rfl
  refine ⟨?_, ?_⟩
  · refine (h1.congr (fun y hy => hn y ?_ ?_) (fun y hy => hp y ?_ (hnext y hy)))
    · exact fun e => hdisj y hy a (Or.inl rfl) e
    · rintro rfl; exact hx.1 hy
    · rintro rfl; exact hx.1 hy
  · have hna2 : n a ≠ some a := by
      rw [hmid]; intro e; exact ha2 (List.mem_of_mem_head? e)
    refine ⟨(hp a (Ne.symm hx.2.1) hna2).trans ha, by simpa using hna, hpx, by simp [hnx, hmid], ?_⟩
    cases l₂ with
    | nil => trivial
    | cons b l₂ =>
      simp only [List.mem_cons, not_or, List.nodup_cons] at ha2 hx hnd2
      refine ⟨hpb b hmid, (hn b (Ne.symm ha2.1) (Ne.symm hx.2.2.1)).trans h2.2.1, ?_⟩
      refine h2.2.2.congr (fun y hy => hn y ?_ ?_) (fun y hy => hp y ?_ ?_)
      · rintro rfl; exact ha2.2 hy
      · rintro rfl; exact hx.2.2.2 hy
      · rintro rfl; exact hx.2.2.2 hy
      · rw [hmid]; rintro ⟨⟩; exact hnd2.1 hy

/-- The writes of an insertion after `a`, where the fields of the new node were cleared before. -/
theorem Links.insert_after_write [DecidableEq α] {a : α} (h : Links n p none (l₁ ++ a :: l₂) none)
    (hnd : (l₁ ++ a :: l₂).Nodup) (hx : x ∉ l₁ ++ a :: l₂) :
    Links (Function.update (Function.update (Function.update n x none) x l₂.head?) a (some x))
      (Function.update (writeAt (Function.update p x none) l₂.head? (some x)) x (some a))
      none (l₁ ++ a :: x :: l₂) none := by
  have hna : n a = l₂.head? := by simpa using h.middle.2
  have hxa : x ≠ a := fun e => hx (by simp [e])
  have hx2 : l₂.head? ≠ some x := fun e => hx (by simp [List.mem_of_mem_head? e])
  refine h.insert_after hnd hx ?_ (by simp) (by simp [hxa, hna]) ?_ (by simp) ?_
  · intro y hya hyx
    simp [hya, hyx]
  · intro y hyx hy
    rw [Function.update_of_ne hyx, writeAt_of_ne (hna ▸ hy), Function.update_of_ne hyx]
  · intro b hb
    have hbx : b ≠ x := fun e => hx2 (by rw [← hna, hb, e])
    rw [Function.update_of_ne hbx, ← hna, hb, writeAt_some]

theorem pairwise_insert_after {R : α → α → Prop} {a : α} (h : (l₁ ++ a :: l₂).Pairwise R)
    (h1 : ∀ y ∈ l₁, R y x) (ha : R a x) (h2 : ∀ y ∈ l₂, R x y) :
    (l₁ ++ a :: x :: l₂).Pairwise R := by
  simp only [List.pairwise_append, List.pairwise_cons, List.mem_cons] at h ⊢
  refine ⟨h.1, ⟨?_, h2, h.2.1.2⟩, ?_⟩
  · rintro y (rfl | hy)
    · exact ha
    · exact h.2.1.1 y hy
  · rintro y hy z (rfl | rfl | hz)
    · exact h.2.2 y hy z (.inl rfl)
    · exact h1 y hy
    · exact h.2.2 y hy z (.inr hz)

/-! ## Removal -/

/-- Removal of the node `x`: its neighbours are linked to each other. -/
theorem Links.remove (h : Links n p none (l₁ ++ x :: l₂) none) (hnd : (l₁ ++ x :: l₂).Nodup)
    (hn : ∀ y, y ≠ x → p x ≠ some y → n' y = n y) (hna : ∀ a, p x = some a → n' a = n x)
    (hp : ∀ y, y ≠ x → n x ≠ some y → p' y = p y) (hpb : ∀ b, n x = some b → p' b = p x) :
    Links n' p' none (l₁ ++ l₂) none := by
  obtain ⟨hpx, hnx⟩ := h.middle
  simp only [Option.or_none] at hpx hnx
  rw [links_append] at h ⊢
  obtain ⟨h1, -, -, h2⟩ := h
  simp only [List.nodup_append, List.nodup_cons, List.mem_cons] at hnd
  obtain ⟨hnd1, ⟨hx2, hnd2⟩, hdisj⟩ := hnd
  have hx1 : ∀ y ∈ l₁, y ≠ x := fun y hy => hdisj y hy x (Or.inl rfl)
  have hnx1 : ∀ y ∈ l₁, n x ≠ some y := by
    intro y hy e
    rw [hnx] at e
    exact hdisj y hy y (Or.inr (List.mem_of_mem_head? e)) rfl
  refine ⟨?_, ?_⟩
  · -- the last node before `x` now points past it; the others are untouched
    rcases List.eq_nil_or_concat l₁ with rfl | ⟨l₀, a, rfl⟩
    · trivial
    rw [List.concat_eq_append] at *
    rw [List.getLast?_concat] at hpx
    rw [links_append] at h1 ⊢
    obtain ⟨h0, ha, -, -⟩ := h1
    rw [List.nodup_append] at hnd1
    refine ⟨h0.congr (fun y hy => hn y ?_ ?_) (fun y hy => hp y ?_ ?_), ?_, ?_, trivial⟩
    · exact hx1 y (by simp [hy])
    · rw [hpx]; rintro ⟨⟩; exact hnd1.2.2 _ hy _ (by simp) rfl
    · exact hx1 y (by simp [hy])
    · exact hnx1 y (by simp [hy])
    · exact (hp a (hx1 a (by simp)) (hnx1 a (by simp))).trans ha
    · simpa [hnx] using hna a hpx
  · cases l₂ with
    | nil => trivial
    | cons b l₂ =>
      simp only [List.mem_cons, not_or, List.nodup_cons] at hx2 hnd2
      have hnb : ∀ y ∈ b :: l₂, p x ≠ some y := by
        intro y hy e
        rw [hpx] at e
        exact hdisj y (List.mem_of_getLast? e) y (Or.inr (by simpa using hy)) rfl
      refine ⟨?_, (hn b (Ne.symm hx2.1) (hnb b (by simp))).trans h2.2.1, ?_⟩
      · rw [hpb b hnx, hpx, Option.or_none]
      · refine h2.2.2.congr (fun y hy => hn y ?_ (hnb y (by simp [hy]))) (fun y hy => hp y ?_ ?_)
        · rintro rfl; exact hx2.2 hy
        · rintro rfl; exact hx2.2 hy
        · rw [hnx]; rintro ⟨⟩; exact hnd2.1 hy

/-- The writes of a removal: the predecessor, if there is one, and the successor. -/
theorem Links.remove_write [DecidableEq α] (h : Links n p none (l₁ ++ x :: l₂) none)
    (hnd : (l₁ ++ x :: l₂).Nodup) :
    Links (writeAt n l₁.getLast? l₂.head?) (writeAt p l₂.head? l₁.getLast?) none (l₁ ++ l₂) none := by
  obtain ⟨hpx, hnx⟩ := h.middle
  simp only [Option.or_none] at hpx hnx
  refine h.remove hnd ?_ ?_ ?_ ?_
  · intro y _ hy
    exact writeAt_of_ne (hpx ▸ hy)
  · intro a ha
    rw [← hpx, ha, writeAt_some, hnx]
  · intro y _ hy
    exact writeAt_of_ne (hnx ▸ hy)
  · intro b hb
    rw [← hnx, hb, writeAt_some, hpx]

/-! ## Replacement of a segment -/

/-- Links at the left of a seam, where only the last node is given a new successor. -/
theorem Links.relink_left {r' : Option α} (h : Links n p q l r) (hnd : l.Nodup)
    (hn : ∀ x ∈ l, l.getLast? ≠ some x → n' x = n x) (hlast : ∀ x, l.getLast? = some x → n' x = r')
    (hp : ∀ x ∈ l, p' x = p x) : Links n' p' q l r' := by
  induction l generalizing q with
  | nil => trivial
  | cons x l ih =>
    refine ⟨(hp x List.mem_cons_self).trans h.1, ?_, ?_⟩
    · cases l with
      | nil => exact hlast x rfl
      | cons y l =>
        rw [hn x List.mem_cons_self, h.2.1]
        · rfl
        rw [List.getLast?_cons_cons]
        exact fun e => (List.nodup_cons.mp hnd).1 (List.mem_of_getLast? e)
    · have hlast' : ∀ y, l.getLast? = some y → (x :: l).getLast? = some y := by
        intro y hy
        rw [List.getLast?_cons, hy]
        rfl
      refine ih h.2.2 (List.nodup_cons.mp hnd).2 ?_ (fun y hy => hlast y (hlast' y hy))
        fun y hy => hp y (List.mem_cons_of_mem _ hy)
      intro y hy hne
      refine hn y (List.mem_cons_of_mem _ hy) fun e => hne ?_
      rw [List.getLast?_cons] at e
      cases hl : l.getLast? with
      | none => simp [List.getLast?_eq_none_iff.mp hl] at hy
      | some z => simpa [hl] using e

/-- Links at the right of a seam, where only the first node is given a new predecessor. -/
theorem Links.relink_right {q' : Option α} (h : Links n p q l r) (hnd : l.Nodup)
    (hn : ∀ x ∈ l, n' x = n x) (hhead : ∀ x, l.head? = some x → p' x = q')
    (hp : ∀ x ∈ l, l.head? ≠ some x → p' x = p x) : Links n' p' q' l r := by
  cases l with
  | nil => trivial
  | cons x l =>
    refine ⟨hhead x rfl, (hn x List.mem_cons_self).trans h.2.1, h.2.2.congr ?_ ?_⟩
    · exact fun y hy => hn y (List.mem_cons_of_mem _ hy)
    · intro y hy
      refine hp y (List.mem_cons_of_mem _ hy) fun e => ?_
      cases e
      exact (List.nodup_cons.mp hnd).1 hy

/-- The segment `m` is replaced by `k`, which is linked between the same neighbours. -/
theorem Links.splice {m k : List α} [DecidableEq α] (h : Links n p none (l₁ ++ (m ++ l₂)) none)
    (hnd : (l₁ ++ (m ++ l₂)).Nodup) (hnew : ∀ x ∈ k, x ∉ l₁ ∧ x ∉ l₂)
    (hnext : ∀ x ∉ k, n' x = if l₁.getLast? = some x then (k ++ l₂).head? else n x)
    (hprev : ∀ x ∉ k, p' x = if l₂.head? = some x then (l₁ ++ k).getLast? else p x)
    (hm : Links n' p' l₁.getLast? k l₂.head?) : Links n' p' none (l₁ ++ (k ++ l₂)) none := by
  simp only [List.nodup_append, List.mem_append] at hnd
  obtain ⟨hnd₁, ⟨-, hnd₂, -⟩, hdisj⟩ := hnd
  have hout₁ : ∀ x ∈ l₁, x ∉ k := fun x hx hx' => (hnew x hx').1 hx
  have hout₂ : ∀ x ∈ l₂, x ∉ k := fun x hx hx' => (hnew x hx').2 hx
  simp only [links_append, Option.or_none] at h ⊢
  refine ⟨h.1.relink_left hnd₁ ?_ ?_ ?_, hm, h.2.2.relink_right hnd₂ ?_ ?_ ?_⟩
  · intro x hx hne
    rw [hnext x (hout₁ x hx), if_neg hne]
  · intro x hx
    rw [hnext x (hout₁ x (List.mem_of_getLast? hx)), if_pos hx]
  · intro x hx
    rw [hprev x (hout₁ x hx), if_neg]
    exact fun e => hdisj x hx x (.inr (List.mem_of_mem_head? e)) rfl
  · intro x hx
    rw [hnext x (hout₂ x hx), if_neg]
    exact fun e => hdisj x (List.mem_of_getLast? e) x (.inr hx) rfl
  · intro x hx
    rw [hprev x (hout₂ x (List.mem_of_mem_head? hx)), if_pos hx, List.getLast?_append]
  · intro x hx hne
    rw [hprev x (hout₂ x hx), if_neg hne]

theorem Links.prev_head (h : Links n p q l r) (hx : l.head? = some x) : p x = q := by
  cases l with
  | nil => cases hx
  | cons y l =>
    cases hx
    exact h.1

theorem Links.next_last (h : Links n p q l r) (hx : l.getLast? = some x) : n x = r := by
  obtain ⟨l', rfl⟩ := List.getLast?_eq_some_iff.mp hx
  exact (links_append.mp h).2.2.1

section
variable [DecidableEq α] {a t : α}

/-- The writes that put the node `x` in the place of `a`. -/
theorem Links.exchange_write (h : Links n p none (l₁ ++ a :: l₂) none)
    (hnd : (l₁ ++ a :: l₂).Nodup) (hx : x ∉ l₁ ++ a :: l₂) :
    Links (Function.update (writeAt n l₁.getLast? (some x)) x l₂.head?)
      (writeAt (Function.update p x l₁.getLast?) l₂.head? (some x)) none (l₁ ++ x :: l₂) none := by
  have hx' : x ∉ l₁ ∧ x ≠ a ∧ x ∉ l₂ := by simpa [not_or] using hx
  have hfirst : l₂.head? ≠ some x := fun e => hx'.2.2 (List.mem_of_mem_head? e)
  refine Links.splice (m := [a]) (k := [x]) h hnd ?_ ?_ ?_ ?_
  · simpa using ⟨hx'.1, hx'.2.2⟩
  · intro y hy
    have hy : y ≠ x := by simpa using hy
    rw [Function.update_of_ne hy, writeAt_apply]
    rfl
  · intro y hy
    have hy : y ≠ x := by simpa using hy
    rw [writeAt_apply, Function.update_of_ne hy, List.getLast?_concat]
  · simp [writeAt_of_ne hfirst]

/-- The writes that put the node `x` in front of `a`. -/
theorem Links.insert_before_write (h : Links n p none (l₁ ++ a :: l₂) none)
    (hnd : (l₁ ++ a :: l₂).Nodup) (hx : x ∉ l₁ ++ a :: l₂) :
    Links (Function.update (writeAt n l₁.getLast? (some x)) x (some a))
      (Function.update (Function.update p x l₁.getLast?) a (some x)) none (l₁ ++ x :: a :: l₂)
      none := by
  have hna := h.middle.2
  have hx' : x ∉ l₁ ∧ x ≠ a ∧ x ∉ l₂ := by simpa [not_or] using hx
  have ha : a ∉ l₁ ∧ a ∉ l₂ := by
    simp only [List.nodup_append, List.nodup_cons] at hnd
    exact ⟨fun h => hnd.2.2 a h a List.mem_cons_self rfl, hnd.2.1.1⟩
  have hlast : l₁.getLast? ≠ some a := fun e => ha.1 (List.mem_of_getLast? e)
  refine Links.splice (m := [a]) (k := [x, a]) h hnd ?_ ?_ ?_ ?_
  · simpa using ⟨⟨hx'.1, hx'.2.2⟩, ha⟩
  · intro y hy
    have hy : y ≠ x ∧ y ≠ a := by simpa [not_or] using hy
    rw [Function.update_of_ne hy.1, writeAt_apply]
    rfl
  · intro y hy
    have hy : y ≠ x ∧ y ≠ a := by simpa [not_or] using hy
    rw [Function.update_of_ne hy.2, Function.update_of_ne hy.1]
    split
    · rename_i hhead
      rw [(links_append.mp h).2.2.2.prev_head hhead]
      simp
    · rfl
  · simp [writeAt_of_ne hlast, hx'.2.1, hx'.2.1.symm, hna]

/-- The writes that put the node `x` behind `a`. -/
theorem Links.insert_behind_write (h : Links n p none (l₁ ++ a :: l₂) none)
    (hnd : (l₁ ++ a :: l₂).Nodup) (hx : x ∉ l₁ ++ a :: l₂) :
    Links (Function.update (Function.update n x l₂.head?) a (some x))
      (writeAt (Function.update p x (some a)) l₂.head? (some x)) none (l₁ ++ a :: x :: l₂) none := by
  have hx' : x ∉ l₁ ∧ x ≠ a ∧ x ∉ l₂ := by simpa [not_or] using hx
  have hna : n a = l₂.head? := by simpa using h.middle.2
  have hfirst : l₂.head? ≠ some x := fun e => hx'.2.2 (List.mem_of_mem_head? e)
  refine h.insert_after hnd hx ?_ (by simp) (by simp [hx'.2.1, hna]) ?_ ?_ ?_
  · intro y hya hyx
    rw [Function.update_of_ne hya, Function.update_of_ne hyx]
  · intro y hyx hy
    rw [writeAt_of_ne (hna ▸ hy), Function.update_of_ne hyx]
  · rw [writeAt_of_ne hfirst, Function.update_self]
  · intro b hb
    rw [← hna, hb, writeAt_some]

/-- The writes that put the nodes `x` and `t` behind `a`. -/
theorem Links.insert_two_write (h : Links n p none (l₁ ++ a :: l₂) none)
    (hnd : (l₁ ++ a :: l₂).Nodup) (hx : x ∉ l₁ ++ a :: l₂) (ht : t ∉ l₁ ++ a :: l₂) (hxt : x ≠ t) :
    Links (Function.update (Function.update (Function.update n t l₂.head?) a (some x)) x (some t))
      (Function.update (writeAt (Function.update p t (some x)) l₂.head? (some t)) x (some a)) none
      (l₁ ++ a :: x :: t :: l₂) none := by
  have hpa := h.middle.1
  have hx' : x ∉ l₁ ∧ x ≠ a ∧ x ∉ l₂ := by simpa [not_or] using hx
  have ht' : t ∉ l₁ ∧ t ≠ a ∧ t ∉ l₂ := by simpa [not_or] using ht
  have ha : a ∉ l₁ ∧ a ∉ l₂ := by
    simp only [List.nodup_append, List.nodup_cons] at hnd
    exact ⟨fun h => hnd.2.2 a h a List.mem_cons_self rfl, hnd.2.1.1⟩
  have hfirst : l₂.head? ≠ some a := fun e => ha.2 (List.mem_of_mem_head? e)
  have hfirst' : l₂.head? ≠ some t := fun e => ht'.2.2 (List.mem_of_mem_head? e)
  refine Links.splice (m := [a]) (k := [a, x, t]) h hnd ?_ ?_ ?_ ?_
  · simpa using ⟨ha, ⟨hx'.1, hx'.2.2⟩, ht'.1, ht'.2.2⟩
  · intro y hy
    have hy : y ≠ a ∧ y ≠ x ∧ y ≠ t := by simpa [not_or] using hy
    rw [Function.update_of_ne hy.2.1, Function.update_of_ne hy.1, Function.update_of_ne hy.2.2]
    split
    · rename_i hlast
      rw [(links_append.mp h).1.next_last hlast]
      rfl
    · rfl
  · intro y hy
    have hy : y ≠ a ∧ y ≠ x ∧ y ≠ t := by simpa [not_or] using hy
    rw [Function.update_of_ne hy.2.1, writeAt_apply, Function.update_of_ne hy.2.2]
    simp
  · simp [writeAt_of_ne hfirst, writeAt_of_ne hfirst', hx'.2.1.symm, hxt.symm, ht'.2.1,
      ht'.2.1.symm, hpa]

end

end

/-! ## Loops -/

/-- `while (x->next && go(x->next)) x = x->next`, in at most `fuel` rounds. -/
def walkWhile (n : α → Option α) (go : α → Bool) : Nat → α → Option α
  | 0, _ => none
  | fuel + 1, x =>
    match n x with
    | none => some x
    | some y => if go y then walkWhile n go fuel y else some x

/-- `while (x && !stop(x)) x = x->next`, in at most `fuel` rounds. -/
def scan (n : α → Option α) (stop : α → Bool) : Nat → Option α → Option (Option α)
  | 0, _ => none
  | _ + 1, none => some none
  | fuel + 1, some x => if stop x then some (some x) else scan n stop fuel (n x)

/-- The walk from the head of a list ends at its last node that has only passed nodes before it. -/
theorem Links.walkWhile_eq {n p : α → Option α} {go : α → Bool} {q : Option α} {x : α} {l : List α}
    (h : Links n p q (x :: l) none) (hf : l.length < fuel) :
    ∃ l₁ b l₂, x :: l = l₁ ++ b :: l₂ ∧ walkWhile n go fuel x = some b ∧
      (∀ y ∈ l₁ ++ [b], y = x ∨ go y) ∧ ∀ y ∈ l₂.head?, go y = false := by
  induction l generalizing q x fuel with
  | nil =>
    obtain ⟨fuel, rfl⟩ : ∃ k, fuel = k + 1 := ⟨fuel - 1, by simp at hf; omega⟩
    refine ⟨[], x, [], rfl, ?_, by simp, by simp⟩
    have hx : n x = none := by simpa using h.2.1
    simp [walkWhile, hx]
  | cons y l ih =>
    obtain ⟨fuel, rfl⟩ : ∃ k, fuel = k + 1 := ⟨fuel - 1, by simp at hf; omega⟩
    have hx : n x = some y := by simpa using h.2.1
    by_cases hgo : go y
    · obtain ⟨l₁, b, l₂, heq, hw, hall, hstop⟩ := ih h.2.2 (by simp at hf; omega)
      refine ⟨x :: l₁, b, l₂, by simp [heq], by simp [walkWhile, hx, hgo, hw], ?_, hstop⟩
      intro z hz
      rcases List.mem_cons.mp hz with rfl | hz
      · exact .inl rfl
      · rcases hall z hz with rfl | h
        · exact .inr hgo
        · exact .inr h
    · exact ⟨[], x, y :: l, rfl, by simp [walkWhile, hx, hgo], by simp, by simpa using hgo⟩

theorem IsSList.scan_eq {n : α → Option α} {stop : α → Bool} {h : Option α} {l : List α}
    (H : IsSList n h l) (hf : l.length < fuel) : scan n stop fuel h = some (l.find? stop) := by
  induction l generalizing h fuel with
  | nil =>
    obtain ⟨fuel, rfl⟩ : ∃ k, fuel = k + 1 := ⟨fuel - 1, by simp at hf; omega⟩
    cases H; rfl
  | cons x l ih =>
    obtain ⟨fuel, rfl⟩ : ∃ k, fuel = k + 1 := ⟨fuel - 1, by simp at hf; omega⟩
    obtain ⟨rfl, H⟩ := H
    by_cases hs : stop x
    · simp [scan, hs]
    · simp [scan, hs, ih H (by simp at hf; omega)]

theorem Links.isSList {n p : α → Option α} {q : Option α} {l : List α}
    (h : Links n p q l none) : IsSList n l.head? l := by
  induction l generalizing q with
  | nil => rfl
  | cons x l ih =>
    refine ⟨rfl, ?_⟩
    have := ih h.2.2
    rwa [show n x = l.head? by simpa using h.2.1]

/-! ## Singly linked lists -/

section
variable {n n' : α → Option α} {h : Option α} {x : α} {l : List α}

theorem IsSList.congr (H : IsSList n h l) (hn : ∀ x ∈ l, n' x = n x) : IsSList n' h l := by
  induction l generalizing h with
  | nil => exact H
  | cons x l ih =>
    refine ⟨H.1, ?_⟩
    rw [hn x (by simp)]
    exact ih H.2 fun y hy => hn y (by simp [hy])

theorem IsSList.head_eq (H : IsSList n h l) : h = l.head? := by
  cases l with
  | nil => exact H
  | cons x l => exact H.1

theorem IsSList.unique {l' : List α} (H : IsSList n h l) (H' : IsSList n h l') : l = l' := by
  induction l generalizing h l' with
  | nil =>
    cases l' with
    | nil => rfl
    | cons y l' => cases H.symm.trans H'.1
  | cons x l ih =>
    cases l' with
    | nil => cases H.1.symm.trans H'
    | cons y l' =>
      cases H.1.symm.trans H'.1
      rw [ih H.2 H'.2]

theorem IsSList.tail_at {l₁ l₂ : List α} (H : IsSList n h (l₁ ++ x :: l₂)) :
    IsSList n (n x) l₂ := by
  induction l₁ generalizing h with
  | nil => exact H.2
  | cons y l ih => exact ih H.2

/-- The walk to the last node of a list. -/
theorem IsSList.walkWhile_last (H : IsSList n h (x :: l)) (hf : l.length < fuel) :
    walkWhile n (fun _ => true) fuel x = (x :: l).getLast? := by
  induction l generalizing h x fuel with
  | nil =>
    obtain ⟨fuel, rfl⟩ : ∃ k, fuel = k + 1 := ⟨fuel - 1, by simp at hf; omega⟩
    have hx : n x = none := H.2
    simp [walkWhile, hx]
  | cons y l ih =>
    obtain ⟨fuel, rfl⟩ : ∃ k, fuel = k + 1 := ⟨fuel - 1, by simp at hf; omega⟩
    rw [walkWhile, H.2.1]
    exact (ih H.2 (by simpa using hf)).trans List.getLast?_cons_cons.symm

/-- A node is put behind the last one. -/
theorem IsSList.push (H : IsSList n h l) (hnd : l.Nodup) (hx : n' x = none)
    (hkeep : ∀ y ∈ l, l.getLast? ≠ some y → n' y = n y)
    (hlast : ∀ y, l.getLast? = some y → n' y = some x) :
    IsSList n' (if l = [] then some x else h) (l ++ [x]) := by
  induction l generalizing h with
  | nil => exact ⟨rfl, hx⟩
  | cons a l ih =>
    obtain ⟨rfl, H⟩ := H
    obtain ⟨ha, hnd⟩ := List.nodup_cons.mp hnd
    refine ⟨rfl, ?_⟩
    cases l with
    | nil =>
      rw [hlast a rfl]
      exact ⟨rfl, hx⟩
    | cons b l =>
      have hne : (a :: b :: l).getLast? ≠ some a := by
        rw [List.getLast?_cons_cons]
        exact fun h => ha (List.mem_of_getLast? h)
      rw [hkeep a List.mem_cons_self hne]
      have hrest := ih H hnd (fun y hy hy' => hkeep y (List.mem_cons_of_mem _ hy)
        (by rwa [List.getLast?_cons_cons])) fun y hy => hlast y (by rwa [List.getLast?_cons_cons])
      simpa using hrest

/-- A list whose node `x` is made to point to another list. -/
theorem IsSList.cut_write [DecidableEq α] {q : Option α} {l₁ l₂ l' : List α}
    (H : IsSList n h (l₁ ++ x :: l₂)) (H' : IsSList n q l') (hx : x ∉ l₁) (hx' : x ∉ l') :
    IsSList (Function.update n x q) h (l₁ ++ x :: l') := by
  induction l₁ generalizing h with
  | nil =>
    refine ⟨H.1, ?_⟩
    rw [Function.update_self]
    refine H'.congr fun y hy => ?_
    have hyx : y ≠ x := fun e => hx' (e ▸ hy)
    exact Function.update_of_ne hyx _ _
  | cons y l ih =>
    simp only [List.mem_cons, not_or] at hx
    refine ⟨H.1, ?_⟩
    rw [Function.update_of_ne (Ne.symm hx.1)]
    exact ih H.2 hx.2

end

end L4env
