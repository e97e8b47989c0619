import Mathlib.Data.List.Basic
import Mathlib.Tactic

/-!
# Lists with pointers to the pointer before

A null-terminated list in which every node knows the place that points to it: the head pointer of
the list, or the `next` field of the node before. A node can be unlinked without knowing the list it
is in. The heads of all lists are a map from the names `ι` of the lists.
-/

namespace L4env

/-- A place that holds a pointer to a node. -/
inductive Slot (ι α : Type)
  | head (i : ι)
  | next (a : α)
deriving DecidableEq

/-- The heads of the lists and the two fields of the nodes. -/
structure HHeap (ι α : Type) where
  head : ι → Option α
  next : α → Option α
  prevNext : α → Slot ι α

namespace HHeap

variable {ι α : Type} {h h' : HHeap ι α} {s : Slot ι α} {i j : ι} {x : α} {l l₁ l₂ : List α}

/-- The nodes of `l` are linked in this order, the first one from the place `s`. -/
def Chain (h : HHeap ι α) : Slot ι α → List α → Prop
  | _, [] => True
  | s, x :: l => h.prevNext x = s ∧ h.next x = l.head? ∧ h.Chain (.next x) l

/-- The list `i` has the nodes `l`. -/
def IsList (h : HHeap ι α) (i : ι) (l : List α) : Prop :=
  h.head i = l.head? ∧ h.Chain (.head i) l

theorem Chain.congr (H : h.Chain s l) (hn : ∀ x ∈ l, h'.next x = h.next x)
    (hp : ∀ x ∈ l, h'.prevNext x = h.prevNext x) : h'.Chain s l := by
  induction l generalizing s with
  | nil => trivial
  | cons x l ih =>
    refine ⟨(hp x List.mem_cons_self).trans H.1, (hn x List.mem_cons_self).trans H.2.1, ih H.2.2 ?_ ?_⟩
    · exact fun y hy => hn y (List.mem_cons_of_mem _ hy)
    · exact fun y hy => hp y (List.mem_cons_of_mem _ hy)

theorem IsList.congr (H : h.IsList i l) (hi : h'.head i = h.head i)
    (hn : ∀ x ∈ l, h'.next x = h.next x) (hp : ∀ x ∈ l, h'.prevNext x = h.prevNext x) :
    h'.IsList i l :=
  ⟨hi.trans H.1, H.2.congr hn hp⟩

theorem Chain.unique {s' : Slot ι α} {l' : List α} (H : h.Chain s l) (H' : h.Chain s' l')
    (he : l.head? = l'.head?) : l = l' := by
  induction l generalizing s s' l' with
  | nil => exact (List.head?_eq_none_iff.mp he.symm).symm
  | cons x l ih =>
    cases l' with
    | nil => cases he
    | cons y l' =>
      cases he
      rw [ih H.2.2 H'.2.2 (H.2.1.symm.trans H'.2.1)]

theorem IsList.unique {l' : List α} (H : h.IsList i l) (H' : h.IsList i l') : l = l' :=
  H.2.unique H'.2 (H.1.symm.trans H'.1)

variable [DecidableEq ι] [DecidableEq α]

/-- `*s = p` -/
def write (h : HHeap ι α) (s : Slot ι α) (p : Option α) : HHeap ι α :=
  match s with
  | .head i => { h with head := Function.update h.head i p }
  | .next a => { h with next := Function.update h.next a p }

/-- `if (p) p->prev_next = s` -/
def setPrevNext (h : HHeap ι α) (p : Option α) (s : Slot ι α) : HHeap ι α :=
  match p with
  | some y => { h with prevNext := Function.update h.prevNext y s }
  | none => h

/-- The node `x` is taken out of its list. -/
def unlink (h : HHeap ι α) (x : α) : HHeap ι α :=
  (h.setPrevNext (h.next x) (h.prevNext x)).write (h.prevNext x) (h.next x)

/-- The node `x` becomes the first one of the list `i`. -/
def push (h : HHeap ι α) (i : ι) (x : α) : HHeap ι α :=
  let h₁ : HHeap ι α := { h with
    next := Function.update h.next x (h.head i)
    prevNext := Function.update h.prevNext x (.head i) }
  (h₁.setPrevNext (h.head i) (.next x)).write (.head i) (some x)

/-! ## Push -/

theorem push_head : (h.push i x).head = Function.update h.head i (some x) := by
  unfold push setPrevNext write
  cases h.head i <;> rfl

theorem push_next : (h.push i x).next = Function.update h.next x (h.head i) := by
  unfold push setPrevNext write
  cases h.head i <;> rfl

theorem push_prevNext {y : α} : (h.push i x).prevNext y =
    if h.head i = some y then .next x else if y = x then .head i else h.prevNext y := by
  unfold push setPrevNext write
  cases h.head i with
  | none => simp [Function.update_apply]
  | some z => simp [Function.update_apply, eq_comm]

theorem IsList.push (H : h.IsList i l) (hnd : l.Nodup) (hx : x ∉ l) :
    (h.push i x).IsList i (x :: l) := by
  have hhead : ∀ y, h.head i = some y → y ∈ l := fun y hy => List.mem_of_mem_head? (H.1 ▸ hy)
  refine ⟨?_, ?_, ?_, ?_⟩
  · rw [push_head, Function.update_self]
    rfl
  · rw [push_prevNext, if_neg fun e => hx (hhead x e), if_pos rfl]
  · rw [push_next, Function.update_self, H.1]
  · have hne : ∀ y ∈ l, y ≠ x := fun y hy e => hx (e ▸ hy)
    cases l with
    | nil => trivial
    | cons y l =>
      have hy : h.head i = some y := H.1
      refine ⟨?_, ?_, H.2.2.2.congr (fun z hz => ?_) fun z hz => ?_⟩
      · rw [push_prevNext, if_pos hy]
      · rw [push_next, Function.update_of_ne (hne y List.mem_cons_self)]
        exact H.2.2.1
      · rw [push_next, Function.update_of_ne (hne z (List.mem_cons_of_mem _ hz))]
      · have hyz : h.head i ≠ some z := by
          rw [hy]
          rintro ⟨⟩
          exact (List.nodup_cons.mp hnd).1 hz
        rw [push_prevNext, if_neg hyz, if_neg (hne z (List.mem_cons_of_mem _ hz))]

theorem IsList.push_other (H : h.IsList j l) (hij : j ≠ i) (hx : x ∉ l)
    (hhead : ∀ y, h.head i = some y → y ∉ l) : (h.push i x).IsList j l := by
  have hne : ∀ y ∈ l, y ≠ x := fun y hy e => hx (e ▸ hy)
  refine H.congr ?_ (fun y hy => ?_) fun y hy => ?_
  · rw [push_head, Function.update_of_ne hij]
  · rw [push_next, Function.update_of_ne (hne y hy)]
  · rw [push_prevNext, if_neg fun e => hhead y e hy, if_neg (hne y hy)]

/-! ## Unlink -/

theorem unlink_head : (h.unlink x).head j = if h.prevNext x = .head j then h.next x else h.head j := by
  unfold unlink write
  cases hp : h.prevNext x with
  | head i => cases h.next x <;> simp [setPrevNext, Function.update_apply, eq_comm]
  | next a => cases h.next x <;> simp [setPrevNext]

theorem unlink_next {y : α} :
    (h.unlink x).next y = if h.prevNext x = .next y then h.next x else h.next y := by
  unfold unlink write
  cases hp : h.prevNext x with
  | head i => cases h.next x <;> simp [setPrevNext]
  | next a => cases h.next x <;> simp [setPrevNext, Function.update_apply, eq_comm]

theorem unlink_prevNext {y : α} :
    (h.unlink x).prevNext y = if h.next x = some y then h.prevNext x else h.prevNext y := by
  unfold unlink write
  cases hp : h.prevNext x with
  | head i => cases h.next x <;> simp [setPrevNext, Function.update_apply, eq_comm]
  | next a => cases h.next x <;> simp [setPrevNext, Function.update_apply, eq_comm]

omit [DecidableEq ι] [DecidableEq α] in
theorem Chain.next_eq (H : h.Chain s (l₁ ++ x :: l₂)) : h.next x = l₂.head? := by
  induction l₁ generalizing s with
  | nil => exact H.2.1
  | cons a l₁ ih => exact ih H.2.2

omit [DecidableEq ι] [DecidableEq α] in
/-- A node is known to the place the list hangs on, or to a node before it. -/
theorem Chain.prevNext_eq (H : h.Chain s (l₁ ++ x :: l₂)) :
    (l₁ = [] ∧ h.prevNext x = s) ∨ ∃ a ∈ l₁, h.prevNext x = .next a := by
  induction l₁ generalizing s with
  | nil => exact .inl ⟨rfl, H.1⟩
  | cons a l₁ ih =>
    obtain ⟨-, hp⟩ | ⟨b, hb, hp⟩ := ih H.2.2
    · exact .inr ⟨a, List.mem_cons_self, hp⟩
    · exact .inr ⟨b, List.mem_cons_of_mem _ hb, hp⟩

theorem Chain.unlink (H : h.Chain s (l₁ ++ x :: l₂)) (hnd : (l₁ ++ x :: l₂).Nodup)
    (hs : ∀ a, s = .next a → a ∉ l₁ ++ x :: l₂) : (h.unlink x).Chain s (l₁ ++ l₂) := by
  induction l₁ generalizing s with
  | nil =>
    obtain ⟨hp, hn, hrest⟩ := H
    have hnext : ∀ y ∈ l₂, (h.unlink x).next y = h.next y := by
      intro y hy
      rw [unlink_next, if_neg fun e => hs y (hp.symm.trans e) (List.mem_cons_of_mem _ hy)]
    cases l₂ with
    | nil => trivial
    | cons y l₂ =>
      have hy : h.next x = some y := hn
      refine ⟨?_, ?_, hrest.2.2.congr (fun z hz => hnext z (List.mem_cons_of_mem _ hz)) fun z hz => ?_⟩
      · rw [unlink_prevNext, if_pos hy, hp]
      · rw [hnext y List.mem_cons_self]
        exact hrest.2.1
      · have hyz : h.next x ≠ some z := by
          rw [hy]
          rintro ⟨⟩
          exact (List.nodup_cons.mp (List.nodup_cons.mp hnd).2).1 hz
        rw [unlink_prevNext, if_neg hyz]
  | cons a l₁ ih =>
    obtain ⟨hp, hn, hrest⟩ := H
    obtain ⟨ha, hnd⟩ := List.nodup_cons.mp hnd
    have hx : h.next x = l₂.head? := hrest.next_eq
    refine ⟨?_, ?_, ih hrest hnd fun b hb => ?_⟩
    · have hax : h.next x ≠ some a := fun e =>
        ha (List.mem_append_right _ (List.mem_cons_of_mem _ (List.mem_of_mem_head? (hx ▸ e))))
      rw [unlink_prevNext, if_neg hax, hp]
    · rw [unlink_next]
      obtain ⟨rfl, hpx⟩ | ⟨b, hb, hpx⟩ := hrest.prevNext_eq
      · rw [if_pos hpx, hx]
        rfl
      · have hba : h.prevNext x ≠ .next a := by
          rw [hpx]
          rintro ⟨⟩
          exact ha (List.mem_append_left _ hb)
        rw [if_neg hba, hn]
        cases l₁ with
        | nil => cases hb
        | cons c l₁ => rfl
    · cases hb
      exact ha

theorem IsList.unlink (H : h.IsList i (l₁ ++ x :: l₂)) (hnd : (l₁ ++ x :: l₂).Nodup) :
    (h.unlink x).IsList i (l₁ ++ l₂) := by
  refine ⟨?_, H.2.unlink hnd fun a e => by cases e⟩
  rw [unlink_head]
  obtain ⟨rfl, hp⟩ | ⟨a, ha, hp⟩ := H.2.prevNext_eq
  · rw [if_pos hp, H.2.next_eq]
    rfl
  · have hne : h.prevNext x ≠ .head i := by
      rw [hp]
      rintro ⟨⟩
    rw [if_neg hne, H.1]
    cases l₁ with
    | nil => cases ha
    | cons b l₁ => rfl

/-- The other lists are not touched. -/
theorem IsList.unlink_other {m : List α} (H : h.IsList i (l₁ ++ x :: l₂)) (Hm : h.IsList j m)
    (hij : j ≠ i) (hdisj : ∀ y ∈ m, y ∉ l₁ ++ x :: l₂) : (h.unlink x).IsList j m := by
  have hx : h.next x = l₂.head? := H.2.next_eq
  refine Hm.congr ?_ (fun y hy => ?_) fun y hy => ?_
  · rw [unlink_head, if_neg]
    intro e
    obtain ⟨-, hp⟩ | ⟨a, -, hp⟩ := H.2.prevNext_eq
    · exact hij (Slot.head.inj (e.symm.trans hp))
    · cases hp.symm.trans e
  · rw [unlink_next, if_neg]
    intro e
    obtain ⟨-, hp⟩ | ⟨a, ha, hp⟩ := H.2.prevNext_eq
    · cases hp.symm.trans e
    · cases hp.symm.trans e
      exact hdisj y hy (List.mem_append_left _ ha)
  · rw [unlink_prevNext, if_neg]
    intro e
    exact hdisj y hy (List.mem_append_right _ (List.mem_cons_of_mem _ (List.mem_of_mem_head? (hx ▸ e))))

/-! ## Insertion at any place, and replacement -/

/-- `*s` -/
def read (h : HHeap ι α) : Slot ι α → Option α
  | .head i => h.head i
  | .next a => h.next a

/-- The node `x` is put between the place `s` and the node it points to. -/
def insertAt (h : HHeap ι α) (s : Slot ι α) (x : α) : HHeap ι α :=
  let h₁ : HHeap ι α := { h with
    next := Function.update h.next x (h.read s)
    prevNext := Function.update h.prevNext x s }
  (h₁.setPrevNext (h.read s) (.next x)).write s (some x)

/-- The node `y` takes the place of the node `x`. -/
def replace (h : HHeap ι α) (x y : α) : HHeap ι α :=
  let h₁ : HHeap ι α := { h with
    next := Function.update h.next y (h.next x)
    prevNext := Function.update h.prevNext y (h.prevNext x) }
  (h₁.setPrevNext (h.next x) (.next y)).write (h.prevNext x) (some y)

/-- The place behind the nodes of `l`, which follow the place `s`. -/
def slotBehind (s : Slot ι α) : List α → Slot ι α
  | [] => s
  | a :: l => slotBehind (.next a) l

omit [DecidableEq ι] [DecidableEq α] in
theorem slotBehind_mem {b : α} (h : slotBehind s l = .next b) : b ∈ l ∨ s = .next b := by
  induction l generalizing s with
  | nil => exact .inr h
  | cons a l ih =>
    obtain h | h := ih h
    · exact .inl (List.mem_cons_of_mem _ h)
    · cases h
      exact .inl List.mem_cons_self

omit [DecidableEq ι] [DecidableEq α] in
theorem slotBehind_head (h : slotBehind s l = .head i) : l = [] ∧ s = .head i := by
  induction l generalizing s with
  | nil => exact ⟨rfl, h⟩
  | cons a l ih => cases (ih h).2

omit [DecidableEq ι] [DecidableEq α] in
theorem Chain.read_slotBehind (H : h.Chain s (l₁ ++ l₂)) (hs : h.read s = (l₁ ++ l₂).head?) :
    h.read (slotBehind s l₁) = l₂.head? := by
  induction l₁ generalizing s with
  | nil => exact hs
  | cons a l₁ ih => exact ih H.2.2 H.2.1

omit [DecidableEq ι] [DecidableEq α] in
theorem Chain.prevNext_slotBehind (H : h.Chain s (l₁ ++ x :: l₂)) :
    h.prevNext x = slotBehind s l₁ := by
  induction l₁ generalizing s with
  | nil => exact H.1
  | cons a l₁ ih => exact ih H.2.2

theorem insertAt_head :
    (h.insertAt s x).head i = if s = .head i then some x else h.head i := by
  unfold insertAt write setPrevNext
  cases s <;> cases h.read _ <;> simp [Function.update_apply, eq_comm]

theorem insertAt_next {y : α} : (h.insertAt s x).next y =
    if s = .next y then some x else if y = x then h.read s else h.next y := by
  unfold insertAt write setPrevNext
  cases s <;> cases h.read _ <;> simp [Function.update_apply, eq_comm]

theorem insertAt_prevNext {y : α} : (h.insertAt s x).prevNext y =
    if h.read s = some y then .next x else if y = x then s else h.prevNext y := by
  unfold insertAt write setPrevNext
  cases s <;> cases h.read _ <;> simp [Function.update_apply, eq_comm]

theorem Chain.insertAt (H : h.Chain s (l₁ ++ l₂)) (hread : h.read s = (l₁ ++ l₂).head?)
    (hnd : (l₁ ++ l₂).Nodup) (hx : x ∉ l₁ ++ l₂) (hs : ∀ a, s = .next a → a ∉ x :: (l₁ ++ l₂)) :
    (h.insertAt (slotBehind s l₁) x).Chain s (l₁ ++ x :: l₂) := by
  have hat := H.read_slotBehind hread
  induction l₁ generalizing s with
  | nil =>
    have hsx : s ≠ .next x := fun e => hs x e List.mem_cons_self
    have hne : ∀ y ∈ l₂, y ≠ x := fun y hy e => hx (e ▸ hy)
    have hnext : ∀ y ∈ l₂, (h.insertAt s x).next y = h.next y := by
      intro y hy
      rw [insertAt_next, if_neg fun e => hs y e (List.mem_cons_of_mem _ hy), if_neg (hne y hy)]
    have hxread : h.read s ≠ some x := fun e => hx (List.mem_of_mem_head? (hread ▸ e))
    refine ⟨?_, ?_, ?_⟩
    · rw [slotBehind, insertAt_prevNext, if_neg hxread, if_pos rfl]
    · rw [slotBehind, insertAt_next, if_neg hsx, if_pos rfl]
      exact hread
    · cases l₂ with
      | nil => trivial
      | cons y l₂ =>
        refine ⟨?_, ?_, H.2.2.congr (fun z hz => hnext z (List.mem_cons_of_mem _ hz)) fun z hz => ?_⟩
        · rw [slotBehind, insertAt_prevNext, if_pos (show h.read s = some y from hread)]
        · exact (hnext y List.mem_cons_self).trans H.2.1
        · have hyz : h.read s ≠ some z := by
            rw [hread]
            rintro ⟨⟩
            exact (List.nodup_cons.mp hnd).1 hz
          rw [slotBehind, insertAt_prevNext, if_neg hyz, if_neg (hne z (List.mem_cons_of_mem _ hz))]
  | cons a l₁ ih =>
    obtain ⟨hp, hn, hrest⟩ := H
    obtain ⟨ha, hnd⟩ := List.nodup_cons.mp hnd
    have hax : a ≠ x := fun e => hx (by simp [e])
    have hx' : x ∉ l₁ ++ l₂ := fun h => hx (List.mem_cons_of_mem _ h)
    refine ⟨?_, ?_, ih hrest hn hnd hx' (fun b hb => ?_) hat⟩
    · have hread_ne : h.read (slotBehind (.next a) l₁) ≠ some a := by
        intro e
        exact ha (List.mem_append_right _ (List.mem_of_mem_head? (hat ▸ e)))
      rw [slotBehind, insertAt_prevNext, if_neg hread_ne, if_neg hax, hp]
    · rw [slotBehind, insertAt_next, if_neg hax]
      cases l₁ with
      | nil => rw [slotBehind, if_pos rfl]; rfl
      | cons b l₁ =>
        have hne : slotBehind (.next a) (b :: l₁) ≠ (.next a : Slot ι α) := by
          intro e
          obtain hm | hb := slotBehind_mem (s := .next b) e
          · exact ha (List.mem_append_left _ (List.mem_cons_of_mem _ hm))
          · cases hb
            exact ha (List.mem_append_left _ List.mem_cons_self)
        rw [if_neg hne, hn]
        rfl
    · cases hb
      simp only [List.mem_cons, not_or]
      exact ⟨hax, ha⟩

theorem IsList.insertAt (H : h.IsList i (l₁ ++ l₂)) (hnd : (l₁ ++ l₂).Nodup) (hx : x ∉ l₁ ++ l₂) :
    (h.insertAt (slotBehind (.head i) l₁) x).IsList i (l₁ ++ x :: l₂) := by
  refine ⟨?_, H.2.insertAt H.1 hnd hx nofun⟩
  rw [insertAt_head]
  cases l₁ with
  | nil => rw [slotBehind, if_pos rfl]; rfl
  | cons a l₁ =>
    have hne : slotBehind (.head i) (a :: l₁) ≠ (.head i : Slot ι α) := fun e => by
      cases (slotBehind_head e).1
    rw [if_neg hne, H.1]
    rfl

omit [DecidableEq ι] in
theorem update_overwritten {β : Type} {f : α → β} {a b : α} {u v w : β} :
    Function.update (Function.update (Function.update f a u) b v) a w =
      Function.update (Function.update f b v) a w := by
  funext c
  by_cases hc : c = a
  · simp [hc]
  · simp [Function.update_apply, hc]

/-- A node is replaced as if it were taken out and the other one put into its place. -/
theorem replace_eq {y : α} : h.replace x y = (h.unlink x).insertAt (h.prevNext x) y := by
  have hread : (h.unlink x).read (h.prevNext x) = h.next x := by
    cases hp : h.prevNext x with
    | head i => rw [read, unlink_head, if_pos hp]
    | next a => rw [read, unlink_next, if_pos hp]
  rw [HHeap.insertAt, hread]
  unfold replace unlink setPrevNext write
  cases h.prevNext x <;> cases h.next x <;> simp [update_overwritten]

theorem IsList.replace {y : α} (H : h.IsList i (l₁ ++ x :: l₂)) (hnd : (l₁ ++ x :: l₂).Nodup)
    (hy : y ∉ l₁ ++ l₂) : (h.replace x y).IsList i (l₁ ++ y :: l₂) := by
  rw [replace_eq, H.2.prevNext_slotBehind]
  exact (H.unlink hnd).insertAt (hnd.sublist (by simp)) hy

end HHeap

end L4env
