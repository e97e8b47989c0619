import L4env.Util.Ring

/-!
# List items

`List_item` of the C++ library is a member of a doubly linked cyclic list, and the list is known by a
pointer to its head, which is null for the empty list (`list.h`). The link of an item is never null: an
item that is in no list is linked to itself.
-/

namespace L4env.Cxx

/-- The fields `_n` and `_p` of the items. -/
structure ListItems where
  n : Nat → Option Nat
  p : Nat → Option Nat

namespace ListItems

/-- `this->insert_prev_item(p)` -/
def insertPrevItem (m : ListItems) (this p : Nat) : ListItems :=
  let m := { m with n := writeAt m.n (m.p p) (some this) }
  let pr := m.p p
  let m := { m with p := Function.update m.p p (m.p this) }
  let m := { m with n := writeAt m.n (m.p this) (some p) }
  { m with p := Function.update m.p this pr }

/-- `this->remove_me()` -/
def removeMe (m : ListItems) (this : Nat) : ListItems :=
  let m :=
    if m.p this ≠ some this then
      let m := { m with n := writeAt m.n (m.p this) (m.n this) }
      { m with p := writeAt m.p (m.n this) (m.p this) }
    else m
  { n := Function.update m.n this (some this), p := Function.update m.p this (some this) }

/-- `List_item::push_front` returns the new head. -/
def pushFront (m : ListItems) (h : Option Nat) (p : Nat) : Option Nat × ListItems :=
  match h with
  | some h => (some p, m.insertPrevItem h p)
  | none => (some p, m)

/-- `List_item::remove` returns the new head. -/
def remove (m : ListItems) (h : Option Nat) (p : Nat) : Option Nat × ListItems :=
  match h with
  | none => (none, m)
  | some h =>
    (if h = p then if m.n p = some p then none else m.n p else some h, m.removeMe p)

/-- The list of the items `l` with the head `h`. -/
structure Ring (m : ListItems) (h : Option Nat) (l : List Nat) : Prop where
  head : h = l.head?
  ring : IsRing m.n m.p l
  nodup : l.Nodup

/-- The item is in no list. -/
def Single (m : ListItems) (x : Nat) : Prop := m.n x = some x ∧ m.p x = some x

/-- The links of the other items are as they were. -/
def Keeps (m m' : ListItems) (l : List Nat) : Prop := ∀ x ∉ l, m'.n x = m.n x ∧ m'.p x = m.p x

variable {m m' : ListItems} {h : Option Nat} {x : Nat} {l l₁ l₂ : List Nat}

theorem Keeps.ring {h' : Option Nat} {l' : List Nat} (K : Keeps m m' l) (R : m.Ring h' l')
    (hd : ∀ x ∈ l', x ∉ l) : m'.Ring h' l' :=
  ⟨R.head, R.ring.congr (fun x hx => (K x (hd x hx)).1) fun x hx => (K x (hd x hx)).2, R.nodup⟩

theorem Keeps.single (K : Keeps m m' l) (hs : m.Single x) (hx : x ∉ l) : m'.Single x :=
  ⟨(K x hx).1.trans hs.1, (K x hx).2.trans hs.2⟩

theorem Single.ring (hs : m.Single x) : m.Ring (some x) [x] :=
  ⟨rfl, ⟨hs.2, hs.1, trivial⟩, List.nodup_singleton x⟩

/-- A new item becomes the head. -/
theorem Ring.pushFront (R : m.Ring h l) (hs : m.Single x) (hx : x ∉ l) :
    (m.pushFront h x).2.Ring (m.pushFront h x).1 (x :: l) ∧
      Keeps m (m.pushFront h x).2 (x :: l) := by
  cases l with
  | nil =>
    obtain rfl : h = none := R.head
    exact ⟨hs.ring, fun _ _ => ⟨rfl, rfl⟩⟩
  | cons a l =>
    obtain rfl : h = some a := R.head
    have hxa : x ≠ a := fun e => hx (e ▸ List.mem_cons_self)
    have hring := IsRing.rotate (R.ring.push_write R.nodup rfl hx)
    have hn : (m.insertPrevItem a x).n =
        writeAt (Function.update m.n x (some a)) (m.p a) (some x) := by
      simp [insertPrevItem, hs.2, writeAt, hxa.symm]
    have hp : (m.insertPrevItem a x).p =
        Function.update (Function.update m.p x (m.p a)) a (some x) := by
      simp [insertPrevItem, hs.2]
    refine ⟨⟨rfl, ?_, List.nodup_cons.mpr ⟨hx, R.nodup⟩⟩, fun y hy => ?_⟩
    · simp only [ListItems.pushFront, hn, hp]
      exact hring
    · have hlast : m.p a ≠ some y := by
        intro e
        exact hy (List.mem_cons_of_mem x (R.ring.prev_mem List.mem_cons_self e))
      simp only [List.mem_cons, not_or] at hy
      simp only [ListItems.pushFront, hn, hp]
      rw [writeAt_of_ne hlast, Function.update_of_ne hy.1, Function.update_of_ne hy.2.1,
        Function.update_of_ne hy.1]
      exact ⟨rfl, rfl⟩

/-- An item with neighbours has other neighbours than itself. -/
theorem Ring.prev_ne (R : m.Ring h (l₁ ++ x :: l₂)) (hp : m.p x = some x) : l₁ ++ l₂ = [] := by
  have hx : x ∉ l₂ ++ l₁ := by
    have hnd := (List.nodup_cons.mp (List.nodup_middle.mp R.nodup)).1
    exact fun h => hnd (List.mem_append.mpr (List.mem_append.mp h).symm)
  rw [R.ring.prev_eq] at hp
  have hnil : l₂ ++ l₁ = [] := by
    by_contra hne
    rw [List.getLast?_cons, List.getLast?_eq_some_getLast hne] at hp
    exact hx (Option.some.inj hp ▸ List.getLast_mem hne)
  obtain ⟨rfl, rfl⟩ := List.append_eq_nil_iff.mp hnil
  rfl

theorem Ring.removeMe (R : m.Ring h (l₁ ++ x :: l₂)) :
    IsRing (m.removeMe x).n (m.removeMe x).p (l₁ ++ l₂) ∧ (m.removeMe x).Single x ∧
      Keeps m (m.removeMe x) (l₁ ++ x :: l₂) := by
  have hx : x ∉ l₁ ++ l₂ := (List.nodup_cons.mp (List.nodup_middle.mp R.nodup)).1
  have hmem : x ∈ l₁ ++ x :: l₂ := List.mem_append_right _ List.mem_cons_self
  have hsingle : (m.removeMe x).Single x := by simp [Single, ListItems.removeMe]
  by_cases hp : m.p x = some x
  · refine ⟨?_, hsingle, fun y hy => ?_⟩
    · rw [R.prev_ne hp]
      trivial
    · have hyx : y ≠ x := fun e => hy (e ▸ hmem)
      simp [ListItems.removeMe, hp, hyx]
  · have hnx : writeAt m.n (m.p x) (m.n x) x = m.n x := writeAt_of_ne hp
    have hn : (m.removeMe x).n = Function.update (writeAt m.n (m.p x) (m.n x)) x (some x) := by
      simp [ListItems.removeMe, hp]
    have hp' : (m.removeMe x).p = Function.update (writeAt m.p (m.n x) (m.p x)) x (some x) := by
      simp [ListItems.removeMe, hp, hnx]
    refine ⟨?_, hsingle, fun y hy => ?_⟩
    · rw [hn, hp']
      refine (R.ring.remove_write R.nodup).congr (fun _ _ => rfl) fun y hy => ?_
      have hyx : y ≠ x := fun e => hx (e ▸ hy)
      exact Function.update_of_ne hyx ..
    · have hyx : y ≠ x := fun e => hy (e ▸ hmem)
      have hpy : m.p x ≠ some y := fun e => hy (R.ring.prev_mem hmem e)
      have hny : m.n x ≠ some y := fun e => hy (R.ring.next_mem hmem e)
      rw [hn, hp', Function.update_of_ne hyx, Function.update_of_ne hyx, writeAt_of_ne hpy,
        writeAt_of_ne hny]
      exact ⟨rfl, rfl⟩

/-- An item is removed; if it is the head, the next one becomes the head. -/
theorem Ring.remove (R : m.Ring h (l₁ ++ x :: l₂)) :
    (m.remove h x).2.Ring (m.remove h x).1 (l₁ ++ l₂) ∧ (m.remove h x).2.Single x ∧
      Keeps m (m.remove h x).2 (l₁ ++ x :: l₂) := by
  obtain ⟨a, ha⟩ : ∃ a, h = some a := by
    cases h with
    | some a => exact ⟨a, rfl⟩
    | none =>
      have hnil := List.head?_eq_none_iff.mp R.head.symm
      simp at hnil
  subst ha
  obtain ⟨hring, hsingle, hkeeps⟩ := R.removeMe
  refine ⟨⟨?_, hring, (List.nodup_cons.mp (List.nodup_middle.mp R.nodup)).2⟩, hsingle, hkeeps⟩
  have hhead := R.ring.head_remove R.nodup
  rw [← R.head] at hhead
  rw [← hhead]
  simp [ListItems.remove]

/-- Without a head nothing is done. -/
theorem remove_none : m.remove none x = (none, m) := rfl

end ListItems

end L4env.Cxx
