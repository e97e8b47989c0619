import Mathlib.Data.Tree.Basic
import Mathlib.Tactic

/-!
# Search trees

Binary trees whose keys are compared by a function `lt`. Keys that neither comes before the other
count as equal, so `lt` may be the order of disjoint intervals: a search by an interval then finds
one that overlaps it. The order of the keys is a property of the list `keys t`, and `Sorted` says
what the searches need of it.

Rebalancing a tree keeps the list of its keys; the operations here are those of the plain tree.
-/

namespace L4env.SearchTree

variable {α : Type} (lt : α → α → Bool)

/-- The keys from left to right. -/
def keys : BinaryTree α → List α
  | .nil => []
  | .node k l r => keys l ++ k :: keys r

@[simp] theorem keys_nil : keys (.nil : BinaryTree α) = [] := rfl

@[simp] theorem keys_node (k : α) (l r : BinaryTree α) :
    keys (.node k l r) = keys l ++ k :: keys r := rfl

/-! ## Walks -/

/-- The first key that `op` accepts, from the left. -/
def iterate (op : α → Bool) : BinaryTree α → Option α
  | .nil => none
  | .node k l r => iterate op l <|> (if op k then some k else none) <|> iterate op r

/-- The first key that `op` accepts, from the right. -/
def revIterate (op : α → Bool) : BinaryTree α → Option α
  | .nil => none
  | .node k l r => revIterate op r <|> (if op k then some k else none) <|> revIterate op l

theorem iterate_eq (op : α → Bool) (t : BinaryTree α) : iterate op t = (keys t).find? op := by
  induction t with
  | nil => rfl
  | node k l r ihl ihr =>
    rw [iterate, keys_node, List.find?_append, List.find?_cons, ihl, ihr]
    cases hl : (keys l).find? op <;> cases hk : op k <;> simp

theorem revIterate_eq (op : α → Bool) (t : BinaryTree α) :
    revIterate op t = (keys t).reverse.find? op := by
  induction t with
  | nil => rfl
  | node k l r ihl ihr =>
    rw [revIterate, keys_node, List.reverse_append, List.reverse_cons, List.append_assoc,
      List.find?_append, List.singleton_append, List.find?_cons, ihl, ihr]
    cases hr : (keys r).reverse.find? op <;> cases hk : op k <;> simp

/-! ## Operations -/

/-- A key that is equal to the given one. -/
def find (key : α) : BinaryTree α → Option α
  | .nil => none
  | .node k l r => if lt key k then find key l else if lt k key then find key r else some k

/-- Links a new leaf; `none` if an equal key is there. -/
def insert (key : α) : BinaryTree α → Option (BinaryTree α)
  | .nil => some (.node key .nil .nil)
  | .node k l r =>
    if lt key k then (insert key l).map fun l' => .node k l' r
    else if lt k key then (insert key r).map fun r' => .node k l r'
    else none

/-- Splits the rightmost node off. -/
def popLast : BinaryTree α → Option (α × BinaryTree α)
  | .nil => none
  | .node k l r =>
    match popLast r with
    | none => some (k, l)
    | some (m, r') => some (m, .node k l r')

/-- The tree below a removed node. With two subtrees, the rightmost key of the left one moves up. -/
def join (l r : BinaryTree α) : BinaryTree α :=
  match r with
  | .nil => l
  | .node .. =>
    match popLast l with
    | none => r
    | some (m, l') => .node m l' r

/-- Unlinks the node with a key equal to the given one; `none` if there is none. -/
def remove (key : α) : BinaryTree α → Option (BinaryTree α)
  | .nil => none
  | .node k l r =>
    if lt key k then (remove key l).map fun l' => .node k l' r
    else if lt k key then (remove key r).map fun r' => .node k l r'
    else some (join l r)

/-- Writes the key of the node that has the key `old`. -/
def setKey [DecidableEq α] (old new : α) (t : BinaryTree α) : BinaryTree α :=
  t.map fun k => if k = old then new else k

theorem popLast_keys (t : BinaryTree α) :
    (popLast t).elim (keys t = []) fun p => keys t = keys p.2 ++ [p.1] := by
  induction t with
  | nil => rfl
  | node k l r _ ihr =>
    rw [popLast]
    cases hr : popLast r with
    | none =>
      rw [hr] at ihr
      show keys (.node k l r) = keys l ++ [k]
      rw [keys_node, show keys r = [] from ihr]
    | some p =>
      rw [hr] at ihr
      show keys (.node k l r) = keys (.node k l p.2) ++ [p.1]
      rw [keys_node, keys_node, show keys r = keys p.2 ++ [p.1] from ihr]
      simp

theorem join_keys (l r : BinaryTree α) : keys (join l r) = keys l ++ keys r := by
  cases r with
  | nil => simp [join]
  | node k rl rr =>
    have hpop := popLast_keys l
    rw [join]
    cases hl : popLast l with
    | none =>
      rw [hl] at hpop
      rw [show keys l = [] from hpop, List.nil_append]
    | some p =>
      rw [hl] at hpop
      rw [show keys l = keys p.2 ++ [p.1] from hpop]
      simp

theorem setKey_keys [DecidableEq α] (old new : α) (t : BinaryTree α) :
    keys (setKey old new t) = (keys t).map fun k => if k = old then new else k := by
  induction t with
  | nil => rfl
  | node k l r ihl ihr =>
    show keys (setKey old new l) ++ _ :: keys (setKey old new r) = _
    rw [ihl, ihr, keys_node, List.map_append, List.map_cons]

/-! ## Sorted keys -/

/-- The keys are in order, and each of them connects the keys before it with those behind it. -/
structure Sorted (l : List α) : Prop where
  order : l.Pairwise fun a b => lt a b = true
  irrefl : ∀ k ∈ l, lt k k = false
  trans : ∀ k ∈ l, ∀ a b, lt a k = true → lt k b = true → lt a b = true

variable {lt} {l l' A B : List α} {key k : α} {t : BinaryTree α}

theorem Sorted.nil : Sorted lt [] :=
  ⟨.nil, by simp, by simp⟩

theorem Sorted.sublist (h : Sorted lt l) (hs : l'.Sublist l) : Sorted lt l' :=
  ⟨h.order.sublist hs, fun k hk => h.irrefl k (hs.subset hk),
    fun k hk => h.trans k (hs.subset hk)⟩

theorem Sorted.left (h : Sorted lt (A ++ k :: B)) : Sorted lt A :=
  h.sublist (List.sublist_append_left A _)

theorem Sorted.right (h : Sorted lt (A ++ k :: B)) : Sorted lt B :=
  h.sublist ((List.sublist_cons_self k B).trans (List.sublist_append_right A _))

theorem Sorted.lt_of_left (h : Sorted lt (A ++ k :: B)) {a : α} (ha : a ∈ A) : lt a k = true :=
  (List.pairwise_append.mp h.order).2.2 a ha k (by simp)

theorem Sorted.lt_of_right (h : Sorted lt (A ++ k :: B)) {b : α} (hb : b ∈ B) : lt k b = true :=
  List.rel_of_pairwise_cons (List.pairwise_append.mp h.order).2.1 hb

theorem Sorted.nodup (h : Sorted lt l) : l.Nodup := by
  refine h.order.imp_of_mem fun {a b} ha _ hab heq => ?_
  rw [← heq, h.irrefl a ha] at hab
  cases hab

/-- A key between those before and those behind it. -/
theorem Sorted.insert (h : Sorted lt (A ++ B)) (hA : ∀ a ∈ A, lt a key = true)
    (hB : ∀ b ∈ B, lt key b = true) (hk : lt key key = false)
    (ht : ∀ a b, lt a key = true → lt key b = true → lt a b = true) :
    Sorted lt (A ++ key :: B) := by
  obtain ⟨hordA, hordB, hAB⟩ := List.pairwise_append.mp h.order
  have hmem : ∀ x ∈ A ++ key :: B, x = key ∨ x ∈ A ++ B := by
    intro x hx
    simp only [List.mem_append, List.mem_cons] at hx ⊢
    tauto
  refine ⟨List.pairwise_append.mpr ⟨hordA, List.pairwise_cons.mpr ⟨hB, hordB⟩, fun a ha b hb => ?_⟩,
    fun x hx => ?_, fun x hx => ?_⟩
  · rcases List.mem_cons.mp hb with rfl | hb
    · exact hA a ha
    · exact hAB a ha b hb
  · rcases hmem x hx with rfl | hx
    · exact hk
    · exact h.irrefl x hx
  · rcases hmem x hx with rfl | hx
    · exact ht
    · exact h.trans x hx

/-- A key is replaced by one whose neighbours are the same. -/
theorem Sorted.exchange (h : Sorted lt (A ++ k :: B)) (hA : ∀ a, lt a k = true → lt a key = true)
    (hB : ∀ b, lt k b = true → lt key b = true) (hk : lt key key = false)
    (ht : ∀ a b, lt a key = true → lt key b = true → lt a b = true) :
    Sorted lt (A ++ key :: B) :=
  Sorted.insert (h.sublist ((List.sublist_cons_self k B).append_left A))
    (fun _ ha => hA _ (h.lt_of_left ha)) (fun _ hb => hB _ (h.lt_of_right hb)) hk ht

theorem setKey_split [DecidableEq α] {new : α} (h : Sorted lt (A ++ k :: B))
    (ht : keys t = A ++ k :: B) : keys (setKey k new t) = A ++ new :: B := by
  have hnd := List.nodup_middle.mp h.nodup
  have hne : ∀ x ∈ A ++ B, (if x = k then new else x) = x := by
    intro x hx
    refine if_neg fun heq => (List.nodup_cons.mp hnd).1 ?_
    rwa [← heq]
  rw [setKey_keys, ht, List.map_append, List.map_cons, if_pos rfl,
    List.map_congr_left fun x hx => hne x (List.mem_append_left B hx),
    List.map_congr_left fun x hx => hne x (List.mem_append_right A hx)]
  simp

/-! ## Searches -/

theorem find_mem (h : find lt key t = some k) :
    k ∈ keys t ∧ lt key k = false ∧ lt k key = false := by
  induction t with
  | nil => cases h
  | node x l r ihl ihr =>
    rw [find] at h
    cases hlt : lt key x with
    | true =>
      rw [if_pos hlt] at h
      exact ⟨List.mem_append_left _ (ihl h).1, (ihl h).2⟩
    | false =>
      rw [if_neg (by simp [hlt])] at h
      cases hgt : lt x key with
      | true =>
        rw [if_pos hgt] at h
        exact ⟨List.mem_append_right _ (List.mem_cons_of_mem _ (ihr h).1), (ihr h).2⟩
      | false =>
        rw [if_neg (by simp [hgt])] at h
        cases h
        exact ⟨by simp, hlt, hgt⟩

theorem find_none (hs : Sorted lt (keys t)) (h : find lt key t = none) :
    ∀ k ∈ keys t, lt key k = true ∨ lt k key = true := by
  induction t with
  | nil => exact fun _ hk => nomatch hk
  | node x l r ihl ihr =>
    intro k hk
    have hx := hs.trans x (by simp)
    rw [find] at h
    rcases List.mem_append.mp hk with hk | hk
    · cases hlt : lt key x with
      | true =>
        rw [if_pos hlt] at h
        exact ihl hs.left h k hk
      | false =>
        rw [if_neg (by simp [hlt])] at h
        cases hgt : lt x key with
        | true => exact .inr (hx k key (hs.lt_of_left hk) hgt)
        | false => simp [hgt] at h
    · cases hlt : lt key x with
      | true =>
        rcases List.mem_cons.mp hk with rfl | hk
        · exact .inl hlt
        · exact .inl (hx key k hlt (hs.lt_of_right hk))
      | false =>
        rw [if_neg (by simp [hlt])] at h
        cases hgt : lt x key with
        | true =>
          rw [if_pos hgt] at h
          rcases List.mem_cons.mp hk with rfl | hk
          · exact .inr hgt
          · exact ihr hs.right h k hk
        | false => simp [hgt] at h

/-- The leaf goes between the keys before and those behind the new key. -/
theorem insert_spec (hs : Sorted lt (keys t))
    (h : ∀ k ∈ keys t, lt key k = true ∨ lt k key = true) :
    ∃ t' A B, insert lt key t = some t' ∧ keys t = A ++ B ∧ keys t' = A ++ key :: B ∧
      (∀ a ∈ A, lt a key = true) ∧ ∀ b ∈ B, lt key b = true := by
  induction t with
  | nil => exact ⟨_, [], [], rfl, rfl, rfl, by simp, by simp⟩
  | node x l r ihl ihr =>
    have hx := hs.trans x (by simp)
    rw [insert]
    cases hlt : lt key x with
    | true =>
      obtain ⟨l', A, B, hins, hl, hl', hA, hB⟩ := ihl hs.left fun k hk => h k (by simp [hk])
      refine ⟨.node x l' r, A, B ++ x :: keys r, ?_, ?_, ?_, hA, fun b hb => ?_⟩
      · rw [if_pos rfl, hins]
        rfl
      · rw [keys_node, hl, List.append_assoc]
      · rw [keys_node, hl', List.append_assoc, List.cons_append]
      · rcases List.mem_append.mp hb with hb | hb
        · exact hB b hb
        · rcases List.mem_cons.mp hb with rfl | hb
          · exact hlt
          · exact hx key b hlt (hs.lt_of_right hb)
    | false =>
      have hgt : lt x key = true := by
        have := h x (by simp)
        rw [hlt] at this
        exact this.resolve_left (by simp)
      obtain ⟨r', A, B, hins, hr, hr', hA, hB⟩ := ihr hs.right fun k hk => h k (by simp [hk])
      refine ⟨.node x l r', keys l ++ x :: A, B, ?_, ?_, ?_, fun a ha => ?_, hB⟩
      · rw [if_neg (by simp), if_pos hgt, hins]
        rfl
      · rw [keys_node, hr, List.append_assoc, List.cons_append]
      · rw [keys_node, hr', List.append_assoc, List.cons_append]
      · rcases List.mem_append.mp ha with ha | ha
        · exact hx a key (hs.lt_of_left ha) hgt
        · rcases List.mem_cons.mp ha with rfl | ha
          · exact hgt
          · exact hA a ha

/-- Removing a key of the tree takes exactly this key out of the list. -/
theorem remove_spec (hs : Sorted lt (keys t)) (hk : key ∈ keys t) :
    ∃ t' A B, remove lt key t = some t' ∧ keys t = A ++ key :: B ∧ keys t' = A ++ B := by
  induction t with
  | nil => cases hk
  | node x l r ihl ihr =>
    have hirr := hs.irrefl key hk
    rw [remove]
    rcases List.mem_append.mp hk with hkl | hkr
    · obtain ⟨l', A, B, hrem, hl, hl'⟩ := ihl hs.left hkl
      refine ⟨.node x l' r, A, B ++ x :: keys r, ?_, ?_, ?_⟩
      · rw [if_pos (hs.lt_of_left hkl), hrem]
        rfl
      · rw [keys_node, hl, List.append_assoc, List.cons_append]
      · rw [keys_node, hl', List.append_assoc]
    · rcases List.mem_cons.mp hkr with rfl | hkr
      · refine ⟨join l r, keys l, keys r, ?_, rfl, join_keys l r⟩
        rw [if_neg (by simp [hirr]), if_neg (by simp [hirr])]
      · have hgt := hs.lt_of_right hkr
        have hlt : lt key x = false := by
          by_contra hlt
          have := hs.trans x (by simp) key key (by simpa using hlt) hgt
          rw [hirr] at this
          cases this
        obtain ⟨r', A, B, hrem, hr, hr'⟩ := ihr hs.right hkr
        refine ⟨.node x l r', keys l ++ x :: A, B, ?_, ?_, ?_⟩
        · rw [if_neg (by simp [hlt]), if_pos hgt, hrem]
          rfl
        · rw [keys_node, hr, List.append_assoc, List.cons_append]
        · rw [keys_node, hr', List.append_assoc, List.cons_append]

end L4env.SearchTree
