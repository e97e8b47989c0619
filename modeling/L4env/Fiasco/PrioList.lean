import L4env.Util.HList
import L4env.Util.Ring

/-!
# Priority lists of the Fiasco kernel

A `Prio_list` holds at most one element of each priority in a list with pointers to the pointer before
(`_p_next`, `_p_prev_next`), the highest priority first. The elements of a priority form a ring
(`_s_next`, `_s_prev`), of which the first one is the one in that list (`prio_list.cpp`).

Elements are pointers of the type `α`. There is no result where a null pointer is written through, or
where the loop of `insert` takes more than `fuel` rounds. Links that were never written may have any
value.
-/

namespace L4env.Fiasco

/-- A place that holds the pointer to the first element of a priority. -/
abbrev PrioSlot (α : Type) := Slot Unit α

structure PrioList (α : Type) where
  head : Option α
  pNext : α → Option α
  pPrevNext : α → Option (PrioSlot α)
  sNext : α → Option α
  sPrev : α → Option α
  prio : α → Nat

namespace PrioList

open HHeap (slotBehind)

variable {α : Type} [DecidableEq α]

/-! ## Elements -/

/-- `*s` -/
def read (q : PrioList α) : PrioSlot α → Option α
  | .head _ => q.head
  | .next a => q.pNext a

/-- `*s = p` -/
def write (q : PrioList α) (s : PrioSlot α) (p : Option α) : PrioList α :=
  match s with
  | .head _ => { q with head := p }
  | .next a => { q with pNext := Function.update q.pNext a p }

def setPNext (q : PrioList α) (x : α) (p : Option α) : PrioList α :=
  { q with pNext := Function.update q.pNext x p }

/-- `if (x) x->_p_prev_next = s` -/
def setPPrevNext (q : PrioList α) (x : Option α) (s : Option (PrioSlot α)) : PrioList α :=
  { q with pPrevNext := writeAt q.pPrevNext x s }

/-- `if (x) x->_s_next = p` -/
def setSNext (q : PrioList α) (x p : Option α) : PrioList α :=
  { q with sNext := writeAt q.sNext x p }

def setSPrev (q : PrioList α) (x : α) (p : Option α) : PrioList α :=
  { q with sPrev := Function.update q.sPrev x p }

def init (q : PrioList α) (e : α) (p : Nat) : PrioList α :=
  { q with
    prio := Function.update q.prio e p
    sNext := Function.update q.sNext e (some e)
    sPrev := Function.update q.sPrev e (some e)
    pNext := Function.update q.pNext e none
    pPrevNext := Function.update q.pPrevNext e none }

def pDequeue (q : PrioList α) (e : α) : Option (PrioList α) := do
  let s ← q.pPrevNext e
  let q := q.write s (q.pNext e)
  some (q.setPPrevNext (q.pNext e) (q.pPrevNext e))

def sDequeue (q : PrioList α) (e : α) : Option (PrioList α) := do
  let next ← q.sNext e
  let q := q.setSPrev next (q.sPrev e)
  let prev ← q.sPrev e
  some (q.setSNext (some prev) (q.sNext e))

/-- `x->replace_with(e)` -/
def replaceWith (q : PrioList α) (x e : α) : Option (PrioList α) := do
  let q := q.setPNext e (q.pNext x)
  let q := q.setPPrevNext (some e) (q.pPrevNext x)
  let q := q.setPPrevNext (q.pNext x) (some (.next e))
  let s ← q.pPrevNext x
  some (q.write s (some e))

def pInsert (q : PrioList α) (x : α) (e : PrioSlot α) : PrioList α :=
  let q := q.setPNext x (q.read e)
  let q := q.setPPrevNext (some x) (some e)
  let q := q.setPPrevNext (q.read e) (some (.next x))
  q.write e (some x)

def sInsert (q : PrioList α) (x succ : α) : PrioList α :=
  let q := q.setSPrev x (q.sPrev succ)
  let q := q.setSNext (some x) (some succ)
  let q := q.setSNext (q.sPrev x) (some x)
  q.setSPrev succ (some x)

def hasSibling (q : PrioList α) (e : α) : Bool := q.sNext e ≠ some e

def inList (q : PrioList α) (e : α) : Bool := (q.sNext e).isSome

def isHead (q : PrioList α) (e : α) : Bool := (q.pNext e).isSome || (q.pPrevNext e).isSome

/-! ## The list -/

/-- The loop of `insert`: the place behind all elements of a higher priority. -/
def findPos (q : PrioList α) (p : Nat) : Nat → PrioSlot α → Option (PrioSlot α)
  | 0, _ => none
  | fuel + 1, pos =>
    match q.read pos with
    | some a => if p < q.prio a then q.findPos p fuel (.next a) else some pos
    | none => some pos

/-- `insert` once the place is known. -/
def place (q : PrioList α) (e : α) (p : Nat) (pos : PrioSlot α) : PrioList α :=
  match q.read pos with
  | some a => if q.prio a = p then q.sInsert e a else q.pInsert e pos
  | none => q.pInsert e pos

def insert (q : PrioList α) (fuel : Nat) (e : α) (p : Nat) : Option (PrioList α) := do
  let q := q.init e p
  let pos ← q.findPos p fuel (.head ())
  some (q.place e p pos)

def dequeue (q : PrioList α) (e : α) : Option (PrioList α) := do
  let q ←
    if q.isHead e then
      if q.hasSibling e then do
        let q ← q.sDequeue e
        let next ← q.sNext e
        q.replaceWith e next
      else q.pDequeue e
    else q.sDequeue e
  some (q.setSNext (some e) none)

/-! ## What the list denotes -/

/-- The elements of one priority, the first one and the others. -/
abbrev Group (α : Type) := α × List α

def Group.toList (g : Group α) : List α := g.1 :: g.2

/-- The list with pointers to the pointer before. -/
def spine (q : PrioList α) : HHeap Unit α where
  head _ := q.head
  next := q.pNext
  prevNext a := (q.pPrevNext a).getD (.head ())

def elems (gs : List (Group α)) : List α := gs.flatMap Group.toList

/-- The first elements of the priorities are linked. -/
structure Spine (q : PrioList α) (l : List α) : Prop where
  list : q.spine.IsList () l
  nodup : l.Nodup
  first : ∀ a ∈ l, q.pPrevNext a ≠ none

/-- The elements of one priority form a ring, and only the first one is in the other list. -/
structure Filed (q : PrioList α) (g : Group α) : Prop where
  ring : IsRing q.sNext q.sPrev g.toList
  rest : ∀ y ∈ g.2, q.pNext y = none ∧ q.pPrevNext y = none
  prio : ∀ y ∈ g.2, q.prio y = q.prio g.1

/-- The list consists of these groups. -/
structure Built (q : PrioList α) (gs : List (Group α)) : Prop where
  spine : q.Spine (gs.map Prod.fst)
  filed : ∀ g ∈ gs, q.Filed g
  sorted : (gs.map Prod.fst).Pairwise fun a b => q.prio b < q.prio a
  nodup : (elems gs).Nodup

/-- The list denotes the elements with their priorities, in this order. -/
def Denotes (q : PrioList α) (l : List (α × Nat)) : Prop :=
  ∃ gs, q.Built gs ∧ l = (elems gs).map fun y => (y, q.prio y)

/-! ## The list of the first elements -/

section
variable {q q' : PrioList α} {s : PrioSlot α} {x y e : α} {l l₁ l₂ : List α}

@[simp] theorem spine_read : q.spine.read s = q.read s := by
  cases s <;> rfl

theorem spine_write {p : Option α} : (q.write s p).spine = q.spine.write s p := by
  cases s <;> rfl

/-- The rings and the priorities are not touched, nor the links of elements other than `l`. -/
structure SpineFrame (q q' : PrioList α) (l : List α) : Prop where
  sNext : q'.sNext = q.sNext
  sPrev : q'.sPrev = q.sPrev
  prio : q'.prio = q.prio
  links : ∀ y ∉ l, q'.pNext y = q.pNext y ∧ q'.pPrevNext y = q.pPrevNext y

theorem spine_setPNext {p : Option α} :
    (q.setPNext x p).spine = { q.spine with next := Function.update q.spine.next x p } := rfl

theorem spine_setPPrevNext :
    (q.setPPrevNext (some x) (some s)).spine =
      { q.spine with prevNext := Function.update q.spine.prevNext x s } := by
  have hget : (fun a => (Function.update q.pPrevNext x (some s) a).getD (.head ())) =
      Function.update (fun a => (q.pPrevNext a).getD (.head ())) x s := by
    funext a
    by_cases ha : a = x
    · simp [ha]
    · simp [ha]
  simp only [setPPrevNext, writeAt, spine, hget]

theorem spine_setPrevNext {p : Option α} :
    (q.setPPrevNext p (some s)).spine = q.spine.setPrevNext p s := by
  cases p with
  | none => rfl
  | some y => exact spine_setPPrevNext

/-- The element `y` between the place `s` and the element `p`: what the two writing operations come
to. -/
def linkAt (q : PrioList α) (s : PrioSlot α) (y : α) (p : Option α) : PrioList α :=
  (((q.setPNext y p).setPPrevNext (some y) (some s)).setPPrevNext p (some (.next y))).write s (some y)

theorem pInsert_eq (hx : s ≠ .next x) : q.pInsert x s = q.linkAt s x (q.read s) := by
  have hread : ((q.setPNext x (q.read s)).setPPrevNext (some x) (some s)).read s = q.read s := by
    cases s with
    | head i => rfl
    | next a =>
      have ha : a ≠ x := fun h => hx (h ▸ rfl)
      simp [read, setPNext, setPPrevNext, ha]
  simp only [pInsert, hread, linkAt]

theorem pInsert_spine : (q.linkAt s x (q.read s)).spine = q.spine.insertAt s x := by
  simp only [linkAt, spine_write, spine_setPrevNext, spine_setPNext, HHeap.insertAt, spine_read]
  rfl

theorem replaceWith_eq (hs : q.pPrevNext x = some s) (hx : q.pNext x ≠ some x) (hxy : x ≠ y) :
    q.replaceWith x y = some (q.linkAt s y (q.pNext x)) := by
  have hnext : ((q.setPNext y (q.pNext x)).setPPrevNext (some y) (some s)).pNext x = q.pNext x := by
    simp [setPNext, setPPrevNext, hxy]
  have hprev : (((q.setPNext y (q.pNext x)).setPPrevNext (some y) (some s)).setPPrevNext
      (q.pNext x) (some (.next y))).pPrevNext x = some s := by
    simp only [setPPrevNext, writeAt_of_ne hx]
    simp [setPNext, writeAt, hxy, hs]
  have hs' : (q.setPNext y (q.pNext x)).pPrevNext x = some s := hs
  simp [replaceWith, hs', hnext, hprev, linkAt]

theorem replaceWith_spine (hs : q.pPrevNext x = some s) :
    (q.linkAt s y (q.pNext x)).spine = q.spine.replace x y := by
  have hget : q.spine.prevNext x = s := by
    simp [spine, hs]
  simp only [linkAt, spine_write, spine_setPrevNext, spine_setPNext, HHeap.replace, hget]
  rfl

theorem pDequeue_eq (hs : q.pPrevNext e = some s) :
    q.pDequeue e = some ((q.write s (q.pNext e)).setPPrevNext (q.pNext e) (some s)) := by
  have hnext : (q.write s (q.pNext e)).pNext e = q.pNext e := by
    cases s with
    | head i => rfl
    | next a => by_cases ha : e = a <;> simp [write, ha]
  have hprev : (q.write s (q.pNext e)).pPrevNext = q.pPrevNext := by
    cases s <;> rfl
  simp [pDequeue, hs, hnext, hprev]

theorem pDequeue_spine (hs : q.pPrevNext e = some s) :
    ((q.write s (q.pNext e)).setPPrevNext (q.pNext e) (some s)).spine = q.spine.unlink e := by
  have hget : q.spine.prevNext e = s := by
    simp [spine, hs]
  rw [spine_setPrevNext, spine_write, HHeap.unlink, hget]
  cases s <;> cases h : q.pNext e <;> simp [HHeap.write, HHeap.setPrevNext, spine, h]

/-! ## What the list operations keep -/

theorem SpineFrame.trans {q'' : PrioList α} (h : SpineFrame q q' l) (h' : SpineFrame q' q'' l) :
    SpineFrame q q'' l :=
  ⟨h'.sNext.trans h.sNext, h'.sPrev.trans h.sPrev, h'.prio.trans h.prio, fun z hz =>
    ⟨(h'.links z hz).1.trans (h.links z hz).1, (h'.links z hz).2.trans (h.links z hz).2⟩⟩

theorem frame_setPNext {p : Option α} (hx : x ∈ l) : SpineFrame q (q.setPNext x p) l := by
  refine ⟨rfl, rfl, rfl, fun z hz => ⟨?_, rfl⟩⟩
  have hzx : z ≠ x := fun h => hz (h ▸ hx)
  simp [setPNext, hzx]

theorem frame_setPPrevNext {p : Option α} {s : Option (PrioSlot α)} (hp : ∀ a, p = some a → a ∈ l) :
    SpineFrame q (q.setPPrevNext p s) l :=
  ⟨rfl, rfl, rfl, fun z hz => ⟨rfl, writeAt_of_ne fun h => hz (hp z h)⟩⟩

theorem frame_write {p : Option α} (hs : ∀ a, s = .next a → a ∈ l) : SpineFrame q (q.write s p) l := by
  cases s with
  | head i => exact ⟨rfl, rfl, rfl, fun z _ => ⟨rfl, rfl⟩⟩
  | next a => exact frame_setPNext (hs a rfl)

theorem frame_linkAt {p : Option α} (hs : ∀ a, s = .next a → a ∈ l) (hy : y ∈ l)
    (hp : ∀ a, p = some a → a ∈ l) : SpineFrame q (q.linkAt s y p) l :=
  (frame_setPNext hy).trans ((frame_setPPrevNext fun _ h => Option.some.inj h ▸ hy).trans
    ((frame_setPPrevNext hp).trans (frame_write hs)))

@[simp] theorem write_pPrevNext {p : Option α} : (q.write s p).pPrevNext = q.pPrevNext := by
  cases s <;> rfl

theorem setPPrevNext_ne_none {p : Option α} {a : α} (h : p = some a ∨ q.pPrevNext a ≠ none) :
    (q.setPPrevNext p (some s)).pPrevNext a ≠ none := by
  simp only [setPPrevNext, writeAt_apply]
  split
  · simp
  · exact h.resolve_left (by assumption)

theorem linkAt_ne_none {p : Option α} {a : α} (h : a = y ∨ q.pPrevNext a ≠ none) :
    (q.linkAt s y p).pPrevNext a ≠ none := by
  rw [linkAt, write_pPrevNext]
  exact setPPrevNext_ne_none (.inr (setPPrevNext_ne_none (h.imp_left fun h => congrArg some h.symm)))

theorem Spine.pNext_eq (S : q.Spine (l₁ ++ x :: l₂)) : q.pNext x = l₂.head? := S.list.2.next_eq

/-- The first elements know the place that points to them. -/
theorem Spine.pPrevNext_eq (S : q.Spine (l₁ ++ x :: l₂)) :
    q.pPrevNext x = some (slotBehind (.head ()) l₁) := by
  have hget := S.list.2.prevNext_slotBehind
  obtain ⟨s, hs⟩ := Option.ne_none_iff_exists'.mp (S.first x (by simp))
  have hs' : q.spine.prevNext x = s := by
    simp [spine, hs]
  rw [hs, ← hget, hs']

theorem slotBehind_mem (h : slotBehind (.head () : PrioSlot α) l = .next x) : x ∈ l := by
  obtain h | h := HHeap.slotBehind_mem h
  · exact h
  · cases h

theorem Spine.insert (S : q.Spine (l₁ ++ l₂)) (hx : x ∉ l₁ ++ l₂) :
    (q.pInsert x (slotBehind (.head ()) l₁)).Spine (l₁ ++ x :: l₂) ∧
      SpineFrame q (q.pInsert x (slotBehind (.head ()) l₁)) (l₁ ++ x :: l₂) := by
  have hread := S.list.2.read_slotBehind S.list.1
  rw [spine_read] at hread
  rw [pInsert_eq fun h => hx (List.mem_append_left _ (slotBehind_mem h))]
  refine ⟨⟨?_, ?_, ?_⟩, frame_linkAt ?_ ?_ ?_⟩
  · rw [pInsert_spine]
    exact S.list.insertAt S.nodup hx
  · exact List.nodup_middle.mpr (List.nodup_cons.mpr ⟨hx, S.nodup⟩)
  · intro a ha
    simp only [List.mem_append, List.mem_cons] at ha
    refine linkAt_ne_none (or_iff_not_imp_left.mpr fun hax => S.first a ?_)
    simpa [hax] using ha
  · exact fun a h => List.mem_append_left _ (slotBehind_mem h)
  · exact List.mem_append_right _ List.mem_cons_self
  · intro a h
    exact List.mem_append_right _ (List.mem_cons_of_mem _ (List.mem_of_mem_head? (hread ▸ h)))

theorem Spine.dequeue (S : q.Spine (l₁ ++ x :: l₂)) :
    ∃ q', q.pDequeue x = some q' ∧ q'.Spine (l₁ ++ l₂) ∧ SpineFrame q q' (l₁ ++ l₂) := by
  have hs := S.pPrevNext_eq
  have hn := S.pNext_eq
  refine ⟨_, pDequeue_eq hs, ⟨?_, ?_, ?_⟩, (frame_write ?_).trans (frame_setPPrevNext ?_)⟩
  · rw [pDequeue_spine hs]
    exact S.list.unlink S.nodup
  · exact (List.nodup_middle.mp S.nodup).of_cons
  · intro a ha
    refine setPPrevNext_ne_none (.inr ?_)
    rw [write_pPrevNext]
    refine S.first a ?_
    simp only [List.mem_append, List.mem_cons] at ha ⊢
    exact ha.imp_right .inr
  · exact fun a h => List.mem_append_left _ (slotBehind_mem h)
  · exact fun a h => List.mem_append_right _ (List.mem_of_mem_head? (hn ▸ h))

/-- An element that is not in the list takes the place of `x`. -/
theorem Spine.replace (S : q.Spine (l₁ ++ x :: l₂)) (hy : y ∉ l₁ ++ x :: l₂) :
    ∃ q', q.replaceWith x y = some q' ∧ q'.Spine (l₁ ++ y :: l₂) ∧ SpineFrame q q' (l₁ ++ y :: l₂) := by
  have hs := S.pPrevNext_eq
  have hn := S.pNext_eq
  have hxy : x ≠ y := fun h => hy (h ▸ List.mem_append_right _ List.mem_cons_self)
  have hy' : y ∉ l₁ ++ l₂ := by
    simp only [List.mem_append, List.mem_cons, not_or] at hy ⊢
    exact ⟨hy.1, hy.2.2⟩
  have hx : q.pNext x ≠ some x := by
    rw [hn]
    intro h
    have hmem := List.mem_append_right l₁ (List.mem_of_mem_head? h)
    exact (List.nodup_cons.mp (List.nodup_middle.mp S.nodup)).1 hmem
  refine ⟨_, replaceWith_eq hs hx hxy, ⟨?_, ?_, ?_⟩, frame_linkAt ?_ ?_ ?_⟩
  · rw [replaceWith_spine hs]
    exact S.list.replace S.nodup hy'
  · exact List.nodup_middle.mpr (List.nodup_cons.mpr ⟨hy', (List.nodup_middle.mp S.nodup).of_cons⟩)
  · intro a ha
    simp only [List.mem_append, List.mem_cons] at ha
    refine linkAt_ne_none (or_iff_not_imp_left.mpr fun hay => S.first a ?_)
    simp only [List.mem_append, List.mem_cons]
    exact ha.imp_right fun h => .inr (h.resolve_left hay)
  · exact fun a h => List.mem_append_left _ (slotBehind_mem h)
  · exact List.mem_append_right _ List.mem_cons_self
  · intro a h
    exact List.mem_append_right _ (List.mem_cons_of_mem _ (List.mem_of_mem_head? (hn ▸ h)))

end

end PrioList

end L4env.Fiasco
