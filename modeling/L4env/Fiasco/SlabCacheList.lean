import L4env.Fiasco.SlabCacheInv

/-!
# The list of slabs

A slab that is not where its fill state belongs is moved in the list: a full one from which an
element was given back to the front of those that are not full, an empty one to the end.
-/

namespace L4env.Fiasco.SlabCache

variable {c c' : SlabCache} {s x y : Nat} {out : Set Nat} {l l' A B R : List Nat}

/-! ## The list of slabs -/

/-- The slabs of `l` are linked in this order. -/
structure Linked (c : SlabCache) (l : List Nat) : Prop where
  links : Links c.next c.prev none l none
  nodup : l.Nodup
  first : c.firstSlab = l.head?
  last : c.lastSlab = l.getLast?

/-- The slab `s` may stand before `t`: full slabs are first and empty ones last. -/
def Before (c : SlabCache) (s t : Nat) : Prop :=
  (c.isFull t = true → c.isFull s = true) ∧ (c.isEmpty s = true → c.isEmpty t = true)

structure Ordered (c : SlabCache) (l : List Nat) : Prop where
  order : l.Pairwise (Before c)
  avail : c.firstAvailableSlab = l.find? fun s => !c.isFull s

/-- What the slabs of `l` contain. -/
structure Stocked (c : SlabCache) (out : Set Nat) (l : List Nat) : Prop where
  geometry : Geometry c
  latest : c.offsetFirstElem + c.latestOffset + c.entrySize * c.elemNum ≤ c.slabSize
  ok : ∀ s ∈ l, SlabOk c out s
  cover : ∀ y ∈ out, ∃ s ∈ l, s ≤ y ∧ y < s + c.slabSize

structure Holds (c : SlabCache) (out : Set Nat) (l : List Nat) : Prop where
  linked : Linked c l
  ordered : Ordered c l
  stocked : Stocked c out l

/-- The caches differ in the list of slabs only. -/
structure Requeued (c c' : SlabCache) : Prop where
  layout : SameLayout c c'
  latestOffset : c'.latestOffset = c.latestOffset
  firstFree : c'.firstFree = c.firstFree
  inUse : c'.inUse = c.inUse
  free : c'.free = c.free
  nextFree : c'.nextFree = c.nextFree

theorem Requeued.trans {c'' : SlabCache} (h : Requeued c c') (h' : Requeued c' c'') :
    Requeued c c'' :=
  ⟨⟨h'.layout.slabSize.trans h.layout.slabSize, h'.layout.elemSize.trans h.layout.elemSize,
    h'.layout.alignment.trans h.layout.alignment⟩, h'.latestOffset.trans h.latestOffset,
    h'.firstFree.trans h.firstFree, h'.inUse.trans h.inUse, h'.free.trans h.free,
    h'.nextFree.trans h.nextFree⟩

theorem Requeued.isFull (h : Requeued c c') (s : Nat) : c'.isFull s = c.isFull s := by
  unfold SlabCache.isFull
  rw [h.free]

theorem Requeued.isEmpty (h : Requeued c c') (s : Nat) : c'.isEmpty s = c.isEmpty s := by
  unfold SlabCache.isEmpty
  rw [h.inUse]

theorem Requeued.stocked (h : Requeued c c') (hc : Stocked c out l) (hperm : l'.Perm l) :
    Stocked c' out l' := by
  refine ⟨h.layout.geometry hc.geometry, ?_, fun s hs => ?_, fun y hy => ?_⟩
  · rw [h.layout.offsetFirstElem, h.latestOffset, h.layout.entrySize, h.layout.elemNum,
      h.layout.slabSize]
    exact hc.latest
  · refine (hc.ok s (hperm.mem_iff.mp hs)).congr hc.geometry.layout h.layout ?_ ?_ ?_ ?_ ?_
    · rw [h.firstFree]
    · rw [h.inUse]
    · rw [h.free]
    · exact fun e _ _ => by rw [h.nextFree]
    · exact fun y _ _ => Iff.rfl
  · obtain ⟨s, hs, hy⟩ := hc.cover y hy
    refine ⟨s, hperm.mem_iff.mpr hs, ?_⟩
    rw [h.layout.slabSize]
    exact hy

/-- A slab has entries, so that it is not both full and empty. -/
theorem Stocked.not_both (h : Stocked c out l) (hs : s ∈ l) (hfull : c.isFull s = true) :
    c.isEmpty s = false := by
  obtain ⟨color, F, U, hp⟩ := h.ok s hs
  have hcount := hp.count
  have hshort := h.geometry.layout.short
  simp only [SlabCache.isFull, SlabCache.isEmpty, decide_eq_true_eq, decide_eq_false_iff_not]
    at hfull ⊢
  omega

/-- A slab of another fill state is put where it belongs. -/
theorem pairwise_exchange (h : (A ++ R).Pairwise (Before c))
    (hfull : ∀ x ∈ A ++ R, c'.isFull x = c.isFull x)
    (hempty : ∀ x ∈ A ++ R, c'.isEmpty x = c.isEmpty x) (hA : ∀ x ∈ A, Before c' x s)
    (hR : ∀ x ∈ R, Before c' s x) : (A ++ s :: R).Pairwise (Before c') := by
  have h' : (A ++ R).Pairwise (Before c') := by
    refine h.imp_of_mem fun {x y} hx hy hxy => ?_
    unfold Before
    rw [hfull x hx, hfull y hy, hempty x hx, hempty y hy]
    exact hxy
  rw [List.pairwise_append] at h' ⊢
  refine ⟨h'.1, List.pairwise_cons.mpr ⟨hR, h'.2.1⟩, fun x hx y hy => ?_⟩
  rcases List.mem_cons.mp hy with rfl | hy
  · exact hA x hx
  · exact h'.2.2 x hx y hy

theorem before_of_full (hx : c.isFull x = true) (he : c.isEmpty x = false) : Before c x s :=
  ⟨fun _ => hx, fun h => by rw [he] at h; cases h⟩

/-- `enqueue` puts a slab behind the slab `a`. -/
theorem enqueue_links {a : Nat} (h : Links c.next c.prev none (A ++ a :: R) none)
    (hnd : (A ++ a :: R).Nodup) (hs : s ∉ A ++ a :: R) :
    Links (c.enqueue s a).next (c.enqueue s a).prev none (A ++ a :: s :: R) none := by
  have hsa : s ≠ a := fun e => hs (by simp [e])
  have hnext : c.next a ≠ some s := fun e => hs <| by
    have hmid := h.middle.2
    rw [e, Option.or_none] at hmid
    have hmem := List.mem_of_mem_head? hmid.symm
    simp [hmem]
  refine h.insert_after hnd hs ?_ ?_ ?_ ?_ ?_ ?_
  · intro y hya hys
    simp [enqueue, hya, hys]
  · simp [enqueue]
  · simp [enqueue, hsa]
  · intro y hys hy
    show Function.update (writeAt c.prev (c.next a) (some s)) s (some a) y = c.prev y
    rw [Function.update_of_ne hys, writeAt_of_ne hy]
  · simp [enqueue]
  · intro b hb
    have hbs : b ≠ s := fun e => hnext (e ▸ hb)
    show Function.update (writeAt c.prev (c.next a) (some s)) s (some a) b = some s
    rw [Function.update_of_ne hbs, hb, writeAt_some]

theorem dequeue_links (h : Links c.next c.prev none (A ++ s :: R) none)
    (hnd : (A ++ s :: R).Nodup) :
    Links (c.dequeue s).next (c.dequeue s).prev none (A ++ R) none := by
  have hmid := h.middle
  simp only [Option.or_none] at hmid
  have hndm := List.nodup_middle.mp hnd
  have hout := (List.nodup_cons.mp hndm).1
  refine h.remove hnd ?_ ?_ ?_ ?_
  · intro y hys hy
    show Function.update (writeAt c.next (c.prev s) (c.next s)) s none y = c.next y
    rw [Function.update_of_ne hys, writeAt_of_ne hy]
  · intro a ha
    have has : a ≠ s := fun e => hout <| by
      rw [hmid.1, e] at ha
      simp [List.mem_of_getLast? ha]
    show Function.update (writeAt c.next (c.prev s) (c.next s)) s none a = c.next s
    rw [Function.update_of_ne has, ha, writeAt_some]
  · intro y hys hy
    show Function.update (writeAt c.prev (c.next s) (c.prev s)) s none y = c.prev y
    rw [Function.update_of_ne hys, writeAt_of_ne hy]
  · intro b hb
    have hbs : b ≠ s := fun e => hout <| by
      rw [hmid.2, e] at hb
      simp [List.mem_of_mem_head? hb]
    show Function.update (writeAt c.prev (c.next s) (c.prev s)) s none b = c.prev s
    rw [Function.update_of_ne hbs, hb, writeAt_some]

theorem Linked.prev_eq (h : Linked c (A ++ s :: R)) : c.prev s = A.getLast? := by
  rw [h.links.middle.1, Option.or_none]

theorem Linked.next_eq (h : Linked c (A ++ s :: R)) : c.next s = R.head? := by
  rw [h.links.middle.2, Option.or_none]

/-- Where the first slab that is not full is. -/
theorem find_split (hA : ∀ x ∈ A, c.isFull x = true) :
    (A ++ R).find? (fun s => !c.isFull s) = R.find? fun s => !c.isFull s := by
  rw [List.find?_append, List.find?_eq_none.mpr, Option.none_or]
  intro x hx
  simp [hA x hx]

/-- The slab `s` leaves the list, up to the pointer to the last slab. -/
theorem Linked.dequeue (h : Linked c (A ++ s :: R)) :
    let c₁ := if c.firstSlab = some s then { c with firstSlab := c.next s } else c
    Links (c₁.dequeue s).next (c₁.dequeue s).prev none (A ++ R) none ∧
    (c₁.dequeue s).firstSlab = (A ++ R).head? ∧ (c₁.dequeue s).lastSlab = c.lastSlab ∧
    (c₁.dequeue s).firstAvailableSlab = c.firstAvailableSlab ∧ Requeued c (c₁.dequeue s) := by
  dsimp only
  have hlinks := dequeue_links h.links h.nodup
  have hout := (List.nodup_cons.mp (List.nodup_middle.mp h.nodup)).1
  split
  · rename_i hs
    refine ⟨hlinks, ?_, rfl, rfl, ⟨⟨rfl, rfl, rfl⟩, rfl, rfl, rfl, rfl, rfl⟩⟩
    cases A with
    | nil => exact h.next_eq
    | cons x A =>
      rw [h.first] at hs
      cases hs
      simp at hout
  · rename_i hs
    refine ⟨hlinks, ?_, rfl, rfl, ⟨⟨rfl, rfl, rfl⟩, rfl, rfl, rfl, rfl, rfl⟩⟩
    cases A with
    | nil => exact absurd h.first hs
    | cons x A => exact h.first

/-- Full slabs first, then the others. -/
theorem exists_split (h : R.Pairwise (Before c)) :
    ∃ B R', R = B ++ R' ∧ (∀ x ∈ B, c.isFull x = true) ∧ ∀ x ∈ R', c.isFull x = false := by
  induction R with
  | nil => exact ⟨[], [], rfl, by simp, by simp⟩
  | cons r R ih =>
    cases hr : c.isFull r with
    | true =>
      obtain ⟨B, R', rfl, hB, hR'⟩ := ih (List.pairwise_cons.mp h).2
      exact ⟨r :: B, R', rfl, List.forall_mem_cons.mpr ⟨hr, hB⟩, hR'⟩
    | false =>
      refine ⟨[], r :: R, rfl, by simp, List.forall_mem_cons.mpr ⟨hr, fun x hx => ?_⟩⟩
      by_contra hfull
      rw [(List.rel_of_pairwise_cons h hx).1 (by simpa using hfull)] at hr
      cases hr

/-- A slab that was full becomes the first one that is not. -/
theorem requeueFull_spec (h : Linked c (A ++ s :: R)) (hA : ∀ x ∈ A, c.isFull x = true)
    (horder : R.Pairwise (Before c)) (havail : c.firstAvailableSlab = R.find? fun s => !c.isFull s) :
    ∃ c' B R', c.requeueFull s = some c' ∧ R = B ++ R' ∧ (∀ x ∈ B, c.isFull x = true) ∧
      (∀ x ∈ R', c.isFull x = false) ∧ Linked c' (A ++ B ++ s :: R') ∧
      c'.firstAvailableSlab = some s ∧ Requeued c c' := by
  obtain ⟨B, R', rfl, hB, hR'⟩ := exists_split horder
  have hnext := h.next_eq
  have hself : Requeued c { c with firstAvailableSlab := some s } :=
    ⟨⟨rfl, rfl, rfl⟩, rfl, rfl, rfl, rfl, rfl⟩
  rcases List.eq_nil_or_concat B with rfl | ⟨B, p, rfl⟩
  · -- the slab is the last full one: it stays
    refine ⟨{ c with firstAvailableSlab := some s }, [], R', ?_, rfl, by simp, hR', ?_, rfl, hself⟩
    · unfold requeueFull
      rw [hnext]
      cases R' with
      | nil =>
        have hnone : c.firstAvailableSlab = none := havail
        simp [hnone]
      | cons r R' => simp [hR' r (by simp)]
    · rw [List.append_nil]
      exact ⟨h.links, h.nodup, h.first, h.last⟩
  · rw [List.concat_eq_append] at *
    have hp : c.isFull p = true := hB p (by simp)
    obtain ⟨hlinks, hfirst, hlast, hfa, hsame⟩ := h.dequeue
    have hr : ∃ r, c.next s = some r ∧ c.isFull r = true := by
      rw [hnext]
      cases B with
      | nil => exact ⟨p, rfl, hp⟩
      | cons r B => exact ⟨r, rfl, hB r (by simp)⟩
    obtain ⟨r, hr, hrfull⟩ := hr
    have hout := (List.nodup_cons.mp (List.nodup_middle.mp h.nodup)).1
    have hnd := (List.nodup_cons.mp (List.nodup_middle.mp h.nodup)).2
    generalize hc₂ : (if c.firstSlab = some s then { c with firstSlab := c.next s } else c).dequeue s =
      c₂ at hlinks hfirst hlast hfa hsame
    rw [hr] at hc₂
    have hsplit : A ++ (B ++ [p] ++ R') = A ++ B ++ p :: R' := by simp
    rw [hsplit] at hlinks hfirst hout hnd
    have henq := enqueue_links hlinks hnd hout
    have hheads : (A ++ (B ++ [p]) ++ s :: R').head? = (A ++ B ++ p :: R').head? := by
      cases A <;> cases B <;> simp
    have hlist : A ++ (B ++ [p]) ++ s :: R' = A ++ B ++ p :: s :: R' := by simp
    have hnd' : (A ++ (B ++ [p]) ++ s :: R').Nodup := by
      rw [hlist, ← List.singleton_append, ← List.append_assoc, List.nodup_middle]
      exact List.nodup_cons.mpr ⟨by simpa using hout, by simpa using hnd⟩
    have hfull₂ : c₂.isFull p = true := (hsame.isFull p).trans hp
    have hfind : c.firstAvailableSlab = R'.head? := by
      rw [havail, find_split hB]
      cases R' with
      | nil => rfl
      | cons a R' => simp [hR' a (by simp)]
    cases R' with
    | nil =>
      have hl : c₂.lastSlab = some p := by
        rw [hlast, h.last]
        simp [List.getLast?_append, List.getLast?_cons]
      have hnone : c₂.firstAvailableSlab = none := hfa.trans hfind
      refine ⟨{ c₂.enqueue s p with lastSlab := some s, firstAvailableSlab := some s }, B ++ [p], [],
        ?_, rfl, hB, hR', ⟨?_, hnd', ?_, ?_⟩, rfl, hsame.trans
          ⟨⟨rfl, rfl, rfl⟩, rfl, rfl, rfl, rfl, rfl⟩⟩
      · unfold requeueFull
        simp only [hr, hrfull, if_true, hc₂, hnone, hl, hfull₂, Option.bind_eq_bind, Option.bind_some]
      · rw [hlist]
        exact henq
      · rw [hheads]
        exact hfirst
      · simp
    | cons a R' =>
      have hprev : c₂.prev a = some p := by
        have hmid : Links c₂.next c₂.prev none ((A ++ B ++ [p]) ++ a :: R') none := by
          simpa using hlinks
        simpa using hmid.middle.1
      have hsome : c₂.firstAvailableSlab = some a := hfa.trans hfind
      refine ⟨{ c₂.enqueue s p with firstAvailableSlab := some s }, B ++ [p], a :: R',
        ?_, rfl, hB, hR', ⟨?_, hnd', ?_, ?_⟩, rfl, hsame.trans
          ⟨⟨rfl, rfl, rfl⟩, rfl, rfl, rfl, rfl, rfl⟩⟩
      · unfold requeueFull
        simp only [hr, hrfull, if_true, hc₂, hsome, hprev, hfull₂, Option.bind_eq_bind,
          Option.bind_some]
      · rw [hlist]
        exact henq
      · rw [hheads]
        exact hfirst
      · refine hlast.trans (h.last.trans ?_)
        simp [List.getLast?_append, List.getLast?_cons]

/-- A slab that became empty is put behind the slabs that are not, where it is not there already. -/
theorem requeueEmpty_spec (h : Linked c (A ++ s :: R)) (horder : R.Pairwise (Before c))
    (hR : ∀ x ∈ R, c.isFull x = false) (hs : c.isFull s = false)
    (havail : c.firstAvailableSlab = (A ++ s :: R).find? fun s => !c.isFull s) :
    ∃ c' A' R', c.requeueEmpty s = some c' ∧ A' ++ R' = A ++ R ∧ (∀ x ∈ R', c.isEmpty x = true) ∧
      (∀ x ∈ A', x ∈ A ∨ c.isFull x = false) ∧ Linked c' (A' ++ s :: R') ∧
      c'.firstAvailableSlab = (A' ++ s :: R').find? (fun s => !c.isFull s) ∧ Requeued c c' := by
  have hnext := h.next_eq
  have hself : Requeued c c := ⟨⟨rfl, rfl, rfl⟩, rfl, rfl, rfl, rfl, rfl⟩
  cases R with
  | nil =>
    refine ⟨c, A, [], ?_, rfl, by simp, fun x hx => .inl hx, h, havail, hself⟩
    unfold requeueEmpty
    rw [hnext]
    rfl
  | cons r R =>
    have hnext : c.next s = some r := hnext
    cases hr : c.isEmpty r with
    | true =>
      refine ⟨c, A, r :: R, ?_, rfl, List.forall_mem_cons.mpr ⟨hr, fun x hx => ?_⟩,
        fun x hx => .inl hx, h, havail, hself⟩
      · unfold requeueEmpty
        simp only [hnext, hr, if_true]
      · exact (List.rel_of_pairwise_cons horder hx).2 hr
    | false =>
      obtain ⟨hlinks, hfirst, hlast, hfa, hsame⟩ := h.dequeue
      have hout := (List.nodup_cons.mp (List.nodup_middle.mp h.nodup)).1
      have hnd := (List.nodup_cons.mp (List.nodup_middle.mp h.nodup)).2
      obtain ⟨R₀, z, hz⟩ : ∃ R₀ z, r :: R = R₀ ++ [z] :=
        ⟨(r :: R).dropLast, (r :: R).getLast (by simp), (List.dropLast_append_getLast _).symm⟩
      -- the pointer to the first slab that is not full moves on before the slab leaves the list
      have hcomm : (if (if c.firstSlab = some s then { c with firstSlab := c.next s } else
            c).firstAvailableSlab = some s then
          { (if c.firstSlab = some s then { c with firstSlab := c.next s } else c) with
            firstAvailableSlab := (if c.firstSlab = some s then { c with firstSlab := c.next s }
              else c).next s }
          else if c.firstSlab = some s then { c with firstSlab := c.next s } else c).dequeue s =
          { (if c.firstSlab = some s then { c with firstSlab := c.next s } else c).dequeue s with
            firstAvailableSlab := if c.firstAvailableSlab = some s then c.next s
              else c.firstAvailableSlab } := by
        by_cases h₁ : c.firstSlab = some s <;> by_cases h₂ : c.firstAvailableSlab = some s <;>
          simp [SlabCache.dequeue, h₁, h₂]
      generalize hc₂ : (if c.firstSlab = some s then { c with firstSlab := c.next s } else c).dequeue s =
        c₂ at hlinks hfirst hlast hfa hsame hcomm
      have hlink := h.last
      rw [hz] at hlinks hfirst hout hnd hlink
      rw [← List.append_assoc] at hlinks hout hnd
      have henq := enqueue_links hlinks hnd hout
      have hlastz : c₂.lastSlab = some z := by
        rw [hlast, hlink]
        simp [List.getLast?_append, List.getLast?_cons]
      refine ⟨{ c₂.enqueue s z with
          lastSlab := some s
          firstAvailableSlab := if c.firstAvailableSlab = some s then c.next s
            else c.firstAvailableSlab }, A ++ (r :: R), [], ?_, by simp, by simp, fun x hx => ?_,
        ⟨?_, ?_, ?_, ?_⟩, ?_, hsame.trans ⟨⟨rfl, rfl, rfl⟩, rfl, rfl, rfl, rfl, rfl⟩⟩
      · unfold requeueEmpty
        split
        · rename_i hn
          cases hnext.symm.trans hn
        · rename_i hn
          cases hnext.symm.trans hn
          rw [if_neg (by simp [hr])]
          dsimp only
          rw [hcomm]
          simp only [hlastz, Option.bind_eq_bind, Option.bind_some]
          rfl
      · exact (List.mem_append.mp hx).imp_right (hR x)
      · rw [hz, ← List.append_assoc, List.append_assoc (A ++ R₀)]
        exact henq
      · rw [hz, ← List.append_assoc, List.nodup_append_comm, List.singleton_append]
        exact List.nodup_cons.mpr ⟨hout, hnd⟩
      · rw [hz]
        refine hfirst.trans ?_
        cases A <;> cases R₀ <;> simp
      · exact (List.getLast?_concat ..).symm
      · show (if c.firstAvailableSlab = some s then c.next s else c.firstAvailableSlab) = _
        have hsA : s ∉ A := fun hmem => hout (by simp [hmem])
        rw [List.find?_append, List.find?_append]
        rw [List.find?_append] at havail
        cases hA : A.find? fun s => !c.isFull s with
        | some a =>
          rw [hA] at havail
          have hne : a ≠ s := by
            rintro rfl
            exact hsA (List.mem_of_find?_eq_some hA)
          have hfa : c.firstAvailableSlab = some a := havail
          rw [hfa, if_neg (by simp [hne])]
          rfl
        | none =>
          rw [hA] at havail
          have hfa : c.firstAvailableSlab = some s := by simpa [hs] using havail
          rw [if_pos hfa, hnext]
          simp [hR r (by simp)]

end L4env.Fiasco.SlabCache
