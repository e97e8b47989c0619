import L4env.Fiasco.SlabCacheList

/-!
# Runs of slab caches

Each operation edits one slab and puts it where it belongs in the list, so that every state of every
run is consistent.
-/

namespace L4env.Fiasco.SlabCache

variable {c c' : SlabCache} {s x y : Nat} {out : Set Nat} {l l' A B R : List Nat}

/-! ## Operations -/

theorem SlabOk.aligned (h : SlabOk c out s) : c.slabSize ∣ s := by
  obtain ⟨color, F, U, h⟩ := h
  exact h.aligned

/-- The slabs of a cache are apart from each other. -/
theorem Stocked.apart (h : Stocked c out l) (hx : x ∈ l) (hs : c.slabSize ∣ s) (hne : x ≠ s)
    (hle : x ≤ y) (hlt : y < x + c.slabSize) : ¬ (s ≤ y ∧ y < s + c.slabSize) := by
  rintro ⟨hle', hlt'⟩
  exact hne ((slabOf_eq (h.ok x hx).aligned hle hlt).symm.trans (slabOf_eq hs hle' hlt'))

/-- Only the slab `s` is edited. -/
theorem Stocked.touch {out' : Set Nat} (h : Stocked c out l) (hlayout : SameLayout c c')
    (hlatest : c'.offsetFirstElem + c'.latestOffset + c'.entrySize * c'.elemNum ≤ c'.slabSize)
    (hs : c.slabSize ∣ s) (hok : SlabOk c' out' s)
    (hff : ∀ x, x ≠ s → c'.firstFree x = c.firstFree x)
    (huse : ∀ x, x ≠ s → c'.inUse x = c.inUse x) (hfree : ∀ x, x ≠ s → c'.free x = c.free x)
    (hnf : ∀ e, ¬ (s ≤ e ∧ e < s + c.slabSize) → c'.nextFree e = c.nextFree e)
    (hout : ∀ y, ¬ (s ≤ y ∧ y < s + c.slabSize) → (y ∈ out' ↔ y ∈ out))
    (hl : ∀ x, x ∈ l' ↔ x = s ∨ x ∈ l) : Stocked c' out' l' := by
  refine ⟨hlayout.geometry h.geometry, hlatest, fun x hx => ?_, fun y hy => ?_⟩
  · rcases eq_or_ne x s with rfl | hne
    · exact hok
    · have hx := ((hl x).mp hx).resolve_left hne
      exact (h.ok x hx).congr h.geometry.layout hlayout (hff x hne) (huse x hne) (hfree x hne)
        (fun e hle hlt => hnf e (h.apart hx hs hne hle hlt))
        fun y hle hlt => hout y (h.apart hx hs hne hle hlt)
  · rw [hlayout.slabSize]
    by_cases hblock : s ≤ y ∧ y < s + c.slabSize
    · exact ⟨s, (hl s).mpr (.inl rfl), hblock⟩
    · obtain ⟨x, hx, hxy⟩ := h.cover y ((hout y hblock).mp hy)
      exact ⟨x, (hl x).mpr (.inr hx), hxy⟩

theorem takeEntry_isFull {e : Nat} (hne : x ≠ s) : (c.takeEntry s e).isFull x = c.isFull x := by
  simp [isFull, takeEntry, hne]

theorem takeEntry_isEmpty {e : Nat} :
    (c.takeEntry s e).isEmpty x = (c.isEmpty x && decide (x ≠ s)) := by
  rcases eq_or_ne x s with rfl | hne
  · simp [isEmpty, takeEntry]
  · simp [isEmpty, takeEntry, hne]

/-- An element is taken from the first slab that is not full. -/
theorem Holds.allocFrom (h : Holds c out l) (hs : c.firstAvailableSlab = some s) :
    ∃ e c', c.allocFrom s = some (some e, c') ∧ e ∉ out ∧ Holds c' (insert e out) l := by
  have hfind := h.ordered.avail.symm.trans hs
  obtain ⟨hfull, A, R, rfl, hA⟩ := List.find?_eq_some_iff_append.mp hfind
  have hfull : c.isFull s = false := by simpa using hfull
  have hA : ∀ x ∈ A, c.isFull x = true := fun x hx => by simpa using hA x hx
  have hlayout := h.stocked.geometry.layout
  obtain ⟨e, halloc, hnew, hlo, hhi, hok⟩ :=
    (h.stocked.ok s (by simp)).alloc hlayout hfull
  have hprev : ((c.prev s).any fun p => !c.isFull p) = false := by
    rw [h.linked.prev_eq]
    cases hlast : A.getLast? with
    | none => rfl
    | some p => simp [hA p (List.mem_of_getLast? hlast)]
  have hsA : s ∉ A ++ R := (List.nodup_cons.mp (List.nodup_middle.mp h.linked.nodup)).1
  have hne : ∀ x ∈ A ++ R, x ≠ s := fun x hx e => hsA (e ▸ hx)
  have horder := h.ordered.order
  rw [List.pairwise_append, List.pairwise_cons] at horder
  have hR : ∀ x ∈ R, c.isFull x = false := by
    intro x hx
    by_contra hx'
    rw [(horder.2.1.1 x hx).1 (by simpa using hx')] at hfull
    cases hfull
  have helem := hlayout.elemSize
  have hsame := takeEntry_layout c s e
  have hstocked : Stocked (c.takeEntry s e) (insert (e + slabEntrySize) out) (A ++ s :: R) := by
    refine h.stocked.touch hsame h.stocked.latest (h.stocked.ok s (by simp)).aligned hok
      (fun x hx => Function.update_of_ne hx _ _) (fun x hx => Function.update_of_ne hx _ _)
      (fun x hx => Function.update_of_ne hx _ _) (fun _ _ => rfl) (fun y hy => ?_)
      fun x => by simp only [List.mem_append, List.mem_cons]; tauto
    rw [Set.mem_insert_iff, or_iff_right]
    rintro rfl
    exact hy ⟨by omega, by omega⟩
  have hpair : (A ++ s :: R).Pairwise (Before (c.takeEntry s e)) := by
    have hAR : (A ++ R).Pairwise (Before c) :=
      h.ordered.order.sublist ((List.Sublist.refl A).append (List.sublist_cons_self s R))
    refine pairwise_exchange hAR (fun x hx => takeEntry_isFull (hne x hx)) (fun x hx => ?_)
      (fun x hx => ?_) fun x hx => ?_
    · rw [takeEntry_isEmpty]
      simp [hne x hx]
    · have hx' := hne x (List.mem_append_left R hx)
      refine before_of_full ?_ ?_
      · rw [takeEntry_isFull hx']
        exact hA x hx
      · rw [takeEntry_isEmpty, h.stocked.not_both (by simp [hx]) (hA x hx)]
        rfl
    · have hx' := hne x (List.mem_append_right A hx)
      refine ⟨fun hfx => ?_, fun hes => ?_⟩
      · rw [takeEntry_isFull hx', hR x hx] at hfx
        cases hfx
      · rw [takeEntry_isEmpty] at hes
        simp at hes
  have hA' : ∀ x ∈ A, (c.takeEntry s e).isFull x = true := fun x hx => by
    rw [takeEntry_isFull (hne x (List.mem_append_left R hx))]
    exact hA x hx
  refine ⟨e + slabEntrySize, if (c.takeEntry s e).isFull s then
    { c.takeEntry s e with firstAvailableSlab := c.next s } else c.takeEntry s e, ?_, hnew, ?_, ?_, ?_⟩
  · unfold SlabCache.allocFrom
    rw [if_neg (by simp [hfull]), if_neg (by simp [hprev]), halloc]
    rfl
  · split
    · exact ⟨h.linked.links, h.linked.nodup, h.linked.first, h.linked.last⟩
    · exact ⟨h.linked.links, h.linked.nodup, h.linked.first, h.linked.last⟩
  · split
    · rename_i hnow
      refine ⟨hpair, ?_⟩
      show c.next s = List.find? (fun x => !(c.takeEntry s e).isFull x) (A ++ s :: R)
      rw [h.linked.next_eq, find_split hA', List.find?_cons, hnow]
      cases R with
      | nil => rfl
      | cons r R =>
        have hr : (c.takeEntry s e).isFull r = false := by
          rw [takeEntry_isFull (hne r (by simp))]
          exact hR r (by simp)
        simp [hr]
    · rename_i hnow
      refine ⟨hpair, hs.trans ?_⟩
      rw [find_split hA', List.find?_cons]
      simp [hnow]
  · split
    · have hsame : Requeued (c.takeEntry s e)
          { c.takeEntry s e with firstAvailableSlab := c.next s } :=
        ⟨⟨rfl, rfl, rfl⟩, rfl, rfl, rfl, rfl, rfl⟩
      exact hsame.stocked hstocked (.refl _)
    · exact hstocked

theorem construct_isFull (hne : x ≠ s) : (c.construct s).isFull x = c.isFull x := by
  simp [isFull, construct, hne]

theorem construct_isEmpty (hne : x ≠ s) : (c.construct s).isEmpty x = c.isEmpty x := by
  simp [isEmpty, construct, hne]

/-- A new slab is put behind the other ones, which are full. -/
theorem Holds.append (h : Holds c out l) (hnone : c.firstAvailableSlab = none)
    (hs : c.slabSize ∣ s) (hnew : s ∉ l) (hc : Requeued (c.construct s) c')
    (hlinked : Linked c' (l ++ [s])) (hfa : c'.firstAvailableSlab = some s) :
    Holds c' out (l ++ [s]) := by
  have hlayout := h.stocked.geometry.layout
  have hfull : ∀ x ∈ l, c.isFull x = true := by
    have hfind := h.ordered.avail.symm.trans hnone
    intro x hx
    simpa using List.find?_eq_none.mp hfind x hx
  have hne : ∀ x ∈ l, x ≠ s := fun x hx e => hnew (e ▸ hx)
  have hfits := hlayout.fits
  have hout : ∀ y ∈ out, ¬ (s ≤ y ∧ y < s + c.slabSize) := by
    intro y hy
    obtain ⟨x, hx, hle, hlt⟩ := h.stocked.cover y hy
    exact h.stocked.apart hx hs (hne x hx) hle hlt
  obtain ⟨hok, hframe⟩ := construct_ok hlayout hs h.stocked.latest hout
  have hstocked : Stocked (c.construct s) out (l ++ [s]) := by
    refine h.stocked.touch ⟨rfl, rfl, rfl⟩ ?_ hs hok (fun x hx => Function.update_of_ne hx _ _)
      (fun x hx => Function.update_of_ne hx _ _) (fun x hx => Function.update_of_ne hx _ _) hframe
      (fun y _ => Iff.rfl) fun x => ?_
    · show c.offsetFirstElem + (if _ then 0 else _) + c.entrySize * c.elemNum ≤ c.slabSize
      split
      · rw [Nat.add_zero]
        exact hfits
      · rename_i hle
        exact Nat.le_of_not_lt hle
    · rw [List.mem_append, List.mem_singleton]
      exact or_comm
  have hsfull : (c.construct s).isFull s = false := by
    have hshort := hlayout.short
    simp only [isFull, construct, Function.update_self, decide_eq_false_iff_not]
    omega
  have hfull' : ∀ x ∈ l, c'.isFull x = true := fun x hx => by
    rw [hc.isFull, construct_isFull (hne x hx)]
    exact hfull x hx
  refine ⟨hlinked, ⟨?_, ?_⟩, hc.stocked hstocked (.refl _)⟩
  · refine pairwise_exchange (c := c) (by simpa using h.ordered.order) (fun x hx => ?_)
      (fun x hx => ?_) (fun x hx => before_of_full (hfull' x hx) ?_) (by simp)
    · rw [List.append_nil] at hx
      rw [hc.isFull, construct_isFull (hne x hx)]
    · rw [List.append_nil] at hx
      rw [hc.isEmpty, construct_isEmpty (hne x hx)]
    · rw [hc.isEmpty, construct_isEmpty (hne x hx)]
      exact h.stocked.not_both hx (hfull x hx)
  · rw [hfa, find_split hfull', List.find?_cons, hc.isFull, hsfull]
    rfl

theorem Holds.alloc (h : Holds c out l) {block : Option Nat}
    (hblock : ∀ s, block = some s → c.slabSize ∣ s ∧ s ∉ l) :
    ∃ r c' l', c.alloc block = some (r, c') ∧ (∀ e, r = some e → e ∉ out) ∧
      Holds c' {y | y ∈ out ∨ r = some y} l' := by
  have hinsert : ∀ e, {y | y ∈ out ∨ some e = some y} = insert e out := by
    intro e
    ext y
    simp only [Set.mem_ofPred_eq, Option.some.injEq, Set.mem_insert_iff]
    rw [or_comm, eq_comm]
  have hfrom : ∀ {c₁ l₁ s}, Holds c₁ out l₁ → c₁.firstAvailableSlab = some s →
      c.alloc block = c₁.allocFrom s → ∃ r c' l', c.alloc block = some (r, c') ∧
        (∀ e, r = some e → e ∉ out) ∧ Holds c' {y | y ∈ out ∨ r = some y} l' := by
    intro c₁ l₁ s h₁ hs heq
    obtain ⟨e, c', halloc, hnew, h'⟩ := h₁.allocFrom hs
    refine ⟨some e, c', l₁, heq.trans halloc, ?_, ?_⟩
    · rintro _ ⟨⟩
      exact hnew
    · rw [hinsert]
      exact h'
  cases hfa : c.firstAvailableSlab with
  | some s => exact hfrom h hfa (by simp [SlabCache.alloc, hfa])
  | none =>
    cases hb : block with
    | none =>
      refine ⟨none, c, l, by simp [SlabCache.alloc, hfa], by simp, ?_⟩
      simpa using h
    | some s =>
      rw [hb] at hfrom
      obtain ⟨hs, hnew⟩ := hblock s hb
      have hne : ∀ x ∈ l, x ≠ s := fun x hx e => hnew (e ▸ hx)
      have hlinks : Links (c.construct s).next (c.construct s).prev none l none :=
        h.linked.links.congr (fun x hx => Function.update_of_ne (hne x hx) _ _)
          fun x hx => Function.update_of_ne (hne x hx) _ _
      have hnd : (l ++ [s]).Nodup := by
        rw [← List.concat_eq_append, List.nodup_concat]
        exact ⟨hnew, h.linked.nodup⟩
      cases hlast : c.lastSlab with
      | none =>
        have hnil : l = [] := List.getLast?_eq_none_iff.mp (h.linked.last.symm.trans hlast)
        subst hnil
        let c₁ : SlabCache :=
          { c.construct s with
            firstSlab := some s
            firstAvailableSlab := some s
            lastSlab := some s }
        have hlinked : Linked c₁ [s] :=
          ⟨⟨Function.update_self .., Function.update_self .., trivial⟩, hnd, rfl, rfl⟩
        have h₁ : Holds c₁ out [s] :=
          h.append hfa hs hnew ⟨⟨rfl, rfl, rfl⟩, rfl, rfl, rfl, rfl, rfl⟩ hlinked rfl
        refine hfrom h₁ rfl ?_
        simp only [SlabCache.alloc, hfa, construct, hlast]
        rfl
      | some z =>
        obtain ⟨l₀, rfl⟩ : ∃ l₀, l = l₀ ++ [z] :=
          List.getLast?_eq_some_iff.mp (h.linked.last.symm.trans hlast)
        have henq := enqueue_links (c := c.construct s) hlinks h.linked.nodup hnew
        have hz : c.isFull z = true := by
          have hfind := h.ordered.avail.symm.trans hfa
          simpa using List.find?_eq_none.mp hfind z (by simp)
        have hz' : (c.construct s).isFull z = true := by
          rw [construct_isFull (hne z (by simp))]
          exact hz
        let c₁ : SlabCache :=
          { (c.construct s).enqueue s z with
            firstAvailableSlab := some s
            lastSlab := some s }
        have hfirst : c.firstSlab = (l₀ ++ [z] ++ [s]).head? := by
          refine h.linked.first.trans ?_
          cases l₀ <;> simp
        have hlinked : Linked c₁ (l₀ ++ [z] ++ [s]) :=
          ⟨by simpa using henq, hnd, hfirst, (List.getLast?_concat ..).symm⟩
        have h₁ : Holds c₁ out (l₀ ++ [z] ++ [s]) :=
          h.append hfa hs hnew ⟨⟨rfl, rfl, rfl⟩, rfl, rfl, rfl, rfl, rfl⟩ hlinked rfl
        refine hfrom h₁ rfl ?_
        unfold SlabCache.alloc
        rw [hfa]
        dsimp only
        rw [show (c.construct s).lastSlab = some z from hlast]
        exact if_pos hz'

theorem putEntry_isFull {e : Nat} :
    (c.putEntry s e).isFull x = (c.isFull x && decide (x ≠ s)) := by
  rcases eq_or_ne x s with rfl | hne
  · simp [isFull, putEntry]
  · simp [isFull, putEntry, hne]

theorem putEntry_isEmpty {e : Nat} (hne : x ≠ s) : (c.putEntry s e).isEmpty x = c.isEmpty x := by
  simp [isEmpty, putEntry, hne]

/-- A slab with one entry that is not in use has no entry in use. -/
theorem Stocked.empty_of_short (h : Stocked c out l) (hx : x ∈ l) (hshort : short c.elemNum = 1)
    (hfull : c.isFull x = false) : c.isEmpty x = true := by
  obtain ⟨color, F, U, hp⟩ := h.ok x hx
  have hcount := hp.count
  simp only [SlabCache.isFull, SlabCache.isEmpty, decide_eq_true_eq, decide_eq_false_iff_not]
    at hfull ⊢
  omega

/-- The state after an element of the slab `s` was given back, and before the slab is moved. -/
structure Returned (c : SlabCache) (out : Set Nat) (A R : List Nat) (s : Nat) : Prop where
  linked : Linked c (A ++ s :: R)
  stocked : Stocked c out (A ++ s :: R)
  order : (A ++ R).Pairwise (Before c)
  full : c.isFull s = false

/-- The slab is where it belongs. -/
theorem Returned.holds {A' R' : List Nat} (h : Returned c out A R s) (hc : Requeued c c')
    (hsplit : A' ++ R' = A ++ R) (hlinked : Linked c' (A' ++ s :: R'))
    (hA : ∀ x ∈ A', Before c x s) (hR : ∀ x ∈ R', Before c s x)
    (hfa : c'.firstAvailableSlab = (A' ++ s :: R').find? fun s => !c.isFull s) :
    Holds c' out (A' ++ s :: R') ∧ c'.firstAvailableSlab.isSome = true := by
  have hbefore : ∀ x y, Before c x y → Before c' x y := by
    intro x y hxy
    unfold Before
    rw [hc.isFull, hc.isFull, hc.isEmpty, hc.isEmpty]
    exact hxy
  have hperm : (A' ++ s :: R').Perm (A ++ s :: R) :=
    List.perm_middle.trans ((hsplit ▸ List.Perm.refl _ : (s :: (A' ++ R')).Perm (s :: (A ++ R))).trans
      List.perm_middle.symm)
  have hfind : (fun s => !c'.isFull s) = fun s => !c.isFull s := by
    funext x
    rw [hc.isFull]
  refine ⟨⟨hlinked, ⟨?_, hfa.trans (by rw [hfind])⟩, hc.stocked h.stocked hperm⟩, ?_⟩
  · refine pairwise_exchange (hsplit ▸ h.order) (fun x _ => hc.isFull x) (fun x _ => hc.isEmpty x)
      (fun x hx => hbefore x s (hA x hx)) fun x hx => hbefore s x (hR x hx)
  · rw [hfa, List.find?_isSome]
    exact ⟨s, by simp, by simp [h.full]⟩

/-- An element is given back to the cache. -/
theorem Holds.freeElem (h : Holds c out l) (hy : y ∈ out) :
    ∃ c' l', c.freeElem y = some c' ∧ Holds c' (out \ {y}) l' := by
  have hlayout := h.stocked.geometry.layout
  obtain ⟨s, hs, hle, hlt⟩ := h.stocked.cover y hy
  have haligned := (h.stocked.ok s hs).aligned
  have hslab : c.slabOf y = s := slabOf_eq haligned hle hlt
  obtain ⟨A, R, rfl⟩ := List.append_of_mem hs
  obtain ⟨e, hge, hend, hfree, hok, hpos⟩ := (h.stocked.ok s hs).free hlayout hy hle hlt
  have hsAR : s ∉ A ++ R := (List.nodup_cons.mp (List.nodup_middle.mp h.linked.nodup)).1
  have hne : ∀ x ∈ A ++ R, x ≠ s := fun x hx e => hsAR (e ▸ hx)
  have hnotEmpty : c.isEmpty s = false := by
    simp only [isEmpty, decide_eq_false_iff_not]
    omega
  have hstocked : Stocked (c.putEntry s e) (out \ {y}) (A ++ s :: R) := by
    refine h.stocked.touch (putEntry_layout c s e) h.stocked.latest haligned hok
      (fun x hx => Function.update_of_ne hx _ _) (fun x hx => Function.update_of_ne hx _ _)
      (fun x hx => Function.update_of_ne hx _ _) (fun x hx => Function.update_of_ne ?_ _ _)
      (fun z hz => ?_) fun x => by simp only [List.mem_append, List.mem_cons]; tauto
    · rintro rfl
      exact hx ⟨hge, hend⟩
    · rw [Set.mem_sdiff, Set.mem_singleton_iff, and_iff_left_iff_imp]
      rintro _ rfl
      exact hz ⟨hle, hlt⟩
  have hfull₁ : ∀ x ∈ A ++ R, (c.putEntry s e).isFull x = c.isFull x := fun x hx => by
    rw [putEntry_isFull]
    simp [hne x hx]
  have hempty₁ : ∀ x ∈ A ++ R, (c.putEntry s e).isEmpty x = c.isEmpty x :=
    fun x hx => putEntry_isEmpty (hne x hx)
  have hsfull : (c.putEntry s e).isFull s = false := by simp [putEntry_isFull]
  have hbefore : ∀ x ∈ A ++ R, ∀ z ∈ A ++ R, Before c x z → Before (c.putEntry s e) x z := by
    intro x hx z hz hxz
    unfold Before
    rw [hfull₁ x hx, hfull₁ z hz, hempty₁ x hx, hempty₁ z hz]
    exact hxz
  have horder : (A ++ R).Pairwise (Before c) :=
    h.ordered.order.sublist ((List.Sublist.refl A).append (List.sublist_cons_self s R))
  have hret : Returned (c.putEntry s e) (out \ {y}) A R s :=
    ⟨⟨h.linked.links, h.linked.nodup, h.linked.first, h.linked.last⟩, hstocked,
      horder.imp_of_mem fun {x z} hx hz hxz => hbefore x hx z hz hxz, hsfull⟩
  have hpair := h.ordered.order
  rw [List.pairwise_append, List.pairwise_cons] at hpair
  have hself : Requeued (c.putEntry s e) (c.putEntry s e) :=
    ⟨⟨rfl, rfl, rfl⟩, rfl, rfl, rfl, rfl, rfl⟩
  have hout : ∀ l' {c''}, (c.putEntry s e).requeue s (c.isFull s) = some c'' →
      Holds c'' (out \ {y}) l' ∧ c''.firstAvailableSlab.isSome = true →
      ∃ c' l', c.freeElem y = some c' ∧ Holds c' (out \ {y}) l' := by
    rintro l' c'' heq ⟨hh, hsome⟩
    refine ⟨c'', l', ?_, hh⟩
    unfold SlabCache.freeElem
    simp only [hslab, hfree, Option.bind_eq_bind, Option.bind_some, heq, hsome, if_true]
  cases hf : c.isFull s with
  | true =>
    have hA : ∀ x ∈ A, c.isFull x = true := fun x hx => (hpair.2.2 x hx s (by simp)).1 hf
    have hA₁ : ∀ x ∈ A, (c.putEntry s e).isFull x = true := fun x hx => by
      rw [hfull₁ x (List.mem_append_left R hx)]
      exact hA x hx
    have havail : (c.putEntry s e).firstAvailableSlab =
        R.find? fun s_1 => !(c.putEntry s e).isFull s_1 := by
      refine h.ordered.avail.trans ?_
      rw [find_split hA, List.find?_cons, hf]
      refine List.find?_congr fun x hx => ?_
      rw [hfull₁ x (List.mem_append_right A hx)]
    have hRorder : R.Pairwise (Before (c.putEntry s e)) := (List.pairwise_append.mp hret.order).2.1
    obtain ⟨c', B, R', hreq, rfl, hB, hR', hlinked, hfa, hc⟩ :=
      requeueFull_spec hret.linked hA₁ hRorder havail
    have hABfull : ∀ x ∈ A ++ B, (c.putEntry s e).isFull x = true := by
      intro x hx
      rcases List.mem_append.mp hx with hx | hx
      · exact hA₁ x hx
      · exact hB x hx
    refine hout (A ++ B ++ s :: R') (by rw [hf]; exact hreq)
      (hret.holds hc (by simp) hlinked (fun x hx => before_of_full (hABfull x hx) ?_)
        (fun x hx => ⟨fun hfx => ?_, fun hes => ?_⟩) ?_)
    · refine hstocked.not_both ?_ (hABfull x hx)
      simp only [List.mem_append, List.mem_cons] at hx ⊢
      tauto
    · rw [hR' x hx] at hfx
      cases hfx
    · refine hstocked.empty_of_short (by simp [hx]) ?_ (hR' x hx)
      obtain ⟨color, F, U, hp⟩ := h.stocked.ok s hs
      have hcount := hp.count
      have hone : c.inUse s - 1 = 0 := by
        simpa [isEmpty, putEntry] using hes
      have hzero : c.free s = 0 := by simpa [isFull] using hf
      show short c.elemNum = 1
      omega
    · rw [hfa, find_split hABfull, List.find?_cons, hsfull]
      rfl
  | false =>
    have hR : ∀ x ∈ R, c.isFull x = false := by
      intro x hx
      by_contra hfx
      rw [(hpair.2.1.1 x hx).1 (by simpa using hfx)] at hf
      cases hf
    have hR₁ : ∀ x ∈ R, (c.putEntry s e).isFull x = false := fun x hx => by
      rw [hfull₁ x (List.mem_append_right A hx)]
      exact hR x hx
    have havail : (c.putEntry s e).firstAvailableSlab =
        (A ++ s :: R).find? fun s_1 => !(c.putEntry s e).isFull s_1 := by
      refine h.ordered.avail.trans (List.find?_congr fun x hx => ?_)
      rcases eq_or_ne x s with rfl | hx'
      · rw [hf, hsfull]
      · rw [putEntry_isFull]
        simp [hx']
    cases he : (c.putEntry s e).isEmpty s with
    | true =>
      obtain ⟨c', A', R', hreq, hsplit, hRempty, hA', hlinked, hfa, hc⟩ := requeueEmpty_spec
        hret.linked (List.pairwise_append.mp hret.order).2.1 hR₁ hsfull havail
      refine hout (A' ++ s :: R') (by rw [hf, requeue, he]; exact hreq)
        (hret.holds hc hsplit hlinked (fun x hx => ⟨fun hfs => ?_, fun _ => he⟩)
          (fun x hx => ⟨fun hfx => ?_, fun _ => hRempty x hx⟩) hfa)
      · rw [hsfull] at hfs
        cases hfs
      · have hx' : x ∈ A ++ R := hsplit ▸ List.mem_append_right A' hx
        have hmem : x ∈ A ++ s :: R := by
          simp only [List.mem_append, List.mem_cons] at hx' ⊢
          tauto
        have hnot := hstocked.not_both hmem hfx
        rw [hRempty x hx] at hnot
        cases hnot
    | false =>
      refine hout (A ++ s :: R) (by rw [hf, requeue, he]; rfl)
        (hret.holds hself rfl hret.linked (fun x hx => ⟨fun hfs => ?_, fun hex => ?_⟩)
          (fun x hx => ⟨fun hfx => ?_, fun hes => ?_⟩) havail)
      · rw [hsfull] at hfs
        cases hfs
      · rw [hempty₁ x (List.mem_append_left R hx)] at hex
        rw [(hpair.2.2 x hx s (by simp)).2 hex] at hnotEmpty
        cases hnotEmpty
      · rw [hR₁ x hx] at hfx
        cases hfx
      · rw [he] at hes
        cases hes

/-- The last slab is given back if it is empty and not the only one. -/
theorem Holds.reap (h : Holds c out l) :
    ∃ r c' l', c.reap = some (r, c') ∧ Holds c' out l' ∧
      ∀ s, r = some s → ∀ y ∈ out, ¬ (s ≤ y ∧ y < s + c.slabSize) := by
  unfold SlabCache.reap
  cases hf : c.firstSlab with
  | none => exact ⟨none, c, l, rfl, h, by simp⟩
  | some f =>
    obtain ⟨l₁, hl₁⟩ := List.head?_eq_some_iff.mp (h.linked.first.symm.trans hf)
    obtain ⟨l₀, s, hl⟩ : ∃ l₀ s, l = l₀ ++ [s] :=
      ⟨l.dropLast, l.getLast (by simp [hl₁]), (List.dropLast_append_getLast _).symm⟩
    subst hl
    have hlast : c.lastSlab = some s := by
      rw [h.linked.last]
      exact List.getLast?_concat ..
    simp only [hlast, Option.bind_eq_bind, Option.bind_some]
    split
    · exact ⟨none, c, _, rfl, h, by simp⟩
    · rename_i hcond
      rw [not_or, Bool.not_eq_false] at hcond
      obtain ⟨hsf, hempty⟩ := hcond
      have huse : c.inUse s = 0 := by simpa [isEmpty] using hempty
      have hsl₀ : s ∉ l₀ := by
        have hnd := h.linked.nodup
        rw [← List.concat_eq_append, List.nodup_concat] at hnd
        exact hnd.1
      have hnd₀ : l₀.Nodup := h.linked.nodup.sublist (List.sublist_append_left l₀ [s])
      have hne : l₀ ≠ [] := by
        rintro rfl
        cases hl₁
        exact hsf rfl
      have hfree : ∀ y ∈ out, ¬ (s ≤ y ∧ y < s + c.slabSize) := by
        rintro y hy ⟨hle, hlt⟩
        obtain ⟨color, F, U, hp⟩ := h.stocked.ok s (by simp)
        have hU : U = [] := List.length_eq_zero_iff.mp (hp.inUse.symm.trans huse)
        obtain ⟨e, he, -⟩ := (hp.taken y hle hlt).mp hy
        rw [hU] at he
        cases he
      have hlinks := dequeue_links (c := c) (R := []) h.linked.links h.linked.nodup
      rw [List.append_nil] at hlinks
      have hprev : c.prev s = l₀.getLast? := h.linked.prev_eq
      have hfind : (if c.firstAvailableSlab = some s then none else c.firstAvailableSlab) =
          l₀.find? fun x => !c.isFull x := by
        have havail := h.ordered.avail
        rw [List.find?_append] at havail
        cases h₀ : l₀.find? fun x => !c.isFull x with
        | some a =>
          rw [h₀] at havail
          have ha : c.firstAvailableSlab = some a := havail
          have has : a ≠ s := by
            rintro rfl
            exact hsl₀ (List.mem_of_find?_eq_some h₀)
          rw [ha, if_neg (by simp [has])]
        | none =>
          rw [h₀] at havail
          have hs : c.isFull s = false := by
            by_contra hfull
            have hnot := h.stocked.not_both (by simp) (by simpa using hfull : c.isFull s = true)
            rw [hempty] at hnot
            cases hnot
          rw [if_pos (by simpa [hs] using havail)]
      have hfirst : c.firstSlab = l₀.head? := by
        refine h.linked.first.trans ?_
        cases l₀ with
        | nil => exact absurd rfl hne
        | cons x l₀ => rfl
      have hstocked : Stocked c out l₀ := by
        refine ⟨h.stocked.geometry, h.stocked.latest,
          fun x hx => h.stocked.ok x (List.mem_append_left _ hx), fun y hy => ?_⟩
        obtain ⟨x, hx, hxy⟩ := h.stocked.cover y hy
        rcases List.mem_append.mp hx with hx | hx
        · exact ⟨x, hx, hxy⟩
        · rw [List.mem_singleton.mp hx] at hxy
          exact absurd hxy (hfree y hy)
      have horder : l₀.Pairwise (Before c) :=
        h.ordered.order.sublist (List.sublist_append_left l₀ [s])
      let c' : SlabCache :=
        { c.dequeue s with
          firstAvailableSlab := if c.firstAvailableSlab = some s then none else c.firstAvailableSlab
          lastSlab := c.prev s }
      have hsame : Requeued c c' := ⟨⟨rfl, rfl, rfl⟩, rfl, rfl, rfl, rfl, rfl⟩
      refine ⟨some s, c', l₀, ?_, ⟨⟨hlinks, hnd₀, hfirst, hprev⟩, ⟨horder, hfind⟩,
        hsame.stocked hstocked (.refl _)⟩, ?_⟩
      · rw [← hf]
        by_cases hfa : c.firstAvailableSlab = some s
        · simp only [hfa, if_true, c']
          exact if_pos huse
        · simp only [hfa, if_false, c']
          exact if_pos huse
      · rintro _ ⟨⟩
        exact hfree

/-! ## Runs -/

/-- The slab `s` is in the list of the cache. -/
def InCache (c : SlabCache) (s : Nat) : Prop := ∃ l, IsSList c.next c.firstSlab l ∧ s ∈ l

/-- A new cache. -/
structure Initial (c : SlabCache) : Prop where
  geometry : Geometry c
  latestOffset : c.latestOffset = 0
  firstSlab : c.firstSlab = none
  firstAvailableSlab : c.firstAvailableSlab = none
  lastSlab : c.lastSlab = none

/-- What `block_alloc` may return: no block, or one that is aligned to its size and not in the
cache. -/
def BlockOk (c : SlabCache) (block : Option Nat) : Prop :=
  ∀ s, block = some s → c.slabSize ∣ s ∧ ¬ InCache c s

/-- The states of the runs, with the elements that are handed out. -/
inductive Reachable : SlabCache → Set Nat → Prop
  | initial {c : SlabCache} : Initial c → Reachable c ∅
  | alloc {c c' : SlabCache} {out : Set Nat} {block r : Option Nat} : Reachable c out →
    BlockOk c block → c.alloc block = some (r, c') → Reachable c' {y | y ∈ out ∨ r = some y}
  | free {c c' : SlabCache} {out : Set Nat} {y : Nat} : Reachable c out → y ∈ out →
    c.freeElem y = some c' → Reachable c' (out \ {y})
  | reap {c c' : SlabCache} {out : Set Nat} {r : Option Nat} : Reachable c out →
    c.reap = some (r, c') → Reachable c' out

theorem Linked.inCache (h : Linked c l) : InCache c s ↔ s ∈ l := by
  have hl : IsSList c.next c.firstSlab l := by
    rw [h.first]
    exact h.links.isSList
  constructor
  · rintro ⟨l', hl', hs⟩
    rw [hl.unique hl']
    exact hs
  · exact fun hs => ⟨l, hl, hs⟩

theorem Linked.blockOk (h : Linked c l) {block : Option Nat} (hb : BlockOk c block) :
    ∀ s, block = some s → c.slabSize ∣ s ∧ s ∉ l := by
  intro s hs
  rw [← h.inCache]
  exact hb s hs

theorem Initial.holds (h : Initial c) : Holds c ∅ [] := by
  refine ⟨⟨trivial, List.nodup_nil, h.firstSlab, h.lastSlab⟩, ⟨.nil, h.firstAvailableSlab⟩,
    ⟨h.geometry, ?_, by simp, by simp⟩⟩
  rw [h.latestOffset, Nat.add_zero]
  exact h.geometry.layout.fits

theorem Reachable.holds (h : Reachable c out) : ∃ l, Holds c out l := by
  induction h with
  | initial h => exact ⟨[], h.holds⟩
  | alloc _ hb ha ih =>
    obtain ⟨l, hl⟩ := ih
    obtain ⟨r, c', l', ha', -, h'⟩ := hl.alloc (hl.linked.blockOk hb)
    cases ha.symm.trans ha'
    exact ⟨l', h'⟩
  | free _ hy hf ih =>
    obtain ⟨l, hl⟩ := ih
    obtain ⟨c', l', hf', h'⟩ := hl.freeElem hy
    cases hf.symm.trans hf'
    exact ⟨l', h'⟩
  | reap _ hr ih =>
    obtain ⟨l, hl⟩ := ih
    obtain ⟨r, c', l', hr', h', -⟩ := hl.reap
    cases hr.symm.trans hr'
    exact ⟨l', h'⟩

/-- An element that is handed out lies in a slab of the cache, behind the header. -/
theorem Holds.element (h : Holds c out l) (hy : y ∈ out) :
    c.slabOf y ∈ l ∧ c.slabOf y + slabDataSize ≤ y ∧ y + c.elemSize ≤ c.slabOf y + c.slabSize := by
  obtain ⟨s, hs, hle, hlt⟩ := h.stocked.cover y hy
  obtain ⟨color, F, U, hp⟩ := h.stocked.ok s hs
  obtain ⟨e, he, rfl⟩ := (hp.taken y hle hlt).mp hy
  have hb := hp.bounds h.stocked.geometry.layout (List.mem_append_right F he)
  rw [slabOf_eq hp.aligned hle hlt]
  exact ⟨hs, by omega, by omega⟩

/-- Two elements that are handed out do not overlap. -/
theorem Holds.disjoint (h : Holds c out l) {z : Nat} (hy : y ∈ out) (hz : z ∈ out) (hlt : y < z) :
    y + c.elemSize ≤ z := by
  have hlayout := h.stocked.geometry.layout
  obtain ⟨s, hs, hle, hend⟩ := h.stocked.cover y hy
  obtain ⟨color, F, U, hp⟩ := h.stocked.ok s hs
  obtain ⟨e, he, rfl⟩ := (hp.taken y hle hend).mp hy
  have hb := hp.bounds hlayout (List.mem_append_right F he)
  by_cases hin : z < s + c.slabSize
  · obtain ⟨e', he', rfl⟩ := (hp.taken z (by omega) hin).mp hz
    obtain ⟨i, -, rfl⟩ := mem_entries.mp (hp.entries.mem_iff.mp (List.mem_append_right F he))
    obtain ⟨j, -, rfl⟩ := mem_entries.mp (hp.entries.mem_iff.mp (List.mem_append_right F he'))
    have hij : i < j := by
      by_contra hji
      have hmul := Nat.mul_le_mul_left c.entrySize (Nat.le_of_not_lt hji)
      omega
    have hmul : c.entrySize * (i + 1) ≤ c.entrySize * j := Nat.mul_le_mul_left _ hij
    rw [Nat.mul_succ] at hmul
    have hentry := hlayout.entry
    omega
  · omega

/-- A cache of elements of 100 bytes in slabs of one page. -/
def pageCache : SlabCache where
  slabSize := 4096
  elemSize := 100
  alignment := 4
  latestOffset := 0
  firstSlab := none
  firstAvailableSlab := none
  lastSlab := none
  firstFree _ := none
  next _ := none
  prev _ := none
  inUse _ := 0
  free _ := 0
  nextFree _ := none

end L4env.Fiasco.SlabCache
