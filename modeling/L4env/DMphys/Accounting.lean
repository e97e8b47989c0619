import L4env.Util.Spans
import L4env.DMphys.PoolRun

/-!
# Accounting for free memory

`pool->free` is the number of bytes of the free areas of a pool (`Inv.free_eq`). Every byte of a pool is
free, in a list of areas of a caller, or in an area that backs the descriptor memory, so what a call
hands out is what `free` loses, and what the descriptor memory gives up is what it gains.
-/

namespace L4env.DMphys

/-- The addresses of the free areas of pool `P`. -/
def freeBytes (s : State) (A : Nat → Set Ptr) (H : List Ptr) (P : Nat) : Set Nat :=
  {x | ∃ a ∈ freeAreas s A H P, s.addr a ≤ x ∧ x < s.addr a + s.size a}

/-- The addresses in the areas of pool `P` that the descriptor memory gave up between `s` and `s'`. -/
def State.givenUp (s s' : State) (A : Nat → Set Ptr) (P : Nat) : Set Nat :=
  {x | ∃ a ∈ s.internalAreas, a ∉ s'.internalAreas ∧ a ∈ A P ∧ s.addr a ≤ x ∧
    x < s.addr a + s.size a}

/-- The addresses of pool `P` in no area of `H` and in none of the descriptor memory. -/
def restBytes (s : State) (A : Nat → Set Ptr) (H : List Ptr) (P : Nat) : Set Nat :=
  {x | Covered s A P x ∧ ∀ a ∈ H ++ s.internalAreas, a ∈ A P →
    ¬(s.addr a ≤ x ∧ x < s.addr a + s.size a)}

section
variable {s s' : State} {A A' : Nat → Set Ptr} {H c c' : List Ptr} {D : Nat → Set Ptr} {P : Nat}
  {q q' : Option Ptr}

/-! ## The free bytes of a pool -/

theorem FreeInv.exists_list (h : FreeInv s D) (P : Nat) : ∃ l : List Ptr, l.Nodup ∧
    (∀ a, a ∈ l ↔ a ∈ D P) ∧ (s.pools P).free = (l.map s.size).sum % 4294967296 := by
  obtain ⟨F, HF, hD⟩ := h
  refine ⟨(List.range numFreeLists).flatMap (F P), ?_, fun a => ?_, ?_⟩
  · refine List.nodup_flatMap.mpr ⟨fun k _ => HF.nodup P k, ?_⟩
    refine List.nodup_range.imp fun {j k} hjk => ?_
    exact fun a hj hk => hjk (HF.disj P j P k a hj hk).2
  · rw [← hD, List.mem_flatMap]
    constructor
    · rintro ⟨k, -, ha⟩
      exact ⟨k, ha⟩
    · rintro ⟨k, ha⟩
      exact ⟨k, List.mem_range.mpr (HF.cls P k a ha ▸ getFreeList_lt _), ha⟩
  · rw [HF.sum P, ← List.toFinset_range, List.sum_toFinset _ List.nodup_range, List.map_flatMap]
    simp only [List.flatMap, List.sum_flatten, List.map_map]
    rfl

theorem Inv.exists_free (I : Inv s A H none) (P : Nat) : ∃ l : List Ptr, l.Pairwise (Apart s.addr s.size) ∧
    freeBytes s A H P = spans s.addr s.size l ∧
    (s.pools P).free = (l.map s.size).sum := by
  obtain ⟨l, hnd, hmem, hfree⟩ := I.free.exists_list P
  have hA : ∀ a ∈ l, a ∈ A P := fun a ha => ((hmem a).mp ha).1
  have hap : l.Pairwise (Apart s.addr s.size) :=
    hnd.pairwise_of_forall_ne fun a ha b hb hne => I.area.apart (hA a ha) (hA b hb) hne
  refine ⟨l, hap, ?_, ?_⟩
  · ext x
    simp only [freeBytes, Set.mem_ofPred_eq, mem_spans, hmem]
  · have hle : (spans s.addr s.size l).ncard ≤ 4294967295 := ncard_spans_le fun a ha => by
      have := (I.area.range (hA a ha)).bound
      omega
    rw [ncard_spans hap] at hle
    rw [hfree]
    omega

/-- `pool->free` is the number of bytes in the free areas. -/
theorem Inv.free_eq (I : Inv s A H none) (P : Nat) :
    (s.pools P).free = (freeBytes s A H P).ncard := by
  obtain ⟨l, hap, hbytes, hfree⟩ := I.exists_free P
  rw [hbytes, ncard_spans hap, hfree]

theorem Inv.finite_freeBytes (I : Inv s A H none) (P : Nat) : (freeBytes s A H P).Finite := by
  obtain ⟨l, -, hbytes, -⟩ := I.exists_free P
  rw [hbytes]
  exact finite_spans _ _ l

/-! ## What is in no list of another caller -/

/-- What the others do not hold is free or in the areas of the list. -/
theorem Chain.restBytes_eq (C : Chain s A H P q c) :
    restBytes s A H P = freeBytes s A (c ++ H) P ∪ spans s.addr s.size c := by
  have hown := C.inv.owned
  ext x
  constructor
  · rintro ⟨⟨a, ha, hx⟩, hno⟩
    by_cases hac : a ∈ c
    · exact .inr ⟨a, hac, hx⟩
    · refine .inl ⟨a, ⟨ha, fun h => ?_, fun h => hno a (List.mem_append_right _ h) ha hx⟩, hx⟩
      rcases List.mem_append.mp h with h | h
      · exact hac h
      · exact hno a (List.mem_append_left _ h) ha hx
  · -- an area that holds `x` is no other than the one that does
    have hone : ∀ a ∈ A P, s.addr a ≤ x ∧ x < s.addr a + s.size a → a ∉ H ++ s.internalAreas →
        x ∈ restBytes s A H P := by
      intro a ha hx hna
      refine ⟨⟨a, ha, hx⟩, fun b hb hbP hbx => ?_⟩
      have hne : a ≠ b := fun e => hna (e ▸ hb)
      have := C.inv.area.apart ha hbP hne
      omega
    rintro (⟨a, ⟨ha, hH, hI⟩, hx⟩ | ⟨a, ha, hx⟩)
    · refine hone a ha hx fun h => ?_
      rcases List.mem_append.mp h with h | h
      · exact hH (List.mem_append_right _ h)
      · exact hI h
    · refine hone a (C.mem a ha) hx fun h => ?_
      rw [List.append_assoc] at hown
      exact (List.nodup_append.mp hown).2.2 a ha a h rfl

theorem Chain.ncard_restBytes (C : Chain s A H P q c) :
    (restBytes s A H P).ncard = (s.pools P).free + s.total c := by
  have hnd := (List.nodup_append.mp (List.nodup_append.mp C.inv.owned).1).1
  have hap : c.Pairwise (Apart s.addr s.size) :=
    hnd.pairwise_of_forall_ne fun a ha b hb hne => C.inv.area.apart (C.mem a ha) (C.mem b hb) hne
  have hdisj : Disjoint (freeBytes s A (c ++ H) P) (spans s.addr s.size c) := by
    rw [Set.disjoint_left]
    rintro x ⟨a, ha, h1, h2⟩ ⟨b, hb, h3, h4⟩
    have hne : a ≠ b := fun e => ha.2.1 (List.mem_append_left H (e ▸ hb))
    have := C.inv.area.apart ha.1 (C.mem b hb) hne
    omega
  rw [C.restBytes_eq, Set.ncard_union_eq hdisj (C.inv.finite_freeBytes P) (finite_spans _ _ _),
    ncard_spans hap, ← C.inv.free_eq P]
  rfl

/-- A call that leaves the areas `H` alone adds to the rest what the descriptor memory gives up. -/
theorem Frame.restBytes_eq (hF : Frame s A s' A' (· ∈ H)) (hk : s.Retains s')
    (I : Inv s A (c ++ H) none) (I' : Inv s' A' (c' ++ H) none) :
    restBytes s' A' H P = restBytes s A H P ∪ s.givenUp s' A P := by
  have hmemH : ∀ a ∈ H, a ∈ A' P → a ∈ A P := by
    intro a ha hP
    obtain ⟨Q, hQ⟩ := I.held a (List.mem_append_right c ha)
    obtain rfl := I'.area.disj (hF.mem a ha Q hQ) hP
    exact hQ
  have hmemI : ∀ a ∈ s'.internalAreas, (a ∈ A' P ↔ a ∈ A P) := by
    intro a ha
    have h := I.internal a (hk.areas a ha)
    have h' := I'.internal a ha
    exact ⟨fun hP => I'.area.disj hP h' ▸ h, fun hP => I.area.disj hP h ▸ h'⟩
  ext x
  constructor
  · rintro ⟨hcov, hno⟩
    by_cases hx : x ∈ s.givenUp s' A P
    · exact .inr hx
    refine .inl ⟨(hF.cover P x).mp hcov, fun a ha hP hax => ?_⟩
    rcases List.mem_append.mp ha with ha | ha
    · refine hno a (List.mem_append_left _ ha) (hF.mem a ha P hP) ?_
      rwa [hF.addr a ha, hF.size a ha]
    · by_cases ha' : a ∈ s'.internalAreas
      · refine hno a (List.mem_append_right _ ha') ((hmemI a ha').mpr hP) ?_
        rwa [(hk.range a ha').1, (hk.range a ha').2]
      · exact hx ⟨a, ha, ha', hP, hax⟩
  · rintro (⟨hcov, hno⟩ | ⟨a, ha, ha', hP, hax⟩)
    · refine ⟨(hF.cover P x).mpr hcov, fun a ha hP hax => ?_⟩
      rcases List.mem_append.mp ha with ha | ha
      · rw [hF.addr a ha, hF.size a ha] at hax
        exact hno a (List.mem_append_left _ ha) (hmemH a ha hP) hax
      · rw [(hk.range a ha).1, (hk.range a ha).2] at hax
        exact hno a (List.mem_append_right _ (hk.areas a ha)) ((hmemI a ha).mp hP) hax
    · refine ⟨(hF.cover P x).mpr ⟨a, hP, hax⟩, fun b hb hbP hbx => ?_⟩
      have hown := I.owned
      rcases List.mem_append.mp hb with hb | hb
      · rw [hF.addr b hb, hF.size b hb] at hbx
        have hne : b ≠ a := fun e =>
          (List.nodup_append.mp hown).2.2 b (List.mem_append_right c hb) a ha e
        have := I.area.apart (hmemH b hb hbP) hP hne
        omega
      · rw [(hk.range b hb).1, (hk.range b hb).2] at hbx
        have hne : b ≠ a := fun e => ha' (e ▸ hb)
        have := I.area.apart ((hmemI b hb).mp hbP) hP hne
        omega

theorem State.KeepsInternal.givenUp_eq (h : s.KeepsInternal s') : s.givenUp s' A P = ∅ := by
  ext x
  simp only [State.givenUp, Set.mem_ofPred_eq, Set.mem_empty_iff_false, iff_false]
  rintro ⟨a, ha, ha', -⟩
  exact ha' (h.all a ha)

/-- What the list gains the pool's `free` loses. -/
theorem Chain.free_total (C : Chain s A H P q c) (C' : Chain s' A' H P q' c')
    (hF : Frame s A s' A' (· ∈ H)) (hk : s.KeepsInternal s') :
    (s'.pools P).free + s'.total c' = (s.pools P).free + s.total c := by
  rw [← C.ncard_restBytes, ← C'.ncard_restBytes,
    hF.restBytes_eq hk.toRetains C.inv C'.inv, hk.givenUp_eq, Set.union_empty]

/-- A call that hands out nothing: what the descriptor memory gives up is free, nothing else is. -/
theorem Leaves.freeBytes_eq (L : Leaves s A H H s' A') (hk : s.Retains s') (I : Inv s A H none) :
    freeBytes s' A' H P = freeBytes s A H P ∪ s.givenUp s' A P ∧
      (s'.pools P).free = (s.pools P).free + (s.givenUp s' A P).ncard := by
  have C : Chain s A H P none [] := ⟨I, rfl, by simp⟩
  have C' : Chain s' A' H P none [] := ⟨L.inv, rfl, by simp⟩
  have hbytes : restBytes s' A' H P = restBytes s A H P ∪ s.givenUp s' A P :=
    L.frame.restBytes_eq hk C.inv C'.inv
  rw [C.restBytes_eq, C'.restBytes_eq, spans_nil, spans_nil, Set.union_empty, Set.union_empty,
    List.nil_append] at hbytes
  have hdisj : Disjoint (freeBytes s A H P) (s.givenUp s' A P) := by
    rw [Set.disjoint_left]
    rintro x ⟨a, ha, h1, h2⟩ ⟨b, hb, -, hbP, h3, h4⟩
    have hne : a ≠ b := fun e => ha.2.2 (e ▸ hb)
    have := I.area.apart ha.1 hbP hne
    omega
  have hfin : (s.givenUp s' A P).Finite :=
    (L.inv.finite_freeBytes P).subset (hbytes ▸ Set.subset_union_right)
  refine ⟨hbytes, ?_⟩
  rw [L.inv.free_eq P, hbytes, Set.ncard_union_eq hdisj (I.finite_freeBytes P) hfin, I.free_eq P]

end

/-! ## The calls for user memory -/

/-- The calls of the interface that hand out memory. -/
inductive UserCall
  | allocate (size alignment flags : Nat)
  | allocateArea (addr size : Nat)
  | enlarge (pages : Ptr) (size : Nat)
  | add (pages : Ptr) (size : Nat)

namespace UserCall

/-- The list of areas that the call extends. -/
def pages : UserCall → Option Ptr
  | .allocate _ _ _ | .allocateArea _ _ => none
  | .enlarge pages _ | .add pages _ => some pages

/-- The size that the call checks against the available memory. -/
def size : UserCall → Nat
  | .allocate size _ _ | .allocateArea _ size | .enlarge _ size | .add _ size => size

/-- The size that the call hands out. -/
def granted : UserCall → Nat
  | .allocate size _ flags => L4env.DMphys.granted flags size
  | .allocateArea _ size | .enlarge _ size | .add _ size => size

/-- The call with priority `PAGES_USER`; `none` where it fails. -/
def run (s : State) (pool : Nat) : UserCall → Except Panic (Option Ptr × State)
  | .allocate size alignment flags => s.dmphysPagesAllocate pool size alignment flags .user
  | .allocateArea addr size => s.dmphysPagesAllocateArea pool addr size .user
  | .enlarge pages size => do
    let (e, s) ← s.dmphysPagesEnlarge pool pages size .user
    pure (if e.isNone then some pages else none, s)
  | .add pages size => do
    let (e, s) ← s.dmphysPagesAdd pool pages size .user
    pure (if e.isNone then some pages else none, s)

/-- What all callers pass: sizes of whole pages, page aligned addresses, powers of two. -/
def Valid : UserCall → Prop
  | .allocate size alignment _ => Config.PageSizes size ∧ IsAlignment alignment
  | .allocateArea addr size => Config.PageSizes size ∧ addr % pageSize = 0
  | .enlarge _ size | .add _ size => Config.PageSizes size

/-- The size rounded up to superpages does not vanish, and the range that is asked for ends below
`2 ^ 32`. -/
def Fits (s : State) (pool : Nat) : UserCall → Prop
  | .allocate size _ flags => s.available pool size .user = true → State.superPages flags = true →
      State.contiguous flags = true → Word.roundUp size superPageSize ≠ 0
  | .allocateArea addr size => s.available pool size .user = true → Config.FreeAt s pool addr →
      addr + size < 4294967296
  | .enlarge _ _ | .add _ _ => True

/-- What a call leaves of the memory of pool `P`, given that the caller holds the list `c` and others
hold the areas `H`. -/
structure Accounted (call : UserCall) (s : State) (A : Nat → Set Ptr) (H : List Ptr) (P : Nat)
    (c : List Ptr) (r : Option Ptr × State) : Prop where
  reserved : (r.2.pools P).reserved = (s.pools P).reserved
  keeps : r.1 = none ∨ call.granted = call.size → (r.2.pools P).reserved ≤ (r.2.pools P).free
  granted : ∀ h, r.1 = some h → (r.2.pools P).free + call.granted = (s.pools P).free ∧
    ∃ A' c', Chain r.2 A' H P (some h) c' ∧ c <+: c' ∧ r.2.total c' = s.total c + call.granted
  refused : r.1 = none → (r.2.pools P).free = (s.pools P).free + (s.givenUp r.2 A P).ncard ∧
    ∃ A', Inv r.2 A' (c ++ H) none ∧
      freeBytes r.2 A' (c ++ H) P = freeBytes s A (c ++ H) P ∪ s.givenUp r.2 A P

section
variable {s s' : State} {A A' : Nat → Set Ptr} {H c c' : List Ptr} {P m : Nat} {q : Option Ptr}
  {call : UserCall} {single : Bool} {r : Option Ptr × State}

theorem Accounted.of_leaves (L : Leaves s A (c ++ H) (c ++ H) s' A') (hk : s.Retains s')
    (I : Inv s A (c ++ H) none) (hres : (s.pools P).reserved ≤ (s.pools P).free) :
    call.Accounted s A H P c (none, s') := by
  obtain ⟨hbytes, hfree⟩ := L.freeBytes_eq (P := P) hk I
  refine ⟨hk.reserved P, fun _ => ?_, by simp, fun _ => ⟨hfree, A', L.inv, hbytes⟩⟩
  simp only [hk.reserved P, hfree]
  omega

theorem Accounted.refl (I : Inv s A (c ++ H) none)
    (hres : (s.pools P).reserved ≤ (s.pools P).free) : call.Accounted s A H P c (none, s) :=
  .of_leaves (.refl I) (.refl s) I hres

/-- A call that succeeds: the check of the available memory was passed. -/
theorem Accounted.of_chain {h : Ptr} (C : Chain s A H P q c) (C' : Chain s' A' H P (some h) c')
    (hF : Frame s A s' A' (· ∈ H)) (hk : s.KeepsInternal s') (hpre : c <+: c')
    (htotal : s'.total c' = s.total c + call.granted)
    (hav : s.available P call.size .user = true) :
    call.Accounted s A H P c (some h, s') := by
  have hfree := C.free_total C' hF hk
  have hfree : (s'.pools P).free + call.granted = (s.pools P).free := by omega
  have hlt : (s.pools P).free < 4294967296 := by
    obtain ⟨l, -, -, he⟩ := C.inv.free.exists_list P
    rw [he]
    exact Nat.mod_lt _ (by decide)
  refine ⟨hk.reserved P, fun hg => ?_, ?_, by simp⟩
  · simp only [reduceCtorEq, false_or] at hg
    simp only [State.available, beq_self_eq_true, Bool.true_and, Bool.and_eq_true,
      decide_eq_true_eq, Bool.not_eq_true', decide_eq_false_iff_not] at hav
    rw [Word.sub_eq hav.1 hlt] at hav
    simp only [hk.reserved P]
    omega
  · rintro _ ⟨⟩
    exact ⟨hfree, A', c', C', hpre, htotal⟩

/-- The calls that return a new list. -/
theorem Accounted.of_allocOk (h : AllocOk s A H P call.granted single r) (I : Inv s A H none)
    (hres : (s.pools P).reserved ≤ (s.pools P).free)
    (hav : s.available P call.size .user = true) : call.Accounted s A H P [] r := by
  obtain ⟨o, s'⟩ := r
  cases o with
  | none =>
    obtain ⟨A', L, hk⟩ := h
    exact .of_leaves L hk I hres
  | some p =>
    obtain ⟨c', A', E, -⟩ := h
    have C : Chain s A H P none [] := ⟨I, rfl, by simp⟩
    have ht := E.total
    refine .of_chain C E.chain E.frame E.kept (List.nil_prefix) ?_ hav
    omega

/-- The panics of a call: no page for a descriptor, or an enlarge of a list with several areas. -/
def Refusal (s : State) (c : List Ptr) : UserCall → Panic → Prop
  | .enlarge pages _, e => e = .assertion ∧ c ≠ [pages]
  | _, e => s.NoPage e

theorem nil_of_new (C : Chain s A H P none c) : c = [] := by
  have hl := C.links
  cases c with
  | nil => rfl
  | cons a c => cases hl.1

theorem accounted_allocate {n al flags : Nat} (I : Inv s A H none) (hroom : s.Room)
    (hres : (s.pools P).reserved ≤ (s.pools P).free) (hv : (allocate n al flags).Valid)
    (hfit : (allocate n al flags).Fits s P) :
    Meets ((allocate n al flags).run s P) ((allocate n al flags).Accounted s A H P []) s.NoPage := by
  obtain ⟨⟨hn, hpos, hlt⟩, hal⟩ := hv
  cases hav : s.available P n .user with
  | false =>
    refine Meets.of_eq_ok ?_ (.refl I hres)
    unfold run State.dmphysPagesAllocate
    exact if_pos hav
  | true =>
    exact (I.dmphysPagesAllocate hroom hal hn hpos hlt (hfit hav) .user).imp fun r hr =>
      .of_allocOk hr I hres hav

theorem accounted_allocateArea {y n : Nat} (I : Inv s A H none)
    (hres : (s.pools P).reserved ≤ (s.pools P).free) (hv : (allocateArea y n).Valid)
    (hfit : (allocateArea y n).Fits s P) :
    Meets ((allocateArea y n).run s P) ((allocateArea y n).Accounted s A H P []) s.NoPage := by
  obtain ⟨⟨hn, hpos, -⟩, hy⟩ := hv
  cases hav : s.available P n .user with
  | false =>
    refine Meets.of_eq_ok ?_ (.refl I hres)
    unfold run State.dmphysPagesAllocateArea
    exact if_pos hav
  | true =>
    by_cases hfree : Config.FreeAt s P y
    · exact (I.dmphysPagesAllocateArea hy hn hpos (hfit hav hfree) .user).imp fun r hr =>
        .of_allocOk hr I hres hav
    · refine Meets.of_eq_ok ?_ (.refl I hres)
      change s.dmphysPagesAllocateArea P y n .user = _
      unfold State.dmphysPagesAllocateArea
      rw [if_neg (by simp [hav])]
      exact allocateArea_refuses I hfree

theorem accounted_enlarge {p n : Nat} (C : Chain s A H P (some p) c) (hroom : s.Room)
    (hres : (s.pools P).reserved ≤ (s.pools P).free) (hv : (enlarge p n).Valid) :
    Meets ((enlarge p n).run s P) ((enlarge p n).Accounted s A H P c)
      fun e => e = .assertion ∧ c ≠ [p] := by
  obtain ⟨hn, hpos, -⟩ := hv
  cases hav : s.available P n .user with
  | false =>
    obtain ⟨e, heq⟩ : ∃ e, s.dmphysPagesEnlarge P p n .user = .ok (some e, s) := by
      unfold State.dmphysPagesEnlarge
      split
      · exact ⟨_, rfl⟩
      · exact ⟨_, rfl⟩
    refine Meets.of_eq_ok ?_ (.refl C.inv hres)
    simp only [run, heq, ok_bind]
    rfl
  | true =>
    refine (C.dmphysPagesEnlarge hroom hn hpos .user).bind ?_
    rintro ⟨o, s'⟩ (⟨ho, rfl⟩ | ⟨rfl, rfl, A', hR, htotal, hk, -⟩)
    · have : o.isNone = false := Option.isNone_eq_false_iff.mpr (Option.isSome_iff_ne_none.mpr ho)
      simp only [this]
      exact .refl C.inv hres
    · exact .of_chain C hR.chain hR.frame hk (List.prefix_refl _) htotal hav

theorem accounted_add {p n : Nat} (C : Chain s A H P (some p) c) (hroom : s.Room)
    (hres : (s.pools P).reserved ≤ (s.pools P).free) (hv : (add p n).Valid) :
    Meets ((add p n).run s P) ((add p n).Accounted s A H P c) s.NoPage := by
  obtain ⟨hn, hpos, hlt⟩ := hv
  cases hav : s.available P n .user with
  | false =>
    have heq : s.dmphysPagesAdd P p n .user = .ok (some .enomem, s) := by
      unfold State.dmphysPagesAdd
      rw [if_pos hav]
      rfl
    refine Meets.of_eq_ok ?_ (.refl C.inv hres)
    simp only [run, heq, ok_bind]
    rfl
  | true =>
    refine (C.dmphysPagesAdd hroom hn hpos hlt .user).bind ?_
    rintro ⟨o, s'⟩ (⟨ho, A', L, hk⟩ | ⟨rfl, A', c', hR, htotal, hk, -⟩)
    · have : o.isNone = false := Option.isNone_eq_false_iff.mpr (Option.isSome_iff_ne_none.mpr ho)
      simp only [this]
      exact .of_leaves L hk C.inv hres
    · exact .of_chain C hR.chain hR.frame hk (List.prefix_append c c') htotal hav

end

/-! ## Where the reserve and the free memory change -/

/-- A pool of one superpage that reserves a page. -/
def oneSuperPage : Config :=
  (Config.mk (.init (fun _ => none) (fun _ => 0x1000) .plain) [] []).next .plain
    (.addFreeArea 0 0x400000 0x400000)

theorem oneSuperPage_reachable :
    Reachable (fun c slab op => c.Valid op ∧ c.Safe slab op) oneSuperPage := by
  refine Reachable.next (.init _ _ _) ⟨?_, ?_⟩ (by decide +kernel)
  · exact ⟨⟨by decide, by decide, by decide⟩, by decide, by decide, by simp⟩
  · exact ⟨by decide, by decide⟩

/-- A slab cache that takes a page. -/
def growing : Slab := { Slab.plain with grow := [true] }

/-- A slab cache that hands a page back. -/
def giving : Slab := { Slab.plain with back := [some 0] }

/-- The configuration after the slab caches took `n` pages. -/
def grown (c : Config) : Nat → Config
  | 0 => c
  | n + 1 => (grown c n).next growing .grow

/-- Sixty pages, of which half are for descriptors. -/
def sixtyPages : Config :=
  ((Config.mk (.init (fun _ => none) (fun _ => 0) .plain) [] []).next .plain
    (.addFreeArea 0 0x1000 0x3c000)).next .plain .update

/-- The descriptor memory has no entry for a page that the slab caches hand back; three pages are
free. -/
def allTaken : Config := (grown sixtyPages 25).next .plain .update

theorem reachable_next {G : Config → Slab → Op → Prop} {c : Config} {slab : Slab} {op : Op}
    (h : Reachable G c) (hg : G c slab op) : Reachable G (c.next slab op) := by
  unfold Config.next
  cases heq : c.exec slab op with
  | ok c' => exact h.step hg heq
  | error e => exact h

theorem grown_reachable {c : Config} {n : Nat}
    (h : Reachable (fun c slab op => c.Valid op ∧ c.Safe slab op) c)
    (hroom : ∀ k < n, (grown c k).st.freedAreas.length ≤ intMaxFreed) :
    Reachable (fun c slab op => c.Valid op ∧ c.Safe slab op) (grown c n) := by
  induction n with
  | zero => exact h
  | succ n ih =>
    have := hroom n (Nat.lt_succ_self n)
    exact reachable_next (ih fun k hk => hroom k (Nat.lt_succ_of_lt hk)) ⟨trivial, this, trivial⟩

theorem allTaken_reachable :
    Reachable (fun c slab op => c.Valid op ∧ c.Safe slab op) allTaken := by
  refine reachable_next (grown_reachable (reachable_next (reachable_next (.init _ _ _) ⟨?_, ?_⟩)
    ⟨trivial, ?_, trivial⟩) (by decide +kernel)) ⟨trivial, by decide +kernel, trivial⟩
  · exact ⟨⟨by decide, by decide, by decide⟩, by decide, by decide, by simp⟩
  · exact ⟨by decide, by decide⟩
  · decide +kernel

/-- An allocation that fails, where the slab caches hand a page back. -/
theorem allTaken_run : (allTaken.st.pools 0).free = 0x3000 ∧
    (allTaken.st.pools 0).reserved ≤ (allTaken.st.pools 0).free ∧
    (match run { allTaken.st with slab := giving } 0 (allocate 0x3000 0x2000 0) with
      | .ok r => r.1 == none && (r.2.pools 0).free == 0x4000
      | .error _ => false) = true := by
  decide +kernel

end UserCall

end L4env.DMphys
