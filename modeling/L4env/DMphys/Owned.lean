import L4env.DMphys.PoolRun
import L4env.DMphys.Server

/-!
# The page areas of dataspaces

`Owned s A l f` says that the dataspaces `l` own lists of page areas: `f` gives the areas of the
dataspace with an id. The parts of a request keep it, and none of them panics as long as the descriptor
memory has the pages it needs.
-/

namespace L4env.DMphys

/-- The list of areas that a dataspace owns. -/
def Dataspace.held (f : Nat → List Ptr) (d : Dataspace) : Held := ⟨d.pool, d.pages, f d.id⟩

structure Owned (s : State) (A : Nat → Set Ptr) (l : List Dataspace) (f : Nat → List Ptr) : Prop where
  holds : Holds s A (l.map (·.held f))
  size : ∀ d ∈ l, d.size = s.total (f d.id)
  single : ∀ d ∈ l, State.contiguous d.flags = true → (f d.id).length = 1

/-- What every part of a request leaves alone: the memory of the pools and the descriptor memory. -/
def Kept (s : State) (A : Nat → Set Ptr) (s' : State) (A' : Nat → Set Ptr) : Prop :=
  Frame s A s' A' fun _ => False

/-- A step that leaves the areas of the dataspaces alone. -/
def KeptAreas (l : List Dataspace) (f : Nat → List Ptr) (s : State) (A : Nat → Set Ptr) (s' : State)
    (A' : Nat → Set Ptr) : Prop :=
  Frame s A s' A' (· ∈ heldAreas (l.map (·.held f)))

/-- The descriptor memory has the pages that a request needs and room for those it gets back. -/
structure State.Ready (s : State) : Prop where
  enough : s.Enough
  room : s.Room

section
variable {s s' s'' : State} {A A' A'' : Nat → Set Ptr} {l l' : List Dataspace}
  {f f' : Nat → List Ptr} {K : Ptr → Prop} {d : Dataspace} {α β : Type}

theorem Frame.kept (h : Frame s A s' A' K) : Kept s A s' A' := h.mono fun _ h => h.elim

theorem Kept.refl (s : State) (A : Nat → Set Ptr) : Kept s A s A := Frame.refl s A _

theorem Kept.trans (h : Kept s A s' A') (h' : Kept s' A' s'' A'') : Kept s A s'' A'' :=
  Frame.trans h h'

theorem Kept.ready (h : Kept s A s' A') (hr : s.Ready) : s'.Ready :=
  ⟨h.steady.enough hr.enough, h.steady.room hr.room⟩

theorem KeptAreas.kept (h : KeptAreas l f s A s' A') : Kept s A s' A' := Frame.kept h

theorem KeptAreas.refl (l : List Dataspace) (f : Nat → List Ptr) (s : State) (A : Nat → Set Ptr) :
    KeptAreas l f s A s A := Frame.refl s A _

theorem KeptAreas.trans (h : KeptAreas l f s A s' A') (h' : KeptAreas l f s' A' s'' A'') :
    KeptAreas l f s A s'' A'' := Frame.trans h h'

theorem KeptAreas.ready (h : KeptAreas l f s A s' A') (hr : s.Ready) : s'.Ready := h.kept.ready hr

/-- A step that fails only without a page for the descriptor memory does not fail. -/
theorem State.Ready.meets (hr : s.Ready) {r : Except Panic α} {Q : α → Prop}
    (h : Meets r Q s.NoPage) : Meets r Q fun _ => False :=
  h.mono (fun _ h => h) fun _ he => he.2 hr.enough

theorem Owned.perm (h : Owned s A l f) (hp : l.Perm l') : Owned s A l' f :=
  ⟨h.holds.perm (hp.map _), fun d hd => h.size d (hp.mem_iff.mpr hd),
    fun d hd => h.single d (hp.mem_iff.mpr hd)⟩

/-- The areas of a dataspace are areas in use. -/
theorem mem_heldAreas (hd : d ∈ l) (ha : a ∈ f d.id) : a ∈ heldAreas (l.map (·.held f)) :=
  areas_mem_heldAreas (x := d.held f) (List.mem_map.mpr ⟨d, hd, rfl⟩) ha

theorem mem_heldAreas_iff {a : Ptr} :
    a ∈ heldAreas (l.map (·.held f)) ↔ ∃ d ∈ l, a ∈ f d.id := by
  simp only [heldAreas, List.map_map, List.mem_flatten, List.mem_map, Function.comp]
  constructor
  · rintro ⟨_, ⟨d, hd, rfl⟩, ha⟩
    exact ⟨d, hd, ha⟩
  · rintro ⟨d, hd, ha⟩
    exact ⟨_, ⟨d, hd, rfl⟩, ha⟩

theorem Frame.total (h : Frame s A s' A' K) {c : List Ptr} (hc : ∀ a ∈ c, K a) :
    s'.total c = s.total c := by
  unfold State.total
  congr 1
  exact List.map_congr_left fun a ha => h.size a (hc a ha)

theorem Owned.leaves (h : Owned s A l f)
    (hL : Leaves s A (heldAreas (l.map (·.held f))) (heldAreas (l.map (·.held f))) s' A') :
    Owned s' A' l f := by
  refine ⟨h.holds.leaves hL, fun d hd => ?_, h.single⟩
  rw [h.size d hd, hL.frame.total fun a ha => mem_heldAreas hd ha]

/-- Two lists of dataspaces that own the same areas. -/
theorem Owned.congr (h : Owned s A l f) (hheld : l'.map (·.held f') = l.map (·.held f))
    (hsize : ∀ d ∈ l', d.size = s.total (f' d.id))
    (hsingle : ∀ d ∈ l', State.contiguous d.flags = true → (f' d.id).length = 1) :
    Owned s A l' f' :=
  ⟨hheld ▸ h.holds, hsize, hsingle⟩

theorem Owned.congr_slab (h : Owned s A l f) (slab : Slab) :
    Owned { s with slab := slab } A l f :=
  ⟨h.holds.congr_slab slab, h.size, h.single⟩

/-! ## The descriptor memory -/

theorem Owned.slabGrow (h : Owned s A l f) (hr : s.Ready) :
    Meets s.slabGrow (fun s' => Owned s' A l f ∧ KeptAreas l f s A s' A ∧
      ∃ mp nf fa sp sl, s' = s.withInternal mp nf fa sp sl) fun _ => False := by
  refine (hr.meets (State.slabGrow_meets h.holds.inv.pool)).imp ?_
  rintro s' ⟨hstep, -⟩
  have hL := h.holds.inv.leaves_intStep hstep
  exact ⟨h.leaves hL, hL.frame, hstep.eq⟩

theorem Owned.slabBack (h : Owned s A l f) (hr : s.Ready) :
    Owned s.slabBack A l f ∧ KeptAreas l f s A s.slabBack A := by
  have hL := h.holds.inv.leaves_intStep (State.slabBack_step h.holds.inv.pool hr.room).1
  exact ⟨h.leaves hL, hL.frame⟩

theorem Owned.slabBacks (h : Owned s A l f) (hr : s.Ready) (n : Nat) :
    Owned (s.slabBacks n) A l f ∧ KeptAreas l f s A (s.slabBacks n) A := by
  induction n generalizing s with
  | zero => exact ⟨h, .refl l f s A⟩
  | succ n ih =>
    obtain ⟨h₁, k₁⟩ := h.slabBack hr
    obtain ⟨h₂, k₂⟩ := ih h₁ (k₁.ready hr)
    exact ⟨h₂, k₁.trans k₂⟩

theorem Owned.update (h : Owned s A l f) (hr : s.Ready) :
    Meets s.dmphysInternalAllocUpdate (fun s' => ∃ A', Owned s' A' l f ∧ KeptAreas l f s A s' A')
      fun _ => False := by
  refine (hr.meets (h.holds.inv.dmphysInternalAllocUpdate hr.room)).imp ?_
  rintro s' ⟨A', hL⟩
  exact ⟨A', h.leaves hL, hL.frame⟩

/-! ## The size of a list -/

/-- The areas of a list are of one pool and disjoint, so their sizes add up to a word. -/
theorem Inv.total_lt {H c : List Ptr} {P : Nat} (I : Inv s A H none) (hnd : c.Nodup)
    (hc : ∀ a ∈ c, a ∈ A P) : s.total c < 4294967296 := by
  obtain ⟨L, HL, hL⟩ := I.area
  have hsub : c.Subperm (L P) := hnd.subperm fun a ha => (hL P a).mpr (hc a ha)
  obtain ⟨c', hperm, hsub⟩ := hsub
  have hle := s.total_le ((HL.sorted P).sublist hsub) 0 4294967295 (fun _ _ => Nat.zero_le _)
    (fun a ha => by
      have := (HL.range P a (hsub.subset ha)).bound
      omega) (Nat.zero_le _)
  rw [← s.total_perm hperm]
  omega

theorem Chain.nodup {H c : List Ptr} {P : Nat} {q : Option Ptr} (C : Chain s A H P q c) : c.Nodup :=
  (List.nodup_append.mp (List.nodup_append.mp C.inv.owned).1).1

theorem Chain.total_lt {H c : List Ptr} {P : Nat} {q : Option Ptr} (C : Chain s A H P q c) :
    s.total c < 4294967296 :=
  C.inv.total_lt C.nodup C.mem

/-- The list of each holder is a list of its own. -/
theorem Holds.chain_of_mem {x : Held} {k : List Held} (h : Holds s A k) (hx : x ∈ k) :
    ∃ H, Chain s A H x.pool (some x.pages) x.areas := by
  obtain ⟨k₁, k₂, rfl⟩ := List.append_of_mem hx
  exact ⟨_, (h.perm List.perm_middle).chain⟩

theorem Holds.total_lt {x : Held} {k : List Held} (h : Holds s A k) (hx : x ∈ k) :
    s.total x.areas < 4294967296 := by
  obtain ⟨H, C⟩ := h.chain_of_mem hx
  exact C.total_lt

theorem Holds.length_lt {x : Held} {k : List Held} (h : Holds s A k) (hx : x ∈ k) :
    x.areas.length < s.listFuel := by
  obtain ⟨H, C⟩ := h.chain_of_mem hx
  exact C.length_lt

theorem Holds.pagesGetSize {x : Held} {k : List Held} (h : Holds s A k) (hx : x ∈ k) :
    s.pagesGetSize x.pages = .ok (s.total x.areas) := by
  unfold State.pagesGetSize
  rw [IsSList.pageList_eq (h.links x hx) (h.length_lt hx)]
  exact congrArg _ (Nat.mod_eq_of_lt (h.total_lt hx))

/-! ## Allocation -/

theorem allocateLoop_zero (pool alignment n : Nat) (s : State) (pl : Option Ptr) :
    State.allocateLoop pool alignment n s 0 pl = .ok (s, 0, pl) := by
  match n with
  | 0 | 1 | _ + 2 => rfl

end

theorem roundUp_zero_superPage : Word.roundUp 0 superPageSize = 0 := by
  rw [show superPageSize = 2 ^ 22 from rfl, Word.roundUp_two_pow (by decide) (by decide)]
  rfl

/-- The size of the memory that `__create_ds` gets: superpages are whole ones. -/
def grantedAt (addr flags size : Nat) : Nat := if addr = anyAddr then granted flags size else size

theorem le_grantedAt {addr flags size : Nat} (hs : size < 4294967296)
    (h : grantedAt addr flags size ≠ 0) : size ≤ grantedAt addr flags size := by
  unfold grantedAt granted at *
  split
  next ha =>
    rw [if_pos ha] at h
    split
    next hf =>
      rw [if_pos hf, show superPageSize = 2 ^ 22 from rfl] at h
      rw [show superPageSize = 2 ^ 22 from rfl]
      rcases Word.roundUp_cases hs (k := 22) (by decide) with ⟨h0, -⟩ | ⟨-, hle, -⟩
      · exact absurd h0 h
      · exact hle
    · rfl
  · rfl

/-- `__allocate_area` finds a free area for the range; the ends are those the code compares. -/
def State.FitsAt (s : State) (pool addr size : Nat) : Prop :=
  ∃ pa, scan s.areaNext (fun pa => addr < Word.add (s.addr pa) (s.size pa)) s.listFuel
    (s.pools pool).areaList = some (some pa) ∧ s.addr pa ≤ addr ∧
      Word.add addr size ≤ Word.add (s.addr pa) (s.size pa) ∧ s.used pa = false

/-- The allocations that get whole pages: a contiguous area is not empty, and a range at an address
that a free area has is page aligned, not empty and does not wrap around. -/
def State.AllocSafe (s : State) (pool addr size flags : Nat) : Prop :=
  s.available pool size .user = true →
    if addr = anyAddr then State.contiguous flags = true → granted flags size ≠ 0
    else s.FitsAt pool addr size → addr % pageSize = 0 ∧ 0 < size ∧ addr + size < 4294967296

section
variable {s s' : State} {A A' : Nat → Set Ptr} {H : List Ptr} {pool addr size align flags n : Nat}

theorem dmphysPagesAllocate_zero (hc : State.contiguous flags = false) :
    s.dmphysPagesAllocate pool 0 align flags .user = .ok (none, s) := by
  have h0 : ∀ al, s.allocatePages pool 0 maxDsAreas al = .ok (none, s) := fun al => by
    simp only [State.allocatePages, allocateLoop_zero, ok_bind]
    rfl
  unfold State.dmphysPagesAllocate
  simp only [hc, roundUp_zero_superPage]
  split
  · rfl
  · cases hf : State.superPages flags <;> simp [h0]

theorem allocateArea_unfit {P y m : Nat} (h : Inv s A H none) (hfit : ¬s.FitsAt P y m) :
    s.allocateArea P y m = .ok (none, s) := by
  unfold State.allocateArea
  obtain ⟨r, hsc, -⟩ := h.area.scan (P := P) (fun b hb => h.mem_live hb)
    (fun pa => decide (y < Word.add (s.addr pa) (s.size pa)))
  rw [hsc]
  cases r with
  | none => rfl
  | some a =>
    simp only
    split
    · rfl
    next hle =>
      split
      · rfl
      next hend =>
        split
        · rfl
        next hu =>
          refine absurd ⟨a, hsc, by omega, by omega, ?_⟩ hfit
          simpa using hu

theorem roundUp_page (hs : size < 4294967296) : Word.roundUp size pageSize % pageSize = 0 ∧
    Word.roundUp size pageSize < 4294967296 ∧
    (Word.roundUp size pageSize ≠ 0 → size ≤ Word.roundUp size pageSize) := by
  have hpage : pageSize = 2 ^ 12 := rfl
  rw [hpage]
  have hlt : Word.roundUp size (2 ^ 12) < 4294967296 := by
    rw [Word.roundUp_two_pow hs (by decide)]
    exact Nat.mod_lt _ (by decide)
  rcases Word.roundUp_cases hs (k := 12) (by decide) with ⟨h0, -⟩ | ⟨hd, hle, -⟩
  · exact ⟨by rw [h0]; rfl, hlt, fun h => absurd h0 h⟩
  · exact ⟨Nat.mod_eq_zero_of_dvd hd, hlt, fun _ => hle⟩

theorem isAlignment_roundAlign (h : align < 4294967296) : IsAlignment (Server.roundAlign align) := by
  unfold Server.roundAlign
  split
  · exact .inr ⟨12, by decide, rfl⟩
  · refine .inr ⟨Nat.log2 align, ?_, rfl⟩
    have hne : align ≠ 0 := by unfold pageSize at *; omega
    exact (Nat.log2_lt hne).mpr h

/-- The memory of a new dataspace. -/
theorem Inv.allocate (I : Inv s A H none) (hr : s.Ready) (hal : align < 4294967296)
    (hn : n % pageSize = 0) (hlt : n < 4294967296) (hsafe : s.AllocSafe pool addr n flags) :
    Meets (Server.allocate s pool addr n (Server.roundAlign align) flags)
      (fun r => AllocOk s A H pool (grantedAt addr flags n) (State.contiguous flags) r ∧
        (r.1 ≠ none → 0 < n)) fun _ => False := by
  have hnone : ∀ m, AllocOk s A H pool m (State.contiguous flags) (none, s) ∧
      ((none : Option Ptr) ≠ none → 0 < n) := fun _ => ⟨⟨A, .refl I, .refl s⟩, fun h => absurd rfl h⟩
  unfold Server.allocate grantedAt
  split
  next haddr =>
    simp only [State.AllocSafe, if_pos haddr] at hsafe
    rcases Nat.eq_zero_or_pos n with rfl | hpos
    · cases hc : State.contiguous flags with
      | false =>
        rw [hc] at hnone
        exact Meets.of_eq_ok (dmphysPagesAllocate_zero hc) (hnone _)
      | true =>
        have hav : s.available pool 0 .user = false := by
          cases hav : s.available pool 0 .user with
          | false => rfl
          | true =>
            refine absurd ?_ (hsafe hav hc)
            unfold granted
            split
            · exact roundUp_zero_superPage
            · rfl
        rw [hc] at hnone
        refine Meets.of_eq_ok ?_ (hnone _)
        unfold State.dmphysPagesAllocate
        exact if_pos hav
    · cases hav : s.available pool n .user with
      | true =>
        refine (hr.meets (I.dmphysPagesAllocate hr.room (isAlignment_roundAlign hal) hn hpos hlt
          ?_ .user)).imp fun r h => ⟨h, fun _ => hpos⟩
        intro hsp hc
        have := hsafe hav hc
        simpa [granted, hsp] using this
      | false =>
        refine Meets.of_eq_ok ?_ (hnone _)
        unfold State.dmphysPagesAllocate
        exact if_pos hav
  next haddr =>
    simp only [State.AllocSafe, if_neg haddr] at hsafe
    have hrefuse : s.dmphysPagesAllocateArea pool addr n .user = .ok (none, s) →
        Meets (s.dmphysPagesAllocateArea pool addr n .user)
          (fun r => AllocOk s A H pool n (State.contiguous flags) r ∧ (r.1 ≠ none → 0 < n))
          fun _ => False :=
      fun h => Meets.of_eq_ok h (hnone _)
    cases hav : s.available pool n .user with
    | true =>
      by_cases hfit : s.FitsAt pool addr n
      · obtain ⟨h1, h2, h3⟩ := hsafe hav hfit
        refine (hr.meets (I.dmphysPagesAllocateArea h1 hn h2 h3 .user)).imp ?_
        rintro ⟨o, s'⟩ h
        refine ⟨?_, fun _ => h2⟩
        cases o with
        | none => exact h
        | some p =>
          obtain ⟨c, A', hE, hc⟩ := h
          exact ⟨c, A', hE, fun _ => hc rfl⟩
      · refine hrefuse ?_
        unfold State.dmphysPagesAllocateArea
        rw [if_neg (by simp [hav])]
        exact allocateArea_unfit I hfit
    | false =>
      refine hrefuse ?_
      unfold State.dmphysPagesAllocateArea
      exact if_pos hav

end

section
variable {s s' : State} {A A' : Nat → Set Ptr} {l : List Dataspace} {f : Nat → List Ptr}
  {d : Dataspace} {n : Nat}

/-- A new dataspace with the areas that an allocation returned. -/
theorem Owned.cons {p : Ptr} {c : List Ptr} (h : Owned s A l f) (hid : ∀ e ∈ l, e.id ≠ d.id)
    (hE : Extends s A (heldAreas (l.map (·.held f))) d.pool [] n s' A' (some d.pages) c 0)
    (hsize : d.size = s'.total c) (hc : State.contiguous d.flags = true → c = [p]) :
    Owned s' A' (d :: l) (Function.update f d.id c) := by
  have hf : ∀ e ∈ l, Function.update f d.id c e.id = f e.id := fun e he =>
    Function.update_of_ne (hid e he) _ _
  have hmap : l.map (·.held (Function.update f d.id c)) = l.map (·.held f) :=
    List.map_congr_left fun e he => by simp only [Dataspace.held, hf e he]
  refine ⟨?_, fun e he => ?_, fun e he hcont => ?_⟩
  · have hd : d.held (Function.update f d.id c) = ⟨d.pool, d.pages, c⟩ := by simp [Dataspace.held]
    rw [List.map_cons, hmap, hd]
    exact h.holds.cons hE
  · rcases List.mem_cons.mp he with rfl | he
    · rw [Function.update_self, hsize]
    · rw [hf e he, h.size e he, hE.frame.total fun a ha => mem_heldAreas he ha]
  · rcases List.mem_cons.mp he with rfl | he
    · rw [Function.update_self, hc hcont]; rfl
    · rw [hf e he]; exact h.single e he hcont

/-- A dataspace whose list of areas was changed. -/
theorem Owned.resized {c : List Ptr} (h : Owned s A (d :: l) f) (hid : ∀ e ∈ l, e.id ≠ d.id)
    (hR : Resized s A (heldAreas (l.map (·.held f))) d.pool d.pages s' A' c)
    (hc : State.contiguous d.flags = true → c.length = 1) :
    Owned s' A' ({ d with size := s'.total c } :: l) (Function.update f d.id c) := by
  have hf : ∀ e ∈ l, Function.update f d.id c e.id = f e.id := fun e he =>
    Function.update_of_ne (hid e he) _ _
  have hmap : l.map (·.held (Function.update f d.id c)) = l.map (·.held f) :=
    List.map_congr_left fun e he => by simp only [Dataspace.held, hf e he]
  refine ⟨?_, fun e he => ?_, fun e he hcont => ?_⟩
  · have hd : ({ d with size := s'.total c } : Dataspace).held (Function.update f d.id c) =
        ⟨d.pool, d.pages, c⟩ := by simp [Dataspace.held]
    rw [List.map_cons, hmap, hd]
    exact Holds.resized (x := d.held f) h.holds hR
  · rcases List.mem_cons.mp he with rfl | he
    · simp
    · rw [hf e he, h.size e (by simp [he]), hR.frame.total fun a ha => mem_heldAreas he ha]
  · rcases List.mem_cons.mp he with rfl | he
    · simpa using hc hcont
    · rw [hf e he]; exact h.single e (by simp [he]) hcont

theorem Owned.tail (h : Owned s A (d :: l) f)
    (hL : Leaves s A (f d.id ++ heldAreas (l.map (·.held f))) (heldAreas (l.map (·.held f))) s' A') :
    Owned s' A' l f := by
  refine ⟨Holds.tail (x := d.held f) h.holds hL, fun e he => ?_, fun e he => h.single e (by simp [he])⟩
  rw [h.size e (by simp [he]), hL.frame.total fun a ha => mem_heldAreas he ha]

theorem Owned.chain (h : Owned s A (d :: l) f) :
    Chain s A (heldAreas (l.map (·.held f))) d.pool (some d.pages) (f d.id) :=
  Holds.chain (x := d.held f) h.holds

/-- `__close` -/
theorem Owned.release (h : Owned s A (d :: l) f) (hr : s.Ready) :
    ∃ s' A', s.dmphysPagesRelease d.pool (some d.pages) = .ok s' ∧ Owned s' A' l f ∧
      KeptAreas l f s A s' A' := by
  have C := h.chain
  obtain ⟨s', A', heq, hR⟩ := C.inv.dmphysPagesRelease hr.room C.links C.mem
  exact ⟨s', A', heq, h.tail hR.toLeaves, hR.frame⟩

/-- `__resize`, when the new size is not 0. -/
theorem Owned.resizePages (h : Owned s A (d :: l) f) (hr : s.Ready) (hid : ∀ e ∈ l, e.id ≠ d.id)
    (hn : n % pageSize = 0) (hpos : 0 < n) (hlt : n < 4294967296) :
    Meets (Server.resizePages s d n) (fun r => ∃ A', Kept s A r.2 A' ∧
      (r.1 ≠ none ∧ Owned r.2 A' (d :: l) f ∨ r.1 = none ∧
        ∃ c, Owned r.2 A' ({ d with size := r.2.total c } :: l) (Function.update f d.id c)))
      fun _ => False := by
  have C := h.chain
  have hsize := h.size d (by simp)
  have htot : d.size % pageSize = 0 := by
    rw [hsize]; exact State.total_page C.inv.area C.mem
  have hsame : ∃ A', Kept s A s A' ∧ ((none : Option Err) ≠ none ∧ Owned s A' (d :: l) f ∨
      (none : Option Err) = none ∧ ∃ c, Owned s A' ({ d with size := s.total c } :: l) (Function.update f d.id c)) := by
    refine ⟨A, .refl s A, .inr ⟨rfl, f d.id, ?_⟩⟩
    rw [Function.update_eq_self, ← hsize]
    exact h
  unfold Server.resizePages
  split
  next hgt =>
    have hsub : Word.sub n d.size = n - d.size := Word.sub_eq (by omega) hlt
    have hmod : (n - d.size) % pageSize = 0 := by unfold pageSize at *; omega
    have hround : Word.roundUp (n - d.size) pageSize = n - d.size := by
      unfold pageSize at hn hmod
      rw [show pageSize = 2 ^ 12 from rfl, Word.roundUp_eq (by decide) (by omega)]
      omega
    simp only [hsub, hround]
    split
    next hc =>
      refine ((C.dmphysPagesEnlarge hr.room hmod (by omega) .user).mono (fun _ h => h) ?_).imp ?_
      · rintro e ⟨-, hne⟩
        obtain ⟨a, ha⟩ := List.length_eq_one_iff.mp (h.single d (by simp) hc)
        have := C.links
        rw [ha] at this hne
        obtain ⟨he, -⟩ := this
        cases he
        exact hne rfl
      · rintro ⟨o, s'⟩ (⟨hne, rfl⟩ | ⟨rfl, hca, A', hR, -⟩)
        · exact ⟨A, .refl _ A, .inl ⟨hne, h⟩⟩
        · refine ⟨A', hR.frame.kept, .inr ⟨rfl, f d.id, h.resized hid hR fun _ => ?_⟩⟩
          rw [hca]; rfl
    next hc =>
      refine (hr.meets (C.dmphysPagesAdd hr.room hmod (by omega) (by omega) .user)).imp ?_
      rintro ⟨o, s'⟩ (⟨hne, A', hL, -⟩ | ⟨rfl, A', c', hR, -⟩)
      · exact ⟨A', hL.frame.kept, .inl ⟨hne, h.leaves hL⟩⟩
      · exact ⟨A', hR.frame.kept, .inr ⟨rfl, _, h.resized hid hR fun hc' => absurd hc' hc⟩⟩
  · split
    next hlt' =>
      refine (hr.meets (C.dmphysPagesShrink hr.room hn hpos hlt)).imp ?_
      rintro ⟨o, s'⟩ (⟨hne, rfl⟩ | ⟨rfl, A', c', hT, hR, -⟩)
      · exact ⟨A, .refl _ A, .inl ⟨hne, h⟩⟩
      · refine ⟨A', hR.frame.kept, .inr ⟨rfl, c', h.resized hid hR fun hc => ?_⟩⟩
        have h1 := h.single d (by simp) hc
        have h2 := hT.length_le
        have h3 := List.length_pos_iff.mpr hT.ne_nil
        omega
    · exact hsame

end

/-! ## Copying -/

/-- The number of areas that end behind the offset. -/
def State.behind (s : State) : List Ptr → Nat → Nat
  | [], _ => 0
  | a :: c, offs => if s.size a ≤ offs then s.behind c (offs - s.size a) else c.length + 1

section
variable {s : State} {c c₁ c₂ : List Ptr} {x : Ptr} {offs offs' : Nat}

theorem State.behind_le_length : s.behind c offs ≤ c.length := by
  induction c generalizing offs with
  | nil => rfl
  | cons a c ih =>
    simp only [State.behind, List.length_cons]
    split
    · exact (ih).trans (Nat.le_succ _)
    · rfl

theorem State.behind_le (h : s.total c₁ ≤ offs) : s.behind (c₁ ++ c₂) offs ≤ c₂.length := by
  induction c₁ generalizing offs with
  | nil => exact State.behind_le_length
  | cons a c₁ ih =>
    rw [s.total_cons] at h
    simp only [List.cons_append, State.behind]
    rw [if_pos (by omega)]
    exact ih (by omega)

theorem State.behind_eq (h : s.total c₁ + o = offs) (ho : o < s.size x) :
    s.behind (c₁ ++ x :: c₂) offs = c₂.length + 1 := by
  induction c₁ generalizing offs with
  | nil =>
    have h : o = offs := by simpa [State.total] using h
    subst h
    simp only [List.nil_append, State.behind]
    rw [if_neg (by omega)]
  | cons a c₁ ih =>
    rw [s.total_cons] at h
    simp only [List.cons_append, State.behind]
    rw [if_pos (by omega)]
    exact ih (by omega)

theorem State.behind_mono (h : offs ≤ offs') : s.behind c offs' ≤ s.behind c offs := by
  induction c generalizing offs offs' with
  | nil => rfl
  | cons a c ih =>
    simp only [State.behind]
    split
    · split
      · exact ih (by omega)
      · have := @State.behind_le_length s c (offs' - s.size a)
        omega
    next h' =>
      rw [if_neg (by omega)]

/-- The area that holds a byte of the list, and the progress that its end makes. -/
theorem IsSList.findOffset_some {p : Ptr} (h : IsSList s.dsNext (some p) c)
    (hlen : c.length < s.listFuel) (hlt : offs < s.total c) (hword : s.total c < 4294967296) :
    ∃ a o, s.findOffset s.listFuel (some p) offs = .ok (some (a, o)) ∧ o < s.size a ∧
      Word.sub (s.size a) o = s.size a - o ∧ offs + (s.size a - o) ≤ s.total c ∧
      s.behind c (offs + (s.size a - o)) < s.behind c offs := by
  rcases IsSList.findOffset_eq h hlen offs with ⟨-, h0⟩ | ⟨c₁, x, c₂, o, rfl, he, ht, ho⟩
  · omega
  have htot : s.total (c₁ ++ x :: c₂) = s.total c₁ + s.size x + s.total c₂ := by
    simp [State.total, Nat.add_assoc]
  have hsplit : c₁ ++ x :: c₂ = (c₁ ++ [x]) ++ c₂ := by simp
  have hfront : s.total (c₁ ++ [x]) = s.total c₁ + s.size x := by simp [State.total]
  refine ⟨x, o, he, ho, Word.sub_eq (by omega) (by omega), by omega, ?_⟩
  rw [State.behind_eq ht ho, hsplit]
  have := @State.behind_le s (c₁ ++ [x]) c₂ (offs + (s.size x - o)) (by omega)
  omega

/-- The loops that fill a part of a dataspace end behind it. -/
theorem IsSList.fillLoop {p : Ptr} (h : IsSList s.dsNext (some p) c)
    (hlen : c.length < s.listFuel) (hword : s.total c < 4294967296) {fuel fill : Nat}
    (hfill : offs + fill ≤ s.total c) (hfuel : 0 < fuel) (hb : 0 < fill → s.behind c offs < fuel) :
    Server.fillLoop s p fuel offs fill = .ok (offs + fill) := by
  induction fuel generalizing offs fill with
  | zero => omega
  | succ fuel ih =>
    unfold Server.fillLoop
    split
    next h0 => rw [h0]; rfl
    next h0 =>
      have hoffs : offs < s.total c := by omega
      obtain ⟨a, o, he, ho, hsub, hle, hlt⟩ := IsSList.findOffset_some h hlen hoffs hword
      have hb := hb (by omega)
      simp only [he, ok_bind, hsub]
      rw [Word.add_eq (by omega), Word.sub_eq (by omega) (by omega)]
      rw [ih (by omega) (by omega) ?_]
      · congr 1
        omega
      · intro hmore
        rw [show min (s.size a - o) fill = s.size a - o by omega]
        omega

/-- The loop that copies ends behind the copied part. -/
theorem IsSList.copyLoop {p q : Ptr} {cp cq : List Ptr} (hp : IsSList s.dsNext (some p) cp)
    (hq : IsSList s.dsNext (some q) cq) (hlp : cp.length < s.listFuel) (hlq : cq.length < s.listFuel)
    (hwp : s.total cp < 4294967296) (hwq : s.total cq < 4294967296) {fuel num sOffs : Nat}
    (hnp : offs + num ≤ s.total cp) (hnq : sOffs + num ≤ s.total cq) (hfuel : 0 < fuel)
    (hb : 0 < num → s.behind cp offs + s.behind cq sOffs < fuel) :
    Server.copyLoop s p q fuel offs sOffs num = .ok (offs + num) := by
  induction fuel generalizing offs sOffs num with
  | zero => omega
  | succ fuel ih =>
    unfold Server.copyLoop
    split
    next h0 => rw [h0]; rfl
    next h0 =>
      have hlt₁ : offs < s.total cp := by omega
      have hlt₂ : sOffs < s.total cq := by omega
      obtain ⟨a, o, he, ho, hsub, hle, hlt⟩ := IsSList.findOffset_some hp hlp hlt₁ hwp
      obtain ⟨b, r, he', hr, hsub', hle', hlt'⟩ := IsSList.findOffset_some hq hlq hlt₂ hwq
      have hb := hb (by omega)
      simp only [he, he', ok_bind, hsub, hsub']
      generalize hn : min (min (s.size a - o) (s.size b - r)) num = n
      rw [Word.add_eq (by omega), Word.add_eq (by omega), Word.sub_eq (by omega) (by omega)]
      rw [ih (by omega) (by omega) (by omega) ?_]
      · congr 1
        omega
      · intro hmore
        have h1 := @State.behind_mono s cp offs (offs + n) (by omega)
        have h2 := @State.behind_mono s cq sOffs (sOffs + n) (by omega)
        -- one of the two areas is used up
        rcases (by omega : n = s.size a - o ∨ n = s.size b - r) with rfl | rfl
        · omega
        · omega

theorem Holds.copyPages {A : Nat → Set Ptr} {k : List Held} {x y : Held} (h : Holds s A k)
    (hx : x ∈ k) (hy : y ∈ k) {dstSize srcOffs dstOffs num : Nat} (hdst : dstOffs + num ≤ dstSize)
    (hsize : dstSize ≤ s.total x.areas) (hsrc : srcOffs + num ≤ s.total y.areas) :
    Server.copyPages s x.pages y.pages dstSize srcOffs dstOffs num = .ok () := by
  have hlx := h.length_lt hx
  have hly := h.length_lt hy
  have hwx := h.total_lt hx
  have hbx := fun o => (@State.behind_le_length s x.areas o).trans_lt hlx
  have hby := fun o => (@State.behind_le_length s y.areas o).trans_lt hly
  have hfill : ∀ offs fill, offs + fill ≤ s.total x.areas →
      Server.fillLoop s x.pages (2 * s.listFuel + 1) offs fill = .ok (offs + fill) := by
    intro offs fill hle
    have := hbx offs
    exact IsSList.fillLoop (h.links x hx) hlx hwx hle (by omega) fun _ => by omega
  have hcopy : Server.copyLoop s x.pages y.pages (2 * s.listFuel + 1) dstOffs srcOffs num =
      .ok (dstOffs + num) := by
    have h1 := hbx dstOffs
    have h2 := hby srcOffs
    exact IsSList.copyLoop (h.links x hx) (h.links y hy) hlx hly hwx (h.total_lt hy) (by omega) hsrc
      (by omega) fun _ => by omega
  have hend : (if dstOffs + num < dstSize then do
        let _ ← Server.fillLoop s x.pages (2 * s.listFuel + 1) (dstOffs + num)
          (Word.sub dstSize (dstOffs + num))
        pure ()
      else pure () : Except Panic Unit) = .ok () := by
    split
    next hlt =>
      rw [Word.sub_eq (by omega) (by omega), hfill _ _ (by omega)]
      rfl
    · rfl
  unfold Server.copyPages
  simp only
  split
  · rw [hfill 0 dstOffs (by omega), Nat.zero_add]
    simp only [ok_bind, hcopy]
    exact hend
  next h0 =>
    obtain rfl := Nat.eq_zero_of_not_pos h0
    simp only [pure_bind, hcopy, ok_bind]
    exact hend

end

end L4env.DMphys
