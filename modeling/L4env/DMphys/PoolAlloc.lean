import L4env.DMphys.PoolRelease

/-!
# Allocating areas

An allocation takes free areas, cuts them to size and marks them used (`Taken`); a list of areas is
linked through `ds_next` (`Chained`).
-/

namespace L4env.DMphys

section
variable {s s' s'' : State} {A A' A'' : Nat → Set Ptr} {H : List Ptr} {T : Option Ptr} {P : Nat}
  {a b : Ptr}

/-! ## A single area -/

/-- The free area `a` of pool `P` was cut and is now in use. -/
structure Taken (s : State) (A : Nat → Set Ptr) (H : List Ptr) (P : Nat) (a : Ptr) (s' : State)
    (A' : Nat → Set Ptr) : Prop where
  inv : Inv s' A' (a :: H) none
  mem : a ∈ A' P
  dsNext : s'.dsNext a = none
  frame : Frame s A s' A' (· ∈ H)
  coal : Coalesced s A H → Coalesced s' A' (a :: H)
  grown : s.OnlyGrown s'
  kept : s.KeepsInternal s'

/-- The free area `a` is out of its free list. -/
structure Picked (s : State) (A : Nat → Set Ptr) (H : List Ptr) (P : Nat) (a : Ptr) (s' : State) :
    Prop where
  inv : Inv s' A (a :: H) (some a)
  addr : s'.addr = s.addr
  size : s'.size = s.size
  used : s'.used = s.used
  dsNext : s'.dsNext = s.dsNext
  live : s'.live = s.live
  null : s'.dsNext a = none
  frame : Frame s A s' A fun _ => True
  coal : Coalesced s A H → Coalesced s' A (a :: H)
  prev : Coalesced s A H → PrevUsed s' A (a :: H) P a
  next : Coalesced s A H → NextUsed s' A (a :: H) P a
  grown : s.OnlyGrown s'
  kept : s.KeepsInternal s'

theorem Inv.pick (I : Inv s A H none) (ha : a ∈ freeAreas s A H P) :
    ∃ s', s.removeFree P a = .ok s' ∧ Picked s A H P a s' := by
  obtain ⟨fn, fp, fl, free, heq, I'⟩ := I.removeFree ha
  have hsub : ∀ Q, ∀ b ∈ freeAreas (s.withFreeList P fn fp fl free) A (a :: H) Q,
      b ∈ freeAreas s A H Q :=
    fun Q b hb => ⟨hb.1, fun h => hb.2.1 (List.mem_cons_of_mem _ h), hb.2.2⟩
  refine ⟨_, heq, I', rfl, rfl, rfl, rfl, rfl, I.null P a ha.1 ha.2.1, ?_, ?_, ?_, ?_, .refl s,
    ⟨⟨fun _ h => h, fun _ _ => ⟨rfl, rfl⟩, State.withFreeList_reserved _ _ _ _ _ _⟩,
      fun _ h => h⟩⟩
  · exact ⟨fun _ _ => rfl, fun _ _ => rfl, fun _ _ => rfl, fun _ _ => rfl, fun _ _ _ h => h,
      fun _ _ => Iff.rfl, id, id, rfl⟩
  · exact fun hc Q b hb c hc' => hc Q b (hsub Q b hb) c (hsub Q c hc')
  · exact fun hc b hb => hc P b (hsub P b hb) a ha
  · exact fun hc b hb => hc P a ha b (hsub P b hb)

/-- The last step of every allocation of an area. -/
theorem Taken.of_setUsed (I : Inv s' A' (a :: H) (some a)) (hmem : a ∈ A' P)
    (hnull : s'.dsNext a = none) (hframe : Frame s A s' A' (· ∈ H))
    (hcoal : Coalesced s A H → Coalesced s' A' (a :: H)) (hgrown : s.OnlyGrown s')
    (hkept : s.KeepsInternal s') :
    Taken s A H P a (s'.setUsed a true) A' := by
  have haH := I.cons_not_mem
  refine ⟨I.setUsed List.mem_cons_self (.inr rfl), hmem, hnull, ?_, hcoal, hgrown,
    ⟨⟨hkept.areas, hkept.range, hkept.reserved⟩, hkept.all⟩⟩
  refine ⟨hframe.addr, hframe.size, fun b hb => ?_, hframe.dsNext, hframe.mem, hframe.cover,
    hframe.steady.enough, hframe.steady.room, hframe.steady.initial⟩
  have hba : b ≠ a := fun e => haH (e ▸ hb)
  simp only [State.setUsed, Function.update_of_ne hba]
  exact hframe.used b hb

theorem Picked.taken_cut (h : Picked s A H P a s') (hC : Cut s' A (a :: H) (some a) P a y m s'' A'')
    (I : Inv s A H none) : Taken s A H P a (s''.setUsed a true) A'' := by
  refine Taken.of_setUsed hC.inv hC.mem (by rw [hC.dsNext, h.null]) ?_ ?_ (h.grown.trans hC.grown)
    (h.kept.trans hC.kept)
  · refine (h.frame.mono fun _ _ => trivial).trans (hC.frame.mono fun b hb => ?_)
    obtain ⟨Q, hQ⟩ := I.held b hb
    exact ⟨by rw [h.live]; exact I.mem_live hQ, fun e => h.inv.cons_not_mem (e ▸ hb)⟩
  · exact fun hc => hC.coal (h.coal hc) (fun _ => h.prev hc) fun _ => h.next hc

theorem Picked.taken (h : Picked s A H P a s') (ha : a ∈ A P) :
    Taken s A H P a (s'.setUsed a true) A :=
  Taken.of_setUsed h.inv ha h.null (h.frame.mono fun _ _ => trivial) h.coal h.grown h.kept

/-- What a search for one area of `m` bytes at a boundary returns: the cut of a free area in which it found
them, or nothing where no free area in `D` has so many bytes between its boundaries. -/
def SearchOk (s : State) (A : Nat → Set Ptr) (H : List Ptr) (P m al : Nat) (D : Set Ptr)
    (r : Option Ptr × State) : Prop :=
  match r.1 with
  | none => r.2 = s ∧ ∀ a ∈ freeAreas s A H P, a ∈ D → s.alignedSize a al < m
  | some a => a ∈ freeAreas s A H P ∧ m ≤ s.alignedSize a al ∧ s.addr a ≤ r.2.addr a ∧
    r.2.addr a + m ≤ s.addr a + s.size a ∧ al ∣ r.2.addr a ∧ r.2.size a = m ∧
    ∃ A', Taken s A H P a r.2 A'

/-- What a search for one area of `m` bytes returns. -/
def SingleOk (s : State) (A : Nat → Set Ptr) (H : List Ptr) (P m : Nat) (r : Option Ptr × State) :
    Prop :=
  match r.1 with
  | none => r.2 = s
  | some a => ∃ A', Taken s A H P a r.2 A' ∧ r.2.size a = m

theorem SearchOk.singleOk {D : Set Ptr} {r : Option Ptr × State} (h : SearchOk s A H P m al D r) :
    SingleOk s A H P m r := by
  unfold SearchOk at h
  unfold SingleOk
  split <;> simp_all

theorem Inv.findSingleIn (I : Inv s A H none) (hk : 12 ≤ k) (hk' : k < 32) (hm : m % pageSize = 0)
    (hpos : 0 < m) (nums : List Nat) :
    Meets (s.findSingleIn P m (2 ^ k) nums)
      (SearchOk s A H P m (2 ^ k) {a | getFreeList (s.size a) ∈ nums}) s.NoPage := by
  induction nums with
  | nil => exact ⟨rfl, fun a _ ha => absurd ha List.not_mem_nil⟩
  | cons num nums ih =>
    unfold State.findSingleIn
    obtain ⟨r, hscan, hr, hnone⟩ := I.free.scan (fun b hb => I.mem_live hb.1)
      (fun pa => decide (m ≤ s.alignedSize pa (2 ^ k))) num (P := P)
    rw [hscan]
    cases r with
    | none =>
      refine ih.imp fun r h => ?_
      unfold SearchOk at h ⊢
      split at h
      · refine ⟨h.1, fun a ha hcls => ?_⟩
        rcases List.mem_cons.mp hcls with hcls | hcls
        · simpa using hnone rfl a ha hcls
        · exact h.2 a ha hcls
      · exact h
    | some a =>
      obtain ⟨haf, hfit⟩ := hr a rfl
      obtain ⟨s₁, heq, hpick⟩ := I.pick haf
      have hroom : m ≤ s₁.alignedSize a (2 ^ k) := by
        simp only [State.alignedSize, hpick.addr, hpick.size]
        simpa [State.alignedSize] using hfit
      refine Meets.bind_ok heq ?_
      refine ((hpick.inv.splitArea haf.1 List.mem_cons_self hk hk' hm hpos hroom).mono
        (fun _ h => h) fun e he => hpick.frame.noPage he).bind ?_
      rintro s₂ ⟨y, A₂, hdvd, hlo, hhi, hC⟩
      rw [hpick.addr] at hlo hhi
      rw [hpick.size] at hhi
      have hy : (s₂.setUsed a true).addr a = y := hC.addr
      exact ⟨haf, by simpa using hfit, hy ▸ hlo, hy ▸ hhi, hy ▸ hdvd, hC.size, A₂, hpick.taken_cut hC I⟩

theorem Inv.findSingleArea (I : Inv s A H none) (hk : 12 ≤ k) (hk' : k < 32)
    (hm : m % pageSize = 0) (hpos : 0 < m) :
    Meets (s.findSingleArea P m (2 ^ k)) (SingleOk s A H P m) s.NoPage :=
  (I.findSingleIn hk hk' hm hpos _).imp fun _ h => h.singleOk

/-! ## Lists of areas -/

/-- The areas `c` of pool `P` are linked through `ds_next`, next to the areas `H` in use. -/
structure Chain (s : State) (A : Nat → Set Ptr) (H : List Ptr) (P : Nat) (h : Option Ptr)
    (c : List Ptr) : Prop where
  inv : Inv s A (c ++ H) none
  links : IsSList s.dsNext h c
  mem : ∀ a ∈ c, a ∈ A P

/-- The number of bytes of the areas `c`. -/
def State.total (s : State) (c : List Ptr) : Nat := (c.map s.size).sum

/-- An allocation made the list `c` into `c'` and has `n'` of `n` bytes left to find. -/
structure Extends (s : State) (A : Nat → Set Ptr) (H : List Ptr) (P : Nat) (c : List Ptr) (n : Nat)
    (s' : State) (A' : Nat → Set Ptr) (h' : Option Ptr) (c' : List Ptr) (n' : Nat) : Prop where
  chain : Chain s' A' H P h' c'
  total : s'.total c' + n' = s.total c + n
  frame : Frame s A s' A' (· ∈ H)
  coal : Coalesced s A (c ++ H) → Coalesced s' A' (c' ++ H)
  grown : s.OnlyGrown s'
  kept : s.KeepsInternal s'

theorem Extends.refl (h : Chain s A H P q c) : Extends s A H P c n s A q c n :=
  ⟨h, rfl, Frame.refl _ _ _, id, .refl s, .refl s⟩

theorem Extends.trans (h : Extends s A H P c n s' A' q' c' n')
    (h' : Extends s' A' H P c' n' s'' A'' q'' c'' n'') :
    Extends s A H P c n s'' A'' q'' c'' n'' :=
  ⟨h'.chain, h'.total.trans h.total, h.frame.trans h'.frame, fun hc => h'.coal (h.coal hc),
    h.grown.trans h'.grown, h.kept.trans h'.kept⟩

/-- An area that was taken becomes the head of the list. -/
theorem Chain.link (C : Chain s A H P q c) (hT : Taken s A (c ++ H) P a s' A') (hn : s'.size a ≤ n) :
    Extends s A H P c n (s'.setDsNext a q) A' (some a) (a :: c) (n - s'.size a) := by
  have hac := hT.inv.cons_not_mem
  have hne : ∀ b ∈ c ++ H, b ≠ a := fun b hb e => hac (e ▸ hb)
  refine ⟨⟨hT.inv.setDsNext List.mem_cons_self q, ⟨rfl, ?_⟩, ?_⟩, ?_, ?_, hT.coal, hT.grown,
    ⟨⟨hT.kept.areas, hT.kept.range, hT.kept.reserved⟩, hT.kept.all⟩⟩
  · simp only [State.setDsNext, Function.update_self]
    refine C.links.congr fun b hb => ?_
    rw [Function.update_of_ne (hne b (by simp [hb]))]
    exact hT.frame.dsNext b (by simp [hb])
  · intro b hb
    rcases List.mem_cons.mp hb with rfl | hb
    · exact hT.mem
    · exact hT.frame.mem b (by simp [hb]) P (C.mem b hb)
  · have : c.map s'.size = c.map s.size :=
      List.map_congr_left fun b hb => hT.frame.size b (by simp [hb])
    simp only [State.total, State.setDsNext, List.map_cons, List.sum_cons, this]
    omega
  · have hF := hT.frame.mono (fun b (hb : b ∈ H) => (by simp [hb] : b ∈ c ++ H))
    refine ⟨hF.addr, hF.size, hF.used, fun b hb => ?_, hF.mem, hF.cover, hF.steady.enough,
      hF.steady.room, hF.steady.initial⟩
    simp only [State.setDsNext, Function.update_of_ne (hne b (by simp [hb]))]
    exact hF.dsNext b hb

theorem firstAligned_mem (I : Inv s A H none) (h : s.firstAligned P l al = some a) :
    a ∈ freeAreas s A H P ∧ s.alignedSize a al ≠ 0 := by
  unfold State.firstAligned at h
  obtain ⟨num, -, hnum⟩ := List.exists_of_findSome?_eq_some h
  obtain ⟨hhead, hal⟩ := Option.filter_eq_some_iff.mp hnum
  exact ⟨I.free.head_mem hhead, by simpa using hal⟩

/-- The area is cut to the bytes that are left, or to its aligned part. -/
theorem Picked.cutAligned (h : Picked s A H P a s') (I : Inv s A H none) (ha : a ∈ A P)
    (hk : 12 ≤ k) (hk' : k < 32) (hn : n % pageSize = 0) (hpos : 0 < n)
    (hal : s.alignedSize a (2 ^ k) ≠ 0) :
    Meets (s'.cutAligned P a n (s.alignedSize a (2 ^ k)) (2 ^ k))
      (fun s'' => ∃ A', Taken s A H P a (s''.setUsed a true) A' ∧ s''.size a ≤ n ∧
        s''.size a % pageSize = 0) s.NoPage := by
  have hr := I.area.range ha
  have heq : s'.alignedSize a (2 ^ k) = s.alignedSize a (2 ^ k) := by
    simp only [State.alignedSize, h.addr, h.size]
  have hpage := alignedSize_page hr hk' hk
  unfold State.cutAligned
  split
  next hlt =>
    refine (h.inv.splitArea ha List.mem_cons_self hk hk' hn hpos (heq ▸ hlt.le)).mono ?_
      fun e he => h.frame.noPage he
    rintro s'' ⟨y, A', -, -, -, hC⟩
    exact ⟨A', h.taken_cut hC I, by rw [hC.size], by rw [hC.size]; exact hn⟩
  next hle =>
    split
    next hne =>
      refine (h.inv.splitArea ha List.mem_cons_self hk hk' hpage (by omega) (heq ▸ le_rfl)).mono ?_
        fun e he => h.frame.noPage he
      rintro s'' ⟨y, A', -, -, -, hC⟩
      exact ⟨A', h.taken_cut hC I, by rw [hC.size]; omega, by rw [hC.size]; exact hpage⟩
    next hne =>
      have hsz : s.alignedSize a (2 ^ k) = s'.size a := by simpa using hne
      exact ⟨A, h.taken ha, by omega, by rw [← hsz]; exact hpage⟩

theorem Chain.allocateLoop (C : Chain s A H P q c) (hk : 12 ≤ k) (hk' : k < 32)
    (hn : n % pageSize = 0) (hlt : n < 4294967296) (m : Nat) :
    Meets (State.allocateLoop P (2 ^ k) m s n q)
      (fun r => ∃ A' c', Extends s A H P c n r.1 A' r.2.2 c' r.2.1) s.NoPage := by
  induction m generalizing s A q c n with
  | zero => exact ⟨A, c, .refl C⟩
  | succ m ih =>
    cases m with
    | zero =>
      unfold State.allocateLoop
      split
      · exact ⟨A, c, .refl C⟩
      · refine (C.inv.findSingleArea hk hk' hn (by omega)).bind ?_
        rintro ⟨o, s₁⟩ hS
        cases o with
        | none =>
          obtain rfl : s₁ = s := hS
          exact ⟨A, c, .refl C⟩
        | some a =>
          obtain ⟨A₁, hT, hsz⟩ := hS
          have hsz : s₁.size a = n := hsz
          have hE := C.link hT hsz.le
          rw [hsz] at hE
          have hsub : Word.sub n (s₁.size a) = n - n := by rw [hsz]; exact Word.sub_eq le_rfl hlt
          simp only [meets_pure, hsub]
          exact ⟨A₁, _, hE⟩
    | succ m =>
      unfold State.allocateLoop
      split
      · exact ⟨A, c, .refl C⟩
      next hn0 =>
        cases hfirst : s.firstAligned P (getFreeList n - Nat.log2 (m + 2)) (2 ^ k) with
        | none => exact ⟨A, c, .refl C⟩
        | some a =>
          obtain ⟨haf, hal⟩ := firstAligned_mem C.inv hfirst
          obtain ⟨s₁, heq, hpick⟩ := C.inv.pick haf
          refine Meets.bind_ok heq ?_
          refine (hpick.cutAligned C.inv haf.1 hk hk' hn (by omega) hal).bind ?_
          rintro s₂ ⟨A₂, hT, hsz, hpg⟩
          have hE := C.link hT hsz
          have hsub : Word.sub n (s₂.size a) = n - s₂.size a := Word.sub_eq hsz hlt
          have hn' : (n - s₂.size a) % pageSize = 0 := by unfold pageSize at *; omega
          have hrest := ih hE.chain hn' (by omega)
          have hsize : ((s₂.setUsed a true).setDsNext a q).size a = s₂.size a := rfl
          simp only [hsize, hsub]
          refine hrest.mono ?_ fun e he => hE.frame.noPage he
          rintro r ⟨A', c', hE'⟩
          exact ⟨A', c', hE.trans hE'⟩

/-- `__allocate_pages` returns a list with all of the bytes, or nothing. -/
theorem Chain.allocatePages (I : Inv s A H none) (hroom : s.Room) (hk : 12 ≤ k) (hk' : k < 32)
    (hn : n % pageSize = 0) (hlt : n < 4294967296) (m : Nat) :
    Meets (s.allocatePages P n m (2 ^ k))
      (fun r => (∃ c A', Extends s A H P [] n r.2 A' r.1 c 0) ∨
        r.1 = none ∧ ∃ A', Leaves s A H H r.2 A' ∧ s.Retains r.2) s.NoPage := by
  have C : Chain s A H P none [] := ⟨I, rfl, by simp⟩
  unfold State.allocatePages
  refine (C.allocateLoop hk hk' hn hlt m).bind ?_
  rintro ⟨s₁, n₁, q₁⟩ ⟨A₁, c₁, hE⟩
  simp only at hE ⊢
  split
  · obtain ⟨s₂, A₂, heq, hR⟩ := hE.chain.inv.dmphysPagesRelease (hE.frame.steady.room hroom)
      hE.chain.links hE.chain.mem
    exact Meets.bind_ok heq (.inr ⟨rfl, A₂, ⟨hR.inv, hE.frame.trans hR.frame,
      fun hc => hR.coal (hE.coal hc)⟩, hE.kept.toRetains.trans hR.kept⟩)
  · have h0 : n₁ = 0 := by omega
    subst h0
    exact .inl ⟨c₁, A₁, hE⟩

end

end L4env.DMphys
