import L4env.DMphys.Internal

/-!
# The pool invariant

`Inv s A H T` is the invariant of the page pools between two writes of a page operation. `A P` is the
set of areas of pool `P`. `H` are the areas in use outside the descriptor memory; an area that an
operation has in its hands is one of them. `T` is the area whose flag `AREA_USED` is not up to date.
-/

namespace L4env.DMphys

/-- The areas of pool `P` that are in use neither by a dataspace nor by the descriptor memory. -/
def freeAreas (s : State) (A : Nat → Set Ptr) (H : List Ptr) : Nat → Set Ptr :=
  fun P => {a | a ∈ A P ∧ a ∉ H ∧ a ∉ s.internalAreas}

/-- The page pools hold the address `x` in pool `P`. -/
def Covered (s : State) (A : Nat → Set Ptr) (P x : Nat) : Prop :=
  ∃ a ∈ A P, s.addr a ≤ x ∧ x < s.addr a + s.size a

/-- No free area of pool `P` borders on the range of `n` bytes at `x`. -/
def Isolated (s : State) (A : Nat → Set Ptr) (H : List Ptr) (P x n : Nat) : Prop :=
  ∀ b ∈ freeAreas s A H P, s.addr b + s.size b ≠ x ∧ x + n ≠ s.addr b

/-- No free area ends where the area `a` starts. -/
def PrevUsed (s : State) (A : Nat → Set Ptr) (H : List Ptr) (P : Nat) (a : Ptr) : Prop :=
  ∀ c ∈ freeAreas s A H P, s.addr c + s.size c ≠ s.addr a

/-- No free area starts where the area `a` ends. -/
def NextUsed (s : State) (A : Nat → Set Ptr) (H : List Ptr) (P : Nat) (a : Ptr) : Prop :=
  ∀ c ∈ freeAreas s A H P, s.addr a + s.size a ≠ s.addr c

/-- No two free areas border on each other. -/
def Coalesced (s : State) (A : Nat → Set Ptr) (H : List Ptr) : Prop :=
  ∀ P, ∀ a ∈ freeAreas s A H P, ∀ b ∈ freeAreas s A H P, s.addr a + s.size a ≠ s.addr b

structure Inv (s : State) (A : Nat → Set Ptr) (H : List Ptr) (T : Option Ptr) : Prop where
  area : AreaInv s A
  free : FreeInv s (freeAreas s A H)
  live_nodup : s.live.Nodup
  live : ∀ a, a ∈ s.live ↔ ∃ P, a ∈ A P
  owned : (H ++ s.internalAreas).Nodup
  held : ∀ a ∈ H, ∃ P, a ∈ A P
  internal : ∀ a ∈ s.internalAreas, a ∈ A defaultPool
  flag : ∀ P, ∀ a ∈ A P, some a ≠ T → (s.used a = true ↔ a ∈ H ∨ a ∈ s.internalAreas)
  null : ∀ P, ∀ a ∈ A P, a ∉ H → s.dsNext a = none
  pool : s.MemPoolOk

/-- What an operation leaves alone: the areas in `K`, the covered memory, the room in the tables. -/
structure Frame (s : State) (A : Nat → Set Ptr) (s' : State) (A' : Nat → Set Ptr)
    (K : Ptr → Prop) : Prop where
  addr : ∀ a, K a → s'.addr a = s.addr a
  size : ∀ a, K a → s'.size a = s.size a
  used : ∀ a, K a → s'.used a = s.used a
  dsNext : ∀ a, K a → s'.dsNext a = s.dsNext a
  mem : ∀ a, K a → ∀ P, a ∈ A P → a ∈ A' P
  cover : ∀ P x, Covered s' A' P x ↔ Covered s A P x
  steady : s.Steady s'

section
variable {s s' s'' : State} {A A' A'' : Nat → Set Ptr} {K K' : Ptr → Prop} {H : List Ptr}
  {T : Option Ptr}

theorem Frame.refl (s : State) (A : Nat → Set Ptr) (K : Ptr → Prop) : Frame s A s A K :=
  ⟨fun _ _ => rfl, fun _ _ => rfl, fun _ _ => rfl, fun _ _ => rfl, fun _ _ _ h => h,
    fun _ _ => Iff.rfl, .refl _⟩

theorem Frame.trans (h : Frame s A s' A' K) (h' : Frame s' A' s'' A'' K) : Frame s A s'' A'' K where
  addr a ha := (h'.addr a ha).trans (h.addr a ha)
  size a ha := (h'.size a ha).trans (h.size a ha)
  used a ha := (h'.used a ha).trans (h.used a ha)
  dsNext a ha := (h'.dsNext a ha).trans (h.dsNext a ha)
  mem a ha P hP := h'.mem a ha P (h.mem a ha P hP)
  cover P x := (h'.cover P x).trans (h.cover P x)
  steady := h.steady.trans h'.steady

theorem Frame.mono (h : Frame s A s' A' K) (hK : ∀ a, K' a → K a) : Frame s A s' A' K' where
  addr a ha := h.addr a (hK a ha)
  size a ha := h.size a (hK a ha)
  used a ha := h.used a (hK a ha)
  dsNext a ha := h.dsNext a (hK a ha)
  mem a ha := h.mem a (hK a ha)
  cover := h.cover
  steady := h.steady

theorem Frame.noPage (h : Frame s A s' A' K) {e : Panic} (he : s'.NoPage e) : s.NoPage e :=
  ⟨he.1, fun hs => he.2 (h.steady.enough hs)⟩

theorem IntStep.frame (h : State.IntStep s s') : Frame s A s' A K := by
  obtain ⟨mp, nf, fa, sp, sl, rfl⟩ := h.eq
  exact ⟨fun _ _ => rfl, fun _ _ => rfl, fun _ _ => rfl, fun _ _ => rfl, fun _ _ _ h => h,
    fun _ _ => Iff.rfl, h.steady⟩

/-! ## The invariant under writes that do not concern it -/

theorem freeAreas_congr (hp : s'.internalAreas.Perm s.internalAreas) :
    freeAreas s' A H = freeAreas s A H := by
  funext P
  ext a
  simp [freeAreas, hp.mem_iff]

theorem Inv.mem_live (I : Inv s A H T) (ha : a ∈ A P) : a ∈ s.live := (I.live a).mpr ⟨P, ha⟩

theorem Inv.intStep (I : Inv s A H T) (h : State.IntStep s s') : Inv s' A H T := by
  have hmem : ∀ a, a ∈ s'.internalAreas ↔ a ∈ s.internalAreas := fun a => h.perm.mem_iff
  have hfree := @freeAreas_congr s s' A H h.perm
  obtain ⟨mp, nf, fa, sp, sl, rfl⟩ := h.eq
  refine ⟨?_, ?_, I.live_nodup, I.live, ?_, I.held, ?_, ?_, ?_, h.ok I.pool⟩
  · exact I.area.congr (fun _ _ _ => rfl) (fun _ _ _ => rfl) (fun _ _ _ => rfl) (fun _ _ _ => rfl)
      fun _ => rfl
  · rw [hfree]
    exact I.free.congr (fun _ _ _ => rfl) (fun _ _ _ => rfl) (fun _ _ _ => rfl) (fun _ => rfl)
      fun _ => rfl
  · exact (h.perm.append_left H).nodup_iff.mpr I.owned
  · exact fun a ha => I.internal a ((hmem a).mp ha)
  · intro P a ha hT
    rw [hmem]
    exact I.flag P a ha hT
  · exact I.null

/-- The order of the areas in use does not matter. -/
theorem Inv.perm {H' : List Ptr} (I : Inv s A H T) (h : H.Perm H') : Inv s A H' T := by
  have hfree : freeAreas s A H' = freeAreas s A H := by
    funext P
    ext a
    simp [freeAreas, h.mem_iff]
  refine ⟨I.area, hfree ▸ I.free, I.live_nodup, I.live, ?_, ?_, I.internal, ?_, ?_, I.pool⟩
  · exact (h.append_right _).nodup_iff.mp I.owned
  · exact fun a ha => I.held a (h.mem_iff.mpr ha)
  · intro P a ha hT
    rw [← h.mem_iff]
    exact I.flag P a ha hT
  · intro P a ha hH
    exact I.null P a ha fun h' => hH (h.mem_iff.mp h')

theorem Coalesced.perm {H' : List Ptr} (h : H.Perm H') (hc : Coalesced s A H) :
    Coalesced s A H' := by
  have hfree : freeAreas s A H' = freeAreas s A H := by
    funext P
    ext a
    simp [freeAreas, h.mem_iff]
  intro P
  rw [hfree]
  exact hc P

/-! ## Adding a free area -/

/-- The state `s'` is `s` with a new free area `p`. -/
structure Added (s s' : State) (p : Ptr) (x n : Nat) : Prop where
  fresh : p ∉ s.live
  addr : s'.addr = Function.update s.addr p x
  size : s'.size = Function.update s.size p n
  used : s'.used = Function.update s.used p false
  dsNext : s'.dsNext = Function.update s.dsNext p none
  areas : s'.internalAreas.Perm s.internalAreas
  grown : s.OnlyGrown s'
  live : s'.live = p :: s.live
  steady : s.Steady s'
  reserved : ∀ P, (s'.pools P).reserved = (s.pools P).reserved

theorem Inv.addFreeArea (I : Inv s A H T) (hr : PageArea x n)
    (hap : ∀ b ∈ A P, s.addr b + s.size b ≤ x ∨ x + n ≤ s.addr b) :
    Meets (s.addFreeArea P x n)
      (fun s' => ∃ p, Added s s' p x n ∧ Inv s' (addTo A P p) H T) s.NoPage := by
  unfold State.addFreeArea
  refine (State.allocAreaDesc_meets I.pool).bind ?_
  rintro ⟨p, s₂⟩ ⟨hfresh, s₁, hstep, hgrown, heq⟩
  simp only at hfresh heq
  subst heq
  have hne : ∀ Q, ∀ b ∈ A Q, b ≠ p := fun Q b hb e => hfresh (e ▸ I.mem_live hb)
  have hpH : p ∉ H := fun h => hfresh ((I.live p).mpr (I.held p h))
  have hpI : p ∉ s.internalAreas := fun h => hfresh (I.mem_live (I.internal p h))
  have I₁ := I.intStep hstep
  have hareas := hstep.perm
  have hsteady := hstep.steady
  obtain ⟨mp, nf, fa, sp, sl, rfl⟩ := hstep.eq
  change Meets ((((({ s.withInternal mp nf fa sp sl with live := p :: s.live } : State).setRange p x
    n).setDsNext p none).setUsed p false).addArea P p >>= fun s => s.addFree P p) _ _
  generalize ht : ((({ s.withInternal mp nf fa sp sl with live := p :: s.live } : State).setRange p x
    n).setDsNext p none).setUsed p false = t
  have htA : AreaInv t A := by
    subst ht
    refine I₁.area.congr (fun Q b hb => ?_) (fun Q b hb => ?_) (fun _ _ _ => rfl)
      (fun _ _ _ => rfl) fun _ => rfl
    · exact Function.update_of_ne (hne Q b hb) _ _
    · exact Function.update_of_ne (hne Q b hb) _ _
  have hfield : t.addr = Function.update s.addr p x ∧ t.size = Function.update s.size p n ∧
      t.used = Function.update s.used p false ∧ t.dsNext = Function.update s.dsNext p none ∧
      t.live = p :: s.live := by
    subst ht; exact ⟨rfl, rfl, rfl, rfl, rfl⟩
  obtain ⟨haddr, hsize, hused, hds, hlive⟩ := hfield
  have htI : t.internalAreas.Perm s.internalAreas := by subst ht; exact hareas
  obtain ⟨an, ap, al, hadd, hA'⟩ := @AreaInv.addArea t A P p htA (fun Q h => hne Q p h rfl)
    (by rw [haddr, hsize]; simpa using hr)
    (fun b hb => by
      rw [haddr, hsize, Function.update_of_ne (hne P b hb), Function.update_of_ne (hne P b hb)]
      simpa using hap b hb)
    (fun b hb => by rw [hlive]; exact List.mem_cons_of_mem _ (I.mem_live hb))
  rw [hadd]
  have hfree : FreeInv (t.withAreaList P an ap al) (freeAreas s A H) := by
    subst ht
    refine I.free.congr (fun Q b hb => ?_) (fun _ _ _ => rfl) (fun _ _ _ => rfl) (fun Q => ?_)
      fun Q => ?_
    · exact Function.update_of_ne (hne Q b hb.1) _ _
    · exact State.withAreaList_freeList _ _ _ _ _ _
    · exact State.withAreaList_free _ _ _ _ _ _
  obtain ⟨fn, fp, fl, free, hadd', hF'⟩ := @FreeInv.addFree _ _ P p hfree
    (fun Q h => hne Q p h.1 rfl)
    (fun b hb => by
      rw [State.withAreaList_live, hlive]
      exact List.mem_cons_of_mem _ (I.mem_live hb.1))
  refine Meets.of_eq_ok hadd' ⟨p, ⟨hfresh, haddr, hsize, hused, hds, htI, ?_, hlive, ?_, ?_⟩, ?_⟩
  · subst ht; exact hgrown
  · subst ht; exact ⟨hsteady.enough, hsteady.room, hsteady.initial⟩
  · intro Q
    rw [State.withFreeList_reserved, State.withAreaList_reserved]
    subst ht
    rfl
  -- the invariant of the new state
  have hfreeEq : freeAreas ((t.withAreaList P an ap al).withFreeList P fn fp fl free)
      (addTo A P p) H = addTo (freeAreas s A H) P p := by
    funext Q
    ext b
    simp only [freeAreas, Set.mem_ofPred_eq, mem_addTo, State.withFreeList_internalAreas,
      State.withAreaList_internalAreas, htI.mem_iff]
    constructor
    · rintro ⟨h1 | h1, h2, h3⟩
      · exact .inl ⟨h1, h2, h3⟩
      · exact .inr h1
    · rintro (⟨h1, h2, h3⟩ | ⟨h1, rfl⟩)
      · exact ⟨.inl h1, h2, h3⟩
      · exact ⟨.inr ⟨h1, rfl⟩, hpH, hpI⟩
  refine ⟨?_, ?_, ?_, ?_, ?_, ?_, ?_, ?_, ?_, ?_⟩
  · exact hA'.congr (fun _ _ _ => rfl) (fun _ _ _ => rfl) (fun _ _ _ => rfl) (fun _ _ _ => rfl)
      fun Q => State.withFreeList_areaList _ _ _ _ _ _ Q
  · rw [hfreeEq]; exact hF'
  · simp only [State.withFreeList_live, State.withAreaList_live, hlive]
    exact List.nodup_cons.mpr ⟨hfresh, I.live_nodup⟩
  · intro a
    simp only [State.withFreeList_live, State.withAreaList_live, hlive, List.mem_cons, I.live,
      mem_addTo]
    constructor
    · rintro (rfl | ⟨Q, hQ⟩)
      · exact ⟨P, .inr ⟨rfl, rfl⟩⟩
      · exact ⟨Q, .inl hQ⟩
    · rintro ⟨Q, hQ | ⟨-, rfl⟩⟩
      · exact .inr ⟨Q, hQ⟩
      · exact .inl rfl
  · exact (htI.append_left H).nodup_iff.mpr I.owned
  · intro a ha
    obtain ⟨Q, hQ⟩ := I.held a ha
    exact ⟨Q, .inl hQ⟩
  · exact fun a ha => .inl (I.internal a (htI.mem_iff.mp ha))
  · rintro Q a (ha | ⟨-, rfl⟩) hT
    · simp only [State.withFreeList_used, State.withAreaList_used, hused,
        Function.update_of_ne (hne Q a ha), State.withFreeList_internalAreas,
        State.withAreaList_internalAreas, htI.mem_iff]
      exact I.flag Q a ha hT
    · simp [hused, htI.mem_iff, hpH, hpI]
  · rintro Q a (ha | ⟨-, rfl⟩) haH
    · simp only [State.withFreeList_dsNext, State.withAreaList_dsNext, hds,
        Function.update_of_ne (hne Q a ha)]
      exact I.null Q a ha haH
    · simp [hds]
  · subst ht; exact I₁.pool

/-- The state `s'` is `s` with the range of `n` bytes at `x` added as a free area of pool `P`, if it
is not empty. -/
structure Grown (s : State) (A : Nat → Set Ptr) (H : List Ptr) (s' : State) (A' : Nat → Set Ptr)
    (P x n : Nat) : Prop where
  sub : ∀ Q, ∀ a ∈ A Q, a ∈ A' Q
  new : ∀ Q, ∀ a ∈ A' Q, a ∈ A Q ∨ Q = P ∧ 0 < n ∧ s'.addr a = x ∧ s'.size a = n
  addr : ∀ a ∈ s.live, s'.addr a = s.addr a
  size : ∀ a ∈ s.live, s'.size a = s.size a
  used : ∀ a ∈ s.live, s'.used a = s.used a
  dsNext : ∀ a ∈ s.live, s'.dsNext a = s.dsNext a
  live : ∀ a ∈ s.live, a ∈ s'.live
  areas : s'.internalAreas.Perm s.internalAreas
  grown : s.OnlyGrown s'
  steady : s.Steady s'
  reserved : ∀ P, (s'.pools P).reserved = (s.pools P).reserved
  cover : ∀ Q y, Covered s' A' Q y ↔ Covered s A Q y ∨ Q = P ∧ x ≤ y ∧ y < x + n
  coal : Coalesced s A H → (0 < n → Isolated s A H P x n) → Coalesced s' A' H

theorem Grown.keeps (h : Grown s A H s' A' P x n) (I : Inv s A H T) : s.KeepsInternal s' := by
  have hlive : ∀ a ∈ s'.internalAreas, a ∈ s.live := fun a ha =>
    I.mem_live (I.internal a (h.areas.mem_iff.mp ha))
  exact ⟨⟨fun a ha => h.areas.mem_iff.mp ha,
    fun a ha => ⟨h.addr a (hlive a ha), h.size a (hlive a ha)⟩, h.reserved⟩,
    fun a ha => h.areas.mem_iff.mpr ha⟩

theorem Inv.grown_zero (s : State) (A : Nat → Set Ptr) (H : List Ptr) (P x : Nat) :
    Grown s A H s A P x 0 where
  sub _ _ h := h
  new _ _ h := .inl h
  addr _ _ := rfl
  size _ _ := rfl
  used _ _ := rfl
  dsNext _ _ := rfl
  live _ h := h
  areas := .rfl
  grown := .refl s
  steady := .refl s
  reserved _ := rfl
  cover Q y := ⟨.inl, fun h => h.elim id fun ⟨_, h1, h2⟩ => by omega⟩
  coal h _ := h

theorem Inv.grown (I : Inv s A H T) (h : Added s s' p x n) (hn : 0 < n) :
    Grown s A H s' (addTo A P p) P x n := by
  have hne : ∀ a ∈ s.live, a ≠ p := fun a ha e => h.fresh (e ▸ ha)
  have haddr : ∀ a ∈ s.live, s'.addr a = s.addr a := fun a ha => by simp [h.addr, hne a ha]
  have hsize : ∀ a ∈ s.live, s'.size a = s.size a := fun a ha => by simp [h.size, hne a ha]
  have hpa : s'.addr p = x := by simp [h.addr]
  have hps : s'.size p = n := by simp [h.size]
  have hold : ∀ Q, ∀ a ∈ freeAreas s' (addTo A P p) H Q,
      a ∈ freeAreas s A H Q ∨ Q = P ∧ a = p := by
    rintro Q a ⟨ha | ha, hH, hI⟩
    · exact .inl ⟨ha, hH, fun h' => hI (h.areas.mem_iff.mpr h')⟩
    · exact .inr ha
  refine ⟨fun Q a ha => .inl ha, ?_, haddr, hsize, ?_, ?_, ?_, h.areas, h.grown, h.steady,
    h.reserved, ?_, ?_⟩
  · rintro Q a (ha | ⟨rfl, rfl⟩)
    · exact .inl ha
    · exact .inr ⟨rfl, hn, hpa, hps⟩
  · exact fun a ha => by simp [h.used, hne a ha]
  · exact fun a ha => by simp [h.dsNext, hne a ha]
  · exact fun a ha => by simp [h.live, ha]
  · intro Q y
    constructor
    · rintro ⟨a, ha | ⟨rfl, rfl⟩, h1, h2⟩
      · rw [haddr a (I.mem_live ha)] at h1 h2
        rw [hsize a (I.mem_live ha)] at h2
        exact .inl ⟨a, ha, h1, h2⟩
      · rw [hpa] at h1 h2
        rw [hps] at h2
        exact .inr ⟨rfl, h1, h2⟩
    · rintro (⟨a, ha, h1, h2⟩ | ⟨rfl, h1, h2⟩)
      · refine ⟨a, .inl ha, ?_, ?_⟩
        · rwa [haddr a (I.mem_live ha)]
        · rwa [haddr a (I.mem_live ha), hsize a (I.mem_live ha)]
      · exact ⟨p, .inr ⟨rfl, rfl⟩, by rwa [hpa], by rwa [hpa, hps]⟩
  · intro hc hiso Q a ha b hb
    have hiso := hiso hn
    rcases hold Q a ha with ha' | ⟨rfl, rfl⟩ <;> rcases hold Q b hb with hb' | ⟨hQ, rfl⟩
    · rw [haddr a (I.mem_live ha'.1), hsize a (I.mem_live ha'.1), haddr b (I.mem_live hb'.1)]
      exact hc Q a ha' b hb'
    · subst hQ
      rw [haddr a (I.mem_live ha'.1), hsize a (I.mem_live ha'.1), hpa]
      exact (hiso a ha').1
    · rw [hpa, hps, haddr b (I.mem_live hb'.1)]
      exact (hiso b hb').2
    · rw [hpa, hps]
      omega

/-- A remainder of an area is added if it is not empty. -/
theorem Inv.addRemainder (I : Inv s A H T) (hr : 0 < n → PageArea x n)
    (hap : 0 < n → ∀ b ∈ A P, s.addr b + s.size b ≤ x ∨ x + n ≤ s.addr b) :
    Meets (s.addRemainder P x n)
      (fun s' => ∃ A', Grown s A H s' A' P x n ∧ Inv s' A' H T) s.NoPage := by
  unfold State.addRemainder
  split
  next hn =>
    refine (I.addFreeArea (hr hn) (hap hn)).imp ?_
    rintro s' ⟨p, hadd, I'⟩
    exact ⟨_, I.grown hadd hn, I'⟩
  next hn =>
    obtain rfl : n = 0 := by omega
    exact ⟨A, Inv.grown_zero s A H P x, I⟩

/-! ## Changing the range of an area in use -/

theorem Inv.setRange (I : Inv s A H T) (ha : a ∈ A P) (haH : a ∈ H) (hr : PageArea x n)
    (hlo : ∀ b ∈ A P, s.addr b + s.size b ≤ s.addr a → s.addr b + s.size b ≤ x)
    (hhi : ∀ b ∈ A P, s.addr a + s.size a ≤ s.addr b → x + n ≤ s.addr b) :
    Inv (s.setRange a x n) A H T := by
  refine ⟨I.area.setRange ha hr hlo hhi, ?_, I.live_nodup, I.live, I.owned, I.held, I.internal,
    I.flag, I.null, I.pool⟩
  refine I.free.congr (fun Q b hb => ?_) (fun _ _ _ => rfl) (fun _ _ _ => rfl) (fun _ => rfl)
    fun _ => rfl
  have : b ≠ a := fun e => hb.2.1 (e ▸ haH)
  simp [State.setRange, this]

theorem Inv.setUsed (I : Inv s A H T) (ha : a ∈ H) (hT : T = none ∨ T = some a) :
    Inv (s.setUsed a true) A H none := by
  refine ⟨?_, ?_, I.live_nodup, I.live, I.owned, I.held, I.internal, ?_, I.null, I.pool⟩
  · exact I.area.congr (fun _ _ _ => rfl) (fun _ _ _ => rfl) (fun _ _ _ => rfl) (fun _ _ _ => rfl)
      fun _ => rfl
  · exact I.free.congr (fun _ _ _ => rfl) (fun _ _ _ => rfl) (fun _ _ _ => rfl) (fun _ => rfl)
      fun _ => rfl
  · intro P b hb _
    by_cases hba : b = a
    · subst hba
      simp only [State.setUsed, Function.update_self, true_iff]
      exact .inl ha
    · simp only [State.setUsed, Function.update_of_ne hba]
      refine I.flag P b hb ?_
      rcases hT with rfl | rfl
      · simp
      · simpa using hba

theorem Inv.setDsNext (I : Inv s A H T) (ha : a ∈ H) (q : Option Ptr) :
    Inv (s.setDsNext a q) A H T := by
  refine ⟨?_, ?_, I.live_nodup, I.live, I.owned, I.held, I.internal, I.flag, ?_, I.pool⟩
  · exact I.area.congr (fun _ _ _ => rfl) (fun _ _ _ => rfl) (fun _ _ _ => rfl) (fun _ _ _ => rfl)
      fun _ => rfl
  · exact I.free.congr (fun _ _ _ => rfl) (fun _ _ _ => rfl) (fun _ _ _ => rfl) (fun _ => rfl)
      fun _ => rfl
  · intro P b hb hbH
    have : b ≠ a := fun e => hbH (e ▸ ha)
    simp only [State.setDsNext, Function.update_of_ne this]
    exact I.null P b hb hbH

/-- Taking a free area out of its free list puts it into the hands of the operation. -/
theorem Inv.removeFree (I : Inv s A H none) (ha : a ∈ freeAreas s A H P) :
    ∃ fn fp fl free, s.removeFree P a = .ok (s.withFreeList P fn fp fl free) ∧
      Inv (s.withFreeList P fn fp fl free) A (a :: H) (some a) := by
  obtain ⟨fn, fp, fl, free, heq, hF⟩ := I.free.removeFree ha
  obtain ⟨haP, haH, haI⟩ := ha
  refine ⟨fn, fp, fl, free, heq, ?_, ?_, I.live_nodup, I.live, ?_, ?_, I.internal, ?_, ?_, I.pool⟩
  · exact I.area.congr (fun _ _ _ => rfl) (fun _ _ _ => rfl) (fun _ _ _ => rfl) (fun _ _ _ => rfl)
      fun Q => State.withFreeList_areaList _ _ _ _ _ _ Q
  · have : freeAreas (s.withFreeList P fn fp fl free) A (a :: H) = without (freeAreas s A H) a := by
      funext Q
      ext b
      simp only [freeAreas, Set.mem_ofPred_eq, mem_without, List.mem_cons, not_or,
        State.withFreeList_internalAreas]
      tauto
    rw [this]
    exact hF
  · simp only [List.cons_append, List.nodup_cons, List.mem_append, not_or]
    exact ⟨⟨haH, haI⟩, I.owned⟩
  · intro b hb
    rcases List.mem_cons.mp hb with rfl | hb
    · exact ⟨P, haP⟩
    · exact I.held b hb
  · intro Q b hb hba
    have hba : b ≠ a := fun e => hba (by rw [e])
    simp only [List.mem_cons, hba, false_or]
    exact I.flag Q b hb (by simp)
  · intro Q b hb hbH
    exact I.null Q b hb fun h => hbH (List.mem_cons_of_mem _ h)

/-- An area in the hands of the operation goes into its free list. -/
theorem Inv.addFree (I : Inv s A (a :: H) (some a)) (haP : a ∈ A P) (hused : s.used a = false)
    (hnull : s.dsNext a = none) :
    ∃ fn fp fl free, s.addFree P a = .ok (s.withFreeList P fn fp fl free) ∧
      Inv (s.withFreeList P fn fp fl free) A H none := by
  have hown := I.owned
  simp only [List.cons_append, List.nodup_cons, List.mem_append, not_or] at hown
  obtain ⟨⟨haH, haI⟩, hown⟩ := hown
  obtain ⟨fn, fp, fl, free, heq, hF⟩ := @FreeInv.addFree _ _ P a I.free
    (fun Q h => h.2.1 (by simp)) fun b hb => I.mem_live hb.1
  refine ⟨fn, fp, fl, free, heq, ?_, ?_, I.live_nodup, I.live, hown, ?_, I.internal, ?_, ?_,
    I.pool⟩
  · exact I.area.congr (fun _ _ _ => rfl) (fun _ _ _ => rfl) (fun _ _ _ => rfl) (fun _ _ _ => rfl)
      fun Q => State.withFreeList_areaList _ _ _ _ _ _ Q
  · have : freeAreas (s.withFreeList P fn fp fl free) A H =
        addTo (freeAreas s A (a :: H)) P a := by
      funext Q
      ext b
      simp only [freeAreas, Set.mem_ofPred_eq, mem_addTo, List.mem_cons, not_or,
        State.withFreeList_internalAreas]
      constructor
      · rintro ⟨h1, h2, h3⟩
        by_cases hba : b = a
        · subst hba
          exact .inr ⟨I.area.disj h1 haP, rfl⟩
        · exact .inl ⟨h1, ⟨hba, h2⟩, h3⟩
      · rintro (⟨h1, ⟨-, h2⟩, h3⟩ | ⟨rfl, rfl⟩)
        · exact ⟨h1, h2, h3⟩
        · exact ⟨haP, haH, haI⟩
    rw [this]
    exact hF
  · exact fun b hb => I.held b (List.mem_cons_of_mem _ hb)
  · intro Q b hb _
    by_cases hba : b = a
    · subst hba
      simp [hused, haH, haI]
    · have := I.flag Q b hb (by simpa using hba)
      simpa [hba] using this
  · intro Q b hb hbH
    by_cases hba : b = a
    · subst hba; exact hnull
    · exact I.null Q b hb (by simp [hba, hbH])

end

end L4env.DMphys
