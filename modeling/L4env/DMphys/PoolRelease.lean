import L4env.DMphys.PoolSplit

/-!
# Releasing areas

`__release_area` merges an area with the free areas that border on it and puts it into its free
list. A released descriptor may hand a page of the descriptor memory back, which is released in turn
(`dmphys_internal_alloc_update_free`); the recursion ends because every round uses up a page.
-/

namespace L4env.DMphys

section
variable {s s' s'' : State} {A A' A'' : Nat → Set Ptr} {H : List Ptr} {T : Option Ptr} {P : Nat}
  {a b : Ptr}

/-! ## Merging -/

/-- A free area that is removed from both of its lists. -/
theorem Inv.unlink (I : Inv s A H T) (hb : b ∈ freeAreas s A H P) :
    ∃ fn fp fl free an ap al, s.removeFree P b = .ok (s.withFreeList P fn fp fl free) ∧
      (s.withFreeList P fn fp fl free).removeArea P b =
        .ok ((s.withFreeList P fn fp fl free).withAreaList P an ap al) ∧
      AreaInv ((s.withFreeList P fn fp fl free).withAreaList P an ap al) (without A b) ∧
      FreeInv ((s.withFreeList P fn fp fl free).withAreaList P an ap al)
        (without (freeAreas s A H) b) := by
  obtain ⟨fn, fp, fl, free, heq, hF⟩ := I.free.removeFree hb
  have hA : AreaInv (s.withFreeList P fn fp fl free) A :=
    I.area.congr (fun _ _ _ => rfl) (fun _ _ _ => rfl) (fun _ _ _ => rfl) (fun _ _ _ => rfl)
      fun Q => State.withFreeList_areaList _ _ _ _ _ _ Q
  obtain ⟨an, ap, al, heq', hA'⟩ := hA.removeArea hb.1
  refine ⟨fn, fp, fl, free, an, ap, al, heq, heq', hA', ?_⟩
  exact hF.congr (fun _ _ _ => rfl) (fun _ _ _ => rfl) (fun _ _ _ => rfl)
    (fun Q => State.withAreaList_freeList _ _ _ _ _ Q) fun Q => State.withAreaList_free _ _ _ _ _ Q

/-- The state `s'` is `s` after a part of `__release_area`. -/
structure Merged (s : State) (A : Nat → Set Ptr) (H : List Ptr) (T : Option Ptr) (P : Nat) (a : Ptr)
    (s' : State) (A' : Nat → Set Ptr) : Prop where
  inv : Inv s' A' H T
  mem : a ∈ A' P
  used : s'.used a = s.used a
  dsNext : s'.dsNext a = s.dsNext a
  frame : Frame s A s' A' fun b => b ∈ H ∧ b ≠ a
  backlog : s'.backlog ≤ s.backlog
  coal : Coalesced s A H → Coalesced s' A' H
  kept : s.KeepsInternal s'

theorem Merged.refl (I : Inv s A H T) (ha : a ∈ A P) : Merged s A H T P a s A :=
  ⟨I, ha, rfl, rfl, Frame.refl _ _ _, le_rfl, id, .refl s⟩

/-- The state `s'` is `s` with the area `a` at `x`, enlarged by the range of `b`, and without `b`. -/
structure Absorbed (s : State) (A : Nat → Set Ptr) (H : List Ptr) (a b : Ptr) (x : Nat)
    (s' : State) : Prop where
  area : AreaInv s' (without A b)
  free : FreeInv s' (without (freeAreas s A H) b)
  addr : ∀ c, c ≠ b → s'.addr c = Function.update s.addr a x c
  size : ∀ c, c ≠ b → s'.size c = Function.update s.size a (s.size a + s.size b) c
  used : s'.used = s.used
  dsNext : s'.dsNext = s.dsNext
  live : s'.live = s.live.erase b
  areas : s'.internalAreas.Perm s.internalAreas
  pool : s'.MemPoolOk
  backlog : s'.backlog ≤ s.backlog
  steady : s.Steady s'
  reserved : ∀ P, (s'.pools P).reserved = (s.pools P).reserved

/-- The range `x`, `size a + size b` is the union of two areas that border on each other. -/
def Joins (s : State) (a b : Ptr) (x : Nat) : Prop :=
  s.addr b + s.size b = s.addr a ∧ x = s.addr b ∨ s.addr a + s.size a = s.addr b ∧ x = s.addr a

theorem Inv.joins_range (I : Inv s A H T) (ha : a ∈ A P) (hb : b ∈ A P) (hx : Joins s a b x) :
    PageArea x (s.size a + s.size b) := by
  have hrb := I.area.range hb
  have hr := I.area.range ha
  have h1 := hrb.bound
  have h2 := hr.bound
  have h3 := hrb.addr_aligned
  have h4 := hr.addr_aligned
  have h5 := hrb.size_aligned
  have h6 := hr.size_aligned
  have h7 := hr.pos
  unfold pageSize at h3 h4 h5 h6
  unfold Joins at hx
  refine ⟨?_, ?_, by omega, by omega⟩
  · unfold pageSize; omega
  · unfold pageSize; omega

/-- The descriptor of an area that is in no list any more is released. -/
theorem Absorbed.of_release {t : State} (hA : AreaInv t (without A b))
    (hF : FreeInv t (without (freeAreas s A H) b))
    (haddr : ∀ c, c ≠ b → t.addr c = Function.update s.addr a x c)
    (hsize : ∀ c, c ≠ b → t.size c = Function.update s.size a (s.size a + s.size b) c)
    (hused : t.used = s.used) (hds : t.dsNext = s.dsNext) (hlive : t.live = s.live)
    (hareas : t.internalAreas = s.internalAreas) (hback : t.backlog = s.backlog)
    (hsteady : s.Steady t) (hroom : t.Room) (hok : t.MemPoolOk)
    (hres : ∀ P, (t.pools P).reserved = (s.pools P).reserved) :
    Absorbed s A H a b x (t.releaseAreaDesc b) := by
  obtain ⟨s₄, hstep, hback', hrel⟩ := State.releaseAreaDesc_step hok hroom b
  rw [hrel]
  have hperm := hstep.perm
  have hok' := hstep.ok hok
  have hsteady' := hsteady.trans hstep.steady
  obtain ⟨mp, nf, fa, sp, sl, rfl⟩ := hstep.eq
  refine ⟨?_, ?_, haddr, hsize, hused, hds, ?_, ?_, hok', ?_, ?_, hres⟩
  · exact hA.congr (fun _ _ _ => rfl) (fun _ _ _ => rfl) (fun _ _ _ => rfl) (fun _ _ _ => rfl)
      fun _ => rfl
  · exact hF.congr (fun _ _ _ => rfl) (fun _ _ _ => rfl) (fun _ _ _ => rfl) (fun _ => rfl)
      fun _ => rfl
  · exact congrArg (·.erase b) hlive
  · rw [← hareas]; exact hperm
  · rw [← hback]; exact hback'
  · exact ⟨hsteady'.enough, hsteady'.room, hsteady'.initial⟩

/-- The area `a` takes over the range of a free neighbour. -/
theorem Inv.absorb (I : Inv s A H T) (ha : a ∈ A P) (haH : a ∈ H) (hb : b ∈ freeAreas s A H P)
    (hroom : s.Room) (hx : Joins s a b x) :
    ∃ s₁ s₂ s', s.removeFree P b = .ok s₁ ∧ s₁.removeArea P b = .ok s₂ ∧ s₂.addr = s.addr ∧
      s₂.size = s.size ∧ (s₂.setRange a x (s.size a + s.size b)).releaseAreaDesc b = s' ∧
      Absorbed s A H a b x s' := by
  obtain ⟨fn, fp, fl, free, an, ap, al, hrf, hra, hA, hF⟩ := I.unlink hb
  refine ⟨_, _, _, hrf, hra, rfl, rfl, rfl, ?_⟩
  have hba : b ≠ a := fun e => hb.2.1 (e ▸ haH)
  have hpa := (I.area.range ha).pos
  -- the other areas of the pool stay on their side of the larger range
  have hother : ∀ c ∈ A P, c ≠ b →
      (s.addr c + s.size c ≤ s.addr a → s.addr c + s.size c ≤ x) ∧
      (s.addr a + s.size a ≤ s.addr c → x + (s.size a + s.size b) ≤ s.addr c) := by
    intro c hc hcb
    have h1 := I.area.apart hc hb.1 hcb
    have h2 := (I.area.range hc).pos
    unfold Joins at hx
    omega
  refine Absorbed.of_release ?_ ?_ (fun _ _ => rfl) (fun _ _ => rfl) rfl rfl rfl rfl rfl
    ⟨id, id, rfl⟩ hroom I.pool fun Q => (State.withAreaList_reserved _ _ _ _ _ Q).trans
      (State.withFreeList_reserved _ _ _ _ _ _ Q)
  · exact hA.setRange ⟨ha, Ne.symm hba⟩ (I.joins_range ha hb.1 hx)
      (fun c hc => (hother c hc.1 hc.2).1) fun c hc => (hother c hc.1 hc.2).2
  · refine hF.congr (fun Q c hc => ?_) (fun _ _ _ => rfl) (fun _ _ _ => rfl) (fun _ => rfl)
      fun _ => rfl
    have hca : c ≠ a := fun e => hc.1.2.1 (e ▸ haH)
    exact Function.update_of_ne hca _ _

theorem Absorbed.keep (h : Absorbed s A H a b x s') (hca : c ≠ a) (hcb : c ≠ b) :
    s'.addr c = s.addr c ∧ s'.size c = s.size c := by
  rw [h.addr c hcb, h.size c hcb]
  simp [hca]

theorem Absorbed.at_self (h : Absorbed s A H a b x s') (hba : b ≠ a) :
    s'.addr a = x ∧ s'.size a = s.size a + s.size b := by
  rw [h.addr a (Ne.symm hba), h.size a (Ne.symm hba)]
  simp

theorem Absorbed.free_sub (h : Absorbed s A H a b x s') (haH : a ∈ H)
    (hc : c ∈ freeAreas s' (without A b) H P) :
    c ∈ freeAreas s A H P ∧ c ≠ a ∧ c ≠ b :=
  ⟨⟨hc.1.1, hc.2.1, fun h' => hc.2.2 (h.areas.mem_iff.mpr h')⟩, fun e => hc.2.1 (e ▸ haH), hc.1.2⟩

theorem Absorbed.inv (h : Absorbed s A H a b x s') (I : Inv s A H T)
    (hb : b ∈ freeAreas s A H P) : Inv s' (without A b) H T := by
  refine ⟨h.area, ?_, ?_, ?_, ?_, ?_, ?_, ?_, ?_, h.pool⟩
  · have : freeAreas s' (without A b) H = without (freeAreas s A H) b := by
      funext Q
      ext c
      simp only [freeAreas, Set.mem_ofPred_eq, mem_without, h.areas.mem_iff]
      tauto
    rw [this]
    exact h.free
  · rw [h.live]
    exact I.live_nodup.erase b
  · intro c
    rw [h.live, I.live_nodup.mem_erase_iff, I.live]
    simp only [mem_without]
    tauto
  · exact (h.areas.append_left H).nodup_iff.mpr I.owned
  · intro c hc
    obtain ⟨Q, hQ⟩ := I.held c hc
    exact ⟨Q, hQ, fun e => hb.2.1 (e ▸ hc)⟩
  · intro c hc
    have hc := h.areas.mem_iff.mp hc
    exact ⟨I.internal c hc, fun e => hb.2.2 (e ▸ hc)⟩
  · rintro Q c ⟨hc, hcb⟩ hT
    rw [h.used, h.areas.mem_iff]
    exact I.flag Q c hc hT
  · rintro Q c ⟨hc, hcb⟩ hcH
    rw [h.dsNext]
    exact I.null Q c hc hcH

theorem Absorbed.cover (h : Absorbed s A H a b x s') (I : Inv s A H T) (ha : a ∈ A P)
    (hb : b ∈ A P) (hba : b ≠ a) (hx : Joins s a b x) :
    Covered s' (without A b) Q z ↔ Covered s A Q z := by
  unfold Joins at hx
  constructor
  · rintro ⟨c, ⟨hc, hcb⟩, h1, h2⟩
    by_cases hca : c = a
    · subst hca
      obtain rfl := I.area.disj hc ha
      rw [(h.at_self hba).1] at h1 h2
      rw [(h.at_self hba).2] at h2
      by_cases hz : s.addr c ≤ z ∧ z < s.addr c + s.size c
      · exact ⟨c, hc, hz⟩
      · exact ⟨b, hb, by omega⟩
    · rw [(h.keep hca hcb).1] at h1 h2
      rw [(h.keep hca hcb).2] at h2
      exact ⟨c, hc, h1, h2⟩
  · rintro ⟨c, hc, h1, h2⟩
    by_cases hca : c = a ∨ c = b
    · have hQ : Q = P := by
        rcases hca with rfl | rfl
        · exact I.area.disj hc ha
        · exact I.area.disj hc hb
      subst hQ
      refine ⟨a, ⟨ha, Ne.symm hba⟩, ?_⟩
      rw [(h.at_self hba).1, (h.at_self hba).2]
      rcases hca with rfl | rfl
      · omega
      · omega
    · obtain ⟨hca, hcb⟩ := not_or.mp hca
      refine ⟨c, ⟨hc, hcb⟩, ?_⟩
      rw [(h.keep hca hcb).1, (h.keep hca hcb).2]
      exact ⟨h1, h2⟩

theorem Absorbed.merged (h : Absorbed s A H a b x s') (I : Inv s A H T) (ha : a ∈ A P)
    (haH : a ∈ H) (hb : b ∈ freeAreas s A H P) (hx : Joins s a b x) :
    Merged s A H T P a s' (without A b) := by
  have hba : b ≠ a := fun e => hb.2.1 (e ▸ haH)
  have hb' : ∀ c ∈ H, c ≠ b := fun c hc e => hb.2.1 (e ▸ hc)
  refine ⟨h.inv I hb, ⟨ha, Ne.symm hba⟩, by rw [h.used], by rw [h.dsNext], ?_, h.backlog, ?_, ?_⟩
  · refine ⟨fun c hc => (h.keep hc.2 (hb' c hc.1)).1, fun c hc => (h.keep hc.2 (hb' c hc.1)).2, ?_,
      ?_, ?_, ?_, h.steady⟩
    · exact fun c _ => by rw [h.used]
    · exact fun c _ => by rw [h.dsNext]
    · exact fun c hc Q hQ => ⟨hQ, fun e => hb.2.1 (e ▸ hc.1)⟩
    · exact fun Q z => h.cover I ha hb.1 hba hx
  · intro hc Q c hcf d hdf
    obtain ⟨hcf, hca, hcb⟩ := h.free_sub haH hcf
    obtain ⟨hdf, hda, hdb⟩ := h.free_sub haH hdf
    rw [(h.keep hca hcb).1, (h.keep hca hcb).2, (h.keep hda hdb).1]
    exact hc Q c hcf d hdf
  · refine ⟨⟨fun c hc => h.areas.mem_iff.mp hc, fun c hc => ?_, h.reserved⟩,
      fun c hc => h.areas.mem_iff.mpr hc⟩
    have hc := h.areas.mem_iff.mp hc
    refine h.keep (fun e => ?_) fun e => hb.2.2 (e ▸ hc)
    exact (List.nodup_append.mp I.owned).2.2 a haH c hc e.symm

/-! ## `__release_area` -/

/-- An area other than the one being released is free if its flag says so. -/
theorem Inv.mem_freeAreas (I : Inv s A H T) (hb : b ∈ A P) (hT : some b ≠ T) :
    b ∈ freeAreas s A H P ↔ s.used b = false := by
  have := I.flag P b hb hT
  rw [← Bool.not_eq_true, this, not_or]
  exact ⟨fun h => h.2, fun h => ⟨hb, h⟩⟩

/-- A free area that ends at `a` is the previous area of the list. -/
theorem Inv.prevUsed (I : Inv s A H T) (ha : a ∈ A P) (hT : ∀ b, T = some b → b = a)
    (h : ∀ b, s.areaPrev a = some b → ¬(s.used b = false ∧ s.addr b + s.size b = s.addr a)) :
    PrevUsed s A H P a := by
  intro c hcf hca
  have hpos := (I.area.range ha).pos
  have hcpos := (I.area.range hcf.1).pos
  cases hprev : s.areaPrev a with
  | none =>
    have := I.area.prev_none ha hprev c hcf.1
    omega
  | some b =>
    obtain ⟨hb, hle, hmax⟩ := I.area.prev ha hprev
    have hbpos := (I.area.range hb).pos
    have hcb : c = b := by
      by_contra hne
      have h1 := hmax c hcf.1 (by omega)
      have h2 := I.area.apart hcf.1 hb hne
      omega
    subst hcb
    have hcT : some c ≠ T := by
      intro e
      have := hT c e.symm
      subst this
      omega
    exact h c hprev ⟨(I.mem_freeAreas hb hcT).mp hcf, hca⟩

/-- A free area that starts where `a` ends is the next area of the list. -/
theorem Inv.nextUsed (I : Inv s A H T) (ha : a ∈ A P) (hT : ∀ b, T = some b → b = a)
    (h : ∀ b, s.areaNext a = some b → ¬(s.used b = false ∧ s.addr a + s.size a = s.addr b)) :
    NextUsed s A H P a := by
  intro c hcf hca
  have hpos := (I.area.range ha).pos
  have hcpos := (I.area.range hcf.1).pos
  cases hnext : s.areaNext a with
  | none =>
    have := I.area.next_none ha hnext c hcf.1
    omega
  | some b =>
    obtain ⟨hb, hle, hmin⟩ := I.area.next ha hnext
    have hbpos := (I.area.range hb).pos
    have hcb : c = b := by
      by_contra hne
      have h1 := hmin c hcf.1 (by omega)
      have h2 := I.area.apart hcf.1 hb hne
      omega
    subst hcb
    have hcT : some c ≠ T := by
      intro e
      have := hT c e.symm
      subst this
      omega
    exact h c hnext ⟨(I.mem_freeAreas hb hcT).mp hcf, hca⟩

theorem Inv.mergePrev (I : Inv s A H (some a)) (ha : a ∈ A P) (haH : a ∈ H) (hroom : s.Room) :
    ∃ s' A', s.mergePrev P a = .ok s' ∧ Merged s A H (some a) P a s' A' ∧
      (Coalesced s A H → PrevUsed s' A' H P a) := by
  have hra := I.area.range ha
  have hpos := hra.pos
  unfold State.mergePrev
  cases hprev : s.areaPrev a with
  | none =>
    exact ⟨s, A, rfl, .refl I ha,
      fun _ => I.prevUsed ha (fun b hb => by cases hb; rfl) (by simp [hprev])⟩
  | some b =>
    obtain ⟨hb, hle, -⟩ := I.area.prev ha hprev
    have hrb := I.area.range hb
    have hbpos := hrb.pos
    have hba' : b ≠ a := by rintro rfl; omega
    have hba : some b ≠ some a := by simpa using hba'
    simp only [Word.add_eq hrb.bound]
    split
    next h =>
      have hbf := (I.mem_freeAreas hb hba).mpr h.1
      have hx : Joins s a b (s.addr b) := .inl ⟨h.2, rfl⟩
      obtain ⟨s₁, s₂, s', hrf, hrm, e1, e2, heq, habs⟩ := I.absorb ha haH hbf hroom hx
      have hsum := (I.joins_range ha hb hx).bound
      refine ⟨s', _, ?_, habs.merged I ha haH hbf hx, fun hc c hcf => ?_⟩
      · simp only [hrf, hrm, bind, Except.bind, e1, e2,
          Word.add_eq (show s.size a + s.size b < 4294967296 by omega), heq]
        rfl
      · obtain ⟨hcf, hca, hcb⟩ := habs.free_sub haH hcf
        rw [(habs.at_self hba').1, (habs.keep hca hcb).1, (habs.keep hca hcb).2]
        exact hc P c hcf b hbf
    next h =>
      refine ⟨s, A, rfl, .refl I ha, fun _ => I.prevUsed ha (fun b hb => by cases hb; rfl) ?_⟩
      rintro c hc
      cases hprev.symm.trans hc
      exact h

theorem Inv.mergeNext (I : Inv s A H (some a)) (ha : a ∈ A P) (haH : a ∈ H) (hroom : s.Room) :
    ∃ s' A', s.mergeNext P a = .ok s' ∧ Merged s A H (some a) P a s' A' ∧
      (Coalesced s A H → NextUsed s' A' H P a) ∧ (PrevUsed s A H P a → PrevUsed s' A' H P a) := by
  have hra := I.area.range ha
  have hpos := hra.pos
  unfold State.mergeNext
  cases hnext : s.areaNext a with
  | none =>
    exact ⟨s, A, rfl, .refl I ha,
      fun _ => I.nextUsed ha (fun b hb => by cases hb; rfl) (by simp [hnext]), id⟩
  | some b =>
    obtain ⟨hb, hle, -⟩ := I.area.next ha hnext
    have hrb := I.area.range hb
    have hbpos := hrb.pos
    have hba' : b ≠ a := by rintro rfl; omega
    have hba : some b ≠ some a := by simpa using hba'
    simp only [Word.add_eq hra.bound]
    split
    next h =>
      have hbf := (I.mem_freeAreas hb hba).mpr h.1
      have hx : Joins s a b (s.addr a) := .inr ⟨h.2, rfl⟩
      obtain ⟨s₁, s₂, s', hrf, hrm, e1, e2, heq, habs⟩ := I.absorb ha haH hbf hroom hx
      have hsum := (I.joins_range ha hb hx).bound
      refine ⟨s', _, ?_, habs.merged I ha haH hbf hx, fun hc c hcf => ?_, fun hp c hcf => ?_⟩
      · simp only [hrf, hrm, bind, Except.bind, e1, e2,
          Word.add_eq (show s.size a + s.size b < 4294967296 by omega), heq]
        rfl
      · obtain ⟨hcf, hca, hcb⟩ := habs.free_sub haH hcf
        rw [(habs.at_self hba').1, (habs.at_self hba').2, (habs.keep hca hcb).1]
        have := hc P b hbf c hcf
        omega
      · obtain ⟨hcf, hca, hcb⟩ := habs.free_sub haH hcf
        rw [(habs.at_self hba').1, (habs.keep hca hcb).1, (habs.keep hca hcb).2]
        exact hp c hcf
    next h =>
      refine ⟨s, A, rfl, .refl I ha, fun _ => I.nextUsed ha (fun b hb => by cases hb; rfl) ?_, id⟩
      rintro c hc
      cases hnext.symm.trans hc
      exact h

/-- An operation that leaves the areas `H'` of the areas `H` in use. -/
structure Leaves (s : State) (A : Nat → Set Ptr) (H H' : List Ptr) (s' : State)
    (A' : Nat → Set Ptr) : Prop where
  inv : Inv s' A' H' none
  frame : Frame s A s' A' (· ∈ H')
  coal : Coalesced s A H → Coalesced s' A' H'

theorem Leaves.refl (I : Inv s A H none) : Leaves s A H H s A := ⟨I, Frame.refl _ _ _, id⟩

theorem Leaves.trans {H₁ H₂ H₃ : List Ptr} (h : Leaves s A H₁ H₂ s' A')
    (h' : Leaves s' A' H₂ H₃ s'' A'') (hsub : ∀ a ∈ H₃, a ∈ H₂) : Leaves s A H₁ H₃ s'' A'' :=
  ⟨h'.inv, (h.frame.mono hsub).trans h'.frame, fun hc => h'.coal (h.coal hc)⟩

/-- A release, which takes no page for the descriptor memory. -/
structure Released (s : State) (A : Nat → Set Ptr) (H H' : List Ptr) (s' : State)
    (A' : Nat → Set Ptr) : Prop extends Leaves s A H H' s' A' where
  backlog : s'.backlog ≤ s.backlog
  kept : s.Retains s'

theorem Released.trans {H₁ H₂ H₃ : List Ptr} (h : Released s A H₁ H₂ s' A')
    (h' : Released s' A' H₂ H₃ s'' A'') (hsub : ∀ a ∈ H₃, a ∈ H₂) :
    Released s A H₁ H₃ s'' A'' :=
  ⟨h.toLeaves.trans h'.toLeaves hsub, h'.backlog.trans h.backlog, h.kept.trans h'.kept⟩

/-- `__release_area`, up to the point where the area is in its free list. -/
theorem Inv.releaseMerge (I : Inv s A (a :: H) none) (ha : a ∈ A P) (hroom : s.Room) :
    ∃ s' A', s.releaseMerge P a = .ok s' ∧ Released s A (a :: H) H s' A' := by
  have haH : a ∈ a :: H := List.mem_cons_self
  have hnd := I.owned
  simp only [List.cons_append, List.nodup_cons, List.mem_append, not_or] at hnd
  have hne : ∀ b ∈ H, b ∈ a :: H ∧ b ≠ a :=
    fun b hb => ⟨List.mem_cons_of_mem _ hb, fun e => hnd.1.1 (e ▸ hb)⟩
  have I₀ : Inv ((s.setUsed a false).setDsNext a none) A (a :: H) (some a) := by
    refine Inv.setDsNext ?_ haH none
    refine ⟨?_, ?_, I.live_nodup, I.live, I.owned, I.held, I.internal, ?_, I.null, I.pool⟩
    · exact I.area.congr (fun _ _ _ => rfl) (fun _ _ _ => rfl) (fun _ _ _ => rfl)
        (fun _ _ _ => rfl) fun _ => rfl
    · exact I.free.congr (fun _ _ _ => rfl) (fun _ _ _ => rfl) (fun _ _ _ => rfl) (fun _ => rfl)
        fun _ => rfl
    · intro Q b hb hba
      have hba : b ≠ a := fun e => hba (by rw [e])
      have := I.flag Q b hb (by simp)
      simp only [State.setUsed, Function.update_of_ne hba]
      exact this
  generalize hs₀ : (s.setUsed a false).setDsNext a none = s₀ at I₀
  have hframe₀ : Frame s A s₀ A fun b => b ∈ a :: H ∧ b ≠ a := by
    subst hs₀
    refine ⟨fun _ _ => rfl, fun _ _ => rfl, ?_, ?_, fun _ _ _ h => h, fun _ _ => Iff.rfl, id, id, rfl⟩
    · exact fun b hb => Function.update_of_ne hb.2 _ _
    · exact fun b hb => Function.update_of_ne hb.2 _ _
  have hu : s₀.used a = false := by subst hs₀; simp [State.setUsed, State.setDsNext]
  have hd : s₀.dsNext a = none := by subst hs₀; simp [State.setDsNext]
  have hback₀ : s₀.backlog = s.backlog := by subst hs₀; rfl
  have hkept₀ : s.Retains s₀ := by
    subst hs₀
    exact ⟨fun _ h => h, fun _ _ => ⟨rfl, rfl⟩, fun _ => rfl⟩
  have hcoal₀ : Coalesced s A (a :: H) → Coalesced s₀ A (a :: H) := by subst hs₀; exact id
  obtain ⟨s₁, A₁, heq₁, M₁, hp₁⟩ := I₀.mergePrev ha haH (hframe₀.steady.room hroom)
  have hroom₁ := M₁.frame.steady.room (hframe₀.steady.room hroom)
  obtain ⟨s₂, A₂, heq₂, M₂, hn₂, hp₂⟩ := M₁.inv.mergeNext M₁.mem haH hroom₁
  obtain ⟨fn, fp, fl, free, heq₃, I₃⟩ := M₂.inv.addFree M₂.mem
    (by rw [M₂.used, M₁.used, hu]) (by rw [M₂.dsNext, M₁.dsNext, hd])
  refine ⟨_, A₂, ?_, ⟨I₃, ?_, ?_⟩, ?_, ?_⟩
  · unfold State.releaseMerge
    simp only [hs₀, heq₁, heq₂, bind, Except.bind, heq₃]
  · have h := (hframe₀.trans M₁.frame).trans M₂.frame
    have h := h.mono hne
    exact ⟨h.addr, h.size, h.used, h.dsNext, h.mem, h.cover, h.steady.enough,
      h.steady.room, h.steady.initial⟩
  · intro hc
    have hc₁ := M₁.coal (hcoal₀ hc)
    have hc₂ := M₂.coal hc₁
    have hprev := hp₂ (hp₁ (hcoal₀ hc))
    have hnext := hn₂ hc₁
    intro Q b hb c hc
    have hmem : ∀ d ∈ freeAreas (s₂.withFreeList P fn fp fl free) A₂ H Q,
        d ∈ freeAreas s₂ A₂ (a :: H) Q ∨ d = a ∧ Q = P := by
      rintro d ⟨hdA, hdH, hdI⟩
      by_cases hda : d = a
      · subst hda
        exact .inr ⟨rfl, M₂.inv.area.disj hdA M₂.mem⟩
      · exact .inl ⟨hdA, by simp [hda, hdH], hdI⟩
    have hpos := (M₂.inv.area.range M₂.mem).pos
    simp only [State.withFreeList_addr, State.withFreeList_size]
    rcases hmem b hb with hb' | ⟨rfl, rfl⟩ <;> rcases hmem c hc with hc' | ⟨rfl, hQ⟩
    · exact hc₂ Q b hb' c hc'
    · subst hQ; exact hprev b hb'
    · exact hnext c hc'
    · omega
  · have := M₂.backlog.trans M₁.backlog
    rw [hback₀] at this
    exact this
  · have h := hkept₀.trans (M₁.kept.trans M₂.kept).toRetains
    exact ⟨h.areas, h.range, fun Q => (State.withFreeList_reserved _ _ _ _ _ _ Q).trans (h.reserved Q)⟩

/-! ## `dmphys_pages_release` -/

/-- An area leaves the table of freed areas to be released. -/
theorem Inv.popFreed (I : Inv s A H none) (hf : s.freedAreas = a :: l) :
    Inv { s with freedAreas := l } A (a :: H) none := by
  have hperm : s.internalAreas.Perm (a :: ({ s with freedAreas := l } : State).internalAreas) := by
    rw [List.perm_iff_count]
    intro z
    simp [State.internalAreas, hf, List.count_cons]
    omega
  have hmem : ∀ b, b ∈ s.internalAreas ↔
      b = a ∨ b ∈ ({ s with freedAreas := l } : State).internalAreas := by
    intro b
    rw [hperm.mem_iff, List.mem_cons]
  refine ⟨?_, ?_, I.live_nodup, I.live, ?_, ?_, ?_, ?_, ?_, I.pool⟩
  · exact I.area.congr (fun _ _ _ => rfl) (fun _ _ _ => rfl) (fun _ _ _ => rfl) (fun _ _ _ => rfl)
      fun _ => rfl
  · have : freeAreas { s with freedAreas := l } A (a :: H) = freeAreas s A H := by
      funext Q
      ext b
      simp only [freeAreas, Set.mem_ofPred_eq, hmem, List.mem_cons]
      tauto
    rw [this]
    exact I.free.congr (fun _ _ _ => rfl) (fun _ _ _ => rfl) (fun _ _ _ => rfl) (fun _ => rfl)
      fun _ => rfl
  · have := (hperm.append_left H).nodup_iff.mp I.owned
    rw [List.perm_middle.nodup_iff] at this
    exact this
  · intro b hb
    rcases List.mem_cons.mp hb with rfl | hb
    · exact ⟨_, I.internal b ((hmem b).mpr (.inl rfl))⟩
    · exact I.held b hb
  · exact fun b hb => I.internal b ((hmem b).mpr (.inr hb))
  · intro Q b hb hT
    have := I.flag Q b hb hT
    rw [hmem] at this
    simp only [List.mem_cons]
    exact this.trans (by tauto)
  · intro Q b hb hbH
    exact I.null Q b hb fun h => hbH (List.mem_cons_of_mem _ h)

theorem Inv.popFreed_coal (hf : s.freedAreas = a :: l) (hc : Coalesced s A H) :
    Coalesced { s with freedAreas := l } A (a :: H) := by
  have hmem : ∀ b, b ∈ s.internalAreas ↔
      b = a ∨ b ∈ ({ s with freedAreas := l } : State).internalAreas := by
    intro b
    simp only [State.internalAreas, hf, List.mem_append, List.mem_cons]
    tauto
  have : freeAreas { s with freedAreas := l } A (a :: H) = freeAreas s A H := by
    funext Q
    ext b
    simp only [freeAreas, Set.mem_ofPred_eq, hmem, List.mem_cons]
    tauto
  intro Q
  rw [this]
  exact hc Q

theorem Inv.popFreed_retains (hf : s.freedAreas = a :: l) : s.Retains { s with freedAreas := l } := by
  refine ⟨fun b hb => ?_, fun _ _ => ⟨rfl, rfl⟩, fun _ => rfl⟩
  simp only [State.internalAreas, hf, List.mem_append, List.mem_cons] at hb ⊢
  tauto

theorem Inv.cons_not_mem (I : Inv s A (a :: H) T) : a ∉ H := by
  have := I.owned
  simp only [List.cons_append, List.nodup_cons, List.mem_append, not_or] at this
  exact this.1.1

/-- Both loops end, each with as many rounds as it needs. -/
theorem release_aux (fuel : Nat) :
    (∀ s A H, Inv s A H none → s.Room → 2 * s.backlog + 1 ≤ fuel →
      ∃ s' A', s.updateFree fuel = .ok s' ∧ Released s A H H s' A' ∧ s'.freedAreas = []) ∧
    (∀ s A H c h P, Inv s A (c ++ H) none → s.Room → IsSList s.dsNext h c → (∀ a ∈ c, a ∈ A P) →
      c.length + 2 * s.backlog + 1 ≤ fuel →
      ∃ s' A', s.pagesRelease P h fuel = .ok s' ∧ Released s A (c ++ H) H s' A') := by
  induction fuel with
  | zero => exact ⟨fun _ _ _ _ _ h => by omega, fun _ _ _ _ _ _ _ _ _ _ h => by omega⟩
  | succ fuel ih =>
    obtain ⟨ihU, ihR⟩ := ih
    refine ⟨?_, ?_⟩
    · intro s A H I hroom hfuel
      cases hf : s.freedAreas with
      | nil =>
        refine ⟨s, A, ?_, ⟨.refl I, le_rfl, .refl s⟩, hf⟩
        simp only [State.updateFree, hf]
        rfl
      | cons a l =>
        have I₁ := I.popFreed hf
        have hback : State.backlog { s with freedAreas := l } + 1 = s.backlog := by
          simp [State.backlog, hf]
          omega
        have hroom₁ : State.Room { s with freedAreas := l } := by
          simp only [State.Room, hf, List.length_cons] at hroom ⊢
          omega
        have ha : a ∈ s.internalAreas := by simp [State.internalAreas, hf]
        have hnull : s.dsNext a = none := by
          refine I.null _ a (I.internal a ha) fun h => ?_
          have := List.nodup_append.mp I.owned
          exact this.2.2 a h a ha rfl
        obtain ⟨s₂, A₂, heq₂, R₂⟩ := ihR { s with freedAreas := l } A H [a] (some a) defaultPool I₁
          hroom₁ ⟨rfl, hnull⟩ (fun b hb => by
            rw [List.mem_singleton.mp hb]; exact I.internal a ha)
          (by simp only [List.length_singleton]; omega)
        have hb₂ := R₂.backlog
        obtain ⟨s₃, A₃, heq₃, R₃, hempty⟩ := ihU s₂ A₂ H R₂.inv (R₂.frame.steady.room hroom₁) (by omega)
        refine ⟨s₃, A₃, ?_, ⟨⟨R₃.inv, ?_, ?_⟩, ?_, ?_⟩, hempty⟩
        · simp only [State.updateFree, hf, bind, Except.bind, heq₂, heq₃]
        · have h := R₂.frame.trans R₃.frame
          exact ⟨h.addr, h.size, h.used, h.dsNext, h.mem, h.cover,
            ⟨h.steady.enough, fun _ => h.steady.room hroom₁, h.steady.initial⟩⟩
        · intro hc
          exact R₃.coal (R₂.coal (Inv.popFreed_coal hf hc))
        · have := R₃.backlog
          omega
        · exact (Inv.popFreed_retains hf).trans (R₂.kept.trans R₃.kept)
    · intro s A H c h P I hroom hchain hmem hfuel
      cases c with
      | nil =>
        cases hchain
        refine ⟨s, A, ?_, .refl I, le_rfl, .refl s⟩
        simp only [State.pagesRelease]
        rfl
      | cons a c =>
        obtain ⟨rfl, hchain⟩ := hchain
        simp only [List.length_cons] at hfuel
        obtain ⟨s₁, A₁, heq₁, R₁⟩ := Inv.releaseMerge (I : Inv s A (a :: (c ++ H)) none)
          (hmem a (by simp)) hroom
        have hb₁ := R₁.backlog
        have hroom₁ := R₁.frame.steady.room hroom
        obtain ⟨s₂, A₂, heq₂, R₂, -⟩ := ihU s₁ A₁ (c ++ H) R₁.inv hroom₁ (by omega)
        have hb₂ := R₂.backlog
        have hroom₂ := R₂.frame.steady.room hroom₁
        have hF := R₁.frame.trans R₂.frame
        obtain ⟨s₃, A₃, heq₃, R₃⟩ := ihR s₂ A₂ H c (s.dsNext a) P R₂.inv hroom₂
          (hchain.congr fun b hb => hF.dsNext b (by simp [hb]))
          (fun b hb => hF.mem b (by simp [hb]) P (hmem b (by simp [hb]))) (by omega)
        refine ⟨s₃, A₃, ?_, ?_⟩
        · simp only [State.pagesRelease, bind, Except.bind, heq₁, heq₂, heq₃]
        · exact (R₁.trans R₂ fun b hb => hb).trans R₃ fun b hb => by simp [hb]

/-- The areas of a list are live, so there are no more of them than descriptors in use. -/
theorem Inv.length_le_live (I : Inv s A (c ++ H) T) : c.length ≤ s.live.length := by
  have hnd : c.Nodup := (List.nodup_append.mp (List.nodup_append.mp I.owned).1).1
  refine (hnd.subperm fun a ha => ?_).length_le
  exact (I.live a).mpr (I.held a (by simp [ha]))

theorem Inv.dmphysPagesRelease (I : Inv s A (c ++ H) none) (hroom : s.Room)
    (hchain : IsSList s.dsNext h c) (hmem : ∀ a ∈ c, a ∈ A P) :
    ∃ s' A', s.dmphysPagesRelease P h = .ok s' ∧ Released s A (c ++ H) H s' A' := by
  refine (release_aux s.releaseFuel).2 s A H c h P I hroom hchain hmem ?_
  have := I.length_le_live
  simp only [State.releaseFuel, State.backlog]
  omega

theorem Inv.dmphysInternalAllocUpdateFree (I : Inv s A H none) (hroom : s.Room) :
    ∃ s' A', s.dmphysInternalAllocUpdateFree = .ok s' ∧ Released s A H H s' A' ∧
      s'.freedAreas = [] := by
  refine (release_aux s.releaseFuel).1 s A H I hroom ?_
  simp only [State.releaseFuel, State.backlog]
  omega

end

end L4env.DMphys
