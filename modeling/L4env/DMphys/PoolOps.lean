import L4env.DMphys.PoolAlloc

/-!
# The operations of the page pools

One statement for each function of the interface of `pages.c`: what it returns and what it does to
the areas, given the invariant.
-/

namespace L4env.DMphys

section
variable {s s' s'' : State} {A A' A'' : Nat → Set Ptr} {H : List Ptr} {T : Option Ptr} {P : Nat}
  {a b : Ptr}

/-! ## `__allocate_area` -/

/-- What a search for the `m` bytes at `y` returns. -/
def AreaOk (s : State) (A : Nat → Set Ptr) (H : List Ptr) (P y m : Nat) (r : Option Ptr × State) :
    Prop :=
  match r.1 with
  | none => r.2 = s
  | some a => ∃ A', Taken s A H P a r.2 A' ∧ r.2.addr a = y ∧ r.2.size a = m

theorem Inv.allocateArea (I : Inv s A H none) (hy : y % pageSize = 0) (hm : m % pageSize = 0)
    (hpos : 0 < m) (hlt : y + m < 4294967296) :
    Meets (s.allocateArea P y m) (AreaOk s A H P y m) s.NoPage := by
  obtain ⟨r, hscan, hr⟩ := I.area.scan (fun b hb => I.mem_live hb)
    (fun pa => decide (y < Word.add (s.addr pa) (s.size pa))) (P := P)
  unfold State.allocateArea
  rw [hscan]
  cases r with
  | none => exact rfl
  | some a =>
    obtain ⟨ha, hfound⟩ := hr a rfl
    have hb := (I.area.range ha).bound
    have ea := Word.add_eq hb
    have em := Word.add_eq hlt
    simp only [ea, decide_eq_true_eq] at hfound
    simp only [ea, em]
    split
    · exact rfl
    split
    · exact rfl
    split
    · exact rfl
    next h1 h2 h3 =>
      have haf := (I.mem_freeAreas ha (by simp)).mpr (by simpa using h3)
      obtain ⟨s₁, heq, hpick⟩ := I.pick haf
      refine Meets.bind_ok heq ?_
      have e1 := congrFun hpick.addr a
      have e2 := congrFun hpick.size a
      have I₁ := hpick.inv
      refine ((I₁.cutBegin ha List.mem_cons_self (by omega) (by omega) hy).mono (fun _ h => h)
        fun e he => hpick.frame.noPage he).bind ?_
      rintro s₂ ⟨A₂, C₂⟩
      have e3 := C₂.addr
      have e4 := C₂.size
      have step := C₂.inv.cutEnd C₂.mem List.mem_cons_self hpos (by omega) hm
      rw [e3] at step
      refine (step.mono (fun _ h => h)
        fun e he => hpick.frame.noPage (C₂.frame.noPage he)).bind ?_
      rintro s₃ ⟨A₃, C₃⟩
      have C := C₂.trans_end I₁ (by omega) C₃
      exact ⟨A₃, hpick.taken_cut C I, C₃.addr, C₃.size⟩

/-! ## `__enlarge_area` -/

/-- The area `a` has `m` bytes more, at its end. -/
structure Enlarged (s : State) (A : Nat → Set Ptr) (H : List Ptr) (P : Nat) (a : Ptr) (m : Nat)
    (s' : State) (A' : Nat → Set Ptr) : Prop where
  inv : Inv s' A' H none
  mem : a ∈ A' P
  addr : s'.addr a = s.addr a
  size : s'.size a = s.size a + m
  dsNext : s'.dsNext a = s.dsNext a
  frame : Frame s A s' A' fun b => b ∈ H ∧ b ≠ a
  coal : Coalesced s A H → Coalesced s' A' H
  kept : s.KeepsInternal s'

/-- The whole of the next area goes to `a`. -/
theorem Absorbed.enlarged (h : Absorbed s A H a b (s.addr a) s') (I : Inv s A H none)
    (ha : a ∈ A P) (haH : a ∈ H) (hb : b ∈ freeAreas s A H P)
    (hadj : s.addr a + s.size a = s.addr b) :
    Enlarged s A H P a (s.size b) s' (without A b) := by
  have hba : b ≠ a := fun e => hb.2.1 (e ▸ haH)
  have M := h.merged I ha haH hb (.inr ⟨hadj, rfl⟩)
  exact ⟨M.inv, M.mem, (h.at_self hba).1, (h.at_self hba).2, M.dsNext, M.frame, M.coal, M.kept⟩

/-- The state `s'` is `s` with `m` bytes moved from the beginning of `b` to the end of `a`. -/
structure Shifted (s : State) (A : Nat → Set Ptr) (H : List Ptr) (a b : Ptr) (m : Nat) (s' : State) :
    Prop where
  area : AreaInv s' A
  free : FreeInv s' (freeAreas s A H)
  addr : s'.addr = Function.update s.addr b (s.addr b + m)
  size : s'.size = Function.update (Function.update s.size a (s.size a + m)) b (s.size b - m)
  used : s'.used = s.used
  dsNext : s'.dsNext = s.dsNext
  live : s'.live = s.live
  areas : s'.internalAreas = s.internalAreas
  steady : s.Steady s'
  pool : s'.MemPoolOk
  reserved : ∀ P, (s'.pools P).reserved = (s.pools P).reserved

theorem Shifted.enlarged (h : Shifted s A H a b m s') (I : Inv s A H none) (ha : a ∈ A P)
    (haH : a ∈ H) (hb : b ∈ freeAreas s A H P) (hadj : s.addr a + s.size a = s.addr b)
    (hlt : m < s.size b) : Enlarged s A H P a m s' A := by
  have hba : b ≠ a := fun e => hb.2.1 (e ▸ haH)
  have haddr : ∀ c, c ≠ b → s'.addr c = s.addr c := fun c hc => by simp [h.addr, hc]
  have hsize : ∀ c, c ≠ b → c ≠ a → s'.size c = s.size c := fun c hc hc' => by
    simp [h.size, hc, hc']
  have hb1 : s'.addr b = s.addr b + m := by simp [h.addr]
  have hb2 : s'.size b = s.size b - m := by simp [h.size]
  have ha2 : s'.size a = s.size a + m := by simp [h.size, Ne.symm hba]
  have ha1 := haddr a (Ne.symm hba)
  have hfree : freeAreas s' A H = freeAreas s A H := freeAreas_congr (.of_eq h.areas)
  refine ⟨⟨h.area, ?_, ?_, ?_, ?_, I.held, ?_, ?_, ?_, h.pool⟩, ha, ha1, ha2, by rw [h.dsNext],
    ⟨?_, ?_, ?_, ?_, fun _ _ _ h => h, ?_, h.steady⟩, ?_, ?_⟩
  · rw [hfree]; exact h.free
  · rw [h.live]; exact I.live_nodup
  · rw [h.live]; exact I.live
  · rw [h.areas]; exact I.owned
  · rw [h.areas]; exact I.internal
  · rw [h.used, h.areas]; exact I.flag
  · rw [h.dsNext]; exact I.null
  · exact fun c hc => haddr c fun e => hb.2.1 (e ▸ hc.1)
  · exact fun c hc => hsize c (fun e => hb.2.1 (e ▸ hc.1)) hc.2
  · exact fun c _ => by rw [h.used]
  · exact fun c _ => by rw [h.dsNext]
  · intro Q z
    constructor
    · rintro ⟨c, hc, h1, h2⟩
      by_cases hcb : c = b
      · subst hcb; exact ⟨c, hc, by omega, by omega⟩
      · by_cases hca : c = a
        · subst hca
          obtain rfl := I.area.disj hc ha
          by_cases hz : z < s.addr c + s.size c
          · exact ⟨c, hc, by omega, hz⟩
          · exact ⟨b, hb.1, by omega, by omega⟩
        · rw [haddr c hcb] at h1 h2
          rw [hsize c hcb hca] at h2
          exact ⟨c, hc, h1, h2⟩
    · rintro ⟨c, hc, h1, h2⟩
      by_cases hcb : c = b
      · subst hcb
        obtain rfl := I.area.disj hc hb.1
        by_cases hz : z < s.addr c + m
        · exact ⟨a, ha, by omega, by omega⟩
        · exact ⟨c, hc, by omega, by omega⟩
      · by_cases hca : c = a
        · subst hca; exact ⟨c, hc, by omega, by omega⟩
        · refine ⟨c, hc, ?_, ?_⟩
          · rw [haddr c hcb]; exact h1
          · rw [haddr c hcb, hsize c hcb hca]; exact h2
  · intro hc Q c hcf d hdf
    rw [hfree] at hcf hdf
    have hca : ∀ e ∈ freeAreas s A H Q, e ≠ a := fun e he h => he.2.1 (h ▸ haH)
    have hcd := hc Q c hcf d hdf
    by_cases hcb : c = b
    · subst hcb
      by_cases hdb : d = c
      · subst hdb; omega
      · rw [haddr d hdb]; omega
    · rw [haddr c hcb, hsize c hcb (hca c hcf)]
      by_cases hdb : d = b
      · subst hdb
        obtain rfl := I.area.disj hdf.1 hb.1
        have := I.area.apart hcf.1 hdf.1 hcb
        have := (I.area.range hcf.1).pos
        omega
      · rw [haddr d hdb]
        exact hcd
  · refine ⟨⟨fun c hc => h.areas ▸ hc, fun c hc => ?_, h.reserved⟩, fun c hc => h.areas.symm ▸ hc⟩
    rw [h.areas] at hc
    have hcb : c ≠ b := fun e => hb.2.2 (e ▸ hc)
    have hca : c ≠ a := fun e => (List.nodup_append.mp I.owned).2.2 a haH c hc e.symm
    exact ⟨haddr c hcb, hsize c hcb hca⟩

theorem addTo_without {A : Nat → Set Ptr} (hb : b ∈ A P) (hd : ∀ Q, b ∈ A Q → Q = P) :
    addTo (without A b) P b = A := by
  funext Q
  ext c
  simp only [mem_addTo, mem_without]
  constructor
  · rintro (h | ⟨rfl, rfl⟩)
    · exact h.1
    · exact hb
  · intro h
    by_cases hcb : c = b
    · subst hcb; exact .inr ⟨hd Q h, rfl⟩
    · exact .inl ⟨h, hcb⟩

/-- The ranges that `__enlarge_area` writes, once the next area is in no list. -/
theorem AreaInv.enlarge (hA : AreaInv s (without A b)) (I : AreaInv s' A) (e1 : s.addr = s'.addr)
    (e2 : s.size = s'.size) (ha : a ∈ A P) (hb : b ∈ A P) (hba : b ≠ a)
    (hadj : s'.addr a + s'.size a = s'.addr b) (hm : m % pageSize = 0) (hle : m ≤ s'.size b) :
    AreaInv ((s.setRange a (s'.addr a) (s'.size a + m)).setRange b y n) (without A b) := by
  have hr := I.range ha
  have hrb := I.range hb
  have h1 := hr.bound
  have h2 := hrb.bound
  have h3 := hr.pos
  have h4 : (s'.size a + m) % pageSize = 0 := by
    have := hr.size_aligned
    unfold pageSize at *
    omega
  have hA' : AreaInv (s.setRange a (s'.addr a) (s'.size a + m)) (without A b) := by
    refine hA.setRange ⟨ha, Ne.symm hba⟩ ⟨hr.addr_aligned, h4, by omega, by omega⟩ ?_ ?_
    · intro c _ h
      rw [e1, e2] at *
      exact h
    · rintro c ⟨hc, hcb⟩ h
      rw [e1, e2] at h
      rw [e1]
      have := I.apart hc hb hcb
      have := (I.range hc).pos
      omega
  refine hA'.congr (fun Q c hc => ?_) (fun Q c hc => ?_) (fun _ _ _ => rfl) (fun _ _ _ => rfl)
    fun _ => rfl
  · exact Function.update_of_ne hc.2 _ _
  · exact Function.update_of_ne hc.2 _ _

theorem Inv.enlargeArea (I : Inv s A H none) (hroom : s.Room) (ha : a ∈ A P) (haH : a ∈ H)
    (hm : m % pageSize = 0) (hpos : 0 < m) :
    ∃ r s', s.enlargeArea P a m = .ok (r, s') ∧
      (r = false ∧ s' = s ∨ r = true ∧ ∃ A', Enlarged s A H P a m s' A') := by
  have hr := I.area.range ha
  unfold State.enlargeArea
  cases hnext : s.areaNext a with
  | none => exact ⟨false, s, rfl, .inl ⟨rfl, rfl⟩⟩
  | some b =>
    obtain ⟨hb, hle, -⟩ := I.area.next ha hnext
    have hrb := I.area.range hb
    have hbb := hrb.bound
    have hba : b ≠ a := by
      rintro rfl
      have := hrb.pos
      omega
    simp only [Word.add_eq hr.bound]
    split
    · exact ⟨false, s, rfl, .inl ⟨rfl, rfl⟩⟩
    split
    · exact ⟨false, s, rfl, .inl ⟨rfl, rfl⟩⟩
    split
    · exact ⟨false, s, rfl, .inl ⟨rfl, rfl⟩⟩
    next hused hadj hfit =>
      have hadj : s.addr a + s.size a = s.addr b := by simpa using hadj
      have hbf := (I.mem_freeAreas hb (by simp)).mpr (by simpa using hused)
      obtain ⟨fn, fp, fl, free, an, ap, al, hrf, hra, hA, hF⟩ := I.unlink hbf
      have ea : Word.add (s.size a) m = s.size a + m := Word.add_eq (by omega)
      have eb : Word.add (s.addr b) m = s.addr b + m := Word.add_eq (by omega)
      have es : Word.sub (s.size b) m = s.size b - m := Word.sub_eq (by omega) (by omega)
      have hA₄ := fun y n => @AreaInv.enlarge _ s A P a b m y n hA I.area rfl rfl ha hb hba hadj hm
        (by omega)
      have hF₄ : ∀ y n, FreeInv ((((s.withFreeList P fn fp fl free).withAreaList P an ap al).setRange a
          (s.addr a) (s.size a + m)).setRange b y n) (without (freeAreas s A H) b) := by
        intro y n
        refine hF.congr (fun Q c hc => ?_) (fun _ _ _ => rfl) (fun _ _ _ => rfl) (fun _ => rfl)
          fun _ => rfl
        have hca : c ≠ a := fun e => hc.1.2.1 (e ▸ haH)
        refine (Function.update_of_ne hc.2 _ _).trans ?_
        exact Function.update_of_ne hca _ _
      simp only [hrf, ok_bind, hra, State.withAreaList_addr, State.withFreeList_addr,
        State.withAreaList_size, State.withFreeList_size, ea]
      have e5 : (((s.withFreeList P fn fp fl free).withAreaList P an ap al).setRange a (s.addr a)
          (s.size a + m)).addr b = s.addr b := Function.update_of_ne hba _ _
      have e6 : (((s.withFreeList P fn fp fl free).withAreaList P an ap al).setRange a (s.addr a)
          (s.size a + m)).size b = s.size b := Function.update_of_ne hba _ _
      simp only [e5, e6, eb, es]
      have hA₅ := hA₄ (s.addr b + m) (s.size b - m)
      have hF₅ := hF₄ (s.addr b + m) (s.size b - m)
      generalize ht : (((s.withFreeList P fn fp fl free).withAreaList P an ap al).setRange a (s.addr a)
        (s.size a + m)).setRange b (s.addr b + m) (s.size b - m) = t at hA₅ hF₅ ⊢
      have t1 : t.addr = Function.update s.addr b (s.addr b + m) := by
        subst ht
        simp [State.setRange]
      have t2 : t.size = Function.update (Function.update s.size a (s.size a + m)) b
          (s.size b - m) := by subst ht; rfl
      have tb : t.size b = s.size b - m := by rw [t2]; simp
      have tr : t.used = s.used ∧ t.dsNext = s.dsNext ∧ t.live = s.live ∧
          t.internalAreas = s.internalAreas ∧ t.backlog = s.backlog ∧ s.Steady t ∧ t.MemPoolOk := by
        subst ht; exact ⟨rfl, rfl, rfl, rfl, rfl, ⟨id, id, rfl⟩, I.pool⟩
      obtain ⟨t3, t4, t5, t6, t7, t8, t10⟩ := tr
      have t11 : ∀ Q, (t.pools Q).reserved = (s.pools Q).reserved := by
        subst ht
        exact fun Q => (State.withAreaList_reserved _ _ _ _ _ Q).trans
          (State.withFreeList_reserved _ _ _ _ _ _ Q)
      rw [tb]
      split
      next hrest =>
        -- the rest of the next area goes back into both lists
        have hbnew : ∀ Q, b ∉ without A b Q := fun Q h => h.2 rfl
        have hbrange : PageArea (t.addr b) (t.size b) := by
          have h1 := hrb.addr_aligned
          have h2 := hrb.size_aligned
          rw [tb, t1, Function.update_self]
          unfold pageSize at *
          refine ⟨?_, ?_, by omega, by omega⟩
          · unfold pageSize; omega
          · unfold pageSize; omega
        have hbapart : ∀ c ∈ without A b P, t.addr c + t.size c ≤ t.addr b ∨
            t.addr b + t.size b ≤ t.addr c := by
          rintro c ⟨hc, hcb⟩
          have h1 := I.area.apart hc hb hcb
          rw [tb, t1, t2, Function.update_of_ne hcb, Function.update_of_ne hcb,
            Function.update_self]
          by_cases hca : c = a
          · subst hca; rw [Function.update_self]; omega
          · rw [Function.update_of_ne hca]; omega
        obtain ⟨an', ap', al', heq, hA₆⟩ := hA₅.addArea hbnew hbrange hbapart
          fun c hc => by rw [t5]; exact I.mem_live hc.1
        rw [addTo_without hb fun Q h => I.area.disj h hb] at hA₆
        have hF₆ : FreeInv (t.withAreaList P an' ap' al') (without (freeAreas s A H) b) :=
          hF₅.congr (fun _ _ _ => rfl) (fun _ _ _ => rfl) (fun _ _ _ => rfl)
            (fun Q => State.withAreaList_freeList _ _ _ _ _ Q)
            fun Q => State.withAreaList_free _ _ _ _ _ Q
        obtain ⟨fn', fp', fl', free', heq', hF₇⟩ := @FreeInv.addFree _ _ P b hF₆
          (fun Q h => h.2 rfl) fun c hc => by
            rw [State.withAreaList_live, t5]; exact I.mem_live hc.1.1
        rw [addTo_without hbf fun Q h => I.area.disj h.1 hb] at hF₇
        refine ⟨true, _, by simp only [heq, ok_bind, heq']; rfl, .inr ⟨rfl, A, ?_⟩⟩
        refine Shifted.enlarged ⟨?_, hF₇, t1, t2, t3, t4, t5, t6, ⟨t8.enough, t8.room, t8.initial⟩,
          t10, fun Q => (State.withFreeList_reserved _ _ _ _ _ _ Q).trans
            ((State.withAreaList_reserved _ _ _ _ _ Q).trans (t11 Q))⟩ I ha haH hbf hadj
          (by omega)
        exact hA₆.congr (fun _ _ _ => rfl) (fun _ _ _ => rfl) (fun _ _ _ => rfl)
          (fun _ _ _ => rfl) fun Q => State.withFreeList_areaList _ _ _ _ _ _ Q
      next hrest =>
        have hmb : m = s.size b := by omega
        refine ⟨true, _, rfl, .inr ⟨rfl, without A b, ?_⟩⟩
        have hfin : Absorbed s A H a b (s.addr a) (t.releaseAreaDesc b) := by
          refine .of_release hA₅ hF₅ (fun c hc => ?_) (fun c hc => ?_) t3 t4 t5 t6 t7 t8
            (t8.room hroom) t10 t11
          · rw [t1, Function.update_of_ne hc, Function.update_eq_self]
          · rw [t2, Function.update_of_ne hc, hmb]
        rw [hmb]
        exact hfin.enlarged I ha haH hbf hadj

/-! ## `dmphys_pages_allocate` -/

/-- What an allocation of `m` bytes returns: a list of areas of that size, or nothing. -/
def AllocOk (s : State) (A : Nat → Set Ptr) (H : List Ptr) (P m : Nat) (single : Bool)
    (r : Option Ptr × State) : Prop :=
  match r.1 with
  | none => ∃ A', Leaves s A H H r.2 A' ∧ s.Retains r.2
  | some h => ∃ c A', Extends s A H P [] m r.2 A' (some h) c 0 ∧ (single = true → c = [h])

theorem SingleOk.allocOk {r : Option Ptr × State} (I : Inv s A H none) (h : SingleOk s A H P m r)
    (single : Bool) : AllocOk s A H P m single r := by
  obtain ⟨o, s'⟩ := r
  cases o with
  | none =>
    obtain rfl : s' = s := h
    exact ⟨A, .refl I, .refl _⟩
  | some a =>
    obtain ⟨A', hT, hsz⟩ := h
    have hsz : s'.size a = m := hsz
    refine ⟨[a], A', ⟨⟨hT.inv, ⟨rfl, hT.dsNext⟩, ?_⟩, ?_, hT.frame, hT.coal, hT.grown, hT.kept⟩,
      fun _ => rfl⟩
    · intro b hb
      rw [List.mem_singleton.mp hb]
      exact hT.mem
    · simp [State.total, hsz]

theorem Extends.nil_iff (h : Extends s A H P [] n s' A' q c 0) : c = [] ↔ n = 0 := by
  have ht := h.total
  simp only [State.total, List.map_nil, List.sum_nil, Nat.add_zero, Nat.zero_add] at ht
  constructor
  · rintro rfl
    simpa using ht.symm
  · rintro rfl
    cases c with
    | nil => rfl
    | cons a c =>
      have := (h.chain.inv.area.range (h.chain.mem a (by simp))).pos
      simp only [List.map_cons, List.sum_cons] at ht
      omega

theorem Chain.allocOk {r : Option Ptr × State}
    (h : (∃ c A', Extends s A H P [] n r.2 A' r.1 c 0) ∨
      r.1 = none ∧ ∃ A', Leaves s A H H r.2 A' ∧ s.Retains r.2) : AllocOk s A H P n false r := by
  obtain ⟨o, s'⟩ := r
  rcases h with ⟨c, A', hE⟩ | ⟨h0, A', hL⟩
  · cases o with
    | none =>
      have hc : c = [] := by
        have := hE.chain.links
        cases c with
        | nil => rfl
        | cons a c => cases this.1
      subst hc
      exact ⟨A', ⟨hE.chain.inv, hE.frame, hE.coal⟩, hE.kept.toRetains⟩
    | some h =>
      exact ⟨c, A', hE, by simp⟩
  · cases h0
    exact ⟨A', hL⟩

/-- The size that `dmphys_pages_allocate` looks for. -/
def granted (flags size : Nat) : Nat :=
  if State.superPages flags = true then Word.roundUp size superPageSize else size

/-- An alignment is missing or a power of two. -/
def IsAlignment (al : Nat) : Prop := al = 0 ∨ ∃ k < 32, al = 2 ^ k

theorem IsAlignment.max_two_pow (h : IsAlignment al) (hj : 12 ≤ j) (hj' : j < 32) :
    ∃ k, 12 ≤ k ∧ k < 32 ∧ max al (2 ^ j) = 2 ^ k := by
  rcases h with rfl | ⟨k, hk, rfl⟩
  · exact ⟨j, hj, hj', by simp⟩
  · rcases le_total k j with h | h
    · exact ⟨j, hj, hj', max_eq_right (Nat.pow_le_pow_right (by decide) h)⟩
    · exact ⟨k, hj.trans h, hk, max_eq_left (Nat.pow_le_pow_right (by decide) h)⟩

theorem Inv.dmphysPagesAllocate (I : Inv s A H none) (hroom : s.Room) (hal : IsAlignment al)
    (hn : n % pageSize = 0) (hpos : 0 < n) (hlt : n < 4294967296)
    (hsuper : State.superPages flags = true → State.contiguous flags = true →
      Word.roundUp n superPageSize ≠ 0) (prio : Prio) :
    Meets (s.dmphysPagesAllocate P n al flags prio)
      (AllocOk s A H P (granted flags n) (State.contiguous flags)) s.NoPage := by
  unfold State.dmphysPagesAllocate
  split
  · exact ⟨A, .refl I, .refl s⟩
  have hpage : pageSize = 2 ^ 12 := rfl
  have hsp : superPageSize = 2 ^ 22 := rfl
  -- the size and the alignment that the search is made for
  obtain ⟨n', k, hk, hk', hn', hlt', hpos', hgr, heq⟩ : ∃ n' k, 12 ≤ k ∧ k < 32 ∧
      n' % pageSize = 0 ∧ n' < 4294967296 ∧ (State.contiguous flags = true → 0 < n') ∧
      granted flags n = n' ∧
      (if State.superPages flags = true then
        (Word.roundUp n superPageSize, max (max al pageSize) superPageSize)
      else (n, max al pageSize)) = (n', 2 ^ k) := by
    cases hf : State.superPages flags with
    | false =>
      obtain ⟨k, hk, hk', he⟩ := hal.max_two_pow (j := 12) le_rfl (by decide)
      exact ⟨n, k, hk, hk', hn, hlt, fun _ => hpos, by simp [granted, hf], by rw [hpage, he]; rfl⟩
    | true =>
      obtain ⟨k, hk, hk', he⟩ := hal.max_two_pow (j := 22) (by decide) (by decide)
      have hmax : max (max al pageSize) superPageSize = 2 ^ k := by
        rw [max_assoc, ← he]; rfl
      refine ⟨Word.roundUp n superPageSize, k, hk, hk', ?_, ?_, ?_, by simp [granted, hf],
        by rw [hmax]; rfl⟩
      · rw [hsp]
        rcases Word.roundUp_cases hlt (k := 22) (by decide) with ⟨h0, -⟩ | ⟨hd, -⟩
        · rw [h0]; rfl
        · exact mod_pageSize_of_dvd (by decide) hd
      · rw [hsp, Word.roundUp_two_pow hlt (by decide)]
        exact Nat.mod_lt _ (by decide)
      · intro hc
        have := hsuper hf hc
        omega
  simp only [heq, hgr]
  cases hc : State.contiguous flags with
  | true => 
    exact (I.findSingleArea hk hk' hn' (hpos' hc)).imp fun r h => h.allocOk I true
  | false => 
    exact (Chain.allocatePages I hroom hk hk' hn' hlt' _).imp fun r h => Chain.allocOk h

theorem AreaOk.allocOk {r : Option Ptr × State} (I : Inv s A H none) (h : AreaOk s A H P y m r) :
    AllocOk s A H P m true r := by
  refine SingleOk.allocOk (m := m) I ?_ true
  obtain ⟨o, s'⟩ := r
  cases o with
  | none => exact h
  | some a =>
    obtain ⟨A', hT, -, hsz⟩ := h
    exact ⟨A', hT, hsz⟩

theorem Inv.dmphysPagesAllocateArea (I : Inv s A H none) (hy : y % pageSize = 0)
    (hm : m % pageSize = 0) (hpos : 0 < m) (hlt : y + m < 4294967296) (prio : Prio) :
    Meets (s.dmphysPagesAllocateArea P y m prio) (AllocOk s A H P m true) s.NoPage := by
  unfold State.dmphysPagesAllocateArea
  split
  · exact ⟨A, .refl I, .refl s⟩
  · exact (I.allocateArea hy hm hpos hlt).imp fun r h => h.allocOk I

/-! ## `dmphys_pages_enlarge` -/

/-- What an operation on the list `c` of areas does: its head stays, and so do all other areas in
use. -/
structure Resized (s : State) (A : Nat → Set Ptr) (H : List Ptr) (P : Nat) (h : Ptr) (s' : State)
    (A' : Nat → Set Ptr) (c' : List Ptr) : Prop where
  chain : Chain s' A' H P (some h) c'
  frame : Frame s A s' A' (· ∈ H)

theorem Chain.not_mem (C : Chain s A H P q (a :: c)) : a ∉ c ∧ a ∉ H := by
  have h : a ∉ c ++ H := C.inv.cons_not_mem
  simpa only [List.mem_append, not_or] using h

/-- Enlarging works on a list of one area; a longer one fails the assertion. -/
theorem Chain.dmphysPagesEnlarge (C : Chain s A H P (some a) c) (hroom : s.Room)
    (hm : m % pageSize = 0) (hpos : 0 < m) (prio : Prio) :
    Meets (s.dmphysPagesEnlarge P a m prio)
      (fun r => r.1 ≠ none ∧ r.2 = s ∨ r.1 = none ∧ c = [a] ∧ ∃ A', Resized s A H P a r.2 A' c ∧
        r.2.total c = s.total c + m ∧ s.KeepsInternal r.2 ∧
        (Coalesced s A (c ++ H) → Coalesced r.2 A' (c ++ H)) ∧ r.2.addr a = s.addr a)
      (fun e => e = .assertion ∧ c ≠ [a]) := by
  obtain ⟨c, rfl⟩ : ∃ l, c = a :: l := by
    cases c with
    | nil => cases C.links
    | cons b c => cases C.links.1; exact ⟨c, rfl⟩
  have ha := C.mem a (by simp)
  have haH : a ∈ a :: c ++ H := by simp
  unfold State.dmphysPagesEnlarge
  have hused : s.used a = true := (C.inv.flag P a ha (by simp)).mpr (.inl haH)
  simp only [hused, Bool.true_eq_false, if_false]
  split
  · exact .inl ⟨by simp, rfl⟩
  split
  next hnull =>
    refine ⟨rfl, fun e => hnull ?_⟩
    have hc : c = [] := by simpa using e
    subst hc
    exact C.links.2
  next hnull =>
    have hc : c = [] := by
      have h0 := C.links.2
      rw [not_not.mp hnull] at h0
      cases c with
      | nil => rfl
      | cons b c => cases h0.1
    subst hc
    obtain ⟨r, s', heq, hres⟩ := C.inv.enlargeArea hroom ha haH hm hpos
    refine Meets.bind_ok heq ?_
    rcases hres with ⟨rfl, rfl⟩ | ⟨rfl, A', E⟩
    · exact .inl ⟨by simp, rfl⟩
    · refine .inr ⟨rfl, rfl, A', ⟨⟨E.inv, ⟨rfl, E.dsNext.trans C.links.2⟩, ?_⟩, ?_⟩,
        by simp [State.total, E.size], E.kept, E.coal, E.addr⟩
      · intro b hb
        rw [List.mem_singleton.mp hb]
        exact E.mem
      · refine E.frame.mono fun b hb => ⟨by simp [hb], ?_⟩
        rintro rfl
        exact C.not_mem.2 hb

/-! ## `dmphys_pages_add` -/

theorem IsSList.pageList_eq (h : IsSList s.dsNext q c) (hf : c.length < fuel) :
    s.pageList fuel q = some c := by
  induction c generalizing q fuel with
  | nil =>
    obtain ⟨fuel, rfl⟩ : ∃ k, fuel = k + 1 := ⟨fuel - 1, by simp at hf; omega⟩
    cases h
    rfl
  | cons a c ih =>
    obtain ⟨fuel, rfl⟩ : ∃ k, fuel = k + 1 := ⟨fuel - 1, by simp at hf; omega⟩
    obtain ⟨rfl, h⟩ := h
    simp only [State.pageList, ih h (by simp at hf; omega), Option.map_some]

theorem Chain.length_lt (C : Chain s A H P q c) : c.length < s.listFuel := by
  have := C.inv.length_le_live
  simp only [State.listFuel]
  omega

/-- The last area of a list points to the first one of a new list. -/
theorem Chain.append (C : Chain s A H P (some a) c) {c' : List Ptr}
    (E : Extends s A (c ++ H) P [] m s' A' (some b) c' 0) :
    Resized s A H P a (s'.setDsNext (c.getLastD a) (some b)) A' (c ++ c') ∧
      (s'.setDsNext (c.getLastD a) (some b)).total (c ++ c') = s.total c + m ∧
      s.KeepsInternal (s'.setDsNext (c.getLastD a) (some b)) ∧
      (Coalesced s A (c ++ H) →
        Coalesced (s'.setDsNext (c.getLastD a) (some b)) A' ((c ++ c') ++ H)) := by
  obtain ⟨l, x, rfl⟩ : ∃ l x, c = l ++ [x] := by
    rcases List.eq_nil_or_concat c with rfl | ⟨l, x, h⟩
    · cases C.links
    · exact ⟨l, x, by simpa using h⟩
  have hnd := (List.nodup_append.mp E.chain.inv.owned).1
  have hx : x ∉ l ∧ x ∉ c' ∧ x ∉ H := by
    simp only [List.nodup_append, List.nodup_cons, List.mem_append, List.mem_cons] at hnd ⊢
    grind
  have hperm : (c' ++ (l ++ [x] ++ H)).Perm ((l ++ [x] ++ c') ++ H) := by
    rw [← List.append_assoc]
    exact List.perm_append_comm.append_right H
  simp only [List.getLastD_concat]
  refine ⟨⟨⟨?_, ?_, ?_⟩, ?_⟩, ?_, ?_, ?_⟩
  · exact (E.chain.inv.perm hperm).setDsNext (by simp) _
  · have hold : IsSList s'.dsNext (some a) (l ++ x :: []) :=
      C.links.congr fun y hy => E.frame.dsNext y (List.mem_append_left H hy)
    have := hold.cut_write E.chain.links hx.1 hx.2.1
    simpa [State.setDsNext] using this
  · intro y hy
    rcases List.mem_append.mp hy with hy | hy
    · exact E.frame.mem y (List.mem_append_left H hy) P (C.mem y hy)
    · exact E.chain.mem y hy
  · have hF := E.frame.mono fun y (hy : y ∈ H) => (by simp [hy] : y ∈ l ++ [x] ++ H)
    refine ⟨hF.addr, hF.size, hF.used, fun y hy => ?_, hF.mem, hF.cover, hF.steady.enough,
      hF.steady.room, hF.steady.initial⟩
    have hyx : y ≠ x := fun e => hx.2.2 (e ▸ hy)
    simp only [State.setDsNext, Function.update_of_ne hyx]
    exact hF.dsNext y hy
  · have ht := E.total
    have hold : (l ++ [x]).map s'.size = (l ++ [x]).map s.size :=
      List.map_congr_left fun y hy => E.frame.size y (List.mem_append_left H hy)
    simp only [State.total, List.map_nil, List.sum_nil, Nat.add_zero, Nat.zero_add] at ht
    have hmap : ((l ++ [x]) ++ c').map s'.size = (l ++ [x]).map s'.size ++ c'.map s'.size :=
      List.map_append
    simp only [State.total, State.setDsNext, hmap, List.sum_append, hold, ht]
  · exact ⟨⟨E.kept.areas, E.kept.range, E.kept.reserved⟩, E.kept.all⟩
  · exact fun hc => (E.coal hc).perm hperm

/-- What `__allocate_pages` returns for a list that is to grow by `m` bytes. -/
theorem Chain.allocateMore (C : Chain s A H P (some a) c) (hroom : s.Room)
    (hm : m % pageSize = 0) (hpos : 0 < m) (hlt : m < 4294967296) (n : Nat) :
    Meets (s.allocatePages P m n pageSize)
      (fun r => (r.1 = none ∧ ∃ A', Leaves s A (c ++ H) (c ++ H) r.2 A' ∧ s.Retains r.2) ∨
        ∃ b c' A', r.1 = some b ∧ Extends s A (c ++ H) P [] m r.2 A' (some b) c' 0) s.NoPage := by
  refine (Chain.allocatePages C.inv hroom (k := 12) le_rfl (by decide) hm hlt n).imp ?_
  rintro ⟨o, s'⟩ (⟨c', A', E⟩ | h)
  · cases o with
    | none =>
      have hc : c' = [] := by
        cases c' with
        | nil => rfl
        | cons b l => cases E.chain.links.1
      have := E.nil_iff.mp hc
      omega
    | some b => exact .inr ⟨b, c', A', rfl, E⟩
  · exact .inl h

theorem Chain.dmphysPagesAdd (C : Chain s A H P (some a) c) (hroom : s.Room)
    (hm : m % pageSize = 0) (hpos : 0 < m) (hlt : m < 4294967296) (prio : Prio) :
    Meets (s.dmphysPagesAdd P a m prio)
      (fun r => r.1 ≠ none ∧ (∃ A', Leaves s A (c ++ H) (c ++ H) r.2 A' ∧ s.Retains r.2) ∨
        r.1 = none ∧ ∃ A' c', Resized s A H P a r.2 A' (c ++ c') ∧
          r.2.total (c ++ c') = s.total c + m ∧ s.KeepsInternal r.2 ∧
          (Coalesced s A (c ++ H) → Coalesced r.2 A' ((c ++ c') ++ H))) s.NoPage := by
  unfold State.dmphysPagesAdd
  split
  · exact .inl ⟨by simp, A, .refl C.inv, .refl s⟩
  simp only [IsSList.pageList_eq C.links C.length_lt]
  refine (C.allocateMore hroom hm hpos hlt _).bind ?_
  rintro ⟨o, s'⟩ (⟨h0, A', L⟩ | ⟨b, c', A', h0, E⟩)
  · simp only at h0
    subst h0
    exact .inl ⟨by simp, A', L⟩
  · simp only at h0 E
    subst h0
    exact .inr ⟨rfl, A', c', C.append E⟩

/-! ## `dmphys_pages_shrink` -/

theorem State.total_cons (s : State) (a : Ptr) (c : List Ptr) :
    s.total (a :: c) = s.size a + s.total c := by
  simp [State.total]

/-- The area of the list that holds the byte `offset`. -/
theorem IsSList.findOffset_eq (h : IsSList s.dsNext q c) (hf : c.length < fuel) (offset : Nat) :
    (s.findOffset fuel q offset = .ok none ∧ s.total c ≤ offset) ∨
      ∃ c₁ x c₂ o, c = c₁ ++ x :: c₂ ∧ s.findOffset fuel q offset = .ok (some (x, o)) ∧
        s.total c₁ + o = offset ∧ o < s.size x := by
  induction c generalizing q fuel offset with
  | nil =>
    obtain ⟨fuel, rfl⟩ : ∃ k, fuel = k + 1 := ⟨fuel - 1, by simp at hf; omega⟩
    cases h
    exact .inl ⟨rfl, by simp [State.total]⟩
  | cons a c ih =>
    obtain ⟨fuel, rfl⟩ : ∃ k, fuel = k + 1 := ⟨fuel - 1, by simp at hf; omega⟩
    obtain ⟨rfl, h⟩ := h
    simp only [State.findOffset]
    by_cases hle : s.size a ≤ offset
    · rw [if_pos hle]
      rcases ih h (by simp at hf; omega) (offset - s.size a) with ⟨h0, ht⟩ | ⟨c₁, x, c₂, o, rfl, he, ht, ho⟩
      · refine .inl ⟨h0, ?_⟩
        rw [s.total_cons]
        omega
      · refine .inr ⟨a :: c₁, x, c₂, o, rfl, he, ?_, ho⟩
        rw [s.total_cons]
        omega
    · rw [if_neg hle]
      exact .inr ⟨[], a, c, offset, rfl, rfl, by simp [State.total], by omega⟩

/-- The area behind `x` leaves the list and is released. -/
theorem Chain.releaseNext (C : Chain s A H P q (c₁ ++ x :: b :: c₂)) (hroom : s.Room) :
    s.dsNext x = some b ∧ ∃ s₂ s₃ A₃, (s.setDsNext x (s.dsNext b)).releaseMerge P b = .ok s₂ ∧
      s₂.dmphysInternalAllocUpdateFree = .ok s₃ ∧ Chain s₃ A₃ H P q (c₁ ++ x :: c₂) ∧
      Frame s A s₃ A₃ (· ∈ H) ∧
      (∀ y ∈ c₁ ++ x :: c₂, s₃.addr y = s.addr y ∧ s₃.size y = s.size y) ∧
      (Coalesced s A ((c₁ ++ x :: b :: c₂) ++ H) → Coalesced s₃ A₃ ((c₁ ++ x :: c₂) ++ H)) := by
  obtain ⟨hx, hrest⟩ := C.links.tail_at
  have hnd := (List.nodup_append.mp C.inv.owned).1
  have hmem : x ∉ c₁ ∧ x ∉ c₂ ∧ x ∉ H := by
    simp only [List.nodup_append, List.nodup_cons, List.mem_append, List.mem_cons] at hnd
    grind
  have hperm : ((c₁ ++ x :: b :: c₂) ++ H).Perm (b :: ((c₁ ++ x :: c₂) ++ H)) := by
    have : (c₁ ++ x :: b :: c₂) ++ H = (c₁ ++ [x]) ++ b :: (c₂ ++ H) := by simp
    rw [this]
    exact List.perm_middle.trans (by simp)
  have I₁ : Inv (s.setDsNext x (s.dsNext b)) A (b :: ((c₁ ++ x :: c₂) ++ H)) none :=
    (C.inv.setDsNext (by simp) _).perm hperm
  obtain ⟨s₂, A₂, heq₂, R₂⟩ := I₁.releaseMerge (C.mem b (by simp)) hroom
  obtain ⟨s₃, A₃, heq₃, R₃, -⟩ := R₂.inv.dmphysInternalAllocUpdateFree (R₂.frame.steady.room hroom)
  have hF := R₂.frame.trans R₃.frame
  refine ⟨hx, s₂, s₃, A₃, heq₂, heq₃, ⟨R₃.inv, ?_, fun y hy => ?_⟩, ?_, fun y hy => ?_, fun hc => ?_⟩
  · have := C.links.cut_write hrest hmem.1 hmem.2.1
    exact this.congr fun y hy => hF.dsNext y (List.mem_append_left H hy)
  · refine hF.mem y (List.mem_append_left H hy) P (C.mem y ?_)
    simp only [List.mem_append, List.mem_cons] at hy ⊢
    tauto
  · have h := hF.mono fun y (hy : y ∈ H) => List.mem_append_right (c₁ ++ x :: c₂) hy
    refine ⟨h.addr, h.size, h.used, fun y hy => ?_, h.mem, h.cover, h.steady.enough,
      h.steady.room, h.steady.initial⟩
    rw [h.dsNext y hy]
    have hyx : y ≠ x := fun e => hmem.2.2 (e ▸ hy)
    simp only [State.setDsNext, Function.update_of_ne hyx]
  · exact ⟨hF.addr y (List.mem_append_left H hy), hF.size y (List.mem_append_left H hy)⟩
  · exact R₃.coal (R₂.coal (Coalesced.perm hperm hc))

/-- The rest of a list is released. -/
theorem Chain.releaseRest (C : Chain s A H P q (c₁ ++ x :: c₂)) (hroom : s.Room)
    (hf : c₂.length < fuel) :
    ∃ s' A', s.releaseRest P x fuel = .ok s' ∧ Chain s' A' H P q (c₁ ++ [x]) ∧
      Frame s A s' A' (· ∈ H) ∧
      (∀ y ∈ c₁ ++ [x], s'.addr y = s.addr y ∧ s'.size y = s.size y) ∧
      (Coalesced s A ((c₁ ++ x :: c₂) ++ H) → Coalesced s' A' ((c₁ ++ [x]) ++ H)) := by
  induction c₂ generalizing s A fuel with
  | nil =>
    obtain ⟨fuel, rfl⟩ : ∃ k, fuel = k + 1 := ⟨fuel - 1, by simp at hf; omega⟩
    have hx : s.dsNext x = none := C.links.tail_at
    refine ⟨s, A, ?_, C, Frame.refl _ _ _, fun _ _ => ⟨rfl, rfl⟩, id⟩
    simp only [State.releaseRest, hx]
    rfl
  | cons b c₂ ih =>
    obtain ⟨fuel, rfl⟩ : ∃ k, fuel = k + 1 := ⟨fuel - 1, by simp at hf; omega⟩
    obtain ⟨hx, s₂, s₃, A₃, heq₂, heq₃, C₃, hF, hk, hcoal⟩ := C.releaseNext hroom
    obtain ⟨s₄, A₄, heq₄, C₄, hF₄, hk₄, hcoal₄⟩ := ih C₃ (hF.steady.room hroom)
      (by simp at hf; omega)
    refine ⟨s₄, A₄, ?_, C₄, hF.trans hF₄, fun y hy => ?_, fun hc => hcoal₄ (hcoal hc)⟩
    · simp only [State.releaseRest, hx, heq₂, ok_bind, heq₃, heq₄]
    · have hy' : y ∈ c₁ ++ x :: c₂ := by
        simp only [List.mem_append, List.mem_cons, List.not_mem_nil, or_false] at hy ⊢
        tauto
      exact ⟨(hk₄ y hy).1.trans (hk y hy').1, (hk₄ y hy).2.trans (hk y hy').2⟩

/-- The list `c'` is `c` cut behind `m` bytes: its last area may have lost its end. -/
def Trimmed (s : State) (c : List Ptr) (m : Nat) (s' : State) (c' : List Ptr) : Prop :=
  ∃ c₁ x c₂, c = c₁ ++ x :: c₂ ∧ c' = c₁ ++ [x] ∧ (∀ y ∈ c', s'.addr y = s.addr y) ∧
    (∀ y ∈ c₁, s'.size y = s.size y) ∧ s'.size x ≤ s.size x ∧ s.total c₁ + s'.size x = m

theorem Trimmed.ne_nil (h : Trimmed s c m s' c') : c' ≠ [] := by
  obtain ⟨c₁, x, c₂, -, rfl, -⟩ := h
  simp

theorem Trimmed.length_le (h : Trimmed s c m s' c') : c'.length ≤ c.length := by
  obtain ⟨c₁, x, c₂, rfl, rfl, -⟩ := h
  simp

/-- The area behind `a` is free and borders on it. -/
def State.TailFree (s : State) (a : Ptr) : Prop :=
  ∃ b, s.areaNext a = some b ∧ s.used b = false ∧ s.addr a + s.size a = s.addr b

/-- A shrink to `m` bytes cuts an area in front of a free one. -/
def State.CutsFree (s : State) (h : Ptr) (m : Nat) : Prop :=
  ∃ a o, s.findOffset s.listFuel (some h) (Word.sub m 1) = .ok (some (a, o)) ∧
    Word.add o 1 < s.size a ∧ s.TailFree a

theorem State.total_page (I : AreaInv s A) (h : ∀ a ∈ c, a ∈ A P) : s.total c % pageSize = 0 := by
  induction c with
  | nil => rfl
  | cons a c ih =>
    have h1 := ih fun b hb => h b (by simp [hb])
    have h2 := (I.range (h a (by simp))).size_aligned
    rw [s.total_cons]
    unfold pageSize at *
    omega

/-- The end of an area of the list becomes free. -/
theorem Chain.cutLast {k : Nat} (C : Chain s A H P q (c₁ ++ x :: c₂)) (hpos : 0 < k)
    (hle : k ≤ s.size x) (hk : k % pageSize = 0) :
    Meets (s.cutLast P x k)
      (fun s₁ => ∃ A₁, Cut s A ((c₁ ++ x :: c₂) ++ H) none P x (s.addr x) k s₁ A₁ ∧
        Chain s₁ A₁ H P q (c₁ ++ x :: c₂) ∧
        ∀ y ∈ (c₁ ++ x :: c₂) ++ H, y ≠ x → y ∈ s.live ∧ y ≠ x) s.NoPage := by
  refine (C.inv.cutLast (C.mem x (by simp)) (by simp) hpos hle hk).imp ?_
  rintro s₁ ⟨A₁, K⟩
  have hkeep : ∀ y ∈ (c₁ ++ x :: c₂) ++ H, y ≠ x → y ∈ s.live ∧ y ≠ x := fun y hy hyx =>
    ⟨(C.inv.live y).mpr (C.inv.held y hy), hyx⟩
  refine ⟨A₁, K, ⟨K.inv, C.links.congr fun y hy => ?_, fun y hy => ?_⟩, hkeep⟩
  · by_cases hyx : y = x
    · subst hyx; exact K.dsNext
    · exact K.frame.dsNext y (hkeep y (List.mem_append_left H hy) hyx)
  · by_cases hyx : y = x
    · subst hyx; exact K.mem
    · exact K.frame.mem y (hkeep y (List.mem_append_left H hy) hyx) P (C.mem y hy)

theorem Chain.dmphysPagesShrink (C : Chain s A H P (some a) c) (hroom : s.Room)
    (hm : m % pageSize = 0) (hpos : 0 < m) (hlt : m < 4294967296) :
    Meets (s.dmphysPagesShrink P a m)
      (fun r => r.1 ≠ none ∧ r.2 = s ∨ r.1 = none ∧ ∃ A' c', Trimmed s c m r.2 c' ∧
        Resized s A H P a r.2 A' c' ∧
        (Coalesced s A (c ++ H) → ¬s.CutsFree a m → Coalesced r.2 A' (c' ++ H))) s.NoPage := by
  have hlen := C.length_lt
  have hsub : Word.sub m 1 = m - 1 := Word.sub_eq hpos hlt
  unfold State.dmphysPagesShrink
  rcases IsSList.findOffset_eq C.links hlen (m - 1) with
    ⟨h0, -⟩ | ⟨c₁, x, c₂, o, rfl, hfind, htot, ho⟩
  · rw [hsub, h0]
    exact .inl ⟨by simp, rfl⟩
  have hx := C.mem x (by simp)
  have hxH : x ∈ (c₁ ++ x :: c₂) ++ H := by simp
  have hrx := C.inv.area.range hx
  have hbx := hrx.bound
  have eo : Word.add o 1 = o + 1 := Word.add_eq (by omega)
  -- the areas in front of the last one have whole pages, so the cut is at a page boundary
  have hpage : (o + 1) % pageSize = 0 := by
    have := State.total_page C.inv.area fun b hb => C.mem b (List.mem_append_left (x :: c₂) hb)
    unfold pageSize at *
    omega
  rw [hsub, hfind]
  simp only [ok_bind, eo]
  refine (C.cutLast (by omega) (by omega) hpage).bind ?_
  rintro s₁ ⟨A₁, K, C₁, hkeep⟩
  have hnd := (List.nodup_append.mp C.inv.owned).1
  have hlen₁ : c₂.length < s₁.listFuel := by
    have := C₁.length_lt
    simp only [List.length_append, List.length_cons] at this
    omega
  obtain ⟨s₂, A₂, heq, C₂, hF, hk, hcoal⟩ := C₁.releaseRest (K.frame.steady.room hroom) hlen₁
  have hx₁ : s₂.addr x = s.addr x ∧ s₂.size x = o + 1 := by
    rw [(hk x (by simp)).1, (hk x (by simp)).2, K.addr, K.size]
    exact ⟨rfl, rfl⟩
  have hk₁ : ∀ y ∈ c₁, s₂.addr y = s.addr y ∧ s₂.size y = s.size y := by
    intro y hy
    have hyx : y ≠ x := fun e => by
      simp only [List.nodup_append, List.nodup_cons, List.mem_append, List.mem_cons] at hnd
      grind
    have hK := hkeep y (by simp [hy]) hyx
    rw [(hk y (by simp [hy])).1, (hk y (by simp [hy])).2]
    exact ⟨K.frame.addr y hK, K.frame.size y hK⟩
  refine Meets.bind_ok heq (.inr ⟨rfl, A₂, c₁ ++ [x], ?_, ⟨C₂, ?_⟩, ?_⟩)
  · refine ⟨c₁, x, c₂, rfl, rfl, fun y hy => ?_, fun y hy => (hk₁ y hy).2, ?_, ?_⟩
    · rcases List.mem_append.mp hy with hy | hy
      · exact (hk₁ y hy).1
      · rw [List.mem_singleton.mp hy]
        exact hx₁.1
    · rw [hx₁.2]
      exact ho
    · rw [hx₁.2]
      omega
  · refine (K.frame.mono fun y (hy : y ∈ H) => hkeep y (List.mem_append_right _ hy) ?_).trans hF
    rintro rfl
    simp only [List.nodup_append, List.mem_append, List.mem_cons] at hnd
    grind
  · intro hc hcut
    refine hcoal (K.coal hc (fun h => absurd h (lt_irrefl _)) fun h => ?_)
    refine C.inv.nextUsed hx (by simp) fun b hb hfree => hcut ?_
    refine ⟨x, o, by rw [hsub, hfind], ?_, b, hb, hfree⟩
    rw [eo]
    omega

/-! ## `dmphys_internal_alloc_update` -/

/-- A new page area goes into an empty entry of `mem_pool`. -/
theorem Inv.pushMemPool (I : Inv s A (a :: H) none) (ha : a ∈ A defaultPool)
    (hnull : s.dsNext a = none) (he : s.memPool[i]? = some e) (hi : intPoolInitial ≤ i)
    (hmap : e.mapAddr = none) (y : Nat) (nf : Int) :
    Leaves s A (a :: H) H
      { s with memPool := s.memPool.set i ⟨true, some y, some a⟩, numFree := nf } A := by
  have hok := I.pool i e he
  have harea := hok.unmapped hmap
  have hav : e.available = false := by
    cases h : e.available with
    | false => rfl
    | true => exact absurd hmap (hok.mapped h)
  generalize hs' : ({ s with
    memPool := s.memPool.set i ⟨true, some y, some a⟩, numFree := nf } : State) = s'
  have hperm : s'.internalAreas.Perm (a :: s.internalAreas) := by
    have := @State.filterMap_set_perm _ _ _ (·.area) _ _ _ he ⟨true, some y, some a⟩
    rw [List.perm_iff_count] at this ⊢
    intro z
    have := this z
    subst hs'
    simp [State.internalAreas, List.count_cons, harea] at this ⊢
    omega
  have hmem : ∀ b, b ∈ s'.internalAreas ↔ b = a ∨ b ∈ s.internalAreas := by
    intro b
    rw [hperm.mem_iff, List.mem_cons]
  have hfree : freeAreas s' A H = freeAreas s A (a :: H) := by
    funext Q
    ext b
    simp only [freeAreas, Set.mem_ofPred_eq, hmem, List.mem_cons]
    tauto
  have hf : s'.used = s.used ∧ s'.dsNext = s.dsNext ∧ s'.live = s.live := by
    subst hs'; exact ⟨rfl, rfl, rfl⟩
  have hcount : s.memPool.countP (·.available) ≤ s'.memPool.countP (·.available) := by
    have := @State.countP_set _ (·.available) _ _ _ he ⟨true, some y, some a⟩
    subst hs'
    simp [hav] at this ⊢
    omega
  refine ⟨⟨?_, ?_, ?_, ?_, ?_, ?_, ?_, ?_, ?_, ?_⟩, ?_, ?_⟩
  · subst hs'
    exact I.area.congr (fun _ _ _ => rfl) (fun _ _ _ => rfl) (fun _ _ _ => rfl)
      (fun _ _ _ => rfl) fun _ => rfl
  · rw [hfree]
    subst hs'
    exact I.free.congr (fun _ _ _ => rfl) (fun _ _ _ => rfl) (fun _ _ _ => rfl) (fun _ => rfl)
      fun _ => rfl
  · rw [hf.2.2]; exact I.live_nodup
  · rw [hf.2.2]; exact I.live
  · refine (hperm.append_left H).nodup_iff.mpr ?_
    rw [List.perm_middle.nodup_iff]
    exact I.owned
  · exact fun b hb => I.held b (List.mem_cons_of_mem _ hb)
  · intro b hb
    rcases (hmem b).mp hb with rfl | hb
    · exact ha
    · exact I.internal b hb
  · intro Q b hb hT
    have := I.flag Q b hb hT
    rw [hf.1, hmem, this, List.mem_cons]
    tauto
  · intro Q b hb hbH
    rw [hf.2.1]
    by_cases hba : b = a
    · subst hba; exact hnull
    · exact I.null Q b hb (by simp [hba, hbH])
  · subst hs'
    exact State.MemPoolOk.set I.pool ⟨by simp, by simp, by simp, fun _ => hi⟩
  · subst hs'
    exact ⟨fun _ _ => rfl, fun _ _ => rfl, fun _ _ => rfl, fun _ _ => rfl, fun _ _ _ h => h,
      fun _ _ => Iff.rfl, fun h => le_trans h hcount, id,
      State.initialPages_set he fun h => absurd h (by omega)⟩
  · intro hc Q
    rw [hfree]
    subst hs'
    exact hc Q

theorem Inv.refillLoop (I : Inv s A H none) (hroom : s.Room) (is : List Nat)
    (hi : ∀ i ∈ is, intPoolInitial ≤ i) :
    Meets (s.refillLoop is) (fun s' => ∃ A', Leaves s A H H s' A') s.NoPage := by
  induction is generalizing s A with
  | nil => exact ⟨A, .refl I⟩
  | cons i is ih =>
    unfold State.refillLoop
    cases he : s.memPool[i]? with
    | none => exact ih I hroom fun j hj => hi j (by simp [hj])
    | some e =>
      simp only
      split
      next hmap =>
        refine (I.dmphysPagesAllocate hroom (.inl rfl) (by decide) (by decide) (by decide)
          (by decide) .internal).bind ?_
        rintro ⟨o, s₁⟩ hok
        cases o with
        | none =>
          obtain ⟨A₁, hL, -⟩ := hok
          exact ⟨A₁, hL⟩
        | some a =>
          obtain ⟨c, A₁, E, hc⟩ := hok
          obtain rfl := hc (by decide)
          have hL := Inv.pushMemPool E.chain.inv (E.chain.mem a (by simp)) E.chain.links.2
            (E.grown i e he hmap) (hi i (by simp)) hmap (s₁.addr a) (s₁.numFree + 1)
          have hE : Leaves s A H H _ A₁ := ⟨hL.inv, E.frame.trans hL.frame, fun h => hL.coal (E.coal h)⟩
          refine (ih hL.inv (hE.frame.steady.room hroom) fun j hj => hi j (by simp [hj])).mono ?_ fun e he => hE.frame.noPage he
          rintro s₂ ⟨A₂, hL₂⟩
          exact ⟨A₂, hE.trans hL₂ fun b hb => hb⟩
      next hmap => exact ih I hroom fun j hj => hi j (by simp [hj])

theorem Inv.refill (I : Inv s A H none) (hroom : s.Room) :
    Meets s.refill (fun s' => ∃ A', Leaves s A H H s' A') s.NoPage := by
  have hset : ∀ (t : State) (B : Nat → Set Ptr) (b : Bool), Inv t B H none →
      Leaves t B H H { t with updateInProgress := b } B := by
    intro t B b I
    refine ⟨⟨?_, ?_, I.live_nodup, I.live, I.owned, I.held, I.internal, I.flag, I.null, I.pool⟩,
      ⟨fun _ _ => rfl, fun _ _ => rfl, fun _ _ => rfl, fun _ _ => rfl, fun _ _ _ h => h,
        fun _ _ => Iff.rfl, id, id, rfl⟩, id⟩
    · exact I.area.congr (fun _ _ _ => rfl) (fun _ _ _ => rfl) (fun _ _ _ => rfl)
        (fun _ _ _ => rfl) fun _ => rfl
    · exact I.free.congr (fun _ _ _ => rfl) (fun _ _ _ => rfl) (fun _ _ _ => rfl) (fun _ => rfl)
        fun _ => rfl
  unfold State.refill
  split
  · exact ⟨A, .refl I⟩
  have h₁ := hset s A true I
  refine ((h₁.inv.refillLoop (h₁.frame.steady.room hroom) _ fun i hi =>
    (List.mem_range'_1.mp hi).1).mono (fun _ h => h)
    fun e he => h₁.frame.noPage he).bind ?_
  rintro s₂ ⟨A₂, h₂⟩
  exact ⟨A₂, (h₁.trans h₂ fun b hb => hb).trans (hset s₂ A₂ false h₂.inv) fun b hb => hb⟩

theorem Inv.dmphysInternalAllocUpdate (I : Inv s A H none) (hroom : s.Room) :
    Meets s.dmphysInternalAllocUpdate (fun s' => ∃ A', Leaves s A H H s' A') s.NoPage := by
  have hfree : ∀ t B, Leaves s A H H t B →
      Meets t.dmphysInternalAllocUpdateFree (fun s' => ∃ A', Leaves s A H H s' A') s.NoPage := by
    intro t B hL
    obtain ⟨s', A', heq, hR, -⟩ := hL.inv.dmphysInternalAllocUpdateFree (hL.frame.steady.room hroom)
    exact Meets.of_eq_ok heq ⟨A', hL.trans hR.toLeaves fun b hb => hb⟩
  unfold State.dmphysInternalAllocUpdate
  split
  · refine (I.refill hroom).bind ?_
    rintro t ⟨B, hL⟩
    exact hfree t B hL
  · exact hfree s A (.refl I)

end

end L4env.DMphys
