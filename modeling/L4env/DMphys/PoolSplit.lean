import L4env.DMphys.PoolInv

/-!
# Splitting areas

An area in use is cut to a part of its range and the rest becomes one or two free areas
(`__split_area`, and the cuts of `__allocate_area` and `dmphys_pages_shrink`).
-/

namespace L4env.DMphys

section
variable {s s' s'' : State} {A A' A'' : Nat → Set Ptr} {H : List Ptr} {T : Option Ptr} {a b : Ptr}

/-! ## Aligned ranges -/

/-- The aligned size is what lies between the first and the last boundary in the area. -/
theorem alignedSize_cases (hr : PageArea (s.addr a) (s.size a)) (hk : k < 32) :
    s.alignedSize a (2 ^ k) = 0 ∨ ∃ d, 2 ^ k ∣ Word.roundUp (s.addr a) (2 ^ k) ∧ 2 ^ k ∣ d ∧
      s.addr a ≤ Word.roundUp (s.addr a) (2 ^ k) ∧ Word.roundUp (s.addr a) (2 ^ k) ≤ d ∧
      d ≤ s.addr a + s.size a ∧
      s.alignedSize a (2 ^ k) = d - Word.roundUp (s.addr a) (2 ^ k) := by
  have hb := hr.bound
  have hlt : s.addr a < 4294967296 := by omega
  have hdown := Word.roundDown_le hb hk
  unfold State.alignedSize
  simp only [Word.add_eq hb]
  rcases Word.roundUp_cases hlt hk with ⟨h0, hpos⟩ | ⟨hdvd, hle, -⟩
  · left
    have : Word.sub 0 (s.addr a) = 4294967296 - s.addr a := by unfold Word.sub; omega
    rw [h0, this, if_pos (by omega)]
  · have hup : Word.roundUp (s.addr a) (2 ^ k) < 4294967296 := by
      rw [Word.roundUp_two_pow hlt hk]; exact Nat.mod_lt _ (by decide)
    have hddvd := Word.dvd_roundDown hb hk
    have hud := fun h => Word.le_roundDown hb hk hdvd h
    generalize Word.roundUp (s.addr a) (2 ^ k) = u at *
    generalize Word.roundDown (s.addr a + s.size a) (2 ^ k) = d at *
    rw [Word.sub_eq hle hup, Word.sub_eq hdown hb]
    split
    · exact .inl rfl
    · have hud := hud (by omega)
      have h1 : Word.sub (s.size a) (u - s.addr a) = s.size a - (u - s.addr a) :=
        Word.sub_eq (by omega) (by omega)
      have h2 : Word.sub (s.size a - (u - s.addr a)) (s.addr a + s.size a - d) =
          s.size a - (u - s.addr a) - (s.addr a + s.size a - d) := Word.sub_eq (by omega) (by omega)
      rw [if_neg (by omega), h1, h2]
      exact .inr ⟨d, hdvd, hddvd, hle, hud, hdown, by omega⟩

/-- An area with room for `m` bytes at the alignment has it right after its first boundary. -/
theorem alignedSize_room (hr : PageArea (s.addr a) (s.size a)) (hk : k < 32) (hm : 0 < m)
    (h : m ≤ s.alignedSize a (2 ^ k)) :
    2 ^ k ∣ Word.roundUp (s.addr a) (2 ^ k) ∧ s.addr a ≤ Word.roundUp (s.addr a) (2 ^ k) ∧
      Word.roundUp (s.addr a) (2 ^ k) + m ≤ s.addr a + s.size a := by
  rcases alignedSize_cases hr hk with h0 | ⟨d, hdvd, -, hle, hud, hd, heq⟩
  · omega
  · exact ⟨hdvd, hle, by omega⟩

theorem mod_pageSize_of_dvd (hk : 12 ≤ k) (h : 2 ^ k ∣ v) : v % pageSize = 0 :=
  Nat.mod_eq_zero_of_dvd ((Nat.pow_dvd_pow 2 hk).trans h)

theorem alignedSize_page (hr : PageArea (s.addr a) (s.size a)) (hk : k < 32) (hk' : 12 ≤ k) :
    s.alignedSize a (2 ^ k) % pageSize = 0 := by
  rcases alignedSize_cases hr hk with h0 | ⟨d, hdvd, hddvd, -, -, -, heq⟩
  · rw [h0]; rfl
  · rw [heq]
    exact mod_pageSize_of_dvd hk' (Nat.dvd_sub hddvd hdvd)

/-! ## Free areas next to an area in use -/

/-- A free area neither ends nor starts inside of an area in use. -/
theorem Inv.border (I : Inv s A H T) (ha : a ∈ A P) (haH : a ∈ H) (hb : b ∈ freeAreas s A H P) :
    (∀ z, s.addr a < z → z ≤ s.addr a + s.size a → s.addr b + s.size b ≠ z) ∧
      ∀ z, s.addr a ≤ z → z < s.addr a + s.size a → z ≠ s.addr b := by
  have hne : a ≠ b := fun e => hb.2.1 (e ▸ haH)
  have := (I.area.range hb.1).pos
  have := I.area.apart ha hb.1 hne
  constructor <;> intro z h1 h2 <;> omega

theorem Coalesced.setRange (hc : Coalesced s A H) (haH : a ∈ H) :
    Coalesced (s.setRange a y m) A H := by
  intro P b hb c hc'
  have hb' : b ≠ a := fun e => hb.2.1 (e ▸ haH)
  have hc'' : c ≠ a := fun e => hc'.2.1 (e ▸ haH)
  have := hc P b hb c hc'
  simpa [State.setRange, hb', hc''] using this

theorem isolated_setRange (haH : a ∈ H) :
    Isolated (s.setRange a y m) A H P x n ↔ Isolated s A H P x n := by
  refine forall_congr' fun b => forall_congr' fun hb => ?_
  have hb' : b ≠ a := fun e => hb.2.1 (e ▸ haH)
  simp [State.setRange, hb']

theorem covered_setRange (ha : a ∈ A P) (hd : ∀ Q, a ∈ A Q → Q = P) (h1 : s.addr a ≤ y)
    (h2 : y + m ≤ s.addr a + s.size a) :
    Covered s A Q z ↔ Covered (s.setRange a y m) A Q z ∨
      Q = P ∧ (s.addr a ≤ z ∧ z < y ∨ y + m ≤ z ∧ z < s.addr a + s.size a) := by
  constructor
  · rintro ⟨b, hb, hlo, hhi⟩
    by_cases hba : b = a
    · subst hba
      by_cases hin : y ≤ z ∧ z < y + m
      · exact .inl ⟨b, hb, by simpa [State.setRange] using hin⟩
      · exact .inr ⟨hd Q hb, by omega⟩
    · exact .inl ⟨b, hb, by simpa [State.setRange, hba] using ⟨hlo, hhi⟩⟩
  · rintro (⟨b, hb, hlo, hhi⟩ | ⟨rfl, hz⟩)
    · by_cases hba : b = a
      · subst hba
        simp only [State.setRange, Function.update_self] at hlo hhi
        exact ⟨b, hb, by omega, by omega⟩
      · simp only [State.setRange, Function.update_of_ne hba] at hlo hhi
        exact ⟨b, hb, hlo, hhi⟩
    · exact ⟨a, ha, by omega, by omega⟩

theorem Inv.setRange_sub (I : Inv s A H T) (ha : a ∈ A P) (haH : a ∈ H) (h1 : s.addr a ≤ y)
    (h2 : y + m ≤ s.addr a + s.size a) (hy : y % pageSize = 0) (hm : m % pageSize = 0)
    (hpos : 0 < m) : Inv (s.setRange a y m) A H T := by
  have hb := (I.area.range ha).bound
  refine I.setRange ha haH ⟨hy, hm, hpos, by omega⟩ ?_ ?_
  · intro b _ hba; omega
  · intro b _ hba; omega

/-! ## Cuts -/

/-- The area `a` of pool `P` was cut to `m` bytes at `y`, the rest of its range is free. -/
structure Cut (s : State) (A : Nat → Set Ptr) (H : List Ptr) (T : Option Ptr) (P : Nat) (a : Ptr)
    (y m : Nat) (s' : State) (A' : Nat → Set Ptr) : Prop where
  inv : Inv s' A' H T
  addr : s'.addr a = y
  size : s'.size a = m
  used : s'.used a = s.used a
  dsNext : s'.dsNext a = s.dsNext a
  mem : a ∈ A' P
  frame : Frame s A s' A' fun b => b ∈ s.live ∧ b ≠ a
  coal : Coalesced s A H → (s.addr a < y → PrevUsed s A H P a) →
    (y + m < s.addr a + s.size a → NextUsed s A H P a) → Coalesced s' A' H
  next : y + m = s.addr a + s.size a → NextUsed s A H P a → NextUsed s' A' H P a
  grown : s.OnlyGrown s'
  kept : s.KeepsInternal s'

/-- The remainders of a cut, the one in front of the new range and the one behind it. -/
theorem Inv.cut (I : Inv s A H T) (ha : a ∈ A P) (haH : a ∈ H) (h1 : s.addr a ≤ y)
    (h2 : y + m ≤ s.addr a + s.size a) (hy : y % pageSize = 0) (hm : m % pageSize = 0)
    (hpos : 0 < m) :
    Meets ((s.setRange a y m).addRemainders P (s.addr a) (y - s.addr a) (y + m)
      (s.addr a + s.size a - (y + m)))
      (fun s' => ∃ A', Cut s A H T P a y m s' A') s.NoPage := by
  have hr := I.area.range ha
  have hra := hr.addr_aligned
  have hrs := hr.size_aligned
  have hb := hr.bound
  have It := I.setRange_sub ha haH h1 h2 hy hm hpos
  have hcov := fun Q z => @covered_setRange s A a P y m Q z ha (fun Q h => I.area.disj h ha) h1 h2
  have hiso := fun x n => @isolated_setRange s A H a y m P x n haH
  have hcoal := fun hc => @Coalesced.setRange s A H a y m hc haH
  have hold : ∀ b ∈ A P, b ≠ a → s.addr b + s.size b ≤ s.addr a ∨
      s.addr a + s.size a ≤ s.addr b := fun b hb' hne => I.area.apart hb' ha hne
  generalize ht : s.setRange a y m = t at *
  have hta : t.addr a = y := by subst ht; simp [State.setRange]
  have hts : t.size a = m := by subst ht; simp [State.setRange]
  have htne : ∀ b, b ≠ a → t.addr b = s.addr b ∧ t.size b = s.size b := by
    intro b hb; subst ht; simp [State.setRange, hb]
  have htu : t.used = s.used ∧ t.dsNext = s.dsNext ∧ t.live = s.live ∧
      s.OnlyGrown t ∧ s.Steady t := by
    subst ht; exact ⟨rfl, rfl, rfl, .refl _, id, id, rfl⟩
  obtain ⟨htu, htd, htl, htf, hte⟩ := htu
  have htk : s.KeepsInternal t := by
    refine ⟨⟨by subst ht; exact fun _ h => h, fun b hb' => htne b ?_, by subst ht; exact fun _ => rfl⟩,
      by subst ht; exact fun _ h => h⟩
    rintro rfl
    have hown := List.nodup_append.mp I.owned
    exact hown.2.2 b haH b (by subst ht; exact hb') rfl
  have hnp : ∀ e, t.NoPage e → s.NoPage e := fun e he => ⟨he.1, fun h => he.2 (hte.enough h)⟩
  unfold pageSize at hra hrs hy hm
  unfold State.addRemainders
  have step1 := @Inv.addRemainder t A H T (y - s.addr a) (s.addr a) P It
    (fun _ => ⟨hra, by unfold pageSize; omega, by omega, by omega⟩) (by
      intro _ b hb'
      by_cases hba : b = a
      · subst hba; rw [hta]; omega
      · rw [(htne b hba).1, (htne b hba).2]
        have := hold b hb' hba
        omega)
  refine (step1.mono (fun _ h => h) hnp).bind ?_
  rintro s₁ ⟨A₁, G₁, I₁⟩
  have hold₁ : ∀ b ∈ A₁ P, b = a ∧ s₁.addr b = y ∧ s₁.size b = m ∨
      b ∈ A P ∧ b ≠ a ∧ s₁.addr b = s.addr b ∧ s₁.size b = s.size b ∨
      0 < y - s.addr a ∧ s₁.addr b = s.addr a ∧ s₁.size b = y - s.addr a := by
    intro b hb'
    rcases G₁.new P b hb' with hbA | ⟨-, h0, hba, hbs⟩
    · have hbl : b ∈ t.live := It.mem_live hbA
      have e1 := G₁.addr b hbl
      have e2 := G₁.size b hbl
      by_cases hba : b = a
      · subst hba; exact .inl ⟨rfl, e1.trans hta, e2.trans hts⟩
      · exact .inr (.inl ⟨hbA, hba, e1.trans (htne b hba).1, e2.trans (htne b hba).2⟩)
    · exact .inr (.inr ⟨h0, hba, hbs⟩)
  have hfree₁ : ∀ b ∈ freeAreas s₁ A₁ H P,
      b ∈ freeAreas s A H P ∧ s₁.addr b = s.addr b ∧ s₁.size b = s.size b ∨
      0 < y - s.addr a ∧ s₁.addr b = s.addr a ∧ s₁.size b = y - s.addr a := by
    rintro b ⟨hbA₁, hbH, hbI⟩
    rcases hold₁ b hbA₁ with ⟨rfl, -⟩ | ⟨hbA, hba, e1, e2⟩ | h
    · exact absurd haH hbH
    · refine .inl ⟨⟨hbA, hbH, fun h => hbI ?_⟩, e1, e2⟩
      rw [G₁.areas.mem_iff]
      subst ht
      exact h
    · exact .inr h
  have step2 := @Inv.addRemainder s₁ A₁ H T (s.addr a + s.size a - (y + m)) (y + m) P I₁
    (fun _ => ⟨by unfold pageSize; omega, by unfold pageSize; omega, by omega, by omega⟩) (by
      intro _ b hb'
      rcases hold₁ b hb' with ⟨-, e1, e2⟩ | ⟨hbA, hba, e1, e2⟩ | ⟨h0, e1, e2⟩
      · omega
      · have := hold b hbA hba
        omega
      · omega)
  refine step2.mono ?_ (fun e he => hnp e ⟨he.1, fun h => he.2 (G₁.steady.enough h)⟩)
  rintro s₂ ⟨A₂, G₂, I₂⟩
  have hal : a ∈ t.live := It.mem_live ha
  have hkeep : ∀ b ∈ t.live, s₂.addr b = t.addr b ∧ s₂.size b = t.size b ∧ s₂.used b = t.used b ∧
      s₂.dsNext b = t.dsNext b := by
    intro b hb'
    have hb₁ := G₁.live b hb'
    exact ⟨(G₂.addr b hb₁).trans (G₁.addr b hb'), (G₂.size b hb₁).trans (G₁.size b hb'),
      (G₂.used b hb₁).trans (G₁.used b hb'), (G₂.dsNext b hb₁).trans (G₁.dsNext b hb')⟩
  refine ⟨A₂, I₂, (hkeep a hal).1.trans hta, (hkeep a hal).2.1.trans hts, ?_, ?_,
    G₂.sub P a (G₁.sub P a ha), ⟨?_, ?_, ?_, ?_, ?_, ?_, ?_⟩, ?_, ?_, ?_, ?_⟩
  · rw [(hkeep a hal).2.2.1, htu]
  · rw [(hkeep a hal).2.2.2, htd]
  · rintro b ⟨hb', hne⟩
    rw [(hkeep b (htl ▸ hb')).1, (htne b hne).1]
  · rintro b ⟨hb', hne⟩
    rw [(hkeep b (htl ▸ hb')).2.1, (htne b hne).2]
  · rintro b ⟨hb', hne⟩
    rw [(hkeep b (htl ▸ hb')).2.2.1, htu]
  · rintro b ⟨hb', hne⟩
    rw [(hkeep b (htl ▸ hb')).2.2.2, htd]
  · intro b _ Q hbQ
    exact G₂.sub Q b (G₁.sub Q b hbQ)
  · intro Q z
    rw [G₂.cover, G₁.cover, hcov]
    constructor
    · rintro ((h | ⟨rfl, h⟩) | ⟨rfl, h⟩)
      · exact .inl h
      · exact .inr ⟨rfl, by omega⟩
      · exact .inr ⟨rfl, by omega⟩
    · rintro (h | ⟨rfl, h⟩)
      · exact .inl (.inl h)
      · rcases h with h | h
        · exact .inl (.inr ⟨rfl, by omega⟩)
        · exact .inr ⟨rfl, by omega⟩
  · exact hte.trans (G₁.steady.trans G₂.steady)
  · intro hc hp hn
    refine G₂.coal (G₁.coal (hcoal hc) fun h0 => ?_) fun h0 => ?_
    · rw [hiso]
      intro b hbf
      have hbd := I.border ha haH hbf
      exact ⟨hp (by omega) b hbf, hbd.2 _ (by omega) (by omega)⟩
    · intro b hbf
      rcases hfree₁ b hbf with ⟨hbf, e1, e2⟩ | ⟨h0', e1, e2⟩
      · have hbd := I.border ha haH hbf
        rw [e1, e2]
        refine ⟨hbd.1 _ (by omega) (by omega), ?_⟩
        have := hn (by omega) b hbf
        omega
      · rw [e1, e2]
        omega
  · intro hend hn c hcf
    obtain ⟨hcA, hcH, hcI⟩ := hcf
    rcases G₂.new P c hcA with hcA₁ | ⟨-, h0, -⟩
    · have hcl := I₁.mem_live hcA₁
      have hcf₁ : c ∈ freeAreas s₁ A₁ H P :=
        ⟨hcA₁, hcH, fun h => hcI (G₂.areas.mem_iff.mpr h)⟩
      rw [(hkeep a hal).1, (hkeep a hal).2.1, hta, hts, G₂.addr c hcl]
      rcases hfree₁ c hcf₁ with ⟨hcf, e1, -⟩ | ⟨h0', e1, -⟩
      · rw [e1, hend]
        exact hn c hcf
      · omega
    · omega
  · exact htf.trans (G₁.grown.trans G₂.grown)
  · exact htk.trans ((G₁.keeps It).trans (G₂.keeps I₁))

/-- `__split_area` cuts the area to `m` bytes at a boundary. -/
theorem Inv.splitArea (I : Inv s A H T) (ha : a ∈ A P) (haH : a ∈ H) (hk : 12 ≤ k) (hk' : k < 32)
    (hm : m % pageSize = 0) (hpos : 0 < m) (hroom : m ≤ s.alignedSize a (2 ^ k)) :
    Meets (s.splitArea P a m (2 ^ k)) (fun s' => ∃ y A', 2 ^ k ∣ y ∧ s.addr a ≤ y ∧
      y + m ≤ s.addr a + s.size a ∧ Cut s A H T P a y m s' A') s.NoPage := by
  have hr := I.area.range ha
  have hb := hr.bound
  obtain ⟨hdvd, hle, hfit⟩ := alignedSize_room hr hk' hpos hroom
  have hend : Word.sub (s.addr a + s.size a) m = s.addr a + s.size a - m :=
    Word.sub_eq (by omega) hb
  have hlt : s.addr a + s.size a - m < 4294967296 := by omega
  have hddvd := Word.dvd_roundDown hlt hk'
  have hdle := Word.roundDown_le hlt hk'
  have hud := Word.le_roundDown hlt hk' hdvd (by omega)
  -- the two places where the area may be cut
  have hcut : ∀ y, 2 ^ k ∣ y → s.addr a ≤ y → y + m ≤ s.addr a + s.size a →
      Meets ((s.setRange a y m).addRemainders P (s.addr a) (Word.sub y (s.addr a)) (Word.add y m)
        (Word.sub (s.addr a + s.size a) (Word.add y m)))
        (fun s' => ∃ y A', 2 ^ k ∣ y ∧ s.addr a ≤ y ∧ y + m ≤ s.addr a + s.size a ∧
          Cut s A H T P a y m s' A') s.NoPage := by
    intro y hy h1 h2
    rw [Word.sub_eq h1 (by omega), Word.add_eq (by omega : y + m < 4294967296),
      Word.sub_eq h2 hb]
    refine (I.cut ha haH h1 h2 (mod_pageSize_of_dvd hk hy) hm hpos).imp ?_
    rintro s' ⟨A', hC⟩
    exact ⟨y, A', hy, h1, h2, hC⟩
  have e1 := Word.add_eq (show Word.roundUp (s.addr a) (2 ^ k) + m < 4294967296 by omega)
  have e2 := Word.add_eq (show Word.roundDown (s.addr a + s.size a - m) (2 ^ k) + m < 4294967296
    by omega)
  have hsb := hcut (Word.roundUp (s.addr a) (2 ^ k)) hdvd hle hfit
  have hse := hcut (Word.roundDown (s.addr a + s.size a - m) (2 ^ k)) hddvd (by omega) (by omega)
  unfold State.splitArea
  simp only [Word.add_eq hb, hend]
  rw [if_neg]
  · split
    · exact hsb
    · exact hse
  · rw [e1, e2]
    omega

/-! ## Cuts at one end -/

theorem Cut.refl (I : Inv s A H T) (ha : a ∈ A P) : Cut s A H T P a (s.addr a) (s.size a) s A :=
  ⟨I, rfl, rfl, rfl, rfl, ha, Frame.refl _ _ _, fun h _ _ => h, fun _ h => h, .refl s, .refl s⟩

/-- A cut at the beginning of the area, followed by one at its end. -/
theorem Cut.trans_end (h : Cut s A H T P a y n s' A') (I : Inv s A H T)
    (hend : y + n = s.addr a + s.size a) (h' : Cut s' A' H T P a y m s'' A'') :
    Cut s A H T P a y m s'' A'' := by
  have hy := h.addr
  have hn := h.size
  refine ⟨h'.inv, h'.addr, h'.size, h'.used.trans h.used, h'.dsNext.trans h.dsNext, h'.mem, ?_, ?_,
    ?_, h.grown.trans h'.grown, h.kept.trans h'.kept⟩
  · refine h.frame.trans (h'.frame.mono ?_)
    rintro b ⟨hb, hba⟩
    obtain ⟨Q, hQ⟩ := (I.live b).mp hb
    exact ⟨h.inv.mem_live (h.frame.mem b ⟨hb, hba⟩ Q hQ), hba⟩
  · intro hc hp hnx
    refine h'.coal (h.coal hc hp fun hlt => by omega) (fun hlt => by omega) fun hlt => ?_
    exact h.next hend (hnx (by omega))
  · intro he hnx
    exact h'.next (by omega) (h.next hend hnx)

theorem addRemainder_zero (s : State) (P x : Nat) : s.addRemainder P x 0 = .ok s := rfl

theorem addRemainder_pos (hn : 0 < n) : s.addRemainder P x n = s.addFreeArea P x n := if_pos hn

theorem bind_addRemainder_zero (r : Except Panic State) (P x : Nat) :
    (r >>= fun s => s.addRemainder P x 0) = r := by
  cases r <;> rfl

theorem Inv.cutBegin (I : Inv s A H T) (ha : a ∈ A P) (haH : a ∈ H) (h1 : s.addr a ≤ y)
    (h2 : y < s.addr a + s.size a) (hy : y % pageSize = 0) :
    Meets (s.cutBegin P a y)
      (fun s' => ∃ A', Cut s A H T P a y (s.addr a + s.size a - y) s' A') s.NoPage := by
  have hr := I.area.range ha
  have hb := hr.bound
  unfold State.cutBegin
  split
  next hlt =>
    have hs := hr.size_aligned
    have hs' := hr.addr_aligned
    have hm : (s.addr a + s.size a - y) % pageSize = 0 := by unfold pageSize at *; omega
    have hcut := I.cut ha haH h1 (by omega) hy hm (by omega)
    have e0 : y + (s.addr a + s.size a - y) = s.addr a + s.size a := by omega
    simp only [State.addRemainders, e0, Nat.sub_self, bind_addRemainder_zero,
      addRemainder_pos (show 0 < y - s.addr a by omega)] at hcut
    have e1 : Word.sub y (s.addr a) = y - s.addr a := Word.sub_eq h1 (by omega)
    have e2 : Word.sub (s.size a) (y - s.addr a) = s.addr a + s.size a - y := by
      rw [Word.sub_eq (by omega) (by omega)]; omega
    simp only [e1, e2]
    exact hcut
  next hge =>
    obtain rfl : y = s.addr a := by omega
    have : s.addr a + s.size a - s.addr a = s.size a := by omega
    rw [this]
    exact ⟨A, .refl I ha⟩

/-- The part of an area from `addr a + m` on becomes a free area. -/
theorem Inv.cutBack (I : Inv s A H T) (ha : a ∈ A P) (haH : a ∈ H) (hpos : 0 < m)
    (h2 : m < s.size a) (hm : m % pageSize = 0) :
    Meets ((s.setRange a (s.addr a) m).addFreeArea P (s.addr a + m) (s.size a - m))
      (fun s' => ∃ A', Cut s A H T P a (s.addr a) m s' A') s.NoPage := by
  have hcut := I.cut ha haH le_rfl (by omega) (I.area.range ha).addr_aligned hm hpos
  have e0 : s.addr a + s.size a - (s.addr a + m) = s.size a - m := by omega
  simp only [State.addRemainders, e0, Nat.sub_self, addRemainder_zero, ok_bind,
    addRemainder_pos (show 0 < s.size a - m by omega)] at hcut
  exact hcut

theorem Inv.cutEnd (I : Inv s A H T) (ha : a ∈ A P) (haH : a ∈ H) (hpos : 0 < m)
    (h2 : m ≤ s.size a) (hm : m % pageSize = 0) :
    Meets (s.cutEnd P a (s.addr a) m) (fun s' => ∃ A', Cut s A H T P a (s.addr a) m s' A')
      s.NoPage := by
  have hb := (I.area.range ha).bound
  have e1 : Word.add (s.addr a) m = s.addr a + m := Word.add_eq (by omega)
  have e2 : Word.sub (s.addr a + s.size a) (s.addr a + m) = s.size a - m := by
    rw [Word.sub_eq (by omega) hb]; omega
  unfold State.cutEnd
  simp only [Word.add_eq hb, e1, e2]
  split
  next hlt => exact I.cutBack ha haH hpos (by omega) hm
  next hge =>
    obtain rfl : m = s.size a := by omega
    exact ⟨A, .refl I ha⟩

theorem Inv.cutLast (I : Inv s A H T) (ha : a ∈ A P) (haH : a ∈ H) (hpos : 0 < m)
    (h2 : m ≤ s.size a) (hm : m % pageSize = 0) :
    Meets (s.cutLast P a m) (fun s' => ∃ A', Cut s A H T P a (s.addr a) m s' A') s.NoPage := by
  have hb := (I.area.range ha).bound
  have e1 : Word.add (s.addr a) m = s.addr a + m := Word.add_eq (by omega)
  have e2 : Word.sub (s.size a) m = s.size a - m := Word.sub_eq h2 (by omega)
  unfold State.cutLast
  simp only [e1, e2]
  split
  next hlt => exact I.cutBack ha haH hpos hlt hm
  next hge =>
    obtain rfl : m = s.size a := by omega
    exact ⟨A, .refl I ha⟩

end

end L4env.DMphys
