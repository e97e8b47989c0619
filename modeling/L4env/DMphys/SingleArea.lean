import L4env.DMphys.PoolRun
import L4env.Util.BitScan

/-!
# Contiguous allocation

What `__find_single_area` returns for a pool, and when it misses an area that has room: the fit test of
`__aligned_size` rounds the end of an area as well as its start.
-/

namespace L4env.DMphys

section
variable {s : State} {A : Nat → Set Ptr} {H : List Ptr} {P m k al : Nat} {a : Ptr}

/-- Larger areas are in later free lists. -/
theorem getFreeList_mono {m n : Nat} (hm : 0 < m) (hmn : m ≤ n) : getFreeList m ≤ getFreeList n := by
  have hlog : Nat.log2 m ≤ Nat.log2 n := by
    rw [Nat.log2_eq_log_two, Nat.log2_eq_log_two]
    exact Nat.log_mono_right hmn
  simp only [getFreeList, Word.bsr, numFreeLists, log2PageSize, hm.ne', (hm.trans_le hmn).ne', if_false]
  split_ifs <;> omega

theorem alignedSize_le (hr : PageArea (s.addr a) (s.size a)) (hk : k < 32) :
    s.alignedSize a (2 ^ k) ≤ s.size a := by
  rcases alignedSize_cases hr hk with h0 | ⟨d, -, -, hle, -, hd, heq⟩ <;> omega

/-- An unused area with `m` bytes at a boundary. -/
def HasRoom (s : State) (A : Nat → Set Ptr) (P m al : Nat) : Prop :=
  ∃ a ∈ A P, s.used a = false ∧ ∃ x, al ∣ x ∧ s.addr a ≤ x ∧ x + m ≤ s.addr a + s.size a

/-- An unused area that passes the fit test. -/
def Fits (s : State) (A : Nat → Set Ptr) (P m al : Nat) : Prop :=
  ∃ a ∈ A P, s.used a = false ∧ m ≤ s.alignedSize a al

/-- An area with `m` bytes at a boundary was cut out of an unused one, or there is none and the state is as
it was. -/
def FindsSingle (s : State) (A : Nat → Set Ptr) (H : List Ptr) (P m al : Nat) (r : Option Ptr × State) :
    Prop :=
  match r.1 with
  | none => r.2 = s ∧ ¬HasRoom s A P m al
  | some a => a ∈ A P ∧ s.used a = false ∧ s.addr a ≤ r.2.addr a ∧
    r.2.addr a + m ≤ s.addr a + s.size a ∧ al ∣ r.2.addr a ∧ r.2.size a = m ∧ r.2.used a = true ∧
    ∃ A', Taken s A H P a r.2 A'

/-- A size of whole boundaries fits wherever there is room for it. -/
theorem Inv.fits_of_dvd (I : Inv s A H none) (hk : k < 32) (hm : 2 ^ k ∣ m) (h : HasRoom s A P m (2 ^ k)) :
    Fits s A P m (2 ^ k) := by
  obtain ⟨a, ha, hu, x, hx, hlo, hhi⟩ := h
  refine ⟨a, ha, hu, ?_⟩
  have hr := I.area.range ha
  have hb := hr.bound
  have hdown := Word.le_roundDown hb hk ((Nat.dvd_add_right hx).mpr hm) hhi
  obtain ⟨hle, hup⟩ := Word.roundUp_le hk hx hlo (by omega)
  have hend := Word.roundDown_le hb hk
  unfold State.alignedSize
  simp only [Word.add_eq hb]
  rw [Word.sub_eq hle (by omega), Word.sub_eq hend hb]
  generalize Word.roundUp (s.addr a) (2 ^ k) = u at *
  generalize Word.roundDown (s.addr a + s.size a) (2 ^ k) = d at *
  have h1 : Word.sub (s.size a) (u - s.addr a) = s.size a - (u - s.addr a) :=
    Word.sub_eq (by omega) (by omega)
  have h2 : Word.sub (s.size a - (u - s.addr a)) (s.addr a + s.size a - d) =
      s.size a - (u - s.addr a) - (s.addr a + s.size a - d) := Word.sub_eq (by omega) (by omega)
  rw [if_neg (by omega), if_neg (by omega), h1, h2]
  omega

/-- The search finds an area exactly if one passes the fit test. -/
theorem Inv.findSingleArea_fits (I : Inv s A H none) (hk : 12 ≤ k) (hk' : k < 32)
    (hm : m % pageSize = 0) (hpos : 0 < m) :
    Meets (s.findSingleArea P m (2 ^ k))
      (fun r => FindsSingle s A H P m (2 ^ k) r ↔ (HasRoom s A P m (2 ^ k) → Fits s A P m (2 ^ k)))
      s.NoPage := by
  refine (I.findSingleIn hk hk' hm hpos _).imp ?_
  rintro ⟨o, s'⟩ h
  cases o with
  | none =>
    obtain ⟨rfl, hnone⟩ := h
    have hnot : ¬Fits s' A P m (2 ^ k) := by
      rintro ⟨a, ha, hu, hfit⟩
      have hr := I.area.range ha
      refine absurd hfit (Nat.not_le.mpr (hnone a ((I.mem_freeAreas ha (by simp)).mpr hu) ?_))
      have hle := getFreeList_mono hpos (hfit.trans (alignedSize_le hr hk'))
      have hlt := getFreeList_lt (s'.size a)
      simp only [Set.mem_ofPred_eq, List.mem_range'_1]
      omega
    simp only [FindsSingle, true_and, hnot, imp_false]
  | some a =>
    obtain ⟨haf, hfit, hlo, hhi, hdvd, hsize, A', hT⟩ := h
    have hused : s.used a = false := (I.mem_freeAreas haf.1 (by simp)).mp haf
    have hused' : s'.used a = true :=
      (hT.inv.flag P a hT.mem (by simp)).mpr (.inl List.mem_cons_self)
    exact iff_of_true ⟨haf.1, hused, hlo, hhi, hdvd, hsize, hused', A', hT⟩ fun _ =>
      ⟨a, haf.1, hused, hfit⟩

/-- A pool with descriptor memory to spare is searched to the end: an area is cut out of an unused one that
has room, or none has, exactly if some area that has room passes the fit test. -/
theorem find_single_area_iff (I : Inv s A H none) (he : s.Enough) (hk : 12 ≤ k) (hk' : k < 32)
    (hm : m % pageSize = 0) (hpos : 0 < m) :
    (∃ r, s.findSingleArea P m (2 ^ k) = .ok r ∧ FindsSingle s A H P m (2 ^ k) r) ↔
      (HasRoom s A P m (2 ^ k) → Fits s A P m (2 ^ k)) := by
  have h := I.findSingleArea_fits (P := P) hk hk' hm hpos
  cases hr : s.findSingleArea P m (2 ^ k) with
  | error e =>
    rw [hr] at h
    exact absurd he h.2
  | ok r =>
    rw [hr, meets_ok] at h
    simpa using h

/-- Three free pages at an even page. -/
def threePages : Config :=
  (Config.mk (.init (fun _ => none) (fun _ => 0) .plain) [] []).next .plain (.addFreeArea 0 0x2000 0x3000)

theorem threePages_good : ∃ A l, threePages.Good A l := by
  refine Reachable.good (G := fun c slab op => c.Valid op ∧ c.Safe slab op) (fun _ _ _ h => h) ?_
  refine Reachable.next (.init _ _ _) ⟨?_, ?_⟩ ?_
  · exact ⟨⟨by decide, by decide, by decide⟩, by decide, by decide, by simp⟩
  · exact ⟨by decide, by decide⟩
  · decide +kernel

theorem find_single_area_iff_threePages : ∃ A H,
    (∃ r, threePages.st.findSingleArea 0 0x2000 (2 ^ 13) = .ok r ∧
      FindsSingle threePages.st A H 0 0x2000 (2 ^ 13) r) ↔
    (HasRoom threePages.st A 0 0x2000 (2 ^ 13) → Fits threePages.st A 0 0x2000 (2 ^ 13)) :=
  have ⟨A, l, g⟩ := threePages_good
  ⟨A, heldAreas l, find_single_area_iff g.holds.inv (by decide +kernel) (by decide) (by decide)
    (by decide) (by decide)⟩

/-- Three pages at a multiple of two pages are free, and a request for them finds nothing. -/
theorem find_single_area_misses : ¬∀ (s : State) (A : Nat → Set Ptr) (H : List Ptr) (P m k : Nat),
    Inv s A H none → s.Enough → 12 ≤ k → k < 32 → m % pageSize = 0 → 0 < m →
    ∃ r, s.findSingleArea P m (2 ^ k) = .ok r ∧ FindsSingle s A H P m (2 ^ k) r := by
  intro h
  obtain ⟨A, l, g⟩ := threePages_good
  obtain ⟨⟨o, s⟩, heq, hr⟩ := h threePages.st A (heldAreas l) 0 0x3000 13 g.holds.inv (by decide +kernel)
    (by decide) (by decide) (by decide) (by decide)
  have hnone : (threePages.st.findSingleArea 0 0x3000 (2 ^ 13)).toOption.map (·.1) = some none := by
    decide +kernel
  rw [heq] at hnone
  obtain rfl : o = none := by simpa [Except.toOption] using hnone
  refine hr.2 ?_
  obtain ⟨a, ha, -⟩ := (g.cover 0 0x2000).mpr (by decide +kernel)
  have hlive : threePages.st.live = [1] := by decide +kernel
  have hmem := g.holds.inv.mem_live ha
  rw [hlive, List.mem_singleton] at hmem
  subst hmem
  exact ⟨1, ha, by decide +kernel, 0x2000, by decide, by decide +kernel, by decide +kernel⟩

end

end L4env.DMphys
