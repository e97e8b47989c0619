import L4env.Names.Registry

/-!
# Runs of the name server
-/

namespace L4env.Names.NameServer

variable {c : Config} {s s' : NameServer} {e f : Entry} {name : CString} {id : ThreadId} {weak ret : Bool}
  {i j n : Nat} {p : Entry → Bool} {P : Entry → Prop}

theorem stored_of_short (h : name.length ≤ maxNameLen) : stored name = name := by
  obtain ⟨l, hl⟩ := name
  simp only [stored, CString.cut, List.take_of_length_le h]

theorem stored_short (name : CString) : (stored name).length ≤ maxNameLen := by
  simp [stored, CString.cut, CString.length]

/-! ## The table -/

theorem initLoop_apply (n : Nat) (t : Nat → Entry) (j : Nat) :
    initLoop n t j = if j < n then (t j).cleared else t j := by
  induction n generalizing t with
  | zero => rfl
  | succ i ih =>
    rw [initLoop, ih]
    rcases Nat.lt_trichotomy j i with hlt | rfl | hgt
    · rw [if_pos hlt, if_pos (by omega), Function.update_of_ne hlt.ne]
    · rw [if_neg (Nat.lt_irrefl j), if_pos (Nat.lt_succ_self j), Function.update_self]
    · rw [if_neg (by omega), if_neg (by omega), Function.update_of_ne hgt.ne']

theorem start_entries :
    start.entries = fun i => if i < maxEntries then ⟨.empty, invalidId, false⟩ else ⟨.empty, nilId, false⟩ := by
  funext i
  simp only [start, initEntries, initLoop_apply, Entry.cleared]

theorem kernelRegisterThreadName_entries :
    (s.kernelRegisterThreadName c id name).entries = s.entries := by
  rw [kernelRegisterThreadName]
  split <;> rfl

theorem free_entries : (s.free c i).entries = Function.update s.entries i (s.entries i).cleared := by
  simp only [free, kernelRegisterThreadName_entries]

theorem freeLoop_entries (n i : Nat) (ret : Bool) (s : NameServer) (j : Nat) :
    (freeLoop c p n i ret s).2.entries j =
      if i ≤ j ∧ j < i + n ∧ p (s.entries j) = true then (s.entries j).cleared else s.entries j := by
  induction n generalizing i ret s with
  | zero => exact (if_neg (by omega)).symm
  | succ n ih =>
    rw [freeLoop]
    split
    next hp =>
      rw [ih, free_entries]
      rcases eq_or_ne j i with rfl | hne
      · rw [if_neg (by omega), Function.update_self, if_pos ⟨le_rfl, by omega, hp⟩]
      · rw [Function.update_of_ne hne]
        exact if_congr ⟨fun h => ⟨by omega, by omega, h.2.2⟩, fun h => ⟨by omega, by omega, h.2.2⟩⟩ rfl rfl
    next hp =>
      rw [ih]
      refine if_congr ⟨fun h => ⟨by omega, by omega, h.2.2⟩, fun h => ⟨?_, by omega, h.2.2⟩⟩ rfl rfl
      refine Nat.lt_of_le_of_ne h.1 ?_
      rintro rfl
      exact hp h.2.2

theorem freeLoop_ret (n i : Nat) (ret : Bool) (s : NameServer) :
    (freeLoop c p n i ret s).1 = true ↔ ret = true ∨ ∃ j, i ≤ j ∧ j < i + n ∧ p (s.entries j) = true := by
  induction n generalizing i ret s with
  | zero =>
    refine ⟨.inl, fun h => h.resolve_right ?_⟩
    rintro ⟨j, hj, hlt, -⟩
    omega
  | succ n ih =>
    rw [freeLoop]
    split
    next hp => exact iff_of_true ((ih ..).mpr (.inl rfl)) (.inr ⟨i, le_rfl, by omega, hp⟩)
    next hp =>
      rw [ih]
      refine or_congr_right ⟨?_, ?_⟩
      · rintro ⟨j, hj, hlt, hpj⟩
        exact ⟨j, by omega, by omega, hpj⟩
      · rintro ⟨j, hj, hlt, hpj⟩
        refine ⟨j, Nat.lt_of_le_of_ne hj ?_, by omega, hpj⟩
        rintro rfl
        exact hp hpj

/-! ## The invariant -/

/-- What the table keeps to: free slots have the empty name, no name is too long, and there is at most one
strong entry of a name. -/
structure Inv (s : NameServer) : Prop where
  empty : ∀ i, s.Unused i → (s.entries i).name = .empty
  short : ∀ i < maxEntries, (s.entries i).name.length ≤ maxNameLen
  unique : s.StrongUnique

theorem start_unused (hi : i < maxEntries) : start.Unused i := by
  refine ⟨hi, ?_⟩
  rw [start_entries]
  simp only [if_pos hi]

theorem Unused.not_used (h : s.Unused i) : ¬ s.Used i := fun hu => hu.2 h.2

theorem used_or_unused (h : i < maxEntries) : s.Used i ∨ s.Unused i :=
  (em ((s.entries i).id = invalidId)).elim (fun he => .inr ⟨h, he⟩) fun hne => .inl ⟨h, hne⟩

theorem registered_mem (h : s.Used i) : s.entries i ∈ s.registered := ⟨i, h, rfl⟩

theorem start_registered : start.registered = ∅ := by
  ext e
  refine ⟨?_, nofun⟩
  rintro ⟨i, hu, -⟩
  exact (start_unused hu.1).not_used hu

theorem start_inv : start.Inv where
  empty i hi := by simp only [start_entries, if_pos hi.1]
  short i hi := by simp [start_entries, if_pos hi, CString.empty, CString.length]
  unique i _ hi := absurd hi (start_unused hi.1).not_used

theorem Inv.short_of_mem (I : s.Inv) (h : e ∈ s.registered) : e.name.length ≤ maxNameLen := by
  obtain ⟨i, hu, rfl⟩ := h
  exact I.short i hu.1

theorem valid_of_mem (h : e ∈ s.registered) : e.id ≠ invalidId := by
  obtain ⟨i, hu, rfl⟩ := h
  exact hu.2

/-! ## Registering -/

theorem allowsRegister_true {R R' : Set Entry} (h : ret = true) :
    AllowsRegister R e ret R' ↔ R' = insert e R ∧ (e.weak = false → NoStrong R e.name) := by
  simp [AllowsRegister, h]

/-- A registration is refused, or stores the entry in a free slot. -/
theorem serverNamesRegister_cases (c : Config) (s : NameServer) (name : CString) (id : ThreadId) (weak : Bool) :
    s.Refuses name weak ∧ s.serverNamesRegister c name id weak = (false, s) ∨
      ¬ s.Refuses name weak ∧ (s.serverNamesRegister c name id weak).1 = true ∧ ∃ i, s.Unused i ∧
        (s.serverNamesRegister c name id weak).2.entries =
          Function.update s.entries i ⟨stored name, id, weak⟩ := by
  rw [serverNamesRegister]
  split
  next h =>
    obtain ⟨i, hi, hp⟩ := List.any_eq_true.mp h
    simp only [Bool.and_eq_true, Bool.not_eq_true', decide_eq_true_eq] at hp
    exact .inl ⟨.inr ⟨hp.1.1, i, List.mem_range.mp hi, hp.1.2, hp.2⟩, rfl⟩
  next h =>
    have htaken : ¬ (weak = false ∧ ∃ i < maxEntries, (s.entries i).weak = false ∧ (s.entries i).name = name) := by
      rintro ⟨hw, i, hi, hwi, hname⟩
      exact h (List.any_eq_true.mpr ⟨i, List.mem_range.mpr hi, by simp [hw, hwi, hname]⟩)
    split
    next hfind =>
      refine .inl ⟨.inl fun i hi => ?_, rfl⟩
      have hno := List.find?_eq_none.mp hfind i (List.mem_range.mpr hi.1)
      simp only [isInvalidId, decide_eq_true_eq] at hno
      exact hno hi.2
    next i hfind =>
      have hi : s.Unused i := by
        refine ⟨List.mem_range.mp (List.mem_of_find?_eq_some hfind), ?_⟩
        have := List.find?_some hfind
        simpa only [isInvalidId, decide_eq_true_eq] using this
      refine .inr ⟨fun hr => hr.elim (fun hfull => hfull i hi) htaken, ?_⟩
      split
      · exact ⟨rfl, i, hi, kernelRegisterThreadName_entries⟩
      · exact ⟨rfl, i, hi, kernelRegisterThreadName_entries⟩

/-- An entry goes into a free slot. -/
theorem mem_registered_store (hi : s.Unused i) (hs : s'.entries = Function.update s.entries i e) :
    f ∈ s'.registered ↔ f ∈ s.registered ∨ f = e ∧ e.id ≠ invalidId := by
  have hother : ∀ j, j ≠ i → s'.entries j = s.entries j := fun j hj => by rw [hs, Function.update_of_ne hj]
  have hself : s'.entries i = e := by rw [hs, Function.update_self]
  constructor
  · rintro ⟨j, hu, rfl⟩
    rcases eq_or_ne j i with rfl | hne
    · exact .inr ⟨hself, hself ▸ hu.2⟩
    · exact .inl ⟨j, ⟨hu.1, hother j hne ▸ hu.2⟩, (hother j hne).symm⟩
  · rintro (⟨j, hu, rfl⟩ | ⟨rfl, hvalid⟩)
    · have hne : j ≠ i := fun h => hi.not_used (h ▸ hu)
      exact ⟨j, ⟨hu.1, by rw [hother j hne]; exact hu.2⟩, hother j hne⟩
    · exact ⟨i, ⟨hi.1, hself ▸ hvalid⟩, hself⟩

theorem allowsRegister_iff (c : Config) (s : NameServer) (name : CString) (id : ThreadId) (weak : Bool) :
    AllowsRegister s.registered ⟨stored name, id, weak⟩ (s.serverNamesRegister c name id weak).1
      (s.serverNamesRegister c name id weak).2.registered ↔ s.ProperEntry name id weak := by
  obtain ⟨hr, heq⟩ | ⟨hr, hret, i, hi, hs⟩ := s.serverNamesRegister_cases c name id weak
  · rw [heq]
    exact ⟨fun _ => .inl hr, fun _ => ⟨nofun, fun _ => rfl⟩⟩
  · rw [allowsRegister_true hret, ProperEntry, or_iff_right hr]
    constructor
    · rintro ⟨hset, hstrong⟩
      have hmem : ⟨stored name, id, weak⟩ ∈ (s.serverNamesRegister c name id weak).2.registered := by
        rw [hset]
        exact Set.mem_insert _ _
      refine ⟨valid_of_mem hmem, ?_⟩
      cases weak with
      | true => exact .inl rfl
      | false => exact .inr (.inr (hstrong rfl))
    · rintro ⟨hvalid, hlong⟩
      refine ⟨Set.ext fun f => ?_, fun hw => ?_⟩
      · rw [mem_registered_store hi hs, Set.mem_insert_iff, or_comm, and_iff_left hvalid]
      · obtain hw' | hshort | hno := hlong
        · exact absurd (hw.symm.trans hw') (by decide)
        · rintro f ⟨j, hu, rfl⟩ hwf hname
          rw [stored_of_short hshort] at hname
          exact hr (.inr ⟨hw, j, hu.1, hwf, hname⟩)
        · exact hno

theorem Inv.register (I : s.Inv) (hp : s.ProperEntry name id weak) :
    (s.serverNamesRegister c name id weak).2.Inv := by
  have hallow := (allowsRegister_iff c s name id weak).mpr hp
  obtain ⟨hr, heq⟩ | ⟨hr, hret, i, hi, hs⟩ := s.serverNamesRegister_cases c name id weak
  · rw [heq]
    exact I
  · rw [allowsRegister_true hret] at hallow
    generalize (s.serverNamesRegister c name id weak).2 = s' at *
    have hother : ∀ j, j ≠ i → s'.entries j = s.entries j := fun j hj => by rw [hs, Function.update_of_ne hj]
    have hself : s'.entries i = ⟨stored name, id, weak⟩ := by rw [hs, Function.update_self]
    have hused : ∀ j, j ≠ i → s'.Used j → s.Used j := fun j hj hu => ⟨hu.1, hother j hj ▸ hu.2⟩
    -- a strong entry of the name in another slot
    have hclash : ∀ j, j ≠ i → s'.Used j → weak = false → (s'.entries j).weak = false →
        (s'.entries j).name ≠ stored name := fun j hj hu hw hwj => by
      rw [hother j hj] at hwj ⊢
      exact hallow.2 hw _ (registered_mem (hused j hj hu)) hwj
    refine ⟨fun j hj => ?_, fun j hj => ?_, fun j k hj hk hwj hwk hname => ?_⟩
    · rcases eq_or_ne j i with rfl | hne
      · have hid := hj.2
        rw [hself] at hid
        exact absurd hid ((hp.resolve_left hr).1)
      · rw [hother j hne]
        exact I.empty j ⟨hj.1, hother j hne ▸ hj.2⟩
    · rcases eq_or_ne j i with rfl | hne
      · rw [hself]
        exact stored_short name
      · rw [hother j hne]
        exact I.short j hj
    · rcases eq_or_ne j i with rfl | hji
      · by_contra hne
        rw [hself] at hwj hname
        exact hclash k (Ne.symm hne) hk hwj hwk hname.symm
      · rcases eq_or_ne k i with rfl | hki
        · rw [hself] at hwk hname
          exact absurd hname (hclash j hji hj hwk hwj)
        · rw [hother j hji] at hwj hname
          rw [hother k hki] at hwk hname
          exact I.unique j k (hused j hji hj) (hused k hki hk) hwj hwk hname

/-! ## Unregistering -/

/-- The slots in `p` have been freed. -/
structure Frees (p : Entry → Bool) (s s' : NameServer) : Prop where
  freed : ∀ i < maxEntries, p (s.entries i) = true → s'.entries i = (s.entries i).cleared
  other : ∀ i, ¬ p (s.entries i) = true → s'.entries i = s.entries i

theorem freeLoop_frees (c : Config) (p : Entry → Bool) (s : NameServer) :
    Frees p s (freeLoop c p maxEntries 0 false s).2 where
  freed i hi hp := by
    rw [freeLoop_entries, if_pos ⟨Nat.zero_le i, by omega, hp⟩]
  other i hp := by
    rw [freeLoop_entries, if_neg fun h => hp h.2.2]

namespace Frees

variable (F : Frees p s s')
include F

theorem used_iff : s'.Used i ↔ s.Used i ∧ ¬ p (s.entries i) = true := by
  constructor
  · rintro ⟨hi, hu⟩
    have hp : ¬ p (s.entries i) = true := fun hp => hu (by rw [F.freed i hi hp]; rfl)
    rw [F.other i hp] at hu
    exact ⟨⟨hi, hu⟩, hp⟩
  · rintro ⟨hu, hp⟩
    exact ⟨hu.1, by rw [F.other i hp]; exact hu.2⟩

theorem registered_eq : s'.registered = {e ∈ s.registered | ¬ p e = true} := by
  ext e
  constructor
  · rintro ⟨i, hu, rfl⟩
    obtain ⟨hu, hp⟩ := F.used_iff.mp hu
    rw [F.other i hp]
    exact ⟨registered_mem hu, hp⟩
  · rintro ⟨⟨i, hu, rfl⟩, hp⟩
    exact ⟨i, F.used_iff.mpr ⟨hu, hp⟩, F.other i hp⟩

theorem inv (I : s.Inv) : s'.Inv where
  empty i hi := by
    rcases em (p (s.entries i) = true) with hp | hp
    · rw [F.freed i hi.1 hp]
      rfl
    · rw [F.other i hp]
      exact I.empty i ⟨hi.1, by rw [← F.other i hp]; exact hi.2⟩
  short i hi := by
    rcases em (p (s.entries i) = true) with hp | hp
    · rw [F.freed i hi hp]
      exact Nat.zero_le _
    · rw [F.other i hp]
      exact I.short i hi
  unique i j hi hj hwi hwj hname := by
    obtain ⟨hi, hpi⟩ := F.used_iff.mp hi
    obtain ⟨hj, hpj⟩ := F.used_iff.mp hj
    rw [F.other i hpi] at hwi hname
    rw [F.other j hpj] at hwj hname
    exact I.unique i j hi hj hwi hwj hname

end Frees

theorem dropLogserver_entries {client : ThreadId} : (s.dropLogserver c client).entries = s.entries := by
  rw [dropLogserver]
  split <;> rfl

theorem isOf_iff : e.isOf name id = true ↔ e.id = id ∧ e.name = name := by
  simp [Entry.isOf, threadEqual]

theorem unregisterThread_frees (c : Config) (s : NameServer) (client : ThreadId) (name : CString)
    (id : ThreadId) : Frees (Entry.isOf name id) s (s.unregisterThread c client name id).2 := by
  have F := freeLoop_frees c (Entry.isOf name id) (s.dropLogserver c client)
  have heq : (s.dropLogserver c client).entries = s.entries := dropLogserver_entries
  exact ⟨heq ▸ F.freed, heq ▸ F.other⟩

/-- With a proper name the entries are those with what the server stores of the name. -/
theorem isOf_iff_stored (I : s.Inv) (he : e ∈ s.registered)
    (h : name.length ≤ maxNameLen ∨ ∀ e ∈ s.registered, ¬(e.id = id ∧ e.name = stored name)) :
    e.isOf name id = true ↔ e.id = id ∧ e.name = stored name := by
  rw [isOf_iff]
  rcases Nat.lt_or_ge maxNameLen name.length with hlong | hshort
  · refine iff_of_false (fun hn => ?_) (h.resolve_left (by omega) e he)
    have := I.short_of_mem he
    rw [hn.2] at this
    omega
  · rw [stored_of_short hshort]

theorem allows_unregisterThread (I : s.Inv) (c : Config) (client : ThreadId) (name : CString) (id : ThreadId) :
    Allows s.registered (.unregisterThread client name id)
      (s.step c (.unregisterThread client name id)).1
      (s.step c (.unregisterThread client name id)).2.registered ↔
      s.Proper (.unregisterThread client name id) := by
  have F := unregisterThread_frees c s client name id
  change ((s.unregisterThread c client name id).2.registered = _ ∧
    (_ → (s.unregisterThread c client name id).1 = true)) ↔ _
  rw [F.registered_eq]
  constructor
  · rintro ⟨hset, -⟩
    refine (Nat.lt_or_ge maxNameLen name.length).elim (fun hlong => .inr fun e he hn => ?_) .inl
    have hmem : e ∈ {e ∈ s.registered | ¬ e.isOf name id = true} := by
      refine ⟨he, fun h => ?_⟩
      have := I.short_of_mem he
      rw [(isOf_iff.mp h).2] at this
      omega
    rw [hset] at hmem
    exact hmem.2 hn
  · intro h
    refine ⟨Set.ext fun e => and_congr_right fun he => not_congr (isOf_iff_stored I he h), ?_⟩
    rintro ⟨e, he, hn⟩
    have hof := (isOf_iff_stored I he h).mpr hn
    obtain ⟨i, hu, rfl⟩ := he
    refine (freeLoop_ret ..).mpr (.inr ⟨i, Nat.zero_le i, by have := hu.1; omega, ?_⟩)
    rw [dropLogserver_entries]
    exact hof

theorem allows_unregisterTask (c : Config) (s : NameServer) (id : ThreadId) :
    Allows s.registered (.unregisterTask id) (s.step c (.unregisterTask id)).1
      (s.step c (.unregisterTask id)).2.registered := by
  have F := freeLoop_frees c (fun e => tasknumEqual e.id id) s
  refine ⟨F.registered_eq.trans (Set.ext fun e => and_congr_right fun _ => ?_), rfl⟩
  simp [tasknumEqual]

/-! ## Queries -/

theorem querySlot_isPick (s : NameServer) (p : Entry → Bool) :
    IsPick (fun i => p (s.entries i)) (fun i => (s.entries i).weak) maxEntries (s.querySlot p) :=
  isPick_pick _ _ _

theorem querySlot_none (h : s.querySlot p = none) (hi : i < maxEntries) : p (s.entries i) = false := by
  have hpick := s.querySlot_isPick p
  rw [h] at hpick
  exact hpick i hi

theorem querySlot_some (h : s.querySlot p = some i) : i < maxEntries ∧ p (s.entries i) = true ∧
    ∀ k < maxEntries, p (s.entries k) = true →
      rank (fun k => (s.entries k).weak) i ≤ rank (fun k => (s.entries k).weak) k := by
  have hpick := s.querySlot_isPick p
  rw [h] at hpick
  exact hpick

/-- In a used slot a query finds the best entry. -/
theorem best_of_querySlot (h : s.querySlot p = some i) (hu : s.Used i) (hP : ∀ e, p e = true ↔ P e) :
    Best s.registered P (s.entries i) := by
  obtain ⟨-, hp, hmin⟩ := querySlot_some h
  refine ⟨registered_mem hu, (hP _).mp hp, ?_⟩
  rintro hw _ ⟨k, hk, rfl⟩ hPk
  exact late_of_rank_le (hmin k hk.1 ((hP _).mpr hPk)) hw

theorem allows_queryName (I : s.Inv) (name : CString) :
    Allows s.registered (.queryName name) (.id (s.queryName (some name))) s.registered ↔
      s.Proper (.queryName name) := by
  rw [queryName]
  cases h : s.querySlot fun e => decide (e.name = name) with
  | none =>
    have hno : ∀ i < maxEntries, (s.entries i).name ≠ name := fun i hi => by
      simpa using querySlot_none h hi
    constructor
    · rintro ⟨-, hnone⟩
      exact ⟨.inr hnone, fun he i hi => absurd ((I.empty i hi).trans he.symm) (hno i hi.1)⟩
    · rintro ⟨hlong | hnone, -⟩
      · refine ⟨rfl, ?_⟩
        rintro _ ⟨i, hu, rfl⟩
        rw [stored_of_short hlong]
        exact hno i hu.1
      · exact ⟨rfl, hnone⟩
  | some i =>
    obtain ⟨hi, hname, hmin⟩ := querySlot_some h
    simp only [decide_eq_true_eq] at hname hmin
    have hshort : name.length ≤ maxNameLen := hname ▸ I.short i hi
    constructor
    · rintro ⟨-, e, hbest, hid⟩
      have hu : s.Used i := ⟨hi, fun hinv => valid_of_mem hbest.1 (hid.trans hinv)⟩
      refine ⟨.inl hshort, fun he k hk => ⟨i, hu, hname.trans he, lt_of_le_of_ne ?_ fun heq => ?_⟩⟩
      · exact hmin k hk.1 ((I.empty k hk).trans he.symm)
      · exact (rank_injective heq ▸ hk).not_used hu
    · rintro ⟨-, hfirst⟩
      have hu : s.Used i := by
        refine (used_or_unused hi).resolve_right fun hfree => ?_
        have he : name = .empty := hname.symm.trans (I.empty i hfree)
        obtain ⟨j, hj, hnj, hlt⟩ := hfirst he i hfree
        exact absurd (hmin j hj.1 (hnj.trans he.symm)) (not_le_of_gt hlt)
      refine ⟨rfl, s.entries i, best_of_querySlot h hu fun e => ?_, rfl⟩
      rw [stored_of_short hshort, decide_eq_true_eq]

theorem allows_queryId (s : NameServer) (id : ThreadId) :
    Allows s.registered (.queryId id) (.name (s.queryId id)) s.registered ↔ s.Proper (.queryId id) := by
  rw [queryId]
  cases h : s.querySlot fun e => threadEqual e.id id with
  | none =>
    have hno : ∀ i < maxEntries, (s.entries i).id ≠ id := fun i hi => by
      simpa [threadEqual] using querySlot_none h hi
    refine iff_of_true ⟨rfl, ?_⟩ ?_
    · rintro _ ⟨i, hu, rfl⟩
      exact hno i hu.1
    · exact (em (id = invalidId)).elim (fun he => .inr fun i hi => hno i hi.1 (hi.2.trans he.symm)) .inl
  | some i =>
    obtain ⟨hi, hid, -⟩ := querySlot_some h
    simp only [threadEqual, decide_eq_true_eq] at hid
    constructor
    · rintro ⟨-, e, hbest, -⟩
      have heq : e.id = id := hbest.2.1
      exact .inl (heq ▸ valid_of_mem hbest.1)
    · intro hp
      have hu : s.Used i := hp.elim (fun hne => ⟨hi, hid ▸ hne⟩) fun hfull =>
        (used_or_unused hi).resolve_right (hfull i)
      refine ⟨rfl, s.entries i, best_of_querySlot h hu fun e => ?_, rfl⟩
      rw [threadEqual, decide_eq_true_eq]

theorem allows_queryNr (s : NameServer) (nr : Int) :
    Allows s.registered (.queryNr nr) (.nr (s.queryNr nr)) s.registered ↔ s.Proper (.queryNr nr) := by
  rw [queryNr]
  split
  next h => exact iff_of_true rfl (show 0 ≤ nr by simp only [maxEntries] at h; omega)
  next h =>
    split
    next hneg => exact iff_of_false id (not_le_of_gt hneg)
    next hneg =>
      have hlt : nr.toNat < maxEntries := by omega
      refine iff_of_true ?_ (Int.le_of_not_gt hneg)
      dsimp only
      split
      next => exact rfl
      next hvalid =>
        refine ⟨rfl, s.entries nr.toNat, registered_mem ⟨hlt, ?_⟩, rfl, rfl⟩
        simpa [isInvalidId] using hvalid

/-! ## Runs -/

/-- An answer is allowed exactly if the request is proper. -/
theorem allows_step_iff (I : s.Inv) (c : Config) (r : Request) :
    Allows s.registered r (s.step c r).1 (s.step c r).2.registered ↔ s.Proper r := by
  cases r with
  | register client name =>
    simp only [step, done, Allows, Proper]
    exact allowsRegister_iff c s name client false
  | registerThread name id =>
    simp only [step, done, Allows, Proper]
    exact allowsRegister_iff c s name id true
  | unregisterThread client name id => exact allows_unregisterThread I c client name id
  | unregisterTask id => exact iff_of_true (allows_unregisterTask c s id) trivial
  | queryName name => exact allows_queryName I name
  | queryId id => exact allows_queryId s id
  | queryNr nr => exact allows_queryNr s nr

theorem Inv.step {r : Request} (I : s.Inv) (h : s.Proper r) : (s.step c r).2.Inv := by
  cases r with
  | register client name =>
    simp only [NameServer.step, done]
    exact I.register h
  | registerThread name id =>
    simp only [NameServer.step, done]
    exact I.register h
  | unregisterThread client name id => exact (unregisterThread_frees c s client name id).inv I
  | unregisterTask id => exact (freeLoop_frees c _ s).inv I
  | queryName name => exact I
  | queryId id => exact I
  | queryNr nr => exact I

theorem Inv.follows_iff_allProper (I : s.Inv) (c : Config) (l : List Request) : Follows c s l ↔ AllProper c s l := by
  induction l generalizing s with
  | nil => exact iff_of_true I.unique trivial
  | cons r l ih =>
    rw [Follows, AllProper, and_iff_right I.unique, allows_step_iff I c r]
    exact and_congr_right fun h => ih (I.step h)

/-- From the empty table on the server follows the relation in a run, with at most one strong entry of a name
at any time, exactly if all requests are proper where they come. -/
theorem follows_iff (c : Config) (l : List Request) :
    start.registered = ∅ ∧ (Follows c start l ↔ AllProper c start l) :=
  ⟨start_registered, start_inv.follows_iff_allProper c l⟩

/-- The names have 1 to 32 bytes, the ids are valid, and the numbers are not negative. -/
def Plain : Request → Prop
  | .register client name => client ≠ invalidId ∧ name ≠ .empty ∧ name.length ≤ maxNameLen
  | .registerThread name id => id ≠ invalidId ∧ name ≠ .empty ∧ name.length ≤ maxNameLen
  | .unregisterThread _ name id => id ≠ invalidId ∧ name ≠ .empty ∧ name.length ≤ maxNameLen
  | .unregisterTask _ => True
  | .queryName name => name ≠ .empty ∧ name.length ≤ maxNameLen
  | .queryId id => id ≠ invalidId
  | .queryNr nr => 0 ≤ nr

theorem proper_of_plain {r : Request} (h : Plain r) : s.Proper r := by
  cases r with
  | register client name => exact .inr ⟨h.1, .inr (.inl h.2.2)⟩
  | registerThread name id => exact .inr ⟨h.1, .inl rfl⟩
  | unregisterThread client name id => exact .inl h.2.2
  | unregisterTask id => exact trivial
  | queryName name => exact ⟨.inl h.2, fun he => absurd he h.1⟩
  | queryId id => exact .inl h
  | queryNr nr => exact h

theorem allProper_of_plain {l : List Request} (h : ∀ r ∈ l, Plain r) : AllProper c s l := by
  induction l generalizing s with
  | nil => trivial
  | cons r l ih =>
    exact ⟨proper_of_plain (h r List.mem_cons_self), ih fun r' hr' => h r' (List.mem_cons_of_mem r hr')⟩

/-- For plain requests the server follows the relation. -/
theorem follows_of_plain {l : List Request} (h : ∀ r ∈ l, Plain r) : Follows c start l :=
  (start_inv.follows_iff_allProper c l).mpr (allProper_of_plain h)

theorem subset_of_allows {R R' : Set Entry} (h : AllowsRegister R e ret R') : R' ⊆ insert e R := by
  cases ret with
  | true => exact (h.1 rfl).1.subset
  | false => exact (h.2 rfl).subset.trans (Set.subset_insert e R)

/-- A registration takes one free slot at most. -/
theorem unused_register (c : Config) (s : NameServer) (name : CString) (id : ThreadId) (weak : Bool) :
    ∃ i, ∀ j, j ≠ i → s.Unused j → (s.serverNamesRegister c name id weak).2.Unused j := by
  obtain ⟨-, heq⟩ | ⟨-, -, i, -, hs⟩ := s.serverNamesRegister_cases c name id weak
  · rw [heq]
    exact ⟨0, fun _ _ hj => hj⟩
  · refine ⟨i, fun j hne hj => ⟨hj.1, ?_⟩⟩
    rw [hs, Function.update_of_ne hne]
    exact hj.2

/-- The empty name finds a free slot while nothing has it. -/
theorem not_proper_empty (hi : s.Unused i) (hno : ∀ e ∈ s.registered, e.name ≠ .empty) :
    ¬ s.Proper (.queryName .empty) := fun h => by
  obtain ⟨j, hj, hname, -⟩ := h.2 rfl i hi
  exact hno _ (registered_mem hj) hname

/-- A run that starts with a registration. -/
theorem follows_register {client : ThreadId} {l : List Request} (I : s.Inv)
    (h : Follows c s (.register client name :: l)) : ∃ s' : NameServer, s'.Inv ∧ Follows c s' l ∧
      s'.registered ⊆ insert ⟨stored name, client, false⟩ s.registered ∧
      ∃ i, ∀ j, j ≠ i → s.Unused j → s'.Unused j := by
  obtain ⟨-, hallow, hl⟩ := h
  refine ⟨_, I.step ((allows_step_iff I c _).mp hallow), hl, ?_, ?_⟩
  · simp only [step, done, Allows] at hallow ⊢
    exact subset_of_allows hallow
  · simp only [step, done]
    exact unused_register c s name client false

/-- After the start of the server a query for the empty name finds a free slot. -/
theorem boot_queryName (c : Config) (me sigma0 : ThreadId) :
    ¬ Follows c start (boot me sigma0 ++ [.queryName .empty]) := by
  intro h
  obtain ⟨s₁, I₁, h₁, hreg₁, i, hi⟩ := follows_register start_inv h
  obtain ⟨s₂, I₂, h₂, hreg₂, i', hi'⟩ := follows_register I₁ h₁
  have hfree : ∃ k < maxEntries, k ≠ i ∧ k ≠ i' := by
    have hcard : ({i, i'} : Finset Nat).card < (Finset.range maxEntries).card := by
      rw [Finset.card_range]
      exact Finset.card_le_two.trans_lt (by decide)
    obtain ⟨k, hk, hn⟩ := Finset.exists_mem_notMem_of_card_lt_card hcard
    simp only [Finset.mem_insert, Finset.mem_singleton, not_or] at hn
    exact ⟨k, Finset.mem_range.mp hk, hn⟩
  obtain ⟨k, hk, hki, hki'⟩ := hfree
  have hproper := (allows_step_iff I₂ c (.queryName .empty)).mp h₂.2.1
  refine not_proper_empty (hi' k hki' (hi k hki (start_unused hk))) (fun e he => ?_) hproper
  rcases Set.mem_insert_iff.mp (hreg₂ he) with rfl | he₁
  · exact (by decide : stored (.ofChars ['s', 'i', 'g', 'm', 'a', '0']) ≠ .empty)
  · rcases Set.mem_insert_iff.mp (hreg₁ he₁) with rfl | he₀
    · exact (by decide : stored (.ofChars ['n', 'a', 'm', 'e', 's']) ≠ .empty)
    · rw [start_registered] at he₀
      cases he₀

theorem not_follows : ¬ ∀ (c : Config) (l : List Request), start.registered = ∅ ∧ Follows c start l :=
  fun H => boot_queryName _ 0xc0000 0x40000 (H { registerThreadNames := true } _).2

end L4env.Names.NameServer
