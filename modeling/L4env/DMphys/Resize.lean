import L4env.DMphys.Accounting
import L4env.DMphys.Copy
import L4env.DMphys.Unmap

/-!
# Resizing dataspaces

The resize request with the memory that it clears and the flexpages that it unmaps. A contiguous
dataspace grows into the next area, another one gets a list of new areas at the end of its list; a
dataspace that shrinks loses the end of its last area and all areas behind it. A request for the size 0
closes the dataspace.
-/

namespace L4env.DMphys

namespace Machine

/-! ## `pages.c` -/

/-- `__enlarge_area` -/
def enlargeArea (s : State) (pool : Nat) (area : Ptr) (size : Nat) (m : Memory) :
    Except Panic (Bool × State × Memory) :=
  match s.areaNext area with
  | none => pure (false, s, m)
  | some pa =>
    if s.used pa then pure (false, s, m)
    else if Word.add (s.addr area) (s.size area) ≠ s.addr pa then pure (false, s, m)
    else if s.size pa < size then pure (false, s, m)
    else do
      let s ← s.removeFree pool pa
      let s ← s.removeArea pool pa
      -- all of the next area is cleared
      let m ← s.pagesClear s.listFuel (some pa) m
      let s := s.setRange area (s.addr area) (Word.add (s.size area) size)
      let s := s.setRange pa (Word.add (s.addr pa) size) (Word.sub (s.size pa) size)
      if 0 < s.size pa then do
        let s ← s.addArea pool pa
        let s ← s.addFree pool pa
        pure (true, s, m)
      else pure (true, s.releaseAreaDesc pa, m)

/-- `dmphys_pages_enlarge` -/
def dmphysPagesEnlarge (s : State) (pool : Nat) (area : Ptr) (size : Nat) (prio : Prio) (m : Memory) :
    Except Panic (Option Err × State × Memory) :=
  if s.used area = false then pure (some .einval, s, m)
  else if s.available pool size prio = false then pure (some .enomem, s, m)
  else if s.dsNext area ≠ none then throw .assertion
  else do
    let (done, s, m) ← enlargeArea s pool area size m
    pure (if done then none else some .enomem, s, m)

/-- `dmphys_pages_add` -/
def dmphysPagesAdd (s : State) (pool : Nat) (pages : Ptr) (size : Nat) (prio : Prio) (m : Memory) :
    Except Panic (Option Err × State × Memory) :=
  if s.available pool size prio = false then pure (some .enomem, s, m)
  else
    match s.pageList s.listFuel (some pages) with
    | none => throw .diverges
    | some old => do
      let maxNew := if maxDsAreas ≤ old.length then 1 else maxDsAreas - old.length
      let (new, s) ← s.allocatePages pool size maxNew pageSize
      match new with
      | none => pure (some .enomem, s, m)
      | some pa => do
        let m ← s.pagesClear s.listFuel (some pa) m
        pure (none, s.setDsNext (old.getLastD pages) (some pa), m)

/-- The loop of `dmphys_pages_shrink` that unmaps and releases the rest of the page list. -/
def releaseRest (s : State) (pool : Nat) (last : Ptr) : Nat → Except Panic (State × List Fpage)
  | 0 => throw .diverges
  | fuel + 1 =>
    match s.dsNext last with
    | none => pure (s, [])
    | some pa => do
      let s := s.setDsNext last (s.dsNext pa)
      let u ← unmapArea (s.addr pa) (s.size pa)
      let s ← s.releaseMerge pool pa
      let s ← s.dmphysInternalAllocUpdateFree
      let (s, u') ← releaseRest s pool last fuel
      pure (s, u ++ u')

/-- A part of `dmphys_pages_shrink`: the end of the last area is unmapped and becomes a free area. -/
def cutLast (s : State) (pool : Nat) (last : Ptr) (size : Nat) : Except Panic (State × List Fpage) :=
  if size < s.size last then do
    let u ← unmapArea (Word.add (s.addr last) size) (Word.sub (s.size last) size)
    let s ← s.cutLast pool last size
    pure (s, u)
  else pure (s, [])

/-- `dmphys_pages_shrink` -/
def dmphysPagesShrink (s : State) (pool : Nat) (pages : Ptr) (size : Nat) :
    Except Panic (Option Err × State × List Fpage) := do
  match ← s.findOffset s.listFuel (some pages) (Word.sub size 1) with
  | none => pure (some .einval, s, [])
  | some (last, offset) =>
    let (s, u) ← cutLast s pool last (Word.add offset 1)
    let (s, u') ← releaseRest s pool last s.listFuel
    pure (none, s, u ++ u')

/-! ## `close.c` and `resize.c` -/

/-- `__close` -/
def closeDs (w : Machine) (d : Dataspace) : Except Panic (Machine × List Fpage) := do
  let u ← w.server.st.unmapAreas w.server.st.listFuel (some d.pages)
  let v ← w.server.closeDs d
  pure (⟨v, w.mem⟩, u)

/-- A part of `__resize`: another size of the page list. -/
def resizePages (s : State) (d : Dataspace) (newSize : Nat) (m : Memory) :
    Except Panic (Option Err × State × Memory × List Fpage) :=
  if d.size < newSize then do
    let n := Word.roundUp (Word.sub newSize d.size) pageSize
    let (e, s, m) ← if State.contiguous d.flags then dmphysPagesEnlarge s d.pool d.pages n .user m
      else dmphysPagesAdd s d.pool d.pages n .user m
    pure (e, s, m, [])
  else if newSize < d.size then do
    let (e, s, u) ← dmphysPagesShrink s d.pool d.pages newSize
    pure (e, s, m, u)
  else pure (none, s, m, [])

/-- `__resize` -/
def resizeDs (w : Machine) (d : Dataspace) (newSize : Nat) :
    Except Panic (Option Err × Machine × List Fpage) :=
  if newSize = 0 then do
    let (w, u) ← w.closeDs d
    let s ← w.server.st.dmphysInternalAllocUpdate
    pure (none, ⟨{ w.server with st := s }, w.mem⟩, u)
  else do
    let (e, s, m, u) ← resizePages w.server.st d newSize w.mem
    match e with
    | some e => pure (some e, ⟨{ w.server with st := s }, m⟩, u)
    | none => do
      let size ← s.pagesGetSize d.pages
      let s ← s.dmphysInternalAllocUpdate
      pure (none, ⟨{ w.server with st := s }.put { d with size := size }, m⟩, u)

/-- `if_l4dm_mem_resize_component` -/
def resize (w : Machine) (caller : ThreadId) (id newSize : Nat) :
    Except Panic (Option Err × Machine × List Fpage) :=
  match w.server.getCheckRights id caller l4dmResize with
  | .error e => pure (some e, w, [])
  | .ok d => w.resizeDs d (Word.roundUp newSize pageSize)

end Machine

/-! ## What a resize leaves -/

/-- A byte of the free memory of pool `P`. -/
def State.FreeByte (s : State) (P x : Nat) : Prop :=
  ∃ a, s.FreeIn P a ∧ s.addr a ≤ x ∧ x < s.addr a + s.size a

/-- A byte of an area that backs the descriptor memory. -/
def State.InternalByte (s : State) (x : Nat) : Prop :=
  ∃ a ∈ s.internalAreas, s.addr a ≤ x ∧ x < s.addr a + s.size a

/-- The bytes of pool `P` that the descriptor memory gave back between `s` and `s'`. -/
def State.handedBack (s s' : State) (P : Nat) : Set Nat :=
  {x | P = defaultPool ∧ ∃ a ∈ s.internalAreas, a ∉ s'.internalAreas ∧ s.addr a ≤ x ∧
    x < s.addr a + s.size a}

/-- The address of a byte of a dataspace. -/
def Server.addrOf (v : Server) (d : Dataspace) (offs : Nat) : Option Nat :=
  match v.st.findOffset v.st.listFuel (some d.pages) offs with
  | .ok (some (a, o)) => some (Word.add (v.st.addr a) o)
  | _ => none

/-- A failed request left the dataspaces and their contents as they were, and the free memory up to
what the descriptor memory handed back. -/
structure Machine.Refused (w w' : Machine) : Prop where
  dataspaces : w'.server.dataspaces = w.server.dataspaces
  contents : ∀ d ∈ w.server.dataspaces, ∀ i, w'.byte d i = w.byte d i
  mem : w'.mem = w.mem
  bytes : ∀ P x, w'.server.st.FreeByte P x ↔
    w.server.st.FreeByte P x ∨ x ∈ w.server.st.handedBack w'.server.st P
  free : ∀ P, (w'.server.st.pools P).free =
    (w.server.st.pools P).free + (w.server.st.handedBack w'.server.st P).ncard

/-- The dataspace `d` was made `n` bytes long, or closed if `n` is 0: it keeps its first bytes, the new
ones are zero, and those that were cut off were unmapped and are free or back the descriptor memory. -/
structure Machine.ResizedTo (w w' : Machine) (d : Dataspace) (n : Nat) (u : List Fpage) : Prop where
  closed : n = 0 → w'.server.get d.id = none
  live : n ≠ 0 → w'.server.get d.id = some { d with size := n }
  keeps : ∀ i, i < d.size → i < n →
    ∃ b, w.byte d i = some b ∧ w'.byte { d with size := n } i = some b
  zero : ∀ i, d.size ≤ i → i < n → w'.byte { d with size := n } i = some 0
  aligned : ∀ p ∈ u, 2 ^ p.size2.toNat ∣ p.addr
  unmapped : ∀ x, (∃ p ∈ u, p.Has x) ↔ ∃ i, n ≤ i ∧ i < d.size ∧ w.server.addrOf d i = some x
  back : ∀ i x, n ≤ i → i < d.size → w.server.addrOf d i = some x →
    w'.server.st.FreeByte d.pool x ∨ w'.server.st.InternalByte x

/-! ## Page lists -/

section
variable {s s' : State} {A A' : Nat → Set Ptr} {H c c' c₁ c₂ : List Ptr} {P n : Nat}
  {q : Option Ptr} {a b p x : Ptr} {m m' : Memory} {u : List Fpage}

/-- The list `c` of areas was made `n` bytes long: it keeps its first bytes, the new ones were cleared,
and those that were cut off were unmapped. -/
structure Refit (s : State) (c : List Ptr) (n : Nat) (s' : State) (c' : List Ptr) (m m' : Memory)
    (u : List Fpage) : Prop where
  total : s'.total c' = n
  keeps : ∀ i, i < s.total c → i < n → locate (s'.pieces c') i = locate (s.pieces c) i ∧
    m' (locate (s.pieces c) i) = m (locate (s.pieces c) i)
  zero : ∀ i, s.total c ≤ i → i < n → m' (locate (s'.pieces c') i) = 0
  aligned : ∀ p ∈ u, 2 ^ p.size2.toNat ∣ p.addr
  unmapped : ∀ x, (∃ p ∈ u, p.Has x) ↔ ∃ i, n ≤ i ∧ i < s.total c ∧ locate (s.pieces c) i = x

theorem Refit.refl (s : State) (c : List Ptr) (m : Memory) : Refit s c (s.total c) s c m m [] where
  total := rfl
  keeps _ _ _ := ⟨rfl, rfl⟩
  zero _ h h' := absurd h (by omega)
  aligned := by simp
  unmapped x := by
    simp only [List.not_mem_nil, false_and, exists_false, false_iff, not_exists, not_and]
    omega

/-! ### Enlarging an area -/

theorem Inv.machineEnlargeArea (I : Inv s A H none) (ha : a ∈ A P) (n : Nat) (m : Memory) :
    ∃ done m', Machine.enlargeArea s P a n m = (s.enlargeArea P a n).map (fun r => (r.1, r.2, m')) ∧
      Meets (s.enlargeArea P a n) (fun r => r.1 = done) (fun _ => True) ∧
      (done = false → m' = m) ∧
      (done = true → ∃ b ∈ freeAreas s A H P, s.addr a + s.size a = s.addr b ∧ n ≤ s.size b ∧
        m' = fillBytes m (s.addr b) (s.size b) 0) := by
  have hra := I.area.range ha
  unfold Machine.enlargeArea State.enlargeArea
  cases hnext : s.areaNext a with
  | none => exact ⟨false, m, rfl, rfl, fun _ => rfl, by simp⟩
  | some b =>
    obtain ⟨hb, -, -⟩ := I.area.next ha hnext
    simp only [Word.add_eq hra.bound]
    by_cases hused : s.used b = true
    · simp only [hused, if_true]
      exact ⟨false, m, rfl, rfl, fun _ => rfl, by simp⟩
    by_cases hadj : s.addr a + s.size a ≠ s.addr b
    · simp only [hused, Bool.false_eq_true, if_false, hadj, if_true, ne_eq, not_false_eq_true]
      exact ⟨false, m, rfl, rfl, fun _ => rfl, by simp⟩
    by_cases hfit : s.size b < n
    · simp only [hused, Bool.false_eq_true, if_false, hadj, hfit, if_true]
      exact ⟨false, m, rfl, rfl, fun _ => rfl, by simp⟩
    have hbf := (I.mem_freeAreas hb (by simp)).mpr (by simpa using hused)
    obtain ⟨fn, fp, fl, free, an, ap, al, hrf, hra', -, -⟩ := I.unlink hbf
    refine ⟨true, fillBytes m (s.addr b) (s.size b) 0, ?_, ?_, by simp, fun _ =>
      ⟨b, hbf, by simpa using hadj, by omega, rfl⟩⟩
    · have hclear : ∀ t : State, t.live = s.live → t.dsNext = s.dsNext → t.addr = s.addr →
          t.size = s.size →
          t.pagesClear t.listFuel (some b) m = .ok (fillBytes m (s.addr b) (s.size b) 0) := by
        intro t h1 h2 h3 h4
        have hlive : 0 < s.live.length := List.length_pos_of_mem (I.mem_live hb)
        obtain ⟨k, hk⟩ : ∃ k, t.listFuel = k + 2 := ⟨s.live.length - 1, by
          simp only [State.listFuel, h1]
          omega⟩
        rw [hk, State.pagesClear, h2, I.null P b hb hbf.2.1, State.pagesClear, h3, h4]
        rfl
      simp only [hused, Bool.false_eq_true, if_false, hadj, hfit, hrf, ok_bind, hra']
      rw [hclear ((s.withFreeList P fn fp fl free).withAreaList P an ap al) rfl rfl rfl rfl]
      simp only [ok_bind]
      split
      · refine Eq.symm ?_
        exact Machine.map_bind fun t => Machine.map_bind fun t' => rfl
      · rfl
    · have htriv : ∀ {α : Type} (r : Except Panic α), Meets r (fun _ => True) fun _ => True :=
        fun r => by cases r <;> trivial
      simp only [hused, Bool.false_eq_true, if_false, hadj, hfit, hrf, ok_bind, hra']
      split
      · exact (htriv _).bind fun t _ => (htriv _).bind fun t' _ => meets_pure.mpr rfl
      · exact meets_pure.mpr rfl

theorem Chain.machineEnlarge_eq (C : Chain s A H P (some a) c) (n : Nat) (prio : Prio) (m : Memory) :
    ∃ m', Machine.dmphysPagesEnlarge s P a n prio m =
        (s.dmphysPagesEnlarge P a n prio).map (fun r => (r.1, r.2, m')) ∧
      Meets (s.dmphysPagesEnlarge P a n prio) (fun r => (r.1 ≠ none → m' = m) ∧
        (r.1 = none → ∃ b ∈ freeAreas s A (c ++ H) P, s.addr a + s.size a = s.addr b ∧
          n ≤ s.size b ∧ m' = fillBytes m (s.addr b) (s.size b) 0)) (fun _ => True) := by
  have ha : a ∈ c := by
    cases c with
    | nil => cases C.links
    | cons b c => cases C.links.1; exact List.mem_cons_self
  unfold Machine.dmphysPagesEnlarge State.dmphysPagesEnlarge
  by_cases hused : s.used a = false
  · simp only [hused, if_true]
    exact ⟨m, rfl, fun _ => rfl, by simp⟩
  by_cases hav : s.available P n prio = false
  · simp only [hused, Bool.true_eq_false, if_false, hav, if_true]
    exact ⟨m, rfl, fun _ => rfl, by simp⟩
  by_cases hds : s.dsNext a ≠ none
  · simp only [hused, Bool.true_eq_false, if_false, hav, if_pos hds]
    exact ⟨m, rfl, trivial⟩
  simp only [hused, Bool.true_eq_false, if_false, hav, if_neg hds]
  obtain ⟨done, m', heq, hdone, h0, h1⟩ := C.inv.machineEnlargeArea (C.mem a ha) n m
  refine ⟨m', ?_, hdone.bind fun r hr => ?_⟩
  · rw [heq]
    cases s.enlargeArea P a n <;> rfl
  · rw [meets_pure, hr]
    cases done with
    | false => exact ⟨fun _ => h0 rfl, by simp⟩
    | true => exact ⟨by simp, fun _ => h1 rfl⟩

/-- `dmphys_pages_enlarge`, for a list of one area. -/
theorem Chain.machineEnlarge (C : Chain s A H P (some a) c) (hone : c.length = 1) (hroom : s.Room)
    (hn : n % pageSize = 0) (hpos : 0 < n) (prio : Prio) (m : Memory) :
    ∃ r, Machine.dmphysPagesEnlarge s P a n prio m = .ok r ∧
      s.dmphysPagesEnlarge P a n prio = .ok (r.1, r.2.1) ∧
      (r.1 ≠ none ∧ r.2 = (s, m) ∨ r.1 = none ∧ ∃ A', Resized s A H P a r.2.1 A' c ∧
        Refit s c (s.total c + n) r.2.1 c m r.2.2 []) := by
  obtain ⟨x, rfl⟩ := List.length_eq_one_iff.mp hone
  obtain rfl : a = x := Option.some.inj C.links.1
  obtain ⟨m', heq, hm'⟩ := C.machineEnlarge_eq n prio m
  have hres := C.dmphysPagesEnlarge hroom hn hpos prio
  cases hr : s.dmphysPagesEnlarge P a n prio with
  | error e => exact absurd rfl (hres.fail hr).2
  | ok r =>
    obtain ⟨o, s'⟩ := r
    rw [hr] at heq
    refine ⟨(o, s', m'), heq, rfl, ?_⟩
    obtain ⟨h0, h1⟩ := hm'.post hr
    rcases hres.post hr with ⟨hne, rfl⟩ | ⟨rfl, -, A', R, htot, -, -, haddr⟩
    · exact .inl ⟨hne, by rw [h0 hne]⟩
    · obtain ⟨b, hb, hadj, hle, rfl⟩ := h1 rfl
      simp only at R htot haddr
      have hone : ∀ t : State, t.total [a] = t.size a := fun t => by simp [State.total]
      rw [hone, hone] at htot
      -- a byte of the area, before and after
      have hold : ∀ i < s.size a, locate (s.pieces [a]) i = s.addr a + i := fun i hi =>
        if_neg (by simpa using hi)
      have hnew : ∀ i < s.size a + n, locate (s'.pieces [a]) i = s.addr a + i := fun i hi => by
        rw [← haddr]
        exact if_neg (show ¬s'.size a ≤ i by omega)
      refine .inr ⟨rfl, A', R, by rw [hone, hone, htot], fun i hi _ => ?_, fun i hi hi' => ?_,
        by simp, fun y => ?_⟩
      · rw [hone] at hi
        rw [hold i hi, hnew i (by omega)]
        exact ⟨rfl, if_neg (by omega)⟩
      · rw [hone] at hi hi'
        rw [hnew i hi']
        exact if_pos (by omega)
      · simp only [List.not_mem_nil, false_and, exists_false, false_iff, not_exists, not_and]
        omega

/-! ### New areas -/

/-- `dmphys_pages_add` -/
theorem Chain.machineAdd (C : Chain s A H P (some a) c) (hroom : s.Room) (hn : n % pageSize = 0)
    (hpos : 0 < n) (hlt : n < 4294967296) (prio : Prio) (m : Memory) :
    Meets (Machine.dmphysPagesAdd s P a n prio m)
      (fun r => s.dmphysPagesAdd P a n prio = .ok (r.1, r.2.1) ∧
        (r.1 ≠ none ∧ r.2.2 = m ∧ (∃ A', Leaves s A (c ++ H) (c ++ H) r.2.1 A' ∧ s.Retains r.2.1) ∨
          r.1 = none ∧ ∃ A' c', Resized s A H P a r.2.1 A' c' ∧
            Refit s c (s.total c + n) r.2.1 c' m r.2.2 [])) s.NoPage := by
  unfold Machine.dmphysPagesAdd State.dmphysPagesAdd
  by_cases hav : s.available P n prio = false
  · simp only [hav, if_true]
    exact ⟨rfl, .inl ⟨by simp, rfl, A, .refl C.inv, .refl s⟩⟩
  simp only [hav, if_false, Bool.true_eq_false, IsSList.pageList_eq C.links C.length_lt]
  have hmore := C.allocateMore hroom hn hpos hlt
    (if maxDsAreas ≤ c.length then 1 else maxDsAreas - c.length)
  cases hal : s.allocatePages P n (if maxDsAreas ≤ c.length then 1 else maxDsAreas - c.length)
      pageSize with
  | error e => exact hmore.fail hal
  | ok r =>
    obtain ⟨o, s'⟩ := r
    rcases hmore.post hal with ⟨rfl, A', L⟩ | ⟨b, c', A', rfl, E⟩
    · exact ⟨rfl, .inl ⟨by simp, rfl, A', L⟩⟩
    · simp only at E
      obtain ⟨m', hm', hw⟩ := E.chain.pageList.pagesClear (m := m)
      obtain ⟨R, htot, -⟩ := C.append E
      simp only [ok_bind, hm']
      refine ⟨rfl, .inr ⟨rfl, A', c ++ c', R, ?_⟩⟩
      have hpl := R.chain.pageList
      have hpieces : ∀ t : State, t = s'.setDsNext (c.getLastD a) (some b) →
          t.pieces (c ++ c') = s.pieces c ++ s'.pieces c' := by
        rintro t rfl
        rw [← Frame.pieces E.frame fun y hy => List.mem_append_left H hy]
        exact State.pieces_append
      have hext : extent (s.pieces c) = s.total c := State.extent_pieces
      have hnew : ∀ t : State, t = s'.setDsNext (c.getLastD a) (some b) → ∀ k,
          locate (t.pieces (c ++ c')) (s.total c + k) = locate (s'.pieces c') k := by
        intro t ht k
        rw [hpieces t ht, ← hext, locate_append_right]
      have hold : ∀ t : State, t = s'.setDsNext (c.getLastD a) (some b) → ∀ i < s.total c,
          locate (t.pieces (c ++ c')) i = locate (s.pieces c) i := by
        intro t ht i hi
        rw [hpieces t ht, locate_append_left (hext ▸ hi)]
      have ht' : s'.total c' = n := by
        have := E.total
        simpa [State.total] using this
      refine ⟨htot, fun i hi _ => ⟨hold _ rfl i hi, hw.other fun k hk he => ?_⟩, fun i hi hi' => ?_,
        by simp, fun y => ?_⟩
      · rw [Nat.zero_add, ← hnew _ rfl k, ← hold _ rfl i hi] at he
        have := hpl.inj (by omega) (by omega) he
        omega
      · obtain ⟨k, rfl⟩ : ∃ k, i = s.total c + k := ⟨i - s.total c, by omega⟩
        rw [hnew _ rfl k]
        have := hw.written k (by omega)
        rwa [Nat.zero_add] at this
      · simp only [List.not_mem_nil, false_and, exists_false, false_iff, not_exists, not_and]
        omega

/-! ### Cutting off areas -/

/-- The loop that unmaps and releases the rest of a list. -/
theorem Chain.machineReleaseRest (C : Chain s A H P q (c₁ ++ x :: c₂)) (hroom : s.Room) {fuel : Nat}
    (hf : c₂.length < fuel) :
    ∃ s' u, s.releaseRest P x fuel = .ok s' ∧ Machine.releaseRest s P x fuel = .ok (s', u) ∧
      Unmaps u (s.pieces c₂) := by
  induction c₂ generalizing s A fuel with
  | nil =>
    obtain ⟨fuel, rfl⟩ : ∃ k, fuel = k + 1 := ⟨fuel - 1, by simp at hf; omega⟩
    have hx : s.dsNext x = none := C.links.tail_at
    refine ⟨s, [], ?_, ?_, .nil⟩
    · simp only [State.releaseRest, hx]
      rfl
    · simp only [Machine.releaseRest, hx]
      rfl
  | cons b c₂ ih =>
    obtain ⟨fuel, rfl⟩ : ∃ k, fuel = k + 1 := ⟨fuel - 1, by simp at hf; omega⟩
    obtain ⟨hx, s₂, s₃, A₃, heq₂, heq₃, C₃, hF, hk, -⟩ := C.releaseNext hroom
    obtain ⟨s₄, u₄, heq₄, heq₄', U₄⟩ := ih C₃ (hF.steady.room hroom) (by simp at hf; omega)
    obtain ⟨u, hu, U⟩ := unmapArea_ok (C.inv.area.range (C.mem b (by simp))).bound
    have hb : unmapArea ((s.setDsNext x (s.dsNext b)).addr b) ((s.setDsNext x (s.dsNext b)).size b) =
        .ok u := hu
    have hpieces : s₃.pieces c₂ = s.pieces c₂ := List.map_congr_left fun y hy => by
      rw [(hk y (by simp [hy])).1, (hk y (by simp [hy])).2]
    rw [hpieces] at U₄
    refine ⟨s₄, u ++ u₄, ?_, ?_, U.append U₄⟩
    · simp only [State.releaseRest, hx, heq₂, ok_bind, heq₃, heq₄]
    · simp only [Machine.releaseRest, hx, hb, heq₂, ok_bind, heq₃, heq₄']
      rfl

theorem Chain.machineCutLast {k : Nat} (C : Chain s A H P q (c₁ ++ x :: c₂)) (hk : k ≤ s.size x) :
    ∃ u, Machine.cutLast s P x k = (s.cutLast P x k).map (·, u) ∧
      Unmaps u [(s.addr x + k, s.size x - k)] := by
  have hb := (C.inv.area.range (C.mem x (by simp))).bound
  unfold Machine.cutLast
  split
  next hlt =>
    rw [Word.add_eq (by omega), Word.sub_eq hk (by omega)]
    have hend : s.addr x + k + (s.size x - k) < 4294967296 := by omega
    obtain ⟨u, hu, U⟩ := unmapArea_ok hend
    refine ⟨u, ?_, U⟩
    rw [hu, ok_bind]
    cases s.cutLast P x k <;> rfl
  next hge =>
    refine ⟨[], ?_, by simp, fun y => ?_⟩
    · unfold State.cutLast
      rw [if_neg hge]
      rfl
    · simp only [List.not_mem_nil, false_and, exists_false, List.mem_singleton, exists_eq_left,
        false_iff]
      omega

theorem Trimmed.keeps (h : Trimmed s c n s' c') : s'.total c' = n ∧ n ≤ s.total c ∧
    ∀ i < n, locate (s'.pieces c') i = locate (s.pieces c) i := by
  obtain ⟨c₁, x, c₂, rfl, rfl, haddr, hsize, hle, htot⟩ := h
  have hfront : s'.pieces c₁ = s.pieces c₁ := List.map_congr_left fun y hy => by
    rw [haddr y (List.mem_append_left _ hy), hsize y hy]
  have hext : extent (s.pieces c₁) = s.total c₁ := State.extent_pieces
  have htot₁ : s'.total c₁ = s.total c₁ := by
    rw [← State.extent_pieces, hfront, hext]
  have happ : ∀ (t : State) l, t.total (c₁ ++ x :: l) = t.total c₁ + t.size x + t.total l := by
    intro t l
    simp [State.total, Nat.add_assoc]
  refine ⟨?_, ?_, fun i hi => ?_⟩
  · rw [happ, htot₁]
    simpa [State.total] using htot
  · rw [happ]
    omega
  · rw [State.pieces_append, State.pieces_append, hfront]
    rcases Nat.lt_or_ge i (s.total c₁) with hlt | hge
    · rw [locate_append_left (hext ▸ hlt), locate_append_left (hext ▸ hlt)]
    · obtain ⟨j, rfl⟩ : ∃ j, i = extent (s.pieces c₁) + j := ⟨i - s.total c₁, by omega⟩
      rw [State.pieces_cons, State.pieces_cons, locate_append _ _ _ (by simp only; omega),
        locate_append _ _ _ (by simp only; omega), haddr x (by simp)]

/-- The addresses of the bytes from `n` on. -/
theorem bytes_behind {k y : Nat} (hk : k ≤ s.size x) (hn : s.total c₁ + k = n) :
    (∃ r ∈ (s.addr x + k, s.size x - k) :: s.pieces c₂, r.1 ≤ y ∧ y < r.1 + r.2) ↔
      ∃ i, n ≤ i ∧ i < s.total (c₁ ++ x :: c₂) ∧ locate (s.pieces (c₁ ++ x :: c₂)) i = y := by
  have hext : extent (s.pieces c₁) = s.total c₁ := State.extent_pieces
  have htot : s.total (c₁ ++ x :: c₂) = s.total c₁ + s.size x + s.total c₂ := by
    simp [State.total, Nat.add_assoc]
  have hloc : ∀ j, locate (s.pieces (c₁ ++ x :: c₂)) (n + j) =
      locate ((s.addr x + k, s.size x - k) :: s.pieces c₂) j := by
    intro j
    have := locate_append_add (s.pieces c₁) (s.addr x, s.size x) (s.pieces c₂) hk j
    rw [hext, hn] at this
    rw [State.pieces_append, State.pieces_cons]
    exact this
  rw [← exists_locate_iff, extent_cons, State.extent_pieces]
  constructor
  · rintro ⟨j, hj, rfl⟩
    exact ⟨n + j, by omega, by simp only at hj; omega, hloc j⟩
  · rintro ⟨i, hi, hlt, rfl⟩
    refine ⟨i - n, by simp only; omega, ?_⟩
    rw [← hloc]
    congr 1
    omega

/-- `dmphys_pages_shrink`: the unmapped pieces are those from the byte `n` on. -/
theorem Chain.machineShrink (C : Chain s A H P (some a) c) (hroom : s.Room) (hn : n % pageSize = 0)
    (hpos : 0 < n) (hlt : n < 4294967296) (m : Memory) :
    Meets (Machine.dmphysPagesShrink s P a n)
      (fun r => s.dmphysPagesShrink P a n = .ok (r.1, r.2.1) ∧
        (r.1 ≠ none ∧ r.2 = (s, []) ∨ r.1 = none ∧ ∃ A' c', Resized s A H P a r.2.1 A' c' ∧
          c'.length ≤ c.length ∧ Refit s c n r.2.1 c' m m r.2.2)) s.NoPage := by
  have hres := C.dmphysPagesShrink hroom hn hpos hlt
  have hsub : Word.sub n 1 = n - 1 := Word.sub_eq hpos hlt
  unfold State.dmphysPagesShrink at hres ⊢
  unfold Machine.dmphysPagesShrink
  rcases IsSList.findOffset_eq C.links C.length_lt (n - 1) with
    ⟨h0, -⟩ | ⟨c₁, x, c₂, o, rfl, hfind, htot, ho⟩
  · simp only [hsub, h0, ok_bind]
    exact ⟨rfl, .inl ⟨by simp, rfl⟩⟩
  have hbx := (C.inv.area.range (C.mem x (by simp))).bound
  have eo : Word.add o 1 = o + 1 := Word.add_eq (by omega)
  simp only [hsub, hfind, ok_bind, eo] at hres ⊢
  have hpage : (o + 1) % pageSize = 0 := by
    have := State.total_page C.inv.area fun b hb => C.mem b (List.mem_append_left (x :: c₂) hb)
    unfold pageSize at *
    omega
  have hcut := C.cutLast (k := o + 1) (by omega) (by omega) hpage
  obtain ⟨u, hu, U⟩ := C.machineCutLast (k := o + 1) (by omega)
  rw [hu]
  cases hs₁ : s.cutLast P x (o + 1) with
  | error e => exact hcut.fail hs₁
  | ok s₁ =>
    obtain ⟨A₁, K, C₁, hkeep⟩ := hcut.post hs₁
    have hlen₁ : c₂.length < s₁.listFuel := by
      have := C₁.length_lt
      simp only [List.length_append, List.length_cons] at this
      omega
    obtain ⟨s₂, u₂, heq, heq', U₂⟩ := C₁.machineReleaseRest (K.frame.steady.room hroom) hlen₁
    have hpieces : s₁.pieces c₂ = s.pieces c₂ := List.map_congr_left fun y hy => by
      have hnd := (List.nodup_append.mp C.inv.owned).1
      have hyx : y ≠ x := fun e => by
        simp only [List.nodup_append, List.nodup_cons, List.mem_append, List.mem_cons] at hnd
        grind
      have hK := hkeep y (by simp [hy]) hyx
      rw [K.frame.addr y hK, K.frame.size y hK]
    rw [hs₁] at hres
    simp only [Except.map, ok_bind, heq, heq', pure, Except.pure, meets_ok] at hres ⊢
    obtain ⟨A', c', T, R, -⟩ : ∃ A' c', Trimmed s (c₁ ++ x :: c₂) n s₂ c' ∧
        Resized s A H P a s₂ A' c' ∧ True := by
      rcases hres with ⟨h, -⟩ | ⟨-, A', c', T, R, -⟩
      · exact absurd rfl h
      · exact ⟨A', c', T, R, trivial⟩
    obtain ⟨htotal, hle, hkeeps⟩ := T.keeps
    rw [hpieces] at U₂
    have U₂ := U.append U₂
    refine ⟨trivial, .inr ⟨trivial, A', c', R, T.length_le, htotal,
      fun i _ hi => ⟨hkeeps i hi, rfl⟩, fun i hi hi' => absurd hi' (by omega), U₂.aligned,
      fun y => (U₂.cover y).trans ?_⟩⟩
    exact bytes_behind (by omega) (by omega)

/-- `dmphys_unmap_areas` -/
theorem PageList.unmapAreas (h : PageList s p c) :
    ∃ u, s.unmapAreas s.listFuel (some p) = .ok u ∧ Unmaps u (s.pieces c) := by
  have hrun : ∀ (c : List Ptr) q fuel, IsSList s.dsNext q c → c.length < fuel →
      (∀ a ∈ c, s.addr a + s.size a < 4294967296) →
      ∃ u, s.unmapAreas fuel q = .ok u ∧ Unmaps u (s.pieces c) := by
    intro c
    induction c with
    | nil =>
      intro q fuel hq hf _
      obtain ⟨fuel, rfl⟩ : ∃ k, fuel = k + 1 := ⟨fuel - 1, by simp at hf; omega⟩
      cases hq
      exact ⟨[], rfl, .nil⟩
    | cons a c ih =>
      intro q fuel hq hf hb
      obtain ⟨fuel, rfl⟩ : ∃ k, fuel = k + 1 := ⟨fuel - 1, by simp at hf; omega⟩
      obtain ⟨rfl, hq⟩ := hq
      obtain ⟨u, hu, U⟩ := unmapArea_ok (hb a List.mem_cons_self)
      obtain ⟨u', hu', U'⟩ := ih _ fuel hq (by simp at hf; omega) fun b hb' =>
        hb b (List.mem_cons_of_mem _ hb')
      refine ⟨u ++ u', ?_, U.append U'⟩
      simp only [State.unmapAreas, hu, ok_bind, hu']
      rfl
  exact hrun c _ _ h.links h.length h.bound

end

/-! ## Dataspaces -/

section
variable {s : State} {A : Nat → Set Ptr} {l : List Dataspace} {f : Nat → List Ptr} {d : Dataspace}
  {n : Nat} {m : Memory}

/-- A part of `__resize`: another size of the page list. -/
theorem Owned.machineResizePages (h : Owned s A (d :: l) f) (hr : s.Ready) (hn : n % pageSize = 0)
    (hpos : 0 < n) (hlt : n < 4294967296) :
    Meets (Machine.resizePages s d n m) (fun r => Server.resizePages s d n = .ok (r.1, r.2.1) ∧
        (r.1 ≠ none ∧ r.2.2 = (m, []) ∧
          (∃ A', Leaves s A (heldAreas ((d :: l).map (·.held f))) (heldAreas ((d :: l).map (·.held f)))
            r.2.1 A' ∧ s.Retains r.2.1) ∨
          r.1 = none ∧ ∃ A' c, Resized s A (heldAreas (l.map (·.held f))) d.pool d.pages r.2.1 A' c ∧
            (State.contiguous d.flags = true → c.length = 1) ∧
            Refit s (f d.id) n r.2.1 c m r.2.2.1 r.2.2.2))
      fun _ => False := by
  have C := h.chain
  have hsize := h.size d (by simp)
  have htot : d.size % pageSize = 0 := by
    rw [hsize]; exact State.total_page C.inv.area C.mem
  unfold Machine.resizePages Server.resizePages
  by_cases hgt : d.size < n
  · have hsub : Word.sub n d.size = n - d.size := Word.sub_eq (by omega) hlt
    have hmod : (n - d.size) % pageSize = 0 := by unfold pageSize at *; omega
    have hround : Word.roundUp (n - d.size) pageSize = n - d.size := by
      unfold pageSize at hn hmod
      rw [show pageSize = 2 ^ 12 from rfl, Word.roundUp_eq (by decide) (by omega)]
      omega
    have hsum : s.total (f d.id) + (n - d.size) = n := by omega
    simp only [if_pos hgt, hsub, hround]
    by_cases hc : State.contiguous d.flags = true
    · have hone := h.single d (by simp) hc
      obtain ⟨⟨o, s', m'⟩, heq, heq', hres⟩ := C.machineEnlarge hone hr.room hmod (by omega) .user m
      simp only [hc, if_true, heq, heq', ok_bind]
      refine ⟨rfl, ?_⟩
      rcases hres with ⟨hne, he⟩ | ⟨rfl, A', R, F⟩
      · cases he
        exact .inl ⟨hne, rfl, A, .refl C.inv, .refl s⟩
      · rw [hsum] at F
        exact .inr ⟨rfl, A', _, R, fun _ => hone, F⟩
    · simp only [hc, Bool.false_eq_true, if_false]
      refine (hr.meets (C.machineAdd hr.room hmod (by omega) (by omega) .user m)).bind ?_
      rintro ⟨o, s', m'⟩ ⟨heq, hres⟩
      refine ⟨heq, ?_⟩
      rcases hres with ⟨hne, rfl, hL⟩ | ⟨rfl, A', c', R, F⟩
      · exact .inl ⟨hne, rfl, hL⟩
      · rw [hsum] at F
        exact .inr ⟨rfl, A', c', R, fun h => h.elim, F⟩
  · simp only [if_neg hgt]
    by_cases hlt' : n < d.size
    · simp only [if_pos hlt']
      refine (hr.meets (C.machineShrink hr.room hn hpos hlt m)).bind ?_
      rintro ⟨o, s', u⟩ ⟨heq, hres⟩
      refine ⟨heq, ?_⟩
      rcases hres with ⟨hne, he⟩ | ⟨rfl, A', c', R, hlen, F⟩
      · cases he
        exact .inl ⟨hne, rfl, A, .refl C.inv, .refl s⟩
      · refine .inr ⟨rfl, A', c', R, fun hc => ?_, F⟩
        have h1 := h.single d (by simp) hc
        have h2 : c' ≠ [] := by
          rintro rfl
          cases R.chain.links
        have h3 := List.length_pos_iff.mpr h2
        omega
    · simp only [if_neg hlt']
      obtain rfl : n = s.total (f d.id) := by omega
      exact ⟨rfl, .inr ⟨rfl, A, f d.id, ⟨C, Frame.refl _ _ _⟩, h.single d (by simp), .refl ..⟩⟩

end

section
variable {v v' : Server} {w : Machine} {mem : List Range} {first : List Nat} {A A' : Nat → Set Ptr}
  {f f' : Nat → List Ptr} {d : Dataspace} {s s' : State} {H H' c : List Ptr} {a : Ptr} {P n i x : Nat}
  {m m' : Memory} {u : List Fpage}

/-! ### Free memory -/

theorem Inv.freeIn_iff (I : Inv s A H none) : s.FreeIn P a ↔ a ∈ freeAreas s A H P := by
  obtain ⟨L, HL, hL⟩ := I.area
  constructor
  · rintro ⟨⟨L', hL', ha⟩, hfree⟩
    rw [(hL'.2.isSList).unique (hL'.1 ▸ (HL.links P).1 ▸ (HL.links P).2.isSList)] at ha
    exact (I.mem_freeAreas ((hL P a).mp ha) (by simp)).mpr hfree
  · intro ha
    exact ⟨⟨L P, HL.links P, (hL P a).mpr ha.1⟩, (I.mem_freeAreas ha.1 (by simp)).mp ha⟩

theorem Inv.freeByte_iff (I : Inv s A H none) : s.FreeByte P x ↔ x ∈ freeBytes s A H P := by
  simp only [State.FreeByte, I.freeIn_iff, freeBytes, Set.mem_ofPred_eq]

theorem Inv.givenUp_eq (I : Inv s A H none) : s.givenUp s' A P = s.handedBack s' P := by
  ext x
  simp only [State.givenUp, State.handedBack, Set.mem_ofPred_eq]
  constructor
  · rintro ⟨a, ha, ha', hP, hx⟩
    exact ⟨I.area.disj hP (I.internal a ha), a, ha, ha', hx⟩
  · rintro ⟨rfl, a, ha, ha', hx⟩
    exact ⟨a, ha, ha', I.internal a ha, hx⟩

theorem Leaves.perm (h : Leaves s A H H s' A') (hp : H.Perm H') : Leaves s A H' H' s' A' :=
  ⟨h.inv.perm hp, h.frame.mono fun _ ha => hp.mem_iff.mpr ha,
    fun hc => (h.coal (hc.perm hp.symm)).perm hp⟩

theorem Server.Sound.refused (h : w.server.Sound mem first A f)
    (hL : Leaves w.server.st A (heldAreas (w.server.dataspaces.map (·.held f)))
      (heldAreas (w.server.dataspaces.map (·.held f))) s' A')
    (hk : w.server.st.Retains s') : w.Refused ⟨{ w.server with st := s' }, w.mem⟩ := by
  have I := h.owned.holds.inv
  have h' : Server.Sound { w.server with st := s' } mem first A' f :=
    h.next h.ids (h.owned.leaves hL) hL.frame.kept
  have hfree := fun P => hL.freeBytes_eq (P := P) hk I
  refine ⟨rfl, fun d hd i => ?_, rfl, fun P x => ?_, fun P => ?_⟩
  · rcases Nat.lt_or_ge i d.size with hi | hi
    · rw [h.byte_eq hd hi, Server.Sound.byte_eq (w := ⟨_, _⟩) h' hd hi,
        Frame.pieces hL.frame fun a ha => mem_heldAreas hd ha]
    · rw [h.byte_none hd hi, Server.Sound.byte_none (w := ⟨_, _⟩) h' hd hi]
  · rw [hL.inv.freeByte_iff, (hfree P).1, I.freeByte_iff, I.givenUp_eq]
    rfl
  · rw [← I.givenUp_eq]
    exact (hfree P).2

theorem Server.Sound.addrOf_eq (h : v.Sound mem first A f) (hd : d ∈ v.dataspaces) (hi : i < d.size) :
    v.addrOf d i = some (locate (v.st.pieces (f d.id)) i) := by
  obtain ⟨a, o, he, ho, -, hadd, -, -, hloc⟩ := (h.pageList hd).findOffset_some (h.owned.size d hd ▸ hi)
  have := hloc 0 (by omega)
  simp only [Nat.add_zero] at this
  simp only [Server.addrOf, he, hadd, this]

/-- A byte that a dataspace lost is in no other list, so it is free or backs the descriptor memory. -/
theorem Server.Sound.lost (h : v.Sound mem first A f) (h' : v'.Sound mem first A' f')
    (hd : d ∈ v.dataspaces)
    (hF : Frame v.st A v'.st A' (· ∈ heldAreas ((dropFrom d.id v.dataspaces).map (·.held f))))
    (hout : ∀ e ∈ v'.dataspaces, e.id ≠ d.id → e ∈ v.dataspaces ∧ f' e.id = f e.id)
    (hself : ∀ e ∈ v'.dataspaces, e.id = d.id → v'.st.total (f' e.id) = n ∧ ∀ j < n, j < d.size →
      locate (v'.st.pieces (f' e.id)) j = locate (v.st.pieces (f d.id)) j)
    (hn : n ≤ i) (hi : i < d.size) :
    v'.st.FreeByte d.pool (locate (v.st.pieces (f d.id)) i) ∨
      v'.st.InternalByte (locate (v.st.pieces (f d.id)) i) := by
  have I := h.owned.holds.inv
  have I' := h'.owned.holds.inv
  have hA : ∀ e ∈ v.dataspaces, ∀ b ∈ f e.id, b ∈ A e.pool := fun e he =>
    h.owned.holds.mem (e.held f) (List.mem_map.mpr ⟨e, he, rfl⟩)
  generalize hx : locate (v.st.pieces (f d.id)) i = x
  have hext : i < extent (v.st.pieces (f d.id)) := by
    rwa [State.extent_pieces, ← h.owned.size d hd]
  obtain ⟨_, hr, h1, h2⟩ := locate_mem hext
  obtain ⟨a, ha, rfl⟩ := List.mem_map.mp hr
  simp only [hx] at h1 h2
  have hcov : Covered v'.st A' d.pool x :=
    (h'.cover _ _).mpr ((h.cover _ _).mp ⟨a, hA d hd a ha, h1, h2⟩)
  obtain ⟨b, hb, h3, h4⟩ := hcov
  cases hu : v'.st.used b with
  | false => exact .inl ⟨b, I'.freeIn_iff.mpr ((I'.mem_freeAreas hb (by simp)).mpr hu), h3, h4⟩
  | true =>
    rcases (I'.flag d.pool b hb (by simp)).mp hu with hH | hint
    · obtain ⟨e, he, hbe⟩ := mem_heldAreas_iff.mp hH
      by_cases hid : e.id = d.id
      · -- the bytes that the dataspace still has are those in front
        obtain ⟨htot, hkeep⟩ := hself e he hid
        obtain ⟨j, hj, hjx⟩ := (exists_locate_iff (l := v'.st.pieces (f' e.id))).mpr
          ⟨(v'.st.addr b, v'.st.size b), List.mem_map.mpr ⟨b, hbe, rfl⟩, h3, h4⟩
        rw [State.extent_pieces, htot] at hj
        rw [hkeep j hj (by omega), ← hx] at hjx
        have hsz := h.owned.size d hd
        have := (h.pageList hd).inj (by omega) (by omega) hjx
        omega
      · obtain ⟨hev, hfe⟩ := hout e he hid
        rw [hfe] at hbe
        have hbH : b ∈ heldAreas ((dropFrom d.id v.dataspaces).map (·.held f)) :=
          mem_heldAreas (List.mem_filter.mpr ⟨hev, by simpa using hid⟩) hbe
        rw [hF.addr b hbH] at h3 h4
        rw [hF.size b hbH] at h4
        have hpool : e.pool = d.pool := I'.area.disj (hF.mem b hbH _ (hA e hev b hbe)) hb
        have hab : a ≠ b := by
          rintro rfl
          exact h.disjoint hd hev (Ne.symm hid) ha hbe
        have := I.area.apart (hA d hd a ha) (hpool ▸ hA e hev b hbe) hab
        omega
    · exact .inr ⟨b, hint, h3, h4⟩

/-! ### The request -/

/-- The end of `__resize`, when the page list has the new size. -/
theorem Server.Sound.resizedTo (h : w.server.Sound mem first A f) (hr : w.server.st.Ready)
    (hd : w.server.get d.id = some d) (hn : n ≠ 0)
    (R : Resized w.server.st A (heldAreas ((dropFrom d.id w.server.dataspaces).map (·.held f))) d.pool
      d.pages s' A' c)
    (hone : State.contiguous d.flags = true → c.length = 1)
    (F : Refit w.server.st (f d.id) n s' c w.mem m' u) :
    ∃ s₂, s'.pagesGetSize d.pages = .ok n ∧ s'.dmphysInternalAllocUpdate = .ok s₂ ∧
      w.ResizedTo ⟨{ w.server with st := s₂ }.put { d with size := n }, m'⟩ d n u := by
  have hdm := List.mem_of_find?_eq_some hd
  have hO := (h.find hd).resized dropFrom_ne R hone
  rw [F.total] at hO
  have hx : (⟨d.pool, d.pages, c⟩ : Held) ∈ (({ d with size := n } : Dataspace) ::
      dropFrom d.id w.server.dataspaces).map (·.held (Function.update f d.id c)) := by
    simp [Dataspace.held]
  have hupd := hO.update (R.frame.kept.ready hr)
  cases hs₂ : s'.dmphysInternalAllocUpdate with
  | error e => exact (hupd.fail hs₂).elim
  | ok s₂ =>
    obtain ⟨A₂, h₂, k₂⟩ := hupd.post hs₂
    have hget := hO.holds.pagesGetSize hx
    rw [show s'.total (Held.areas ⟨d.pool, d.pages, c⟩) = n from F.total] at hget
    refine ⟨s₂, hget, rfl, ?_⟩
    have hput : ({ w.server with st := s₂ }.put { d with size := n } : Server).Sound mem first A₂
        (Function.update f d.id c) := h.put hd rfl h₂ (R.frame.kept.trans k₂.kept)
    have hlive : ({ w.server with st := s₂ }.put { d with size := n } : Server).get d.id =
        some { d with size := n } :=
      find_putIn_self (d := { d with size := n }) (by
        have : w.server.dataspaces.find? (·.id == d.id) = some d := hd
        simp [this])
    generalize hv' : ({ w.server with st := s₂ }.put { d with size := n } : Server) = v' at hput hlive
    have hst : v'.st = s₂ := by rw [← hv']; rfl
    have hdm' := List.mem_of_find?_eq_some hlive
    have hpieces : v'.st.pieces (Function.update f d.id c d.id) = s'.pieces c := by
      rw [hst, Function.update_self]
      exact Frame.pieces k₂ fun a ha => areas_mem_heldAreas hx ha
    have hsz := h.owned.size d hdm
    have hbyte : ∀ i < n, Machine.byte ⟨v', m'⟩ { d with size := n } i =
        some (m' (locate (s'.pieces c) i)) := by
      intro i hi
      rw [Server.Sound.byte_eq (w := ⟨v', m'⟩) hput hdm' hi]
      simp only [hpieces]
    refine ⟨fun h0 => absurd h0 hn, fun _ => hlive, fun i hi hi' => ?_, fun i hi hi' => ?_, F.aligned,
      fun x => (F.unmapped x).trans ?_, fun i x hi hi' hx' => ?_⟩
    · obtain ⟨hloc, hmem⟩ := F.keeps i (hsz ▸ hi) hi'
      exact ⟨_, h.byte_eq hdm hi, by rw [hbyte i hi', hloc, hmem]⟩
    · rw [hbyte i hi', F.zero i (hsz ▸ hi) hi']
    · rw [← hsz]
      refine exists_congr fun i => and_congr_right fun _ => and_congr_right fun hi => ?_
      rw [h.addrOf_eq hdm hi, Option.some_inj]
    · rw [h.addrOf_eq hdm hi', Option.some_inj] at hx'
      subst hx'
      have hdrop : ∀ a ∈ heldAreas ((dropFrom d.id w.server.dataspaces).map (·.held f)), a ∈ heldAreas
          ((({ d with size := n } : Dataspace) :: dropFrom d.id w.server.dataspaces).map
            (·.held (Function.update f d.id c))) := by
        intro a ha
        obtain ⟨e, he, hae⟩ := mem_heldAreas_iff.mp ha
        refine mem_heldAreas (List.mem_cons_of_mem _ he) ?_
        rwa [Function.update_of_ne (dropFrom_ne e he)]
      refine h.lost (n := n) hput hdm ?_ (fun e he hid => ?_) (fun e he hid => ?_) hi hi'
      · rw [hst]
        exact R.frame.trans (Frame.mono k₂ hdrop)
      · have he : e ∈ putIn { d with size := n } w.server.dataspaces := by rw [← hv'] at he; exact he
        obtain ⟨e', he', hee⟩ := List.mem_map.mp he
        by_cases hid' : e'.id = d.id
        · rw [if_pos hid'] at hee
          exact absurd (by rw [← hee]) hid
        · rw [if_neg hid'] at hee
          exact ⟨hee ▸ he', Function.update_of_ne hid _ _⟩
      · rw [hid, hpieces]
        refine ⟨?_, fun j hj hj' => (F.keeps j (hsz ▸ hj') hj).1⟩
        rw [← State.extent_pieces, hpieces, State.extent_pieces, F.total]

/-- `__resize` for the size 0. -/
theorem Server.Sound.closedTo (h : w.server.Sound mem first A f) (hr : w.server.st.Ready)
    (hd : w.server.get d.id = some d) :
    Meets (w.resizeDs d 0) (fun r => r.1 = none ∧ w.server.resizeDs d 0 = .ok (none, r.2.1.server) ∧
      w.ResizedTo r.2.1 d 0 r.2.2) fun _ => False := by
  have hdm := List.mem_of_find?_eq_some hd
  obtain ⟨u, hu, U⟩ := (h.pageList hdm).unmapAreas
  obtain ⟨v₁, A₁, heq, h₁, hl, hF⟩ := h.closeDs_frame hr hd
  have hupd := h₁.owned.update (hF.kept.ready hr)
  unfold Machine.resizeDs Server.resizeDs Machine.closeDs
  simp only [if_true, hu, heq, ok_bind, pure_bind]
  cases hs₂ : v₁.st.dmphysInternalAllocUpdate with
  | error e => exact (hupd.fail hs₂).elim
  | ok s₂ =>
    obtain ⟨A₂, h₂, k₂⟩ := hupd.post hs₂
    have h₂ : Server.Sound { v₁ with st := s₂ } mem first A₂ f := h₁.next h₁.ids h₂ k₂.kept
    have hne : ∀ e ∈ v₁.dataspaces, e.id ≠ d.id := fun e he => dropFrom_ne e (hl ▸ he)
    have hsz := h.owned.size d hdm
    refine ⟨rfl, rfl, fun _ => ?_, fun h0 => absurd rfl h0, fun i _ hi => absurd hi (Nat.not_lt_zero i),
      fun i _ hi => absurd hi (Nat.not_lt_zero i), U.aligned, fun x => (U.cover x).trans ?_,
      fun i x hi hi' hx' => ?_⟩
    · exact List.find?_eq_none.mpr fun e he => by simpa using hne e he
    · rw [← exists_locate_iff, State.extent_pieces, ← hsz]
      refine exists_congr fun i => ?_
      constructor
      · rintro ⟨hi, hx⟩
        exact ⟨Nat.zero_le i, hi, by rw [h.addrOf_eq hdm hi, hx]⟩
      · rintro ⟨-, hi, hx⟩
        rw [h.addrOf_eq hdm hi, Option.some_inj] at hx
        exact ⟨hi, hx⟩
    · rw [h.addrOf_eq hdm hi', Option.some_inj] at hx'
      subst hx'
      refine h.lost h₂ hdm (hF.trans (hl ▸ k₂)) (fun e he _ => ?_)
        (fun e he hid => absurd hid (hne e he)) hi hi'
      have he : e ∈ dropFrom d.id w.server.dataspaces := hl ▸ he
      exact ⟨(List.mem_filter.mp he).1, rfl⟩

/-- What the answer `e` of a resize to `n` bytes says about the machine `w'` that it leaves. -/
def Machine.Answered (w w' : Machine) (d : Dataspace) (n : Nat) (u : List Fpage) (e : Option Err) :
    Prop :=
  if e = none then w.ResizedTo w' d n u else w.Refused w' ∧ u = []

/-- `__resize` -/
theorem Server.Sound.machineResizeDs (h : w.server.Sound mem first A f) (hr : w.server.st.Ready)
    (hd : w.server.get d.id = some d) (hn : n % pageSize = 0) (hlt : n < 4294967296) :
    Meets (w.resizeDs d n) (fun r => w.server.resizeDs d n = .ok (r.1, r.2.1.server) ∧
      w.Answered r.2.1 d n r.2.2 r.1) fun _ => False := by
  rcases Nat.eq_zero_or_pos n with rfl | hpos
  · refine (h.closedTo hr hd).imp fun r hres => ?_
    obtain ⟨h0, heq, hto⟩ := hres
    unfold Machine.Answered
    rw [h0, if_pos rfl]
    exact ⟨heq, hto⟩
  unfold Machine.resizeDs Server.resizeDs
  rw [if_neg (by omega), if_neg (by omega)]
  refine ((h.find hd).machineResizePages hr hn hpos hlt).bind ?_
  rintro ⟨e, s', m', u⟩ ⟨heq, hres⟩
  simp only at heq hres
  rw [heq, ok_bind]
  rcases hres with ⟨hne, hmem, A', L, hk⟩ | ⟨rfl, A', c, R, hone, F⟩
  · obtain ⟨e, rfl⟩ := Option.ne_none_iff_exists'.mp hne
    cases hmem
    refine ⟨rfl, ?_⟩
    unfold Machine.Answered
    rw [if_neg (by simp)]
    have hperm := perm_dropFrom h.ids (List.mem_of_find?_eq_some hd)
    exact ⟨h.refused (L.perm (heldAreas_perm (hperm.symm.map _))) hk, rfl⟩
  · obtain ⟨s₂, hsize, hupd, hto⟩ := h.resizedTo hr hd hpos.ne' R hone F
    simp only [hsize, hupd, ok_bind]
    exact ⟨rfl, by simpa [Machine.Answered] using hto⟩

end

/-- The resize request in a server that was reached without an overflow, for a size that can be rounded
to whole pages: an error leaves everything as it was, up to the pages that the descriptor memory gave
back, and an answer without an error means that the dataspace has the rounded size. -/
theorem resize_exact {v : Server} (h : Server.Run (fun v slab caller req => v.Safe slab caller req) v)
    (slab : Slab) (m : Memory) (hr : (Machine.of v slab m).server.st.Ready) (caller : ThreadId)
    {d : Dataspace} (hd : v.get d.id = some d) {newSize : Nat} (hn : newSize ≤ 0xfffff000) :
    newSize ≤ Word.roundUp newSize pageSize ∧ (Word.roundUp newSize pageSize = 0 → newSize = 0) ∧
      ∃ e w' u, (Machine.of v slab m).resize caller d.id newSize = .ok (e, w', u) ∧
        (Machine.of v slab m).server.resize caller d.id newSize = .ok (e, w'.server) ∧
        (Machine.of v slab m).Answered w' d (Word.roundUp newSize pageSize) u e := by
  obtain ⟨mem, A, f, hs, -⟩ := h.sound
  have hs : (Machine.of v slab m).server.Sound mem v.st.initialPages A f := hs.congr_slab slab
  obtain ⟨hmod, hlt, hle⟩ := roundUp_page (show newSize < 4294967296 by omega)
  have hround : newSize ≤ Word.roundUp newSize pageSize := by
    rw [show pageSize = 2 ^ 12 from rfl, Word.roundUp_eq (by decide) (by omega)]
    omega
  refine ⟨hround, fun h0 => by omega, ?_⟩
  have hget : (Machine.of v slab m).server.get d.id = some d := hd
  unfold Machine.resize Server.resize
  cases hc : (Machine.of v slab m).server.getCheckRights d.id caller l4dmResize with
  | error e =>
    refine ⟨some e, _, [], rfl, rfl, ?_⟩
    unfold Machine.Answered
    rw [if_neg (by simp)]
    exact ⟨hs.refused (.refl hs.owned.holds.inv) (.refl _), rfl⟩
  | ok d' =>
    obtain rfl : d' = d := by
      have := (getCheckRights_get hc).1
      rw [hget] at this
      exact (Option.some.inj this).symm
    have hres := hs.machineResizeDs hr hget hmod hlt
    cases heq : (Machine.of v slab m).resizeDs d' (Word.roundUp newSize pageSize) with
    | error e => exact (hres.fail heq).elim
    | ok r =>
      obtain ⟨h1, h2⟩ := hres.post heq
      exact ⟨r.1, r.2.1, r.2.2, heq, h1, h2⟩

/-- A client has all four pages, and there is no page for the descriptor memory. -/
def allPages : Server := (fourPages.next .plain ⟨1, 0⟩ (.memOpen 0x4000 0 0)).2

theorem allPages_run : Server.Run (fun v slab caller req => v.Safe slab caller req) allPages := by
  have hstart : Server.Run (fun v slab caller req => v.Safe slab caller req) fourPages :=
    .start fourPages_fresh
  refine hstart.next .plain ⟨1, 0⟩ (.memOpen 0x4000 0 0) ⟨by decide, by decide⟩ trivial
    ⟨⟨Nat.zero_le _, by decide +kernel⟩, fun _ => ?_⟩ (by decide +kernel)
  rw [if_pos rfl]
  exact fun hc => absurd hc (by decide)

theorem allPages_ready (m : Memory) : (Machine.of allPages .plain m).server.st.Ready :=
  ⟨Nat.zero_le _, show (Machine.of allPages .plain fun _ => 0).server.st.Room by decide +kernel⟩

theorem allPages_get : allPages.get 1 = some ⟨1, ⟨1, 0⟩, [], 0, 1, 0x4000, 0⟩ := by decide +kernel

theorem resize_exact_allPages : ∃ e w' u,
    (Machine.of allPages .plain fun _ => 7).resize ⟨1, 0⟩ 1 0x1000 = .ok (e, w', u) ∧
      (Machine.of allPages .plain fun _ => 7).server.resize ⟨1, 0⟩ 1 0x1000 = .ok (e, w'.server) ∧
      (Machine.of allPages .plain fun _ => 7).Answered w' ⟨1, ⟨1, 0⟩, [], 0, 1, 0x4000, 0⟩
        (Word.roundUp 0x1000 pageSize) u e :=
  (resize_exact allPages_run .plain (fun _ => 7) (allPages_ready _) ⟨1, 0⟩
    (d := ⟨1, ⟨1, 0⟩, [], 0, 1, 0x4000, 0⟩) allPages_get (by decide)).2.2

/-- The pages that are cut off become descriptor memory if that has too few of them. -/
theorem resize_cut_not_free : ¬∀ v : Server,
    Server.Run (fun v slab caller req => v.Safe slab caller req) v →
    ∀ (slab : Slab) (m : Memory), (Machine.of v slab m).server.st.Ready →
      ∀ caller d newSize w' u, v.get d.id = some d → newSize ≤ 0xfffff000 →
        (Machine.of v slab m).resize caller d.id newSize = .ok (none, w', u) →
        ∀ i x, newSize ≤ i → i < d.size → (Machine.of v slab m).server.addrOf d i = some x →
          w'.server.st.FreeByte d.pool x := by
  intro hall
  have hfacts : (match (Machine.of allPages .plain fun _ => 7).resize ⟨1, 0⟩ 1 0x1000 with
      | .ok (e, w, _) => e.isNone && decide ((w.server.st.pools 0).areaList = some 1 ∧
          w.server.st.areaNext 1 = some 4 ∧ w.server.st.areaNext 4 = some 8 ∧
          w.server.st.areaNext 8 = some 2 ∧ w.server.st.areaNext 2 = none) &&
          [1, 4, 8, 2].all w.server.st.used
      | .error _ => false) = true := by decide +kernel
  cases hr : (Machine.of allPages .plain fun _ => 7).resize ⟨1, 0⟩ 1 0x1000 with
  | error e =>
    rw [hr] at hfacts
    cases hfacts
  | ok r =>
    obtain ⟨e, w', u⟩ := r
    rw [hr] at hfacts
    simp only [Bool.and_eq_true, Option.isNone_iff_eq_none, decide_eq_true_eq,
      List.all_eq_true] at hfacts
    obtain ⟨⟨rfl, h0, h1, h4, h8, h2⟩, hused⟩ := hfacts
    obtain ⟨a, ⟨⟨L, hL, ha⟩, hfree⟩, -⟩ := hall allPages allPages_run .plain (fun _ => 7)
      (allPages_ready _) ⟨1, 0⟩ ⟨1, ⟨1, 0⟩, [], 0, 1, 0x4000, 0⟩ 0x1000 w' u allPages_get (by decide) hr
      0x1000 0x2000 le_rfl (by decide) (by decide +kernel)
    -- the area list has no other area than these four
    have hlist : L = [1, 4, 8, 2] := by
      refine (hL.2.isSList).unique ?_
      rw [← hL.1]
      exact ⟨h0, h1, h4, h8, h2⟩
    rw [hused a (hlist ▸ ha)] at hfree
    cases hfree

end L4env.DMphys
