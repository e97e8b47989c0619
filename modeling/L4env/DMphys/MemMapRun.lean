import L4env.DMphys.MemMapInv

/-!
# Runs of the memory map

`__reserve` and `__map` keep the map of one descriptor, as long as they do not cut its first area at
the beginning. `MemMap.Reachable` are the maps that a sequence of these two calls reaches after the
descriptors were inserted.
-/

namespace L4env.DMphys

section
variable {m m' : MemMap} {l l₁ l₂ : List Ptr} {a b : Ptr} {lo hi addr size : Nat}

theorem MapInv.length_le (I : MapInv m lo hi l) : l.length ≤ m.live.length := I.linked.length_le

/-- The end of an area that `__find_addr` found has not wrapped around. -/
theorem MapInv.areaEnd_eq (I : MapInv m lo hi (l₁ ++ a :: l₂)) (h : addr < m.areaEnd a) :
    m.areaEnd a = m.addr a + m.size a ∧ m.addr a + m.size a < 4294967296 := by
  obtain ⟨-, -, -, hhi, -⟩ := I.split
  have hb := I.bound
  have hlt : m.addr a + m.size a < 4294967296 := by
    by_contra hge
    have : m.areaEnd a = 0 := Word.add_eq_zero (by omega)
    omega
  exact ⟨Word.add_eq hlt, hlt⟩

/-- In a map without holes the area found starts at the address, or at the start of the map. -/
theorem MapInv.find_le (I : MapInv m lo hi (l₁ ++ a :: l₂)) (h : addr < m.areaEnd a)
    (hall : ∀ b ∈ l₁, m.areaEnd b ≤ addr) : m.addr a ≤ max addr lo := by
  have h1 := I.split.1
  rcases List.eq_nil_or_concat l₁ with rfl | ⟨l₀, b, rfl⟩
  · have : lo = m.addr a := h1
    omega
  · rw [List.concat_eq_append] at h1 hall
    obtain ⟨z, -, hz, he⟩ := spans_append.mp h1
    have he : z + m.size b = m.addr a := he
    have hlt := (I.areaEnd_eq h).2
    have := hall b (by simp)
    rw [MemMap.areaEnd, Word.add_eq (by omega)] at this
    omega

/-! ## `__reserve` -/

/-- The step of the loop of `__reserve` behind the area `a`: a reserved neighbour is joined. -/
theorem MapInv.join_next (I : MapInv m lo hi (l₁ ++ a :: l₂)) :
    ∃ l₁', MapInv (m.joinPrev a) lo hi ((l₁' ++ [a]) ++ l₂) ∧
      (m.joinPrev a).next a = l₂.head? ∧ Spans (m.joinPrev a) (m.addr a + m.size a) l₂ hi := by
  obtain ⟨l₁', I', he⟩ := I.joinPrev
  refine ⟨l₁', by simpa using I', I'.next_eq, ?_⟩
  have := I'.split.2.1
  rwa [he] at this

theorem MapInv.cutNeed (I : MapInv m lo hi (l₁ ++ a :: l₂)) (need : Nat) (hneed : 0 < need) :
    ∃ m' k₂, m.cutNeed a need = (true, m') ∧ MapInv m' lo hi (l₁ ++ a :: k₂) ∧
      m'.addr a = m.addr a ∧ (k₂ = l₂ ∨ m'.size a = need) := by
  unfold MemMap.cutNeed
  split
  next hlt =>
    obtain ⟨-, -, -, -, hs⟩ := I.split
    have he : Word.sub (m.size a) need = m.size a - need := Word.sub_eq (by omega) hs
    rw [he]
    rcases I.cutEnd (n := m.size a - need) (by omega) with ⟨-, h⟩ | ⟨-, p, m', heq, harea, I'⟩
    · omega
    · refine ⟨m', p :: l₂, heq, I', ?_, .inr ?_⟩
      · simp [MemMap.addr, harea]
      · simp only [MemMap.size] at harea hlt ⊢
        rw [harea]
        simp only
        omega
  · exact ⟨m, l₂, rfl, I, rfl, .inl rfl⟩

theorem reserveLoop_meets (hsize : size < 4294967296) (fuel : Nat) (got z : Nat) (I : MapInv m lo hi (l₁ ++ l₂))
    (hsp : Spans m z l₂ hi) (hgot : lo + got ≤ z) (hfuel : l₂.length + 1 < fuel) :
    Meets (MemMap.reserveLoop size fuel m l₂.head? got) (fun r => ∃ l, MapInv r.2 lo hi l)
      (fun e => e = .nullPointer ∧ got + (hi - z) < size) := by
  induction fuel generalizing m l₁ l₂ got z with
  | zero => omega
  | succ fuel ih =>
    unfold MemMap.reserveLoop
    split
    · exact ⟨_, I⟩
    next hlt =>
      cases l₂ with
      | nil =>
        have : z = hi := hsp
        exact ⟨rfl, by omega⟩
      | cons a l₂ =>
        obtain ⟨-, h2, -, hhi, -⟩ := I.split
        obtain ⟨hz, -⟩ := hsp
        have hb := I.small
        have hadd : Word.add got (m.size a) = got + m.size a := Word.add_eq (by omega)
        simp only [List.length_cons] at hfuel
        -- what is left to do behind an area that is reserved now
        have hnext : ∀ {m₁ : MemMap} {k₁ k₂ : List Ptr}, MapInv m₁ lo hi (k₁ ++ a :: k₂) →
            m₁.addr a = m.addr a → lo + got ≤ m₁.addr a → k₂.length + 1 < fuel ∨
              size ≤ got + m₁.size a ∧ 0 < fuel →
            Meets (MemMap.reserveLoop size fuel (m₁.joinPrev a) ((m₁.joinPrev a).next a)
              (Word.add got (m₁.size a))) (fun r => ∃ l, MapInv r.2 lo hi l)
              (fun e => e = .nullPointer ∧ got + (hi - z) < size) := by
          intro m₁ k₁ k₂ I₁ haddr hge hf
          obtain ⟨-, -, -, hhi₁, -⟩ := I₁.split
          have hadd₁ : Word.add got (m₁.size a) = got + m₁.size a := Word.add_eq (by omega)
          obtain ⟨k₁', I₂, hn, hs⟩ := I₁.join_next
          rw [hn, hadd₁]
          rcases hf with hf | ⟨hdone, hf⟩
          · refine (ih (got + m₁.size a) _ I₂ hs (by omega) hf).mono (fun _ h => h) ?_
            rintro e ⟨rfl, hlt'⟩
            exact ⟨rfl, by omega⟩
          · obtain ⟨fuel, rfl⟩ : ∃ k, fuel = k + 1 := ⟨fuel - 1, by omega⟩
            unfold MemMap.reserveLoop
            rw [if_pos hdone]
            exact ⟨_, I₂⟩
        -- an area that is neither reserved nor mapped is cut to the bytes needed
        have hsub : Word.sub size got = size - got := Word.sub_eq (by omega) hsize
        obtain ⟨m₁, k₂, heq, I₁, haddr, hk⟩ := I.cutNeed (size - got) (by omega)
        have I₂ : MapInv (m₁.setArea a ⟨m₁.addr a, m₁.size a, 0, 99, .reserved⟩) lo hi
            (l₁ ++ a :: k₂) := I₁.setArea rfl rfl
        have haddr₂ : (m₁.setArea a ⟨m₁.addr a, m₁.size a, 0, 99, .reserved⟩).addr a = m₁.addr a := by
          simp [MemMap.setArea, MemMap.addr]
        have hsize₂ : (m₁.setArea a ⟨m₁.addr a, m₁.size a, 0, 99, .reserved⟩).size a = m₁.size a := by
          simp [MemMap.setArea, MemMap.size]
        have hcut := hnext I₂ (haddr₂.trans haddr) (by omega) (by
          rcases hk with rfl | hk
          · exact .inl (by omega)
          · exact .inr ⟨by omega, by omega⟩)
        simp only [List.head?_cons]
        cases m.flags a with
        | reserved => exact hnext I rfl (by omega) (.inl (by omega))
        | mapped => exact ⟨_, I⟩
        | unused | denied =>
          rw [hsub, heq]
          exact hcut

/-- A reservation does not cut the first area of the map at its beginning. -/
def MemMap.ReserveSafe (m : MemMap) (addr : Nat) : Prop :=
  ∀ h, m.mem = some h → m.addr h < addr → addr < m.areaEnd h → addr < m.physMemHigh →
    m.flags h = .reserved ∨ m.flags h = .mapped

theorem MapInv.reserve (I : MapInv m lo hi l) (hsafe : m.ReserveSafe addr)
    (hsize : size < 4294967296) :
    Meets (m.reserve addr size) (fun r => ∃ l, MapInv r.2 lo hi l)
      (fun e => e = .nullPointer ∧ 0 < size ∧ hi < max addr lo + size) := by
  unfold MemMap.reserve
  rcases I.linked.findAddr addr with h0 | ⟨l₁, a, l₂, rfl, hfind, hhigh, hend, hall⟩
  · exact Meets.bind_ok h0 ⟨_, I⟩
  refine Meets.bind_ok hfind ?_
  simp only
  obtain ⟨h1, h2, hlo, hhi, hs⟩ := I.split
  obtain ⟨he, hlt⟩ := I.areaEnd_eq hend
  have hlen := I.length_le
  simp only [List.length_append, List.length_cons] at hlen
  unfold MemMap.reserveStart
  by_cases hle : m.addr a < addr
  · simp only [hle, if_true]
    have hsub : Word.sub addr (m.addr a) = addr - m.addr a := Word.sub_eq (by omega) (by omega)
    rw [hsub]
    have hhead : l₁ = [] → m.flags a = .reserved ∨ m.flags a = .mapped := by
      rintro rfl
      exact hsafe a I.links.1 hle hend hhigh
    cases hf : m.flags a with
    | reserved =>
      have hgot : Word.sub (m.size a) (addr - m.addr a) = m.size a - (addr - m.addr a) :=
        Word.sub_eq (by omega) hs
      have I' : MapInv m lo hi ((l₁ ++ [a]) ++ l₂) := by simpa using I
      simp only [hgot, I.next_eq]
      refine (reserveLoop_meets hsize _ _ _ I' h2 (by omega) (by omega)).mono (fun _ h => h) ?_
      rintro e ⟨rfl, hlt⟩
      exact ⟨rfl, by omega, by omega⟩
    | mapped => exact ⟨_, I⟩
    | unused | denied =>
      have hne : l₁ ≠ [] := fun h => by simp [hf] at hhead; exact hhead h
      rcases I.cutBegin hne (addr - m.addr a) with h0 | ⟨p, m', heq, -, haddr, I'⟩
      · rw [h0]; exact ⟨_, I⟩
      rw [heq]
      have hsp := I'.split
      have hlen' := I'.length_le
      simp only [List.length_append, List.length_cons, List.length_nil] at hlen'
      refine (reserveLoop_meets hsize _ 0 (m'.addr a) I' ⟨rfl, hsp.2.1⟩ (by omega)
        (by simp only [List.length_cons]; omega)).mono (fun _ h => h) ?_
      rintro e ⟨rfl, hlt⟩
      exact ⟨rfl, by omega, by omega⟩
  · simp only [hle, if_false]
    have := I.find_le hend hall
    refine (reserveLoop_meets hsize _ 0 (m.addr a) I ⟨rfl, h2⟩ (by omega)
      (by simp only [List.length_cons]; omega)).mono (fun _ h => h) ?_
    rintro e ⟨rfl, hlt⟩
    exact ⟨rfl, by omega, by omega⟩

/-! ## `__map` -/

/-- The map has the area `a` in front of `l₂`, and `a` is not its head. -/
def Inside (m : MemMap) (lo hi : Nat) (a : Ptr) (l₂ : List Ptr) : Prop :=
  ∃ l₁, l₁ ≠ [] ∧ MapInv m lo hi (l₁ ++ a :: l₂)

theorem Inside.markBegin (h : Inside m lo hi a l₂) (n pool ps : Nat) (fl : MemFlags) :
    Meets (m.markBegin a n pool ps fl) (fun r => Inside r.2 lo hi a l₂) (· ≠ .nullPointer) := by
  obtain ⟨l₁, hne, I⟩ := h
  unfold MemMap.markBegin
  split
  · exact ⟨l₁, hne, I.setArea rfl rfl⟩
  · rcases I.cutBegin hne n with h0 | ⟨p, m', heq, hprev, -, I'⟩
    · rw [h0]; exact ⟨l₁, hne, I⟩
    · simp only [heq, hprev]
      exact ⟨l₁ ++ [p], by simp, I'.setArea rfl rfl⟩

section
variable {v : MemMap.MapLoop} {g : MemMap.MapArgs}

@[simp] theorem advance_map (v : MemMap.MapLoop) (n : Nat) (granted : Bool) :
    (MemMap.advance v n granted).map = v.map := rfl

theorem Inside.markPending (h : Inside v.map lo hi a l₂) (pool : Nat) :
    Meets (MemMap.markPending v a pool) (fun r => Inside r.2 lo hi a l₂) (· ≠ .nullPointer) := by
  unfold MemMap.markPending
  split
  · split
    · exact h.markBegin _ _ _ _
    · exact h.markBegin _ _ _ _
  · exact h

theorem Inside.joinPage (h : Inside v.map lo hi a l₂) (pool bytes : Nat) (mapped is4M : Bool) :
    Meets (MemMap.joinPage v a pool bytes mapped is4M) (fun r => Inside r.2.map lo hi a l₂)
      (· ≠ .nullPointer) := by
  unfold MemMap.joinPage
  split
  · exact h
  · exact (h.markPending pool).bind fun r hr => hr

theorem Inside.smallPage (h : Inside v.map lo hi a l₂) (granted : Bool) :
    Meets (MemMap.smallPage g v a granted) (fun r => Inside r.2.map lo hi a l₂)
      (· ≠ .nullPointer) := by
  unfold MemMap.smallPage
  split
  · exact (h.joinPage _ _ _ _).bind fun r hr => hr
  · split
    · exact Fault.noConfusion
    · exact (h.joinPage _ _ _ _).bind fun r hr => hr

theorem Inside.mapPages (h : Inside v.map lo hi a l₂) (answers : List Bool) :
    Meets (MemMap.mapPages g a answers v) (fun r => Inside r.2.1.map lo hi a l₂)
      (· ≠ .nullPointer) := by
  -- two answers may be used in one round, so the induction is the function's own
  induction answers, v using MemMap.mapPages.induct (g := g) with
  | case1 v hdone => rw [MemMap.mapPages, if_pos hdone]; exact h
  | case2 v hdone => rw [MemMap.mapPages, if_neg hdone]; exact Fault.noConfusion
  | case3 b answers v hdone => rw [MemMap.mapPages.eq_def]; simp only [hdone, if_true]; exact h
  | case4 answers v hdone h4M ih =>
    rw [MemMap.mapPages.eq_def]
    simp only [hdone, h4M, if_false, if_true]
    refine (h.joinPage _ _ _ _).bind ?_
    rintro ⟨ok, v'⟩ h'
    cases ok with
    | true =>
      simp only [if_true]
      refine ih v' ?_
      rw [advance_map]
      exact h'
    | false => exact h'
  | case5 b v hdone h4M hb =>
    rw [MemMap.mapPages.eq_def]
    simp only [hdone, h4M, hb, if_false, if_true]
    exact Fault.noConfusion
  | case6 b v hdone h4M hb c answers ih =>
    rw [MemMap.mapPages.eq_def]
    simp only [hdone, h4M, hb, if_false, if_true]
    refine (h.smallPage c).bind ?_
    rintro ⟨ok, v'⟩ h'
    cases ok with
    | true => exact ih v' h'
    | false => exact h'
  | case7 b answers v hdone h4M ih =>
    rw [MemMap.mapPages.eq_def]
    simp only [hdone, h4M, if_false]
    refine (h.smallPage b).bind ?_
    rintro ⟨ok, v'⟩ h'
    cases ok with
    | true => exact ih v' h'
    | false => exact h'

/-- The loop over the areas starts behind the head, at a head that is in use, or above the range. -/
def MapFrom (m : MemMap) (g : MemMap.MapArgs) (lo hi : Nat) : Option Ptr → Prop
  | none => ∃ l, MapInv m lo hi l
  | some a => ∃ l₁ l₂, MapInv m lo hi (l₁ ++ a :: l₂) ∧
      (l₁ ≠ [] ∨ m.flags a ≠ .unused ∨ g.high ≤ m.addr a)

theorem MapFrom.mapAreas (fuel : Nat) {mp : Option Ptr} (h : MapFrom m g lo hi mp)
    (addr need : Nat) (answers : List Bool) :
    Meets (MemMap.mapAreas g fuel m mp addr need answers) (fun r => ∃ l, MapInv r.2.1 lo hi l)
      (· ≠ .nullPointer) := by
  induction fuel generalizing m mp addr need answers with
  | zero => exact Fault.noConfusion
  | succ fuel ih =>
    unfold MemMap.mapAreas
    split
    next hdone =>
      cases mp with
      | none => exact h
      | some a =>
        obtain ⟨l₁, l₂, I, -⟩ := h
        exact ⟨_, I⟩
    next hdone =>
      cases mp with
      | none => exact absurd (.inl rfl) hdone
      | some a =>
        obtain ⟨l₁, l₂, I, hpos⟩ := h
        obtain ⟨r, hr, hfound⟩ := I.linked.scan
          (fun a => !(decide (m.addr a < g.high) && m.flags a != .unused))
        rw [List.head?_cons] at hr
        rw [hr]
        cases r with
        | none => exact ⟨_, I⟩
        | some b =>
          simp only
          split
          · exact ⟨_, I⟩
          next hlow =>
            obtain ⟨hstop, k₁, k₂, heq, -⟩ := hfound b rfl
            have hunused : m.flags b = .unused := by
              have : m.addr b < g.high := by omega
              simpa [this] using hstop
            -- the area found is not the head of the map
            have hin : Inside m lo hi b k₂ := by
              refine ⟨l₁ ++ k₁, ?_, by rw [List.append_assoc, ← heq]; exact I⟩
              intro h0
              obtain ⟨rfl, rfl⟩ := List.append_eq_nil_iff.mp h0
              obtain ⟨rfl, -⟩ : a = b ∧ l₂ = k₂ := by simpa using heq
              rcases hpos with h | h | h
              · exact h rfl
              · exact h hunused
              · exact hlow h
            refine Meets.bind (hin.mapPages (v := { map := m, addr := m.addr b, left := _, need := need })
              answers) ?_
            rintro ⟨ok, v, answers'⟩ hv
            have hdone : ∀ {m' : MemMap}, Inside m' lo hi b k₂ → ∃ l, MapInv m' lo hi l :=
              fun ⟨l, _, I⟩ => ⟨_, I⟩
            cases ok with
            | false => exact hdone hv
            | true =>
              simp only [if_true]
              refine (hv.markPending g.pool).bind ?_
              rintro ⟨ok, m'⟩ hm
              cases ok with
              | false => exact hdone hm
              | true =>
                obtain ⟨l, hne, I'⟩ := hm
                have hfrom : MapFrom m' g lo hi (some b) := ⟨l, k₂, I', .inl hne⟩
                exact ih hfrom _ _ _

/-- `__map` does not cut the first area of the map at its beginning: the area is in use, or the range
to map does not reach it. -/
def MemMap.MapSafe (m : MemMap) (g : MemMap.MapArgs) : Prop :=
  ∀ h, m.mem = some h → m.flags h = .unused → g.low < m.areaEnd h → g.low < m.physMemHigh →
    g.low ≤ m.addr h ∧ g.high ≤ m.addr h

theorem MapInv.map (I : MapInv m lo hi l) (hsafe : m.MapSafe g) (answers : List Bool) :
    Meets (m.map g answers) (fun r => ∃ l, MapInv r.2 lo hi l) (· ≠ .nullPointer) := by
  have hend : ∀ {m' : MemMap} {mp : Option Ptr}, MapFrom m' g lo hi mp → ∀ addr need,
      Meets (MemMap.mapAreas g (answers.length + 1) m' mp addr need answers >>= fun r =>
        if r.1 = true ∧ g.size ≠ none ∧ 0 < r.2.2 then throw .notEnough else pure (r.1, r.2.1))
        (fun r => ∃ l, MapInv r.2 lo hi l) (· ≠ .nullPointer) := by
    intro m' mp h addr need
    refine (h.mapAreas _ addr need answers).bind ?_
    rintro ⟨ok, m'', need'⟩ h'
    simp only
    split
    · exact Fault.noConfusion
    · exact h'
  unfold MemMap.map
  rcases I.linked.findAddr g.low with h0 | ⟨l₁, a, l₂, rfl, hfind, hhigh, hfound, -⟩
  · exact Meets.bind_ok h0 ⟨_, I⟩
  refine Meets.bind_ok hfind ?_
  have hhead : l₁ = [] → m.flags a = .unused → g.low ≤ m.addr a ∧ g.high ≤ m.addr a := by
    rintro rfl hf
    exact hsafe a I.links.1 hf hfound hhigh
  unfold MemMap.mapStart
  by_cases hlow : m.addr a < g.low
  · by_cases hf : m.flags a = .unused
    · simp only [hlow, hf, if_true]
      have hne : l₁ ≠ [] := fun h => absurd (hhead h hf).1 (by omega)
      rcases I.cutBegin hne (Word.sub g.low (m.addr a)) with h0 | ⟨p, m', heq, -, -, I'⟩
      · rw [h0]; exact ⟨_, I⟩
      · rw [heq]
        have hfrom : MapFrom m' g lo hi (some a) := ⟨_, l₂, I', .inl (by simp)⟩
        exact hend hfrom _ _
    · simp only [hlow, hf, if_true, if_false]
      rw [I.next_eq]
      cases l₂ with
      | nil =>
        have hfrom : MapFrom m g lo hi none := ⟨_, I⟩
        exact hend hfrom _ _
      | cons b l₂ =>
        have hfrom : MapFrom m g lo hi (some b) := ⟨l₁ ++ [a], l₂, by simpa using I, .inl (by simp)⟩
        exact hend hfrom _ _
  · simp only [hlow, if_false]
    have hfrom : MapFrom m g lo hi (some a) := by
      refine ⟨l₁, l₂, I, ?_⟩
      by_cases hne : l₁ = []
      · by_cases hf : m.flags a = .unused
        · exact .inr (.inr (hhead hne hf).2)
        · exact .inr (.inl hf)
      · exact .inl hne
    exact hend hfrom _ _

end

end

/-! ## Runs -/

/-- Memory that `__setup_free_regions` inserts. -/
def MemDesc.ram (d : MemDesc) : Bool := d.conventional && !d.isVirtual

/-- The range of a descriptor in whole pages. -/
def MemDesc.first (d : MemDesc) : Nat := (d.start + 4095) / 4096 * 4096
def MemDesc.stop (d : MemDesc) : Nat := (d.last + 1) / 4096 * 4096

/-- The range in whole pages is not turned around by the rounding and is not all of the address
space, whose size is no word. -/
def MemDesc.Whole (d : MemDesc) : Prop := d.first ≤ d.stop ∧ d.stop < d.first + 4294967296

inductive MapOp
  | reserve (addr size : Nat)
  | map (g : MemMap.MapArgs) (answers : List Bool)

namespace MemMap

def exec (m : MemMap) : MapOp → Except Fault (Bool × MemMap)
  | .reserve addr size => m.reserve addr size
  | .map g answers => m.map g answers

/-- Calls that do not cut the first area of the map at its beginning. -/
def Safe (m : MemMap) : MapOp → Prop
  | .reserve addr size => m.ReserveSafe addr ∧ size < 4294967296
  | .map g _ => m.MapSafe g

/-- The maps that calls in `G` reach after the descriptors were inserted. -/
inductive Reachable (G : MemMap → MapOp → Prop) (descs : List MemDesc) : MemMap → Prop
  | init {m₀ m : MemMap} : m₀.mem = none → setupFreeRegions descs m₀ = .ok m → Reachable G descs m
  | step {m m' : MemMap} {op : MapOp} {ok : Bool} : Reachable G descs m → G m op →
    m.exec op = .ok (ok, m') → Reachable G descs m'

/-- The map is linked both ways, in order, disjoint, and holds the memory of the descriptors. -/
def Keeps (m : MemMap) (descs : List MemDesc) : Prop :=
  ∃ l, IsDList m.next m.prev m.mem l ∧
    (l.Pairwise fun a b => m.addr a + m.size a ≤ m.addr b) ∧
    ∀ x, (∃ a ∈ l, m.addr a ≤ x ∧ x < m.addr a + m.size a) ↔
      ∃ d ∈ descs, d.ram = true ∧ d.first ≤ x ∧ x < d.stop

end MemMap

/-- A reservation inside the memory of a descriptor. -/
def MapOp.Fits (descs : List MemDesc) : MapOp → Prop
  | .reserve addr size => ∃ d ∈ descs, d.ram = true ∧ max addr d.first + size ≤ d.stop
  | .map _ _ => True

/-- The map holds the memory between `lo` and `hi`, which is that of the descriptors. -/
structure MapGood (m : MemMap) (descs : List MemDesc) (lo hi : Nat) : Prop where
  inv : ∃ l, MapInv m lo hi l
  cover : ∀ x, lo ≤ x ∧ x < hi ↔ ∃ d ∈ descs, d.ram = true ∧ d.first ≤ x ∧ x < d.stop
  fits : ∀ addr size, (∃ d ∈ descs, d.ram = true ∧ max addr d.first + size ≤ d.stop) →
    size = 0 ∨ max addr lo + size ≤ hi

section
variable {m m' : MemMap} {descs : List MemDesc} {lo hi : Nat}

theorem MapInv.empty (h : m.mem = none) : MapInv m 0 0 [] :=
  ⟨⟨h, trivial⟩, .nil, by simp, rfl, by decide, by decide⟩

theorem MemDesc.round_eq {d : MemDesc} (hd : d.start ≤ d.last) (hd' : d.last < 4294967296) :
    Word.roundUp d.start pageSize = d.first % 4294967296 ∧
      Word.roundDown (Word.add d.last 1) pageSize = d.stop % 4294967296 := by
  have hpage : pageSize = 2 ^ 12 := rfl
  rw [hpage]
  constructor
  · rw [Word.roundUp_two_pow (by omega) (by decide)]
    rfl
  · by_cases h : d.last + 1 < 4294967296
    · rw [Word.add_eq h, Word.roundDown_two_pow h (by decide)]
      have : d.stop < 4294967296 := by unfold MemDesc.stop; omega
      rw [Nat.mod_eq_of_lt this]
      rfl
    · rw [Word.add_eq_zero (by omega), Word.roundDown_two_pow (by decide) (by decide)]
      simp only [MemDesc.stop, show d.last + 1 = 4294967296 by omega]
      decide

/-- The first descriptor of an empty map. -/
theorem insertDesc_empty {d : MemDesc} (h : m.mem = none) (hd : d.start ≤ d.last)
    (hd' : d.last < 4294967296) (hw : d.Whole) :
    ∃ m', m.insertDesc d = .ok m' ∧ MapInv m' (d.first % 4294967296)
      (d.first % 4294967296 + (d.stop - d.first)) [m.pick m.live] := by
  obtain ⟨e1, e2⟩ := d.round_eq hd hd'
  have e3 : Word.sub (d.stop % 4294967296) (d.first % 4294967296) = d.stop - d.first :=
    Word.sub_mod hw.1 hw.2
  have hstop : d.stop ≤ 4294967296 := by unfold MemDesc.stop; omega
  have hw1 := hw.1
  have hw2 := hw.2
  simp only [MemMap.insertDesc, MemMap.insertRam, MemMap.allocMemmapDesc, h, if_true, e1, e2, e3]
  refine ⟨_, rfl, ⟨rfl, ?_⟩, by simp, by simp, ?_, by omega, by omega⟩
  · exact ⟨by simp, by simp, trivial⟩
  · refine ⟨by simp [MemMap.addr], ?_⟩
    simp [MemMap.size, Spans]

theorem setup_no_ram (h : ∀ d ∈ descs, d.ram = false) : MemMap.setupFreeRegions descs m = .ok m := by
  induction descs with
  | nil => rfl
  | cons d ds ih =>
    have hd : (d.conventional && !d.isVirtual) = false := h d (by simp)
    simp only [MemMap.setupFreeRegions, hd]
    exact ih fun d hd => h d (by simp [hd])

/-- At most one descriptor is inserted. -/
theorem setup_good (hd : ∀ d ∈ descs, d.start ≤ d.last ∧ d.last < 4294967296)
    (h1 : descs.countP MemDesc.ram ≤ 1) (hw : ∀ d ∈ descs, d.ram = true → d.Whole) (h : m.mem = none)
    (hs : MemMap.setupFreeRegions descs m = .ok m') : ∃ lo hi, MapGood m' descs lo hi := by
  induction descs with
  | nil =>
    cases hs
    exact ⟨0, 0, ⟨_, .empty h⟩, by simp, by simp⟩
  | cons d ds ih =>
    cases hr : d.ram with
    | false =>
      have hr' : (d.conventional && !d.isVirtual) = false := hr
      simp only [MemMap.setupFreeRegions, hr'] at hs
      rw [List.countP_cons_of_neg (by simp [hr])] at h1
      obtain ⟨lo, hi, g⟩ := ih (fun d hd' => hd d (by simp [hd'])) h1
        (fun d hd' => hw d (by simp [hd'])) hs
      exact ⟨lo, hi, g.inv, by simpa [hr] using g.cover, by simpa [hr] using g.fits⟩
    | true =>
      have hr' : (d.conventional && !d.isVirtual) = true := hr
      rw [List.countP_cons_of_pos (by simp [hr])] at h1
      have hno : ∀ e ∈ ds, e.ram = false := by
        intro e he
        by_contra h
        have := List.countP_pos_iff.mpr ⟨e, he, by simpa using h⟩
        omega
      obtain ⟨hd1, hd2⟩ := hd d (by simp)
      have hwd := hw d (by simp) hr
      have hle := hwd.1
      have hlt := hwd.2
      obtain ⟨m₁, heq, I⟩ := insertDesc_empty h hd1 hd2 hwd
      simp only [MemMap.setupFreeRegions, hr', if_true, heq, ok_bind, setup_no_ram hno] at hs
      cases hs
      have hstop : d.stop ≤ 4294967296 := by unfold MemDesc.stop; omega
      have honly : ∀ P : MemDesc → Prop, (∃ e ∈ d :: ds, e.ram = true ∧ P e) ↔ P d := by
        intro P
        constructor
        · rintro ⟨e, he, her, hP⟩
          rcases List.mem_cons.mp he with rfl | he
          · exact hP
          · simp [hno e he] at her
        · exact fun hP => ⟨d, by simp, hr, hP⟩
      refine ⟨_, _, ⟨_, I⟩, fun x => ?_, fun addr size hf => ?_⟩
      · rw [honly]
        omega
      · rw [honly] at hf
        omega

theorem MapGood.keeps (g : MapGood m descs lo hi) : m.Keeps descs := by
  obtain ⟨l, I⟩ := g.inv
  exact ⟨l, I.links, I.spans.sorted.2, fun x => (I.spans.cover x).trans (g.cover x)⟩

theorem MapGood.exec (g : MapGood m descs lo hi) {op : MapOp} (hs : m.Safe op) :
    Meets (m.exec op) (fun r => MapGood r.2 descs lo hi)
      (fun e => e = .nullPointer → ¬op.Fits descs) := by
  obtain ⟨l, I⟩ := g.inv
  cases op with
  | reserve addr size =>
    refine (I.reserve hs.1 hs.2).mono (fun r hr => ⟨hr, g.cover, g.fits⟩) ?_
    rintro e ⟨-, hpos, hlt⟩ - hf
    have := g.fits addr size hf
    omega
  | map gs answers =>
    exact (I.map hs answers).mono (fun r hr => ⟨hr, g.cover, g.fits⟩) fun e he h => absurd h he

/-- The map of at most one descriptor keeps all its memory, in any run of calls that do not cut its
first area at the beginning. -/
theorem memmap_keeps_memory (hd : ∀ d ∈ descs, d.start ≤ d.last ∧ d.last < 4294967296)
    (h1 : descs.countP MemDesc.ram ≤ 1) (hw : ∀ d ∈ descs, d.ram = true → d.Whole)
    (h : MemMap.Reachable (fun m op => m.Safe op) descs m) :
    m.Keeps descs ∧
      ∀ op, m.Safe op → op.Fits descs → m.exec op ≠ .error .nullPointer := by
  have hgood : ∃ lo hi, MapGood m descs lo hi := by
    induction h with
    | init h0 hs => exact setup_good hd h1 hw h0 hs
    | step _ hsafe heq ih =>
      obtain ⟨lo, hi, g⟩ := ih
      exact ⟨lo, hi, (g.exec hsafe).post heq⟩
  obtain ⟨lo, hi, g⟩ := hgood
  exact ⟨g.keeps, fun op hs hf he => (g.exec hs).fail he rfl hf⟩

/-- An empty memory map on a machine with 16 MB. -/
def emptyMap : MemMap where
  area _ := ⟨0, 0, 0, 99, .unused⟩
  prev _ := none
  next _ := none
  live := []
  pick live := live.sum + 1
  pick_not_mem := sum_succ_not_mem
  mem := none
  physMemLow := 0
  physMemHigh := 0x1000000
  memLow := 0
  memHigh := 0x1000000

/-- The map after the descriptors were inserted and some calls were made. -/
def MemMap.after (descs : List MemDesc) (ops : List MapOp) : MemMap :=
  ops.foldl (fun m op => ((m.exec op).toOption.map Prod.snd).getD m)
    ((MemMap.setupFreeRegions descs emptyMap).toOption.getD emptyMap)

theorem MemMap.Reachable.setup {G : MemMap → MapOp → Prop}
    (h : (MemMap.setupFreeRegions descs emptyMap).toBool = true) :
    MemMap.Reachable G descs (MemMap.after descs []) := by
  cases hr : MemMap.setupFreeRegions descs emptyMap with
  | ok m =>
    refine .init rfl (hr.trans ?_)
    simp [MemMap.after, hr, Except.toOption]
  | error e => simp [hr, Except.toBool] at h

theorem MemMap.Reachable.next {G : MemMap → MapOp → Prop} (ops : List MapOp) {op : MapOp}
    (h : MemMap.Reachable G descs (MemMap.after descs ops)) (hg : G (MemMap.after descs ops) op)
    (hok : ((MemMap.after descs ops).exec op).toBool = true) :
    MemMap.Reachable G descs (MemMap.after descs (ops ++ [op])) := by
  cases hr : (MemMap.after descs ops).exec op with
  | ok r =>
    have heq : MemMap.after descs (ops ++ [op]) = r.2 := by
      rw [MemMap.after, List.foldl_append, List.foldl_cons, List.foldl_nil, ← MemMap.after, hr]
      rfl
    rw [heq]
    exact .step h hg hr
  | error e => simp [hr, Except.toBool] at hok

/-- One descriptor whose first page is reserved: a later reservation cuts another area. -/
theorem memmap_keeps_memory_one :
    (MemMap.after [⟨0, 0xffffff, true, false⟩] [.reserve 0 0x1000]).Keeps
      [⟨0, 0xffffff, true, false⟩] ∧
    (MemMap.after [⟨0, 0xffffff, true, false⟩] [.reserve 0 0x1000]).exec
      (.reserve 0x9000 0x1000) ≠ .error .nullPointer := by
  have hreach : MemMap.Reachable (fun m op => m.Safe op) [⟨0, 0xffffff, true, false⟩]
      (MemMap.after [⟨0, 0xffffff, true, false⟩] [.reserve 0 0x1000]) := by
    refine MemMap.Reachable.next [] (.setup (by decide +kernel)) ⟨?_, by decide⟩
      (by decide +kernel)
    exact fun h _ hlt => absurd hlt (Nat.not_lt_zero _)
  have hmem : (MemMap.after [⟨0, 0xffffff, true, false⟩] [.reserve 0 0x1000]).mem = some 1 := by
    decide +kernel
  have hflags : (MemMap.after [⟨0, 0xffffff, true, false⟩] [.reserve 0 0x1000]).flags 1 = .reserved := by
    decide +kernel
  obtain ⟨hkeeps, hop⟩ := @memmap_keeps_memory _ [⟨0, 0xffffff, true, false⟩] (by decide)
    (by decide) (by simp [MemDesc.Whole, MemDesc.first, MemDesc.stop]) hreach
  refine ⟨hkeeps, hop _ ⟨?_, by decide⟩ ?_⟩
  · intro h hh _ _ _
    cases hmem.symm.trans hh
    exact .inl hflags
  · exact ⟨_, List.mem_singleton_self _, by decide, by decide⟩

/-- The second descriptor of a map is not linked back to the first. -/
theorem memmap_second_descriptor : ¬∀ descs m,
    (∀ d ∈ descs, d.start ≤ d.last ∧ d.last < 4294967296) →
    (descs.Pairwise fun d e => d.last < e.start ∨ e.last < d.start) →
    MemMap.Reachable (fun _ _ => True) descs m → m.Keeps descs := by
  intro h
  obtain ⟨l, ⟨hhead, hlinks⟩, -, -⟩ := h [⟨0, 0x1fff, true, false⟩, ⟨0x4000, 0x5fff, true, false⟩]
    (MemMap.after [⟨0, 0x1fff, true, false⟩, ⟨0x4000, 0x5fff, true, false⟩] []) (by decide) (by decide)
    (.setup (by decide +kernel))
  have hl : l = [1, 2] := by
    refine hlinks.isSList.unique ?_
    rw [← hhead]
    have hend : (MemMap.after [⟨0, 0x1fff, true, false⟩, ⟨0x4000, 0x5fff, true, false⟩] []).next 2 = none := by
      decide +kernel
    exact ⟨by decide +kernel, by decide +kernel, hend⟩
  subst hl
  have hback : (MemMap.after [⟨0, 0x1fff, true, false⟩, ⟨0x4000, 0x5fff, true, false⟩] []).prev 2 ≠ some 1 := by
    decide +kernel
  exact hback hlinks.2.2.1

end

end L4env.DMphys
