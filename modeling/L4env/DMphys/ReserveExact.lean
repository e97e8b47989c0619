import L4env.DMphys.MemMapRun

/-!
# Reservations in a map with holes

What `__reserve` does to a map whose areas are disjoint, with holes between them. The map says about a
page what the area says that covers it (`Shows`). The loop of `__reserve` counts the bytes of the areas
it comes to, so that it stays within its range as long as there is no hole; `Walk` follows it.
-/

namespace L4env.DMphys

/-- What the map says about a page. The pool and the page size of an area matter only if it is mapped. -/
inductive PageState
  | unused
  | mapped (pool pagesize : Nat)
  | reserved
  | denied
  deriving DecidableEq

def MemArea.state (x : MemArea) : PageState :=
  match x.flags with
  | .unused => .unused
  | .mapped => .mapped x.pool x.pagesize
  | .reserved => .reserved
  | .denied => .denied

def MemArea.stop (x : MemArea) : Nat := x.addr + x.size

def MemArea.Covers (x : MemArea) (w : Nat) : Prop := x.addr ≤ w ∧ w < x.stop

/-- An area covers the address and has this state. -/
def Shows (A : List MemArea) (w : Nat) (s : PageState) : Prop := ∃ x ∈ A, x.Covers w ∧ x.state = s

/-- Disjoint areas in order, which do not wrap around. -/
structure Apart (A : List MemArea) : Prop where
  apart : A.Pairwise fun x y => x.stop ≤ y.addr
  bound : ∀ x ∈ A, x.stop ≤ 4294967296 ∧ x.size < 4294967296

/-- An address that no area covers. -/
def Gap (A : List MemArea) : Prop := ∃ w < 4294967296, ∀ x ∈ A, ¬x.Covers w

/-- The area `x` is cut into `y` and `v`. -/
structure Pieces (x y v : MemArea) : Prop where
  left : y.addr = x.addr
  mid : v.addr = y.stop
  right : v.stop = x.stop

section
variable {A A₁ A₂ : List MemArea} {x y v : MemArea} {w : Nat} {s : PageState}

theorem shows_append : Shows (A₁ ++ A₂) w s ↔ Shows A₁ w s ∨ Shows A₂ w s := by
  simp only [Shows, List.mem_append, or_and_right, exists_or]

theorem shows_cons : Shows (x :: A) w s ↔ (x.Covers w ∧ x.state = s) ∨ Shows A w s := by
  simp only [Shows, List.mem_cons, or_and_right, exists_or, exists_eq_left]

theorem apart_mid : Apart (A₁ ++ x :: A₂) ↔ Apart (A₁ ++ A₂) ∧ (x.stop ≤ 4294967296 ∧ x.size < 4294967296) ∧
    (∀ y ∈ A₁, y.stop ≤ x.addr) ∧ ∀ y ∈ A₂, x.stop ≤ y.addr := by
  constructor
  · rintro ⟨hapart, hbound⟩
    obtain ⟨h₁, h₂, h₁₂⟩ := List.pairwise_append.mp hapart
    obtain ⟨hx, h₂⟩ := List.pairwise_cons.mp h₂
    refine ⟨⟨List.pairwise_append.mpr ⟨h₁, h₂, fun y hy v hv => ?_⟩, fun y hy => ?_⟩, ?_, fun y hy => ?_, hx⟩
    · exact h₁₂ y hy v (List.mem_cons_of_mem x hv)
    · exact hbound y (by rw [List.mem_append] at hy ⊢; exact hy.imp id (List.mem_cons_of_mem x))
    · exact hbound x (by simp)
    · exact h₁₂ y hy x List.mem_cons_self
  · rintro ⟨⟨hapart, hbound⟩, hx, hbefore, hbehind⟩
    obtain ⟨h₁, h₂, h₁₂⟩ := List.pairwise_append.mp hapart
    refine ⟨List.pairwise_append.mpr ⟨h₁, List.pairwise_cons.mpr ⟨hbehind, h₂⟩, fun y hy v hv => ?_⟩,
      fun y hy => ?_⟩
    · obtain rfl | hv := List.mem_cons.mp hv
      · exact hbefore y hy
      · exact h₁₂ y hy v hv
    · obtain hy | hy := List.mem_append.mp hy
      · exact hbound y (List.mem_append_left A₂ hy)
      obtain rfl | hy := List.mem_cons.mp hy
      · exact hx
      · exact hbound y (List.mem_append_right A₁ hy)

/-- The area that covers an address says everything about it. -/
theorem Apart.shows_of_covers (h : Apart (A₁ ++ x :: A₂)) (hw : x.Covers w) :
    Shows (A₁ ++ x :: A₂) w s ↔ x.state = s := by
  obtain ⟨-, -, hbefore, hbehind⟩ := apart_mid.mp h
  constructor
  · rintro ⟨y, hy, hcov, hs⟩
    obtain hy | hy := List.mem_append.mp hy
    · have := hbefore y hy
      have := hcov.2
      have := hw.1
      omega
    obtain rfl | hy := List.mem_cons.mp hy
    · exact hs
    · have := hbehind y hy
      have := hcov.1
      have := hw.2
      omega
  · intro hs
    exact ⟨x, by simp, hw, hs⟩

theorem shows_of_not_covers (hw : ¬x.Covers w) : Shows (A₁ ++ x :: A₂) w s ↔ Shows (A₁ ++ A₂) w s := by
  rw [shows_append, shows_cons, shows_append]
  exact or_congr_right (or_iff_right fun h => hw h.1)

/-- An area that is replaced by one with the same range. -/
theorem Apart.replace (h : Apart (A₁ ++ x :: A₂)) (haddr : y.addr = x.addr) (hsize : y.size = x.size) :
    Apart (A₁ ++ y :: A₂) := by
  rw [apart_mid, MemArea.stop, haddr, hsize]
  exact apart_mid.mp h

theorem Gap.replace (h : Gap (A₁ ++ x :: A₂)) (haddr : y.addr = x.addr) (hsize : y.size = x.size) :
    Gap (A₁ ++ y :: A₂) := by
  obtain ⟨w, hw, hnone⟩ := h
  have hx := hnone x (by simp)
  refine ⟨w, hw, fun v hv => ?_⟩
  obtain hv | hv := List.mem_append.mp hv
  · exact hnone v (List.mem_append_left _ hv)
  obtain rfl | hv := List.mem_cons.mp hv
  · rwa [MemArea.Covers, MemArea.stop, haddr, hsize]
  · exact hnone v (List.mem_append_right _ (List.mem_cons_of_mem x hv))

/-! ## An area in two pieces -/

theorem Pieces.covers (h : Pieces x y v) : x.Covers w ↔ y.Covers w ∨ v.Covers w := by
  have hleft := h.left
  have hmid := h.mid
  have hright := h.right
  simp only [MemArea.Covers, MemArea.stop] at *
  omega

theorem Pieces.shows (h : Pieces x y v) (hy : y.state = x.state) (hv : v.state = x.state) :
    Shows (A₁ ++ y :: v :: A₂) w s ↔ Shows (A₁ ++ x :: A₂) w s := by
  rw [shows_append, shows_cons, shows_cons, shows_append, shows_cons, h.covers, hy, hv, or_and_right,
    or_assoc]

theorem Pieces.gap (h : Pieces x y v) : Gap (A₁ ++ y :: v :: A₂) ↔ Gap (A₁ ++ x :: A₂) := by
  refine exists_congr fun w => and_congr_right fun _ => ?_
  simp only [List.mem_append, List.mem_cons, or_imp, forall_and, forall_eq, h.covers, not_or, and_assoc]

theorem Apart.cut (h : Apart (A₁ ++ x :: A₂)) (hp : Pieces x y v) : Apart (A₁ ++ y :: v :: A₂) := by
  obtain ⟨hrest, hx, hbefore, hbehind⟩ := apart_mid.mp h
  have hleft := hp.left
  have hmid := hp.mid
  have hright := hp.right
  simp only [MemArea.stop] at hx hmid hright
  refine apart_mid.mpr ⟨apart_mid.mpr ⟨hrest, ?_, fun e he => ?_, fun e he => ?_⟩, ?_, fun e he => ?_,
    fun e he => ?_⟩
  · simp only [MemArea.stop]
    omega
  · have := hbefore e he
    omega
  · have := hbehind e he
    simp only [MemArea.stop] at this ⊢
    omega
  · simp only [MemArea.stop]
    omega
  · have := hbefore e he
    omega
  · obtain rfl | he := List.mem_cons.mp he
    · exact hp.mid.ge
    · have := hbehind e he
      simp only [MemArea.stop] at this ⊢
      omega

theorem Apart.merge (h : Apart (A₁ ++ y :: v :: A₂)) (hgap : Gap (A₁ ++ y :: v :: A₂)) (hp : Pieces x y v) :
    Apart (A₁ ++ x :: A₂) := by
  obtain ⟨hrest, hy, hbefore, -⟩ := apart_mid.mp h
  obtain ⟨hrest, hv, -, hbehind⟩ := apart_mid.mp hrest
  have hleft := hp.left
  have hright := hp.right
  refine apart_mid.mpr ⟨hrest, ⟨hright ▸ hv.1, ?_⟩, fun e he => ?_, fun e he => ?_⟩
  · -- the joined area is not the whole address space
    obtain ⟨w, hw, hnone⟩ := hp.gap.mp hgap
    have hx := hnone x (by simp)
    have hstop := hright ▸ hv.1
    simp only [MemArea.Covers, MemArea.stop] at hx hstop
    omega
  · exact hleft ▸ hbefore e he
  · exact hright ▸ hbehind e he

end

/-! ## The areas of the list -/

/-- What is found in the list that starts at `mem`. -/
def MemMap.PageAt (m : MemMap) (w : Nat) (s : PageState) : Prop :=
  ∃ l, IsSList m.next m.mem l ∧ Shows (l.map m.area) w s

structure AreasInv (m : MemMap) (l : List Ptr) : Prop where
  linked : Linked m l
  apart : Apart (l.map m.area)
  gap : Gap (l.map m.area)

section
variable {m m' : MemMap} {l l₁ l₂ : List Ptr} {a b p : Ptr} {w : Nat} {s : PageState}

theorem Linked.pageAt (L : Linked m l) : m.PageAt w s ↔ Shows (l.map m.area) w s := by
  have hl : IsSList m.next m.mem l := L.links.1 ▸ L.links.2.isSList
  constructor
  · rintro ⟨l', hl', h⟩
    rwa [hl.unique hl']
  · exact fun h => ⟨l, hl, h⟩

theorem map_mid (h : ∀ e ∈ l₁ ++ l₂, m'.area e = m.area e) :
    (l₁ ++ a :: l₂).map m'.area = l₁.map m.area ++ m'.area a :: l₂.map m.area := by
  rw [List.map_append, List.map_cons, List.map_congr_left fun e he => h e (List.mem_append_left l₂ he),
    List.map_congr_left fun e he => h e (List.mem_append_right l₁ he)]

/-- The map after an area was cut in two, `a` followed by `b`. -/
theorem AreasInv.cut (A : AreasInv m (l₁ ++ p :: l₂)) (L : Linked m' (l₁ ++ a :: b :: l₂))
    (hrest : ∀ e ∈ l₁ ++ l₂, m'.area e = m.area e) (hp : Pieces (m.area p) (m'.area a) (m'.area b))
    (ha : (m'.area a).state = (m.area p).state) (hb : (m'.area b).state = (m.area p).state) :
    AreasInv m' (l₁ ++ a :: b :: l₂) ∧ ∀ w s,
      Shows ((l₁ ++ a :: b :: l₂).map m'.area) w s ↔ Shows ((l₁ ++ p :: l₂).map m.area) w s := by
  have hnew : (l₁ ++ a :: b :: l₂).map m'.area =
      l₁.map m.area ++ m'.area a :: m'.area b :: l₂.map m.area := by
    rw [List.map_append, List.map_cons, List.map_cons,
      List.map_congr_left fun e he => hrest e (List.mem_append_left l₂ he),
      List.map_congr_left fun e he => hrest e (List.mem_append_right l₁ he)]
  have hold : (l₁ ++ p :: l₂).map m.area = l₁.map m.area ++ m.area p :: l₂.map m.area :=
    map_mid fun e _ => rfl
  obtain ⟨-, hapart, hgap⟩ := A
  rw [hold] at hapart hgap ⊢
  rw [hnew]
  refine ⟨⟨L, ?_, ?_⟩, fun w s => hp.shows ha hb⟩
  · rw [hnew]
    exact hapart.cut hp
  · rw [hnew]
    exact hp.gap.mpr hgap

/-- A part of `__reserve`: the area is cut to what is needed if it is larger. -/
theorem AreasInv.cutNeed (A : AreasInv m (l₁ ++ a :: l₂)) {need : Nat} (hneed : 0 < need) :
    ∃ m' k₂, m.cutNeed a need = (true, m') ∧ AreasInv m' (l₁ ++ a :: k₂) ∧
      m'.addr a = m.addr a ∧ m'.flags a = m.flags a ∧ m'.size a ≤ need ∧
      (∀ e ∈ l₁, m'.area e = m.area e) ∧
      (k₂ = l₂ ∧ k₂.map m'.area = l₂.map m.area ∧ (m'.area a).stop = (m.area a).stop ∨ m'.size a = need) ∧
      ∀ w s, Shows ((l₁ ++ a :: k₂).map m'.area) w s ↔ Shows ((l₁ ++ a :: l₂).map m.area) w s := by
  unfold MemMap.cutNeed
  by_cases hlt : need < m.size a
  swap
  · exact ⟨m, l₂, if_neg hlt, A, rfl, rfl, Nat.not_lt.mp hlt, fun e _ => rfl, .inl ⟨rfl, rfl, rfl⟩,
      fun w s => Iff.rfl⟩
  have hapart := A.apart
  rw [map_mid fun e _ => rfl] at hapart
  obtain ⟨-, ⟨hstop, hsize⟩, -⟩ := apart_mid.mp hapart
  have hsize : m.size a < 4294967296 := hsize
  have hstop : m.addr a + m.size a ≤ 4294967296 := hstop
  have e1 : Word.sub (m.size a) need = m.size a - need := Word.sub_eq (by omega) hsize
  have e2 : Word.sub (m.size a) (m.size a - need) = need := by
    rw [Word.sub_eq (by omega) hsize]
    omega
  have e3 : Word.add (m.addr a) need = m.addr a + need := Word.add_eq (by omega)
  obtain ⟨p, m', heq, L, ha, hp, hrest⟩ := A.linked.cutEnd (n := m.size a - need) (by omega)
  rw [e2] at ha hp
  rw [e3] at hp
  have hpieces : Pieces (m.area a) (m'.area a) (m'.area p) := by
    rw [ha, hp]
    refine ⟨rfl, rfl, ?_⟩
    show m.addr a + need + (m.size a - need) = m.addr a + m.size a
    omega
  obtain ⟨A', hshows⟩ := A.cut L hrest hpieces (by rw [ha]; rfl) (by rw [hp]; rfl)
  have hneeded : m'.size a = need := by rw [MemMap.size, ha]
  refine ⟨m', p :: l₂, ?_, A', ?_, ?_, hneeded.le, fun e he => hrest e (List.mem_append_left l₂ he),
    .inr hneeded, hshows⟩
  · rw [if_pos hlt, e1]
    exact heq
  · rw [MemMap.addr, ha]
    rfl
  · rw [MemMap.flags, ha]
    rfl

theorem setArea_of_ne {x : MemArea} (h : b ≠ a) : (m.setArea a x).area b = m.area b := by
  rw [show (m.setArea a x).area = Function.update m.area a x from rfl, Function.update_of_ne h]

/-- An area becomes reserved. -/
theorem AreasInv.mark (A : AreasInv m (l₁ ++ a :: l₂)) :
    AreasInv (m.setArea a ⟨m.addr a, m.size a, 0, 99, .reserved⟩) (l₁ ++ a :: l₂) ∧ ∀ w s,
      Shows ((l₁ ++ a :: l₂).map (m.setArea a ⟨m.addr a, m.size a, 0, 99, .reserved⟩).area) w s ↔
        if m.addr a ≤ w ∧ w < m.addr a + m.size a then s = .reserved
        else Shows ((l₁ ++ a :: l₂).map m.area) w s := by
  have hrest : ∀ e ∈ l₁ ++ l₂,
      (m.setArea a ⟨m.addr a, m.size a, 0, 99, .reserved⟩).area e = m.area e := fun e he =>
    setArea_of_ne (A.linked.ne_mid he)
  have hself : (m.setArea a ⟨m.addr a, m.size a, 0, 99, .reserved⟩).area a =
      ⟨m.addr a, m.size a, 0, 99, .reserved⟩ := Function.update_self ..
  obtain ⟨L, hapart, hgap⟩ := A
  rw [map_mid fun e _ => rfl] at hapart hgap
  have hapart' := hapart.replace (y := ⟨m.addr a, m.size a, 0, 99, .reserved⟩) rfl rfl
  refine ⟨⟨L.setArea _, ?_, ?_⟩, fun w s => ?_⟩
  · rwa [map_mid hrest, hself]
  · rw [map_mid hrest, hself]
    exact hgap.replace rfl rfl
  · rw [map_mid hrest, hself, map_mid fun e _ => rfl]
    split
    · rename_i hw
      rw [hapart'.shows_of_covers hw, eq_comm]
      rfl
    · rename_i hw
      have hw' : ¬(m.area a).Covers w := hw
      rw [shows_of_not_covers hw']
      exact shows_of_not_covers hw

/-- A reserved area is joined with the area in front, which has no hole behind it if it is reserved. -/
theorem AreasInv.join (A : AreasInv m (l₁ ++ a :: l₂)) (hr : m.flags a = .reserved)
    (hjoint : ∀ b, l₁.getLast? = some b → m.flags b = .reserved → (m.area b).stop = m.addr a) :
    ∃ l₁', AreasInv (m.joinPrev a) (l₁' ++ a :: l₂) ∧ ((m.joinPrev a).area a).stop = (m.area a).stop ∧
      l₂.map (m.joinPrev a).area = l₂.map m.area ∧ ∀ w s,
      Shows ((l₁' ++ a :: l₂).map (m.joinPrev a).area) w s ↔ Shows ((l₁ ++ a :: l₂).map m.area) w s := by
  by_cases hnone : ∀ b, l₁.getLast? = some b → m.flags b ≠ .reserved
  · rw [A.linked.joinPrev_of_ne hnone]
    exact ⟨l₁, A, rfl, rfl, fun w s => Iff.rfl⟩
  obtain ⟨b, hlast, hb⟩ : ∃ b, l₁.getLast? = some b ∧ m.flags b = .reserved := by
    by_contra h
    exact hnone fun b hb hr => h ⟨b, hb, hr⟩
  obtain ⟨l₀, rfl⟩ := List.getLast?_eq_some_iff.mp hlast
  have hstop := hjoint b hlast hb
  rw [show l₀ ++ [b] ++ a :: l₂ = l₀ ++ b :: a :: l₂ by simp] at A ⊢
  obtain ⟨L, hapart, hgap⟩ := A
  obtain ⟨L', harea⟩ := L.joinPrev hb
  have hold : (l₀ ++ b :: a :: l₂).map m.area = l₀.map m.area ++ m.area b :: m.area a :: l₂.map m.area := by
    rw [List.map_append, List.map_cons, List.map_cons]
  rw [hold] at hapart hgap ⊢
  have hp : Pieces { m.area a with addr := m.addr b, size := m.size a + m.size b } (m.area b) (m.area a) := by
    refine ⟨rfl, hstop.symm, ?_⟩
    have hstop : m.addr b + m.size b = m.addr a := hstop
    show m.addr a + m.size a = m.addr b + (m.size a + m.size b)
    omega
  have hmerged := hapart.merge hgap hp
  obtain ⟨-, ⟨-, hlt⟩, -⟩ := apart_mid.mp hmerged
  rw [Word.add_eq hlt] at harea
  have hself : (m.joinPrev a).area a =
      { m.area a with addr := m.addr b, size := m.size a + m.size b } := by
    rw [harea, Function.update_self]
  have hrest : ∀ e ∈ l₀ ++ l₂, (m.joinPrev a).area e = m.area e := fun e he => by
    rw [harea, Function.update_of_ne (L'.ne_mid he)]
  refine ⟨l₀, ⟨L', ?_, ?_⟩, ?_, ?_, fun w s => ?_⟩
  · rwa [map_mid hrest, hself]
  · rw [map_mid hrest, hself]
    exact hp.gap.mp hgap
  · rw [hself]
    exact hp.right.symm
  · exact List.map_congr_left fun e he => hrest e (List.mem_append_right l₀ he)
  · rw [map_mid hrest, hself]
    refine (hp.shows ?_ rfl).symm
    rw [MemArea.state, MemArea.state, show (m.area b).flags = .reserved from hb,
      show (m.area a).flags = .reserved from hr]

end

/-! ## The loop -/

/-- The loop of `__reserve` at the address `z` with these areas in front: up to `e` there is no hole, and
it comes to a mapped area only if nothing was reserved before (`dirty`). -/
def Walk (e : Nat) : Nat → Bool → List MemArea → Prop
  | z, _, [] => e ≤ z
  | z, dirty, x :: A => e ≤ z ∨ (x.flags = .mapped ∧ dirty = false) ∨
      (x.flags ≠ .mapped ∧ x.addr = z ∧ Walk e x.stop (dirty || x.flags != .reserved) A)

/-- The address is in an area, which is not mapped. -/
def Unmapped (A : List MemArea) (w : Nat) : Prop := (∃ s, Shows A w s) ∧ ∀ p g, ¬Shows A w (.mapped p g)

/-- The range from `z` to `e` was reserved, or nothing was changed. -/
def Outcome (A : List MemArea) (z e : Nat) (dirty : Bool) (r : Bool × MemMap) : Prop :=
  ∃ l, Linked r.2 l ∧
    if r.1 = true then
      (∀ w s, Shows (l.map r.2.area) w s ↔ if z ≤ w ∧ w < e then s = .reserved else Shows A w s) ∧
        ∀ w, z ≤ w → w < e → Unmapped A w
    else dirty = false ∧ ∀ w s, Shows (l.map r.2.area) w s ↔ Shows A w s

section
variable {m m' : MemMap} {l l₁ l₂ : List Ptr} {a b p : Ptr} {w z z' e size : Nat} {s : PageState}
  {A A' A₁ A₂ : List MemArea} {x : MemArea} {dirty dirty' : Bool} {r : Bool × MemMap}

theorem Unmapped.congr (h : Unmapped A w) (hshows : ∀ s, Shows A' w s ↔ Shows A w s) : Unmapped A' w :=
  ⟨h.1.imp fun s hs => (hshows s).mpr hs, fun p g hs => h.2 p g ((hshows _).mp hs)⟩

theorem MemArea.flags_of_state {p g : Nat} (h : x.state = .mapped p g) : x.flags = .mapped := by
  unfold MemArea.state at h
  cases hf : x.flags <;> rw [hf] at h <;> cases h

theorem Apart.unmapped (h : Apart (A₁ ++ x :: A₂)) (hw : x.Covers w) (hx : x.flags ≠ .mapped) :
    Unmapped (A₁ ++ x :: A₂) w :=
  ⟨⟨x.state, (h.shows_of_covers hw).mpr rfl⟩,
    fun _ _ hs => hx (MemArea.flags_of_state ((h.shows_of_covers hw).mp hs))⟩

theorem Outcome.done (L : Linked m l) (h : e ≤ z) : Outcome (l.map m.area) z e dirty (true, m) := by
  refine ⟨l, L, ?_⟩
  rw [if_pos rfl]
  refine ⟨fun w s => ?_, fun w h₁ h₂ => absurd (h.trans h₁) (Nat.not_le.mpr h₂)⟩
  rw [if_neg fun hw => absurd (h.trans hw.1) (Nat.not_le.mpr hw.2)]

theorem Outcome.refused (L : Linked m l) : Outcome (l.map m.area) z e false (false, m) := by
  refine ⟨l, L, ?_⟩
  rw [if_neg Bool.false_ne_true]
  exact ⟨rfl, fun w s => Iff.rfl⟩

/-- What was reserved up to `z'` adds to the outcome from there on. -/
theorem Outcome.step (h : Outcome A' z' e dirty' r) (hle : z ≤ z')
    (hshows : ∀ w s, Shows A' w s ↔ if z ≤ w ∧ w < z' ∧ w < e then s = .reserved else Shows A w s)
    (hfree : ∀ w, z ≤ w → w < z' → Unmapped A w)
    (hsame : dirty' = false → dirty = false ∧ ∀ w s, Shows A' w s ↔ Shows A w s) :
    Outcome A z e dirty r := by
  obtain ⟨l, L, h⟩ := h
  refine ⟨l, L, ?_⟩
  by_cases hr : r.1 = true
  · rw [if_pos hr] at h ⊢
    obtain ⟨hnew, hrest⟩ := h
    refine ⟨fun w s => ?_, fun w h₁ h₂ => ?_⟩
    · rw [hnew, hshows]
      by_cases hw : z' ≤ w ∧ w < e
      · rw [if_pos hw, if_pos ⟨hle.trans hw.1, hw.2⟩]
      · rw [if_neg hw]
        exact iff_of_eq (if_congr (by omega) rfl rfl)
    · by_cases hw : w < z'
      · exact hfree w h₁ hw
      · refine (hrest w (Nat.not_lt.mp hw) h₂).congr fun s => ?_
        rw [hshows, if_neg fun hc => hw hc.2.1]
  · rw [if_neg hr] at h ⊢
    obtain ⟨hdirty, hnew⟩ := h
    obtain ⟨hd, hold⟩ := hsame hdirty
    exact ⟨hd, fun w s => (hnew w s).trans (hold w s)⟩

theorem Outcome.congr (h : Outcome A' z e dirty r) (hshows : ∀ w s, Shows A' w s ↔ Shows A w s) :
    Outcome A z e dirty r := by
  refine h.step le_rfl (fun w s => ?_) (fun w h₁ h₂ => absurd h₁ (Nat.not_le.mpr h₂))
    fun hd => ⟨hd, hshows⟩
  rw [if_neg fun hc => absurd hc.1 (Nat.not_le.mpr hc.2.1)]
  exact hshows w s

theorem Walk.of_le (h : e ≤ z) : Walk e z dirty A := by
  cases A with
  | nil => exact h
  | cons x A => exact .inl h

/-- The bytes counted do not wrap around: not every address is in an area. -/
theorem AreasInv.got_lt {x got : Nat} (I : AreasInv m (l₁ ++ a :: l₂)) (haddr : m.addr a = x + got)
    (hcov : ∀ w, x ≤ w → w < x + got → ∃ s, Shows ((l₁ ++ a :: l₂).map m.area) w s) :
    got + m.size a < 4294967296 := by
  obtain ⟨-, hapart, w, hw, hnone⟩ := I
  rw [map_mid fun e _ => rfl] at hapart
  obtain ⟨-, ⟨hstop, -⟩, -⟩ := apart_mid.mp hapart
  have hstop : m.addr a + m.size a ≤ 4294967296 := hstop
  by_contra hge
  by_cases hlt : w < x + got
  · obtain ⟨s, y, hy, hcovers, -⟩ := hcov w (by omega) hlt
    exact hnone y hy hcovers
  · refine hnone (m.area a) (List.mem_map_of_mem (by simp)) ⟨?_, ?_⟩
    · show m.addr a ≤ w
      omega
    · show w < m.addr a + m.size a
      omega

/-- The loop stays within the areas that `Walk` follows. -/
theorem reserveLoop_exact {x : Nat} (hsize : size < 4294967296) (fuel got : Nat) (dirty : Bool)
    (A : AreasInv m (l₁ ++ l₂)) (hwalk : Walk (x + size) (x + got) dirty (l₂.map m.area))
    (hcov : ∀ w, x ≤ w → w < x + got → ∃ s, Shows ((l₁ ++ l₂).map m.area) w s)
    (hjoint : got < size → ∀ b, l₁.getLast? = some b → m.flags b = .reserved →
      ∀ a, l₂.head? = some a → m.flags a ≠ .mapped → (m.area b).stop = x + got)
    (hfuel : size ≤ got ∧ 0 < fuel ∨ l₂.length + 1 < fuel) :
    Meets (MemMap.reserveLoop size fuel m l₂.head? got)
      (Outcome ((l₁ ++ l₂).map m.area) (x + got) (x + size) dirty) (fun _ => False) := by
  induction fuel generalizing m l₁ l₂ got dirty with
  | zero => omega
  | succ fuel ih =>
    unfold MemMap.reserveLoop
    by_cases hdone : size ≤ got
    · rw [if_pos hdone]
      exact Outcome.done A.linked (Nat.add_le_add_left hdone x)
    rw [if_neg hdone]
    cases l₂ with
    | nil =>
      have hend : x + size ≤ x + got := hwalk
      omega
    | cons a l₂ =>
      simp only [List.length_cons] at hfuel
      obtain hend | ⟨hmapped, rfl⟩ | ⟨hnm, haddr, hwalk⟩ := hwalk
      · omega
      · have hflags : m.flags a = .mapped := hmapped
        simp only [List.head?_cons, hflags]
        exact Outcome.refused A.linked
      have hnm : m.flags a ≠ .mapped := hnm
      have haddr : m.addr a = x + got := haddr
      -- the rest of the loop behind the area `a`, which is reserved now
      have hnext : ∀ {m₁ : MemMap} {k₂ : List Ptr} {dirty₁ : Bool}, AreasInv m₁ (l₁ ++ a :: k₂) →
          m₁.flags a = .reserved → m₁.addr a = x + got → got + m₁.size a < 4294967296 →
          (∀ e ∈ l₁, m₁.area e = m.area e) →
          Walk (x + size) (m₁.area a).stop dirty₁ (k₂.map m₁.area) →
          (∀ w, x ≤ w → w < x + got → ∃ s, Shows ((l₁ ++ a :: k₂).map m₁.area) w s) →
          (size ≤ got + m₁.size a ∧ 0 < fuel ∨ k₂.length + 1 < fuel) →
          Meets (MemMap.reserveLoop size fuel (m₁.joinPrev a) ((m₁.joinPrev a).next a)
              (Word.add got (m₁.size a)))
            (Outcome ((l₁ ++ a :: k₂).map m₁.area) (m₁.area a).stop (x + size) dirty₁)
            (fun _ => False) := by
        intro m₁ k₂ dirty₁ A₁ hr haddr₁ hno hlast hwalk₁ hcov₁ hfuel₁
        have hstop₁ : (m₁.area a).stop = x + (got + m₁.size a) := by
          rw [← Nat.add_assoc, ← haddr₁]
          rfl
        obtain ⟨l₁', A₂, hstop, hmap, hshows⟩ := A₁.join hr (by
          intro b hb hbr
          have hsame := hlast b (List.mem_of_getLast? hb)
          rw [MemMap.flags, hsame] at hbr
          rw [hsame, haddr₁]
          exact hjoint (Nat.not_le.mp hdone) b hb hbr a rfl hnm)
        have hl : l₁' ++ a :: k₂ = (l₁' ++ [a]) ++ k₂ := by simp
        rw [A₂.linked.next_eq, Word.add_eq hno, hstop₁]
        rw [hl] at A₂ hshows
        rw [hstop₁] at hwalk₁
        refine (ih (got + m₁.size a) dirty₁ A₂ (by rwa [hmap]) ?_ ?_ hfuel₁).mono
          (fun r h => h.congr hshows) fun _ h => h
        · intro w h₁ h₂
          by_cases hw : w < x + got
          · exact (hcov₁ w h₁ hw).imp fun s hs => (hshows w s).mpr hs
          · refine ⟨(m₁.area a).state, (hshows w _).mpr ⟨m₁.area a, ?_, ⟨?_, hstop₁ ▸ h₂⟩, rfl⟩⟩
            · exact List.mem_map_of_mem (by simp)
            · rw [show (m₁.area a).addr = x + got from haddr₁]
              exact Nat.not_lt.mp hw
        · intro _ b hb _ c _ _
          rw [List.getLast?_concat] at hb
          cases hb
          rw [hstop, hstop₁]
      have hapart := A.apart
      rw [map_mid fun e _ => rfl] at hapart
      by_cases hr : m.flags a = .reserved
      · have hno : got + m.size a < 4294967296 := A.got_lt haddr hcov
        rw [show (m.area a).flags = .reserved from hr] at hwalk
        have hwalk : Walk (x + size) (m.area a).stop dirty (l₂.map m.area) := by simpa using hwalk
        have hloop := hnext A hr haddr hno (fun _ _ => rfl) hwalk hcov (by omega)
        simp only [List.head?_cons, hr]
        refine hloop.mono (fun r h => h.step ?_ (fun w s => ?_) (fun w h₁ h₂ => ?_)
          fun hd => ⟨hd, fun _ _ => Iff.rfl⟩) fun _ h => h
        · show x + got ≤ m.addr a + m.size a
          omega
        · split
          · rename_i hw
            rw [map_mid fun e _ => rfl, hapart.shows_of_covers ⟨haddr.le.trans hw.1, hw.2.1⟩,
              MemArea.state, show (m.area a).flags = .reserved from hr, eq_comm]
          · rfl
        · rw [map_mid fun e _ => rfl]
          exact hapart.unmapped ⟨haddr.le.trans h₁, h₂⟩ hnm
      · have hneed : 0 < size - got := Nat.sub_pos_of_lt (Nat.not_le.mp hdone)
        obtain ⟨m₁, k₂, heq, A₁, haddr₁, hflags₁, hle, hlast, hk, hshows⟩ := A.cutNeed hneed
        have hsub : Word.sub size got = size - got := Word.sub_eq (by omega) hsize
        obtain ⟨A₂, hmark⟩ := A₁.mark
        have hself : (m₁.setArea a ⟨m₁.addr a, m₁.size a, 0, 99, .reserved⟩).area a =
            ⟨m₁.addr a, m₁.size a, 0, 99, .reserved⟩ := Function.update_self ..
        have hrest : ∀ e ∈ l₁ ++ k₂,
            (m₁.setArea a ⟨m₁.addr a, m₁.size a, 0, 99, .reserved⟩).area e = m₁.area e := fun e he =>
          setArea_of_ne (A₁.linked.ne_mid he)
        generalize hm : m₁.setArea a ⟨m₁.addr a, m₁.size a, 0, 99, .reserved⟩ = m₂ at *
        have hstop : (m₂.area a).stop = x + got + m₁.size a := by
          rw [hself, MemArea.stop, haddr₁, haddr]
        have hsize₂ : m₂.size a = m₁.size a := by rw [MemMap.size, hself]
        have hflags : ((m.area a).flags != .reserved) = true := bne_iff_ne.mpr hr
        rw [hflags, Bool.or_true] at hwalk
        have hwalk₂ : Walk (x + size) (m₂.area a).stop true (k₂.map m₂.area) := by
          obtain ⟨rfl, hmap, hend⟩ | hneeded := hk
          · have hend : m₁.addr a + m₁.size a = (m.area a).stop := hend
            rw [hstop, List.map_congr_left fun e he => hrest e (List.mem_append_right l₁ he), hmap,
              ← haddr, ← haddr₁, hend]
            exact hwalk
          · exact Walk.of_le (by omega)
        have hcov₂ : ∀ w, x ≤ w → w < x + got → ∃ s, Shows ((l₁ ++ a :: k₂).map m₂.area) w s := by
          intro w h₁ h₂
          refine (hcov w h₁ h₂).imp fun s hs => (hmark w s).mpr ?_
          rw [if_neg (by omega)]
          exact (hshows w s).mpr hs
        have hloop := hnext A₂ (by rw [MemMap.flags, hself]) (by rw [MemMap.addr, hself, haddr₁, haddr])
          (by omega) (fun e he => (hrest e (List.mem_append_left k₂ he)).trans (hlast e he)) hwalk₂ hcov₂ (by
            obtain ⟨rfl, -⟩ | hneeded := hk
            · omega
            · omega)
        have hdone : Meets (MemMap.reserveLoop size fuel (m₂.joinPrev a) ((m₂.joinPrev a).next a)
            (Word.add got (m₂.size a))) (Outcome ((l₁ ++ a :: l₂).map m.area) (x + got) (x + size) dirty)
            (fun _ => False) := by
          refine hloop.mono (fun r h => h.step ?_ (fun w s => ?_) (fun w h₁ h₂ => ?_)
            fun hd => by cases hd) fun _ h => h
          · omega
          · exact (hmark w s).trans (iff_of_eq (if_congr (by omega) rfl (propext (hshows w s))))
          · have hapart₁ := A₁.apart
            rw [map_mid fun e _ => rfl] at hapart₁
            have hunmapped : Unmapped (l₁.map m₁.area ++ m₁.area a :: k₂.map m₁.area) w := by
              refine hapart₁.unmapped ⟨?_, ?_⟩ fun h => hnm (hflags₁ ▸ h)
              · show m₁.addr a ≤ w
                omega
              · show w < m₁.addr a + m₁.size a
                omega
            rw [← map_mid fun e _ => rfl] at hunmapped
            exact hunmapped.congr fun s => (hshows w s).symm
        cases hf : m.flags a with
        | reserved => exact absurd hf hr
        | mapped => exact absurd hf hnm
        | unused | denied =>
          simp only [List.head?_cons, hf, hsub, heq, hm]
          exact hdone

end

/-! ## The reservation -/

/-- What `__reserve` is for: on success the pages of the range that are in the map are reserved, and the
others are as before; a range with a mapped page is refused, and nothing changes. No null pointer is
followed. -/
def MemMap.ReservesExactly (m : MemMap) (addr size : Nat) : Prop :=
  ∃ r, m.reserve addr size = .ok r ∧
    (r.1 = true → ∀ w s, r.2.PageAt w s ↔
      if addr ≤ w ∧ w < addr + size then s = .reserved ∧ ∃ s', m.PageAt w s' else m.PageAt w s) ∧
    ((∃ w p g, addr ≤ w ∧ w < addr + size ∧ m.PageAt w (.mapped p g)) →
      r.1 = false ∧ ∀ w s, r.2.PageAt w s ↔ m.PageAt w s)

/-- The search ends in the area `a` between `l₁` and `l₂`. It is not the head of the map if it is cut, the
areas from `addr` on have no hole in the range, and none is joined with an area that ends before it. -/
def StartsClear (m : MemMap) (l₁ : List Ptr) (a : Ptr) (l₂ : List Ptr) (addr size : Nat) : Prop :=
  if m.addr a < addr then
    match m.flags a with
    | .reserved => Walk (addr + size) (m.area a).stop false (l₂.map m.area)
    | .mapped => True
    | _ => l₁ ≠ [] ∧ Walk (addr + size) (m.area a).stop true (l₂.map m.area)
  else
    Walk (addr + size) addr false ((a :: l₂).map m.area) ∧
      (0 < size → m.flags a ≠ .mapped → ∀ b, l₁.getLast? = some b → m.flags b = .reserved →
        (m.area b).stop = addr)

/-- The reservation comes to no hole. -/
structure MemMap.ReserveClear (m : MemMap) (l : List Ptr) (addr size : Nat) : Prop where
  gap : Gap (l.map m.area)
  clear : ∀ l₁ a l₂, l = l₁ ++ a :: l₂ → addr < m.physMemHigh → (∀ b ∈ l₁, m.areaEnd b ≤ addr) →
    addr < m.areaEnd a → StartsClear m l₁ a l₂ addr size

section
variable {m m' : MemMap} {l l₁ l₂ : List Ptr} {a : Ptr} {addr size z : Nat} {r : Bool × MemMap}

/-- What was reserved already in front of `z` does not matter. -/
theorem Outcome.exactly (L : Linked m l) (h : Outcome (l.map m.area) addr (addr + size) false r)
    (hr : m.reserve addr size = .ok r) : m.ReservesExactly addr size := by
  obtain ⟨l', L', h⟩ := h
  refine ⟨r, hr, fun hok w s => ?_, ?_⟩
  · rw [if_pos hok] at h
    rw [L'.pageAt, h.1]
    split
    · rename_i hw
      obtain ⟨⟨s', hs'⟩, -⟩ := h.2 w hw.1 hw.2
      exact (and_iff_left ⟨s', L.pageAt.mpr hs'⟩).symm
    · exact L.pageAt.symm
  · rintro ⟨w, p, g, h₁, h₂, hmapped⟩
    by_cases hok : r.1 = true
    · rw [if_pos hok] at h
      exact absurd (L.pageAt.mp hmapped) ((h.2 w h₁ h₂).2 p g)
    · rw [if_neg hok] at h
      refine ⟨Bool.eq_false_iff.mpr hok, fun w s => ?_⟩
      rw [L'.pageAt, L.pageAt]
      exact h.2 w s

/-- The loop from the area `a` on. -/
theorem reserve_from (hsize : size < 4294967296) (A : AreasInv m (l₁ ++ a :: l₂))
    (hwalk : Walk (addr + size) addr false ((a :: l₂).map m.area))
    (hjoint : 0 < size → m.flags a ≠ .mapped → ∀ b, l₁.getLast? = some b → m.flags b = .reserved →
      (m.area b).stop = addr) :
    Meets (MemMap.reserveLoop size (m.live.length + 2) m (some a) 0)
      (Outcome ((l₁ ++ a :: l₂).map m.area) addr (addr + size) false) (fun _ => False) := by
  have hlen := A.linked.length_le
  simp only [List.length_append, List.length_cons] at hlen
  refine reserveLoop_exact (x := addr) hsize _ 0 false A hwalk (fun w h₁ h₂ => by omega) ?_ (.inr ?_)
  · intro hpos b hb hr c hc hnm
    cases hc
    exact hjoint hpos hnm b hb hr
  · simp only [List.length_cons]
    omega

/-- The loop behind a reserved area that contains `addr`. -/
theorem reserve_behind (hsize : size < 4294967296) (A : AreasInv m (l₁ ++ a :: l₂)) (hle : m.addr a < addr)
    (hlt : addr < (m.area a).stop) (hr : m.flags a = .reserved)
    (hwalk : Walk (addr + size) (m.area a).stop false (l₂.map m.area)) :
    Meets (MemMap.reserveLoop size (m.live.length + 2) m l₂.head? ((m.area a).stop - addr))
      (Outcome ((l₁ ++ a :: l₂).map m.area) addr (addr + size) false) (fun _ => False) := by
  have hlen := A.linked.length_le
  have hapart := A.apart
  rw [map_mid fun e _ => rfl] at hapart
  have hl : l₁ ++ a :: l₂ = (l₁ ++ [a]) ++ l₂ := by simp
  have hstop : addr + ((m.area a).stop - addr) = (m.area a).stop := by omega
  have hshows : ∀ w s, addr ≤ w → w < (m.area a).stop →
      (Shows ((l₁ ++ a :: l₂).map m.area) w s ↔ s = .reserved) := by
    intro w s h₁ h₂
    rw [map_mid fun e _ => rfl, hapart.shows_of_covers ⟨hle.le.trans h₁, h₂⟩, MemArea.state,
      show (m.area a).flags = .reserved from hr, eq_comm]
  simp only [List.length_append, List.length_cons] at hlen
  rw [hl] at A
  have hloop := reserveLoop_exact (x := addr) hsize (m.live.length + 2) ((m.area a).stop - addr) false A
    (by rwa [hstop]) (fun w h₁ h₂ => ⟨.reserved, by rw [← hl]; exact (hshows w _ h₁ (by omega)).mpr rfl⟩)
    (fun _ b hb _ c _ _ => by
      rw [List.getLast?_concat] at hb
      cases hb
      exact hstop.symm) (.inr (by omega))
  rw [hstop, ← hl] at hloop
  refine hloop.mono (fun r h => h.step hlt.le (fun w s => ?_) (fun w h₁ h₂ => ?_)
    fun hd => ⟨hd, fun _ _ => Iff.rfl⟩) fun _ h => h
  · split
    · rename_i hw
      exact hshows w s hw.1 hw.2.1
    · rfl
  · rw [map_mid fun e _ => rfl]
    refine hapart.unmapped ⟨hle.le.trans h₁, h₂⟩ fun h => ?_
    rw [show (m.area a).flags = .reserved from hr] at h
    cases h

/-- The loop from the area `a` on, which is cut at `addr`. -/
theorem reserve_cut (hsize : size < 4294967296) (A : AreasInv m (l₁ ++ a :: l₂)) (hle : m.addr a < addr)
    (hlt : addr < (m.area a).stop) (hr : m.flags a ≠ .reserved) (hnm : m.flags a ≠ .mapped) (hne : l₁ ≠ [])
    (hwalk : Walk (addr + size) (m.area a).stop true (l₂.map m.area)) :
    ∃ m', m.cutBegin a (addr - m.addr a) = (true, m') ∧
      Meets (MemMap.reserveLoop size (m'.live.length + 2) m' (some a) 0)
        (Outcome ((l₁ ++ a :: l₂).map m.area) addr (addr + size) false) (fun _ => False) := by
  have hapart := A.apart
  rw [map_mid fun e _ => rfl] at hapart
  obtain ⟨-, ⟨hstop, hbound⟩, -⟩ := apart_mid.mp hapart
  have hbound : m.size a < 4294967296 := hbound
  have hstop : m.addr a + m.size a ≤ 4294967296 := hstop
  have hlt' : addr < m.addr a + m.size a := hlt
  obtain ⟨p, m', heq, L, ha, hp, hrest⟩ := A.linked.cutBegin (n := addr - m.addr a) hne (by omega)
  have e1 : Word.add (m.addr a) (addr - m.addr a) = addr := by
    rw [Word.add_eq (by omega)]
    omega
  have e2 : Word.sub (m.size a) (addr - m.addr a) = m.size a - (addr - m.addr a) :=
    Word.sub_eq (by omega) hbound
  rw [e1, e2] at ha
  have hpieces : Pieces (m.area a) (m'.area p) (m'.area a) := by
    rw [ha, hp]
    refine ⟨rfl, ?_, ?_⟩
    · show addr = m.addr a + (addr - m.addr a)
      omega
    · show addr + (m.size a - (addr - m.addr a)) = m.addr a + m.size a
      omega
  rw [show l₁ ++ [p] ++ a :: l₂ = l₁ ++ p :: a :: l₂ by simp] at L
  obtain ⟨A', hshows⟩ := A.cut L hrest hpieces (by rw [hp]; rfl) (by rw [ha]; rfl)
  rw [show l₁ ++ p :: a :: l₂ = (l₁ ++ [p]) ++ a :: l₂ by simp] at A' hshows
  have hflags : (m'.area a).flags = m.flags a := by
    rw [ha]
    rfl
  have hdirty : ((m'.area a).flags != .reserved) = true := bne_iff_ne.mpr (hflags ▸ hr)
  refine ⟨m', heq, (reserve_from hsize A' ?_ ?_).mono (fun r h => h.congr hshows) fun _ h => h⟩
  · refine .inr (.inr ⟨hflags ▸ hnm, by rw [ha], ?_⟩)
    rw [hdirty, hpieces.right, List.map_congr_left fun e he => hrest e (List.mem_append_right l₁ he)]
    exact hwalk
  · intro _ _ b hb hbr
    rw [List.getLast?_concat] at hb
    cases hb
    rw [MemMap.flags, hp] at hbr
    exact absurd hbr hr

/-- A reservation that comes to no hole, does not cut the head of the map and does not fail behind an area
that it reserved does what it is for. -/
theorem reserve_exactly (L : Linked m l) (hapart : Apart (l.map m.area)) (hsize : size < 4294967296)
    (h : m.ReserveClear l addr size) : m.ReservesExactly addr size := by
  obtain ⟨hgap, hclear⟩ := h
  obtain hnone | ⟨l₁, a, l₂, rfl, hfind, hhigh, hend, hall⟩ := L.findAddr addr
  · refine Outcome.exactly L (Outcome.refused L) ?_
    rw [MemMap.reserve, hnone]
    rfl
  have hstart := hclear l₁ a l₂ rfl hhigh hall hend
  have A : AreasInv m (l₁ ++ a :: l₂) := ⟨L, hapart, hgap⟩
  rw [map_mid fun e _ => rfl] at hapart
  obtain ⟨-, ⟨hstop, hbound⟩, -⟩ := apart_mid.mp hapart
  have hstop : m.addr a + m.size a ≤ 4294967296 := hstop
  have hbound : m.size a < 4294967296 := hbound
  have hlt : addr < (m.area a).stop := by
    show addr < m.addr a + m.size a
    by_contra hge
    have hwrap : m.areaEnd a ≤ m.addr a + m.size a := Word.add_le _ _
    omega
  suffices hmeets : Meets (m.reserve addr size)
      (Outcome ((l₁ ++ a :: l₂).map m.area) addr (addr + size) false) (fun _ => False) by
    cases hr : m.reserve addr size with
    | ok r => exact (hmeets.post hr).exactly L hr
    | error e => exact (hmeets.fail hr).elim
  unfold MemMap.reserve
  refine Meets.bind_ok hfind ?_
  simp only
  unfold MemMap.reserveStart
  unfold StartsClear at hstart
  by_cases hle : m.addr a < addr
  swap
  · rw [if_neg hle] at hstart ⊢
    exact reserve_from hsize A hstart.1 hstart.2
  rw [if_pos hle] at hstart ⊢
  have hsub : Word.sub addr (m.addr a) = addr - m.addr a := Word.sub_eq hle.le (by
    have : addr < m.addr a + m.size a := hlt
    omega)
  have hsub' : Word.sub (m.size a) (addr - m.addr a) = (m.area a).stop - addr := by
    have hlt : addr < m.addr a + m.size a := hlt
    rw [Word.sub_eq (by omega) hbound]
    show m.size a - (addr - m.addr a) = m.addr a + m.size a - addr
    omega
  cases hf : m.flags a with
  | reserved =>
    simp only [hf] at hstart
    simp only [hsub, hsub', L.next_eq]
    exact reserve_behind hsize A hle hlt hf hstart
  | mapped => exact Outcome.refused L
  | unused | denied =>
    simp only [hf] at hstart
    obtain ⟨m', heq, hmeets⟩ := reserve_cut hsize A hle hlt (by rw [hf]; decide) (by rw [hf]; decide)
      hstart.1 hstart.2
    simp only [hsub, heq]
    exact hmeets

end

/-- Two unused areas with a hole between them. -/
def holed : MemMap :=
  { emptyMap with
    area := fun a => if a = 1 then ⟨0x1000, 0x1000, 0, 99, .unused⟩ else ⟨0x4000, 0x2000, 0, 99, .unused⟩
    prev := fun a => if a = 2 then some 1 else none
    next := fun a => if a = 1 then some 2 else none
    live := [1, 2]
    mem := some 1 }

theorem holed_linked : Linked holed [1, 2] :=
  ⟨⟨rfl, rfl, rfl, rfl, rfl, trivial⟩, by decide, by decide⟩

/-- The end of the second area. -/
theorem reserve_exactly_holed : holed.ReservesExactly 0x5000 0x1000 := by
  refine reserve_exactly holed_linked ⟨?_, ?_⟩ (by decide) ⟨⟨0, by decide, ?_⟩, ?_⟩
  · simp [holed, MemArea.stop]
  · simp [holed, MemArea.stop]
  · simp [holed, MemArea.Covers]
  · intro l₁ a l₂ hl _ _ hend
    cases l₁ with
    | nil =>
      cases hl
      exact absurd hend (by decide +kernel)
    | cons b l₁ =>
      cases l₁ with
      | nil =>
        cases hl
        refine ⟨List.cons_ne_nil 1 [], ?_⟩
        show 0x5000 + 0x1000 ≤ 0x4000 + 0x2000
        decide
      | cons c l₁ => simp at hl

/-- A reservation that comes to a hole: the joined area covers the hole. -/
theorem not_reserve_exactly : ¬holed.ReservesExactly 0x1000 0x2000 := by
  rintro ⟨r, hr, hok, -⟩
  have hrun : (holed.reserve 0x1000 0x2000).toOption.map
      (fun r => (r.1, r.2.mem, r.2.next 2, r.2.next 4, r.2.area 2)) =
      some (true, some 2, some 4, none, ⟨0x1000, 0x2000, 0, 99, .reserved⟩) := by
    decide +kernel
  rw [hr] at hrun
  simp only [Except.toOption, Option.map_some, Option.some.injEq, Prod.mk.injEq] at hrun
  obtain ⟨htrue, hmem, h₂, h₄, harea⟩ := hrun
  have hlist : IsSList r.2.next r.2.mem [2, 4] := ⟨hmem, h₂, h₄⟩
  have hat : r.2.PageAt 0x2000 .reserved := by
    refine ⟨[2, 4], hlist, r.2.area 2, List.mem_map_of_mem (by simp), ?_⟩
    rw [harea]
    exact ⟨⟨by decide, by decide⟩, rfl⟩
  have hin := (hok htrue 0x2000 .reserved).mp hat
  rw [if_pos (by decide)] at hin
  obtain ⟨-, s, hs⟩ := hin
  obtain ⟨x, hx, hcovers, -⟩ := holed_linked.pageAt.mp hs
  simp only [holed, List.map_cons, List.map_nil, List.mem_cons, List.not_mem_nil, or_false] at hx
  obtain rfl | rfl := hx
  · exact absurd hcovers.2 (by decide)
  · exact absurd hcovers.1 (by decide)

end L4env.DMphys
