import L4env.DMphys.PoolHolds

/-!
# Runs of the page pools

A `Config` is the state of the page allocator with the lists of areas its callers hold and the memory
that was added to the pools. `Config.exec` is one call of the interface of `pages.c`; the answers of
the slab caches during the call are part of it. `Reachable G` are the configurations that calls in `G`
reach after `dmphys_pages_init`.
-/

namespace L4env.DMphys

/-- A range of memory that was added to a pool. -/
structure Range where
  pool : Nat
  addr : Nat
  size : Nat

structure Config where
  st : State
  /-- Pool and first area of the lists that callers hold. -/
  held : List (Nat × Ptr)
  mem : List Range

inductive Op
  | addFreeArea (pool addr size : Nat)
  | allocate (pool size alignment flags : Nat) (prio : Prio)
  | allocateArea (pool addr size : Nat) (prio : Prio)
  | enlarge (pool : Nat) (pages : Ptr) (size : Nat) (prio : Prio)
  | add (pool : Nat) (pages : Ptr) (size : Nat) (prio : Prio)
  | shrink (pool : Nat) (pages : Ptr) (size : Nat)
  | release (pool : Nat) (pages : Ptr)
  /-- `dmphys_internal_alloc_update` -/
  | update
  /-- The cache of another descriptor type grows or hands a page back. -/
  | grow
  | back

/-- `dmphys_internal_alloc_init` and `dmphys_pages_init`: the pages that sigma0 returned, and the
memory reserved in each pool. -/
def State.init (sigma0 : Nat → Option Nat) (reserved : Nat → Nat) (slab : Slab) : State where
  addr _ := 0
  size _ := 0
  used _ := false
  dsNext _ := none
  areaPrev _ := none
  areaNext _ := none
  freePrev _ := none
  freeNext _ := none
  live := []
  pools P := { reserved := reserved P }
  memPool := (List.range (intPoolInitial + intPoolMaxAlloc)).map fun i =>
    if i < intPoolInitial then ⟨(sigma0 i).isSome, sigma0 i, none⟩ else {}
  numFree := (List.range intPoolInitial).countP fun i => (sigma0 i).isSome
  freedAreas := []
  updateInProgress := false
  slabPages := []
  slab := slab

namespace Config

/-- A call that returned the list `pages`. -/
def hold (c : Config) (pool : Nat) (r : Option Ptr × State) : Config :=
  { c with st := r.2, held := (r.1.map (pool, ·)).toList ++ c.held }

def exec (c : Config) (slab : Slab) (op : Op) : Except Panic Config :=
  let s := { c.st with slab := slab }
  match op with
  | .addFreeArea pool addr size => do
    let s ← s.dmphysPagesAddFreeArea pool addr size
    pure { c with st := s, mem := ⟨pool, addr, size⟩ :: c.mem }
  | .allocate pool size alignment flags prio => do
    let r ← s.dmphysPagesAllocate pool size alignment flags prio
    pure (c.hold pool r)
  | .allocateArea pool addr size prio => do
    let r ← s.dmphysPagesAllocateArea pool addr size prio
    pure (c.hold pool r)
  | .enlarge pool pages size prio => do
    let r ← s.dmphysPagesEnlarge pool pages size prio
    pure { c with st := r.2 }
  | .add pool pages size prio => do
    let r ← s.dmphysPagesAdd pool pages size prio
    pure { c with st := r.2 }
  | .shrink pool pages size => do
    let r ← s.dmphysPagesShrink pool pages size
    pure { c with st := r.2 }
  | .release pool pages => do
    let s ← s.dmphysPagesRelease pool (some pages)
    pure { c with st := s, held := c.held.erase (pool, pages) }
  | .update => do
    let s ← s.dmphysInternalAllocUpdate
    pure { c with st := s }
  | .grow => do
    let s ← s.slabGrow
    pure { c with st := s }
  | .back => pure { c with st := s.slabBack }

/-- A size of whole pages. -/
def PageSizes (size : Nat) : Prop := size % pageSize = 0 ∧ 0 < size ∧ size < 4294967296

/-- The calls that callers make: sizes are whole pages, addresses are page aligned, memory is added
once, and a list is used by the one who holds it. -/
def Valid (c : Config) : Op → Prop
  | .addFreeArea pool addr size =>
    PageSizes size ∧ addr % pageSize = 0 ∧ addr + size ≤ 4294967296 ∧
      ∀ m ∈ c.mem, m.pool = pool → m.addr + m.size ≤ addr ∨ addr + size ≤ m.addr
  | .allocate _ size alignment _ _ => PageSizes size ∧ IsAlignment alignment
  | .allocateArea _ addr size _ => PageSizes size ∧ addr % pageSize = 0 ∧ addr < 4294967296
  | .enlarge pool pages size _ => PageSizes size ∧ (pool, pages) ∈ c.held
  | .add pool pages size _ => PageSizes size ∧ (pool, pages) ∈ c.held
  | .shrink pool pages size => PageSizes size ∧ (pool, pages) ∈ c.held
  | .release pool pages => (pool, pages) ∈ c.held
  | .update | .grow | .back => True

/-- The area that `__allocate_area` finds for the address is free and holds it. -/
def FreeAt (s : State) (pool addr : Nat) : Prop :=
  ∃ pa, scan s.areaNext (fun pa => addr < Word.add (s.addr pa) (s.size pa)) s.listFuel
    (s.pools pool).areaList = some (some pa) ∧ s.addr pa ≤ addr ∧ s.used pa = false

/-- The calls that do not run into an overflow: no range of memory ends at `2 ^ 32` or behind it, a
size rounded up to superpages does not vanish, and the table of freed areas has room for the pages
that the caches hand back. -/
def Safe (c : Config) (slab : Slab) (op : Op) : Prop :=
  { c.st with slab := slab }.Room ∧
  match op with
  | .addFreeArea _ addr size => addr + size < 4294967296
  | .allocate pool size _ flags prio =>
    c.st.available pool size prio = true → State.superPages flags = true →
      State.contiguous flags = true → Word.roundUp size superPageSize ≠ 0
  | .allocateArea pool addr size prio =>
    c.st.available pool size prio = true → FreeAt c.st pool addr → addr + size < 4294967296
  | _ => True

/-- The calls that keep free memory in one piece: added memory does not border on the pool's memory,
and a list is not cut in front of a free area. -/
def Neat (c : Config) : Op → Prop
  | .addFreeArea pool addr size =>
    ∀ m ∈ c.mem, m.pool = pool → m.addr + m.size ≠ addr ∧ addr + size ≠ m.addr
  | .shrink _ pages size => ¬c.st.CutsFree pages size
  | _ => True

end Config

/-- The configurations that calls in `G` reach after the initialization. -/
inductive Reachable (G : Config → Slab → Op → Prop) : Config → Prop
  | init (sigma0 : Nat → Option Nat) (reserved : Nat → Nat) (slab : Slab) :
    Reachable G ⟨.init sigma0 reserved slab, [], []⟩
  | step {c c' : Config} {slab : Slab} {op : Op} :
    Reachable G c → G c slab op → c.exec slab op = .ok c' → Reachable G c'

/-! ## The invariant of a run -/

structure Config.Good (c : Config) (A : Nat → Set Ptr) (l : List Held) : Prop where
  holds : Holds c.st A l
  held : c.held.Perm (l.map Held.key)
  cover : ∀ P x, Covered c.st A P x ↔ ∃ m ∈ c.mem, m.pool = P ∧ m.addr ≤ x ∧ x < m.addr + m.size

section
variable {s s' : State} {A A' : Nat → Set Ptr} {l : List Held} {c c' : Config} {op : Op}
  {slab : Slab} {H : List Ptr}

theorem State.init_memPool {sigma0 : Nat → Option Nat} {reserved : Nat → Nat} {e : IntPool}
    (h : e ∈ (State.init sigma0 reserved slab).memPool) : e.area = none := by
  simp only [State.init, List.mem_map] at h
  obtain ⟨i, -, rfl⟩ := h
  split <;> rfl

theorem State.init_internalAreas (sigma0 : Nat → Option Nat) (reserved : Nat → Nat) (slab : Slab) :
    (State.init sigma0 reserved slab).internalAreas = [] := by
  simp only [State.internalAreas, List.append_eq_nil_iff]
  refine ⟨⟨?_, rfl⟩, rfl⟩
  exact List.filterMap_eq_nil_iff.mpr fun e he => State.init_memPool he

theorem Config.Good.init (sigma0 : Nat → Option Nat) (reserved : Nat → Nat) (slab : Slab) :
    Config.Good ⟨.init sigma0 reserved slab, [], []⟩ (fun _ => ∅) [] := by
  have hint := State.init_internalAreas sigma0 reserved slab
  refine ⟨⟨⟨?_, ?_, ?_, ?_, ?_, ?_, ?_, ?_, ?_, ?_⟩, by simp, by simp⟩, .refl _, ?_⟩
  · exact ⟨fun _ => [], ⟨fun _ => ⟨rfl, trivial⟩, fun _ => .nil, by simp, fun _ => .nil, by simp⟩,
      by simp⟩
  · refine ⟨fun _ _ => [], ⟨fun _ _ => ⟨rfl, trivial⟩, fun _ _ => .nil, by simp, by simp,
      fun _ _ => .nil, ?_⟩, ?_⟩
    · intro P
      simp [State.init]
    · simp [freeAreas]
  · exact .nil
  · simp [State.init]
  · rw [hint]; exact .nil
  · simp [heldAreas]
  · rw [hint]; simp
  · simp
  · simp
  · intro i e he
    simp only [State.init, List.getElem?_map, Option.map_eq_some_iff] at he
    obtain ⟨j, hj, rfl⟩ := he
    obtain rfl : j = i := by
      rw [List.getElem?_eq_some_iff] at hj
      obtain ⟨h, rfl⟩ := hj
      simp
    split
    next h =>
      refine ⟨?_, fun _ => rfl, fun _ _ => h, by simp⟩
      intro he
      simpa [Option.isSome_iff_ne_none] using he
    next h => exact ⟨by simp, fun _ => rfl, by simp, by simp⟩
  · simp [Covered]

/-- A state that differs in the answers of the slab caches only. -/
theorem Inv.congr_slab (I : Inv s A H none) (slab : Slab) : Inv { s with slab := slab } A H none := by
  refine ⟨?_, ?_, I.live_nodup, I.live, I.owned, I.held, I.internal, I.flag, I.null, I.pool⟩
  · exact I.area.congr (fun _ _ _ => rfl) (fun _ _ _ => rfl) (fun _ _ _ => rfl) (fun _ _ _ => rfl)
      fun _ => rfl
  · exact I.free.congr (fun _ _ _ => rfl) (fun _ _ _ => rfl) (fun _ _ _ => rfl) (fun _ => rfl)
      fun _ => rfl

theorem Holds.congr_slab (h : Holds s A l) (slab : Slab) : Holds { s with slab := slab } A l :=
  ⟨h.inv.congr_slab slab, h.links, h.mem⟩

/-- `dmphys_pages_add_free_area` counts the memory of a pool; nothing else reads the count. -/
theorem Inv.setPoolSize (I : Inv s A H none) (P n : Nat) :
    Inv (s.setPool P { s.pools P with size := n }) A H none := by
  have hpool : ∀ Q, ((s.setPool P { s.pools P with size := n }).pools Q).areaList =
      (s.pools Q).areaList ∧ ((s.setPool P { s.pools P with size := n }).pools Q).freeList =
      (s.pools Q).freeList ∧ ((s.setPool P { s.pools P with size := n }).pools Q).free =
      (s.pools Q).free := by
    intro Q
    by_cases hQ : Q = P
    · subst hQ; simp [State.setPool]
    · simp [State.setPool, Function.update_of_ne hQ]
  refine ⟨?_, ?_, I.live_nodup, I.live, I.owned, I.held, I.internal, I.flag, I.null, I.pool⟩
  · exact I.area.congr (fun _ _ _ => rfl) (fun _ _ _ => rfl) (fun _ _ _ => rfl) (fun _ _ _ => rfl)
      fun Q => (hpool Q).1
  · exact I.free.congr (fun _ _ _ => rfl) (fun _ _ _ => rfl) (fun _ _ _ => rfl)
      (fun Q => (hpool Q).2.1) fun Q => (hpool Q).2.2

/-- New memory next to the memory of a pool: no area reaches into it, and if it does not border on
the pool's memory then it borders on no area. -/
theorem Config.Good.apart (g : c.Good A l) {P x n : Nat} (hn : 0 < n)
    (hm : ∀ m ∈ c.mem, m.pool = P → m.addr + m.size ≤ x ∨ x + n ≤ m.addr) :
    ∀ b ∈ A P, c.st.addr b + c.st.size b ≤ x ∨ x + n ≤ c.st.addr b := by
  intro b hb
  have hpos := (g.holds.inv.area.range hb).pos
  by_contra hcon
  obtain ⟨m, hmem, hP, h1, h2⟩ := (g.cover P (max (c.st.addr b) x)).mp ⟨b, hb, by omega, by omega⟩
  have := hm m hmem hP
  omega

theorem Config.Good.isolated (g : c.Good A l) {P x n : Nat} (hn : 0 < n)
    (hm : ∀ m ∈ c.mem, m.pool = P → m.addr + m.size ≤ x ∨ x + n ≤ m.addr)
    (hb : ∀ m ∈ c.mem, m.pool = P → m.addr + m.size ≠ x ∧ x + n ≠ m.addr) :
    Isolated c.st A (heldAreas l) P x n := by
  intro b hfree
  have hpos := (g.holds.inv.area.range hfree.1).pos
  constructor
  · intro hend
    obtain ⟨m, hmem, hP, h1, h2⟩ := (g.cover P (x - 1)).mp ⟨b, hfree.1, by omega, by omega⟩
    have := hm m hmem hP
    have := hb m hmem hP
    omega
  · intro hstart
    obtain ⟨m, hmem, hP, h1, h2⟩ := (g.cover P (x + n)).mp ⟨b, hfree.1, by omega, by omega⟩
    have := hm m hmem hP
    have := hb m hmem hP
    omega

/-- What a call leaves: a good configuration, with free memory in one piece if it was before. -/
def Config.Keeps (c : Config) (A : Nat → Set Ptr) (l : List Held) (op : Op) (c' : Config) : Prop :=
  ∃ A' l', c'.Good A' l' ∧
    (Coalesced c.st A (heldAreas l) → c.Neat op → Coalesced c'.st A' (heldAreas l'))

theorem Inv.dmphysPagesAddFreeArea (I : Inv s A H none) (hr : PageArea x n)
    (hap : ∀ b ∈ A P, s.addr b + s.size b ≤ x ∨ x + n ≤ s.addr b) :
    Meets (s.dmphysPagesAddFreeArea P x n)
      (fun s' => ∃ A', Grown s A H s' A' P x n ∧ Inv s' A' H none) s.NoPage := by
  refine (I.addFreeArea hr hap).bind ?_
  rintro s' ⟨p, hadd, I'⟩
  have G : Grown s A H s' (addTo A P p) P x n := I.grown hadd hr.pos
  refine ⟨addTo A P p, ⟨G.sub, G.new, G.addr, G.size, G.used, G.dsNext, G.live, G.areas, G.grown,
    ⟨G.steady.enough, G.steady.room, G.steady.initial⟩, fun Q => ?_, G.cover, G.coal⟩,
    I'.setPoolSize P _⟩
  rw [← G.reserved Q]
  by_cases hQ : Q = P
  · subst hQ; simp [State.setPool]
  · simp [State.setPool, hQ]

theorem Holds.grown (h : Holds s A l) (G : Grown s A (heldAreas l) s' A' P x n)
    (I : Inv s' A' (heldAreas l) none) : Holds s' A' l := by
  have hlive : ∀ y ∈ l, ∀ a ∈ y.areas, a ∈ s.live := fun y hy a ha => h.inv.mem_live (h.mem y hy a ha)
  refine ⟨I, fun y hy => ?_, fun y hy a ha => G.sub _ a (h.mem y hy a ha)⟩
  exact (h.links y hy).congr fun a ha => G.dsNext a (hlive y hy a ha)

theorem Config.Good.addFreeArea (g : c.Good A l) {P x n : Nat}
    (hv : c.Valid (.addFreeArea P x n)) (hs : c.Safe slab (.addFreeArea P x n)) :
    Meets (c.exec slab (.addFreeArea P x n)) (c.Keeps A l (.addFreeArea P x n))
      (· = .noInternalPage) := by
  obtain ⟨⟨hn, hpos, -⟩, hx, -, hdisj⟩ := hv
  have h := g.holds.congr_slab slab
  refine ((h.inv.dmphysPagesAddFreeArea ⟨hx, hn, hpos, hs.2⟩ (g.apart hpos hdisj)).mono
    (fun _ h => h) fun e he => he.1).bind ?_
  rintro s' ⟨A', G, I'⟩
  refine ⟨A', l, ⟨h.grown G I', g.held, fun Q y => ?_⟩, fun hc hneat => ?_⟩
  · have hold : Covered _ A Q y ↔ _ := g.cover Q y
    rw [G.cover Q y]
    refine Iff.trans (or_congr_left hold) ?_
    simp only [List.mem_cons, exists_eq_or_imp]
    rw [or_comm, eq_comm]
  · exact G.coal hc fun _ => g.isolated hpos hdisj hneat

/-- A list that a caller holds. -/
theorem Config.Good.find (g : c.Good A l) {P : Nat} {p : Ptr} (hp : (P, p) ∈ c.held) :
    ∃ d l', c.Good A (⟨P, p, d⟩ :: l') ∧ l.Perm (⟨P, p, d⟩ :: l') := by
  obtain ⟨⟨P', p', d⟩, hx, he⟩ := List.mem_map.mp (g.held.mem_iff.mp hp)
  obtain ⟨rfl, rfl⟩ : P' = P ∧ p' = p := by simpa [Held.key] using he
  obtain ⟨l₁, l₂, rfl⟩ := List.append_of_mem hx
  refine ⟨d, l₁ ++ l₂, ⟨g.holds.perm List.perm_middle, ?_, g.cover⟩, List.perm_middle⟩
  exact g.held.trans (List.perm_middle.map _)

/-- A call that changed neither the memory of the pools nor the lists that callers hold. -/
theorem Config.Good.same {l' : List Held} (g : c.Good A l) (h : Holds s' A' l')
    (hkey : l'.map Held.key = l.map Held.key)
    (hcover : ∀ P x, Covered s' A' P x ↔ Covered c.st A P x) :
    Config.Good { c with st := s' } A' l' :=
  ⟨h, hkey ▸ g.held, fun P x => (hcover P x).trans (g.cover P x)⟩

theorem Config.Good.hold (g : c.Good A l) {slab : Slab} {single : Bool} {r : Option Ptr × State}
    (hr : AllocOk { c.st with slab := slab } A (heldAreas l) P n single r) (op : Op) :
    c.Keeps A l op (c.hold P r) := by
  have h := g.holds.congr_slab slab
  obtain ⟨o, s'⟩ := r
  cases o with
  | none =>
    obtain ⟨A', hL, -⟩ := hr
    exact ⟨A', l, g.same (h.leaves hL) rfl hL.frame.cover, fun hc _ => hL.coal hc⟩
  | some p =>
    obtain ⟨d, A', hE, -⟩ := hr
    refine ⟨A', ⟨P, p, d⟩ :: l, ⟨h.cons hE, g.held.cons (P, p), fun Q x => ?_⟩,
      fun hc _ => hE.coal hc⟩
    exact (hE.frame.cover Q x).trans (g.cover Q x)

theorem Config.Good.allocate (g : c.Good A l) {P n al flags : Nat} {prio : Prio}
    (hv : c.Valid (.allocate P n al flags prio)) (hs : c.Safe slab (.allocate P n al flags prio)) :
    Meets (c.exec slab (.allocate P n al flags prio)) (c.Keeps A l (.allocate P n al flags prio))
      (· = .noInternalPage) := by
  obtain ⟨⟨hn, hpos, hlt⟩, hal⟩ := hv
  have h := g.holds.congr_slab slab
  have hr : Meets ({ c.st with slab := slab }.dmphysPagesAllocate P n al flags prio)
      (AllocOk { c.st with slab := slab } A (heldAreas l) P (granted flags n)
        (State.contiguous flags))
      (· = .noInternalPage) := by
    cases hav : c.st.available P n prio with
    | true =>
      exact (h.inv.dmphysPagesAllocate hs.1 hal hn hpos hlt (hs.2 hav) prio).mono (fun _ h => h)
        fun e he => he.1
    | false =>
      have heq : { c.st with slab := slab }.dmphysPagesAllocate P n al flags prio =
          .ok (none, { c.st with slab := slab }) := by
        unfold State.dmphysPagesAllocate
        exact if_pos hav
      exact Meets.of_eq_ok heq ⟨A, .refl h.inv, .refl _⟩
  exact hr.bind fun r hr => g.hold hr _

/-- `__allocate_area` refuses an address outside the free areas before it looks at the size. -/
theorem allocateArea_refuses {P y m : Nat} (h : Inv s A H none) (hfree : ¬Config.FreeAt s P y) :
    s.allocateArea P y m = .ok (none, s) := by
  unfold State.allocateArea
  obtain ⟨r, hsc, -⟩ := h.area.scan (P := P) (fun b hb => h.mem_live hb)
    (fun pa => decide (y < Word.add (s.addr pa) (s.size pa)))
  rw [hsc]
  cases r with
  | none => rfl
  | some a =>
    simp only
    split
    · rfl
    next hle =>
      split
      · rfl
      · split
        · rfl
        next hu =>
          refine absurd ⟨a, hsc, by omega, ?_⟩ hfree
          simpa using hu

theorem Config.Good.allocateArea (g : c.Good A l) {P y m : Nat} {prio : Prio}
    (hv : c.Valid (.allocateArea P y m prio)) (hs : c.Safe slab (.allocateArea P y m prio)) :
    Meets (c.exec slab (.allocateArea P y m prio)) (c.Keeps A l (.allocateArea P y m prio))
      (· = .noInternalPage) := by
  obtain ⟨⟨hm, hpos, -⟩, hy, -⟩ := hv
  have h := g.holds.congr_slab slab
  have hr : Meets ({ c.st with slab := slab }.dmphysPagesAllocateArea P y m prio)
      (AllocOk { c.st with slab := slab } A (heldAreas l) P m true) (· = .noInternalPage) := by
    by_cases hlt : y + m < 4294967296
    · exact (h.inv.dmphysPagesAllocateArea hy hm hpos hlt prio).mono (fun _ h => h) fun e he => he.1
    · have heq : { c.st with slab := slab }.dmphysPagesAllocateArea P y m prio =
          .ok (none, { c.st with slab := slab }) := by
        unfold State.dmphysPagesAllocateArea
        split
        · rfl
        next hav =>
          exact allocateArea_refuses h.inv fun hf => hlt (hs.2 (Bool.not_eq_false _ ▸ hav) hf)
      exact Meets.of_eq_ok heq ⟨A, .refl h.inv, .refl _⟩
  exact hr.bind fun r hr => g.hold hr _

theorem findOffset_slab (s : State) (slab : Slab) (fuel : Nat) (q : Option Ptr) (offset : Nat) :
    { s with slab := slab }.findOffset fuel q offset = s.findOffset fuel q offset := by
  induction fuel generalizing q offset with
  | zero => rfl
  | succ fuel ih =>
    cases q with
    | none => rfl
    | some pa => simp only [State.findOffset, ih]

theorem cutsFree_slab (s : State) (slab : Slab) (p : Ptr) (m : Nat) :
    { s with slab := slab }.CutsFree p m ↔ s.CutsFree p m := by
  unfold State.CutsFree
  rw [findOffset_slab]
  rfl

theorem Inv.leaves_intStep (I : Inv s A H none) (h : State.IntStep s s') : Leaves s A H H s' A := by
  refine ⟨I.intStep h, IntStep.frame h, fun hc Q => ?_⟩
  have hfree := @freeAreas_congr s s' A H h.perm
  obtain ⟨mp, nf, fa, sp, sl, rfl⟩ := h.eq
  rw [hfree]
  exact hc Q

/-- One call of the page allocator. -/
theorem Config.Good.exec (g : c.Good A l) (hv : c.Valid op) (hs : c.Safe slab op) :
    Meets (c.exec slab op) (c.Keeps A l op) (fun e => e = .noInternalPage ∨ e = .assertion) := by
  have h := g.holds.congr_slab slab
  cases op with
  | addFreeArea P x n => exact (g.addFreeArea hv hs).mono (fun _ h => h) fun e he => .inl he
  | allocate P n al flags prio => exact (g.allocate hv hs).mono (fun _ h => h) fun e he => .inl he
  | allocateArea P y m prio => exact (g.allocateArea hv hs).mono (fun _ h => h) fun e he => .inl he
  | enlarge P p m prio =>
    obtain ⟨⟨hm, hpos, -⟩, hp⟩ := hv
    obtain ⟨d, l', g', hperm⟩ := g.find hp
    have h' := g'.holds.congr_slab slab
    have hcoal : ∀ {t B}, (Coalesced c.st A (d ++ heldAreas l') → Coalesced t B (d ++ heldAreas l')) →
        Coalesced c.st A (heldAreas l) → Coalesced t B (d ++ heldAreas l') :=
      fun hc h => hc (Coalesced.perm (heldAreas_perm hperm) h)
    refine ((h'.chain.dmphysPagesEnlarge hs.1 hm hpos prio).mono (fun _ h => h)
      fun e he => .inr he.1).bind ?_
    rintro ⟨o, s'⟩ (⟨-, heq⟩ | ⟨-, -, A', hR, -, -, hc, -⟩)
    · cases heq
      exact ⟨A, _, g'.same h' rfl fun _ _ => Iff.rfl, fun h _ => hcoal id h⟩
    · exact ⟨A', _, g'.same (h'.resized hR) rfl hR.frame.cover, fun h _ => hcoal hc h⟩
  | add P p m prio =>
    obtain ⟨⟨hm, hpos, hlt⟩, hp⟩ := hv
    obtain ⟨d, l', g', hperm⟩ := g.find hp
    have h' := g'.holds.congr_slab slab
    refine ((h'.chain.dmphysPagesAdd hs.1 hm hpos hlt prio).mono (fun _ h => h)
      fun e he => .inl he.1).bind ?_
    rintro ⟨o, s'⟩ (⟨-, A', hL, -⟩ | ⟨-, A', d', hR, -, -, hc⟩)
    · exact ⟨A', _, g'.same (h'.leaves hL) rfl hL.frame.cover,
        fun h _ => hL.coal (Coalesced.perm (heldAreas_perm hperm) h)⟩
    · exact ⟨A', _, g'.same (h'.resized hR) rfl hR.frame.cover,
        fun h _ => hc (Coalesced.perm (heldAreas_perm hperm) h)⟩
  | shrink P p m =>
    obtain ⟨⟨hm, hpos, hlt⟩, hp⟩ := hv
    obtain ⟨d, l', g', hperm⟩ := g.find hp
    have h' := g'.holds.congr_slab slab
    refine ((h'.chain.dmphysPagesShrink hs.1 hm hpos hlt).mono (fun _ h => h)
      fun e he => .inl he.1).bind ?_
    rintro ⟨o, s'⟩ (⟨-, heq⟩ | ⟨-, A', d', -, hR, hc⟩)
    · cases heq
      exact ⟨A, _, g'.same h' rfl fun _ _ => Iff.rfl,
        fun h _ => Coalesced.perm (heldAreas_perm hperm) h⟩
    · exact ⟨A', _, g'.same (h'.resized hR) rfl hR.frame.cover,
        fun h hneat => hc (Coalesced.perm (heldAreas_perm hperm) h) fun hcut =>
          hneat ((cutsFree_slab c.st slab p m).mp hcut)⟩
  | release P p =>
    obtain ⟨d, l', g', hperm⟩ := g.find hv
    have h' := g'.holds.congr_slab slab
    obtain ⟨s', A', heq, hR⟩ := h'.chain.inv.dmphysPagesRelease hs.1 h'.chain.links h'.chain.mem
    refine Meets.bind_ok heq ⟨A', l', ⟨h'.tail hR.toLeaves, ?_, fun Q x => ?_⟩, fun h _ => ?_⟩
    · exact (g'.held.erase (P, p)).trans (by simp [Held.key])
    · exact (hR.frame.cover Q x).trans (g'.cover Q x)
    · exact hR.coal (Coalesced.perm (heldAreas_perm hperm) h)
  | update =>
    refine ((h.inv.dmphysInternalAllocUpdate hs.1).mono (fun _ h => h) fun e he => .inl he.1).bind ?_
    rintro s' ⟨A', hL⟩
    exact ⟨A', l, g.same (h.leaves hL) rfl hL.frame.cover, fun h _ => hL.coal h⟩
  | grow =>
    refine ((State.slabGrow_meets h.inv.pool).mono (fun _ h => h) fun e he => .inl he.1).bind ?_
    rintro s' ⟨hstep, -⟩
    have hL := h.inv.leaves_intStep hstep
    exact ⟨A, l, g.same (h.leaves hL) rfl hL.frame.cover, fun h _ => hL.coal h⟩
  | back =>
    have hL := h.inv.leaves_intStep (State.slabBack_step h.inv.pool hs.1).1
    exact ⟨A, l, g.same (h.leaves hL) rfl hL.frame.cover, fun h _ => hL.coal h⟩

end

/-! ## Consistent pools -/

/-- The page pools as the source means them to be: `L P` is the area list of pool `P`, `F P k` its
free list of the size class `k`, and `D` are the lists that callers hold. -/
structure Config.Consistent (c : Config) (L : Nat → List Ptr) (F : Nat → Nat → List Ptr)
    (D : List Held) : Prop where
  areas : ∀ P, IsDList c.st.areaNext c.st.areaPrev (c.st.pools P).areaList (L P)
  sorted : ∀ P, (L P).Pairwise fun a b => c.st.addr a + c.st.size a ≤ c.st.addr b
  range : ∀ P, ∀ a ∈ L P, PageArea (c.st.addr a) (c.st.size a)
  cover : ∀ P x, (∃ a ∈ L P, c.st.addr a ≤ x ∧ x < c.st.addr a + c.st.size a) ↔
    ∃ m ∈ c.mem, m.pool = P ∧ m.addr ≤ x ∧ x < m.addr + m.size
  frees : ∀ P k, IsDList c.st.freeNext c.st.freePrev ((c.st.pools P).freeList k) (F P k)
  frees_nodup : ∀ P k, (F P k).Nodup
  bySize : ∀ P k, (F P k).Pairwise fun a b => c.st.size a ≤ c.st.size b
  mem_frees : ∀ P k a, a ∈ F P k ↔
    a ∈ L P ∧ c.st.used a = false ∧ k = getFreeList (c.st.size a)
  free : ∀ P, (c.st.pools P).free = c.st.total ((L P).filter fun a => !c.st.used a)
  null : ∀ P, ∀ a ∈ L P, c.st.used a = false → c.st.dsNext a = none
  held : c.held.Perm (D.map Held.key)
  lists : ∀ x ∈ D, IsSList c.st.dsNext (some x.pages) x.areas
  owned : ∀ P, ∀ a ∈ L P, c.st.used a = true ↔ a ∈ heldAreas D ++ c.st.internalAreas
  once : (heldAreas D ++ c.st.internalAreas).Nodup
  pools : ∀ x ∈ D, ∀ a ∈ x.areas, a ∈ L x.pool
  internal : ∀ a ∈ c.st.internalAreas, a ∈ L defaultPool

section
variable {s : State} {A : Nat → Set Ptr} {l : List Held} {c : Config}

/-- Areas in order, one behind the other, hold no more bytes than there are below the last end. -/
theorem State.total_le (s : State) {c : List Ptr} (hp : c.Pairwise fun a b => s.addr a + s.size a ≤ s.addr b)
    (lo hi : Nat) (hlo : ∀ a ∈ c, lo ≤ s.addr a) (hhi : ∀ a ∈ c, s.addr a + s.size a ≤ hi)
    (hle : lo ≤ hi) : lo + s.total c ≤ hi := by
  induction c generalizing lo with
  | nil => simpa [State.total] using hle
  | cons a c ih =>
    rw [List.pairwise_cons] at hp
    have h1 := hlo a (by simp)
    have h2 := hhi a (by simp)
    have := ih hp.2 (s.addr a + s.size a) (fun b hb => hp.1 b hb) (fun b hb => hhi b (by simp [hb])) h2
    rw [s.total_cons]
    omega

theorem State.total_perm (s : State) {c c' : List Ptr} (h : c.Perm c') : s.total c = s.total c' :=
  (h.map s.size).sum_nat

/-- The free lists of a pool together are its unused areas. -/
theorem FreeLists.total_eq {F : Nat → Nat → List Ptr} (H : FreeLists s F) {P : Nat} {u : List Ptr}
    (hu : u.Nodup) (hmem : ∀ a, (∃ k, a ∈ F P k) ↔ a ∈ u) :
    ∑ k ∈ Finset.range numFreeLists, ((F P k).map s.size).sum = s.total u := by
  have hsum : ∀ n, ∑ k ∈ Finset.range n, ((F P k).map s.size).sum =
      s.total ((List.range n).flatMap (F P)) := by
    intro n
    induction n with
    | zero => rfl
    | succ n ih =>
      rw [Finset.sum_range_succ, ih]
      simp [State.total, List.range_succ]
  rw [hsum]
  refine s.total_perm ((List.perm_ext_iff_of_nodup ?_ hu).mpr fun a => ?_)
  · refine List.nodup_flatMap.mpr ⟨fun k _ => H.nodup P k, ?_⟩
    refine List.nodup_range.imp fun {j k} hjk => ?_
    exact fun a ha hb => hjk (H.disj P j P k a ha hb).2
  · rw [← hmem, List.mem_flatMap]
    constructor
    · rintro ⟨k, -, ha⟩
      exact ⟨k, ha⟩
    · rintro ⟨k, ha⟩
      refine ⟨k, ?_, ha⟩
      rw [List.mem_range, ← H.cls P k a ha]
      exact getFreeList_lt _

theorem Config.Good.consistent (g : c.Good A l) : ∃ L F, c.Consistent L F l ∧ ∀ P a, a ∈ L P ↔ a ∈ A P := by
  have I := g.holds.inv
  obtain ⟨L, HL, hL⟩ := I.area
  obtain ⟨F, HF, hF⟩ := I.free
  have hused : ∀ P a, a ∈ A P → (c.st.used a = true ↔ a ∈ heldAreas l ++ c.st.internalAreas) := by
    intro P a ha
    rw [I.flag P a ha (by simp), List.mem_append]
  have hfree : ∀ P a, (∃ k, a ∈ F P k) ↔ a ∈ L P ∧ c.st.used a = false := by
    intro P a
    rw [hF, hL]
    refine and_congr_right fun ha => ?_
    rw [← Bool.not_eq_true, hused P a ha, List.mem_append, not_or]
  refine ⟨L, F, ⟨HL.links, HL.sorted, HL.range, fun P x => ?_, HF.links, HF.nodup, HF.sorted,
    fun P k a => ?_, fun P => ?_, fun P a ha hu => ?_, g.held, g.holds.links, fun P a ha => ?_, I.owned,
    fun x hx a ha => ?_, fun a ha => ?_⟩, hL⟩
  · rw [← g.cover P x]
    simp only [Covered, hL]
  · constructor
    · intro ha
      have := (hfree P a).mp ⟨k, ha⟩
      exact ⟨this.1, this.2, (HF.cls P k a ha).symm⟩
    · rintro ⟨ha, hu, rfl⟩
      obtain ⟨k, hk⟩ := (hfree P a).mpr ⟨ha, hu⟩
      rwa [HF.cls P k a hk]
  · rw [HF.sum P, HF.total_eq (u := (L P).filter fun a => !c.st.used a) ((HL.nodup P).filter _)]
    · refine Nat.mod_eq_of_lt ?_
      have hsub : ((L P).filter fun a => !c.st.used a).Sublist (L P) := List.filter_sublist
      have := c.st.total_le ((HL.sorted P).sublist hsub) 0 4294967295 (fun _ _ => Nat.zero_le _)
        (fun a ha => ?_) (Nat.zero_le _)
      · omega
      · have := (HL.range P a (hsub.subset ha)).bound
        omega
    · intro a
      rw [hfree P a, List.mem_filter]
      simp
  · refine I.null P a ((hL P a).mp ha) fun h => ?_
    have := (hused P a ((hL P a).mp ha)).mpr (List.mem_append_left _ h)
    simp [hu] at this
  · exact hused P a ((hL P a).mp ha)
  · exact (hL _ a).mpr (g.holds.mem x hx a ha)
  · exact (hL _ a).mpr (I.internal a ha)

/-! ## Runs -/

section
variable {G : Config → Slab → Op → Prop} {slab : Slab} {op : Op}

theorem Reachable.good (hG : ∀ c slab op, G c slab op → c.Valid op ∧ c.Safe slab op)
    (h : Reachable G c) : ∃ A l, c.Good A l := by
  induction h with
  | init sigma0 reserved slab => exact ⟨_, _, .init sigma0 reserved slab⟩
  | step _ hg heq ih =>
    obtain ⟨A, l, g⟩ := ih
    obtain ⟨hv, hs⟩ := hG _ _ _ hg
    obtain ⟨A', l', g', -⟩ := (g.exec hv hs).post heq
    exact ⟨A', l', g'⟩

theorem Reachable.coalesced (hG : ∀ c slab op, G c slab op → (c.Valid op ∧ c.Safe slab op) ∧ c.Neat op)
    (h : Reachable G c) : ∃ A l, c.Good A l ∧ Coalesced c.st A (heldAreas l) := by
  induction h with
  | init sigma0 reserved slab =>
    exact ⟨_, _, .init sigma0 reserved slab, fun P a ha => absurd ha.1 (Set.notMem_empty a)⟩
  | step _ hg heq ih =>
    obtain ⟨A, l, g, hc⟩ := ih
    obtain ⟨⟨hv, hs⟩, hneat⟩ := hG _ _ _ hg
    obtain ⟨A', l', g', hc'⟩ := (g.exec hv hs).post heq
    exact ⟨A', l', g', hc' hc hneat⟩

/-- The configuration after a call. -/
def Config.next (c : Config) (slab : Slab) (op : Op) : Config :=
  match c.exec slab op with
  | .ok c' => c'
  | .error _ => c

theorem Reachable.next (h : Reachable G c) (hg : G c slab op) (hok : (c.exec slab op).toBool = true) :
    Reachable G (c.next slab op) := by
  cases heq : c.exec slab op with
  | ok c' =>
    rw [show c.next slab op = c' by simp [Config.next, heq]]
    exact h.step hg heq
  | error e => simp [heq, Except.toBool] at hok

end

/-- Calls in which no address and no size overflows find the pools consistent and leave them so. -/
theorem page_pools_consistent (h : Reachable (fun c slab op => c.Valid op ∧ c.Safe slab op) c) :
    (∃ L F D, c.Consistent L F D) ∧
      ∀ slab op e, c.Valid op → c.Safe slab op → c.exec slab op = .error e →
        e ≠ .overlaps ∧ e ≠ .corruptedAreaList ∧ e ≠ .corruptedFreeList ∧ e ≠ .diverges := by
  obtain ⟨A, l, g⟩ := h.good fun _ _ _ h => h
  constructor
  · obtain ⟨L, F, hc, -⟩ := g.consistent
    exact ⟨L, F, l, hc⟩
  · intro slab op e hv hs he
    rcases (g.exec hv hs).fail he with rfl | rfl <;> decide

/-- A slab cache that neither grows nor shrinks. -/
def Slab.plain : Slab where
  pick live := live.sum + 1
  pick_not_mem := sum_succ_not_mem

theorem eq_error {r : Except Panic Config} {e : Panic}
    (h : (match r with | .ok _ => false | .error e' => e' == e) = true) : r = .error e := by
  cases r with
  | ok v => cases h
  | error e' => rw [beq_iff_eq.mp h]

/-- Two pages, one of them the last but one of the address space. -/
def twoPages : Config :=
  ((Config.mk (.init (fun _ => none) (fun _ => 0) .plain) [] []).next .plain
    (.addFreeArea 0 0x1000 0x1000)).next .plain (.addFreeArea 0 0xffffe000 0x1000)

theorem twoPages_reachable {G : Config → Slab → Op → Prop}
    (hG : ∀ c slab op, c.Valid op → c.Safe slab op → G c slab op) : Reachable G twoPages := by
  refine Reachable.next (Reachable.next (.init _ _ _) (hG _ _ _ ?_ ?_) ?_) (hG _ _ _ ?_ ?_) ?_
  · exact ⟨⟨by decide, by decide, by decide⟩, by decide, by decide, by simp⟩
  · exact ⟨by decide, by decide⟩
  · decide +kernel
  · exact ⟨⟨by decide, by decide, by decide⟩, by decide, by decide, by decide +kernel⟩
  · exact ⟨by decide +kernel, by decide⟩
  · decide +kernel

theorem page_pools_consistent_two : ∃ L F D, twoPages.Consistent L F D :=
  (page_pools_consistent (twoPages_reachable fun _ _ _ hv hs => ⟨hv, hs⟩)).1

/-- The end of the requested range wraps around, so it passes for a range inside the last area. -/
theorem page_pools_overlap : ¬∀ c, Reachable (fun c _ op => c.Valid op) c →
    (∃ L F D, c.Consistent L F D) ∧
      ∀ slab op e, c.Valid op → c.exec slab op = .error e →
        e ≠ .overlaps ∧ e ≠ .corruptedAreaList ∧ e ≠ .corruptedFreeList := by
  intro h
  have hv : twoPages.Valid (.allocateArea 0 0xffffe000 0x2000 .user) :=
    ⟨⟨by decide, by decide, by decide⟩, by decide, by decide⟩
  refine ((h twoPages (twoPages_reachable fun _ _ _ hv _ => hv)).2 .plain _ .overlaps hv ?_).1 rfl
  exact eq_error (by decide +kernel)

/-! ## Free memory is in one piece -/

/-- Calls that do not cut a list in front of free memory leave no two free areas side by side. -/
theorem page_pools_coalesced
    (h : Reachable (fun c slab op => (c.Valid op ∧ c.Safe slab op) ∧ c.Neat op) c) :
    ∃ L : Nat → List Ptr,
      (∀ P, IsDList c.st.areaNext c.st.areaPrev (c.st.pools P).areaList (L P)) ∧
      ∀ P, ∀ a ∈ L P, ∀ b ∈ L P, c.st.used a = false → c.st.used b = false →
        c.st.addr a + c.st.size a ≠ c.st.addr b := by
  obtain ⟨A, l, g, hcoal⟩ := h.coalesced fun _ _ _ h => h
  obtain ⟨L, F, hc, hL⟩ := g.consistent
  have hfree : ∀ P, ∀ a ∈ L P, c.st.used a = false → a ∈ freeAreas c.st A (heldAreas l) P := by
    intro P a ha hu
    exact (g.holds.inv.mem_freeAreas ((hL P a).mp ha) (by simp)).mpr hu
  exact ⟨L, hc.areas, fun P a ha b hb hua hub => hcoal P a (hfree P a ha hua) b (hfree P b hb hub)⟩

/-- Four pages, the first two of them in use. -/
def halfUsed : Config :=
  ((Config.mk (.init (fun _ => none) (fun _ => 0) .plain) [] []).next .plain
    (.addFreeArea 0 0x1000 0x4000)).next .plain (.allocateArea 0 0x1000 0x2000 .user)

theorem halfUsed_reachable {G : Config → Slab → Op → Prop}
    (hG : ∀ c slab op, (c.Valid op ∧ c.Safe slab op) ∧ c.Neat op → G c slab op) :
    Reachable G halfUsed := by
  refine Reachable.next (Reachable.next (.init _ _ _) (hG _ _ _ ⟨⟨?_, ?_⟩, ?_⟩) ?_)
    (hG _ _ _ ⟨⟨?_, ?_⟩, ?_⟩) ?_
  · exact ⟨⟨by decide, by decide, by decide⟩, by decide, by decide, by simp⟩
  · exact ⟨by decide, by decide⟩
  · exact fun m hm => absurd hm List.not_mem_nil
  · decide +kernel
  · exact ⟨⟨by decide, by decide, by decide⟩, by decide, by decide⟩
  · exact ⟨by decide +kernel, fun _ _ => by decide⟩
  · exact trivial
  · decide +kernel

theorem page_pools_coalesced_halfUsed : ∃ L : Nat → List Ptr,
    (∀ P, IsDList halfUsed.st.areaNext halfUsed.st.areaPrev (halfUsed.st.pools P).areaList (L P)) ∧
    ∀ P, ∀ a ∈ L P, ∀ b ∈ L P, halfUsed.st.used a = false → halfUsed.st.used b = false →
      halfUsed.st.addr a + halfUsed.st.size a ≠ halfUsed.st.addr b :=
  page_pools_coalesced (halfUsed_reachable fun _ _ _ h => h)

/-- `dmphys_pages_shrink` does not merge the area it cuts off with the free area behind it. -/
theorem page_pools_shrink_splits : ¬∀ c, Reachable (fun c slab op => c.Valid op ∧ c.Safe slab op) c →
    ∃ L : Nat → List Ptr,
      (∀ P, IsDList c.st.areaNext c.st.areaPrev (c.st.pools P).areaList (L P)) ∧
      ∀ P, ∀ a ∈ L P, ∀ b ∈ L P, c.st.used a = false → c.st.used b = false →
        c.st.addr a + c.st.size a ≠ c.st.addr b := by
  intro h
  have hv : halfUsed.Valid (.shrink 0 1 0x1000) :=
    ⟨⟨by decide, by decide, by decide⟩, by decide +kernel⟩
  have hs : halfUsed.Safe .plain (.shrink 0 1 0x1000) := ⟨by decide +kernel, trivial⟩
  obtain ⟨L, hL, hc⟩ := h (halfUsed.next .plain (.shrink 0 1 0x1000))
    ((halfUsed_reachable fun _ _ _ h => h.1).next ⟨hv, hs⟩ (by decide +kernel))
  -- the area list is the area in use, the piece cut off and the free area behind it
  have h0 : L 0 = [1, 4, 2] := by
    refine ((hL 0).2.isSList).unique ?_
    rw [← (hL 0).1]
    have hend : (halfUsed.next .plain (.shrink 0 1 0x1000)).st.areaNext 2 = none := by decide +kernel
    exact ⟨by decide +kernel, by decide +kernel, by decide +kernel, hend⟩
  refine hc 0 4 (by simp [h0]) 2 (by simp [h0]) ?_ ?_ ?_ <;> decide +kernel

end

end L4env.DMphys
