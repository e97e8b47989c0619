import L4env.L4io.PortRegion

/-!
# Runs of the I/O server
-/

namespace L4env.L4io

variable {start len max client : Nat} {root root' : List IoRes} {new r : IoRes}

/-- The list is sorted and its regions are disjoint. -/
structure Exclusive (max : Nat) (root : List IoRes) : Prop where
  sorted : root.Pairwise fun r r' => r.end_ < r'.start
  bounds : ∀ r ∈ root, r.start ≤ r.end_ ∧ r.end_ ≤ max

/-- The client holds the region, and no region of the list has a part of it otherwise. -/
structure OnlyHolder (root : List IoRes) (start end_ client : Nat) : Prop where
  holds : ⟨start, end_, client⟩ ∈ root
  only : ∀ r ∈ root, r.start ≤ end_ → start ≤ r.end_ → r = ⟨start, end_, client⟩

/-- The client holds exactly the region of a request. -/
def Holds (root : List IoRes) (start len client : Nat) : Prop :=
  ⟨start, regionEnd start len, client⟩ ∈ root

theorem Exclusive.sublist (h : Exclusive max root) (hs : root'.Sublist root) : Exclusive max root' :=
  ⟨h.sorted.sublist hs, fun r hr => h.bounds r (hs.subset hr)⟩

theorem Exclusive.tail (h : Exclusive max (r :: root)) : Exclusive max root :=
  h.sublist (List.sublist_cons_self r root)

/-! ## The lists -/

/-- The new region is put where there is a gap for it. -/
theorem insertRegion_spec (h : Exclusive max root) (hnew : new.start ≤ new.end_)
    (heq : insertRegion new root = .ok root') :
    (∀ r, r ∈ root' ↔ r = new ∨ r ∈ root) ∧ (root'.Pairwise fun r r' => r.end_ < r'.start) ∧
      ∀ r ∈ root, new.end_ < r.start ∨ r.end_ < new.start := by
  induction root generalizing root' with
  | nil =>
    obtain rfl : [new] = root' := Except.ok.inj heq
    exact ⟨fun r => by simp, .cons nofun .nil, nofun⟩
  | cons s rest ih =>
    rw [insertRegion] at heq
    have hs := h.bounds s List.mem_cons_self
    have hrest : ∀ r ∈ rest, s.end_ < r.start := (List.pairwise_cons.mp h.sorted).1
    split_ifs at heq with hbefore hbehind
    · obtain rfl : new :: s :: rest = root' := Except.ok.inj heq
      have hall : ∀ r ∈ s :: rest, new.end_ < r.start := by
        rintro r (_ | ⟨_, hr⟩)
        · exact hbefore
        · have := hrest r hr
          omega
      exact ⟨fun r => List.mem_cons, .cons hall h.sorted, fun r hr => .inl (hall r hr)⟩
    · cases hins : insertRegion new rest with
      | error e =>
        rw [hins] at heq
        cases heq
      | ok rest' =>
        rw [hins] at heq
        obtain rfl : s :: rest' = root' := Except.ok.inj heq
        obtain ⟨hmem, hsorted, hdis⟩ := ih h.tail hins
        refine ⟨fun r => ?_, .cons (fun r hr => ?_) hsorted, fun r hr => ?_⟩
        · rw [List.mem_cons, hmem, List.mem_cons]
          tauto
        · rcases (hmem r).mp hr with rfl | hr
          · exact hbehind
          · exact hrest r hr
        · rcases List.mem_cons.mp hr with rfl | hr
          · exact .inr hbehind
          · exact hdis r hr

theorem requestRegion_spec (h : Exclusive max root) (heq : requestRegion start len max root client = .ok root') :
    Exclusive max root' ∧ OnlyHolder root' start (regionEnd start len) client := by
  simp only [requestRegion] at heq
  split_ifs at heq with h1 h2
  obtain ⟨hmem, hsorted, hdis⟩ := insertRegion_spec h (by exact Nat.le_of_not_lt h1) heq
  refine ⟨⟨hsorted, fun r hr => ?_⟩, (hmem _).mpr (.inl rfl), fun r hr hrs hre => ?_⟩
  · rcases (hmem r).mp hr with rfl | hr
    · exact ⟨Nat.le_of_not_lt h1, Nat.le_of_not_lt h2⟩
    · exact h.bounds r hr
  · rcases (hmem r).mp hr with rfl | hr
    · rfl
    · have := hdis r hr
      simp only at this
      omega

/-- The list after a request of the server itself, which may fail. -/
theorem Exclusive.requestOrKeep (h : Exclusive max root) (start len client : Nat) :
    Exclusive max ((requestRegion start len max root client).toOption.getD root) := by
  cases hr : requestRegion start len max root client with
  | error e => exact h
  | ok res => exact (requestRegion_spec h hr).1

/-- Only a region that the client holds is released. -/
theorem releaseRegion_spec (heq : releaseRegion start len client root = .ok root') :
    Holds root start len client ∧ root'.Sublist root := by
  induction root generalizing root' with
  | nil => cases heq
  | cons tmp rest ih =>
    rw [releaseRegion] at heq
    split_ifs at heq with h1 h2 h3
    · cases hrel : releaseRegion start len client rest with
      | error e =>
        rw [hrel] at heq
        cases heq
      | ok rest' =>
        rw [hrel] at heq
        obtain rfl : tmp :: rest' = root' := Except.ok.inj heq
        obtain ⟨hholds, hsub⟩ := ih hrel
        exact ⟨List.mem_cons_of_mem _ hholds, hsub.cons_cons tmp⟩
    · obtain rfl : rest = root' := Except.ok.inj heq
      push Not at h2 h3
      refine ⟨?_, List.sublist_cons_self tmp rest⟩
      obtain ⟨rfl, hend⟩ := h2
      subst h3
      rw [Holds, ← hend]
      exact List.mem_cons_self

theorem regionEnd_ports (h0 : len ≠ 0) (h : start + len - 1 ≤ maxIoPort) :
    regionEnd start len = start + len - 1 := by
  simp only [maxIoPort] at h
  rw [regionEnd, Word.add_eq (by omega), Word.sub_eq (by omega) (by omega)]

/-! ## Runs -/

namespace State

/-- One request, or one of the internal callbacks of the PCI library. -/
inductive Step : State → State → Prop
  | register {s s' caller memory reply unmapped} (h : s.registerClient caller memory = .done s' reply unmapped) :
      Step s s'
  | unregister {s s' caller client reply unmapped}
      (h : s.unregisterClient caller client = .done s' reply unmapped) : Step s s'
  | requestPorts {s s' caller addr len memory pager reply unmapped} (ha : addr < 2 ^ 16) (hl : len < 2 ^ 16)
      (h : s.requestPorts caller addr len memory pager = .done s' reply unmapped) : Step s s'
  | releasePorts {s s' caller addr len reply unmapped} (ha : addr < 2 ^ 16) (hl : len < 2 ^ 16)
      (h : s.releasePorts caller addr len = .done s' reply unmapped) : Step s s'
  | requestMem {s s' caller addr len memory reply unmapped} (ha : addr < 2 ^ 32) (hl : len < 2 ^ 32)
      (h : s.requestMem caller addr len memory = .done s' reply unmapped) : Step s s'
  | releaseMem {s s' caller addr len reply unmapped} (ha : addr < 2 ^ 32) (hl : len < 2 ^ 32)
      (h : s.releaseMem caller addr len = .done s' reply unmapped) : Step s s'
  | releaseClient {s s' client reply unmapped} (h : s.releaseClient client = .done s' reply unmapped) : Step s s'
  | requestOwnPorts {s addr len} (ha : addr < 2 ^ 32) (hl : len < 2 ^ 32) :
      Step s (s.requestOwnPorts addr len)
  | requestOwnMem {s addr len} (ha : addr < 2 ^ 32) (hl : len < 2 ^ 32) : Step s (s.requestOwnMem addr len)
  | announceMem {s addr len vaddr} (ha : addr < 2 ^ 32) (hl : len < 2 ^ 32) :
      Step s (s.announceMem addr len vaddr)

variable {s s' : State} {caller addr : Nat}

def Reach (self : Nat) : State → Prop := Relation.ReflTransGen Step (init self)

/-- The invariant of the server. -/
structure Inv (s : State) : Prop where
  ports : Exclusive maxIoPort s.ioPortRes
  memory : Exclusive maxIoMemory s.ioMemRes

theorem inv_init {self : Nat} : (init self).Inv := ⟨⟨.nil, nofun⟩, ⟨.nil, nofun⟩⟩

theorem Outcome.done_inj {α : Type} {t t' : State} {p p' : Except Error α} {u u' : Unmapped}
    (h : Outcome.done t p u = .done t' p' u') : t = t' ∧ p = p' ∧ u = u' := by
  cases h
  exact ⟨rfl, rfl, rfl⟩

/-- A request for ports fails and changes nothing, or the region was free and its chunks are sent. -/
theorem requestPorts_cases {memory pager : Bool} {reply : Except Error (List IoFpage)} {unmapped : Unmapped}
    (h : s.requestPorts caller addr len memory pager = .done s' reply unmapped) :
    (s' = s ∧ ∃ e, reply = .error e) ∨
      ∃ res regions, len ≠ 0 ∧ addr + len - 1 ≤ maxIoPort ∧
        requestRegion addr len maxIoPort s.ioPortRes caller = .ok res ∧
        processPortRegion (len + 1) addr len = some regions ∧
        s' = { s with ioPortRes := res } ∧ reply = .ok regions := by
  rw [State.requestPorts] at h
  by_cases h0 : len = 0
  · rw [if_pos h0] at h
    obtain ⟨rfl, rfl, -⟩ := Outcome.done_inj h
    exact .inl ⟨rfl, _, rfl⟩
  rw [if_neg h0] at h
  by_cases hmax : maxIoPort < addr + len - 1
  · rw [if_pos hmax] at h
    obtain ⟨rfl, rfl, -⟩ := Outcome.done_inj h
    exact .inl ⟨rfl, _, rfl⟩
  rw [if_neg hmax] at h
  by_cases hc : s.findClient caller = false
  · rw [if_pos hc] at h
    obtain ⟨rfl, rfl, -⟩ := Outcome.done_inj h
    exact .inl ⟨rfl, _, rfl⟩
  rw [if_neg hc] at h
  cases hr : requestRegion addr len maxIoPort s.ioPortRes caller with
  | error e =>
    rw [hr] at h
    obtain ⟨rfl, rfl, -⟩ := Outcome.done_inj h
    exact .inl ⟨rfl, _, rfl⟩
  | ok res =>
    cases hp : processPortRegion (len + 1) addr len with
    | none =>
      rw [hr, hp] at h
      dsimp only at h
      split_ifs at h
    | some regions =>
      rw [hr, hp] at h
      dsimp only at h
      split_ifs at h
      obtain ⟨rfl, rfl, -⟩ := Outcome.done_inj h
      exact .inr ⟨res, regions, h0, Nat.le_of_not_lt hmax, rfl, rfl, rfl, rfl⟩

theorem requestPorts_of_free {res : List IoRes} {regions : List IoFpage} (h0 : len ≠ 0)
    (hmax : addr + len - 1 ≤ maxIoPort) (hc : s.findClient caller = true)
    (hres : requestRegion addr len maxIoPort s.ioPortRes caller = .ok res)
    (hp : processPortRegion (len + 1) addr len = some regions) :
    s.requestPorts caller addr len true true = .done { s with ioPortRes := res } (.ok regions) ⟨[], []⟩ := by
  rw [State.requestPorts, if_neg h0, if_neg (Nat.not_lt.mpr hmax), if_neg (by simp [hc]), hres, hp]
  rfl

theorem requestMem_cases {memory : Bool} {reply : Except Error (Nat × Fpage)} {unmapped : Unmapped}
    (h : s.requestMem caller addr len memory = .done s' reply unmapped) :
    (s' = s ∧ ∃ e, reply = .error e) ∨
      ∃ res, requestRegion addr len maxIoMemory s.ioMemRes caller = .ok res ∧
        s' = { s with ioMemRes := res } := by
  rw [State.requestMem] at h
  by_cases hc : s.findClient caller = false
  · rw [if_pos hc] at h
    obtain ⟨rfl, rfl, -⟩ := Outcome.done_inj h
    exact .inl ⟨rfl, _, rfl⟩
  rw [if_neg hc] at h
  cases hp : s.findAres addr len with
  | none =>
    rw [hp] at h
    obtain ⟨rfl, rfl, -⟩ := Outcome.done_inj h
    exact .inl ⟨rfl, _, rfl⟩
  | some p =>
    cases hr : requestRegion addr len maxIoMemory s.ioMemRes caller with
    | error e =>
      rw [hp, hr] at h
      obtain ⟨rfl, rfl, -⟩ := Outcome.done_inj h
      exact .inl ⟨rfl, _, rfl⟩
    | ok res =>
      rw [hp, hr] at h
      split_ifs at h
      obtain ⟨rfl, -, -⟩ := Outcome.done_inj h
      exact .inr ⟨res, rfl, rfl⟩

/-- A request to release ports: whatever the list says, the ports are unmapped. -/
theorem releasePorts_eq (hc : s.findClient caller = true) {regions : List IoFpage}
    (hp : processPortRegion (len + 1) addr len = some regions) :
    s.releasePorts caller addr len =
      match releaseRegion addr len caller s.ioPortRes with
      | .error e => .done s (.error e) ⟨regions, []⟩
      | .ok res => .done { s with ioPortRes := res } (.ok ()) ⟨regions, []⟩ := by
  cases hr : releaseRegion addr len caller s.ioPortRes <;>
    rw [State.releasePorts, if_neg (by simp [hc]), hp, hr]

theorem releaseMem_cases (s : State) (caller addr len : Nat) :
    (∃ e, s.releaseMem caller addr len = .done s (.error e) ⟨[], []⟩) ∨
      ∃ res, releaseRegion addr len caller s.ioMemRes = .ok res ∧
        ∀ s' reply unmapped, s.releaseMem caller addr len = .done s' reply unmapped →
          s' = { s with ioMemRes := res } := by
  rw [State.releaseMem]
  by_cases hc : s.findClient caller = false
  · rw [if_pos hc]
    exact .inl ⟨_, rfl⟩
  rw [if_neg hc]
  cases hr : releaseRegion addr len caller s.ioMemRes with
  | error e => exact .inl ⟨e, rfl⟩
  | ok res =>
    refine .inr ⟨res, rfl, fun s' reply unmapped h => ?_⟩
    cases hp : s.findAres addr len with
    | none =>
      rw [hp] at h
      cases h
    | some p =>
      rw [hp] at h
      exact (Outcome.done_inj h).1.symm

/-- Every step keeps the lists sorted and their regions disjoint. -/
theorem Inv.step (h : s.Inv) (hstep : Step s s') : s'.Inv := by
  cases hstep with
  | register heq =>
    rw [registerClient] at heq
    split_ifs at heq <;> (obtain ⟨rfl, -, -⟩ := Outcome.done_inj heq; exact ⟨h.ports, h.memory⟩)
  | unregister heq =>
    rw [unregisterClient] at heq
    split_ifs at heq <;> (obtain ⟨rfl, -, -⟩ := Outcome.done_inj heq; exact ⟨h.ports, h.memory⟩)
  | requestPorts _ _ heq =>
    rcases requestPorts_cases heq with ⟨rfl, -⟩ | ⟨res, regions, -, -, hres, -, rfl, -⟩
    · exact h
    · exact ⟨(requestRegion_spec h.ports hres).1, h.memory⟩
  | @releasePorts _ caller addr len _ _ _ hl heq =>
    cases hc : s.findClient caller with
    | false =>
      rw [State.releasePorts, if_pos hc] at heq
      obtain ⟨rfl, -, -⟩ := Outcome.done_inj heq
      exact h
    | true =>
      obtain ⟨regions, hsplit⟩ := exists_splits addr hl
      rw [releasePorts_eq hc hsplit.result] at heq
      cases hr : releaseRegion addr len caller s.ioPortRes with
      | error e =>
        rw [hr] at heq
        obtain ⟨rfl, -, -⟩ := Outcome.done_inj heq
        exact h
      | ok res =>
        rw [hr] at heq
        obtain ⟨rfl, -, -⟩ := Outcome.done_inj heq
        exact ⟨h.ports.sublist (releaseRegion_spec hr).2, h.memory⟩
  | requestMem _ _ heq =>
    rcases requestMem_cases heq with ⟨rfl, -⟩ | ⟨res, hres, rfl⟩
    · exact h
    · exact ⟨h.ports, (requestRegion_spec h.memory hres).1⟩
  | @releaseMem _ caller addr len _ _ _ _ heq =>
    rcases releaseMem_cases s caller addr len with ⟨e, he⟩ | ⟨res, hres, hdone⟩
    · rw [he] at heq
      obtain ⟨rfl, -, -⟩ := Outcome.done_inj heq
      exact h
    · obtain rfl := hdone _ _ _ heq
      exact ⟨h.ports, h.memory.sublist (releaseRegion_spec hres).2⟩
  | releaseClient heq =>
    rw [State.releaseClient] at heq
    split_ifs at heq
    · obtain ⟨rfl, -, -⟩ := Outcome.done_inj heq
      exact h
    · obtain ⟨rfl, -, -⟩ := Outcome.done_inj heq
      exact ⟨h.ports.sublist List.filter_sublist, h.memory.sublist List.filter_sublist⟩
  | @requestOwnPorts addr len _ _ =>
    have hres := h.ports.requestOrKeep addr len s.self
    rw [State.requestOwnPorts]
    exact ⟨hres, h.memory⟩
  | @requestOwnMem addr len _ _ =>
    have hres := h.memory.requestOrKeep addr len s.self
    rw [State.requestOwnMem]
    exact ⟨h.ports, hres⟩
  | announceMem _ _ => exact ⟨h.ports, h.memory⟩

theorem reach_inv {self : Nat} (h : Reach self s) : s.Inv := by
  induction h with
  | refl => exact inv_init
  | tail _ hstep ih => exact ih.step hstep

/-! ## The requests -/

/-- The request changes and unmaps nothing. -/
def Untouched {α : Type} (s : State) (o : Outcome α) : Prop := ∃ reply, o = .done s reply ⟨[], []⟩

/-- Ports that are not empty have a chunk. -/
theorem regions_ne_nil {regions : List IoFpage} (h0 : len ≠ 0)
    (hp : processPortRegion (len + 1) addr len = some regions) : regions ≠ [] := by
  obtain ⟨_, before, behind, -, -, -, -, -, rfl⟩ := processPortRegion_cases (Nat.pos_of_ne_zero h0) hp
  simp

/-- Releasing ports that the caller does not hold is harmless only if the caller is unknown or the region
empty. -/
theorem releasePorts_untouched_iff (hl : len < 2 ^ 16) :
    (¬ Holds s.ioPortRes addr len caller → s.Untouched (s.releasePorts caller addr len)) ↔
      s.findClient caller = false ∨ len = 0 ∨ Holds s.ioPortRes addr len caller := by
  obtain ⟨regions, hsplit⟩ := exists_splits addr hl
  constructor
  · intro h
    by_contra hno
    push Not at hno
    obtain ⟨hc, h0, hholds⟩ := hno
    obtain ⟨reply, heq⟩ := h hholds
    rw [releasePorts_eq (by simpa using hc) hsplit.result] at heq
    cases hr : releaseRegion addr len caller s.ioPortRes with
    | ok res => exact hholds (releaseRegion_spec hr).1
    | error e =>
      rw [hr] at heq
      have hun := (Outcome.done_inj heq).2.2
      exact regions_ne_nil h0 hsplit.result (congrArg Unmapped.ports hun)
  · intro h hholds
    cases hc : s.findClient caller with
    | false => exact ⟨_, by rw [State.releasePorts, if_pos hc, Outcome.fail]⟩
    | true =>
      obtain rfl := (h.resolve_left (by simp [hc])).resolve_right hholds
      have hnil : regions = [] := processPortRegion_zero hsplit.result
      rw [releasePorts_eq hc hsplit.result]
      cases hr : releaseRegion addr 0 caller s.ioPortRes with
      | ok res => exact absurd (releaseRegion_spec hr).1 hholds
      | error e => exact ⟨.error e, by rw [hnil]⟩

theorem releaseMem_untouched (hholds : ¬ Holds s.ioMemRes addr len caller) :
    s.Untouched (s.releaseMem caller addr len) := by
  rcases releaseMem_cases s caller addr len with ⟨e, he⟩ | ⟨res, hres, -⟩
  · exact ⟨_, he⟩
  · exact absurd (releaseRegion_spec hres).1 hholds

/-- What the server guarantees in a state. The last clause is the one that is not met by every request. -/
structure RegionsExclusive (s : State) : Prop where
  ports : Exclusive maxIoPort s.ioPortRes
  memory : Exclusive maxIoMemory s.ioMemRes
  split : ∀ addr len, len < 2 ^ 16 → ∃ regions, Splits addr len regions
  requestPorts : ∀ caller addr len memory pager s' regions unmapped, addr < 2 ^ 16 → len < 2 ^ 16 →
    s.requestPorts caller addr len memory pager = .done s' (.ok regions) unmapped →
    Splits addr len regions ∧ addr + len ≤ 2 ^ 16 ∧ OnlyHolder s'.ioPortRes addr (addr + len - 1) caller
  requestMem : ∀ caller addr len memory s' region unmapped,
    s.requestMem caller addr len memory = .done s' (.ok region) unmapped →
    OnlyHolder s'.ioMemRes addr (regionEnd addr len) caller
  releaseMem : ∀ caller addr len, ¬ Holds s.ioMemRes addr len caller →
    s.Untouched (s.releaseMem caller addr len)
  releasePorts : ∀ caller addr len, len < 2 ^ 16 →
    ((¬ Holds s.ioPortRes addr len caller → s.Untouched (s.releasePorts caller addr len)) ↔
      s.findClient caller = false ∨ len = 0 ∨ Holds s.ioPortRes addr len caller)

end State

end L4env.L4io
