import L4env.Util.Meets
import L4env.DMphys.MemMap

/-!
# The invariant of the memory map

The map of one descriptor is a list of areas that follow each other without a hole (`Spans`). Cutting
an area and joining two keep this. A cut at the beginning needs an area in front: it does not write
the head of the map.
-/

namespace L4env.DMphys

/-- The areas of `l` follow each other from `x` to `y`. -/
def Spans (m : MemMap) : Nat → List Ptr → Nat → Prop
  | x, [], y => x = y
  | x, a :: l, y => m.addr a = x ∧ Spans m (x + m.size a) l y

/-- The areas of `l` are the doubly linked list `mem`, and every one has a descriptor in use. -/
structure Linked (m : MemMap) (l : List Ptr) : Prop where
  links : IsDList m.next m.prev m.mem l
  nodup : l.Nodup
  live : ∀ a ∈ l, a ∈ m.live

structure MapInv (m : MemMap) (lo hi : Nat) (l : List Ptr) : Prop where
  links : IsDList m.next m.prev m.mem l
  nodup : l.Nodup
  live : ∀ a ∈ l, a ∈ m.live
  spans : Spans m lo l hi
  bound : hi ≤ 4294967296
  small : hi < lo + 4294967296

section
variable {m m' : MemMap} {l l₁ l₂ : List Ptr} {a b p : Ptr} {lo hi x y : Nat}

/-! ## The list of areas -/

theorem Linked.prev_eq (L : Linked m (l₁ ++ a :: l₂)) : m.prev a = l₁.getLast? := by
  simpa using L.links.2.middle.1

theorem Linked.next_eq (L : Linked m (l₁ ++ a :: l₂)) : m.next a = l₂.head? := by
  simpa using L.links.2.middle.2

theorem Linked.setArea (L : Linked m l) (v : MemArea) : Linked (m.setArea a v) l :=
  ⟨L.links, L.nodup, L.live⟩

theorem Linked.fresh (L : Linked m l) (ha : a ∈ l) : a ≠ m.pick m.live := fun e =>
  m.pick_not_mem m.live (e ▸ L.live a ha)

/-- A new descriptor was linked behind `b`. -/
theorem Linked.insert (L : Linked m (l₁ ++ b :: l₂)) (hp : p ∉ m.live) (hlive : m'.live = p :: m.live)
    (hmem : m'.mem = m.mem) (hlinks : Links m'.next m'.prev none (l₁ ++ b :: p :: l₂) none) :
    Linked m' (l₁ ++ b :: p :: l₂) := by
  have hperm : (l₁ ++ b :: p :: l₂).Perm (p :: (l₁ ++ b :: l₂)) := by
    rw [show l₁ ++ b :: p :: l₂ = (l₁ ++ [b]) ++ p :: l₂ by simp,
      show l₁ ++ b :: l₂ = (l₁ ++ [b]) ++ l₂ by simp]
    exact List.perm_middle
  have hpl : p ∉ l₁ ++ b :: l₂ := fun h => hp (L.live p h)
  refine ⟨⟨?_, hlinks⟩, ?_, ?_⟩
  · rw [hmem, L.links.1]
    cases l₁ <;> rfl
  · exact hperm.nodup_iff.mpr (List.nodup_cons.mpr ⟨hpl, L.nodup⟩)
  · intro c hc
    rw [hlive, List.mem_cons]
    exact (List.mem_cons.mp (hperm.mem_iff.mp hc)).imp id (L.live c)

theorem Linked.ne_mid (L : Linked m (l₁ ++ a :: l₂)) {e : Ptr} (he : e ∈ l₁ ++ l₂) : e ≠ a := by
  rintro rfl
  have hnd := (List.perm_middle.nodup_iff.mp L.nodup)
  exact (List.nodup_cons.mp hnd).1 he

theorem Linked.mem_mid (_ : Linked m (l₁ ++ a :: l₂)) {e : Ptr} (he : e ∈ l₁ ++ l₂) :
    e ∈ l₁ ++ a :: l₂ := by
  rw [List.mem_append] at he ⊢
  exact he.imp id (List.mem_cons_of_mem a)

/-- A cut at the end of an area puts a new one behind it. -/
theorem Linked.cutEnd (L : Linked m (l₁ ++ a :: l₂)) {n : Nat} (hn : n < m.size a) :
    ∃ p m', m.cutEnd a n = (true, m') ∧ Linked m' (l₁ ++ a :: p :: l₂) ∧
      m'.area a = { m.area a with size := Word.sub (m.size a) n } ∧
      m'.area p = { m.area a with addr := Word.add (m.addr a) (Word.sub (m.size a) n), size := n } ∧
      ∀ e ∈ l₁ ++ l₂, m'.area e = m.area e := by
  refine ⟨m.pick m.live, _, if_neg (Nat.not_le.mpr hn), ?_, ?_, ?_, ?_⟩
  all_goals
    have hp := m.pick_not_mem m.live
    have hpa : a ≠ m.pick m.live := L.fresh (by simp)
  · have hpick : m.pick m.live ∉ l₁ ++ a :: l₂ := fun h => hp (L.live _ h)
    have hnext := L.next_eq
    refine L.insert hp rfl rfl (L.links.2.insert_after L.nodup hpick ?_ ?_ ?_ ?_ ?_ ?_)
    · intro y hya hyp
      simp [MemMap.setArea, hya, hyp]
    · simp
    · simp [MemMap.setArea, hpa, hpa.symm]
    · intro y hyp hy
      simp [MemMap.setArea, hpa]
      rw [writeAt_of_ne hy]
      simp [hyp]
    · simp [MemMap.setArea, hpa]
      have hnp : m.next a ≠ some (m.pick m.live) := fun e =>
        hpick (by rw [hnext] at e; simp [List.mem_of_mem_head? e])
      rw [writeAt_of_ne hnp]
      simp
    · intro c hc
      simp [MemMap.setArea, hpa, hc]
  · simp [MemMap.setArea, MemMap.size]
  · simp [MemMap.setArea, MemMap.addr, MemMap.size, hpa.symm]
  · intro e he
    have hea := L.ne_mid he
    have hep := L.fresh (L.mem_mid he)
    simp [MemMap.setArea, hea, hep]

/-- A cut at the beginning of an area that is not the head of the map puts a new one in front of it. -/
theorem Linked.cutBegin (L : Linked m (l₁ ++ a :: l₂)) (hne : l₁ ≠ []) {n : Nat} (hn : n < m.size a) :
    ∃ p m', m.cutBegin a n = (true, m') ∧ Linked m' ((l₁ ++ [p]) ++ a :: l₂) ∧
      m'.area a = { m.area a with addr := Word.add (m.addr a) n, size := Word.sub (m.size a) n } ∧
      m'.area p = { m.area a with size := n } ∧ ∀ e ∈ l₁ ++ l₂, m'.area e = m.area e := by
  have hp := m.pick_not_mem m.live
  have hpa : a ≠ m.pick m.live := L.fresh (by simp)
  refine ⟨m.pick m.live, _, if_neg (Nat.not_le.mpr hn), ?_, ?_, ?_, ?_⟩
  · have hprev := L.prev_eq
    obtain ⟨l₀, b, rfl⟩ : ∃ l₀ b, l₁ = l₀ ++ [b] := by
      rcases List.eq_nil_or_concat l₁ with rfl | ⟨l₀, b, rfl⟩
      · exact absurd rfl hne
      · exact ⟨l₀, b, List.concat_eq_append⟩
    rw [List.getLast?_concat] at hprev
    have hpb := L.fresh (a := b) (by simp)
    rw [show l₀ ++ [b] ++ [m.pick m.live] ++ a :: l₂ = l₀ ++ b :: m.pick m.live :: a :: l₂ by simp]
    rw [show l₀ ++ [b] ++ a :: l₂ = l₀ ++ b :: a :: l₂ by simp] at L
    have hpick : m.pick m.live ∉ l₀ ++ b :: a :: l₂ := fun h => hp (L.live _ h)
    have hnb : m.next b = some a := L.next_eq
    refine L.insert hp rfl rfl (L.links.2.insert_after L.nodup hpick ?_ ?_ ?_ ?_ ?_ ?_)
    · intro y hyb hyp
      simp [MemMap.setArea, hpa, hprev, writeAt, hyb, hyp]
    · simp [MemMap.setArea, hpa, hprev, writeAt]
    · simp [MemMap.setArea, hpa, hprev, writeAt, hpb.symm, hnb]
    · intro y hyp hy
      have hya : y ≠ a := fun e => hy (by rw [hnb, e])
      simp [MemMap.setArea, hya, hyp]
    · simp [MemMap.setArea, hpa, hpa.symm, hprev]
    · intro c hc
      cases hnb.symm.trans hc
      simp
  · simp [MemMap.setArea, MemMap.addr, MemMap.size]
  · simp [MemMap.setArea, hpa.symm]
  · intro e he
    have hea := L.ne_mid he
    have hep := L.fresh (L.mem_mid he)
    simp [MemMap.setArea, hea, hep]

/-- No reserved area in front: nothing is joined. -/
theorem Linked.joinPrev_of_ne (L : Linked m (l₁ ++ a :: l₂))
    (h : ∀ b, l₁.getLast? = some b → m.flags b ≠ .reserved) : m.joinPrev a = m := by
  have hprev := L.prev_eq
  rw [MemMap.joinPrev, hprev]
  cases hb : l₁.getLast? with
  | none => rfl
  | some b => exact if_neg (h b hb)

/-- A reserved area in front is joined. -/
theorem Linked.joinPrev (L : Linked m (l₁ ++ b :: a :: l₂)) (hr : m.flags b = .reserved) :
    Linked (m.joinPrev a) (l₁ ++ a :: l₂) ∧ (m.joinPrev a).area = Function.update m.area a
      { m.area a with addr := m.addr b, size := Word.add (m.size a) (m.size b) } := by
  have hprev : m.prev a = some b := by
    rw [show l₁ ++ b :: a :: l₂ = (l₁ ++ [b]) ++ a :: l₂ by simp] at L
    rw [L.prev_eq, List.getLast?_concat]
  have hpb := L.prev_eq
  have hnb : m.next b = some a := L.next_eq
  -- the two ways to write the link to the joined area
  have hcases : m.joinPrev a =
      { m.setArea a { m.area a with addr := m.addr b, size := Word.add (m.size a) (m.size b) } with
        prev := Function.update m.prev a l₁.getLast?
        next := writeAt m.next l₁.getLast? (some a)
        mem := if l₁ = [] then some a else m.mem
        live := m.live.erase b } := by
    simp only [MemMap.joinPrev, hprev, hr, if_true]
    rcases List.eq_nil_or_concat l₁ with rfl | ⟨l', q, rfl⟩
    · have : m.prev b = none := by simpa using hpb
      simp [MemMap.setArea, MemMap.releaseMemmapDesc, this, writeAt]
    · have : m.prev b = some q := by simpa using hpb
      simp [MemMap.setArea, MemMap.releaseMemmapDesc, this, writeAt]
  rw [hcases]
  have hnd : (b :: (l₁ ++ a :: l₂)).Nodup := List.perm_middle.nodup_iff.mp L.nodup
  obtain ⟨hb, hnd⟩ := List.nodup_cons.mp hnd
  refine ⟨⟨⟨?_, ?_⟩, hnd, ?_⟩, rfl⟩
  · have := L.links.1
    cases l₁ with
    | nil => rfl
    | cons c l₁ => simpa using this
  · refine L.links.2.remove L.nodup ?_ ?_ ?_ ?_
    · intro y _ hy
      exact writeAt_of_ne (hpb ▸ hy)
    · intro q hq
      rw [hpb] at hq
      simp [hq, hnb]
    · intro y _ hy
      have hya : y ≠ a := fun e => hy (by rw [hnb, e])
      simp [hya]
    · intro c hc
      cases hnb.symm.trans hc
      simp [hpb]
  · intro c hc
    have hcb : c ≠ b := fun e => hb (e ▸ hc)
    exact (List.mem_erase_of_ne hcb).mpr (L.live c (L.mem_mid hc))

theorem Linked.length_le (L : Linked m l) : l.length ≤ m.live.length :=
  (L.nodup.subperm fun a ha => L.live a ha).length_le

/-- A scan from an area of the map on. -/
theorem Linked.scan (L : Linked m (l₁ ++ l₂)) (stop : Ptr → Bool) :
    ∃ r, scan m.next stop m.listFuel l₂.head? = some r ∧
      ∀ b, r = some b → stop b = true ∧ ∃ k₁ k₂, l₂ = k₁ ++ b :: k₂ ∧ ∀ c ∈ k₁, stop c = false := by
  have hlen := L.length_le
  have hs := (links_append.mp L.links.2).2.isSList
  refine ⟨l₂.find? stop, hs.scan_eq ?_, fun b hb => ?_⟩
  · simp only [List.length_append] at hlen
    simp only [MemMap.listFuel]
    omega
  · obtain ⟨h, k₁, k₂, heq, hall⟩ := List.find?_eq_some_iff_append.mp hb
    exact ⟨h, k₁, k₂, heq, fun c hc => by simpa using hall c hc⟩

theorem Linked.findAddr (L : Linked m l) (addr : Nat) :
    m.findAddr addr = .ok none ∨ ∃ l₁ a l₂, l = l₁ ++ a :: l₂ ∧ m.findAddr addr = .ok (some a) ∧
      addr < m.physMemHigh ∧ addr < m.areaEnd a ∧ ∀ b ∈ l₁, m.areaEnd b ≤ addr := by
  unfold MemMap.findAddr
  split
  · exact .inl rfl
  next hhigh =>
    have L₀ : Linked m ([] ++ l) := L
    obtain ⟨r, hr, h⟩ := L₀.scan (fun mp => !decide (m.areaEnd mp ≤ addr))
    rw [L.links.1, hr]
    cases r with
    | none => exact .inl rfl
    | some a =>
      obtain ⟨hstop, l₁, l₂, rfl, hall⟩ := h a rfl
      refine .inr ⟨l₁, a, l₂, rfl, rfl, by omega, by simpa using hstop, fun b hb => ?_⟩
      simpa using hall b hb

/-! ## Areas without holes -/

theorem spans_append :
    Spans m x (l₁ ++ l₂) y ↔ ∃ z, Spans m x l₁ z ∧ Spans m z l₂ y := by
  induction l₁ generalizing x with
  | nil => simp [Spans]
  | cons a l ih => simp only [List.cons_append, Spans, ih, and_assoc, exists_and_left]

theorem Spans.le (h : Spans m x l y) : x ≤ y := by
  induction l generalizing x with
  | nil => exact h.le
  | cons a l ih =>
    have := ih h.2
    omega

theorem Spans.congr (h : Spans m x l y) (ha : ∀ a ∈ l, m'.area a = m.area a) : Spans m' x l y := by
  induction l generalizing x with
  | nil => exact h
  | cons a l ih =>
    have he := ha a (by simp)
    refine ⟨by rw [MemMap.addr, he]; exact h.1, ?_⟩
    rw [MemMap.size, he]
    exact ih h.2 fun b hb => ha b (by simp [hb])

/-- Areas that follow each other are in order. -/
theorem Spans.sorted (h : Spans m x l y) :
    (∀ a ∈ l, x ≤ m.addr a) ∧ l.Pairwise fun a b => m.addr a + m.size a ≤ m.addr b := by
  induction l generalizing x with
  | nil => exact ⟨by simp, .nil⟩
  | cons a l ih =>
    obtain ⟨h1, h2⟩ := ih h.2
    have ha := h.1
    refine ⟨fun b hb => ?_, List.pairwise_cons.mpr ⟨fun b hb => ?_, h2⟩⟩
    · rcases List.mem_cons.mp hb with rfl | hb
      · exact ha.ge
      · have := h1 b hb
        omega
    · have := h1 b hb
      omega

/-- Areas that follow each other cover their range. -/
theorem Spans.cover (h : Spans m x l y) (z : Nat) :
    (∃ a ∈ l, m.addr a ≤ z ∧ z < m.addr a + m.size a) ↔ x ≤ z ∧ z < y := by
  induction l generalizing x with
  | nil =>
    have : x = y := h
    simp
    omega
  | cons a l ih =>
    have ha := h.1
    have hle := h.2.le
    simp only [List.mem_cons, exists_eq_or_imp, ih h.2]
    omega

theorem MapInv.split (I : MapInv m lo hi (l₁ ++ a :: l₂)) :
    Spans m lo l₁ (m.addr a) ∧ Spans m (m.addr a + m.size a) l₂ hi ∧ lo ≤ m.addr a ∧
      m.addr a + m.size a ≤ hi ∧ m.size a < 4294967296 := by
  obtain ⟨z, h1, h2⟩ := spans_append.mp I.spans
  obtain ⟨rfl, h2⟩ := h2
  have := h1.le
  have := h2.le
  have := I.small
  exact ⟨h1, h2, by omega, by omega, by omega⟩

theorem MapInv.linked (I : MapInv m lo hi l) : Linked m l := ⟨I.links, I.nodup, I.live⟩

theorem MapInv.of_linked (I : MapInv m lo hi l) {l' : List Ptr} (L : Linked m' l')
    (hspans : Spans m' lo l' hi) : MapInv m' lo hi l' :=
  ⟨L.links, L.nodup, L.live, hspans, I.bound, I.small⟩

theorem MapInv.next_eq (I : MapInv m lo hi (l₁ ++ a :: l₂)) : m.next a = l₂.head? := I.linked.next_eq

/-- New attributes of an area. -/
theorem MapInv.setArea (I : MapInv m lo hi l) {v : MemArea} (ha : v.addr = m.addr a)
    (hs : v.size = m.size a) : MapInv (m.setArea a v) lo hi l := by
  refine ⟨I.links, I.nodup, I.live, ?_, I.bound, I.small⟩
  have hsame : ∀ b, (m.setArea a v).addr b = m.addr b ∧ (m.setArea a v).size b = m.size b := by
    intro b
    by_cases hb : b = a
    · subst hb; simp [MemMap.setArea, MemMap.addr, MemMap.size] at ha hs ⊢; exact ⟨ha, hs⟩
    · simp [MemMap.setArea, MemMap.addr, MemMap.size, Function.update_of_ne hb]
  have := I.spans
  clear I
  induction l generalizing lo with
  | nil => exact this
  | cons b l ih =>
    refine ⟨(hsame b).1.trans this.1, ?_⟩
    rw [(hsame b).2]
    exact ih this.2

/-- An area was cut in two, `b` followed by `c`, where one of the two is the old descriptor. -/
theorem Spans.cut {c : Ptr} (h1 : Spans m x l₁ z) (h2 : Spans m w l₂ y)
    (hn1 : ∀ e ∈ l₁, m'.area e = m.area e) (hn2 : ∀ e ∈ l₂, m'.area e = m.area e)
    (hb : m'.addr b = z) (hc : m'.addr c = z + m'.size b) (hw : z + m'.size b + m'.size c = w) :
    Spans m' x (l₁ ++ b :: c :: l₂) y := by
  refine spans_append.mpr ⟨z, h1.congr hn1, hb, hc, ?_⟩
  rw [hw]
  exact h2.congr hn2

/-- A cut at the end of an area. -/
theorem MapInv.cutEnd (I : MapInv m lo hi (l₁ ++ a :: l₂)) {n : Nat} (hn : 0 < n) :
    m.cutEnd a n = (false, m) ∧ m.size a ≤ n ∨ n < m.size a ∧ ∃ p m', m.cutEnd a n = (true, m') ∧
      m'.area a = { m.area a with size := m.size a - n } ∧ MapInv m' lo hi (l₁ ++ a :: p :: l₂) := by
  by_cases hsz : m.size a ≤ n
  · exact .inl ⟨if_pos hsz, hsz⟩
  have hlt := Nat.not_le.mp hsz
  obtain ⟨p, m', heq, L, harea, hnew, hrest⟩ := I.linked.cutEnd hlt
  obtain ⟨h1, h2, hlo, hhi, hs⟩ := I.split
  have hb := I.bound
  have e2 : Word.sub (m.size a) n = m.size a - n := Word.sub_eq (by omega) hs
  have e1 : Word.add (m.addr a) (m.size a - n) = m.addr a + (m.size a - n) := Word.add_eq (by omega)
  rw [e2] at harea hnew
  rw [e1] at hnew
  have hsize : m'.size a = m.size a - n := by rw [MemMap.size, harea]
  refine .inr ⟨hlt, p, m', heq, harea, I.of_linked L (Spans.cut h1 h2 ?_ ?_ ?_ ?_ ?_)⟩
  · exact fun e he => hrest e (List.mem_append_left l₂ he)
  · exact fun e he => hrest e (List.mem_append_right l₁ he)
  · rw [MemMap.addr, harea]
    rfl
  · rw [hsize, MemMap.addr, hnew]
  · have hp : m'.size p = n := by rw [MemMap.size, hnew]
    rw [hsize, hp]
    show m.addr a + (m.size a - n) + n = m.addr a + m.size a
    omega

/-- A cut at the beginning of an area that is not the head of the map. -/
theorem MapInv.cutBegin (I : MapInv m lo hi (l₁ ++ a :: l₂)) (hne : l₁ ≠ []) (n : Nat) :
    m.cutBegin a n = (false, m) ∨ ∃ p m', m.cutBegin a n = (true, m') ∧ m'.prev a = some p ∧
      m'.addr a = m.addr a + n ∧ MapInv m' lo hi ((l₁ ++ [p]) ++ a :: l₂) := by
  by_cases hsz : m.size a ≤ n
  · exact .inl (if_pos hsz)
  obtain ⟨p, m', heq, L, harea, hnew, hrest⟩ := I.linked.cutBegin hne (Nat.not_le.mp hsz)
  obtain ⟨h1, h2, hlo, hhi, hs⟩ := I.split
  have hb := I.bound
  have e1 : Word.add (m.addr a) n = m.addr a + n := Word.add_eq (by omega)
  have e2 : Word.sub (m.size a) n = m.size a - n := Word.sub_eq (by omega) hs
  rw [e1, e2] at harea
  have haddr : m'.addr a = m.addr a + n := by rw [MemMap.addr, harea]
  have hsize : m'.size p = n := by rw [MemMap.size, hnew]
  refine .inr ⟨p, m', heq, ?_, haddr, I.of_linked L ?_⟩
  · rw [L.prev_eq, List.getLast?_concat]
  rw [show l₁ ++ [p] ++ a :: l₂ = l₁ ++ p :: a :: l₂ by simp]
  refine Spans.cut h1 h2 ?_ ?_ ?_ ?_ ?_
  · exact fun e he => hrest e (List.mem_append_left l₂ he)
  · exact fun e he => hrest e (List.mem_append_right l₁ he)
  · rw [MemMap.addr, hnew]
    rfl
  · rw [haddr, hsize]
  · rw [hsize, MemMap.size, harea]
    show m.addr a + n + (m.size a - n) = m.addr a + m.size a
    omega

/-- A reserved area in front is joined. -/
theorem MapInv.joinPrev (I : MapInv m lo hi (l₁ ++ a :: l₂)) :
    ∃ l₁', MapInv (m.joinPrev a) lo hi (l₁' ++ a :: l₂) ∧
      (m.joinPrev a).addr a + (m.joinPrev a).size a = m.addr a + m.size a := by
  rcases List.eq_nil_or_concat l₁ with rfl | ⟨l₀, b, rfl⟩
  · refine ⟨[], ?_⟩
    rw [I.linked.joinPrev_of_ne fun b hb => by cases hb]
    exact ⟨I, rfl⟩
  rw [List.concat_eq_append] at I
  by_cases hr : m.flags b = .reserved
  swap
  · refine ⟨l₀ ++ [b], ?_⟩
    rw [I.linked.joinPrev_of_ne fun c hc => by rw [List.getLast?_concat] at hc; cases hc; exact hr]
    exact ⟨I, rfl⟩
  obtain ⟨-, h2, -, hhi, -⟩ := I.split
  rw [show l₀ ++ [b] ++ a :: l₂ = l₀ ++ b :: a :: l₂ by simp] at I
  obtain ⟨h1, ⟨hab, -⟩, hlo, -, -⟩ := I.split
  have hb := I.small
  have e1 : Word.add (m.size a) (m.size b) = m.size a + m.size b := Word.add_eq (by omega)
  obtain ⟨L, harea⟩ := I.linked.joinPrev hr
  rw [e1] at harea
  have hself : (m.joinPrev a).area a =
      { m.area a with addr := m.addr b, size := m.size a + m.size b } := by
    rw [harea, Function.update_self]
  have haddr : (m.joinPrev a).addr a = m.addr b := by rw [MemMap.addr, hself]
  have hsize : (m.joinPrev a).size a = m.size a + m.size b := by rw [MemMap.size, hself]
  have hsame : ∀ e ∈ l₀ ++ l₂, (m.joinPrev a).area e = m.area e := fun e he => by
    rw [harea, Function.update_of_ne (L.ne_mid he)]
  refine ⟨l₀, I.of_linked L (spans_append.mpr ⟨m.addr b, ?_, haddr, ?_⟩), ?_⟩
  · exact h1.congr fun e he => hsame e (List.mem_append_left l₂ he)
  · rw [hsize, show m.addr b + (m.size a + m.size b) = m.addr a + m.size a by omega]
    exact h2.congr fun e he => hsame e (List.mem_append_right l₀ he)
  · rw [haddr, hsize]
    omega

end

end L4env.DMphys
