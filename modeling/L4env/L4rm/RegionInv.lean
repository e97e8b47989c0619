import L4env.L4rm.RegionList
import L4env.L4rm.AvlMap

/-!
# L4RM: the invariant of the region list

The cells of the region list tile the address space, start at page boundaries, and free regions
with equal flags do not follow each other. An area is named by the page number of its first address:
its regions lie behind this address, and the address itself belongs to the area. This is what keeps
a new area from getting the flags of one that exists.

The lemmas here are about lists of cells only: what a new region (`Cut`) and a join (`Joins`) do.
-/

namespace L4env.L4rm

open Rm

namespace Cell

def start (c : Cell) : Nat := c.reg.start

def last (c : Cell) : Nat := c.reg.last

def area (c : Cell) : Nat := c.reg.flags.area

/-- The entry of the region tree for a used region. -/
def entry (c : Cell) : Entry := ⟨⟨c.reg.start, c.reg.last⟩, c.ptr⟩

end Cell

/-- The address is in the region. -/
def Cell.At (c : Cell) (k : Nat) : Prop := c.start ≤ k ∧ k ≤ c.last

/-- The address is in a region of this type. -/
def TypeAt (l : List Cell) (k : Nat) (t : RegionType) : Prop :=
  ∃ c ∈ l, c.At k ∧ c.reg.flags.type = t

/-- The areas in use, other than the area `x` that is being released. -/
def Areas (x : Nat) (l : List Cell) : Prop :=
  ∀ c ∈ l, c.area ≠ defaultArea → c.area ≠ x → c.area * pageSize ≤ c.start ∧
    ∃ d ∈ l, d.area = c.area ∧ d.start ≤ c.area * pageSize ∧ c.area * pageSize ≤ d.last

/-- The regions tile the address space from `a` to `e`. -/
structure Layout (a e : Nat) (l : List Cell) : Prop where
  tiles : Tiles Cell.start Cell.last a l e
  aligned : ∀ c ∈ l, pageSize ∣ c.start

section
variable {a e x : Nat} {l l' l₁ l₂ m : List Cell} {c d : Cell} {p : Ptr} {r : Region}

/-! ## Joins -/

theorem Rm.Joins.layout (h : Joins l l') (L : Layout a e l) : Layout a e l' := by
  cases h with
  | @join l₁ l₂ a b c hfree hflags hstart hlast hc =>
    refine ⟨?_, fun d hd => ?_⟩
    · have ht := L.tiles
      refine Tiles.splice (m := [a, b]) (n := [c]) ht fun k n hab => ?_
      simp only [tiles_cons, tiles_nil, Cell.start, Cell.last] at hab ⊢
      obtain ⟨h1, h2, h3, h4, h5⟩ := hab
      refine ⟨by rw [hstart, h1], by omega, by rw [hlast, h5]⟩
    · simp only [List.mem_append, List.mem_cons] at hd
      obtain hd | rfl | hd := hd
      · exact L.aligned d (by simp [hd])
      · rw [Cell.start, hstart]
        exact L.aligned a (by simp)
      · exact L.aligned d (by simp [hd])

theorem Rm.Joins.areas (h : Joins l l') (L : Layout a e l) (H : Areas x l) : Areas x l' := by
  cases h with
  | @join l₁ l₂ a b c hfree hflags hstart hlast hc =>
    have harea : c.area = a.area := by rw [Cell.area, hc, Cell.area]
    have harea' : c.area = b.area := by rw [Cell.area, hc, hflags, Cell.area]
    obtain ⟨k, h1, h2⟩ := tiles_append.mp L.tiles
    simp only [tiles_cons, Cell.start, Cell.last] at h2
    -- the joined region covers what its two parts covered
    have hcover : ∀ d ∈ l₁ ++ a :: b :: l₂, ∀ k, d.start ≤ k → k ≤ d.last →
        ∃ d' ∈ l₁ ++ c :: l₂, d'.area = d.area ∧ d'.start ≤ k ∧ k ≤ d'.last := by
      intro d hd k hk1 hk2
      simp only [List.mem_append, List.mem_cons] at hd
      simp only [Cell.start, Cell.last] at *
      obtain hd | rfl | rfl | hd := hd
      · exact ⟨d, by simp [hd], rfl, hk1, hk2⟩
      · exact ⟨c, by simp, harea, by omega, by omega⟩
      · exact ⟨c, by simp, harea', by omega, by omega⟩
      · exact ⟨d, by simp [hd], rfl, hk1, hk2⟩
    have hold : ∀ d ∈ l₁ ++ a :: b :: l₂, d.area ≠ defaultArea → d.area ≠ x →
        d.area * pageSize ≤ d.start ∧ ∃ d' ∈ l₁ ++ c :: l₂, d'.area = d.area ∧
          d'.start ≤ d.area * pageSize ∧ d.area * pageSize ≤ d'.last := by
      intro d hd h0 hx
      obtain ⟨hle, d', hd', ha', hs, hl⟩ := H d hd h0 hx
      obtain ⟨d'', hd'', ha'', hs', hl'⟩ := hcover d' hd' _ hs hl
      exact ⟨hle, d'', hd'', ha''.trans ha', hs', hl'⟩
    intro d hd h0 hx
    simp only [List.mem_append, List.mem_cons] at hd
    obtain hd | rfl | hd := hd
    · exact hold d (by simp [hd]) h0 hx
    · have := hold a (by simp) (harea ▸ h0) (harea ▸ hx)
      rw [← harea] at this
      refine ⟨?_, this.2⟩
      rw [Cell.start, hstart]
      exact this.1
    · exact hold d (by simp [hd]) h0 hx

/-- Joins keep the used regions. -/
theorem Rm.Joins.used (h : Joins l l') : (d ∈ l' ∧ d.reg.used = true) ↔ (d ∈ l ∧ d.reg.used = true) := by
  cases h with
  | @join l₁ l₂ a b c hfree hflags hstart hlast hc =>
    have ha : a.reg.used = false := hfree
    have hb : b.reg.used = false := by rw [← used_eq hflags, hfree]
    have hc : c.reg.used = false := by rw [used_eq hc, hfree]
    simp only [List.mem_append, List.mem_cons]
    constructor
    · intro ⟨hd, hu⟩
      obtain hd | rfl | hd := hd
      · exact ⟨.inl hd, hu⟩
      · rw [hc] at hu
        cases hu
      · exact ⟨.inr (.inr (.inr hd)), hu⟩
    · intro ⟨hd, hu⟩
      obtain hd | rfl | rfl | hd := hd
      · exact ⟨.inl hd, hu⟩
      · rw [ha] at hu
        cases hu
      · rw [hb] at hu
        cases hu
      · exact ⟨.inr (.inr hd), hu⟩

/-- Joins keep the type of every address. -/
theorem Rm.Joins.typeAt (h : Joins l l') (L : Layout a e l) {k : Nat} {t : RegionType} :
    TypeAt l' k t ↔ TypeAt l k t := by
  cases h with
  | @join l₁ l₂ a b c hfree hflags hstart hlast hc =>
    obtain ⟨n, -, h2⟩ := tiles_append.mp L.tiles
    simp only [tiles_cons, Cell.start, Cell.last] at h2
    have hat : c.At k ↔ a.At k ∨ b.At k := by
      simp only [Cell.At, Cell.start, Cell.last, hstart, hlast]
      omega
    simp only [TypeAt, List.mem_append, List.mem_cons, or_and_right, exists_or, exists_eq_left, hat, hc,
      ← hflags, or_assoc]

theorem joins_typeAt (h : Relation.ReflTransGen Joins l l') (L : Layout a e l) {k : Nat}
    {t : RegionType} : Layout a e l' ∧ (TypeAt l' k t ↔ TypeAt l k t) := by
  induction h with
  | refl => exact ⟨L, Iff.rfl⟩
  | tail _ hj ih => exact ⟨hj.layout ih.1, (hj.typeAt ih.1).trans ih.2⟩

/-- What joins keep, for any number of them. -/
theorem joins_keep (h : Relation.ReflTransGen Joins l l') (L : Layout a e l) (H : Areas x l) :
    Layout a e l' ∧ Areas x l' ∧
      ∀ d, (d ∈ l' ∧ d.reg.used = true) ↔ (d ∈ l ∧ d.reg.used = true) := by
  induction h with
  | refl => exact ⟨L, H, fun d => Iff.rfl⟩
  | tail _ hj ih =>
    obtain ⟨L', H', hu⟩ := ih
    exact ⟨hj.layout L', hj.areas L' H', fun d => hj.used.trans (hu d)⟩

/-! ## New regions -/

theorem Rm.Cut.start_le (h : Cut c p r m) : c.start ≤ r.start := by
  cases h <;> simp only [Cell.start] <;> omega

theorem Rm.Cut.tiles (h : Cut c p r m) (hle : r.start ≤ r.last) {k n : Nat} (hc : Tiles Cell.start Cell.last k [c] n) :
    Tiles Cell.start Cell.last k m n := by
  simp only [tiles_cons, tiles_nil, Cell.start, Cell.last] at *
  cases h with
  | replace h3 h4 => simp only [tiles_cons, tiles_nil, Cell.start, Cell.last]; omega
  | front h3 h4 => simp only [tiles_cons, tiles_nil, Cell.start, Cell.last, true_and]; omega
  | back h3 h4 => simp only [tiles_cons, tiles_nil, Cell.start, Cell.last]; omega
  | split h3 h4 => simp only [tiles_cons, tiles_nil, Cell.start, Cell.last, true_and]; omega

theorem Rm.Cut.aligned (h : Cut c p r m) (hc : pageSize ∣ c.start) (hr : pageSize ∣ r.start)
    (hlast : pageSize ∣ r.last + 1) : ∀ d ∈ m, pageSize ∣ d.start := by
  cases h <;> simp_all [Cell.start]

theorem Rm.Cut.layout (h : Cut c p r m) (L : Layout a e (l₁ ++ c :: l₂)) (hle : r.start ≤ r.last)
    (hr : pageSize ∣ r.start)
    (hlast : pageSize ∣ r.last + 1) : Layout a e (l₁ ++ (m ++ l₂)) := by
  refine ⟨Tiles.splice (m := [c]) L.tiles fun k n hc => h.tiles hle hc, fun d hd => ?_⟩
  simp only [List.mem_append] at hd
  obtain hd | hd | hd := hd
  · exact L.aligned d (by simp [hd])
  · exact h.aligned (L.aligned c (by simp)) hr hlast d hd
  · exact L.aligned d (by simp [hd])

theorem Rm.Apart.symm (h : Apart c d) : Apart d c := fun h1 h2 => (h h2 h1).symm

/-- The new region has other flags than the regions around it, if all of them are free. -/
theorem Rm.Cut.chain (h : Cut c p r m) (H : (l₁ ++ c :: l₂).IsChain Apart)
    (hc : Apart c ⟨p, r⟩) (h1 : ∀ b ∈ l₁.getLast?, Apart b ⟨p, r⟩)
    (h2 : ∀ b ∈ l₂.head?, Apart ⟨p, r⟩ b) : (l₁ ++ (m ++ l₂)).IsChain Apart := by
  obtain ⟨H1, H2⟩ := List.isChain_split.mp H
  have hl₁ := (isChain_concat.mp H1).1
  -- the new region with what is behind the free one, and a rest of the free one with it
  have hr : (⟨p, r⟩ :: l₂ : List Cell).IsChain Apart := by
    cases l₂ with
    | nil => exact .singleton _
    | cons b l =>
      exact List.isChain_cons_cons.mpr ⟨h2 b rfl, (List.isChain_cons_cons.mp H2).2⟩
  have hfront : ∀ {d : Cell}, d.reg.flags = c.reg.flags → (⟨p, r⟩ :: d :: l₂ : List Cell).IsChain Apart :=
    fun hd => List.isChain_cons_cons.mpr ⟨hc.symm.congr rfl hd, isChain_cons_congr H2 hd⟩
  have hback : ∀ {d : Cell}, d.reg.flags = c.reg.flags → (l₁ ++ [d]).IsChain Apart :=
    fun hd => isChain_concat_congr H1 hd
  have hp : (l₁ ++ [(⟨p, r⟩ : Cell)]).IsChain Apart := isChain_concat.mpr ⟨hl₁, h1⟩
  cases h with
  | replace => exact List.isChain_split.mpr ⟨hp, hr⟩
  | front => exact List.isChain_split.mpr ⟨hp, hfront rfl⟩
  | back =>
    refine List.isChain_split.mpr ⟨hback rfl, List.isChain_cons_cons.mpr ⟨hc.congr rfl rfl, hr⟩⟩
  | split =>
    exact List.isChain_split.mpr ⟨hback rfl, List.isChain_cons_cons.mpr
      ⟨hc.congr rfl rfl, hfront rfl⟩⟩

/-- The used regions afterwards: the new one, if it is used, and those from before. -/
theorem Rm.Cut.used (h : Cut c p r m) (hfree : c.reg.used = false) :
    (d ∈ l₁ ++ (m ++ l₂) ∧ d.reg.used = true) ↔
      (d ∈ l₁ ++ c :: l₂ ∧ d.reg.used = true) ∨ (d = ⟨p, r⟩ ∧ r.used = true) := by
  have hm : ∀ d ∈ m, d = ⟨p, r⟩ ∨ d.reg.used = false := by
    cases h <;> simp_all [Region.used]
  have hp : ⟨p, r⟩ ∈ m := by cases h <;> simp
  simp only [List.mem_append, List.mem_cons]
  constructor
  · rintro ⟨hd, hu⟩
    obtain hd | hd | hd := hd
    · exact .inl ⟨.inl hd, hu⟩
    · obtain rfl | hd := hm d hd
      · exact .inr ⟨rfl, hu⟩
      · rw [hd] at hu
        cases hu
    · exact .inl ⟨.inr (.inr hd), hu⟩
  · intro hd
    obtain ⟨hd | rfl | hd, hu⟩ | ⟨rfl, hu⟩ := hd
    · exact ⟨.inl hd, hu⟩
    · rw [hfree] at hu
      cases hu
    · exact ⟨.inr (.inr hd), hu⟩
    · exact ⟨.inr (.inl hp), hu⟩

/-- The new region is in the area of the free one, or its own area begins with it. -/
theorem Rm.Cut.areas (h : Cut c p r m) (H : Areas 0 (l₁ ++ c :: l₂)) (hle : r.start ≤ r.last)
    (harea : r.flags.area = c.area ∨ r.flags.area * pageSize = r.start) :
    Areas 0 (l₁ ++ (m ++ l₂)) := by
  have hp : ⟨p, r⟩ ∈ m := by cases h <;> simp
  have hm : ∀ d ∈ m, d = ⟨p, r⟩ ∨ d.area = c.area ∧ c.start ≤ d.start := by
    cases h <;> simp_all [Cell.area, Cell.start] <;> omega
  -- an address of the free region is in a rest of it or in the new region
  have hrest : ∀ k, c.start ≤ k → k ≤ c.last →
      (r.start ≤ k ∧ k ≤ r.last) ∨ ∃ d ∈ m, d.area = c.area ∧ d.start ≤ k ∧ k ≤ d.last := by
    intro k hk1 hk2
    cases h <;> simp only [Cell.start, Cell.last, Cell.area] at * <;> simp <;> omega
  have hcover : ∀ x, (∃ d ∈ l₁ ++ c :: l₂, d.area = x ∧ d.start ≤ x * pageSize ∧
      x * pageSize ≤ d.last) → (x = c.area → x * pageSize ≤ c.start) →
      ∃ d ∈ l₁ ++ (m ++ l₂), d.area = x ∧ d.start ≤ x * pageSize ∧ x * pageSize ≤ d.last := by
    intro x ⟨d, hd, hx, hk1, hk2⟩ hle'
    simp only [List.mem_append, List.mem_cons] at hd
    obtain hd | rfl | hd := hd
    · exact ⟨d, by simp [hd], hx, hk1, hk2⟩
    · obtain ⟨h3, h4⟩ | ⟨d', hd', ha, h3, h4⟩ := hrest _ hk1 hk2
      · refine ⟨⟨p, r⟩, by simp [hp], ?_, h3, h4⟩
        obtain ha | ha := harea
        · exact ha.trans hx
        · -- the area of the free region begins where the new region does
          have h1 := h.start_le
          have h2 := hle' hx.symm
          have : r.flags.area * pageSize = x * pageSize := by omega
          exact Nat.eq_of_mul_eq_mul_right (by decide) this
      · exact ⟨d', by simp [hd'], ha.trans hx, h3, h4⟩
    · exact ⟨d, by simp [hd], hx, hk1, hk2⟩
  have hold : ∀ d ∈ l₁ ++ c :: l₂, d.area ≠ defaultArea → d.area * pageSize ≤ d.start ∧
      ∃ d' ∈ l₁ ++ (m ++ l₂), d'.area = d.area ∧ d'.start ≤ d.area * pageSize ∧
        d.area * pageSize ≤ d'.last := by
    intro d hd h0
    obtain ⟨hle', hd'⟩ := H d hd h0 h0
    refine ⟨hle', hcover _ hd' fun hc => ?_⟩
    rw [hc]
    exact (H c (by simp) (hc ▸ h0) (hc ▸ h0)).1
  intro d hd h0 _
  simp only [List.mem_append] at hd
  obtain hd | hd | hd := hd
  · exact hold d (by simp [hd]) h0
  · have hc : ∀ {d : Cell}, d.area = c.area → c.start ≤ d.start → d.area ≠ defaultArea →
        d.area * pageSize ≤ d.start ∧ ∃ d' ∈ l₁ ++ (m ++ l₂), d'.area = d.area ∧
          d'.start ≤ d.area * pageSize ∧ d.area * pageSize ≤ d'.last := by
      intro d ha hs h0
      rw [ha] at h0 ⊢
      obtain ⟨h1, h2⟩ := hold c (by simp) h0
      exact ⟨h1.trans hs, h2⟩
    obtain rfl | ⟨ha, hs⟩ := hm d hd
    · obtain ha | ha := harea
      · exact hc ha h.start_le h0
      · refine ⟨ha.le, ⟨p, r⟩, by simp [hp], rfl, ha.ge, ?_⟩
        simp only [Cell.area, Cell.last]
        omega
    · exact hc ha hs h0
  · exact hold d (by simp [hd]) h0

end

/-- The tree entries of the used regions. -/
def Used (l : List Cell) (e : Entry) : Prop := ∃ c ∈ l, c.reg.used = true ∧ e = c.entry

/-- The invariant, with the cells `l` of the region list and the region tree `T`, while the area `x`
is being released. -/
structure Rm.InvBut (x : Nat) (s : Rm) (l : List Cell) (T : Tree) : Prop where
  shows : s.Shows l
  nodup : s.live.Nodup
  layout : Layout s.vmStart (s.vmEnd + 1) l
  bound : s.vmEnd < 4294967296
  chain : l.IsChain Apart
  areas : Areas x l
  tree : s.tree.Inv T
  entries : ∀ e ∈ T.toList, Used l e

/-- The invariant between two operations. -/
abbrev Rm.Inv (s : Rm) (l : List Cell) (T : Tree) : Prop := s.InvBut 0 l T

/-- Every used region is in the region tree. -/
def Complete (l : List Cell) (T : Tree) : Prop := ∀ e, Used l e → e ∈ T.toList

namespace Rm
variable {s : Rm} {l : List Cell} {T : Tree} {c : Cell} {addr x : Nat}

theorem Shows.length_lt (S : s.Shows l) : (l.map Cell.ptr).length < s.listFuel := by
  refine Nat.lt_succ_of_le (S.nodup.subperm fun p hp => ?_).length_le
  obtain ⟨c, hc, rfl⟩ := List.mem_map.mp hp
  exact S.live c hc

/-- A scan of the region list is a search in the list of the cells. -/
theorem Shows.scan_eq (S : s.Shows l) (g : Region → Bool) :
    scan s.next (fun p => g (s.region p)) s.listFuel s.head =
      some ((l.find? fun c => g c.reg).map Cell.ptr) := by
  rw [S.dlist.1, S.dlist.2.isSList.scan_eq S.length_lt, List.find?_map]
  have : l.find? ((fun p => g (s.region p)) ∘ Cell.ptr) = l.find? fun c => g c.reg := by
    refine List.find?_congr fun c hc => ?_
    simp [S.region c hc]
  rw [this]

/-- The region list is walked to the region of an address. -/
theorem Shows.walk {a e : Nat} (S : s.Shows l) (ht : Tiles Cell.start Cell.last a l e) (h1 : a ≤ addr)
    (h2 : addr < e) : ∃ c ∈ l, s.walk addr = .ok c.ptr ∧ c.start ≤ addr ∧ addr ≤ c.last := by
  obtain ⟨c, hc, hs, hl⟩ := ht.cover h1 h2
  refine ⟨c, hc, ?_, hs, hl⟩
  have hscan := S.scan_eq fun r => addr ≤ r.last
  have hfind : l.find? (fun c => decide (addr ≤ c.reg.last)) = some c := ht.find_eq hc hs hl
  rw [Rm.walk, hscan, hfind]
  rfl

theorem InvBut.walk (I : s.InvBut x l T) (h1 : s.vmStart ≤ addr) (h2 : addr ≤ s.vmEnd) :
    ∃ c ∈ l, s.walk addr = .ok c.ptr ∧ c.start ≤ addr ∧ addr ≤ c.last :=
  I.shows.walk I.layout.tiles h1 (Nat.lt_succ_of_le h2)

/-- The regions lie in the address space. -/
theorem InvBut.last_le (I : s.InvBut x l T) (hc : c ∈ l) : c.start ≤ c.last ∧ c.last ≤ s.vmEnd := by
  have := I.layout.tiles.bounds hc
  omega

end Rm

end L4env.L4rm
