import L4env.Bootstrap.FindFree
import L4env.Util.BubbleSort

/-!
# Merging regions

`Region_list::optimize` sorts the list and merges neighbours of one kind where the end of the first, rounded up to
a page, is not below the start of the second, rounded down (`bootstrap/server/src/region.cc`). Both are rounded as
32-bit words.
-/

namespace L4env.Bootstrap

/-- `l4_trunc_page` of an address of 64 bits -/
def truncPage32 (a : Nat) : Nat := Word.roundDown (a % 2 ^ 32) 4096

/-- `l4_round_page` of an address of 64 bits -/
def roundPage32 (a : Nat) : Nat := Word.roundUp (a % 2 ^ 32) 4096

/-- The type, the sub-type and the name are the same. -/
def Region.SameKind (r o : Region) : Prop := r.type = o.type ∧ r.subType = o.subType ∧ r.name = o.name

instance (r o : Region) : Decidable (r.SameKind o) := inferInstanceAs (Decidable (_ ∧ _))

/-- The test of `Region_list::optimize` -/
def Region.Joins (c n : Region) : Prop := n.SameKind c ∧ roundPage32 c.endAddr ≥ truncPage32 n.beginAddr

instance (c n : Region) : Decidable (c.Joins n) := inferInstanceAs (Decidable (_ ∧ _))

/-- `Region_list::sort`: bubble sort with `operator <` -/
def sortRegions (fuel : Nat) (regions : List Region) : Option (List Region) :=
  if regions.length < 2 then some regions else bubbleSort (fun n c => n.before c) fuel regions

/-- The loop of `Region_list::optimize` at the region `c`. -/
def mergeFrom (c : Region) : List Region → List Region
  | [] => [c]
  | n :: regions =>
    if c.Joins n then mergeFrom { c with endAddr := n.endAddr } regions else c :: mergeFrom n regions

def merge : List Region → List Region
  | [] => []
  | c :: regions => mergeFrom c regions

/-- `Region_list::optimize` -/
def optimize (regions : List Region) (fuel : Nat) : Option (List Region) := (sortRegions fuel regions).map merge

/-! ## What it is for -/

namespace Region

/-- The region has the address `x`. -/
def Has (r : Region) (x : Nat) : Prop := r.beginAddr ≤ x ∧ x ≤ r.endAddr

/-- `r` is before `o`. -/
def Before (r o : Region) : Prop := r.endAddr < o.beginAddr

end Region

/-- The regions of a list, to which overlapping ones are not added. -/
structure Listed (regions : List Region) : Prop where
  nonempty : ∀ r ∈ regions, r.beginAddr ≤ r.endAddr
  disjoint : regions.Pairwise fun r o => r.overlaps o = false

/-- A region of the kind of `r` has an address in the page of `x`. -/
def PageTouched (regions : List Region) (r : Region) (x : Nat) : Prop :=
  ∃ c ∈ regions, c.SameKind r ∧ ∃ y, c.Has y ∧ y / 4096 = x / 4096

/-- The list stays sorted and disjoint, and only addresses in pages that were touched are added. -/
def Keeps (regions : List Region) : Prop :=
  ∃ l, Returns (fun fuel => optimize regions fuel) l ∧ l.Pairwise Region.Before ∧
    ∀ r ∈ l, ∀ x, r.Has x → PageTouched regions r x

/-- The second region begins in the last page of the first one or in the page behind. -/
def Region.Near (c n : Region) : Prop := n.beginAddr / 4096 ≤ c.endAddr / 4096 + 1

variable {regions l : List Region} {a b c d n r o : Region} {x y : Nat}

theorem Region.SameKind.symm (h : r.SameKind o) : o.SameKind r := ⟨h.1.symm, h.2.1.symm, h.2.2.symm⟩

theorem Region.SameKind.trans (h : r.SameKind o) (h' : o.SameKind c) : r.SameKind c :=
  ⟨h.1.trans h'.1, h.2.1.trans h'.2.1, h.2.2.trans h'.2.2⟩

/-! ## Sorting -/

theorem Listed.asymm (L : Listed regions) : ∀ a ∈ regions, ∀ b ∈ regions, a.Before b → ¬ b.Before a := by
  intro a ha b hb hab hba
  have ha' := L.nonempty a ha
  have hb' := L.nonempty b hb
  simp only [Region.Before] at hab hba
  omega

theorem overlaps_eq_false : r.overlaps o = false ↔ r.Before o ∨ o.Before r := by
  simp only [Region.overlaps, Region.before, Region.Before]
  rw [Bool.and_eq_false_iff]
  simp

theorem Listed.perm (L : Listed regions) (h : l.Perm regions) : Listed l where
  nonempty r hr := L.nonempty r (h.mem_iff.mp hr)
  disjoint := L.disjoint.perm h.symm fun hab => overlaps_eq_false.mpr (overlaps_eq_false.mp hab).symm

theorem Listed.before_or (L : Listed regions) (hr : r ∈ regions) (ho : o ∈ regions) (hne : r ≠ o) :
    r.Before o ∨ o.Before r := by
  have hsymm : Std.Symm fun r o : Region => r.overlaps o = false :=
    ⟨fun _ _ h => overlaps_eq_false.mpr (overlaps_eq_false.mp h).symm⟩
  exact overlaps_eq_false.mp (L.disjoint.forall hr ho hne)

theorem Listed.behind (L : Listed regions) (hr : r ∈ regions) (ho : o ∈ regions) (hx : o.Has x)
    (h : r.endAddr < x) : r.Before o := by
  have hne : r ≠ o := by
    rintro rfl
    exact absurd hx.2 (Nat.not_le.mpr h)
  refine (L.before_or hr ho hne).resolve_right fun hback => ?_
  have hr' := L.nonempty r hr
  have hlast := hx.2
  simp only [Region.Before] at hback
  omega

theorem Listed.ahead (L : Listed regions) (hr : r ∈ regions) (ho : o ∈ regions) (hx : r.Has x)
    (h : x < o.beginAddr) : r.Before o := by
  have hne : r ≠ o := by
    rintro rfl
    exact absurd hx.1 (Nat.not_le.mpr h)
  refine (L.before_or hr ho hne).resolve_right fun hback => ?_
  have ho' := L.nonempty o ho
  have hfirst := hx.1
  simp only [Region.Before] at hback
  omega

/-- A list without neighbours in the wrong order is sorted. -/
theorem Listed.sorted (L : Listed l) (h : l.IsChain fun a b => b.before a = false) : l.Pairwise Region.Before := by
  induction l with
  | nil => exact .nil
  | cons c l ih =>
    obtain ⟨hfirst, hrest⟩ := List.pairwise_cons.mp L.disjoint
    have L' : Listed l := ⟨fun r hr => L.nonempty r (.tail _ hr), hrest⟩
    have hsorted := ih L' h.tail
    refine List.pairwise_cons.mpr ⟨fun r hr => ?_, hsorted⟩
    cases l with
    | nil => cases hr
    | cons d l =>
      have hcd : c.Before d := by
        refine (overlaps_eq_false.mp (hfirst d (List.mem_cons_self ..))).resolve_right fun hdc => ?_
        have hwrong : d.before c = false := (List.isChain_cons_cons.mp h).1
        exact of_decide_eq_false hwrong hdc
      obtain rfl | hr' := List.mem_cons.mp hr
      · exact hcd
      · have hdr : d.Before r := (List.pairwise_cons.mp hsorted).1 r hr'
        have hd := L'.nonempty d (List.mem_cons_self ..)
        simp only [Region.Before] at hcd hdr ⊢
        omega

/-- The sort ends with the regions in order. -/
theorem sortRegions_spec (L : Listed regions) :
    ∃ l, Returns (fun fuel => sortRegions fuel regions) l ∧ l.Perm regions ∧ l.Pairwise Region.Before := by
  unfold sortRegions
  split
  case isTrue h =>
    refine ⟨regions, .const _, .refl _, ?_⟩
    obtain _ | ⟨c, _ | ⟨d, l⟩⟩ := regions
    · exact .nil
    · exact List.pairwise_singleton ..
    · simp only [List.length_cons] at h
      omega
  case isFalse h =>
    have hasymm : ∀ a ∈ regions, ∀ b ∈ regions, a.before b = true → b.before a = false := fun a ha b hb hab => by
      have hab' : a.endAddr < b.beginAddr := of_decide_eq_true hab
      have hback : ¬ b.endAddr < a.beginAddr := L.asymm a ha b hb hab'
      exact decide_eq_false hback
    obtain ⟨l, hrun, hperm, hchain⟩ := bubbleSort_spec hasymm
    exact ⟨l, hrun, hperm, (L.perm hperm).sorted hchain⟩

/-! ## Merging -/

/-- The merge goes on with a region that has the kind and the end of `c`. -/
structure Region.Extends (a c : Region) : Prop where
  kind : a.SameKind c
  last : a.endAddr = c.endAddr
  first : a.beginAddr ≤ c.endAddr

theorem Region.Extends.joins (E : a.Extends c) : a.Joins n ↔ c.Joins n := by
  unfold Region.Joins
  rw [E.last]
  exact and_congr_left fun _ => ⟨fun h => h.trans E.kind, fun h => h.trans E.kind.symm⟩

/-- After a merge. -/
theorem Region.Extends.merged (E : a.Extends c) (hjoins : a.Joins n) (hcn : c.Before n)
    (hn : n.beginAddr ≤ n.endAddr) : ({ a with endAddr := n.endAddr } : Region).Extends n where
  kind := hjoins.1.symm
  last := rfl
  first := by
    have hfirst := E.first
    simp only [Region.Before] at hcn ⊢
    omega

/-- The first region of a merge. -/
theorem mergeFrom_first (hl : l.Pairwise Region.Before) (hne : ∀ r ∈ l, r.beginAddr ≤ r.endAddr)
    (ha : ∀ r ∈ l, a.Before r) :
    ∃ r ∈ mergeFrom a l, r.SameKind a ∧ r.beginAddr = a.beginAddr ∧ a.endAddr ≤ r.endAddr := by
  induction l generalizing a with
  | nil => exact ⟨a, List.mem_cons_self .., ⟨rfl, rfl, rfl⟩, rfl, le_rfl⟩
  | cons n l ih =>
    obtain ⟨hfirst, hrest⟩ := List.pairwise_cons.mp hl
    rw [mergeFrom]
    split
    · obtain ⟨r, hr, hkind, hbegin, hend⟩ := ih (a := { a with endAddr := n.endAddr }) hrest
        (fun r hr => hne r (.tail _ hr)) hfirst
      have han := ha n (List.mem_cons_self ..)
      have hn := hne n (List.mem_cons_self ..)
      refine ⟨r, hr, hkind, hbegin, ?_⟩
      simp only [Region.Before] at han hend
      omega
    · exact ⟨a, List.mem_cons_self .., ⟨rfl, rfl, rfl⟩, rfl, le_rfl⟩

/-- A merge is sorted, and begins where its first region does. -/
theorem mergeFrom_sorted (hl : l.Pairwise Region.Before) (hne : ∀ r ∈ l, r.beginAddr ≤ r.endAddr)
    (ha : ∀ r ∈ l, a.Before r) (haa : a.beginAddr ≤ a.endAddr) :
    (mergeFrom a l).Pairwise Region.Before ∧ ∀ r ∈ mergeFrom a l, a.beginAddr ≤ r.beginAddr := by
  induction l generalizing a with
  | nil => exact ⟨List.pairwise_singleton .., fun r hr => (List.mem_singleton.mp hr) ▸ le_rfl⟩
  | cons n l ih =>
    obtain ⟨hfirst, hrest⟩ := List.pairwise_cons.mp hl
    have hne' : ∀ r ∈ l, r.beginAddr ≤ r.endAddr := fun r hr => hne r (.tail _ hr)
    have han : a.Before n := ha n (List.mem_cons_self ..)
    have hn := hne n (List.mem_cons_self ..)
    simp only [Region.Before] at han
    rw [mergeFrom]
    split
    · exact ih (a := { a with endAddr := n.endAddr }) hrest hne' hfirst (by dsimp only; omega)
    · obtain ⟨hsorted, hbegin⟩ := ih hrest hne' hfirst hn
      refine ⟨List.pairwise_cons.mpr ⟨fun r hr => ?_, hsorted⟩, fun r hr => ?_⟩
      · exact han.trans_le (hbegin r hr)
      · obtain rfl | hr := List.mem_cons.mp hr
        · exact le_rfl
        · have hle := hbegin r hr
          omega

/-- The addresses of a merge, where neighbours are joined only if they are near. -/
theorem mergeFrom_touched (hmem : ∀ r ∈ c :: l, r ∈ regions) (hne : ∀ r ∈ c :: l, r.beginAddr ≤ r.endAddr)
    (hnear : (c :: l).IsChain fun c n => c.Joins n → c.Near n) (hl : (c :: l).Pairwise Region.Before)
    (E : a.Extends c) (ha : ∀ x, a.Has x → PageTouched regions a x) :
    ∀ r ∈ mergeFrom a l, ∀ x, r.Has x → PageTouched regions r x := by
  induction l generalizing a c with
  | nil => exact fun r hr => (List.mem_singleton.mp hr) ▸ ha
  | cons n l ih =>
    obtain ⟨hfirst, hrest⟩ := List.pairwise_cons.mp hl
    obtain ⟨hcn, hchain⟩ := List.isChain_cons_cons.mp hnear
    have hbefore : c.Before n := hfirst n (List.mem_cons_self ..)
    have hmemn : n ∈ regions := hmem n (.tail _ (List.mem_cons_self ..))
    have hn := hne n (.tail _ (List.mem_cons_self ..))
    have hmem' : ∀ r ∈ n :: l, r ∈ regions := fun r hr => hmem r (.tail _ hr)
    have hne' : ∀ r ∈ n :: l, r.beginAddr ≤ r.endAddr := fun r hr => hne r (.tail _ hr)
    rw [mergeFrom]
    split
    case isTrue hjoins =>
      refine ih hmem' hne' hchain hrest (E.merged hjoins hbefore hn) fun x ⟨hx, hx'⟩ => ?_
      have hpages : c.Near n := hcn (E.joins.mp hjoins)
      simp only [Region.Near, Region.Before] at hpages hbefore hx hx'
      by_cases hlow : x ≤ a.endAddr
      · exact ha x ⟨hx, hlow⟩
      by_cases hhigh : n.beginAddr ≤ x
      · exact ⟨n, hmemn, hjoins.1, x, ⟨hhigh, hx'⟩, rfl⟩
      · -- between the two regions: the last page of the first one, or the first page of the second one
        have hend := E.last
        obtain hpage | hpage : c.endAddr / 4096 = x / 4096 ∨ n.beginAddr / 4096 = x / 4096 := by omega
        · exact ⟨c, hmem c (List.mem_cons_self ..), E.kind.symm, c.endAddr,
            ⟨hne c (List.mem_cons_self ..), le_rfl⟩, hpage⟩
        · exact ⟨n, hmemn, hjoins.1, n.beginAddr, ⟨le_rfl, hn⟩, hpage⟩
    case isFalse hjoins =>
      intro r hr
      obtain rfl | hr := List.mem_cons.mp hr
      · exact ha
      · exact ih hmem' hne' hchain hrest ⟨⟨rfl, rfl, rfl⟩, rfl, hn⟩
          (fun x hx => ⟨n, hmemn, ⟨rfl, rfl, rfl⟩, x, hx, rfl⟩) r hr

/-- A region of the list has all addresses from the end of `c` to the start of `n`. -/
def Bridged (l : List Region) (c n : Region) : Prop :=
  ∃ r ∈ l, r.SameKind c ∧ r.beginAddr ≤ c.endAddr ∧ n.beginAddr ≤ r.endAddr

theorem Bridged.mono {l' : List Region} (h : Bridged l c n) (hl : ∀ r ∈ l, r ∈ l') : Bridged l' c n :=
  h.imp fun r hr => ⟨hl r hr.1, hr.2⟩

/-- Neighbours that are joined are in one region of the merge. -/
theorem mergeFrom_bridged (hne : ∀ r ∈ c :: l, r.beginAddr ≤ r.endAddr) (hl : (c :: l).Pairwise Region.Before)
    (E : a.Extends c) : (c :: l).IsChain fun c n => c.Joins n → Bridged (mergeFrom a l) c n := by
  induction l generalizing a c with
  | nil => exact .singleton c
  | cons n l ih =>
    obtain ⟨hfirst, hrest⟩ := List.pairwise_cons.mp hl
    have hbefore : c.Before n := hfirst n (List.mem_cons_self ..)
    have hne' : ∀ r ∈ n :: l, r.beginAddr ≤ r.endAddr := fun r hr => hne r (.tail _ hr)
    have hn := hne' n (List.mem_cons_self ..)
    rw [mergeFrom]
    split
    case isTrue hjoins =>
      refine .cons_cons (fun _ => ?_) (ih hne' hrest (E.merged hjoins hbefore hn))
      obtain ⟨r, hr, hkind, hbegin, hend⟩ := mergeFrom_first (a := { a with endAddr := n.endAddr })
        (List.pairwise_cons.mp hrest).2 (fun r hr => hne' r (.tail _ hr)) (List.pairwise_cons.mp hrest).1
      exact ⟨r, hr, Region.SameKind.trans hkind E.kind, hbegin.le.trans E.first, hn.trans hend⟩
    case isFalse hjoins =>
      refine .cons_cons (fun h => absurd (E.joins.mpr h) hjoins) ?_
      exact (ih hne' hrest ⟨⟨rfl, rfl, rfl⟩, rfl, hn⟩).imp fun _ _ h hj => (h hj).mono fun r hr => .tail _ hr

/-! ## The list -/

/-- The merge of a list in order. -/
theorem merge_keeps (L : Listed regions) (hl : l.Perm regions) (hsorted : l.Pairwise Region.Before) :
    (merge l).Pairwise Region.Before ∧ ((∀ r ∈ merge l, ∀ x, r.Has x → PageTouched regions r x) ↔
      l.IsChain fun c n => c.Joins n → c.Near n) := by
  have L' := L.perm hl
  cases l with
  | nil => exact ⟨.nil, fun _ => .nil, fun _ => nofun⟩
  | cons c l =>
    obtain ⟨hfirst, hrest⟩ := List.pairwise_cons.mp hsorted
    have hc := L'.nonempty c (List.mem_cons_self ..)
    have E : c.Extends c := ⟨⟨rfl, rfl, rfl⟩, rfl, hc⟩
    refine ⟨(mergeFrom_sorted hrest (fun r hr => L'.nonempty r (.tail _ hr)) hfirst hc).1, fun H => ?_,
      fun hnear => ?_⟩
    · refine (isChain_iff_between L'.asymm hsorted).mpr fun b hb n hn hbn hno hjoins => ?_
      obtain ⟨r, hr, hkind, hbegin, hend⟩ :=
        (isChain_iff_between L'.asymm hsorted).mp (mergeFrom_bridged L'.nonempty hsorted E) b hb n hn hbn hno hjoins
      by_contra hfar
      -- the page behind the last page of `b` is filled, and nothing touches it
      simp only [Region.Near, Region.Before] at hfar hbn
      obtain ⟨d, hd, -, y, ⟨hy, hy'⟩, hpage⟩ := H r hr ((b.endAddr / 4096 + 1) * 4096) ⟨by omega, by omega⟩
      have hdb : b.Before d := L'.behind hb (hl.mem_iff.mpr hd) ⟨hy, hy'⟩ (by omega)
      have hdn : d.Before n := L'.ahead (hl.mem_iff.mpr hd) hn ⟨hy, hy'⟩ (by omega)
      exact hno d (hl.mem_iff.mpr hd) ⟨hdb, hdn⟩
    · exact mergeFrom_touched (fun r hr => hl.mem_iff.mp hr) L'.nonempty hnear hsorted E
        fun x hx => ⟨c, hl.mem_iff.mp (List.mem_cons_self ..), ⟨rfl, rfl, rfl⟩, x, hx, rfl⟩

/-- Merging keeps what it should if and only if no two neighbours are joined that have a page between them. -/
theorem keeps_iff_near (L : Listed regions) : Keeps regions ↔ ∀ c ∈ regions, ∀ n ∈ regions, c.Before n →
    (∀ m ∈ regions, ¬ (c.Before m ∧ m.Before n)) → c.Joins n → c.Near n := by
  obtain ⟨l, hrun, hperm, hsorted⟩ := sortRegions_spec L
  have hmerge : Returns (fun fuel => optimize regions fuel) (merge l) := hrun.map merge
  obtain ⟨hresult, htouched⟩ := merge_keeps L hperm hsorted
  rw [isChain_iff_between (L.perm hperm).asymm hsorted] at htouched
  simp only [hperm.mem_iff] at htouched
  rw [← htouched]
  constructor
  · rintro ⟨l', hrun', -, H⟩
    exact hmerge.unique hrun' ▸ H
  · exact fun H => ⟨merge l, hmerge, hresult, H⟩

/-- Below the last page of 4 GB neighbours are joined only if they are near. -/
theorem Region.Joins.near (h : c.Joins n) (hc : c.endAddr + 4096 < 2 ^ 32) (hn : n.beginAddr < 2 ^ 32) :
    c.Near n := by
  have hle := h.2
  obtain ⟨-, -, hround⟩ := Word.roundUp_spec (v := c.endAddr) (k := 12) (by decide) (by omega)
  have htrunc := Word.roundDown_eq (v := n.beginAddr) (k := 12) hn (by decide)
  rw [roundPage32, truncPage32, Nat.mod_eq_of_lt (by omega), Nat.mod_eq_of_lt hn] at hle
  have hword : n.beginAddr - n.beginAddr % 4096 < c.endAddr + 4096 := htrunc ▸ hle.trans_lt hround
  rw [Region.Near]
  omega

/-- A region of one page. -/
def onePage : List Region := [.mk' 0x3000 0x3fff]

theorem onePage_tame {begin last size align : Nat} (hbegin : begin < 2 ^ 32) (hsize : size ≤ 2 ^ 32)
    (halign : align ≤ 32) : Tame onePage (.mk' begin last) size align :=
  tame_of_low (fun c hc => List.mem_singleton.mp hc ▸ by decide) hbegin hsize halign

theorem onePage_fits {begin last size t : Nat} :
    FitsAt onePage (.mk' begin last) size t ↔ t + size ≤ last + 1 ∧ (0x3fff < t ∨ t + size < 0x3000) :=
  ⟨fun F => ⟨F.last, F.disjoint _ (List.mem_singleton_self _)⟩,
    fun h => ⟨h.1, fun _ hc => List.mem_singleton.mp hc ▸ h.2⟩⟩

end L4env.Bootstrap
