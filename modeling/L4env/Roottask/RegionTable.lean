import L4env.Util.Word

/-!
# The region table of the roottask

The roottask keeps a table of the memory regions that are in use, with their names, so that modules and
chunks of memory are placed elsewhere (`region.c`). The table has a fixed number of entries; entry 0
is not used.
-/

namespace L4env.Roottask

/-- `region_t`, with the field `end` as `stop` and the name up to its final zero. -/
structure RegionEntry where
  start : Nat := 0
  stop : Nat := 0
  name : List Char := []
  deriving DecidableEq, Repr

/-- `__region` and `size`. -/
structure RegionTable where
  region : Nat → RegionEntry
  size : Nat

/-- `MAX_REGION` -/
def maxRegion : Nat := 64

/-- `sizeof(__region[0].name)` -/
def nameSize : Nat := 44

/-- `l4_trunc_page`, `l4_round_page` -/
def truncPage (x : Nat) : Nat := Word.roundDown x 4096

def roundPage (x : Nat) : Nat := Word.roundUp x 4096

/-! ## Names -/

/-- The loop of `region_add` that goes back to the start of a file name: `before` is what precedes the
current place, last character first. -/
def toFileName : Nat → List Char → List Char → List Char
  | 0, _, rest => rest
  | _ + 1, [], rest => rest
  | n + 1, c :: before, rest => if c = '/' then rest else toFileName n before (c :: rest)

/-- The file name at the start of a command line, and what follows it. -/
def fileName (name : List Char) : List Char :=
  let before := name.takeWhile (· ≠ ' ')
  toFileName (nameSize + 1) before.reverse (name.dropWhile (· ≠ ' '))

/-- `"#%02x "` -/
def taskPrefix (taskNo : Nat) : List Char :=
  let digits := Nat.toDigits 16 taskNo
  '#' :: (List.replicate (2 - digits.length) '0' ++ digits ++ [' '])

/-- The name that `region_add` stores; `none` is the task number -1. -/
def regionName (taskNo : Option Nat) (name : List Char) : List Char :=
  match taskNo with
  | none => (fileName name).take (nameSize - 1)
  | some n => (taskPrefix n).take 4 ++ (fileName name).take (nameSize - 4 - 1)

/-! ## The functions of the table -/

namespace RegionEntry

/-- The range is inside of a region, at its end or at its start. -/
def middle (r : RegionEntry) (start stop : Nat) : Bool := r.start < start ∧ stop < r.stop

def tail (r : RegionEntry) (start stop : Nat) : Bool := r.start < start ∧ r.stop = stop

def front (r : RegionEntry) (start stop : Nat) : Bool := r.start = start ∧ stop < r.stop

def hit (r : RegionEntry) (start stop : Nat) : Bool :=
  r.middle start stop || r.tail start stop || r.front start stop

/-- The address is in the region. -/
def Has (r : RegionEntry) (x : Nat) : Prop := r.start ≤ x ∧ x < r.stop

end RegionEntry

namespace RegionTable

/-- `region_init` -/
def init : RegionTable := ⟨fun _ => {}, 1⟩

/-- `region_get` -/
def get (t : RegionTable) (i : Nat) : Option RegionEntry := if i < t.size then some (t.region i) else none

/-- `region_add`: the index of the entry, 0 without a free one. -/
def add (t : RegionTable) (start stop : Nat) (taskNo : Option Nat) (name : List Char) :
    Nat × RegionTable :=
  if maxRegion ≤ t.size then (0, t)
  else
    let r : RegionEntry := ⟨truncPage start, roundPage stop, regionName taskNo name⟩
    (t.size, ⟨Function.update t.region t.size r, t.size + 1⟩)

/-- The body of the loop of `region_free` for the entry at which it stops. -/
def cut (t : RegionTable) (i start stop : Nat) : RegionTable :=
  let r := t.region i
  if r.middle start stop then
    if maxRegion ≤ t.size then t
    else
      -- the entry behind the last one is written, but `size` stays
      let region := Function.update t.region t.size ⟨stop, r.stop, r.name⟩
      { t with region := Function.update region i { r with stop := start } }
  else if r.tail start stop then
    { t with region := Function.update t.region i { r with stop := start } }
  else { t with region := Function.update t.region i { r with start := stop } }

/-- The loops over the entries in use. -/
def findEntry (t : RegionTable) (p : RegionEntry → Bool) : Option Nat :=
  (List.range' 1 (t.size - 1)).find? fun i => p (t.region i)

/-- `region_free` -/
def free (t : RegionTable) (start stop : Nat) : RegionTable :=
  match t.findEntry (RegionEntry.hit · start stop) with
  | none => t
  | some i => t.cut i start stop

/-- `region_overlaps`: the index of a region that overlaps the range, or 0. -/
def overlaps (t : RegionTable) (start stop : Nat) : Nat :=
  (t.findEntry fun r => r.start < stop ∧ start < r.stop).getD 0

/-! ## What the table lists -/

variable {t : RegionTable} {p : RegionEntry → Bool} {i k start stop : Nat}

theorem findEntry_some (h : t.findEntry p = some i) :
    1 ≤ i ∧ i < t.size ∧ p (t.region i) = true := by
  have hmem := List.mem_range'_1.mp (List.mem_of_find?_eq_some h)
  exact ⟨hmem.1, by omega, List.find?_some (p := fun i => p (t.region i)) h⟩

theorem findEntry_none (h : t.findEntry p = none) (h1 : 1 ≤ i) (hi : i < t.size) :
    p (t.region i) = false := by
  have hmem : i ∈ List.range' 1 (t.size - 1) := List.mem_range'_1.mpr (by omega)
  exact Bool.eq_false_iff.mpr (List.find?_eq_none.mp h i hmem)

/-- The address is in a region that `region_get` returns. -/
def Listed (t : RegionTable) (x : Nat) : Prop := ∃ i r, 1 ≤ i ∧ t.get i = some r ∧ r.Has x

def Disjoint (t : RegionTable) : Prop :=
  ∀ i j, 1 ≤ i → i < j → j < t.size → ∀ x, ¬((t.region i).Has x ∧ (t.region j).Has x)

theorem listed_iff {x : Nat} : t.Listed x ↔ ∃ i, 1 ≤ i ∧ i < t.size ∧ (t.region i).Has x := by
  constructor
  · rintro ⟨i, r, h1, hget, hx⟩
    unfold get at hget
    split at hget
    · cases hget
      exact ⟨i, h1, ‹_›, hx⟩
    · cases hget
  · rintro ⟨i, h1, hi, hx⟩
    exact ⟨i, t.region i, h1, if_pos hi, hx⟩

/-- `region_overlaps` finds the same addresses. -/
theorem overlaps_iff {x : Nat} : t.overlaps x (x + 1) ≠ 0 ↔ t.Listed x := by
  rw [listed_iff, overlaps]
  cases h : t.findEntry fun r => decide (r.start < x + 1 ∧ x < r.stop) with
  | none =>
    refine iff_of_false (by simp) ?_
    rintro ⟨i, h1, hi, hx⟩
    have := of_decide_eq_false (findEntry_none h h1 hi)
    exact this ⟨Nat.lt_succ_of_le hx.1, hx.2⟩
  | some i =>
    obtain ⟨h1, hi, hx⟩ := findEntry_some h
    have hx := of_decide_eq_true hx
    refine iff_of_true ?_ ⟨i, h1, hi, Nat.le_of_lt_succ hx.1, hx.2⟩
    simp only [Option.getD_some]
    omega

theorem Disjoint.eq (h : t.Disjoint) {j x : Nat} (hi : 1 ≤ i ∧ i < t.size) (hj : 1 ≤ j ∧ j < t.size)
    (hx : (t.region i).Has x) (hy : (t.region j).Has x) : i = j := by
  rcases Nat.lt_trichotomy i j with hlt | heq | hgt
  · exact absurd ⟨hx, hy⟩ (h i j hi.1 hlt hj.2 x)
  · exact heq
  · exact absurd ⟨hy, hx⟩ (h j i hj.1 hgt hi.2 x)

/-! ## Freeing a range -/

/-- The range in region `k` is taken out of the table and nothing else. -/
structure Freed (t t' : RegionTable) (k start stop : Nat) : Prop where
  listed : ∀ x, t'.Listed x ↔ t.Listed x ∧ ¬(start ≤ x ∧ x < stop)
  disjoint : t'.Disjoint
  name : ∀ i, 1 ≤ i → i < t'.size → i = k ∨ t.size ≤ i → (t'.region i).name = (t.region k).name
  others : ∀ i, 1 ≤ i → i < t.size → i ≠ k → t'.get i = t.get i

/-- One region is replaced by what the range leaves of it. -/
theorem Freed.of_update (hd : t.Disjoint) (hk : 1 ≤ k ∧ k < t.size) {r : RegionEntry}
    (hname : r.name = (t.region k).name)
    (hhas : ∀ x, r.Has x ↔ (t.region k).Has x ∧ ¬(start ≤ x ∧ x < stop))
    (hin : ∀ x, start ≤ x → x < stop → (t.region k).Has x) :
    Freed t { t with region := Function.update t.region k r } k start stop := by
  have hother : ∀ i, i ≠ k → Function.update t.region k r i = t.region i :=
    fun i hi => Function.update_of_ne hi _ _
  have hself : Function.update t.region k r k = r := Function.update_self ..
  refine ⟨fun x => ?_, fun i j h1 hij hj x hx => ?_, fun i h1 hi hik => ?_, fun i h1 hi hik => ?_⟩
  · simp only [listed_iff]
    constructor
    · rintro ⟨i, h1, hi, hx⟩
      by_cases hik : i = k
      · subst hik
        rw [hself] at hx
        exact ⟨⟨i, h1, hi, ((hhas x).mp hx).1⟩, ((hhas x).mp hx).2⟩
      · rw [hother i hik] at hx
        exact ⟨⟨i, h1, hi, hx⟩, fun hr => hik (hd.eq ⟨h1, hi⟩ hk hx (hin x hr.1 hr.2))⟩
    · rintro ⟨⟨i, h1, hi, hx⟩, hout⟩
      refine ⟨i, h1, hi, ?_⟩
      by_cases hik : i = k
      · subst hik
        rw [hself]
        exact (hhas x).mpr ⟨hx, hout⟩
      · rwa [hother i hik]
  · have hsub : ∀ i, (Function.update t.region k r i).Has x → (t.region i).Has x := by
      intro i hi
      by_cases hik : i = k
      · subst hik
        rw [hself] at hi
        exact ((hhas x).mp hi).1
      · rwa [hother i hik] at hi
    exact hd i j h1 hij hj x ⟨hsub i hx.1, hsub j hx.2⟩
  · have hik : i = k := hik.resolve_right (Nat.not_le.mpr hi)
    subst hik
    exact (congrArg _ hself).trans hname
  · simp only [get, hother i hik]

theorem Freed.refl (hd : t.Disjoint) (h : stop ≤ start) :
    Freed t t k start stop := by
  refine ⟨fun x => ?_, hd, fun i _ hi hik => ?_, fun _ _ _ _ => rfl⟩
  · exact (and_iff_left fun hx => Nat.not_lt.mpr h (Nat.lt_of_le_of_lt hx.1 hx.2)).symm
  · rw [hik.resolve_right (Nat.not_le.mpr hi)]

/-- The condition for `region_free`: no region goes on at both ends of the range, and none is the
range. -/
def Clean (t : RegionTable) (start stop : Nat) : Prop :=
  ∀ i, 1 ≤ i → i < t.size →
    ¬((t.region i).start < start ∧ stop < (t.region i).stop) ∧
    ¬((t.region i).start = start ∧ (t.region i).stop = stop ∧ start < stop)

/-- The three cases of the loop. -/
theorem hit_iff {r : RegionEntry} : r.hit start stop = true ↔
    (r.start < start ∧ stop < r.stop) ∨ (r.start < start ∧ r.stop = stop) ∨
      (r.start = start ∧ stop < r.stop) := by
  simp only [RegionEntry.hit, RegionEntry.middle, RegionEntry.tail, RegionEntry.front,
    Bool.or_eq_true, decide_eq_true_eq, or_assoc]

theorem hit_has {r : RegionEntry} (h : r.hit start stop = true) (hlt : start < stop) :
    r.Has start := by
  have := hit_iff.mp h
  unfold RegionEntry.Has
  omega

/-- A region around the range is the only one the loop can stop at. -/
theorem findEntry_middle (hd : t.Disjoint) (hk : 1 ≤ k ∧ k < t.size) (hle : start ≤ stop)
    (h1 : (t.region k).start < start) (h2 : stop < (t.region k).stop) :
    t.findEntry (RegionEntry.hit · start stop) = some k := by
  cases hf : t.findEntry (RegionEntry.hit · start stop) with
  | none =>
    have := findEntry_none hf hk.1 hk.2
    rw [hit_iff.mpr (.inl ⟨h1, h2⟩)] at this
    cases this
  | some i =>
    obtain ⟨hi1, hi2, hi⟩ := findEntry_some hf
    -- they share the first address of the range, or the one before it
    have hsame : ∀ x, (t.region i).Has x → (t.region k).Has x → some i = some k :=
      fun x hx hy => congrArg some (hd.eq ⟨hi1, hi2⟩ hk hx hy)
    obtain ⟨ha, hb⟩ | ⟨ha, hb⟩ | ⟨ha, hb⟩ := hit_iff.mp hi
    · exact hsame start ⟨ha.le, by omega⟩ ⟨h1.le, by omega⟩
    · exact hsame (start - 1) ⟨by omega, by omega⟩ ⟨by omega, by omega⟩
    · exact hsame start ⟨ha.le, by omega⟩ ⟨h1.le, by omega⟩

/-- The loop does not stop for a region that is the range. -/
theorem findEntry_whole (hd : t.Disjoint) (hk : 1 ≤ k ∧ k < t.size) (hlt : start < stop)
    (h1 : (t.region k).start = start) (h2 : (t.region k).stop = stop) :
    t.findEntry (RegionEntry.hit · start stop) = none := by
  cases hf : t.findEntry (RegionEntry.hit · start stop) with
  | none => rfl
  | some i =>
    obtain ⟨hi1, hi2, hi⟩ := findEntry_some hf
    have hik := hd.eq ⟨hi1, hi2⟩ hk (hit_has hi hlt) ⟨h1.le, by omega⟩
    subst hik
    have := hit_iff.mp hi
    omega

/-- The part behind the range is lost. -/
theorem not_freed_middle (hd : t.Disjoint) (hk : 1 ≤ k ∧ k < t.size) (hsize : t.size < maxRegion)
    (hle : start ≤ stop) (h1 : (t.region k).start < start) (h2 : stop < (t.region k).stop) {n : Nat} :
    ¬Freed t (t.free start stop) n start stop := by
  intro F
  have hcut : t.free start stop = t.cut k start stop := by
    rw [free, findEntry_middle hd hk hle h1 h2]
  have hmid : (t.region k).middle start stop = true := decide_eq_true ⟨h1, h2⟩
  have hlisted : t.Listed stop := listed_iff.mpr ⟨k, hk.1, hk.2, by omega, h2⟩
  obtain ⟨i, hi1, hi2, hi⟩ := listed_iff.mp ((F.listed stop).mpr ⟨hlisted, by omega⟩)
  rw [hcut] at hi2 hi
  simp only [cut, hmid, if_true, if_neg (Nat.not_le.mpr hsize)] at hi2 hi
  by_cases hik : i = k
  · subst hik
    rw [Function.update_self] at hi
    exact absurd hi.2 (by simp only; omega)
  · rw [Function.update_of_ne hik, Function.update_of_ne (by omega)] at hi
    exact hik (hd.eq ⟨hi1, hi2⟩ hk hi ⟨by omega, h2⟩)

/-- The whole region stays. -/
theorem not_freed_whole (hd : t.Disjoint) (hk : 1 ≤ k ∧ k < t.size) (hlt : start < stop)
    (h1 : (t.region k).start = start) (h2 : (t.region k).stop = stop) {n : Nat} :
    ¬Freed t (t.free start stop) n start stop := by
  intro F
  have hsame : t.free start stop = t := by rw [free, findEntry_whole hd hk hlt h1 h2]
  have hlisted : t.Listed start := listed_iff.mpr ⟨k, hk.1, hk.2, h1.le, by omega⟩
  rw [hsame] at F
  exact ((F.listed start).mp hlisted).2 ⟨le_rfl, hlt⟩

/-- A range at one end of a region is cut off. -/
theorem freed_of_clean (hd : t.Disjoint) (hk : 1 ≤ k ∧ k < t.size)
    (h1 : (t.region k).start ≤ start) (hle : start ≤ stop) (h2 : stop ≤ (t.region k).stop)
    (hclean : t.Clean start stop) : Freed t (t.free start stop) k start stop := by
  have hin : ∀ x, start ≤ x → x < stop → (t.region k).Has x :=
    fun x hx hx' => ⟨by omega, by omega⟩
  unfold free
  split
  next hf =>
    refine .refl hd ?_
    have hnone := mt hit_iff.mpr (Bool.eq_false_iff.mp (findEntry_none hf hk.1 hk.2))
    have := (hclean k hk.1 hk.2).2
    omega
  next i hf =>
    obtain ⟨hi1, hi2, hi⟩ := findEntry_some hf
    have hmid : (t.region i).middle start stop = false :=
      decide_eq_false (hclean i hi1 hi2).1
    have hends := (hit_iff.mp hi).resolve_left (hclean i hi1 hi2).1
    by_cases hik : i = k
    · subst hik
      simp only [cut, hmid, Bool.false_eq_true, if_false]
      split
      next htail =>
        obtain ⟨ha, hb⟩ := of_decide_eq_true htail
        refine .of_update hd hk rfl (fun x => ?_) hin
        simp only [RegionEntry.Has]
        omega
      next htail =>
        have hfront := hends.resolve_left fun h => htail (decide_eq_true h)
        refine .of_update hd hk rfl (fun x => ?_) hin
        simp only [RegionEntry.Has]
        omega
    · -- only an empty range is at the end of two regions
      have hstop : stop = start := by
        by_contra hne
        have hlt : start < stop := by omega
        exact hik (hd.eq ⟨hi1, hi2⟩ hk (hit_has hi hlt) (hin start le_rfl hlt))
      have hsame : t.cut i start stop = t := by
        simp only [cut, hmid, Bool.false_eq_true, if_false]
        split
        next htail =>
          have hr : { t.region i with stop := start } = t.region i :=
            (congrArg (RegionEntry.mk _ · _) (hstop.symm.trans (of_decide_eq_true htail).2.symm))
          rw [hr, Function.update_eq_self]
        next htail =>
          have hfront := hends.resolve_left fun h => htail (decide_eq_true h)
          have hr : { t.region i with start := stop } = t.region i :=
            (congrArg (RegionEntry.mk · _ _) (hstop.trans hfront.1.symm))
          rw [hr, Function.update_eq_self]
      rw [hsame]
      exact .refl hd hstop.le

/-- A range inside of a region is taken out exactly if the table is clean: the range is at one end of
the region. -/
theorem free_removes_iff (hd : t.Disjoint) (hk : 1 ≤ k ∧ k < t.size) (hsize : t.size < maxRegion)
    (h1 : (t.region k).start ≤ start) (hle : start ≤ stop) (h2 : stop ≤ (t.region k).stop) :
    Freed t (t.free start stop) k start stop ↔ t.Clean start stop := by
  refine ⟨fun F i hi1 hi2 => ⟨fun h => ?_, fun h => ?_⟩, freed_of_clean hd hk h1 hle h2⟩
  · exact not_freed_middle hd ⟨hi1, hi2⟩ hsize hle h.1 h.2 F
  · exact not_freed_whole hd ⟨hi1, hi2⟩ h.2.2 h.1 h.2.1 F

/-- The table with the region from 0x10000 to 0x20000. -/
def single : RegionTable := (init.add 0x10000 0x20000 none ['K', 'I', 'P']).2

theorem single_region : single.region 1 = ⟨0x10000, 0x20000, ['K', 'I', 'P']⟩ := by
  have hadd : single.region 1 = ⟨truncPage 0x10000, roundPage 0x20000, ['K', 'I', 'P']⟩ := rfl
  have htrunc : truncPage 0x10000 = 0x10000 :=
    Word.roundDown_two_pow (v := 0x10000) (k := 12) (by decide) (by decide)
  have hround : roundPage 0x20000 = 0x20000 :=
    Word.roundUp_eq (k := 12) (v := 0x20000) (by decide) (by decide)
  rw [hadd, htrunc, hround]

theorem single_disjoint : single.Disjoint := by
  intro i j h1 hij hj
  have hsize : single.size = 2 := rfl
  omega

/-- The first page of the region is freed. -/
theorem free_removes_iff_first : Freed single (single.free 0x10000 0x11000) 1 0x10000 0x11000 := by
  refine (free_removes_iff single_disjoint (k := 1) (by decide) (by decide) ?_ (by decide) ?_).mpr ?_
  · rw [single_region]
  · rw [single_region]
    decide
  · intro i hi1 hi2
    have hsize : single.size = 2 := rfl
    obtain rfl : i = 1 := by omega
    rw [single_region]
    decide

/-- A page in the middle: the table lists nothing behind it any more. -/
theorem free_loses_rest :
    single.Disjoint ∧ single.size < maxRegion ∧ (single.region 1).Has 0x14000 ∧
      (single.region 1).stop = 0x20000 ∧
      ¬Freed single (single.free 0x14000 0x15000) 1 0x14000 0x15000 := by
  refine ⟨single_disjoint, by decide, ?_, ?_, ?_⟩
  · rw [single_region]
    exact ⟨by decide, by decide⟩
  · rw [single_region]
  · refine not_freed_middle single_disjoint (k := 1) (by decide) (by decide) (by decide) ?_ ?_
    · rw [single_region]
      decide
    · rw [single_region]
      decide

end RegionTable

end L4env.Roottask
