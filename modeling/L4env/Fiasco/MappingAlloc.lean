import L4env.Fiasco.MappingTreeInv

/-!
# Insertion into a mapping tree
-/

namespace L4env.Fiasco

open Util.Preorder

namespace MappingTree

variable {t t' : MappingTree} {parent i j k m n ins slot hole e : Nat} {f : Nat → Nat}

/-! ## Moving entries -/

@[simp] theorem moveUp_sizeId {free : Nat} : (t.moveUp n free).sizeId = t.sizeId := by
  induction n generalizing t free with
  | zero => rfl
  | succ n ih =>
    rw [moveUp, ih]
    rfl

@[simp] theorem moveDown_sizeId {free : Nat} : (t.moveDown free ins).sizeId = t.sizeId := by
  induction ins generalizing t with
  | zero => rfl
  | succ ins ih =>
    rw [moveDown]
    split_ifs
    · rw [ih]
      rfl
    · rfl

theorem moveUp_mappings {free : Nat} : (t.moveUp n free).mappings j =
    if free ≤ j ∧ j < free + n then t.mappings (j + 1) else t.mappings j := by
  induction n generalizing t free with
  | zero =>
    rw [moveUp, if_neg (by omega)]
  | succ n ih =>
    rw [moveUp, ih]
    simp only [copy, store]
    rcases lt_trichotomy j free with hlt | rfl | hlt
    · rw [if_neg (by omega), if_neg (by omega), Function.update_of_ne (by omega)]
    · rw [if_neg (by omega), if_pos (by omega), Function.update_self]
    · rw [Function.update_of_ne (by omega), Function.update_of_ne (by omega)]
      exact if_congr (by omega) rfl rfl

theorem moveDown_mappings {free : Nat} : (t.moveDown free ins).mappings j =
    if free < j ∧ j ≤ ins then t.mappings (j - 1) else t.mappings j := by
  induction ins generalizing t with
  | zero =>
    rw [moveDown, if_neg (by omega)]
  | succ ins ih =>
    rw [moveDown]
    split_ifs with hfree hj hj
    · rw [ih]
      simp only [copy, store]
      rcases hj.2.eq_or_lt with rfl | hlt
      · rw [if_neg (by omega), Function.update_self, Nat.add_sub_cancel]
      · rw [if_pos (by omega), Function.update_of_ne (by omega)]
    · rw [ih]
      simp only [copy, store]
      rw [if_neg (by omega), Function.update_of_ne (by omega)]
    · omega
    · rfl

/-! ## The searches -/

/-- `free` is the last unused entry from `lo` up to `m`. -/
def LastFree (t : MappingTree) (lo m : Nat) : Option Nat → Prop
  | none => ∀ k, lo ≤ k → k < m → (t.mappings k).unused = false
  | some h => lo ≤ h ∧ h < m ∧ (t.mappings h).unused = true ∧
      ∀ k, h < k → k < m → (t.mappings k).unused = false

theorem LastFree.used {lo : Nat} {free : Option Nat} (h : t.LastFree lo m free)
    (hm : (t.mappings m).unused = false) : t.LastFree lo (m + 1) free := by
  have hm' : ∀ k, k < m + 1 → (k < m → (t.mappings k).unused = false) →
      (t.mappings k).unused = false := fun k hk hlt => by
    rcases Nat.lt_or_ge k m with hkm | hge
    · exact hlt hkm
    · obtain rfl : k = m := by omega
      exact hm
  cases free with
  | none => exact fun k hk hkm => hm' k hkm (h k hk)
  | some x => exact ⟨h.1, by have := h.2.1; omega, h.2.2.1, fun k hk hkm => hm' k hkm (h.2.2.2 k hk)⟩

theorem LastFree.unused {lo : Nat} (hlo : lo ≤ m) (hm : (t.mappings m).unused = true) :
    t.LastFree lo (m + 1) (some m) :=
  ⟨hlo, by omega, hm, fun k _ _ => by omega⟩

/-- The insertion point ends the subtree, or it is a child behind a hole. -/
theorem findInsert_spec (limit sibling : Nat) {lo : Nat} {free : Option Nat} (hn : m + n = t.numberOfEntries)
    (hlo : lo ≤ m) (hfree : t.LastFree lo m free) (hem : m ≤ e) (he : e < t.numberOfEntries)
    (hend : (t.mappings e).isEndTag = true) :
    ∃ ins free', t.findInsert limit sibling n m free = some (ins, free') ∧ m ≤ ins ∧ ins ≤ e ∧
      t.LastFree lo ins free' ∧
      (∀ k, m ≤ k → k < ins → (t.mappings k).isEndTag = false ∧ limit < t.depths k) ∧
      ((t.mappings ins).isEndTag = true ∨ t.depths ins ≤ limit ∨ t.depths ins ≤ sibling) := by
  induction n generalizing m free with
  | zero => omega
  | succ n ih =>
    rw [findInsert]
    by_cases hstop : (t.mappings m).isEndTag = true ∨ (t.mappings m).depth ≤ limit
    · simp only [hstop, if_true]
      exact ⟨m, free, rfl, le_rfl, hem, hfree, fun k _ _ => by omega, by
        rcases hstop with h | h
        · exact .inl h
        · exact .inr (.inl h)⟩
    have hm : (t.mappings m).isEndTag = false ∧ limit < t.depths m := by
      push Not at hstop
      exact ⟨by simpa using hstop.1, hstop.2⟩
    have hne : m ≠ e := by
      rintro rfl
      rw [hend] at hm
      cases hm.1
    have hgo : ∀ {free'}, t.LastFree lo (m + 1) free' →
        ∃ ins free'', t.findInsert limit sibling n (m + 1) free' = some (ins, free'') ∧ m ≤ ins ∧ ins ≤ e ∧
          t.LastFree lo ins free'' ∧
          (∀ k, m ≤ k → k < ins → (t.mappings k).isEndTag = false ∧ limit < t.depths k) ∧
          ((t.mappings ins).isEndTag = true ∨ t.depths ins ≤ limit ∨ t.depths ins ≤ sibling) := by
      intro free' hfree'
      obtain ⟨ins, free'', heq, hmi, hie, hlast, hb, hs⟩ := ih (by omega) (by omega) hfree' (by omega)
      refine ⟨ins, free'', heq, by omega, hie, hlast, fun k hk hki => ?_, hs⟩
      rcases hk.eq_or_lt with rfl | hlt
      · exact hm
      · exact hb k hlt hki
    simp only [hstop, if_false]
    by_cases hun : (t.mappings m).unused = true
    · simp only [hun, if_true]
      exact hgo (.unused hlo hun)
    simp only [hun, Bool.false_eq_true, if_false]
    by_cases hsib : free.isSome ∧ (t.mappings m).depth ≤ sibling
    · simp only [hsib, and_self, if_true]
      exact ⟨m, free, rfl, le_rfl, hem, hfree, fun k _ _ => by omega, .inr (.inr hsib.2)⟩
    · simp only [hsib, if_false]
      exact hgo (hfree.used (by simpa using hun))

theorem findUnused_spec (hn : m + n = t.numberOfEntries) (hme : m ≤ e) (he : e < t.numberOfEntries)
    (hend : (t.mappings e).unused = true) :
    ∃ hole, t.findUnused n m = .ok hole ∧ m ≤ hole ∧ hole ≤ e ∧ (t.mappings hole).unused = true ∧
      ∀ k, m ≤ k → k < hole → (t.mappings k).unused = false := by
  induction n generalizing m with
  | zero => omega
  | succ n ih =>
    rw [findUnused]
    split_ifs with hun
    · exact ⟨m, rfl, le_rfl, hme, hun, fun k _ _ => by omega⟩
    · have hne : m ≠ e := by
        rintro rfl
        exact hun hend
      obtain ⟨hole, heq, hmh, hhe, hh, hb⟩ := ih (m := m + 1) (by omega) (by omega)
      refine ⟨hole, heq, by omega, hhe, hh, fun k hk hkh => ?_⟩
      rcases hk.eq_or_lt with rfl | hlt
      · simpa using hun
      · exact hb k hlt hkh

/-! ## A slot in front of an entry -/

/-- A slot was made in front of `ins`; `f` is where the live entries are now. -/
structure Opened (t t' : MappingTree) (ins slot : Nat) (f : Nat → Nat) : Prop where
  root : f 0 = 0
  mono : ∀ i j, t.Live i → t.Live j → i < j → f i < f j
  before : ∀ i, t.Live i → (f i < slot ↔ i < ins)
  ne : ∀ i, t.Live i → f i ≠ slot
  entry : ∀ i, t.Live i → t'.mappings (f i) = t.mappings i
  use : ∀ i, t.Live i → t'.InUse (f i)
  back : ∀ j, t'.Live j → j = slot ∨ ∃ i, t.Live i ∧ f i = j
  slot : t'.Live slot

/-- Behind the hole `hole` the entries up to `ins` move up. -/
theorem opened_up (he : t.Ends e) (hend : (t.mappings e).isEndTag = true) (hlt : e < t.numberOfEntries)
    (hh : hole < ins) (hie : ins ≤ e) (hpos : 0 < hole) (hun : (t.mappings hole).unused = true)
    (hsize : t'.sizeId = t.sizeId)
    (hsame : ∀ j, j ≠ ins - 1 →
      t'.mappings j = if hole ≤ j ∧ j < ins - 1 then t.mappings (j + 1) else t.mappings j)
    (hslot : t'.depths (ins - 1) < Mapping.depthEmpty) :
    t.Opened t' ins (ins - 1) fun i => if hole < i ∧ i < ins then i - 1 else i := by
  have hlive : ∀ i, t.Live i → i < e ∧ i ≠ hole := fun i hi => ⟨he.inUse.mp hi.inUse, by
    rintro rfl
    rw [hi.2] at hun
    cases hun⟩
  have hused : (t'.mappings (ins - 1)).unused = false := Mapping.not_unused.mpr hslot
  have he' : t'.Ends e := by
    refine ⟨by simp only [numberOfEntries, hsize]; exact hlt.le, fun j hj => ?_, .inr ?_⟩
    · rcases eq_or_ne j (ins - 1) with rfl | hne
      · exact Mapping.isEndTag_of_used hused
      · rw [hsame j hne]
        split_ifs with hin
        · exact he.tag _ (by omega)
        · exact he.tag _ hj
    · rw [hsame e (by omega), if_neg (by omega)]
      exact hend
  refine ⟨if_neg (by omega), fun i j hi hj hij => ?_, fun i hi => ?_, fun i hi => ?_, fun i hi => ?_,
    fun i hi => ?_, fun j hj => ?_, he'.inUse.mpr (by omega), hused⟩
  · have h1 := hlive i hi
    have h2 := hlive j hj
    split_ifs <;> omega
  · have h1 := hlive i hi
    split_ifs <;> omega
  · have h1 := hlive i hi
    split_ifs <;> omega
  · have h1 := hlive i hi
    split_ifs with hin
    · rw [hsame _ (by omega), if_pos (by omega), Nat.sub_add_cancel (by omega)]
    · rw [hsame _ (by omega), if_neg (by omega)]
  · have h1 := hlive i hi
    refine he'.inUse.mpr ?_
    split_ifs <;> omega
  · have hje := he'.inUse.mp hj.inUse
    rcases eq_or_ne j (ins - 1) with rfl | hne
    · exact .inl rfl
    have hj2 := hj.2
    rw [hsame j hne] at hj2
    split_ifs at hj2 with hin
    · refine .inr ⟨j + 1, ⟨he.inUse.mpr (by omega), hj2⟩, ?_⟩
      rw [if_pos (by omega), Nat.add_sub_cancel]
    · have hjl : t.Live j := ⟨he.inUse.mpr hje, hj2⟩
      have := hlive j hjl
      exact .inr ⟨j, hjl, if_neg (by omega)⟩

/-- The entries from `ins` on move down into the hole `hole`, or the end tag moves as well. -/
theorem opened_down {e' : Nat} (he : t.Ends e) (he' : t'.Ends e') (hie : ins ≤ hole) (hhe : hole < e')
    (hpos : 0 < ins) (hun : (t.mappings hole).unused = true) (hcase : e' = e ∨ hole = e ∧ e' = e + 1)
    (hlow : ∀ j ≤ hole, j ≠ ins → t'.mappings j = if ins < j then t.mappings (j - 1) else t.mappings j)
    (hhigh : ∀ j, hole < j → j < e' → t'.mappings j = t.mappings j)
    (hslot : t'.depths ins < Mapping.depthEmpty) :
    t.Opened t' ins ins fun i => if ins ≤ i ∧ i < hole then i + 1 else i := by
  have hlive : ∀ i, t.Live i → i < e ∧ i ≠ hole := fun i hi => ⟨he.inUse.mp hi.inUse, by
    rintro rfl
    rw [hi.2] at hun
    cases hun⟩
  refine ⟨if_neg (by omega), fun i j hi hj hij => ?_, fun i hi => ?_, fun i hi => ?_, fun i hi => ?_,
    fun i hi => ?_, fun j hj => ?_, he'.inUse.mpr (by omega), Mapping.not_unused.mpr hslot⟩
  · have h1 := hlive i hi
    have h2 := hlive j hj
    split_ifs <;> omega
  · have h1 := hlive i hi
    split_ifs <;> omega
  · have h1 := hlive i hi
    split_ifs <;> omega
  · have h1 := hlive i hi
    split_ifs with hin
    · rw [hlow _ (by omega) (by omega), if_pos (by omega), Nat.add_sub_cancel]
    · rcases Nat.lt_or_ge i hole with hlt | hge
      · rw [hlow _ hlt.le (by omega), if_neg (by omega)]
      · exact hhigh i (by omega) (by omega)
  · have h1 := hlive i hi
    refine he'.inUse.mpr ?_
    split_ifs <;> omega
  · have hje := he'.inUse.mp hj.inUse
    rcases eq_or_ne j ins with rfl | hne
    · exact .inl rfl
    have hj2 := hj.2
    rcases Nat.lt_or_ge hole j with hlt | hge
    · rw [hhigh j hlt hje] at hj2
      exact .inr ⟨j, ⟨he.inUse.mpr (by omega), hj2⟩, if_neg (by omega)⟩
    · rw [hlow j hge hne] at hj2
      split_ifs at hj2 with hin
      · refine .inr ⟨j - 1, ⟨he.inUse.mpr (by omega), hj2⟩, ?_⟩
        rw [if_pos (by omega), Nat.sub_add_cancel (by omega)]
      · exact .inr ⟨j, ⟨he.inUse.mpr (by omega), hj2⟩, if_neg (by omega)⟩

/-! ## The new child -/

/-- What is needed of the place of a slot: the entries between `parent` and it are at least as deep, and so
low an entry is the first one behind it. -/
structure ChildPlace (t : MappingTree) (parent ins depth : Nat) : Prop where
  lt : parent < ins
  above : ∀ k, t.Live k → parent < k → k < ins → depth ≤ t.depths k
  below : ∀ k, t.Live k → ins ≤ k → ∃ l, t.Live l ∧ ins ≤ l ∧ l ≤ k ∧ t.depths l ≤ depth

namespace Opened

variable (h : t.Opened t' ins slot f)
include h

theorem depths_map (hi : t.Live i) : t'.depths (f i) = t.depths i := by
  rw [depths, h.entry i hi, depths]

theorem live_map (hi : t.Live i) : t'.Live (f i) :=
  ⟨h.use i hi, by rw [h.entry i hi]; exact hi.2⟩

theorem lt_iff (hi : t.Live i) (hj : t.Live j) : f i < f j ↔ i < j := by
  refine ⟨fun hlt => Nat.lt_of_not_le fun hle => ?_, h.mono i j hi hj⟩
  rcases hle.eq_or_lt with rfl | hlt'
  · exact absurd hlt (lt_irrefl _)
  · exact absurd (h.mono j i hj hi hlt') (by omega)

theorem slot_lt_iff (hi : t.Live i) : slot < f i ↔ ins ≤ i := by
  have h1 := h.before i hi
  have h2 := h.ne i hi
  omega

theorem carries (wf : t.WellFormed) {d : Nat} (hd : t'.depths slot = d) (hplace : t.ChildPlace parent ins d) :
    t.Carries t' (fun _ => True) (· = slot) f := by
  refine ⟨fun j => ⟨fun hj => ?_, ?_⟩, fun i hi _ => h.ne i hi, fun i j hi _ hj _ => h.mono i j hi hj,
    fun i hi _ => h.entry i hi, fun i hi _ => ?_⟩
  · exact (h.back j hj).imp_right fun ⟨i, hi, heq⟩ => ⟨i, hi, trivial, heq⟩
  · rintro (rfl | ⟨i, hi, -, rfl⟩)
    · exact h.slot
    · exact h.live_map hi
  · refine parent_map wf (L := t.Live) (fun _ => id) (fun i m hi hm => (isParent_regular hi hm).live) h.root
      h.mono (fun i hi => h.depths_map hi) hi fun m hm j hmj hji => ?_
    have huse : t'.InUse j := (h.use i hi).of_le hji.le
    by_cases hj : t'.Live j
    · rcases h.back j hj with rfl | hj
      · right
        rw [hd]
        by_contra hlt
        -- the first entry behind the slot would be a parent
        obtain ⟨l, hl, hil, hli, hdl⟩ := hplace.below i hi ((h.slot_lt_iff hi).mp hji)
        have hml : m < l := by
          have := (h.before m (isParent_regular hi hm).live).mp hmj
          omega
        have hne : l ≠ i := by
          rintro rfl
          omega
        have := hm.2.2 l hml (by omega)
        omega
      · exact .inl hj
    · right
      have h1 := huse.le_depths hj
      have h2 := hi.depths_lt
      omega

theorem parent_slot {d : Nat} (hd : t'.depths slot = d) (hplace : t.ChildPlace parent ins d)
    (hpar : t.Live parent) (hlt : t.depths parent < d) : t'.parent slot = some (f parent) := by
  refine parent_eq_some.mpr ⟨(h.before parent hpar).mpr hplace.lt, ?_, fun j hpj hjs => ?_⟩
  · rw [h.depths_map hpar, hd]
    exact hlt
  · rw [hd]
    by_cases hj : t'.Live j
    · rcases h.back j hj with rfl | ⟨k, hk, rfl⟩
      · exact absurd hjs (lt_irrefl _)
      · rw [h.depths_map hk]
        exact hplace.above k hk ((h.lt_iff hpar hk).mp hpj) ((h.before k hk).mp hjs)
    · have h1 := (h.slot.inUse.of_le hjs.le).le_depths hj
      have h2 := h.slot.depths_lt
      omega

/-- Apart from the slot, the next entry is the image of the next entry. -/
theorem next_map (hi : t.Live i) (hnot : i < ins → ∃ k, t.Live k ∧ i < k ∧ k < ins) :
    t'.next (f i) = (t.next i).map f := by
  have hslot : ∀ k, t.Live k → (∀ l, i < l → l < k → ¬ t.Live l) → i < k → f i < slot → ¬ slot < f k := by
    intro k hk hb hik hlt hgt
    obtain ⟨l, hl, hil, hli⟩ := hnot ((h.before i hi).mp hlt)
    have hik := (h.slot_lt_iff hk).mp hgt
    exact hb l hil (by omega) hl
  cases hn : t.next i with
  | none =>
    rw [Option.map_none, next_eq_none (h.use i hi)]
    intro j hij hj
    have hnone := (next_eq_none hi.inUse).mp hn
    rcases h.back j hj with rfl | ⟨k, hk, rfl⟩
    · obtain ⟨l, hl, hil, _⟩ := hnot ((h.before i hi).mp hij)
      exact hnone l hil hl
    · exact hnone k ((h.lt_iff hi hk).mp hij) hk
  | some k =>
    obtain ⟨hik, hk, hb⟩ := (next_eq_some hi.inUse).mp hn
    rw [Option.map_some, next_eq_some (h.use i hi)]
    refine ⟨h.mono i k hi hk hik, h.live_map hk, fun j hij hjk hj => ?_⟩
    rcases h.back j hj with rfl | ⟨l, hl, rfl⟩
    · exact hslot k hk hb hik hij hjk
    · exact hb l ((h.lt_iff hi hl).mp hij) ((h.lt_iff hl hk).mp hjk) hl

theorem next_slot (hi : t.Live i) (hlt : i < ins) (hnone : ∀ k, t.Live k → i < k → ins ≤ k) :
    t'.next (f i) = some slot := by
  refine (next_eq_some (h.use i hi)).mpr ⟨(h.before i hi).mpr hlt, h.slot, fun j hij hjs hj => ?_⟩
  rcases h.back j hj with rfl | ⟨k, hk, rfl⟩
  · exact absurd hjs (lt_irrefl _)
  · have h1 := hnone k hk ((h.lt_iff hi hk).mp hij)
    have h2 := (h.before k hk).mp hjs
    omega

theorem findSubmap_map (hi : t.Live i) (hnext : t'.next (f i) = (t.next i).map f) :
    t'.findSubmap (f i) = (t.findSubmap i).map f := by
  rw [findSubmap, findSubmap, hnext]
  cases hn : t.next i with
  | none => rfl
  | some k =>
    have hk := ((next_eq_some hi.inUse).mp hn).2.1
    simp only [Option.map_some, h.entry k hk]
    split_ifs <;> rfl

end Opened

/-! ## `allocate` -/

/-- The outcome of a successful `allocate`: one new entry, a child of `parent`, and nothing else changes but
for positions. -/
structure ChildInserted (t t' : MappingTree) (parent : Nat) (insertSubmap : Bool) (slot : Nat)
    (f : Nat → Nat) : Prop where
  carries : t.Carries t' (fun _ => True) (· = slot) f
  parent_slot : t'.parent slot = some (f parent)
  submap : (t'.mappings slot).submap = insertSubmap
  depth : insertSubmap = false → t'.depths slot = t.depths parent + 1
  findSubmap_parent : insertSubmap = true → t'.findSubmap (f parent) = some slot
  findSubmap : ∀ i, t.Regular i → (insertSubmap = true → i ≠ parent) →
    t'.findSubmap (f i) = (t.findSubmap i).map f

/-- The place that `findInsert` finds. -/
structure InsertPlace (t : MappingTree) (parent : Nat) (insertSubmap : Bool) (ins : Nat) : Prop where
  lt : parent < ins
  inside : ∀ k, parent < k → k < ins →
    (if insertSubmap then t.depths parent + 1 else t.depths parent) < t.depths k
  stop : (t.mappings ins).isEndTag = true ∨ t.depths ins ≤ t.depths parent + 1

/-- The depth `allocate` gives to the new entry. -/
def childDepth (t : MappingTree) (parent : Nat) (insertSubmap : Bool) : Nat :=
  if insertSubmap then Mapping.depthSubmap else t.depths parent + 1

theorem InsertPlace.next_regular (h : t.InsertPlace parent insertSubmap ins)
    (hpar : t.depths parent < Mapping.depthMax) (hk : t.Live k) (hle : ins ≤ k) :
    t.Regular ins ∧ t.depths ins ≤ t.depths parent + 1 := by
  have hu := hk.inUse.of_le hle
  rcases h.stop with hend | hd
  · rw [hu.isEndTag] at hend
    cases hend
  · simp only [Mapping.depthMax] at hpar
    refine ⟨(hu.live ?_).regular_of_depths ?_, hd⟩ <;>
      simp only [Mapping.depthEmpty, Mapping.depthSubmap] <;> omega

/-- Without a submap of `parent` only holes lie in front of its first child. -/
theorem InsertPlace.not_live (wf : t.WellFormed) (h : t.InsertPlace parent true ins)
    (hpar : t.Regular parent) (hno : t.findSubmap parent = none) (hpk : parent < k) (hki : k < ins) :
    ¬ t.Live k := by
  intro hk
  cases hn : t.next parent with
  | none => exact (next_eq_none hpar.live.inUse).mp hn k hpk hk
  | some q =>
    obtain ⟨hpq, hq, hb⟩ := (next_eq_some hpar.live.inUse).mp hn
    have hqk : q ≤ k := Nat.le_of_not_lt fun hkq => hb k hpk hkq hk
    have hreg : t.Regular q := by
      refine ⟨hq, ?_⟩
      rw [MappingTree.findSubmap, hn] at hno
      by_contra hs
      simp only [Bool.not_eq_false] at hs
      simp [hs] at hno
    obtain ⟨j, hj, hjreg, hd, hbj⟩ := wf.step q hreg (by omega)
    have hjp : j = parent := by
      rcases lt_trichotomy j parent with hlt | heq | hlt
      · exact absurd hpar (hbj parent hlt hpq)
      · exact heq
      · exact absurd hjreg.live (hb j hlt hj)
    have hdeep := h.inside q hpq (by omega)
    simp only [if_true] at hdeep
    rw [hjp] at hd
    omega

theorem InsertPlace.childPlace (wf : t.WellFormed) {insertSubmap : Bool}
    (h : t.InsertPlace parent insertSubmap ins) (hpar : t.Regular parent)
    (hd : t.depths parent < Mapping.depthMax)
    (hno : insertSubmap = true → t.findSubmap parent = none) :
    t.ChildPlace parent ins (t.childDepth parent insertSubmap) := by
  have hnext : ∀ {k}, t.Live k → ins ≤ k → t.Regular ins ∧ t.depths ins ≤ t.depths parent + 1 :=
    fun hk hle => h.next_regular hd hk hle
  refine ⟨h.lt, fun k hk hpk hki => ?_, fun k hk hle => ⟨ins, (hnext hk hle).1.live, le_rfl, hle, ?_⟩⟩
  · cases insertSubmap with
    | true => exact absurd hk (h.not_live wf hpar (hno rfl) hpk hki)
    | false => exact h.inside k hpk hki
  · have h1 := (hnext hk hle).2
    have h2 := (hnext hk hle).1.depths_lt
    cases insertSubmap with
    | true => exact h2.le
    | false => exact h1

/-- A slot at the place `findInsert` finds, with the depth `allocate` sets, is a new child. -/
theorem Opened.childInserted (wf : t.WellFormed) {insertSubmap : Bool} (h : t.Opened t' ins slot f)
    (hplace : t.InsertPlace parent insertSubmap ins) (hpar : t.Regular parent)
    (hd : t.depths parent < Mapping.depthMax) (hno : insertSubmap = true → t.findSubmap parent = none)
    (hslot : t'.depths slot = t.childDepth parent insertSubmap) :
    t.ChildInserted t' parent insertSubmap slot f := by
  have hchild := hplace.childPlace wf hpar hd hno
  have hsub : (t'.mappings slot).submap = insertSubmap := by
    simp only [Mapping.submap]
    change decide (t'.depths slot = _) = _
    rw [hslot, childDepth]
    simp only [Mapping.depthMax, Mapping.depthSubmap] at *
    cases insertSubmap with
    | true => simp
    | false => simpa using (by omega : t.depths parent + 1 ≠ 253)
  have hlt : t.depths parent < t.childDepth parent insertSubmap := by
    simp only [childDepth, Mapping.depthMax, Mapping.depthSubmap] at *
    split_ifs <;> omega
  refine ⟨h.carries wf hslot hchild, h.parent_slot hslot hchild hpar.live hlt, hsub, ?_, ?_, ?_⟩
  · rintro rfl
    exact hslot
  · rintro rfl
    have hnext : t'.next (f parent) = some slot := h.next_slot hpar.live hplace.lt fun k hk hpk =>
      Nat.le_of_not_lt fun hki => hplace.not_live wf hpar (hno rfl) hpk hki hk
    simp only [MappingTree.findSubmap, hnext, hsub, if_true]
  · intro i hi hip
    by_cases hbetween : i < ins → ∃ k, t.Live k ∧ i < k ∧ k < ins
    · exact h.findSubmap_map hi.live (h.next_map hi.live hbetween)
    · -- the slot is the next entry
      push Not at hbetween
      obtain ⟨hii, hnone⟩ := hbetween
      have hreg : insertSubmap = false := by
        cases insertSubmap with
        | false => rfl
        | true =>
          refine absurd ?_ (hip rfl)
          rcases lt_trichotomy i parent with hlt | heq | hlt
          · exact absurd (hnone parent hpar.live hlt) (by have := hplace.lt; omega)
          · exact heq
          · exact absurd hi.live (hplace.not_live wf hpar (hno rfl) hlt hii)
      have hnext : t'.next (f i) = some slot := h.next_slot hi.live hii hnone
      have hold : t.findSubmap i = none := by
        rw [MappingTree.findSubmap]
        cases hn : t.next i with
        | none => rfl
        | some k =>
          obtain ⟨hik, hk, hb⟩ := (next_eq_some hi.live.inUse).mp hn
          have hle := hnone k hk hik
          have hins := (hplace.next_regular hd hk hle).1
          have heq : k = ins := le_antisymm (Nat.le_of_not_lt fun hlt => hb ins hii hlt hins.live) hle
          simp only [heq, hins.2, Bool.false_eq_true, if_false]
      rw [hold, Option.map_none, MappingTree.findSubmap, hnext]
      simp only [hsub, hreg, Bool.false_eq_true, if_false]

/-- What `allocate` does with the array. -/
theorem allocate_opens (wf : t.WellFormed) (hlast : t.last.unused = true) (hpar : t.Live parent)
    (hd : t.depths parent < Mapping.depthMax) (insertSubmap : Bool) :
    ∃ ins slot t' f, t.allocate true parent insertSubmap = .ok (some slot, t') ∧
      t.InsertPlace parent insertSubmap ins ∧ t.Opened t' ins slot f ∧
      t'.depths slot = t.childDepth parent insertSubmap := by
  obtain ⟨e, hen, he, hend⟩ := wf.exists_end_lt hlast
  have hpe : parent < e := he.inUse.mp hpar.inUse
  have hnone : t.LastFree (parent + 1) (parent + 1) none := fun k _ _ => by omega
  obtain ⟨ins, free, hfind, hpi, hie, hfree, hin, hstop⟩ := findInsert_spec
    (if insertSubmap then t.depths parent + 1 else t.depths parent) (t.depths parent + 1)
    (n := t.numberOfEntries - (parent + 1)) (by omega) (le_refl (parent + 1)) hnone hpe hen hend
  have hplace : t.InsertPlace parent insertSubmap ins := by
    refine ⟨hpi, fun k hk hki => (hin k hk hki).2, ?_⟩
    rcases hstop with h | h | h
    · exact .inl h
    · right
      split_ifs at h <;> omega
    · exact .inr h
  have hchild : t.childDepth parent insertSubmap < Mapping.depthEmpty := by
    simp only [childDepth, Mapping.depthMax, Mapping.depthSubmap, Mapping.depthEmpty] at *
    split_ifs <;> omega
  have hne : (t.mappings parent).depth ≠ Mapping.depthMax := hd.ne
  simp only [depths] at hfind
  cases free with
  | some hole =>
    obtain ⟨hph, hhi, hun, _⟩ := hfree
    have heq : t.allocate true parent insertSubmap = .ok (some (ins - 1),
        ({ t.moveUp (ins - (hole + 1)) hole with
          emptyCount := (t.moveUp (ins - (hole + 1)) hole).emptyCount - 1
          count := (t.moveUp (ins - (hole + 1)) hole).count + 1 } : MappingTree).setDepth (ins - 1)
          (t.childDepth parent insertSubmap)) := by
      simp [allocate, hlast, hne, hfind, hun, Nat.not_le.mpr hhi, pure, Except.pure, bind, Except.bind,
        childDepth, depths]
    refine ⟨ins, ins - 1, _, fun i => if hole < i ∧ i < ins then i - 1 else i, heq, hplace, ?_, setDepth_depths⟩
    refine opened_up he hend hen hhi hie (by omega) hun moveUp_sizeId (fun j hj => ?_) ?_
    · exact (setDepth_mappings_of_ne hj).trans (moveUp_mappings.trans (if_congr (by omega) rfl rfl))
    · rw [setDepth_depths]
      exact hchild
  | none =>
    have hunused : (t.mappings e).unused = true := by
      rw [Mapping.isEndTag_iff] at hend
      simp [Mapping.unused, hend, Mapping.depthEmpty, Mapping.depthEnd]
    obtain ⟨hole, hfu, hih, hhe, hun, hb⟩ := findUnused_spec (t := t) (m := ins) (e := e)
      (n := t.numberOfEntries - ins) (by omega) hie hen hunused
    cases hht : (t.mappings hole).isEndTag with
    | true =>
      -- the end tag moves as well, if it has room
      obtain rfl : hole = e := by
        by_contra hne
        have := he.tag hole (by omega)
        rw [hht] at this
        cases this
      obtain ⟨stop, hstop⟩ : ∃ stop, stop = if hole + 1 < t.numberOfEntries then hole + 1 else hole := ⟨_, rfl⟩
      have hmoved : ∀ j, j ≠ ins → ((({ t.moveDown ins stop with
          count := (t.moveDown ins stop).count + 1 } : MappingTree).setDepth ins
            (t.childDepth parent insertSubmap)).mappings j =
          if ins < j ∧ j ≤ stop then t.mappings (j - 1) else t.mappings j) := fun j hj =>
        (setDepth_mappings_of_ne hj).trans moveDown_mappings
      have heq : t.allocate true parent insertSubmap = .ok (some ins,
          ({ t.moveDown ins stop with
            count := (t.moveDown ins stop).count + 1 } : MappingTree).setDepth ins
            (t.childDepth parent insertSubmap)) := by
        simp [allocate, hlast, hne, hfind, hfu, hht, hstop, pure, Except.pure, bind, Except.bind, childDepth,
          depths]
      have hends : (({ t.moveDown ins stop with
          count := (t.moveDown ins stop).count + 1 } : MappingTree).setDepth ins
            (t.childDepth parent insertSubmap)).Ends (hole + 1) := by
        refine ⟨?_, fun j hj => ?_, ?_⟩
        · simp only [numberOfEntries, setDepth, store, moveDown_sizeId]
          exact hen
        · rcases eq_or_ne j ins with rfl | hji
          · exact Mapping.isEndTag_of_used (Mapping.not_unused.mpr (setDepth_depths.trans_lt hchild))
          · rw [hmoved j hji]
            split_ifs with hin
            · exact he.tag _ (by omega)
            · exact he.tag _ (by split_ifs at hstop <;> omega)
        · rcases Nat.lt_or_ge (hole + 1) t.numberOfEntries with hlt | hge
          · right
            rw [hmoved _ (by omega), if_pos (by rw [if_pos hlt] at hstop; omega), Nat.add_sub_cancel]
            exact hend
          · left
            simp only [numberOfEntries, setDepth, store, moveDown_sizeId]
            change hole + 1 = t.numberOfEntries
            omega
      have hopen := opened_down he hends hih (by omega) (by omega) hun (.inr ⟨rfl, rfl⟩)
        (fun j hj hji => (hmoved j hji).trans (if_congr (by split_ifs at hstop <;> omega) rfl rfl))
        (fun j h1 h2 => by omega) (setDepth_depths.trans_lt hchild)
      exact ⟨ins, ins, _, _, heq, hplace, hopen, setDepth_depths⟩
    | false =>
      have hlt : hole < e := by
        refine lt_of_le_of_ne hhe ?_
        rintro rfl
        rw [hend] at hht
        cases hht
      have hmoved : ∀ j, j ≠ ins → ((({ t.moveDown ins hole with
          emptyCount := t.emptyCount - 1
          count := (t.moveDown ins hole).count + 1 } : MappingTree).setDepth ins
            (t.childDepth parent insertSubmap)).mappings j =
          if ins < j ∧ j ≤ hole then t.mappings (j - 1) else t.mappings j) := fun j hj =>
        (setDepth_mappings_of_ne hj).trans moveDown_mappings
      have heq : t.allocate true parent insertSubmap = .ok (some ins,
          ({ t.moveDown ins hole with
            emptyCount := t.emptyCount - 1
            count := (t.moveDown ins hole).count + 1 } : MappingTree).setDepth ins
            (t.childDepth parent insertSubmap)) := by
        simp [allocate, hlast, hne, hfind, hfu, hht, pure, Except.pure, bind, Except.bind, childDepth, depths]
      have hends : (({ t.moveDown ins hole with
          emptyCount := t.emptyCount - 1
          count := (t.moveDown ins hole).count + 1 } : MappingTree).setDepth ins
            (t.childDepth parent insertSubmap)).Ends e := by
        refine ⟨?_, fun j hj => ?_, .inr ?_⟩
        · simp only [numberOfEntries, setDepth, store, moveDown_sizeId]
          exact hen.le
        · rcases eq_or_ne j ins with rfl | hji
          · exact Mapping.isEndTag_of_used (Mapping.not_unused.mpr (setDepth_depths.trans_lt hchild))
          · rw [hmoved j hji]
            split_ifs
            · exact he.tag _ (by omega)
            · exact he.tag _ hj
        · rw [hmoved _ (by omega), if_neg (by omega)]
          exact hend
      have hopen := opened_down he hends hih hlt (by omega) hun (.inl rfl)
        (fun j hj hji => (hmoved j hji).trans (if_congr (by omega) rfl rfl))
        (fun j h1 h2 => (hmoved j (by omega)).trans (if_neg (by omega))) (setDepth_depths.trans_lt hchild)
      exact ⟨ins, ins, _, _, heq, hplace, hopen, setDepth_depths⟩

end MappingTree

end L4env.Fiasco
