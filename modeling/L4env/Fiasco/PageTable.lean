import L4env.Util.Word

/-!
# Page tables

The memory space of a task (`shared/mem_space-ia32-ux.cpp`): a page directory whose entries are empty, map a
superpage or point to a page table. An entry holds a frame number, so that its physical address is always
aligned, and the attribute bits. The processor has superpages.
-/

namespace L4env.Fiasco

namespace Config

/-- `PAGE_SIZE` -/
def pageSize : Nat := 4096

/-- `SUPERPAGE_SIZE` -/
def superpageSize : Nat := 4194304

end Config

/-! ## Attributes -/

/-- `Mem_space::Page_attrib` -/
abbrev PageAttribs := BitVec 32

namespace PageAttribs

def writable : PageAttribs := 0x2

def userAccessible : PageAttribs := 0x4

def noncacheable : PageAttribs := 0x18

def referenced : PageAttribs := 0x20

def dirty : PageAttribs := 0x40

/-- `Page_all_attribs` -/
def all : PageAttribs := writable ||| noncacheable ||| userAccessible ||| referenced ||| dirty

end PageAttribs

/-! ## Entries -/

/-- A valid `Pt_entry`, or a valid `Pd_entry` of a superpage. -/
structure PageEntry where
  frame : Nat
  attribs : PageAttribs
  deriving DecidableEq, Repr

/-- `Pd_entry` -/
inductive PdEntry
  | invalid
  | superpage (e : PageEntry)
  | ptab (entries : Nat → Option PageEntry)

structure MemSpace where
  dir : Nat → PdEntry

/-- `Mem_space::Status` -/
inductive InsertStatus
  | ok
  | warnExists
  | warnAttribUpgrade
  | errNomem
  | errExists
  deriving DecidableEq, Repr

/-- What `v_lookup` finds: a page, or a free slot of a size. -/
inductive Slot
  | page (phys size : Nat) (attribs : PageAttribs)
  | free (size : Nat)
  deriving DecidableEq, Repr

/-- A failed assertion of `Mem_space`. -/
inductive MemFault
  | assertion
  deriving DecidableEq, Repr

namespace MemSpace

open Config

def pdIndex (virt : Nat) : Nat := virt / Config.superpageSize

def ptIndex (virt : Nat) : Nat := virt / pageSize % 1024

def setDir (s : MemSpace) (i : Nat) (p : PdEntry) : MemSpace := ⟨Function.update s.dir i p⟩

/-- `v_lookup` -/
def vLookup (s : MemSpace) (virt : Nat) : Slot :=
  match s.dir (pdIndex virt) with
  | .invalid => .free Config.superpageSize
  | .superpage e => .page (e.frame * Config.superpageSize) Config.superpageSize (e.attribs &&& PageAttribs.all)
  | .ptab entries =>
    match entries (ptIndex virt) with
    | none => .free pageSize
    | some e => .page (e.frame * pageSize) pageSize (e.attribs &&& PageAttribs.all)

/-- The attributes of an entry for the same page frame are upgraded. -/
def upgrade (e : PageEntry) (attribs : PageAttribs) : InsertStatus × PageEntry :=
  if e.attribs ||| attribs = e.attribs then (.warnExists, e)
  else (.warnAttribUpgrade, { e with attribs := e.attribs ||| attribs })

/-- `v_insert`; `granted` is the answer of the allocator to a request for a page table. -/
def vInsert (s : MemSpace) (granted : Bool) (phys virt size : Nat) (attribs : PageAttribs) :
    Except MemFault (InsertStatus × MemSpace) :=
  let setEntry (entries : Nat → Option PageEntry) (e : PageEntry) : MemSpace :=
    s.setDir (pdIndex virt) (.ptab (Function.update entries (ptIndex virt) (some e)))
  if size ≠ pageSize ∧ size ≠ Config.superpageSize then throw .assertion
  else if size = Config.superpageSize ∧ (virt % Config.superpageSize ≠ 0 ∨ phys % Config.superpageSize ≠ 0) then
    throw .assertion
  else
    match s.dir (pdIndex virt) with
    | .invalid =>
      if size = Config.superpageSize then
        pure (.ok, s.setDir (pdIndex virt) (.superpage ⟨phys / Config.superpageSize, attribs⟩))
      else if granted = false then pure (.errNomem, s)
      else pure (.ok, setEntry (fun _ => none) ⟨phys / pageSize, attribs⟩)
    | .superpage e =>
      if size ≠ Config.superpageSize ∨ e.frame * Config.superpageSize ≠ phys then pure (.errExists, s)
      else
        let (status, e) := upgrade e attribs
        pure (status, s.setDir (pdIndex virt) (.superpage e))
    | .ptab entries =>
      if size = Config.superpageSize then pure (.errExists, s)
      else
        match entries (ptIndex virt) with
        | some e =>
          if e.frame * pageSize ≠ phys then pure (.errExists, s)
          else
            let (status, e) := upgrade e attribs
            pure (status, setEntry entries e)
        | none => pure (.ok, setEntry entries ⟨phys / pageSize, attribs⟩)

/-- What `v_delete` leaves of an entry: all but the attributes, or nothing if the right to use the page is
among them. -/
def downgrade (e : PageEntry) (attribs : PageAttribs) : Option PageEntry :=
  if attribs &&& PageAttribs.userAccessible = 0 then some { e with attribs := e.attribs &&& ~~~attribs }
  else none

/-- `v_delete`, and the attributes it removed. -/
def vDelete (s : MemSpace) (virt size : Nat) (attribs : PageAttribs) :
    Except MemFault (PageAttribs × MemSpace) :=
  if size ≠ pageSize ∧ size ≠ Config.superpageSize then throw .assertion
  else if size = Config.superpageSize ∧ virt % Config.superpageSize ≠ 0 then throw .assertion
  else
    match s.dir (pdIndex virt) with
    | .invalid => pure (0, s)
    | .superpage e =>
      if size ≠ Config.superpageSize then throw .assertion
      else
        pure (e.attribs &&& attribs,
          s.setDir (pdIndex virt) ((downgrade e attribs).elim .invalid .superpage))
    | .ptab entries =>
      if size ≠ pageSize then throw .assertion
      else
        match entries (ptIndex virt) with
        | none => pure (0, s)
        | some e =>
          pure (e.attribs &&& attribs,
            s.setDir (pdIndex virt) (.ptab (Function.update entries (ptIndex virt) (downgrade e attribs))))

end MemSpace

/-! ## What an insertion records -/

/-- The mapping was added, or it existed for the same frame. -/
def InsertStatus.Accepted : InsertStatus → Prop
  | .ok | .warnExists | .warnAttribUpgrade => True
  | .errNomem | .errExists => False

instance : DecidablePred InsertStatus.Accepted
  | .ok | .warnExists | .warnAttribUpgrade => .isTrue trivial
  | .errNomem | .errExists => .isFalse id

namespace Slot

/-- A page of the size fits into the slot: it holds the same page frame, it is free, or a page table can be
allocated for it. -/
def Accepts (granted : Bool) (phys size : Nat) : Slot → Prop
  | .page p n _ => p = phys ∧ n = size
  | .free n => n = size ∨ size = Config.pageSize ∧ granted = true

instance (granted : Bool) (phys size : Nat) : DecidablePred (Accepts granted phys size)
  | .page p n _ => inferInstanceAs (Decidable (p = phys ∧ n = size))
  | .free n => inferInstanceAs (Decidable (n = size ∨ size = Config.pageSize ∧ granted = true))

/-- The page of the slot has the attributes. -/
def Carries (attribs : PageAttribs) : Slot → Prop
  | .page _ _ a => a &&& attribs = attribs
  | .free _ => False

instance (attribs : PageAttribs) : DecidablePred (Carries attribs)
  | .page _ _ a => inferInstanceAs (Decidable (a &&& attribs = attribs))
  | .free _ => .isFalse id

end Slot

namespace MemSpace

open Config

variable {s s' : MemSpace} {granted : Bool} {phys virt size : Nat} {a attribs : PageAttribs}

@[simp] theorem setDir_dir_self (i : Nat) (p : PdEntry) : (s.setDir i p).dir i = p :=
  Function.update_self ..

theorem setDir_dir_of_ne {i j : Nat} (h : i ≠ j) (p : PdEntry) : (s.setDir j p).dir i = s.dir i :=
  Function.update_of_ne h ..

theorem upgrade_accepted (e : PageEntry) : (upgrade e a).1.Accepted := by
  unfold upgrade
  split <;> trivial

theorem upgrade_frame (e : PageEntry) : (upgrade e a).2.frame = e.frame := by
  unfold upgrade
  split <;> rfl

theorem and_all_of_le (ha : a &&& PageAttribs.all = a) (h : attribs ||| a = attribs) :
    attribs &&& PageAttribs.all &&& a = a := by
  rw [BitVec.and_assoc, BitVec.and_comm PageAttribs.all, ha, ← h]
  ext i
  simp
  grind

/-- The entry of an accepted insertion has the attributes. -/
theorem upgrade_carries (ha : a &&& PageAttribs.all = a) (e : PageEntry) :
    (upgrade e a).2.attribs &&& PageAttribs.all &&& a = a := by
  unfold upgrade
  split
  next h => exact and_all_of_le ha h
  next => exact and_all_of_le ha (by rw [BitVec.or_assoc, BitVec.or_self])

/-- An insertion is accepted exactly where the page fits; its attributes are then in the entry. -/
theorem vInsert_spec (s : MemSpace) (granted : Bool) (hsize : size = pageSize ∨ size = Config.superpageSize)
    (hvirt : size ∣ virt) (hphys : size ∣ phys) (ha : a &&& PageAttribs.all = a) :
    ∃ status s', s.vInsert granted phys virt size a = .ok (status, s') ∧
      (status.Accepted ↔ (s.vLookup virt).Accepts granted phys size) ∧
      (status.Accepted → (s'.vLookup virt).Carries a) ∧ (¬ status.Accepted → s' = s) := by
  have hne : Config.superpageSize ≠ pageSize := by decide
  have hself : a &&& PageAttribs.all &&& a = a := by rw [ha, BitVec.and_self]
  unfold vInsert
  rw [if_neg (by omega), if_neg (by
    rintro ⟨rfl, h⟩
    exact h.elim (· (Nat.mod_eq_zero_of_dvd hvirt)) (· (Nat.mod_eq_zero_of_dvd hphys)))]
  cases hd : s.dir (pdIndex virt) with
  | invalid =>
    have hl : s.vLookup virt = .free Config.superpageSize := by simp [vLookup, hd]
    rw [hl]
    dsimp only
    rcases hsize with rfl | rfl
    · rw [if_neg hne.symm]
      cases granted with
      | false => exact ⟨_, _, rfl, by simp [InsertStatus.Accepted, Slot.Accepts, hne], nofun, fun _ => rfl⟩
      | true =>
        refine ⟨_, _, rfl, by simp [InsertStatus.Accepted, Slot.Accepts], fun _ => ?_, fun h => ?_⟩
        · simpa [vLookup, Slot.Carries] using hself
        · exact absurd trivial h
    · rw [if_pos rfl]
      refine ⟨_, _, rfl, by simp [InsertStatus.Accepted, Slot.Accepts], fun _ => ?_, fun h => ?_⟩
      · simpa [vLookup, Slot.Carries] using hself
      · exact absurd trivial h
  | superpage e =>
    have hl : s.vLookup virt = .page (e.frame * Config.superpageSize) Config.superpageSize
        (e.attribs &&& PageAttribs.all) := by simp [vLookup, hd]
    rw [hl]
    dsimp only
    split
    next h =>
      refine ⟨_, _, rfl, ?_, nofun, fun _ => rfl⟩
      simp only [InsertStatus.Accepted, Slot.Accepts, false_iff]
      rintro ⟨h1, h2⟩
      exact h.elim (· h2.symm) (· h1)
    next h =>
      push Not at h
      refine ⟨_, _, rfl, ?_, fun _ => ?_, fun h' => absurd (upgrade_accepted e) h'⟩
      · simp [upgrade_accepted, Slot.Accepts, h.1, h.2]
      · simpa [vLookup, Slot.Carries] using upgrade_carries ha e
  | ptab entries =>
    dsimp only
    cases he : entries (ptIndex virt) with
    | none =>
      have hl : s.vLookup virt = .free pageSize := by simp [vLookup, hd, he]
      rw [hl]
      rcases hsize with rfl | rfl
      · rw [if_neg hne.symm]
        refine ⟨_, _, rfl, by simp [InsertStatus.Accepted, Slot.Accepts], fun _ => ?_, fun h => ?_⟩
        · simpa [vLookup, Slot.Carries] using hself
        · exact absurd trivial h
      · rw [if_pos rfl]
        exact ⟨_, _, rfl, by simp [InsertStatus.Accepted, Slot.Accepts, hne, hne.symm], nofun,
          fun _ => rfl⟩
    | some e =>
      have hl : s.vLookup virt = .page (e.frame * pageSize) pageSize (e.attribs &&& PageAttribs.all) := by
        simp [vLookup, hd, he]
      rw [hl]
      rcases hsize with rfl | rfl
      · rw [if_neg hne.symm]
        dsimp only
        split
        next h =>
          exact ⟨_, _, rfl, by simp [InsertStatus.Accepted, Slot.Accepts, h], nofun, fun _ => rfl⟩
        next h =>
          refine ⟨_, _, rfl, ?_, fun _ => ?_, fun h' => absurd (upgrade_accepted e) h'⟩
          · simp [upgrade_accepted, Slot.Accepts, not_not.mp h]
          · simpa [vLookup, Slot.Carries] using upgrade_carries ha e
      · rw [if_pos rfl]
        exact ⟨_, _, rfl, by simp [InsertStatus.Accepted, Slot.Accepts, hne.symm], nofun, fun _ => rfl⟩

/-- A slot accepts pages of the two sizes only. -/
theorem valid_of_accepts (h : (s.vLookup virt).Accepts granted phys size) :
    size = pageSize ∨ size = Config.superpageSize := by
  unfold vLookup at h
  cases hd : s.dir (pdIndex virt) with
  | invalid =>
    rw [hd] at h
    exact (h.imp (·.symm) (·.1)).symm
  | superpage e =>
    rw [hd] at h
    exact .inr h.2.symm
  | ptab entries =>
    rw [hd] at h
    cases he : entries (ptIndex virt) with
    | none =>
      simp only [he] at h
      exact .inl (h.elim (·.symm) (·.1))
    | some e =>
      simp only [he] at h
      exact .inl h.2.symm

theorem accepts_of_free (granted : Bool) (h : (s.vLookup virt).Accepts false phys size) :
    (s.vLookup virt).Accepts granted phys size := by
  cases hl : s.vLookup virt with
  | page p n a => rwa [hl] at h
  | free n =>
    rw [hl] at h
    exact .inl (h.resolve_right fun h' => Bool.false_ne_true h'.2)

/-- The page that a lookup finds is accepted again. -/
theorem accepts_self {p n : Nat} (h : s.vLookup virt = .page p n attribs) :
    (s.vLookup virt).Accepts false p n := by
  rw [h]
  exact ⟨rfl, rfl⟩

theorem downgrade_frame {e e' : PageEntry} (h : downgrade e a = some e') : e'.frame = e.frame := by
  unfold downgrade at h
  split at h <;> cases h
  rfl

/-- A slot that accepts a page without a new page table still does so when pages were deleted. -/
theorem vDelete_accepts {v n : Nat} {r : PageAttribs}
    (h : (s.vLookup virt).Accepts false phys size) (hdel : s.vDelete v n a = .ok (r, s')) :
    (s'.vLookup virt).Accepts false phys size := by
  unfold vDelete at hdel
  split at hdel
  · cases hdel
  split at hdel
  · cases hdel
  cases hd : s.dir (pdIndex v) with
  | invalid =>
    rw [hd] at hdel
    cases hdel
    exact h
  | superpage e =>
    simp only [hd] at hdel
    split at hdel
    · cases hdel
    cases hdel
    by_cases hi : pdIndex virt = pdIndex v
    · rw [← hi] at hd ⊢
      simp only [vLookup, hd, setDir_dir_self] at h ⊢
      cases hdown : downgrade e a with
      | none => exact .inl h.2
      | some e' => exact ⟨downgrade_frame hdown ▸ h.1, h.2⟩
    · simpa only [vLookup, setDir_dir_of_ne hi] using h
  | ptab entries =>
    simp only [hd] at hdel
    split at hdel
    · cases hdel
    cases he : entries (ptIndex v) with
    | none =>
      rw [he] at hdel
      cases hdel
      exact h
    | some e =>
      rw [he] at hdel
      cases hdel
      by_cases hi : pdIndex virt = pdIndex v
      · rw [← hi] at hd ⊢
        simp only [vLookup, hd, setDir_dir_self] at h ⊢
        by_cases hj : ptIndex virt = ptIndex v
        · rw [← hj] at he ⊢
          simp only [he, Function.update_self] at h ⊢
          cases hdown : downgrade e a with
          | none => exact .inl h.2
          | some e' => exact ⟨downgrade_frame hdown ▸ h.1, h.2⟩
        · simpa only [Function.update_of_ne hj] using h
      · simpa only [vLookup, setDir_dir_of_ne hi] using h

end MemSpace

end L4env.Fiasco
