import L4env.Bootstrap.Region
import L4env.Util.Returns
import L4env.Util.Scatter
import L4env.Util.Word

/-!
# Moving the boot modules

The bootstrapper moves the boot modules to another address (`move_modules` in
`bootstrap/server/src/startup.cc`). Modules are moved one after the other, the last one first if they move
upwards.

Addresses are 32-bit words. There is no result if the loop takes more than `fuel` rounds.
-/

namespace L4env.Bootstrap

/-- The addresses of a boot module: `mod_start` and `mod_end`. -/
structure BootModule where
  modStart : Nat
  modEnd : Nat
  deriving DecidableEq

/-- The memory and the module descriptors. -/
structure BootMods where
  memory : Nat → BitVec 8
  modsCount : Nat
  mods : Nat → BootModule

/-- How `move_modules` ends. -/
inductive Moved where
  | panic
  | ok (b : BootMods)

def BootModule.shift (m : BootModule) (offset : Nat) : BootModule where
  modStart := Word.add m.modStart offset
  modEnd := Word.add m.modEnd offset

namespace BootMods

/-- The word is a positive `long`. -/
def IsPositive (offset : Nat) : Prop := 0 < offset ∧ offset < 2147483648

instance : DecidablePred IsPositive := fun _ => inferInstanceAs (Decidable (_ ∧ _))

/-- The place of a module after the move, with the byte behind it. -/
def targetRegion (m : BootModule) (offset : Nat) : Region :=
  .mk' (Word.add m.modStart offset) (Word.add m.modEnd offset)

/-- A round of the loop for the module `k`. There is no result where the bootstrapper panics. -/
def moveModule (regions : List Region) (offset : Nat) (b : BootMods) (k : Nat) : Option BootMods :=
  let m := b.mods k
  if m.modStart = m.modEnd then some b
  else if (findRegion regions (targetRegion m offset)).isSome then none
  else some { b with
    memory := copyBytes b.memory (Word.add m.modStart offset) m.modStart (m.modEnd - m.modStart)
    mods := Function.update b.mods k (m.shift offset) }

/-- The loop of `move_modules` from `i` on. -/
def moveLoop (regions : List Region) (offset stop : Nat) : Nat → BootMods → Nat → Option Moved
  | 0, _, _ => none
  | fuel + 1, b, i =>
    if i = stop then some (.ok b)
    else
      match b.moveModule regions offset (i - 1) with
      | none => some .panic
      | some b => moveLoop regions offset stop fuel b (if IsPositive offset then i - 1 else i + 1)

def moveModules (regions : List Region) (modaddr fuel : Nat) (b : BootMods) : Option Moved :=
  let offset := Word.sub modaddr (b.mods 0).modStart
  let dir := if IsPositive offset then b.modsCount else 1
  if offset = 0 then some (.ok b)
  else moveLoop regions offset (b.modsCount - dir) fuel b dir

/-! ## What the move is for -/

/-- The modules are at ascending, disjoint addresses; some may be empty. -/
structure Ascending (b : BootMods) : Prop where
  two_le : 2 ≤ b.modsCount
  start_le : ∀ k < b.modsCount, (b.mods k).modStart ≤ (b.mods k).modEnd
  disjoint : ∀ j k, j < k → k < b.modsCount → (b.mods j).modEnd ≤ (b.mods k).modStart
  bound : ∀ k < b.modsCount, (b.mods k).modEnd < 4294967296

/-- The modules do not go beyond the end of the address space at their new place. -/
def Fits (b : BootMods) (modaddr : Nat) : Prop :=
  modaddr < 4294967296 ∧
    ∀ k < b.modsCount, modaddr + ((b.mods k).modEnd - (b.mods 0).modStart) ≤ 4294967296

/-- All modules are moved by the offset, with their contents. -/
structure MovedBy (b b' : BootMods) (offset : Nat) : Prop where
  mods : ∀ k < b.modsCount, b'.mods k = (b.mods k).shift offset
  memory : ∀ k < b.modsCount, ∀ x < (b.mods k).modEnd - (b.mods k).modStart,
    b'.memory (Word.add (b.mods k).modStart offset + x) = b.memory ((b.mods k).modStart + x)

variable {b b' : BootMods} {regions : List Region} {offset modaddr i j k n x y : Nat} {r : Moved}

/-- The address of the byte `x` of the module `k` at its new place. -/
def targetByte (b : BootMods) (offset k x : Nat) : Nat := Word.add (b.mods k).modStart offset + x

/-- No module is moved onto a module below it that is still to be moved, or onto another one that was
moved. -/
theorem Ascending.target_ne (A : b.Ascending) (F : b.Fits modaddr)
    (ho : Word.sub modaddr (b.mods 0).modStart = offset) (hpos : IsPositive offset) (hjk : j < k)
    (hk : k < b.modsCount) (hx : x < (b.mods j).modEnd - (b.mods j).modStart)
    (hy : y < (b.mods k).modEnd - (b.mods k).modStart) :
    targetByte b offset k y ≠ (b.mods j).modStart + x ∧
      targetByte b offset k y ≠ targetByte b offset j x := by
  have h0 := A.start_le 0 (by omega)
  have hj := A.start_le j (by omega)
  have hk' := A.start_le k hk
  have hd := A.disjoint j k hjk hk
  have hb := A.bound k hk
  have hfit := F.2 k hk
  have hm := F.1
  have h0j : (b.mods 0).modStart ≤ (b.mods j).modStart := by
    obtain rfl | hpos := Nat.eq_zero_or_pos j
    · exact le_rfl
    · exact h0.trans (A.disjoint 0 j hpos (by omega))
  obtain ⟨hpos, hhalf⟩ := hpos
  rw [targetByte, targetByte, Word.add_mod, Word.add_mod]
  have ho' : (modaddr + (4294967296 - (b.mods 0).modStart)) % 4294967296 = offset := by
    rw [← ho, Word.sub]
    omega
  omega

/-! ## Upwards -/

/-- The modules below `i` are still at their place. -/
structure Waiting (b₀ b : BootMods) (i : Nat) : Prop where
  mods : ∀ k < i, b.mods k = b₀.mods k
  memory : ∀ k < i, ∀ x < (b₀.mods k).modEnd - (b₀.mods k).modStart,
    b.memory ((b₀.mods k).modStart + x) = b₀.memory ((b₀.mods k).modStart + x)

/-- The modules below `i` were moved, but for the empty ones. -/
structure MovedBelow (regions : List Region) (b₀ b b' : BootMods) (offset i : Nat) : Prop where
  above : ∀ k, i ≤ k → b'.mods k = b.mods k
  empty : ∀ k < i, (b₀.mods k).modStart = (b₀.mods k).modEnd → b'.mods k = b₀.mods k
  moved : ∀ k < i, (b₀.mods k).modStart ≠ (b₀.mods k).modEnd →
    findRegion regions (targetRegion (b₀.mods k) offset) = none ∧ b'.mods k = (b₀.mods k).shift offset
  memory : ∀ k < i, ∀ x < (b₀.mods k).modEnd - (b₀.mods k).modStart,
    b'.memory (targetByte b₀ offset k x) = b₀.memory ((b₀.mods k).modStart + x)
  frame : ∀ a, (∀ k < i, ∀ x < (b₀.mods k).modEnd - (b₀.mods k).modStart, a ≠ targetByte b₀ offset k x) →
    b'.memory a = b.memory a

/-- The module `i` is moved to its place, and the ones below it still wait. -/
theorem Waiting.move {b₀ : BootMods} (W : Waiting b₀ b (i + 1)) (A : b₀.Ascending) (F : b₀.Fits modaddr)
    (ho : Word.sub modaddr (b₀.mods 0).modStart = offset) (hpos : IsPositive offset)
    (hi : i + 1 ≤ b₀.modsCount) :
    Waiting b₀ { b with
      memory := copyBytes b.memory (Word.add (b₀.mods i).modStart offset) (b₀.mods i).modStart
        ((b₀.mods i).modEnd - (b₀.mods i).modStart)
      mods := Function.update b.mods i ((b₀.mods i).shift offset) } i := by
  refine ⟨fun k hk => ?_, fun k hk x hx => ?_⟩
  · rw [← W.mods k (by omega)]
    exact Function.update_of_ne (by omega) _ _
  · rw [← W.memory k (by omega) x hx]
    refine if_neg fun hrange => ?_
    -- the byte would be at the new place of the module `i`
    have hne := (A.target_ne F ho hpos hk hi hx (y := (b₀.mods k).modStart + x -
      Word.add (b₀.mods i).modStart offset) (by omega)).1
    rw [targetByte] at hne
    omega

theorem MovedBelow.skip {b₀ : BootMods} (M : MovedBelow regions b₀ b b' offset i)
    (hm : b.mods i = b₀.mods i) (hempty : (b₀.mods i).modStart = (b₀.mods i).modEnd) :
    MovedBelow regions b₀ b b' offset (i + 1) := by
  refine ⟨fun k hk => M.above k (by omega), fun k hk he => ?_, fun k hk hne => ?_, fun k hk x hx => ?_,
    fun a ha => M.frame a fun k hk => ha k (Nat.lt_succ_of_lt hk)⟩
  · obtain hk | rfl := Nat.lt_succ_iff_lt_or_eq.mp hk
    · exact M.empty k hk he
    · exact (M.above k le_rfl).trans hm
  · obtain hk | rfl := Nat.lt_succ_iff_lt_or_eq.mp hk
    · exact M.moved k hk hne
    · exact absurd hempty hne
  · obtain hk | rfl := Nat.lt_succ_iff_lt_or_eq.mp hk
    · exact M.memory k hk x hx
    · omega

theorem MovedBelow.step {b₀ : BootMods} (M : MovedBelow regions b₀
      { b with
        memory := copyBytes b.memory (Word.add (b₀.mods i).modStart offset) (b₀.mods i).modStart
          ((b₀.mods i).modEnd - (b₀.mods i).modStart)
        mods := Function.update b.mods i ((b₀.mods i).shift offset) } b' offset i)
    (W : Waiting b₀ b (i + 1)) (A : b₀.Ascending) (F : b₀.Fits modaddr)
    (ho : Word.sub modaddr (b₀.mods 0).modStart = offset) (hpos : IsPositive offset)
    (hi : i + 1 ≤ b₀.modsCount) (hempty : (b₀.mods i).modStart ≠ (b₀.mods i).modEnd)
    (hfind : findRegion regions (targetRegion (b₀.mods i) offset) = none) :
    MovedBelow regions b₀ b b' offset (i + 1) := by
  refine ⟨fun k hk => ?_, fun k hk he => ?_, fun k hk hne => ?_, fun k hk x hx => ?_, fun a ha => ?_⟩
  · rw [M.above k (by omega)]
    exact Function.update_of_ne (by omega) _ _
  · obtain hk | rfl := Nat.lt_succ_iff_lt_or_eq.mp hk
    · exact M.empty k hk he
    · exact absurd he hempty
  · obtain hk | rfl := Nat.lt_succ_iff_lt_or_eq.mp hk
    · exact M.moved k hk hne
    · exact ⟨hfind, (M.above k le_rfl).trans (Function.update_self ..)⟩
  · obtain hk | rfl := Nat.lt_succ_iff_lt_or_eq.mp hk
    · exact M.memory k hk x hx
    · rw [M.frame _ fun j hj y hy => (A.target_ne F ho hpos hj hi hy hx).2, ← W.memory k hk x hx]
      simp [copyBytes, targetByte, hx]
  · rw [M.frame a fun k hk => ha k (Nat.lt_succ_of_lt hk)]
    refine if_neg fun hrange => ha i (Nat.lt_succ_self i) (a - Word.add (b₀.mods i).modStart offset)
      (by omega) ?_
    rw [targetByte]
    omega

/-- The loop upwards, which goes down from the module below `i`. -/
theorem moveLoop_up (regions : List Region) {b₀ : BootMods} (A : b₀.Ascending) (F : b₀.Fits modaddr)
    (ho : Word.sub modaddr (b₀.mods 0).modStart = offset) (hpos : IsPositive offset)
    (hi : i ≤ b₀.modsCount) (W : Waiting b₀ b i) :
    ∃ r, Returns (fun n => moveLoop regions offset 0 n b i) r ∧
      (r = .panic → ∃ k < i, (b₀.mods k).modStart ≠ (b₀.mods k).modEnd ∧
        findRegion regions (targetRegion (b₀.mods k) offset) ≠ none) ∧
      ∀ b', r = .ok b' → MovedBelow regions b₀ b b' offset i := by
  induction i generalizing b with
  | zero =>
    refine ⟨.ok b, (Returns.const _).round fun _ => rfl, nofun, fun b' h => ?_⟩
    cases h
    exact ⟨fun _ _ => rfl, nofun, nofun, nofun, fun _ _ => rfl⟩
  | succ i ih =>
    have hm : b.mods i = b₀.mods i := W.mods i (Nat.lt_succ_self i)
    have hround : ∀ fuel, moveLoop regions offset 0 (fuel + 1) b (i + 1) =
        match b.moveModule regions offset i with
        | none => some .panic
        | some b => moveLoop regions offset 0 fuel b i := by
      intro fuel
      rw [moveLoop, if_neg (Nat.succ_ne_zero i), if_pos hpos]
      rfl
    by_cases hempty : (b₀.mods i).modStart = (b₀.mods i).modEnd
    · obtain ⟨r, hloop, hpanic, hok⟩ := ih (Nat.le_of_succ_le hi)
        ⟨fun k hk => W.mods k (Nat.lt_succ_of_lt hk), fun k hk => W.memory k (Nat.lt_succ_of_lt hk)⟩
      refine ⟨r, hloop.round fun fuel => ?_, fun h => ?_, fun b' h => (hok b' h).skip hm hempty⟩
      · rw [hround, moveModule, hm, if_pos hempty]
      · obtain ⟨k, hk, hfind⟩ := hpanic h
        exact ⟨k, Nat.lt_succ_of_lt hk, hfind⟩
    · cases hfind : findRegion regions (targetRegion (b₀.mods i) offset) with
      | some o =>
        refine ⟨.panic, (Returns.const _).round fun fuel => ?_, fun _ => ?_, nofun⟩
        · rw [hround, moveModule, hm, if_neg hempty, hfind]
          rfl
        · exact ⟨i, Nat.lt_succ_self i, hempty, by rw [hfind]; exact nofun⟩
      | none =>
        obtain ⟨r, hloop, hpanic, hok⟩ := ih (Nat.le_of_succ_le hi) (W.move A F ho hpos hi)
        refine ⟨r, hloop.round fun fuel => ?_, fun h => ?_, fun b' h =>
          (hok b' h).step W A F ho hpos hi hempty hfind⟩
        · rw [hround, moveModule, hm, if_neg hempty, hfind]
          rfl
        · obtain ⟨k, hk, hfind⟩ := hpanic h
          exact ⟨k, Nat.lt_succ_of_lt hk, hfind⟩

/-! ## Downwards -/

/-- The loop downwards leaves the last module, where it stops one too early. -/
theorem moveLoop_last {fuel : Nat} (hneg : ¬ IsPositive offset) (h1 : 1 ≤ i) (hi : i ≤ n)
    (hrun : moveLoop regions offset n fuel b i = some (.ok b')) : b'.mods n = b.mods n := by
  induction fuel generalizing b i with
  | zero => cases hrun
  | succ fuel ih =>
    rw [moveLoop] at hrun
    split at hrun
    · cases hrun
      rfl
    · rename_i hne
      split at hrun
      · cases hrun
      · rename_i b₁ hmove
        rw [ih (by omega) (by omega) hrun]
        simp only [moveModule] at hmove
        split at hmove
        · cases hmove
          rfl
        · split at hmove
          · cases hmove
          · cases hmove
            exact Function.update_of_ne (by omega) _ _

/-! ## The move -/

/-- The move ends, and all modules are moved with their contents. -/
def Moves (regions : List Region) (modaddr : Nat) (b : BootMods) : Prop :=
  ∃ b', Returns (fun n => moveModules regions modaddr n b) (.ok b') ∧
    MovedBy b b' (Word.sub modaddr (b.mods 0).modStart)

theorem shift_ne (A : b.Ascending) (hk : k < b.modsCount) (hoff : offset < 4294967296) (hne : offset ≠ 0) :
    (b.mods k).shift offset ≠ b.mods k := by
  intro h
  have hle := A.start_le k hk
  have hb := A.bound k hk
  have hs : Word.add (b.mods k).modStart offset = (b.mods k).modStart := congrArg BootModule.modStart h
  rw [Word.add_mod] at hs
  omega

/-- Downwards the last module stays where it is. -/
theorem not_moves_of_down (A : b.Ascending) (hne : Word.sub modaddr (b.mods 0).modStart ≠ 0)
    (hneg : ¬ IsPositive (Word.sub modaddr (b.mods 0).modStart)) : ¬ Moves regions modaddr b := by
  rintro ⟨b', ⟨N, hret⟩, M⟩
  have h2 := A.two_le
  have hloop := hret N le_rfl
  simp only [moveModules, if_neg hne, if_neg hneg] at hloop
  have hm := M.mods (b.modsCount - 1) (by omega)
  rw [moveLoop_last hneg le_rfl (by omega) hloop] at hm
  exact shift_ne A (by omega) (Word.sub_lt ..) hne hm.symm

/-- Modules are moved as they should be exactly if they are in place already, or if they move upwards, none
is empty, and no known region overlaps the new place of a module or the byte behind it. -/
theorem moves_iff (A : b.Ascending) (F : b.Fits modaddr) : Moves regions modaddr b ↔
    Word.sub modaddr (b.mods 0).modStart = 0 ∨
      IsPositive (Word.sub modaddr (b.mods 0).modStart) ∧
        ∀ k < b.modsCount, (b.mods k).modStart ≠ (b.mods k).modEnd ∧
          findRegion regions (targetRegion (b.mods k) (Word.sub modaddr (b.mods 0).modStart)) = none := by
  have hlt := Word.sub_lt modaddr (b.mods 0).modStart
  have h2 := A.two_le
  generalize ho : Word.sub modaddr (b.mods 0).modStart = offset at hlt ⊢
  have hrun : ∀ n, offset ≠ 0 → moveModules regions modaddr n b =
      moveLoop regions offset (b.modsCount - if IsPositive offset then b.modsCount else 1) n b
        (if IsPositive offset then b.modsCount else 1) := by
    intro n hne
    simp only [moveModules, ho, if_neg hne]
  by_cases hzero : offset = 0
  · subst hzero
    have hadd : ∀ a < 4294967296, Word.add a 0 = a := fun a ha => Word.add_eq ha
    refine iff_of_true ⟨b, ⟨0, fun n _ => ?_⟩, fun k hk => ?_, fun k hk x hx => ?_⟩ (.inl rfl)
    · simp only [moveModules, ho, if_true]
    · have hle := A.start_le k hk
      have hb := A.bound k hk
      rw [ho, BootModule.shift, hadd _ (by omega), hadd _ hb]
    · have hb := A.bound k hk
      rw [ho, hadd _ (by omega)]
  · by_cases hpos : IsPositive offset
    · obtain ⟨r, hloop, hpanic, hok⟩ := moveLoop_up regions A F ho hpos le_rfl
        ⟨fun _ _ => rfl, fun _ _ _ _ => rfl⟩
      have hret : Returns (fun n => moveModules regions modaddr n b) r := by
        refine hloop.congr fun n => ?_
        rw [hrun n hzero, if_pos hpos, Nat.sub_self]
      constructor
      · rintro ⟨b', hret', M⟩
        obtain rfl := hret.unique hret'
        have hmoved := hok b' rfl
        refine .inr ⟨hpos, fun k hk => ?_⟩
        have hne : (b.mods k).modStart ≠ (b.mods k).modEnd := by
          intro he
          have hm := M.mods k hk
          rw [ho, hmoved.empty k hk he] at hm
          exact shift_ne A hk hlt hzero hm.symm
        exact ⟨hne, (hmoved.moved k hk hne).1⟩
      · rintro (h | ⟨-, hall⟩)
        · exact absurd h hzero
        · cases r with
          | panic =>
            obtain ⟨k, hk, -, hfind⟩ := hpanic rfl
            exact absurd (hall k hk).2 hfind
          | ok b' =>
            have hmoved := hok b' rfl
            refine ⟨b', hret, fun k hk => ?_, fun k hk x hx => ?_⟩
            · rw [ho]
              exact (hmoved.moved k hk (hall k hk).1).2
            · rw [ho]
              exact hmoved.memory k hk x hx
    · refine iff_of_false (not_moves_of_down A (ho ▸ hzero) (ho ▸ hpos)) ?_
      rintro (h | ⟨h, -⟩)
      · exact hzero h
      · exact hpos h

/-- Two modules of a page each. -/
def twoModules : BootMods where
  memory a := BitVec.ofNat 8 a
  modsCount := 2
  mods k := if k = 0 then { modStart := 0x400000, modEnd := 0x401000 }
    else { modStart := 0x401000, modEnd := 0x402000 }

theorem twoModules_ascending : twoModules.Ascending := by
  refine ⟨le_rfl, by decide, fun j k hjk hk => ?_, by decide⟩
  have hk : k < 2 := hk
  obtain ⟨rfl, rfl⟩ : j = 0 ∧ k = 1 := by omega
  decide

theorem moves_iff_twoModules : Moves [] 0x800000 twoModules ↔
    Word.sub 0x800000 0x400000 = 0 ∨ IsPositive (Word.sub 0x800000 0x400000) ∧
      ∀ k < 2, (twoModules.mods k).modStart ≠ (twoModules.mods k).modEnd ∧
        findRegion [] (targetRegion (twoModules.mods k) (Word.sub 0x800000 0x400000)) = none :=
  moves_iff twoModules_ascending ⟨by decide, by decide⟩

/-- Downwards none of two modules is moved. -/
theorem not_moves_down : ¬ ∀ (b : BootMods) (regions : List Region) (modaddr : Nat), b.Ascending →
    b.Fits modaddr → (∀ c ∈ regions, ∀ k < b.modsCount, ∀ x < (b.mods k).modEnd - (b.mods k).modStart,
      ¬ (c.beginAddr ≤ modaddr + ((b.mods k).modStart - (b.mods 0).modStart) + x ∧
        modaddr + ((b.mods k).modStart - (b.mods 0).modStart) + x ≤ c.endAddr)) →
    Moves regions modaddr b := by
  intro H
  have hoff : Word.sub 0x200000 0x400000 = 0xffe00000 := by decide +kernel
  refine not_moves_of_down twoModules_ascending ?_ ?_
    (H twoModules [] 0x200000 twoModules_ascending ⟨by decide, by decide⟩ nofun)
  · exact hoff ▸ by decide
  · exact hoff ▸ by decide

end BootMods

end L4env.Bootstrap
