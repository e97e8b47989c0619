import L4env.Bootstrap.PatchOption

/-!
# Patching of boot modules: when a patch is exact

The space in the last page of a module is counted from the next page boundary, less one. So a text that just
fills the page is refused, and a module that ends at a page boundary can grow into the next module.
-/

namespace L4env.Bootstrap

variable {b : BootMods} {cmdlines : Nat → List (BitVec 8)} {name rest R : List (BitVec 8)} {ps : List Assignment}
  {i j k n e beg L : Nat} {r r' : Replacing} {ok : Bool} {x : Nat × Nat} {steps : List (Nat × Nat)}

/-! ## The space -/

/-- The end of the last page of a module that ends at `e`. -/
def pageEnd (e : Nat) : Nat := (e + 4095) / 4096 * 4096

/-- After each replacement the module ends below `L`. -/
def Fits (L beg : Nat) (steps : List (Nat × Nat)) : Prop := ∀ x ∈ steps, beg + x.2 ≤ L

/-- The replacements that pass the test of the code stay below `L`. -/
def Bounded (L beg : Nat) (steps : List (Nat × Nat)) : Prop :=
  ∀ x ∈ steps.takeWhile (fun x => SpaceOk L beg x), beg + x.1 ≤ L ∧ beg + x.2 ≤ L

/-- The test of the code is the right one: a module that ends at `L` shrinks before it grows, and none grows up
to `L`. -/
structure SpaceExact (L beg n : Nat) (steps : List (Nat × Nat)) : Prop where
  full : beg + n = L → ∀ x, steps.find? (fun x => x.1 ≠ x.2) = some x → x.2 < x.1
  filled : Fits L beg steps → ∀ x ∈ steps, x.1 < x.2 → beg + x.2 ≠ L

theorem room_pageEnd (he : e < 2 ^ 32) :
    Word.sub (Word.sub (roundPage e) e) 1 = room (pageEnd e) e ∧ e ≤ pageEnd e ∧ pageEnd e ≤ 2 ^ 32 := by
  have hround := Word.roundUp_two_pow he (k := 12) (by decide)
  have hpage : roundPage e = (e + 4095) / 4096 * 4096 % 4294967296 := hround
  rw [hpage]
  simp only [room, pageEnd, Word.sub]
  omega

theorem room_below (he : e < L) (hL : L ≤ 2 ^ 32) : room L e = L - e - 1 := by
  simp only [room, Word.sub]
  omega

theorem room_end (L : Nat) : room L L = 2 ^ 32 - 1 := by
  simp only [room, Word.sub]
  omega

theorem spaceOk_below (h : beg + x.1 < L) (hL : L ≤ 2 ^ 32) : SpaceOk L beg x ↔ beg + x.2 < L := by
  rw [SpaceOk, room_below h hL]
  omega

/-- Below the end of the page the code replaces as long as the module stays below it. -/
theorem spaceOk_all (hL : L ≤ 2 ^ 32) (hc : Chained n steps) (h : beg + n < L) :
    (∀ x ∈ steps, SpaceOk L beg x) ↔ ∀ x ∈ steps, beg + x.2 < L := by
  induction steps generalizing n with
  | nil => simp
  | cons x steps ih =>
    obtain ⟨rfl, hc⟩ := hc
    rw [List.forall_mem_cons, List.forall_mem_cons, spaceOk_below h hL]
    exact and_congr_right fun hx => ih hc hx

theorem bounded_below (hL : L ≤ 2 ^ 32) (hc : Chained n steps) (h : beg + n < L) : Bounded L beg steps := by
  induction steps generalizing n with
  | nil => nofun
  | cons x steps ih =>
    obtain ⟨rfl, hc⟩ := hc
    by_cases hx : SpaceOk L beg x
    · have hlt := (spaceOk_below h hL).mp hx
      rw [Bounded, List.takeWhile_cons_of_pos (by simpa using hx), List.forall_mem_cons]
      exact ⟨⟨by omega, by omega⟩, ih hc hlt⟩
    · rw [Bounded, List.takeWhile_cons_of_neg (by simpa using hx)]
      nofun

/-- A module that does not grow up to the end of the page stays below it. -/
theorem fits_below (hc : Chained n steps) (h : beg + n < L) (hfits : Fits L beg steps)
    (hfilled : ∀ x ∈ steps, x.1 < x.2 → beg + x.2 ≠ L) : ∀ x ∈ steps, beg + x.2 < L := by
  induction steps generalizing n with
  | nil => nofun
  | cons x steps ih =>
    obtain ⟨rfl, hc⟩ := hc
    obtain ⟨hx, hfits⟩ := List.forall_mem_cons.mp hfits
    obtain ⟨hne, hfilled⟩ := List.forall_mem_cons.mp hfilled
    have hlt : beg + x.2 < L := by
      by_cases hgrow : x.1 < x.2
      · have := hne hgrow
        omega
      · omega
    exact List.forall_mem_cons.mpr ⟨hlt, ih hc hlt hfits hfilled⟩

theorem spaceExact_below (hL : L ≤ 2 ^ 32) (hc : Chained n steps) (h : beg + n < L) :
    ((∀ x ∈ steps, SpaceOk L beg x) ↔ Fits L beg steps) ∧ Bounded L beg steps ↔ SpaceExact L beg n steps := by
  rw [spaceOk_all hL hc h]
  constructor
  · rintro ⟨hiff, -⟩
    exact ⟨fun he => by omega, fun hfits x hx _ => (hiff.mpr hfits x hx).ne⟩
  · intro hexact
    refine ⟨⟨fun hall x hx => (hall x hx).le, fun hfits => ?_⟩, bounded_below hL hc h⟩
    exact fits_below hc h hfits (hexact.filled hfits)

/-- At the end of the page the code allows any growth. -/
theorem spaceOk_end (h : beg + x.1 = L) (hx : x.2 - x.1 < 2 ^ 32) : SpaceOk L beg x := by
  rw [SpaceOk, h, room_end]
  omega

theorem spaceExact_iff (hL : L ≤ 2 ^ 32) (hc : Chained n steps) (h : beg + n ≤ L)
    (hgrow : ∀ x ∈ steps, x.2 - x.1 < 2 ^ 32) :
    ((∀ x ∈ steps, SpaceOk L beg x) ↔ Fits L beg steps) ∧ Bounded L beg steps ↔ SpaceExact L beg n steps := by
  induction steps generalizing n with
  | nil => exact ⟨fun _ => ⟨nofun, nofun⟩, fun _ => ⟨by simp [Fits], nofun⟩⟩
  | cons x steps ih =>
    obtain hlt | heq := h.lt_or_eq
    · exact spaceExact_below hL hc hlt
    obtain ⟨rfl, hc⟩ := hc
    obtain ⟨hx, hgrow⟩ := List.forall_mem_cons.mp hgrow
    have hok : SpaceOk L beg x := spaceOk_end heq hx
    have hbounded : Bounded L beg (x :: steps) ↔ beg + x.2 ≤ L ∧ Bounded L beg steps := by
      rw [Bounded, List.takeWhile_cons_of_pos (by simpa using hok), List.forall_mem_cons]
      exact and_congr ⟨And.right, fun hle => ⟨heq.le, hle⟩⟩ Iff.rfl
    by_cases hx : x.1 < x.2
    · -- the module grows beyond its page, and nothing stops it
      refine iff_of_false (fun h => ?_) fun h => ?_
      · have := (hbounded.mp h.2).1
        omega
      · have := h.full heq x (List.find?_cons_of_pos (by simpa using hx.ne))
        omega
    · have hle : beg + x.2 ≤ L := by omega
      have hfits : Fits L beg (x :: steps) ↔ Fits L beg steps :=
        List.forall_mem_cons.trans (and_iff_right hle)
      have hall : (∀ y ∈ x :: steps, SpaceOk L beg y) ↔ ∀ y ∈ steps, SpaceOk L beg y :=
        List.forall_mem_cons.trans (and_iff_right hok)
      rw [hfits, hall, hbounded, and_iff_right hle, ih hc hle hgrow]
      constructor
      · refine fun hexact => ⟨fun _ y hy => ?_, fun h => List.forall_mem_cons.mpr ⟨fun h => absurd h hx, ?_⟩⟩
        · by_cases hsame : x.1 = x.2
          · rw [List.find?_cons_of_neg (by simpa using hsame)] at hy
            exact hexact.full (hsame ▸ heq) y hy
          · rw [List.find?_cons_of_pos (by simpa using hsame)] at hy
            obtain rfl := Option.some.inj hy
            omega
        · exact hexact.filled (hfits.mp h)
      · refine fun hexact => ⟨fun hend y hy => hexact.full heq y ?_, fun h => ?_⟩
        · rw [List.find?_cons_of_neg (by simp; omega), hy]
        · exact (List.forall_mem_cons.mp (hexact.filled (hfits.mpr h))).2

/-! ## A patch -/

/-- The text of the module `k`. -/
def BootMods.modText (b : BootMods) (k : Nat) : List (BitVec 8) :=
  readBytes b.memory (b.mods k).modStart ((b.mods k).modEnd - (b.mods k).modStart)

/-- The end of `patch_module` for the module `k` and the pairs: all occurrences are replaced, or there is a
panic as the replacements do not fit below the end of the page. Nothing is written from there on. -/
def Patched.Exact (b : BootMods) (k : Nat) (ps : List Assignment) (rest : List (BitVec 8)) : Patched → Prop
  | .ok j r s =>
    j = k ∧ s = rest ∧ Fits (pageEnd (b.mods k).modEnd) (b.mods k).modStart (sizesPairs (b.modText k) ps) ∧
      (b.patched j r).modText k = replacePairs (b.modText k) ps ∧
      ((b.patched j r).mods k).modEnd = (b.mods k).modStart + (replacePairs (b.modText k) ps).length ∧
      (∀ a, a < (b.mods k).modStart ∨ pageEnd (b.mods k).modEnd ≤ a → (b.patched j r).memory a = b.memory a) ∧
      r.written ≤ pageEnd (b.mods k).modEnd
  | .noSpace j r =>
    j = k ∧ ¬ Fits (pageEnd (b.mods k).modEnd) (b.mods k).modStart (sizesPairs (b.modText k) ps) ∧
      (∀ a, pageEnd (b.mods k).modEnd ≤ a → r.memory a = b.memory a) ∧ r.written ≤ pageEnd (b.mods k).modEnd
  | _ => False

/-- What the loop over the variables is exact for. -/
theorem Looped.exact_iff (hloop : Looped { memory := b.memory, modEnd := (b.mods k).modEnd, maxPatchSize := n, written := 0 }
      r (pageEnd (b.mods k).modEnd) (b.mods k).modStart (b.mods k).modStart
      (replacePairs (b.modText k) ps) (sizesPairs (b.modText k) ps) ok) :
    (if ok then Patched.ok k r rest else .noSpace k r).Exact b k ps rest ↔
      ((∀ x ∈ sizesPairs (b.modText k) ps, SpaceOk (pageEnd (b.mods k).modEnd) (b.mods k).modStart x) ↔
        Fits (pageEnd (b.mods k).modEnd) (b.mods k).modStart (sizesPairs (b.modText k) ps)) ∧
      Bounded (pageEnd (b.mods k).modEnd) (b.mods k).modStart (sizesPairs (b.modText k) ps) := by
  have hwritten := (hloop.written (pageEnd (b.mods k).modEnd)).trans (and_iff_right (Nat.zero_le _))
  have hframe : r.written ≤ pageEnd (b.mods k).modEnd → ∀ a, a < (b.mods k).modStart ∨
      pageEnd (b.mods k).modEnd ≤ a → r.memory a = b.memory a :=
    fun h a ha => hloop.frame a (by omega)
  rw [← hloop.enough, Bounded, ← hwritten]
  cases ok with
  | false =>
    simp only [Bool.false_eq_true, if_false, Patched.Exact, false_iff, true_and]
    exact ⟨fun h => ⟨h.1, h.2.2⟩, fun h => ⟨h.1, fun a ha => hframe h.2 a (.inr ha), h.2⟩⟩
  | true =>
    obtain ⟨htext, hend, -⟩ := hloop.text rfl
    have hafter : (b.patched k r).modText k = replacePairs (b.modText k) ps := by
      have hsize : r.modEnd - (b.mods k).modStart = (replacePairs (b.modText k) ps).length := by omega
      simpa [BootMods.modText, BootMods.patched, hsize, Holds] using htext
    simp only [if_true, Patched.Exact, true_iff, true_and]
    refine ⟨fun h => ⟨h.1, h.2.2.2.2⟩, fun h => ⟨h.1, hafter, ?_, hframe h.2, h.2⟩⟩
    simpa [BootMods.patched] using hend

/-! ## The option -/

/-- `-patch=<name>,<variable>=<value>...` with what is behind it on the command line. -/
def patchOption (name : List (BitVec 8)) (ps : List Assignment) (rest : List (BitVec 8)) : List (BitVec 8) :=
  str "-patch=" ++ name ++ pairsText ps ++ rest

/-- No name has a comma, a tab, a blank, `=` or `*`. There are pairs, and white space behind the last one. -/
structure OptionWellFormed (name : List (BitVec 8)) (ps : List Assignment) (rest : List (BitVec 8)) : Prop where
  name : name ≠ [] ∧ ∀ c ∈ name, c ≠ 0x2c ∧ c ≠ 0x09 ∧ c ≠ 0x20 ∧ c ≠ 0x3d ∧ c ≠ 0x2a
  pairs : ps ≠ [] ∧ ∀ p ∈ ps, p.WellFormed
  rest : ∀ c ∈ rest.head?, isSpace c = true

/-- The search is for the name without its first character. -/
theorem patchModule_eq (h : OptionWellFormed name ps rest) (fuel : Nat) :
    patchModule cmdlines fuel b (patchOption name ps rest) =
      match searchModule cmdlines b.modsCount name.tail ((name.tail ++ [0x2c]).headD 0) with
      | none => some .panic
      | some k => patchLoop k (b.mods k).modStart fuel
          { memory := b.memory
            modEnd := (b.mods k).modEnd
            maxPatchSize := Word.sub (Word.sub (roundPage (b.mods k).modEnd) (b.mods k).modEnd) 1
            written := 0 }
          (pairsText ps ++ rest) := by
  obtain ⟨a, name, rfl⟩ := List.exists_cons_of_ne_nil h.name.1
  obtain ⟨p, ps, rfl⟩ := List.exists_cons_of_ne_nil h.pairs.1
  have hchars : ∀ c ∈ name, c ≠ 0x2c ∧ c ≠ 0x09 ∧ c ≠ 0x20 ∧ c ≠ 0x3d ∧ c ≠ 0x2a :=
    fun c hc => h.name.2 c (List.mem_cons_of_mem a hc)
  obtain ⟨behind, hbehind⟩ : ∃ l, pairsText (p :: ps) ++ rest = 0x2c :: l :=
    ⟨_, by rw [pairsText, List.flatMap_cons, Assignment.text]; rfl⟩
  have hoption : patchOption (a :: name) (p :: ps) rest = (str "-patch=" ++ [a]) ++ (name ++ 0x2c :: behind) := by
    rw [patchOption, List.append_assoc, hbehind, List.append_assoc, List.append_assoc]
    rfl
  have hlen : (str "-patch=" ++ [a]).length = 8 := rfl
  have hname : badName name = false := by
    rw [badName, List.any_eq_false]
    intro c hc
    obtain ⟨-, h1, h2, h3, h4⟩ := hchars c hc
    simp only [decide_eq_false h1, decide_eq_false h2, decide_eq_false h3, decide_eq_false h4]
    exact Bool.false_ne_true
  have hdrop : (patchOption (a :: name) (p :: ps) rest).drop 8 = name ++ 0x2c :: behind := by
    rw [hoption, List.drop_left' hlen]
  have hs : strchr ((patchOption (a :: name) (p :: ps) rest).drop 8) 0x2c = some (name, 0x2c :: behind) := by
    rw [hdrop, strchr, search_char fun hc => (hchars _ hc).1 rfl]
  have hfirst : (name ++ 0x2c :: behind).headD 0 = (name ++ [0x2c]).headD 0 := by cases name <;> rfl
  rw [patchModule_search (by rw [hoption, List.length_append, hlen]; omega) hs hname, hdrop, hfirst, hbehind]
  rfl

/-- `patch_module` once a module is found. -/
theorem patchModule_spec (hopt : OptionWellFormed name ps rest) (hs : Named cmdlines b.modsCount (soughtName name) j)
    (hmod : (b.mods j).modStart ≤ (b.mods j).modEnd) (hend : (b.mods j).modEnd < 2 ^ 32) :
    ∃ ok r, Returns (fun fuel => patchModule cmdlines fuel b (patchOption name ps rest))
        (if ok then .ok j r rest else .noSpace j r) ∧
      Looped { memory := b.memory, modEnd := (b.mods j).modEnd
               maxPatchSize := room (pageEnd (b.mods j).modEnd) (b.mods j).modEnd, written := 0 }
        r (pageEnd (b.mods j).modEnd) (b.mods j).modStart (b.mods j).modStart
        (replacePairs (b.modText j) ps) (sizesPairs (b.modText j) ps) ok := by
  have hlen : (b.modText j).length = (b.mods j).modEnd - (b.mods j).modStart := readBytes_length
  obtain ⟨ok, r, hret, hloop⟩ := patchLoop_spec (k := j) (L := pageEnd (b.mods j).modEnd)
    (r := { memory := b.memory, modEnd := (b.mods j).modEnd
            maxPatchSize := room (pageEnd (b.mods j).modEnd) (b.mods j).modEnd, written := 0 })
    (R := b.modText j) hopt.pairs.2 hopt.rest (by rw [Holds, hlen]; rfl) (by dsimp only; omega) rfl
  refine ⟨ok, r, hret.congr fun fuel => ?_, hloop⟩
  rw [patchModule_eq hopt, searchModule_iff.mpr hs]
  dsimp only
  rw [(room_pageEnd hend).1]

/-- A patch is exact if the name that the code looks for leads to the same module, and the space is counted
right. -/
theorem BootMods.patches_iff (hopt : OptionWellFormed name ps rest) (hnamed : Named cmdlines b.modsCount name k)
    (hmods : ∀ i < b.modsCount, (b.mods i).modStart ≤ (b.mods i).modEnd ∧ (b.mods i).modEnd < 2 ^ 32) :
    (∃ o, Returns (fun fuel => patchModule cmdlines fuel b (patchOption name ps rest)) o ∧ o.Exact b k ps rest) ↔
      (soughtName name <:+: moduleName (cmdlines k) ∧ ∀ i < k, ¬ soughtName name <:+: moduleName (cmdlines i)) ∧
        SpaceExact (pageEnd (b.mods k).modEnd) (b.mods k).modStart
          ((b.mods k).modEnd - (b.mods k).modStart) (sizesPairs (b.modText k) ps) := by
  cases hs : searchModule cmdlines b.modsCount name.tail ((name.tail ++ [0x2c]).headD 0) with
  | none =>
    refine iff_of_false ?_ fun h => ?_
    · rintro ⟨o, hret, hexact⟩
      have hpanic : Returns (fun fuel => patchModule cmdlines fuel b (patchOption name ps rest)) .panic :=
        (Returns.const _).congr fun fuel => by rw [patchModule_eq hopt, hs]
      obtain rfl := hret.unique hpanic
      exact hexact
    · rw [searchModule_iff.mpr ⟨hnamed.lt, h.1.1, h.1.2⟩] at hs
      cases hs
  | some j =>
    have hfound := searchModule_iff.mp hs
    obtain ⟨hmod, hend⟩ := hmods j hfound.lt
    obtain ⟨ok, r, hret, hloop⟩ := patchModule_spec hopt hfound hmod hend
    have hany : (∃ o, Returns (fun fuel => patchModule cmdlines fuel b (patchOption name ps rest)) o ∧
        o.Exact b k ps rest) ↔ (if ok then Patched.ok j r rest else .noSpace j r).Exact b k ps rest :=
      ⟨fun ⟨o, ho, hexact⟩ => ho.unique hret ▸ hexact, fun h => ⟨_, hret, h⟩⟩
    rw [hany]
    by_cases hjk : j = k
    · obtain rfl := hjk
      have hlen : (b.modText j).length = (b.mods j).modEnd - (b.mods j).modStart := readBytes_length
      obtain ⟨-, hle, hmax⟩ := room_pageEnd hend
      rw [hloop.exact_iff, ← hlen, spaceExact_iff hmax (sizesPairs_chained hopt.pairs.2) (by omega)
        (sizesPairs_growth hopt.pairs.2)]
      exact (and_iff_right ⟨hfound.occurs, hfound.first⟩).symm
    · refine iff_of_false ?_ fun h => ?_
      · cases ok <;> exact fun h => hjk h.1
      · have hk := searchModule_iff.mpr (⟨hnamed.lt, h.1.1, h.1.2⟩ : Named _ _ _ _)
        exact hjk (Option.some.inj (hs.symm.trans hk))

/-- The names of two modules. -/
def taskMask (k : Nat) : List (BitVec 8) := str (if k = 0 then "task" else "mask")

theorem mask_named : Named taskMask BootMods.twoModules.modsCount (str "mask") 1 :=
  ⟨by decide, by decide +kernel, fun i hi => by obtain rfl : i = 0 := (by omega); decide +kernel⟩

theorem mask_wellFormed : OptionWellFormed (str "mask") [⟨str "a", str "b", none⟩] [] where
  name := by decide +kernel
  pairs := ⟨nofun, fun p hp => by
    obtain rfl := List.mem_singleton.mp hp
    exact ⟨by decide +kernel, by decide +kernel, by decide +kernel⟩⟩
  rest := nofun

theorem twoModules_placed (i : Nat) : (BootMods.twoModules.mods i).modStart ≤ (BootMods.twoModules.mods i).modEnd ∧
    (BootMods.twoModules.mods i).modEnd < 2 ^ 32 := by
  unfold BootMods.twoModules
  dsimp only
  split <;> decide

theorem BootMods.patches_iff_mask :
    (∃ o, Returns (fun fuel => patchModule taskMask fuel twoModules
        (patchOption (str "mask") [⟨str "a", str "b", none⟩] [])) o ∧
        o.Exact twoModules 1 [⟨str "a", str "b", none⟩] []) ↔
      (soughtName (str "mask") <:+: moduleName (taskMask 1) ∧
        ∀ i < 1, ¬ soughtName (str "mask") <:+: moduleName (taskMask i)) ∧
        SpaceExact (pageEnd (twoModules.mods 1).modEnd) (twoModules.mods 1).modStart
          ((twoModules.mods 1).modEnd - (twoModules.mods 1).modStart)
          (sizesPairs (twoModules.modText 1) [⟨str "a", str "b", none⟩]) :=
  patches_iff mask_wellFormed mask_named fun i _ => twoModules_placed i

/-- The patch of `mask` is made to `task`. -/
theorem not_patches_mask : ¬ ∀ (b : BootMods) (cmdlines : Nat → List (BitVec 8)) (name : List (BitVec 8))
    (ps : List Assignment) (rest : List (BitVec 8)) (k : Nat), OptionWellFormed name ps rest →
    Named cmdlines b.modsCount name k →
    (∀ i < b.modsCount, (b.mods i).modStart ≤ (b.mods i).modEnd ∧ (b.mods i).modEnd < 2 ^ 32) →
    ∃ o, Returns (fun fuel => patchModule cmdlines fuel b (patchOption name ps rest)) o ∧ o.Exact b k ps rest := by
  intro H
  obtain ⟨o, hret, hexact⟩ := H BootMods.twoModules taskMask (str "mask") [⟨str "a", str "b", none⟩] [] 1
    mask_wellFormed mask_named fun i _ => twoModules_placed i
  have htask : Named taskMask BootMods.twoModules.modsCount (soughtName (str "mask")) 0 :=
    ⟨by decide, by decide +kernel, fun i hi => absurd hi (Nat.not_lt_zero i)⟩
  obtain ⟨ok, r, hret', -⟩ := patchModule_spec mask_wellFormed htask (twoModules_placed 0).1 (twoModules_placed 0).2
  obtain rfl := hret.unique hret'
  cases ok <;> exact absurd hexact.1 (by decide)

end L4env.Bootstrap
