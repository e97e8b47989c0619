import L4env.Bootstrap.CommandLine

/-!
# Options on the command line of the bootstrapper

`check_arg` does not advance over an occurrence in the middle of a word, so it finds an option as long as the
first occurrence of the text is at the start of a word, and else it does not end.
-/

namespace L4env.Bootstrap

variable {arg cmdline before pre post s rest var val line : List (BitVec 8)} {fuel : Nat}

/-! ## One option -/

/-- The place is the first one where the option is at the start of a word; there is no result without such a
place. -/
def FirstAtWord (arg cmdline : List (BitVec 8)) : Option (List (BitVec 8) × List (BitVec 8)) → Prop
  | none => ∀ pre post, cmdline = pre ++ post → arg <+: post → atWord pre = false
  | some (pre, post) =>
    cmdline = pre ++ post ∧ arg <+: post ∧ atWord pre = true ∧
      ∀ pre' post', cmdline = pre' ++ post' → arg <+: post' → atWord pre' = true → pre.length ≤ pre'.length

/-- The first occurrence of the option is at the start of a word. -/
def WordFirst (arg cmdline : List (BitVec 8)) : Prop :=
  ∀ pre post, search arg cmdline = some (pre, post) → atWord pre = true

/-- The loop stays at an occurrence that is not at the start of a word. -/
theorem checkArgLoop_hangs (hp : arg <+: s) (h : atWord before = false) (fuel : Nat) :
    checkArgLoop arg fuel before s = none := by
  induction fuel with
  | zero => rfl
  | succ fuel ih =>
    rw [checkArgLoop, search_prefix hp]
    dsimp only
    rw [List.append_nil, h, if_neg Bool.false_ne_true]
    exact ih

/-- `check_arg` by the first occurrence of the option. -/
theorem checkArg_succ (arg cmdline : List (BitVec 8)) (fuel : Nat) :
    checkArg cmdline arg (fuel + 1) =
      match search arg cmdline with
      | none => some none
      | some (pre, post) => if atWord pre then some (some (pre, post)) else none := by
  rw [checkArg, checkArgLoop]
  cases hs : search arg cmdline with
  | none => rfl
  | some found =>
    dsimp only
    rw [List.nil_append]
    cases hw : atWord found.1 with
    | true => rfl
    | false => exact checkArgLoop_hangs (search_some hs).2 hw fuel

theorem checkArg_iff : (∃ o, Returns (checkArg cmdline arg) o ∧ FirstAtWord arg cmdline o) ↔
    WordFirst arg cmdline := by
  constructor
  · rintro ⟨o, ⟨N, hN⟩, -⟩ pre post hs
    have hret := hN (N + 1) (Nat.le_succ N)
    rw [checkArg_succ, hs] at hret
    by_contra hw
    dsimp only at hret
    rw [if_neg hw] at hret
    cases hret
  · intro h
    cases hs : search arg cmdline with
    | none =>
      refine ⟨none, (Returns.const _).round fun fuel => by rw [checkArg_succ, hs], fun pre post hsplit hp => ?_⟩
      exact absurd hp (search_none hs hsplit)
    | some found =>
      obtain ⟨pre, post⟩ := found
      obtain ⟨hsplit, hp⟩ := search_some hs
      have hw := h pre post hs
      refine ⟨some (pre, post), (Returns.const _).round fun fuel => ?_, hsplit, hp, hw,
        fun pre' post' hsplit' hp' _ => search_first hs hsplit' hp'⟩
      rw [checkArg_succ, hs]
      exact if_pos hw

/-! ## The options of patches -/

/-- The pairs at `s` are read: up to the text behind them, or there is a panic for a variable without a value or
an empty variable with a value. -/
inductive PairsEnd : List (BitVec 8) → Option (List (BitVec 8)) → Prop where
  | done {s : List (BitVec 8)} : s.head? ≠ some 0x2c → PairsEnd s (some s)
  | noValue {s : List (BitVec 8)} : strchr s 0x3d = none → PairsEnd (0x2c :: s) none
  | noVariable {s post : List (BitVec 8)} : strchr s 0x3d = some ([], post) → (parseValue post.tail).1 ≠ [] →
      PairsEnd (0x2c :: s) none
  | next {s var post rest : List (BitVec 8)} {o : Option (List (BitVec 8))} : strchr s 0x3d = some (var, post) →
      var ≠ [] → (parseValue post.tail).2 = some rest → PairsEnd rest o → PairsEnd (0x2c :: s) o

/-- The option at `s` is read: up to the text behind it, or there is a panic. -/
inductive OptionEnd (s : List (BitVec 8)) : Option (List (BitVec 8)) → Prop where
  | noName : 8 ≤ s.length → strchr (s.drop 8) 0x2c = none → OptionEnd s none
  | badName {name post : List (BitVec 8)} : 8 ≤ s.length → strchr (s.drop 8) 0x2c = some (name, post) →
      badName name = true → OptionEnd s none
  | pairs {name post : List (BitVec 8)} {o : Option (List (BitVec 8))} : 8 ≤ s.length →
      strchr (s.drop 8) 0x2c = some (name, post) → Bootstrap.badName name = false → PairsEnd post o → OptionEnd s o

/-- The options `-patch=` from `s` on are read: each first occurrence is at the start of a word. -/
inductive PatchesEnd : List (BitVec 8) → Prop where
  | done {s : List (BitVec 8)} : search (str "-patch=") s = none → PatchesEnd s
  | stop {s pre post : List (BitVec 8)} : search (str "-patch=") s = some (pre, post) → atWord pre = true →
      OptionEnd post none → PatchesEnd s
  | next {s pre post rest : List (BitVec 8)} : search (str "-patch=") s = some (pre, post) → atWord pre = true →
      OptionEnd post (some rest) → PatchesEnd rest → PatchesEnd s

/-! ### Enough: what is read this way ends -/

theorem replaceLoop_returns (hvar : var ≠ []) (val : List (BitVec 8)) (r : Replacing) (ptr : Nat)
    (hmax : r.maxPatchSize < 2 ^ 32) :
    ∃ x, Returns (fun fuel => replaceLoop var val fuel r ptr) x ∧ x.2.maxPatchSize < 2 ^ 32 := by
  induction hn : r.modEnd - ptr using Nat.strong_induction_on generalizing r ptr with
  | _ n ih =>
    cases hs : search var (readBytes r.memory ptr (r.modEnd - ptr)) with
    | none => exact ⟨(true, r), (Returns.const _).round fun fuel => by rw [replaceLoop, hs], hmax⟩
    | some found =>
      obtain ⟨pre, post⟩ := found
      obtain ⟨hsplit, hp⟩ := search_some hs
      have hpos := List.length_pos_of_ne_nil hvar
      have hlen := congrArg List.length hsplit
      rw [readBytes_length, List.length_append] at hlen
      have hvarLen := hp.length_le
      by_cases hspace : var.length < val.length ∧ r.maxPatchSize < val.length - var.length
      · exact ⟨(false, r), (Returns.const _).round fun fuel => by rw [replaceLoop, hs]; exact if_pos hspace, hmax⟩
      · obtain ⟨x, hx, hxmax⟩ := ih _ (by simp only [Replacing.replace]; omega)
          (r.replace (ptr + pre.length) var.length val) (ptr + pre.length + val.length) (Word.sub_lt _ _) rfl
        exact ⟨x, hx.round fun fuel => by rw [replaceLoop, hs]; exact if_neg hspace, hxmax⟩

/-- An empty variable is everywhere: the space is used up. -/
theorem replaceLoop_empty (hval : val ≠ []) (r : Replacing) (ptr : Nat) (hmax : r.maxPatchSize < 2 ^ 32) :
    ∃ r', Returns (fun fuel => replaceLoop [] val fuel r ptr) (false, r') := by
  induction hn : r.maxPatchSize using Nat.strong_induction_on generalizing r ptr with
  | _ n ih =>
    have hs : ∀ l : List (BitVec 8), search [] l = some ([], l) := fun l => search_prefix List.nil_prefix
    have hpos := List.length_pos_of_ne_nil hval
    by_cases hspace : r.maxPatchSize < val.length
    · refine ⟨r, (Returns.const _).round fun fuel => ?_⟩
      rw [replaceLoop, hs]
      exact if_pos ⟨hpos, hspace⟩
    · have hless : (r.replace ptr 0 val).maxPatchSize < n := by
        simp only [Replacing.replace, Word.sub, Word.add]
        omega
      obtain ⟨r', hret⟩ := ih _ hless (r.replace ptr 0 val) (ptr + val.length) (by omega) rfl
      refine ⟨r', hret.round fun fuel => ?_⟩
      rw [replaceLoop, hs]
      exact if_neg fun h => hspace h.2

/-- A patch ends: with a panic, or behind the option. -/
def Patched.Ends (o : Option (List (BitVec 8))) : Patched → Prop
  | .panic => True
  | .overrun => False
  | .noSpace _ _ => True
  | .ok _ _ s => o = some s

variable {cmdlines : Nat → List (BitVec 8)} {b : BootMods} {r : Replacing} {k beg : Nat} {o : Option (List (BitVec 8))}

theorem PairsEnd.patchLoop (h : PairsEnd s o) (k beg : Nat) (hmax : r.maxPatchSize < 2 ^ 32) :
    ∃ out, Returns (fun fuel => patchLoop k beg fuel r s) out ∧ out.Ends o := by
  induction h generalizing r with
  | @done s hs =>
    refine ⟨.ok k r s, (Returns.const _).round fun fuel => ?_, rfl⟩
    cases s with
    | nil => rfl
    | cons c s =>
      have hc : c ≠ 0x2c := fun h => hs (congrArg some h)
      exact if_pos hc
  | noValue hs =>
    refine ⟨.panic, (Returns.const _).round fun fuel => ?_, trivial⟩
    rw [Bootstrap.patchLoop]
    dsimp only
    rw [if_neg (not_not.mpr rfl), hs]
  | noVariable hs hval =>
    obtain ⟨r', hret⟩ := replaceLoop_empty hval r beg hmax
    refine ⟨.noSpace k r', Returns.round ?_ (patchLoop_var hs), trivial⟩
    exact hret.bind (Returns.const _)
  | @next s var post rest o hs hvar hrest _ ih =>
    obtain ⟨⟨ok, r'⟩, hret, hmax'⟩ := replaceLoop_returns hvar (parseValue post.tail).1 r beg hmax
    cases ok with
    | false =>
      refine ⟨.noSpace k r', Returns.round ?_ (patchLoop_var hs), trivial⟩
      exact hret.bind (Returns.const _)
    | true =>
      obtain ⟨out, hret', hends⟩ := ih hmax'
      refine ⟨out, Returns.round ?_ (patchLoop_var hs), hends⟩
      rw [hrest]
      exact hret.bind hret'

theorem OptionEnd.patchModule (h : OptionEnd s o) (cmdlines : Nat → List (BitVec 8)) (b : BootMods) :
    ∃ out, Returns (fun fuel => patchModule cmdlines fuel b s) out ∧ out.Ends o := by
  cases h with
  | noName hlen hs =>
    refine ⟨.panic, (Returns.const _).congr fun fuel => ?_, trivial⟩
    rw [Bootstrap.patchModule, if_neg (by omega)]
    dsimp only
    rw [hs]
  | badName hlen hs hbad =>
    refine ⟨.panic, (Returns.const _).congr fun fuel => ?_, trivial⟩
    rw [Bootstrap.patchModule, if_neg (by omega)]
    dsimp only
    rw [hs]
    dsimp only
    rw [hbad]
    rfl
  | @pairs name post o hlen hs hname hpairs =>
    cases hk : searchModule cmdlines b.modsCount name ((s.drop 8).headD 0) with
    | none => exact ⟨.panic, (Returns.const _).congr fun fuel => by rw [patchModule_search hlen hs hname, hk],
        trivial⟩
    | some k =>
      obtain ⟨out, hret, hends⟩ := hpairs.patchLoop k (b.mods k).modStart
        (r := { memory := b.memory, modEnd := _, maxPatchSize := _, written := 0 }) (Word.sub_lt _ _)
      exact ⟨out, hret.congr fun fuel => by rw [patchModule_search hlen hs hname, hk], hends⟩

theorem checkArg_returns (hs : search arg cmdline = some (pre, post)) (hw : atWord pre = true) :
    Returns (checkArg cmdline arg) (some (pre, post)) :=
  (Returns.const _).round fun fuel => by rw [checkArg_succ, hs]; exact if_pos hw

theorem PatchesEnd.startupPatches (h : PatchesEnd s) (cmdlines : Nat → List (BitVec 8)) (b : BootMods) :
    ∃ out, Returns (fun fuel => startupPatches cmdlines fuel b s) out ∧ out ≠ .overrun := by
  induction h generalizing b with
  | @done s hs =>
    have hcheck : Returns (checkArg s (str "-patch=")) none :=
      (Returns.const _).round fun fuel => by rw [checkArg_succ, hs]
    refine ⟨.ok b, Returns.round ?_ fun fuel => rfl, nofun⟩
    exact hcheck.bind (Returns.const _)
  | stop hs hw hopt =>
    obtain ⟨out, hret, hends⟩ := hopt.patchModule cmdlines b
    refine ⟨.panic, Returns.round ?_ fun fuel => rfl, nofun⟩
    refine (checkArg_returns hs hw).bind (hret.bind ?_)
    cases out with
    | panic => exact Returns.const _
    | noSpace k r => exact Returns.const _
    | overrun => exact hends.elim
    | ok k r s => cases hends
  | next hs hw hopt _ ih =>
    obtain ⟨out, hret, hends⟩ := hopt.patchModule cmdlines b
    cases out with
    | panic =>
      refine ⟨.panic, Returns.round ?_ fun fuel => rfl, nofun⟩
      exact (checkArg_returns hs hw).bind (hret.bind (Returns.const _))
    | noSpace k r =>
      refine ⟨.panic, Returns.round ?_ fun fuel => rfl, nofun⟩
      exact (checkArg_returns hs hw).bind (hret.bind (Returns.const _))
    | overrun => exact hends.elim
    | ok k r s =>
      obtain rfl := Option.some.inj hends
      obtain ⟨out, hret', hne⟩ := ih (b.patched k r)
      refine ⟨out, Returns.round ?_ fun fuel => rfl, hne⟩
      exact (checkArg_returns hs hw).bind (hret.bind hret')

/-! ### Needed: a module that every option finds -/

theorem replaceLoop_hangs (fuel : Nat) (r : Replacing) (ptr : Nat) : replaceLoop [] [] fuel r ptr = none := by
  induction fuel generalizing r ptr with
  | zero => rfl
  | succ fuel ih =>
    rw [replaceLoop, search_prefix List.nil_prefix]
    exact (if_neg fun h => Nat.lt_irrefl 0 h.1).trans (ih _ _)

/-- In an empty module there is nothing to replace. -/
theorem replaceLoop_nothing (hvar : var ≠ []) (hr : r.modEnd = beg) {x : Bool × Replacing}
    (h : replaceLoop var val fuel r beg = some x) : x = (true, r) := by
  cases fuel with
  | zero => cases h
  | succ fuel =>
    have hread : readBytes r.memory beg (r.modEnd - beg) = [] := by rw [hr, Nat.sub_self]; rfl
    have hs : search var ([] : List (BitVec 8)) = none := if_neg hvar
    rw [replaceLoop, hread, hs] at h
    exact (Option.some.inj h).symm

theorem PairsEnd.of_patchLoop {out : Patched} (hr : r.modEnd = beg)
    (h : Bootstrap.patchLoop k beg fuel r s = some out) (hout : out ≠ .overrun) :
    (∃ s', out = .ok k r s' ∧ PairsEnd s (some s')) ∨ PairsEnd s none := by
  induction fuel generalizing s with
  | zero => cases h
  | succ fuel ih =>
    cases s with
    | nil => exact .inl ⟨[], (Option.some.inj h).symm, .done nofun⟩
    | cons c s =>
      by_cases hc : c = 0x2c
      · obtain rfl := hc
        cases hs : strchr s 0x3d with
        | none => exact .inr (.noValue hs)
        | some found =>
          obtain ⟨var, post⟩ := found
          rw [patchLoop_var hs] at h
          obtain ⟨x, hx, h⟩ := Option.bind_eq_some_iff.mp h
          by_cases hvar : var = []
          · obtain rfl := hvar
            refine .inr (.noVariable hs fun hval => ?_)
            rw [hval, replaceLoop_hangs] at hx
            cases hx
          · obtain rfl := replaceLoop_nothing hvar hr hx
            dsimp only at h
            rw [if_pos rfl] at h
            cases hrest : (parseValue post.tail).2 with
            | none =>
              rw [hrest] at h
              exact absurd (Option.some.inj h).symm hout
            | some rest =>
              rw [hrest] at h
              obtain ⟨s', hs', hend⟩ | hend := ih h
              · exact .inl ⟨s', hs', .next hs hvar hrest hend⟩
              · exact .inr (.next hs hvar hrest hend)
      · refine .inl ⟨c :: s, ?_, .done fun h => hc (Option.some.inj h)⟩
        rw [Bootstrap.patchLoop] at h
        exact (Option.some.inj ((if_pos hc).symm.trans h)).symm

theorem parseValue_suffix (h : (parseValue s).2 = some rest) : rest <:+ s := by
  cases s with
  | nil =>
    obtain rfl : [] = rest := Option.some.inj h
    exact List.suffix_rfl
  | cons c s =>
    rw [parseValue] at h
    split at h
    · cases hd : s.dropWhile (· ≠ c) with
      | nil =>
        rw [hd] at h
        cases h
      | cons q t =>
        rw [hd] at h
        obtain rfl := Option.some.inj h
        exact (List.suffix_cons q t).trans (hd ▸ (List.dropWhile_suffix _).trans (List.suffix_cons c s))
    · obtain rfl := Option.some.inj h
      exact List.dropWhile_suffix _

theorem PairsEnd.suffix (h : PairsEnd s (some rest)) : rest <:+ s := by
  generalize ho : some rest = o at h
  induction h with
  | done => exact Option.some.inj ho ▸ List.suffix_rfl
  | noValue => cases ho
  | noVariable => cases ho
  | @next s var post rest' o hs _ hrest _ ih =>
    obtain ⟨rfl, -⟩ := search_some hs
    have hpost := (parseValue_suffix hrest).trans (List.tail_suffix post)
    exact (ih ho).trans (hpost.trans ((List.suffix_append var post).trans (List.suffix_cons _ _)))

theorem OptionEnd.suffix (h : OptionEnd s (some rest)) : rest <:+ s := by
  cases h with
  | @pairs name post _ _ hs _ hpairs =>
    obtain ⟨hsplit, -⟩ := search_some hs
    exact hpairs.suffix.trans ((hsplit ▸ List.suffix_append name post).trans (List.drop_suffix 8 s))

theorem OptionEnd.of_patchModule {out : Patched} (hk : ∀ name post, strchr (s.drop 8) 0x2c = some (name, post) →
      Bootstrap.badName name = false → searchModule cmdlines b.modsCount name ((s.drop 8).headD 0) = some k)
    (hempty : (b.mods k).modEnd = (b.mods k).modStart) (h : Bootstrap.patchModule cmdlines fuel b s = some out)
    (hout : out ≠ .overrun) :
    (∃ r s', out = .ok k r s' ∧ b.patched k r = b ∧ OptionEnd s (some s')) ∨ OptionEnd s none := by
  by_cases hlen : s.length < 8
  · rw [Bootstrap.patchModule, if_pos hlen] at h
    exact absurd (Option.some.inj h).symm hout
  cases hs : strchr (s.drop 8) 0x2c with
  | none => exact .inr (.noName (by omega) hs)
  | some found =>
    obtain ⟨name, post⟩ := found
    cases hbad : Bootstrap.badName name with
    | true => exact .inr (.badName (by omega) hs hbad)
    | false =>
      rw [patchModule_search (by omega) hs hbad, hk name post hs hbad] at h
      obtain ⟨s', rfl, hend⟩ | hend := PairsEnd.of_patchLoop hempty h hout
      · refine .inl ⟨_, s', rfl, ?_, .pairs (by omega) hs hbad hend⟩
        rw [BootMods.patched, Function.update_eq_self]
      · exact .inr (.pairs (by omega) hs hbad hend)

/-- Two modules without contents. -/
def emptyModules : BootMods where
  memory _ := 0
  modsCount := 2
  mods _ := { modStart := 0, modEnd := 0 }

/-- The command line of a module that has all words of `line` in its name. -/
def allWords (line : List (BitVec 8)) (_ : Nat) : List (BitVec 8) := line.filter (· ≠ 0x20)

theorem allWords_named (h : s <:+: line) (hs : 0x20 ∉ s) : Named (allWords line) 2 s 0 := by
  refine ⟨Nat.two_pos, ?_, nofun⟩
  have hname : moduleName (allWords line 0) = line.filter (· ≠ 0x20) :=
    List.takeWhile_eq_self_iff.mpr fun c hc => (List.mem_filter.mp hc).2
  have hself : s.filter (· ≠ 0x20) = s := List.filter_eq_self.mpr fun c hc =>
    decide_eq_true fun h : c = 0x20 => hs (h ▸ hc)
  rw [hname, ← hself]
  exact h.filter _

theorem allWords_found {name : List (BitVec 8)} (h : s <:+: line)
    (hs : strchr (s.drop 8) 0x2c = some (name, post)) (hname : badName name = false) :
    searchModule (allWords line) 2 name ((s.drop 8).headD 0) = some 0 := by
  obtain ⟨hsplit, behind, rfl⟩ := search_some hs
  have hline : name ++ [0x2c] <:+: line := by
    refine List.IsInfix.trans ⟨[], behind, ?_⟩ ((List.drop_suffix 8 s).isInfix.trans h)
    rw [hsplit]
    simp
  have hfirst : (s.drop 8).headD 0 = (name ++ [0x2c]).headD 0 := by
    rw [hsplit]
    cases name <;> rfl
  have hblank : (0x20 : BitVec 8) ∉ name := fun hmem => by
    have h := List.any_eq_false.mp hname _ hmem
    exact h (by decide)
  have hnamed : Named (allWords line) 2 (soughtName (0 :: name)) 0 := by
    rw [soughtName, List.tail_cons]
    split
    · exact allWords_named ((List.suffix_append name [0x2c]).isInfix.trans hline) (by decide)
    · exact allWords_named ((List.prefix_append name [0x2c]).isInfix.trans hline) hblank
  rw [hfirst]
  exact searchModule_iff.mpr hnamed

theorem PatchesEnd.of_startupPatches {out : Patches} (hs : s <:+: line)
    (h : Bootstrap.startupPatches (allWords line) fuel emptyModules s = some out) (hout : out ≠ .overrun) :
    PatchesEnd s := by
  induction fuel generalizing s with
  | zero => cases h
  | succ fuel ih =>
    rw [Bootstrap.startupPatches] at h
    obtain ⟨found, hcheck, h⟩ := Option.bind_eq_some_iff.mp h
    cases fuel with
    | zero => cases hcheck
    | succ fuel =>
      rw [checkArg_succ] at hcheck
      cases hsearch : search (str "-patch=") s with
      | none => exact .done hsearch
      | some place =>
        obtain ⟨pre, post⟩ := place
        rw [hsearch] at hcheck
        dsimp only at hcheck
        cases hw : atWord pre with
        | false =>
          rw [hw, if_neg Bool.false_ne_true] at hcheck
          cases hcheck
        | true =>
          rw [hw, if_pos rfl] at hcheck
          obtain rfl := (Option.some.inj hcheck).symm
          obtain ⟨p, hp, h⟩ := Option.bind_eq_some_iff.mp h
          obtain ⟨hsplit, -⟩ := search_some hsearch
          have hpost : post <:+ s := hsplit ▸ List.suffix_append pre post
          have hne : p ≠ .overrun := fun he => by
            rw [he] at h
            exact hout (Option.some.inj h).symm
          obtain ⟨r, s', rfl, hsame, hopt⟩ | hopt := OptionEnd.of_patchModule (k := 0)
            (fun name post' => allWords_found (hpost.isInfix.trans hs)) rfl hp hne
          · dsimp only at h
            rw [hsame] at h
            exact .next hsearch hw hopt (ih ((hopt.suffix.trans hpost).isInfix.trans hs) h)
          · exact .stop hsearch hw hopt

/-- The loop ends for all modules if and only if the options are read. -/
theorem startupPatches_iff : (∀ (cmdlines : Nat → List (BitVec 8)) (b : BootMods), ∃ out,
      Returns (fun fuel => startupPatches cmdlines fuel b cmdline) out ∧ out ≠ .overrun) ↔ PatchesEnd cmdline := by
  refine ⟨fun h => ?_, fun h cmdlines b => h.startupPatches cmdlines b⟩
  obtain ⟨out, ⟨N, hN⟩, hout⟩ := h (allWords cmdline) emptyModules
  exact .of_startupPatches List.infix_rfl (hN N le_rfl) hout

end L4env.Bootstrap
