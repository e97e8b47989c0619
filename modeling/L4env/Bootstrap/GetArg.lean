import L4env.Bootstrap.CheckArg

/-!
# Command lines of modules on the command line of the bootstrapper

`get_arg_module` takes the first option ` -arg=` whose name occurs in the name of the module. The end of a value
without quotes is the end of the line, as its test for white space is made void by the one for the quote.
-/

namespace L4env.Bootstrap

variable {name cmdline pre pre' post post' val : List (BitVec 8)} {i s : Nat}

/-! ## The option -/

/-- What an option ` -arg=` is for a module, with the name and the value. -/
inductive ArgOption where
  | other
  | malformed
  | value (modname val : List (BitVec 8))

/-- The text behind ` -arg=`. There is a comma behind the name, which has no white space. -/
def argOption (name post : List (BitVec 8)) : ArgOption :=
  match search [0x2c] post with
  | none => .malformed
  | some (modname, rest) =>
    if modname.any isSpace then .malformed
    else if modname <:+: name then .value modname rest.tail
    else .other

/-- The option is at `pre` on the command line. -/
def ArgAt (cmdline pre post : List (BitVec 8)) : Prop := cmdline = pre ++ (str " -arg=" ++ post)

/-- The first option that is for the module, or malformed. -/
structure FirstArg (name cmdline pre post : List (BitVec 8)) : Prop where
  at' : ArgAt cmdline pre post
  decides : argOption name post ≠ .other
  first : ∀ pre' post', ArgAt cmdline pre' post' → argOption name post' ≠ .other → pre.length ≤ pre'.length

/-- The value at `val`: up to the closing quote or up to the next white space, and how far it starts behind the
comma. -/
def argValue : List (BitVec 8) → Nat × List (BitVec 8)
  | [] => (0, [])
  | c :: val => if isQuote c then (1, val.takeWhile (· ≠ c)) else (0, (c :: val).takeWhile fun c => !isSpace c)

/-- The value is in quotes, or there is no white space behind it on the line. -/
def ValueEnds (val : List (BitVec 8)) : Prop :=
  (∃ c ∈ val.head?, isQuote c = true) ∨ ∀ c ∈ val, isSpace c = false

/-- What `get_arg_module` is to return. The command line is as before. -/
def ArgResult.Right (name cmdline : List (BitVec 8)) : ArgResult → Prop
  | .panic => ∃ pre post, FirstArg name cmdline pre post ∧ argOption name post = .malformed
  | .null line => line = cmdline ∧ ∀ pre post, ArgAt cmdline pre post → argOption name post = .other
  | .value line valBeg size =>
    line = cmdline ∧ ∃ pre post modname val, FirstArg name cmdline pre post ∧
      argOption name post = .value modname val ∧
      valBeg = pre.length + 6 + modname.length + 1 + (argValue val).1 ∧
      (line.drop valBeg).take size = (argValue val).2 ∧ size = (argValue val).2.length

/-! ## The loop -/

theorem arg_length : (str " -arg=").length = 6 := by decide

/-- Two options do not overlap. -/
theorem argAt_disjoint (h : ArgAt cmdline pre post) (h' : ArgAt cmdline pre' post')
    (hlt : pre.length < pre'.length) : pre.length + 6 ≤ pre'.length := by
  by_contra hnear
  have hblank : cmdline[pre'.length]? = some 0x20 := by
    rw [h', List.getElem?_append_right le_rfl, Nat.sub_self]
    rfl
  obtain ⟨d, hd⟩ := Nat.exists_eq_add_of_lt hlt
  have hd6 : d + 1 < 6 := by omega
  have hchar : (str " -arg=")[d + 1]? = some 0x20 := by
    rw [← hblank, h, hd, List.getElem?_append_right (by omega), List.getElem?_append_left (by rw [arg_length]; omega)]
    congr 1
    omega
  have hno : ∀ d < 5, (str " -arg=")[d + 1]? ≠ some 0x20 := by decide +kernel
  exact hno d (by omega) hchar

theorem argAt_inj (h : ArgAt cmdline pre post) (h' : ArgAt cmdline pre' post') (hlen : pre.length = pre'.length) :
    post = post' :=
  List.append_cancel_left (List.append_inj (h.symm.trans h') hlen).2

theorem set_middle (l m r : List (BitVec 8)) (a c : BitVec 8) (n : Nat) (hn : n = l.length) :
    (l ++ (m ++ a :: r)).set (n + m.length) c = l ++ (m ++ c :: r) := by
  rw [hn, List.set_append_right _ _ (by omega), Nat.add_sub_cancel_left, List.set_append_right _ _ le_rfl,
    Nat.sub_self, List.set_cons_zero]

/-- An option that a search from `s` on finds. -/
theorem argAt_search (hs : search (str " -arg=") (cmdline.drop s) = some (pre, str " -arg=" ++ post)) :
    ∃ l, l.length = s + pre.length ∧ ArgAt cmdline l post := by
  obtain ⟨hsplit, -⟩ := search_some hs
  have hle : s ≤ cmdline.length := by
    by_contra hgt
    rw [List.drop_eq_nil_of_le (by omega)] at hsplit
    have hlen := congrArg List.length hsplit
    simp only [List.length_append, List.length_nil, arg_length] at hlen
    omega
  refine ⟨cmdline.take s ++ pre, by rw [List.length_append, List.length_take_of_le hle], ?_⟩
  rw [ArgAt, List.append_assoc, ← hsplit, List.take_append_drop]

theorem argAt_drop (h : ArgAt cmdline pre post) : cmdline.drop (pre.length + 6) = post := by
  have hlen : (pre ++ str " -arg=").length = pre.length + 6 := by rw [List.length_append, arg_length]
  rw [h, ← List.append_assoc, List.drop_left' hlen]

/-- The search does not pass an option. -/
theorem argAt_first (hs : search (str " -arg=") (cmdline.drop s) = some (pre, post)) (h : ArgAt cmdline pre' post')
    (hge : s ≤ pre'.length) : s + pre.length ≤ pre'.length := by
  have hdrop : cmdline.drop s = pre'.drop s ++ (str " -arg=" ++ post') := by
    rw [h, List.drop_append_of_le_length hge]
  have hle := search_first hs hdrop (List.prefix_append _ _)
  rw [List.length_drop] at hle
  omega

/-- The round of the loop for an option with a comma: the command line is the same again. -/
theorem argLoop_round (name : List (BitVec 8)) {modname l : List (BitVec 8)} (hnul : 0 ∉ cmdline)
    (hs : search (str " -arg=") (cmdline.drop s) = some (pre, str " -arg=" ++ post)) (hlen : l.length = s + pre.length)
    (hat : ArgAt cmdline l post) (hcomma : search [0x2c] post = some (modname, 0x2c :: val)) (fuel : Nat) :
    argLoop name (fuel + 1) cmdline s =
      if modname.any isSpace then some .panic
      else if (search modname name).isSome then some (.some cmdline (s + pre.length + 6 + modname.length + 1))
      else argLoop name fuel cmdline (s + pre.length + 6) := by
  obtain ⟨hpost, -⟩ := search_some hcomma
  have hline : cmdline = (l ++ str " -arg=") ++ (modname ++ 0x2c :: val) := by
    rw [List.append_assoc, ← hpost, ← ArgAt]
    exact hat
  have hstart : s + pre.length + 6 = (l ++ str " -arg=").length := by rw [List.length_append, hlen, arg_length]
  have hcut : cmdline.set (s + pre.length + 6 + modname.length) 0 =
      (l ++ str " -arg=") ++ (modname ++ 0 :: val) := by
    rw [hline, set_middle _ _ _ _ _ _ hstart]
  have hrestore : ((l ++ str " -arg=") ++ (modname ++ 0 :: val)).set (s + pre.length + 6 + modname.length) 0x2c =
      cmdline := by
    rw [set_middle _ _ _ _ _ _ hstart, ← hline]
  have hmodname : (((l ++ str " -arg=") ++ (modname ++ 0 :: val)).drop (s + pre.length + 6)).takeWhile (· ≠ 0) =
      modname := by
    rw [hstart, List.drop_left]
    have hne : ∀ c ∈ modname, decide (c ≠ 0) = true := fun c hc => decide_eq_true fun h => hnul (by
      rw [hline]
      simp [← h, hc])
    exact (takeWhile_val (0 :: val) hne (by simp)).1
  rw [argLoop, hs]
  dsimp only
  rw [← hlen, argAt_drop hat, strchr, hcomma]
  dsimp only
  rw [hlen, hcut, hmodname, hrestore]

/-- What the loop finds from `s` on, when all options before are for other modules. -/
def ArgFound.Right (name cmdline : List (BitVec 8)) : ArgFound → Prop
  | .panic => ∃ pre post, FirstArg name cmdline pre post ∧ argOption name post = .malformed
  | .none line => line = cmdline ∧ ∀ pre post, ArgAt cmdline pre post → argOption name post = .other
  | .some line valBeg =>
    line = cmdline ∧ ∃ pre post modname val, FirstArg name cmdline pre post ∧
      argOption name post = .value modname val ∧ valBeg = pre.length + 6 + modname.length + 1

theorem argLoop_spec (name : List (BitVec 8)) (hnul : 0 ∉ cmdline) (s : Nat)
    (hbefore : ∀ pre post, ArgAt cmdline pre post → pre.length < s → argOption name post = .other) :
    ∃ o, Returns (fun fuel => argLoop name fuel cmdline s) o ∧ o.Right name cmdline := by
  induction hn : cmdline.length - s using Nat.strong_induction_on generalizing s with
  | _ n ih =>
    cases hs : search (str " -arg=") (cmdline.drop s) with
    | none =>
      refine ⟨.none cmdline, (Returns.const _).round fun fuel => by rw [argLoop, hs], rfl, fun pre post hat => ?_⟩
      by_cases hlt : pre.length < s
      · exact hbefore pre post hat hlt
      · have hdrop : cmdline.drop s = pre.drop s ++ (str " -arg=" ++ post) := by
          rw [hat, List.drop_append_of_le_length (by omega)]
        exact absurd (List.prefix_append _ _) (search_none hs hdrop)
    | some found =>
      obtain ⟨pre, found⟩ := found
      obtain ⟨-, post, rfl⟩ := search_some hs
      obtain ⟨l, hlen, hat⟩ := argAt_search hs
      have hfirst : argOption name post ≠ .other → FirstArg name cmdline l post := by
        refine fun hdecides => ⟨hat, hdecides, fun pre' post' hat' hdecides' => ?_⟩
        rw [hlen]
        exact argAt_first hs hat' (Nat.not_lt.mp fun hlt => hdecides' (hbefore pre' post' hat' hlt))
      cases hcomma : search [0x2c] post with
      | none =>
        have hopt : argOption name post = .malformed := by rw [argOption, hcomma]
        refine ⟨.panic, (Returns.const _).round fun fuel => ?_, l, post, hfirst (by rw [hopt]; simp), hopt⟩
        rw [argLoop, hs]
        dsimp only
        rw [← hlen, argAt_drop hat, strchr, hcomma]
      | some found =>
        obtain ⟨modname, found⟩ := found
        obtain ⟨-, val, rfl⟩ := search_some hcomma
        have hround := argLoop_round name hnul hs hlen hat hcomma
        by_cases hspace : modname.any isSpace = true
        · have hopt : argOption name post = .malformed := by
            rw [argOption, hcomma]
            exact if_pos hspace
          refine ⟨.panic, (Returns.const _).round fun fuel => ?_, l, post, hfirst (by rw [hopt]; simp), hopt⟩
          rw [hround, if_pos hspace]
        by_cases hinfix : modname <:+: name
        · have hopt : argOption name post = .value modname val := by
            rw [argOption, hcomma]
            exact (if_neg hspace).trans (if_pos hinfix)
          refine ⟨.some cmdline _, (Returns.const _).round fun fuel => ?_, rfl, l, post, modname, val,
            hfirst (by rw [hopt]; simp), hopt, by rw [hlen]⟩
          rw [hround, if_neg hspace, if_pos (search_isSome.mpr hinfix)]
        · have hopt : argOption name post = .other := by
            rw [argOption, hcomma]
            exact (if_neg hspace).trans (if_neg hinfix)
          have hle : l.length + 6 ≤ cmdline.length := by
            rw [hat, List.length_append, List.length_append, arg_length]
            omega
          -- the options up to here are for other modules, and no option starts inside this one
          have hbefore' : ∀ pre' post', ArgAt cmdline pre' post' → pre'.length < s + pre.length + 6 →
              argOption name post' = .other := by
            intro pre' post' hat' hlt'
            by_cases hb : pre'.length < s
            · exact hbefore pre' post' hat' hb
            · obtain heq | hgt := (argAt_first hs hat' (Nat.not_lt.mp hb)).eq_or_lt
              · rw [← argAt_inj hat hat' (hlen.trans heq)]
                exact hopt
              · have hfar := argAt_disjoint hat hat' (by omega)
                omega
          obtain ⟨o, hret, hright⟩ := ih _ (by omega) (s + pre.length + 6) hbefore' rfl
          refine ⟨o, hret.round fun fuel => ?_, hright⟩
          rw [hround, if_neg hspace, if_neg fun h => hinfix (search_isSome.mp h)]

/-! ## The value -/

theorem FirstArg.unique (h : FirstArg name cmdline pre post) (h' : FirstArg name cmdline pre' post') :
    pre.length = pre'.length ∧ post = post' :=
  have hlen := (h.first _ _ h'.at' h'.decides).antisymm (h'.first _ _ h.at' h.decides)
  ⟨hlen, argAt_inj h.at' h'.at' hlen⟩

theorem argOption_value {modname : List (BitVec 8)} (h : argOption name post = .value modname val) :
    post = modname ++ 0x2c :: val := by
  rw [argOption] at h
  cases hs : search [0x2c] post with
  | none =>
    rw [hs] at h
    cases h
  | some found =>
    obtain ⟨modname, rest⟩ := found
    rw [hs] at h
    dsimp only at h
    split at h
    · cases h
    · split at h
      · cases h
        obtain ⟨hpost, val, rfl⟩ := search_some hs
        exact hpost
      · cases h

/-- How far the value of the code starts behind the comma, and its size. -/
def codeValue (val : List (BitVec 8)) : Nat × Nat :=
  if isQuote (val.headD 0) then (1, ((val.drop 1).takeWhile (inValue (val.headD 0))).length)
  else (0, (val.takeWhile (inValue 0)).length)

theorem argValue_take (val : List (BitVec 8)) :
    (val.drop (argValue val).1).take (argValue val).2.length = (argValue val).2 := by
  cases val with
  | nil => rfl
  | cons c val =>
    rw [argValue]
    split
    · exact (List.prefix_iff_eq_take.mp (List.takeWhile_prefix _)).symm
    · exact (List.prefix_iff_eq_take.mp (List.takeWhile_prefix _)).symm

/-- The value of the code goes on to the closing quote, or to the end of the line. -/
theorem codeValue_iff (hnul : 0 ∉ val) :
    codeValue val = ((argValue val).1, (argValue val).2.length) ↔ ValueEnds val := by
  cases val with
  | nil => exact iff_of_true rfl (.inr nofun)
  | cons c val =>
    rw [codeValue, argValue, List.headD_cons]
    by_cases hc : isQuote c = true
    · have hquote : inValue c = fun x => decide (x ≠ c) := funext fun x => by
        have hne : c ≠ 0 := by
          rintro rfl
          exact absurd hc (by decide)
        rw [inValue, decide_eq_false hne, Bool.false_and, Bool.false_or]
      rw [if_pos hc, if_pos hc, hquote]
      exact iff_of_true rfl (.inl ⟨c, rfl, hc⟩)
    · have hall : (c :: val).takeWhile (inValue 0) = c :: val :=
        List.takeWhile_eq_self_iff.mpr fun x hx => by
          have hne : x ≠ 0 := fun h => hnul (h ▸ hx)
          rw [inValue, decide_eq_true hne, Bool.or_true]
      rw [if_neg hc, if_neg hc, hall, ValueEnds]
      constructor
      · intro h
        have hlen := (Prod.mk.inj h).2
        have hself := (List.takeWhile_prefix _).eq_of_length hlen.symm
        exact .inr fun x hx => by simpa using List.takeWhile_eq_self_iff.mp hself x hx
      · rintro (⟨x, hx, hquote⟩ | hno)
        · obtain rfl := Option.some.inj hx
          exact absurd hquote hc
        · rw [List.takeWhile_eq_self_iff.mpr fun x hx => by simp [hno x hx]]

theorem getArgModule_iff (hnul : 0 ∉ cmdline) :
    (∃ o, Returns (getArgModule name cmdline) o ∧ o.Right name cmdline) ↔
      ∀ pre post modname val, FirstArg name cmdline pre post → argOption name post = .value modname val →
        ValueEnds val := by
  obtain ⟨found, hret, hfound⟩ := argLoop_spec name hnul 0 fun _ _ _ h => absurd h (Nat.not_lt_zero _)
  cases found with
  | panic =>
    obtain ⟨pre, post, hfirst, hopt⟩ := hfound
    refine iff_of_true ⟨.panic, hret.bind (Returns.const _), pre, post, hfirst, hopt⟩ ?_
    intro pre' post' modname val hfirst' hopt'
    rw [← (hfirst.unique hfirst').2, hopt] at hopt'
    cases hopt'
  | none line =>
    obtain ⟨rfl, hother⟩ := hfound
    refine iff_of_true ⟨.null line, hret.bind (Returns.const _), rfl, hother⟩ ?_
    exact fun pre post _ _ hfirst _ => absurd (hother pre post hfirst.at') hfirst.decides
  | some line valBeg =>
    obtain ⟨rfl, pre, post, modname, val, hfirst, hopt, rfl⟩ := hfound
    have hline : line = (pre ++ str " -arg=" ++ modname ++ [0x2c]) ++ val := by
      have hat := hfirst.at'
      rw [ArgAt, argOption_value hopt] at hat
      simpa using hat
    have hlen : (pre ++ str " -arg=" ++ modname ++ [0x2c]).length = pre.length + 6 + modname.length + 1 := by
      simp only [List.length_append, arg_length, List.length_singleton]
    have hdrop : ∀ i, line.drop (pre.length + 6 + modname.length + 1 + i) = val.drop i := fun i => by
      rw [hline, ← hlen, ← List.drop_drop, List.drop_left]
    have hnulVal : 0 ∉ val := fun h => hnul (hline ▸ List.mem_append_right _ h)
    have hcode : Returns (getArgModule name line)
        (.value line (pre.length + 6 + modname.length + 1 + (codeValue val).1) (codeValue val).2) :=
      hret.imp fun _ hN n hn => by
        have hfound : argLoop name n line 0 = _ := hN n hn
        rw [getArgModule, hfound]
        show (if isQuote ((line.drop (pre.length + 6 + modname.length + 1)).headD 0) then _ else _) = _
        rw [hdrop 1, hdrop 0, List.drop_zero, codeValue]
        split <;> rfl
    have hright : (ArgResult.value line (pre.length + 6 + modname.length + 1 + (codeValue val).1)
        (codeValue val).2).Right name line ↔ codeValue val = ((argValue val).1, (argValue val).2.length) := by
      constructor
      · rintro ⟨-, pre', post', modname', val', hfirst', hopt', hbeg, -, hsize⟩
        obtain ⟨hlen', rfl⟩ := hfirst.unique hfirst'
        rw [hopt] at hopt'
        cases hopt'
        exact Prod.ext (by dsimp only; omega) hsize
      · intro h
        rw [h]
        exact ⟨rfl, pre, post, modname, val, hfirst, hopt, rfl, (hdrop _).symm ▸ argValue_take val, rfl⟩
    constructor
    · rintro ⟨o, hret', ho⟩ pre' post' modname' val' hfirst' hopt'
      obtain rfl := hret'.unique hcode
      rw [← (hfirst.unique hfirst').2, hopt] at hopt'
      cases hopt'
      exact (codeValue_iff hnulVal).mp (hright.mp ho)
    · exact fun h => ⟨_, hcode, hright.mpr ((codeValue_iff hnulVal).mpr (h pre post modname val hfirst hopt))⟩

/-! ## The command line -/

/-- The parts of the command line that are read as they should: `check_arg` if the first occurrence of the option
starts a word, the patches if the same holds for each of them and no option hangs or runs over the end, and
`get_arg_module` if the value is quoted or the last thing on the line. -/
theorem parses_iff (arg name : List (BitVec 8)) (hnul : 0 ∉ cmdline) :
    ((∃ o, Returns (checkArg cmdline arg) o ∧ FirstAtWord arg cmdline o) ↔ WordFirst arg cmdline) ∧
      ((∀ (cmdlines : Nat → List (BitVec 8)) (b : BootMods), ∃ out,
        Returns (fun fuel => startupPatches cmdlines fuel b cmdline) out ∧ out ≠ .overrun) ↔ PatchesEnd cmdline) ∧
      ((∃ o, Returns (getArgModule name cmdline) o ∧ o.Right name cmdline) ↔
        ∀ pre post modname val, FirstArg name cmdline pre post → argOption name post = .value modname val →
          ValueEnds val) :=
  ⟨checkArg_iff, startupPatches_iff, getArgModule_iff hnul⟩

theorem parses_iff_sigma0 :
    ((∃ o, Returns (checkArg (str "x -sigma0") (str "-sigma0")) o ∧
        FirstAtWord (str "-sigma0") (str "x -sigma0") o) ↔ WordFirst (str "-sigma0") (str "x -sigma0")) ∧
      ((∀ (cmdlines : Nat → List (BitVec 8)) (b : BootMods), ∃ out,
        Returns (fun fuel => startupPatches cmdlines fuel b (str "x -sigma0")) out ∧ out ≠ .overrun) ↔
          PatchesEnd (str "x -sigma0")) ∧
      ((∃ o, Returns (getArgModule (str "loader") (str "x -sigma0")) o ∧ o.Right (str "loader") (str "x -sigma0")) ↔
        ∀ pre post modname val, FirstArg (str "loader") (str "x -sigma0") pre post →
          argOption (str "loader") post = .value modname val → ValueEnds val) :=
  parses_iff (str "-sigma0") (str "loader") (by decide +kernel)

/-- An option in the middle of a word is looked at again and again. -/
theorem not_parses_modaddr : ¬ ∀ cmdline arg name : List (BitVec 8), 0 ∉ cmdline →
    (∃ o, Returns (checkArg cmdline arg) o ∧ FirstAtWord arg cmdline o) ∧
      (∀ (cmdlines : Nat → List (BitVec 8)) (b : BootMods), ∃ out,
        Returns (fun fuel => startupPatches cmdlines fuel b cmdline) out ∧ out ≠ .overrun) ∧
      ∃ o, Returns (getArgModule name cmdline) o ∧ o.Right name cmdline := by
  intro H
  have hends := (H (str "x-modaddr") (str "-modaddr") [] (by decide +kernel)).1
  have hword := checkArg_iff.mp hends (str "x") (str "-modaddr") (by decide +kernel)
  exact absurd hword (by decide +kernel)

end L4env.Bootstrap
