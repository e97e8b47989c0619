import L4env.Bootstrap.PatchExact

/-!
# The command line of the bootstrapper

`check_arg` looks for an option, the startup patches modules as the options `-patch=` say
(`bootstrap/server/src/startup.cc`), and `get_arg_module` looks for the command line of a module
(`bootstrap/server/src/patch.c`).

A place on the command line is the text before it and the text from there on, or its index where the command
line is written to. There is no result if a loop takes more than `fuel` rounds.
-/

namespace L4env.Bootstrap

/-! ## Options -/

/-- `s == cmdline || isspace(s[-1])` for the place behind a text. -/
def atWord (before : List (BitVec 8)) : Bool :=
  match before.getLast? with
  | none => true
  | some c => isSpace c

/-- The loop of `check_arg` from `s` on. A search starts where the search before it ended. -/
def checkArgLoop (arg : List (BitVec 8)) :
    Nat → List (BitVec 8) → List (BitVec 8) → Option (Option (List (BitVec 8) × List (BitVec 8)))
  | 0, _, _ => none
  | fuel + 1, before, s =>
    match search arg s with
    | none => some none
    | some (pre, s) =>
      let before := before ++ pre
      if atWord before then some (some (before, s)) else checkArgLoop arg fuel before s

/-- `check_arg` -/
def checkArg (cmdline arg : List (BitVec 8)) (fuel : Nat) : Option (Option (List (BitVec 8) × List (BitVec 8))) :=
  checkArgLoop arg fuel [] cmdline

/-! ## Patches -/

/-- How the patches of the startup end. -/
inductive Patches where
  | panic
  | overrun
  | ok (b : BootMods)

/-- The loop over the options `-patch=` of `startup`. -/
def startupPatches (cmdlines : Nat → List (BitVec 8)) : Nat → BootMods → List (BitVec 8) → Option Patches
  | 0, _, _ => none
  | fuel + 1, b, s => do
    match ← checkArg s (str "-patch=") fuel with
    | none => some (.ok b)
    | some (_, s) =>
      match ← patchModule cmdlines fuel b s with
      | .panic => some .panic
      | .noSpace .. => some .panic
      | .overrun => some .overrun
      | .ok k r s => startupPatches cmdlines fuel (b.patched k r) s

/-! ## Command lines of modules -/

/-- What the loop of `get_arg_module` finds: the command line, and where the value starts. -/
inductive ArgFound where
  | panic
  | none (cmdline : List (BitVec 8))
  | some (cmdline : List (BitVec 8)) (valBeg : Nat)

/-- The loop of `get_arg_module` from the index `s` on. The name ends with a zero while it is compared. -/
def argLoop (name : List (BitVec 8)) : Nat → List (BitVec 8) → Nat → Option ArgFound
  | 0, _, _ => none
  | fuel + 1, cmdline, s =>
    match search (str " -arg=") (cmdline.drop s) with
    | none => some (.none cmdline)
    | some (pre, _) =>
      let s := s + pre.length + 6
      match strchr (cmdline.drop s) 0x2c with
      | none => some .panic
      | some (modname, _) =>
        let nameEnd := s + modname.length
        let cut := cmdline.set nameEnd 0
        let modname := (cut.drop s).takeWhile (· ≠ 0)
        if modname.any isSpace then some .panic
        else if (search modname name).isSome then some (.some (cut.set nameEnd 0x2c) (nameEnd + 1))
        else argLoop name fuel (cut.set nameEnd 0x2c) s

/-- How `get_arg_module` ends, with the command line, and with the start of the value and its size. -/
inductive ArgResult where
  | panic
  | null (cmdline : List (BitVec 8))
  | value (cmdline : List (BitVec 8)) (valBeg size : Nat)

/-- The end of a value in `get_arg_module`, where there is no quote if it is zero. -/
def inValue (quote c : BitVec 8) : Bool := quote = 0 && !isSpace c || c ≠ quote

/-- `get_arg_module` for a boot information with a command line. -/
def getArgModule (name cmdline : List (BitVec 8)) (fuel : Nat) : Option ArgResult := do
  match ← argLoop name fuel cmdline 0 with
  | .panic => some .panic
  | .none cmdline => some (.null cmdline)
  | .some cmdline valBeg =>
    let first := (cmdline.drop valBeg).headD 0
    if isQuote first then
      some (.value cmdline (valBeg + 1) ((cmdline.drop (valBeg + 1)).takeWhile (inValue first)).length)
    else some (.value cmdline valBeg ((cmdline.drop valBeg).takeWhile (inValue 0)).length)

end L4env.Bootstrap
