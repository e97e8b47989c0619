import L4env.Bootstrap.MoveModules
import L4env.Util.Search

/-!
# Patching of boot modules

The option `-patch=<module_name>,<variable>=<value>,...` of the command line overwrites texts in a boot
module (`bootstrap/server/src/patch.c`).

A pointer into a string is the rest of the string from there on, without its terminator. There is no result
if a loop takes more than `fuel` rounds.
-/

namespace L4env.Bootstrap

/-- The characters of a string constant. -/
def str (s : String) : List (BitVec 8) := s.toList.map fun c => BitVec.ofNat 8 c.toNat

/-- `isspace` -/
def isSpace (c : BitVec 8) : Bool := c = 0x20 || 0x09 ≤ c && c ≤ 0x0d

/-- `strchr`: the text before the character and from the character on. -/
def strchr (s : List (BitVec 8)) (c : BitVec 8) : Option (List (BitVec 8) × List (BitVec 8)) := search [c] s

/-- `l4_round_page` -/
def roundPage (a : Nat) : Nat := Word.roundUp a 4096

/-! ## Search of the module -/

/-- The inner loop of `search_module` from `m` on, where `behind` is the length of the string from its
first blank on, and `first` is the character at the name, which may be empty. -/
def nameOccurs (name : List (BitVec 8)) (first : BitVec 8) (behind : Nat) : List (BitVec 8) → Bool
  | [] => false
  | c :: m =>
    if c = first then
      if m.length + 1 < behind + name.length then false
      else if name.isPrefixOf (c :: m) then true
      else nameOccurs name first behind m
    else nameOccurs name first behind m

/-- `search_module`: the first module whose name contains the name. -/
def searchModule (cmdlines : Nat → List (BitVec 8)) (modsCount : Nat) (name : List (BitVec 8))
    (first : BitVec 8) : Option Nat :=
  (List.range modsCount).find? fun i =>
    let c := cmdlines i
    nameOccurs name first (c.dropWhile (· ≠ 0x20)).length c

/-! ## Replacement -/

/-- The bytes of memory from an address on. -/
def readBytes (m : Nat → BitVec 8) (addr n : Nat) : List (BitVec 8) := (List.range n).map fun k => m (addr + k)

/-- `memcpy` from a text. -/
def writeBytes (m : Nat → BitVec 8) (addr : Nat) (l : List (BitVec 8)) : Nat → BitVec 8 :=
  fun x => if addr ≤ x ∧ x < addr + l.length then l.getD (x - addr) 0 else m x

/-- The progress of the replacements. `written` is no data of the bootstrapper: the highest end of what was
written. -/
structure Replacing where
  memory : Nat → BitVec 8
  modEnd : Nat
  maxPatchSize : Nat
  written : Nat

/-- The text of `varSize` bytes at `modPtr` is replaced by the value. -/
def Replacing.replace (r : Replacing) (modPtr varSize : Nat) (val : List (BitVec 8)) : Replacing :=
  let m := copyBytes r.memory (modPtr + val.length) (modPtr + varSize) (r.modEnd - modPtr - varSize)
  let m :=
    if val.length < varSize then fillBytes m (r.modEnd - varSize + val.length) (varSize - val.length) 0
    else m
  let modEnd := r.modEnd - varSize + val.length
  { memory := writeBytes m modPtr val
    modEnd
    maxPatchSize := Word.sub (Word.add r.maxPatchSize varSize) val.length
    written := max r.written (max r.modEnd modEnd) }

/-- The loop over the occurrences of a variable from `modPtr` on, and whether the space was enough. -/
def replaceLoop (var val : List (BitVec 8)) : Nat → Replacing → Nat → Option (Bool × Replacing)
  | 0, _, _ => none
  | fuel + 1, r, modPtr =>
    match search var (readBytes r.memory modPtr (r.modEnd - modPtr)) with
    | none => some (true, r)
    | some (pre, _) =>
      let modPtr := modPtr + pre.length
      if var.length < val.length ∧ r.maxPatchSize < val.length - var.length then some (false, r)
      else replaceLoop var val fuel (r.replace modPtr var.length val) (modPtr + val.length)

/-! ## The option -/

/-- `"` and `'` -/
def isQuote (c : BitVec 8) : Bool := c = 0x22 || c = 0x27

/-- The value at `s`, and the pointer behind it: there is none if it is behind the end of the string. -/
def parseValue (s : List (BitVec 8)) : List (BitVec 8) × Option (List (BitVec 8)) :=
  match s with
  | [] => ([], some [])
  | c :: s =>
    if isQuote c then
      match s.dropWhile (· ≠ c) with
      | [] => (s, none)
      | _ :: rest => (s.takeWhile (· ≠ c), some rest)
    else
      ((c :: s).takeWhile fun x => !isSpace x && x ≠ 0x2c,
        some ((c :: s).dropWhile fun x => !isSpace x && x ≠ 0x2c))

/-- How `patch_module` ends. A panic for want of space, and a result, say which module was patched. -/
inductive Patched where
  | panic
  | overrun
  | noSpace (k : Nat) (r : Replacing)
  | ok (k : Nat) (r : Replacing) (s : List (BitVec 8))

/-- The loop over the variables. The test for a bad variable name compares with the end of the module name,
so it never fails. -/
def patchLoop (k modBeg : Nat) : Nat → Replacing → List (BitVec 8) → Option Patched
  | 0, _, _ => none
  | fuel + 1, r, s =>
    match s with
    | [] => some (.ok k r [])
    | c :: s =>
      if c ≠ 0x2c then some (.ok k r (c :: s))
      else
        match strchr s 0x3d with
        | none => some .panic
        | some (var, s) => do
          let (val, rest) := parseValue s.tail
          let (enough, r) ← replaceLoop var val fuel r modBeg
          if enough then
            match rest with
            | none => some .overrun
            | some s => patchLoop k modBeg fuel r s
          else some (.noSpace k r)

/-- The name has a tab, a blank, `=` or `*`. -/
def badName (name : List (BitVec 8)) : Bool := name.any fun c => c = 0x09 || c = 0x20 || c = 0x3d || c = 0x2a

/-- `patch_module` for the option at `s`. The length of `-patch=` is taken to be eight. -/
def patchModule (cmdlines : Nat → List (BitVec 8)) (fuel : Nat) (b : BootMods) (s : List (BitVec 8)) :
    Option Patched :=
  if s.length < 8 then some .overrun
  else
    let nam := s.drop 8
    match strchr nam 0x2c with
    | none => some .panic
    | some (name, rest) =>
      if badName name then some .panic
      else
        match searchModule cmdlines b.modsCount name (nam.headD 0) with
        | none => some .panic
        | some k =>
          let m := b.mods k
          patchLoop k m.modStart fuel
            { memory := b.memory
              modEnd := m.modEnd
              maxPatchSize := Word.sub (Word.sub (roundPage m.modEnd) m.modEnd) 1
              written := 0 }
            rest

/-- The modules after the patch of the module `k`. -/
def BootMods.patched (b : BootMods) (k : Nat) (r : Replacing) : BootMods :=
  { b with
    memory := r.memory
    mods := Function.update b.mods k { modStart := (b.mods k).modStart, modEnd := r.modEnd } }

end L4env.Bootstrap
