import L4env.Bootstrap.PatchRun
import Mathlib.Data.List.TakeWhile

/-!
# Patching of boot modules: the option

A well-formed option names a module and has pairs of a variable and a value. The code takes the length of
`-patch=` to be eight, so the name that it looks for lacks its first character.
-/

namespace L4env.Bootstrap

variable {cmdlines : Nat → List (BitVec 8)} {name c rest R : List (BitVec 8)} {a : BitVec 8}
  {i k n beg count L : Nat} {r r' r'' : Replacing} {ok : Bool} {x : Nat × Nat}
  {steps steps' : List (Nat × Nat)}

/-! ## Search of the module -/

/-- The name of a module: the first word of its command line. -/
def moduleName (c : List (BitVec 8)) : List (BitVec 8) := c.takeWhile (· ≠ 0x20)

/-- `k` is the first module whose name contains the name. -/
structure Named (cmdlines : Nat → List (BitVec 8)) (count : Nat) (name : List (BitVec 8)) (k : Nat) : Prop where
  lt : k < count
  occurs : name <:+: moduleName (cmdlines k)
  first : ∀ i < k, ¬ name <:+: moduleName (cmdlines i)

theorem nameOccurs_behind (h : c.length < n + name.length) : nameOccurs name a n c = false := by
  induction c with
  | nil => rfl
  | cons x c ih =>
    simp only [List.length_cons] at h
    rw [nameOccurs, if_pos h]
    split
    · rfl
    · exact ih (by omega)

theorem nameOccurs_iff (a : BitVec 8) (name word behind : List (BitVec 8)) :
    nameOccurs (a :: name) a behind.length (word ++ behind) = true ↔ a :: name <:+: word := by
  induction word with
  | nil =>
    rw [List.nil_append, nameOccurs_behind (by simp)]
    simp
  | cons x word ih =>
    rw [List.cons_append, nameOccurs]
    split
    · rename_i hx
      split
      · rename_i hlen
        refine ⟨fun h => absurd h Bool.false_ne_true, fun h => absurd h.length_le ?_⟩
        simp only [List.length_cons, List.length_append] at hlen ⊢
        omega
      · rename_i hlen
        have hshort : (a :: name).length ≤ (x :: word).length := by
          simp only [List.length_cons, List.length_append] at hlen ⊢
          omega
        have hprefix : a :: name <+: x :: (word ++ behind) ↔ a :: name <+: x :: word :=
          ⟨fun h => List.prefix_of_prefix_length_le h (List.prefix_append (x :: word) behind) hshort,
            fun h => List.prefix_append_of_prefix h⟩
        rw [List.infix_cons_iff, ← hprefix, ← ih, ← List.isPrefixOf_iff_prefix]
        cases (a :: name).isPrefixOf (x :: (word ++ behind)) with
        | true => exact ⟨fun _ => .inl rfl, fun _ => rfl⟩
        | false => exact ⟨.inr, fun h => h.resolve_left Bool.false_ne_true⟩
    · rename_i hx
      rw [ih, List.infix_cons_iff]
      refine ⟨.inr, fun h => h.resolve_left fun hp => hx ?_⟩
      exact (List.cons_prefix_cons.mp hp).1.symm

/-- For the empty name the code stops at the character behind it. -/
theorem nameOccurs_empty (word : List (BitVec 8)) {behind : List (BitVec 8)} (h : behind.head? ≠ some a) :
    nameOccurs [] a behind.length (word ++ behind) = true ↔ [a] <:+: word := by
  induction word with
  | nil =>
    have hno : nameOccurs [] a behind.length behind = false := by
      cases behind with
      | nil => rfl
      | cons x behind =>
        have hx : x ≠ a := fun hx => h (congrArg some hx)
        rw [nameOccurs, if_neg hx]
        exact nameOccurs_behind (Nat.lt_succ_self _)
    rw [List.nil_append, hno]
    simp
  | cons x word ih =>
    rw [List.cons_append, nameOccurs, List.infix_cons_iff]
    split
    · rename_i hx
      have hlen : ¬ (word ++ behind).length + 1 < behind.length + ([] : List (BitVec 8)).length := by
        rw [List.length_append, List.length_nil]
        omega
      rw [if_neg hlen, hx]
      exact ⟨fun _ => .inl (List.prefix_append [a] word), fun _ => rfl⟩
    · rename_i hx
      rw [ih]
      exact ⟨.inr, fun h => h.resolve_left fun hp => hx (List.cons_prefix_cons.mp hp).1.symm⟩

/-- The name that the code looks for: the name without its first character, and the comma behind it if there is
no other character. -/
def soughtName (name : List (BitVec 8)) : List (BitVec 8) := if name.tail = [] then [0x2c] else name.tail

theorem searchModule_iff : searchModule cmdlines count name.tail ((name.tail ++ [0x2c]).headD 0) = some k ↔
    Named cmdlines count (soughtName name) k := by
  have hoccurs : ∀ i, nameOccurs name.tail ((name.tail ++ [0x2c]).headD 0)
      ((cmdlines i).dropWhile (· ≠ 0x20)).length (cmdlines i) = true ↔
        soughtName name <:+: moduleName (cmdlines i) := fun i => by
    have hsplit := List.takeWhile_append_dropWhile (p := (· ≠ (0x20 : BitVec 8))) (l := cmdlines i)
    rw [← moduleName] at hsplit
    rw [soughtName]
    cases htail : name.tail with
    | nil =>
      have hblank : ((cmdlines i).dropWhile (· ≠ 0x20)).head? ≠ some 0x2c := fun hcomma => by
        have hstop := List.head?_dropWhile_not (· ≠ (0x20 : BitVec 8)) (cmdlines i)
        rw [hcomma] at hstop
        exact absurd hstop (by decide)
      have h := nameOccurs_empty (moduleName (cmdlines i)) hblank
      rwa [hsplit] at h
    | cons a tail =>
      have h := nameOccurs_iff a tail (moduleName (cmdlines i))
        ((cmdlines i).dropWhile (· ≠ 0x20))
      rwa [hsplit] at h
  rw [searchModule, List.find?_range_eq_some]
  simp only [Bool.not_eq_true', ← Bool.not_eq_true, hoccurs, List.mem_range]
  exact ⟨fun ⟨h1, h2, h3⟩ => ⟨h2, h1, h3⟩, fun h => ⟨h.occurs, h.lt, h.first⟩⟩

/-- `patch_module` for a good name. -/
theorem patchModule_search {b : BootMods} {s post : List (BitVec 8)} {fuel : Nat} (hlen : 8 ≤ s.length)
    (hs : strchr (s.drop 8) 0x2c = some (name, post)) (hname : badName name = false) :
    patchModule cmdlines fuel b s =
      match searchModule cmdlines b.modsCount name ((s.drop 8).headD 0) with
      | none => some .panic
      | some k => patchLoop k (b.mods k).modStart fuel
          { memory := b.memory
            modEnd := (b.mods k).modEnd
            maxPatchSize := Word.sub (Word.sub (roundPage (b.mods k).modEnd) (b.mods k).modEnd) 1
            written := 0 } post := by
  rw [patchModule, if_neg (by omega)]
  dsimp only
  rw [hs]
  dsimp only
  rw [hname]
  exact if_neg Bool.false_ne_true

/-! ## The variables -/

/-- A variable with its value, and the quotes around the value. -/
structure Assignment where
  var : List (BitVec 8)
  val : List (BitVec 8)
  quote : Option (BitVec 8)

/-- The value in the option. -/
def Assignment.valText (p : Assignment) : List (BitVec 8) :=
  match p.quote with
  | none => p.val
  | some q => q :: p.val ++ [q]

def Assignment.text (p : Assignment) : List (BitVec 8) := 0x2c :: p.var ++ 0x3d :: p.valText

/-- A plain value ends with a blank or a comma and does not start with a quote; a quoted value does not have
the quote. -/
structure Assignment.WellFormed (p : Assignment) : Prop where
  var : p.var ≠ [] ∧ 0x3d ∉ p.var
  val : match p.quote with
    | none => (∀ c ∈ p.val, isSpace c = false ∧ c ≠ 0x2c) ∧ ∀ c ∈ p.val.head?, isQuote c = false
    | some q => isQuote q = true ∧ q ∉ p.val
  size : p.val.length < 2 ^ 32

/-- A text behind a value: it does not go on with the value. -/
def Behind (rest : List (BitVec 8)) : Prop := ∀ c ∈ rest.head?, isSpace c = true ∨ c = 0x2c

theorem takeWhile_val {f : BitVec 8 → Bool} {l : List (BitVec 8)} (rest : List (BitVec 8)) (h : ∀ c ∈ l, f c = true)
    (hrest : ∀ c ∈ rest.head?, f c = false) :
    (l ++ rest).takeWhile f = l ∧ (l ++ rest).dropWhile f = rest := by
  induction l with
  | nil =>
    cases rest with
    | nil => exact ⟨rfl, rfl⟩
    | cons c rest =>
      have hc : f c = false := hrest c rfl
      simp [hc]
  | cons c l ih =>
    have hc : f c = true := h c List.mem_cons_self
    obtain ⟨h1, h2⟩ := ih fun x hx => h x (List.mem_cons_of_mem c hx)
    rw [List.cons_append, List.takeWhile_cons_of_pos hc, List.dropWhile_cons_of_pos hc, h1, h2]
    exact ⟨rfl, rfl⟩

theorem Behind.not_quote (h : Behind rest) : ∀ c ∈ rest.head?, isQuote c = false := fun c hc => by
  by_contra hquote
  rw [Bool.not_eq_false, isQuote, Bool.or_eq_true, decide_eq_true_iff, decide_eq_true_iff] at hquote
  have hno : ¬ (isSpace c = true ∨ c = 0x2c) := by
    obtain rfl | rfl := hquote <;> decide
  exact hno (h c hc)

theorem parseValue_spec {p : Assignment} (hp : p.WellFormed) (hrest : Behind rest) :
    parseValue (p.valText ++ rest) = (p.val, some rest) := by
  have hval := hp.val
  unfold Assignment.valText
  cases hq : p.quote with
  | none =>
    rw [hq] at hval
    obtain ⟨hplain, hhead⟩ := hval
    have hsplit := takeWhile_val (f := fun x => !isSpace x && x ≠ 0x2c) (l := p.val) rest
      (fun c hc => by rw [(hplain c hc).1, decide_eq_true (hplain c hc).2]; rfl) fun c hc => by
        obtain h | h := hrest c hc <;> simp [h]
    have hfirst : ∀ c ∈ (p.val ++ rest).head?, isQuote c = false := by
      cases hv : p.val with
      | nil => exact hrest.not_quote
      | cons x val => rwa [hv] at hhead
    dsimp only
    cases htext : p.val ++ rest with
    | nil =>
      obtain ⟨hv, rfl⟩ := List.append_eq_nil_iff.mp htext
      rw [hv, parseValue]
    | cons c s =>
      rw [htext] at hfirst hsplit
      have hc : ¬ isQuote c = true := by rw [hfirst c rfl]; exact Bool.false_ne_true
      rw [parseValue, if_neg hc, hsplit.1, hsplit.2]
  | some q =>
    rw [hq] at hval
    obtain ⟨hquote, hnot⟩ := hval
    have hsplit := takeWhile_val (f := fun x => x ≠ q) (l := p.val) (q :: rest)
      (fun c hc => decide_eq_true fun h : c = q => hnot (h ▸ hc)) (by simp)
    dsimp only
    rw [List.cons_append, List.cons_append, List.append_assoc, List.singleton_append, parseValue,
      if_pos hquote, hsplit.1, hsplit.2]

/-- The text of a module after all pairs. -/
def replacePairs (R : List (BitVec 8)) (ps : List Assignment) : List (BitVec 8) :=
  ps.foldl (fun R p => replaceAll p.var p.val R) R

/-- The sizes of the module before and after each replacement. -/
def sizesPairs : List (BitVec 8) → List Assignment → List (Nat × Nat)
  | _, [] => []
  | R, p :: ps => sizes p.var p.val R ++ sizesPairs (replaceAll p.var p.val R) ps

theorem sizesPairs_chained {ps : List Assignment} (hps : ∀ p ∈ ps, p.WellFormed) :
    Chained R.length (sizesPairs R ps) := by
  induction ps generalizing R with
  | nil => trivial
  | cons p ps ih =>
    obtain ⟨h1, h2⟩ := sizesFrom_chained (hps p List.mem_cons_self).var.1 p.val (le_refl R.length)
    have hlast : lastOf R.length (sizes p.var p.val R) = (replaceAll p.var p.val R).length := by
      rw [sizes, replaceAll]
      omega
    refine h1.append ?_
    rw [← sizes, hlast]
    exact ih fun q hq => hps q (List.mem_cons_of_mem p hq)

theorem sizesPairs_growth {ps : List Assignment} (hps : ∀ p ∈ ps, p.WellFormed) :
    ∀ x ∈ sizesPairs R ps, x.2 - x.1 < 2 ^ 32 := by
  induction ps generalizing R with
  | nil => nofun
  | cons p ps ih =>
    refine List.forall_mem_append.mpr ⟨fun x hx => ?_, ih fun q hq => hps q (List.mem_cons_of_mem p hq)⟩
    exact (sizesFrom_growth R 0 R.length x hx).trans_lt (hps p List.mem_cons_self).size

/-! ## The loop over the variables -/

theorem Looped.append {l l' : List (BitVec 8)} (h : Looped r r' L beg beg l steps true)
    (h' : Looped r' r'' L beg beg l' steps' ok) : Looped r r'' L beg beg l' (steps ++ steps') ok := by
  have hall := h.enough.mp rfl
  have hmono := ((h'.written _).mp le_rfl).1
  refine ⟨?_, h'.text, fun a ha => ?_, fun B => ?_⟩
  · rw [h'.enough, List.forall_mem_append]
    exact ⟨fun hsteps => ⟨hall, hsteps⟩, And.right⟩
  · rw [h'.frame a ha, h.frame a (by omega)]
  · rw [h'.written, h.written, List.takeWhile_append_of_pos (by simpa using hall), List.forall_mem_append,
      List.takeWhile_eq_self_iff.mpr (by simpa using hall), and_assoc]

theorem Looped.stop {l l' : List (BitVec 8)} (h : Looped r r' L beg beg l steps false) (steps' : List (Nat × Nat)) :
    Looped r r' L beg beg l' (steps ++ steps') false := by
  have hno : ¬ ∀ x ∈ steps, SpaceOk L beg x := fun hall => Bool.false_ne_true (h.enough.mpr hall)
  refine ⟨?_, fun h => absurd h Bool.false_ne_true, h.frame, fun B => ?_⟩
  · rw [List.forall_mem_append]
    exact ⟨fun h => absurd h Bool.false_ne_true, fun hall => absurd hall.1 hno⟩
  · rw [h.written, List.takeWhile_append, if_neg]
    intro hlen
    refine hno fun x hx => ?_
    have heq := (List.takeWhile_prefix _).eq_of_length hlen
    rw [← heq] at hx
    simpa using List.mem_takeWhile_imp hx

/-- The option after the module name. -/
def pairsText (ps : List Assignment) : List (BitVec 8) := ps.flatMap Assignment.text

theorem behind_pairs {ps : List Assignment} (h : Behind rest) : Behind (pairsText ps ++ rest) := by
  cases ps with
  | nil => exact h
  | cons p ps => exact fun c hc => .inr (Option.some.inj hc).symm

/-- The round of the loop for a variable. -/
theorem patchLoop_var {s var post : List (BitVec 8)} (hs : strchr s 0x3d = some (var, post)) (fuel : Nat) :
    patchLoop k beg (fuel + 1) r (0x2c :: s) =
      (replaceLoop var (parseValue post.tail).1 fuel r beg >>= fun x => if x.1 then
        match (parseValue post.tail).2 with
        | none => some .overrun
        | some s => patchLoop k beg fuel x.2 s
      else some (.noSpace k x.2)) := by
  rw [patchLoop]
  dsimp only
  rw [hs]
  exact if_neg (not_not.mpr rfl)

theorem patchLoop_spec {ps : List Assignment} (hps : ∀ p ∈ ps, p.WellFormed)
    (hrest : ∀ c ∈ rest.head?, isSpace c = true) (hR : Holds r.memory beg R) (hend : r.modEnd = beg + R.length)
    (hmax : r.maxPatchSize = room L r.modEnd) :
    ∃ ok r', Returns (fun fuel => patchLoop k beg fuel r (pairsText ps ++ rest))
        (if ok then .ok k r' rest else .noSpace k r') ∧
      Looped r r' L beg beg (replacePairs R ps) (sizesPairs R ps) ok := by
  induction ps generalizing r R with
  | nil =>
    refine ⟨true, r, (Returns.const _).round fun fuel => ?_,
      ⟨by simp [sizesPairs], fun _ => ⟨hR, hend, hmax⟩, fun _ _ => rfl, by simp [sizesPairs]⟩⟩
    cases rest with
    | nil => rfl
    | cons c rest =>
      have hc : c ≠ 0x2c := fun h => absurd (hrest c rfl) (h ▸ by decide)
      exact if_pos hc
  | cons p ps ih =>
    have hp := hps p List.mem_cons_self
    have hbehind : Behind (pairsText ps ++ rest) := behind_pairs fun c hc => .inl (hrest c hc)
    obtain ⟨ok, r', hret, hloop⟩ := replaceLoop_spec hp.var.1 p.val hR hend hmax le_rfl
    rw [hend, Nat.add_sub_cancel_left] at hloop
    have htext : pairsText (p :: ps) ++ rest =
        0x2c :: (p.var ++ 0x3d :: (p.valText ++ (pairsText ps ++ rest))) := by
      simp [pairsText, Assignment.text]
    have hround : ∀ fuel, patchLoop k beg (fuel + 1) r (pairsText (p :: ps) ++ rest) =
        (replaceLoop p.var p.val fuel r beg >>= fun x => if x.1 then
          patchLoop k beg fuel x.2 (pairsText ps ++ rest) else some (.noSpace k x.2)) := fun fuel => by
      rw [htext, patchLoop_var (search_char hp.var.2 _), List.tail_cons, parseValue_spec hp hbehind]
    cases ok with
    | false =>
      refine ⟨false, r', Returns.round ?_ hround, hloop.stop _⟩
      exact hret.bind (Returns.const _)
    | true =>
      obtain ⟨hR', hend', hmax'⟩ := hloop.text rfl
      obtain ⟨ok, r'', hret', hloop'⟩ := ih (fun q hq => hps q (List.mem_cons_of_mem p hq)) hR' hend' hmax'
      refine ⟨ok, r'', Returns.round ?_ hround, hloop.append hloop'⟩
      exact hret.bind hret'

end L4env.Bootstrap
