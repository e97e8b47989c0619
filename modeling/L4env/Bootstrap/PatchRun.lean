import L4env.Bootstrap.Patch

/-!
# Patching of boot modules: what a patch does

A patch replaces all occurrences of the variables by their values, as long as there is space in the last page
of the module. Two slips bear on the space: a module that ends at the end of a page seems to have space for
four gigabytes, and a text that just fills the page is refused.
-/

namespace L4env.Bootstrap

variable {m m' : Nat → BitVec 8} {a addr beg i k n ptr x y B L : Nat} {l var val post pre R : List (BitVec 8)}
  {r r' : Replacing}

/-! ## Bytes of memory -/

@[simp] theorem readBytes_length : (readBytes m a n).length = n := by simp [readBytes]

theorem readBytes_append (m : Nat → BitVec 8) (a x y : Nat) :
    readBytes m a (x + y) = readBytes m a x ++ readBytes m (a + x) y := by
  simp [readBytes, List.range_add, Nat.add_assoc]

theorem readBytes_congr (h : ∀ k < n, m' (a + k) = m (addr + k)) : readBytes m' a n = readBytes m addr n :=
  List.map_congr_left fun k hk => h k (List.mem_range.mp hk)

theorem readBytes_writeBytes (h : ∀ k < l.length, m' (a + k) = writeBytes m a l (a + k)) :
    readBytes m' a l.length = l := by
  refine List.ext_getElem (by simp) fun k h1 h2 => ?_
  have hk : k < l.length := h2
  simp [readBytes, h k hk, writeBytes, hk]

/-- The bytes at an address are a text. -/
def Holds (m : Nat → BitVec 8) (a : Nat) (l : List (BitVec 8)) : Prop := readBytes m a l.length = l

theorem Holds.append (h : Holds m a (pre ++ post)) : Holds m a pre ∧ Holds m (a + pre.length) post := by
  rw [Holds, List.length_append, readBytes_append] at h
  exact List.append_inj h (by simp)

theorem Holds.of_append (h : Holds m a pre) (h' : Holds m (a + pre.length) post) :
    Holds m a (pre ++ post) := by
  rw [Holds, List.length_append, readBytes_append, h, h']

theorem Holds.congr (h : Holds m a l) (hm : ∀ k < l.length, m' (addr + k) = m (a + k)) :
    Holds m' addr l := (readBytes_congr hm).trans h

/-! ## A replacement -/

/-- What a replacement at `ptr` does, with the text `post` behind the variable. -/
structure Replaced (r r' : Replacing) (ptr varSize : Nat) (val post : List (BitVec 8)) : Prop where
  value : Holds r'.memory ptr val
  behind : Holds r'.memory (ptr + val.length) post
  modEnd : r'.modEnd = ptr + val.length + post.length
  frame : ∀ a, a < ptr ∨ r'.written ≤ a → r'.memory a = r.memory a
  maxPatchSize : r'.maxPatchSize = Word.sub (Word.add r.maxPatchSize varSize) val.length
  written : r'.written = max r.written (max r.modEnd r'.modEnd)

theorem replace_spec (val : List (BitVec 8)) (h : Holds r.memory (ptr + n) post) (hend : r.modEnd = ptr + n + post.length) :
    Replaced r (r.replace ptr n val) ptr n val post := by
  have hsize : r.modEnd - ptr - n = post.length := by omega
  refine ⟨readBytes_writeBytes fun k hk => rfl, ?_, ?_, fun a ha => ?_, rfl, rfl⟩
  · refine h.congr fun k hk => ?_
    have hwrite : ¬ (ptr ≤ ptr + val.length + k ∧ ptr + val.length + k < ptr + val.length) := by omega
    have hfill : ¬ (r.modEnd - n + val.length ≤ ptr + val.length + k ∧
        ptr + val.length + k < r.modEnd - n + val.length + (n - val.length)) := by omega
    have hcopy : ptr + val.length ≤ ptr + val.length + k ∧
        ptr + val.length + k < ptr + val.length + post.length := by omega
    have hsrc : ptr + n + (ptr + val.length + k - (ptr + val.length)) = ptr + n + k := by omega
    simp only [Replacing.replace, writeBytes, if_neg hwrite]
    split
    · rw [fillBytes, if_neg hfill, hsize, copyBytes, if_pos hcopy, hsrc]
    · rw [hsize, copyBytes, if_pos hcopy, hsrc]
  · simp only [Replacing.replace]
    omega
  · simp only [Replacing.replace] at ha ⊢
    have hwrite : ¬ (ptr ≤ a ∧ a < ptr + val.length) := by omega
    have hfill : ¬ (r.modEnd - n + val.length ≤ a ∧
        a < r.modEnd - n + val.length + (n - val.length)) := by omega
    have hcopy : ¬ (ptr + val.length ≤ a ∧ a < ptr + val.length + post.length) := by omega
    rw [writeBytes, if_neg hwrite]
    split
    · rw [fillBytes, if_neg hfill, hsize, copyBytes, if_neg hcopy]
    · rw [hsize, copyBytes, if_neg hcopy]

/-! ## The loop over the occurrences -/

/-- The space that the code sees for a module that ends at `e` in a page that ends at `L`. -/
def room (L e : Nat) : Nat := Word.sub (Word.sub L e) 1

/-- The replacement that changes the size of the module passes the test of the code. -/
def SpaceOk (L beg : Nat) (x : Nat × Nat) : Prop := ¬ (x.1 < x.2 ∧ room L (beg + x.1) < x.2 - x.1)

instance (L beg : Nat) : DecidablePred (SpaceOk L beg) := fun _ => inferInstanceAs (Decidable (¬ _))

theorem room_replace {e e' : Nat} (h : e' + x = e + y) :
    Word.sub (Word.add (room L e) x) y = room L e' := by
  simp only [room, Word.sub, Word.add]
  omega

/-- The end of the loop, with or without enough space: the text behind `ptr`, and the highest end of what was
written by the replacements that pass the test. -/
structure Looped (r r' : Replacing) (L beg ptr : Nat) (l : List (BitVec 8)) (steps : List (Nat × Nat))
    (ok : Bool) : Prop where
  enough : ok = true ↔ ∀ x ∈ steps, SpaceOk L beg x
  text : ok = true → Holds r'.memory ptr l ∧ r'.modEnd = ptr + l.length ∧ r'.maxPatchSize = room L r'.modEnd
  frame : ∀ a, a < ptr ∨ r'.written ≤ a → r'.memory a = r.memory a
  written : ∀ B, r'.written ≤ B ↔ r.written ≤ B ∧
    ∀ x ∈ steps.takeWhile (fun x => SpaceOk L beg x), beg + x.1 ≤ B ∧ beg + x.2 ≤ B

theorem replaceLoop_spec (hvar : var ≠ []) (val : List (BitVec 8)) (hR : Holds r.memory ptr R)
    (hend : r.modEnd = ptr + R.length) (hmax : r.maxPatchSize = room L r.modEnd) (hbeg : beg ≤ ptr) :
    ∃ ok r', Returns (fun fuel => replaceLoop var val fuel r ptr) (ok, r') ∧
      Looped r r' L beg ptr (replaceFrom var val R 0) (sizesFrom var val R 0 (r.modEnd - beg)) ok := by
  induction hlen : R.length using Nat.strong_induction_on generalizing r ptr R with
  | _ len ih =>
    have hread : readBytes r.memory ptr (r.modEnd - ptr) = R := by
      rw [hend, Nat.add_sub_cancel_left]
      exact hR
    cases hs : search var R with
    | none =>
      obtain ⟨htext, hsizes⟩ := replace_none (w := val) (n := r.modEnd - beg) hs
      refine ⟨true, r, (Returns.const _).round fun fuel => ?_, ?_⟩
      · rw [replaceLoop, hread, hs]
      · rw [htext, hsizes]
        exact ⟨by simp, fun _ => ⟨hR, hend, hmax⟩, fun _ _ => rfl, by simp⟩
    | some found =>
      obtain ⟨pre, found⟩ := found
      obtain ⟨rfl, hprefix⟩ := search_some hs
      obtain ⟨post, rfl⟩ := hprefix
      obtain ⟨htext, hsizes⟩ := search_replace (w := val) (n := r.modEnd - beg) hvar hs
      rw [List.drop_left] at htext hsizes
      rw [htext, hsizes]
      have hpos : 0 < var.length := List.length_pos_of_ne_nil hvar
      simp only [List.length_append] at hend hlen
      -- the test of the code is the one on the sizes before and after the replacement
      have htest : SpaceOk L beg (r.modEnd - beg, r.modEnd - beg - var.length + val.length) ↔
          ¬ (var.length < val.length ∧ r.maxPatchSize < val.length - var.length) := by
        have he : beg + (r.modEnd - beg) = r.modEnd := by omega
        rw [SpaceOk, hmax]
        dsimp only
        rw [he]
        omega
      by_cases hok : SpaceOk L beg (r.modEnd - beg, r.modEnd - beg - var.length + val.length)
      · obtain ⟨hpre, hrest⟩ := hR.append
        have hpost := hrest.append.2
        have hdone := replace_spec val hpost (by omega)
        have hsize : (r.replace (ptr + pre.length) var.length val).modEnd - beg =
            r.modEnd - beg - var.length + val.length := by
          rw [hdone.modEnd]
          omega
        have hroom : (r.replace (ptr + pre.length) var.length val).maxPatchSize =
            room L (r.replace (ptr + pre.length) var.length val).modEnd := by
          rw [hdone.maxPatchSize, hmax]
          refine room_replace ?_
          rw [hdone.modEnd]
          omega
        obtain ⟨ok, r', hret, hloop⟩ := ih post.length (by omega) hdone.behind hdone.modEnd hroom (by omega) rfl
        rw [hsize] at hloop
        refine ⟨ok, r', hret.round fun fuel => ?_, ?_⟩
        · rw [replaceLoop, hread, hs]
          exact if_neg (htest.mp hok)
        · have hmono := ((hloop.written _).mp le_rfl).1
          refine ⟨?_, fun h => ?_, fun a ha => ?_, fun B => ?_⟩
          · rw [hloop.enough]
            simp [hok]
          · obtain ⟨hbehind, hend', hmax'⟩ := hloop.text h
            refine ⟨?_, by simp only [List.length_append]; omega, hmax'⟩
            rw [List.append_assoc]
            refine .of_append (hpre.congr fun k hk => ?_) (.of_append (hdone.value.congr fun k hk => ?_) hbehind)
            · rw [hloop.frame _ (.inl (by omega)), hdone.frame _ (.inl (by omega))]
            · exact hloop.frame _ (.inl (by omega))
          · rw [hloop.frame _ (by omega), hdone.frame _ (by omega)]
          · have hbefore : beg + (r.modEnd - beg) = r.modEnd := by omega
            have hbehind : beg + (r.modEnd - beg - var.length + val.length) =
                ptr + pre.length + val.length + post.length := by omega
            rw [hloop.written, hdone.written, List.takeWhile_cons_of_pos (by simpa using hok),
              List.forall_mem_cons, hdone.modEnd, max_le_iff, max_le_iff, hbefore, hbehind]
            tauto
      · refine ⟨false, r, (Returns.const _).round fun fuel => ?_, ?_⟩
        · rw [replaceLoop, hread, hs]
          exact if_pos (not_not.mp (mt htest.mpr hok))
        · refine ⟨by simp [hok], by simp, fun _ _ => rfl, fun B => ?_⟩
          rw [List.takeWhile_cons_of_neg (by simpa using hok)]
          simp

end L4env.Bootstrap
