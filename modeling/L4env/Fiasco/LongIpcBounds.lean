import L4env.Fiasco.LongIpc

/-!
# Long IPC and the end of user memory

A buffer is checked by the superpage it starts in. What follows in the next superpage is accessed as well:
the accesses stay in user memory exactly if the buffers and strings that a transfer gets to end there. They
never leave the windows.
-/

namespace L4env.Fiasco

variable {i : LongIpc} {a n offset vm : Nat}

/-! ## Buffers -/

theorem superpageBase_le (a : Nat) : superpageBase a ≤ a := Nat.div_mul_le_self ..

theorem lt_superpageBase (a : Nat) : a < superpageBase a + superpageSize := by
  unfold superpageBase superpageSize
  omega

theorem add_mod_superpage (a : Nat) : superpageBase a + a % superpageSize = a := Nat.div_add_mod' ..

/-- A valid buffer starts in a superpage that is user memory as a whole. -/
theorem superpageBase_add_le (h : invalidIpcBuffer a = false) :
    superpageBase a + superpageSize ≤ userMax := by
  have := of_decide_eq_false h
  omega

theorem dopeMwords_lt (dope : BitVec 32) : dopeMwords dope < 2 ^ 19 := by
  unfold dopeMwords
  have := (dope &&& 0xffffe000).isLt
  rw [BitVec.toNat_ushiftRight, Nat.shiftRight_eq_div_pow]
  omega

theorem dopeStrings_le (dope : BitVec 32) : dopeStrings dope ≤ 31 := by
  unfold dopeStrings
  have hle : (dope &&& 0x1f00).toNat ≤ 0x1f00 := by
    rw [BitVec.toNat_and]
    exact Nat.and_le_right
  rw [BitVec.toNat_ushiftRight, Nat.shiftRight_eq_div_pow]
  omega

theorem sizeLimit_le (n : BitVec 32) : LongIpc.sizeLimit n ≤ superpageSize := by
  unfold LongIpc.sizeLimit
  split <;> omega

/-! ## Accesses -/

theorem forall_add_lt_iff (h : 0 < n) : (∀ k < n, a + k < userMax) ↔ a + n ≤ userMax := by
  constructor
  · intro hall
    have := hall (n - 1) (by omega)
    omega
  · intro _ k hk
    omega

theorem snd_safe (h : 0 < n) : (Access.snd a n).Safe ↔ a + n ≤ userMax := forall_add_lt_iff h

theorem rcv_safe (h : 0 < n) : (Access.rcv a n).Safe ↔ a + n ≤ userMax := forall_add_lt_iff h

/-- An access through a window that was set up for the superpage of `a` is an access to `a`. -/
theorem window_safe (win : Bool) (vm : Nat) (hn : 0 < n) (hfit : offset + n ≤ superpageSize) :
    (Access.window win (if win then vm else superpageBase a) (if win then superpageBase a else vm)
      (ipcWindow win + a % superpageSize + offset) n).Safe ↔ a + offset + n ≤ userMax := by
  rw [← forall_add_lt_iff hn]
  have hmod : a % superpageSize < superpageSize := Nat.mod_lt _ (by decide)
  have ha := add_mod_superpage a
  refine forall₂_congr fun k hk => ?_
  have hbyte : remoteFaultAddr (if win then vm else superpageBase a) (if win then superpageBase a else vm)
      (ipcWindow win + a % superpageSize + offset + k) = a + offset + k := by
    simp only [superpageSize] at hmod ha hfit ⊢
    cases win <;> simp only [remoteFaultAddr, ipcWindow, if_true, Bool.false_eq_true, if_false] <;>
      split <;> omega
  rw [hbyte]
  refine ⟨fun h => h.2.2, fun h => ⟨by omega, ?_, h⟩⟩
  unfold ipcWindowSize
  omega

namespace LongIpc

theorem rcvMessage_safe (hn : 0 < n) (hfit : offset + n ≤ superpageSize) :
    (i.rcvMessage vm offset n).Safe ↔ i.rcvMsg + offset + n ≤ userMax := by
  unfold rcvMessage
  split
  · exact rcv_safe hn
  · exact window_safe false vm hn hfit

/-! ## Words and flexpages -/

theorem fpageLoop_safe (i : LongIpc) (m s r : Nat)
    (h : 4 ≤ s → 4 ≤ r → i.sndMsg + 12 + 4 * (m + min s r) ≤ userMax) :
    ∀ x ∈ (i.fpageLoop (m + 2) s r).1, x.Safe := by
  induction s using Nat.strong_induction_on generalizing m r with
  | _ s ih =>
  rw [fpageLoop]
  by_cases hgo : 4 ≤ s ∧ 4 ≤ r
  · rw [if_pos hgo]
    have hend := h hgo.1 hgo.2
    have h₁ : (Access.snd (i.sndMsg + 4 * (m + 2 + 1 + 3)) 4).Safe := (snd_safe (by decide)).mpr (by omega)
    have h₂ : (Access.snd (i.sndMsg + 4 * (m + 2 + 3)) 4).Safe := (snd_safe (by decide)).mpr (by omega)
    cases i.fpage (m + 2) with
    | invalid => simpa using h₁
    | failed => simpa using ⟨h₁, h₂⟩
    | mapped =>
      have hrest := ih (s - 2) (by omega) (m + 2) (r - 2) fun _ _ => by omega
      simpa using ⟨h₁, h₂, hrest⟩
  · rw [if_neg hgo]
    simp

/-- The buffers hold the words that are sent, if there are more than in the registers. -/
def WordsFit (i : LongIpc) : Prop :=
  2 < i.minWords → i.sndMsg + 12 + 4 * i.minWords ≤ userMax ∧ i.rcvMsg + 12 + 4 * i.minWords ≤ userMax

theorem minWords_lt (i : LongIpc) : i.minWords < 2 ^ 19 := by
  have h₁ := dopeMwords_lt i.sndDope
  have h₂ := dopeMwords_lt i.rcvWordsDope
  unfold minWords sndWords rcvWords
  split <;> omega

theorem copyWords_safe (i : LongIpc) : (∀ x ∈ i.copyWords, x.Safe) ↔ i.WordsFit := by
  unfold copyWords WordsFit
  have hlt := i.minWords_lt
  by_cases h : 2 < i.minWords
  · have hpos : 0 < 4 * (i.minWords - 2) := by omega
    have hfit : 12 + 8 + 4 * (i.minWords - 2) ≤ superpageSize := by
      unfold superpageSize
      omega
    rw [if_pos h, forall_prop_of_true h]
    simp only [List.forall_mem_cons, List.not_mem_nil, false_imp_iff, implies_true, and_true,
      snd_safe hpos, rcvMessage_safe hpos hfit]
    constructor <;> rintro ⟨h₁, h₂⟩ <;> constructor <;> omega
  · rw [if_neg h]
    simp [h]

theorem fpages_safe (h : i.WordsFit) : ∀ x ∈ i.fpages.1, x.Safe := by
  unfold fpages
  split
  · refine i.fpageLoop_safe 0 _ _ fun h₁ h₂ => ?_
    have hmin : i.minWords = min i.sndWords i.rcvWords := by
      unfold minWords
      split <;> omega
    have := (h (by omega)).1
    omega
  · simp

/-! ## Strings -/

/-- The descriptors of the string are in the buffers' user memory, and so are the bytes that are copied. -/
def StringFits (i : LongIpc) (j : Nat) : Prop :=
  i.sndStrdope j + 8 ≤ userMax ∧ i.rcvMsg + i.rcvStrdope j + 16 ≤ userMax ∧
    ((i.string j).invalid = false → 0 < (i.string j).minSize → (i.sameSpace || (i.string j).window) →
      (i.string j).sndStr.toNat + (i.string j).minSize ≤ userMax ∧
        (i.string j).rcvStr.toNat + (i.string j).minSize ≤ userMax)

/-- The string is copied as a whole, and the next one follows. -/
def Complete (i : LongIpc) (j : Nat) : Prop :=
  (i.string j).invalid = false ∧ (0 < (i.string j).minSize → (i.sameSpace || (i.string j).window) = true) ∧
    (i.string j).fromSize ≤ (i.string j).toSize

theorem minSize_le (d : StringRead) : d.minSize ≤ superpageSize := by
  have h₁ := sizeLimit_le d.sndSize
  have h₂ := sizeLimit_le d.rcvSize
  unfold StringRead.minSize StringRead.fromSize StringRead.toSize
  split <;> omega

theorem copyString_spec (i : LongIpc) (d : StringRead) (vm : Nat) :
    (i.copyString d vm = none ∧ 0 < d.minSize ∧ (i.sameSpace || d.window) = false) ∨
      ∃ l vm', i.copyString d vm = some (l, vm') ∧ (0 < d.minSize → (i.sameSpace || d.window) = true) ∧
        ((∀ x ∈ l, x.Safe) ↔ (0 < d.minSize → d.sndStr.toNat + d.minSize ≤ userMax ∧
          d.rcvStr.toNat + d.minSize ≤ userMax)) := by
  unfold copyString
  by_cases hpos : 0 < d.minSize
  · rw [if_pos hpos]
    cases hs : i.sameSpace with
    | true =>
      refine .inr ⟨_, _, rfl, fun _ => rfl, ?_⟩
      simp [snd_safe hpos, rcv_safe hpos, hpos]
    | false =>
      cases hw : d.window with
      | false => exact .inl ⟨rfl, hpos, rfl⟩
      | true =>
        have hfit : 0 + d.minSize ≤ superpageSize := (Nat.zero_add _).trans_le (minSize_le d)
        have hwin := @window_safe d.rcvStr.toNat _ 0 true (superpageBase i.rcvMsg) hpos hfit
        refine .inr ⟨_, _, rfl, fun _ => rfl, ?_⟩
        simp only [if_true, Nat.add_zero] at hwin
        simp [snd_safe hpos, hwin, hpos]
  · rw [if_neg hpos]
    exact .inr ⟨_, _, rfl, fun h => absurd h hpos, by simp [hpos]⟩

theorem forall_lt_succ_complete {P Q : Nat → Prop} (n j : Nat) :
    (∀ k < n + 1, (∀ l < k, P (j + l)) → Q (j + k)) ↔
      Q j ∧ (P j → ∀ k < n, (∀ l < k, P (j + 1 + l)) → Q (j + 1 + k)) := by
  have hshift (k : Nat) : j + 1 + k = j + (k + 1) := by omega
  constructor
  · intro h
    refine ⟨h 0 (by omega) nofun, fun hP k hk hall => ?_⟩
    rw [hshift]
    refine h (k + 1) (by omega) fun l hl => ?_
    cases l with
    | zero => exact hP
    | succ l =>
      rw [← hshift]
      exact hall l (by omega)
  · rintro ⟨h₀, hS⟩ k hk hall
    cases k with
    | zero => exact h₀
    | succ k =>
      rw [← hshift]
      refine hS (hall 0 (by omega)) k (by omega) fun l hl => ?_
      rw [hshift]
      exact hall (l + 1) (by omega)

/-- The descriptors of a string are read, and the size is written into the receiver's one. -/
theorem descriptors_safe (i : LongIpc) {j : Nat} (hj : j < 31) (vm : Nat) :
    ((∀ x ∈ ([.snd (i.sndStrdope j + 4) 4, .snd (i.sndStrdope j) 4,
        i.rcvMessage vm (i.rcvStrdope j + 12) 4, i.rcvMessage vm (i.rcvStrdope j + 8) 4] : List Access),
      x.Safe) ↔ i.sndStrdope j + 8 ≤ userMax ∧ i.rcvMsg + i.rcvStrdope j + 16 ≤ userMax) ∧
    (i.rcvMsg + i.rcvStrdope j + 16 ≤ userMax → (i.rcvMessage vm (i.rcvStrdope j) 4).Safe) := by
  have hlt := dopeMwords_lt i.rcvWordsDope
  have hoff : i.rcvStrdope j + 16 ≤ superpageSize := by
    unfold rcvStrdope rcvWords superpageSize
    omega
  simp only [List.forall_mem_cons, List.not_mem_nil, false_imp_iff, implies_true, and_true,
    snd_safe (n := 4) (by decide)]
  rw [rcvMessage_safe (by decide) (by omega), rcvMessage_safe (by decide) (by omega),
    rcvMessage_safe (by decide) (by omega)]
  omega

theorem stringLoop_safe (i : LongIpc) (n j vm : Nat) (hj : j + n ≤ 31) :
    (∀ x ∈ i.stringLoop n j vm, x.Safe) ↔
      ∀ k < n, (∀ l < k, i.Complete (j + l)) → i.StringFits (j + k) := by
  induction n generalizing j vm with
  | zero => simp [stringLoop]
  | succ n ih =>
    rw [forall_lt_succ_complete, stringLoop, List.forall_mem_append, (i.descriptors_safe (by omega) vm).1]
    unfold StringFits
    cases hinv : (i.string j).invalid with
    | true =>
      have hnot : ¬i.Complete j := fun h => nomatch hinv.symm.trans h.1
      simp [hnot]
    | false =>
      obtain ⟨hnone, hpos, hok⟩ | ⟨l, vm', hsome, hok, hl⟩ := i.copyString_spec (i.string j) vm
      · have hnot : ¬i.Complete j := fun h => nomatch hok.symm.trans (h.2.1 hpos)
        simp [hnone, hnot, hok]
      · have hwrite := (i.descriptors_safe (j := j) (by omega) vm').2
        have hcopy : (0 < (i.string j).minSize → (i.sameSpace || (i.string j).window) = true →
            (i.string j).sndStr.toNat + (i.string j).minSize ≤ userMax ∧
              (i.string j).rcvStr.toNat + (i.string j).minSize ≤ userMax) ↔ ∀ x ∈ l, x.Safe := by
          rw [hl]
          exact ⟨fun h hpos => h hpos (hok hpos), fun h hpos _ => h hpos⟩
        simp only [hsome, Bool.false_eq_true, if_false, List.forall_mem_append, List.forall_mem_cons,
          forall_true_left, hcopy]
        by_cases hcut : (i.string j).toSize < (i.string j).fromSize
        · have hnot : ¬i.Complete j := fun h => absurd h.2.2 (Nat.not_le.mpr hcut)
          rw [if_pos hcut]
          simp only [hnot, List.not_mem_nil, false_imp_iff, implies_true, and_true]
          constructor
          · rintro ⟨⟨hsnd, hrcv⟩, hl, -⟩
            exact ⟨hsnd, hrcv, hl⟩
          · rintro ⟨hsnd, hrcv, hl⟩
            exact ⟨⟨hsnd, hrcv⟩, hl, hwrite hrcv⟩
        · have hyes : i.Complete j := ⟨hinv, hok, Nat.not_lt.mp hcut⟩
          rw [if_neg hcut, ih (j + 1) vm' (by omega)]
          simp only [hyes, forall_true_left]
          constructor
          · rintro ⟨⟨hsnd, hrcv⟩, hl, -, hrest⟩
            exact ⟨⟨hsnd, hrcv, hl⟩, hrest⟩
          · rintro ⟨⟨hsnd, hrcv, hl⟩, hrest⟩
            exact ⟨⟨hsnd, hrcv⟩, hl, hwrite hrcv, hrest⟩

/-! ## The function -/

/-- The transfer gets to the message words. -/
def ReachesWords (i : LongIpc) : Prop :=
  invalidIpcBuffer i.sndMsg = false ∧ (i.rcvLong = true → (i.sameSpace || i.window) = true) ∧
    (i.map = true → i.rcvFpage = true) ∧ i.sndMsg ≠ 0 ∧ (i.map = true → i.regFpage ≠ .failed)

/-- The transfer gets to the strings, if the receiver has a message buffer. -/
def ReachesStrings (i : LongIpc) : Prop := i.fpages.2 = true ∧ i.sndWords ≤ i.rcvWords

/-- What the transfer gets to ends in user memory: the heads of the message buffers, the words that are
copied, and each string with its descriptors. -/
def EndsInUserMemory (i : LongIpc) : Prop :=
  i.ReachesWords → i.sndMsg + 12 ≤ userMax ∧ (i.rcvLong = true → i.rcvMsg + 8 ≤ userMax ∧ i.WordsFit ∧
    (i.ReachesStrings → ∀ j < i.numStrings, (∀ k < j, i.Complete k) → i.StringFits j))

theorem msg_mod (desc : BitVec 32) : (desc &&& 0xfffffffc).toNat % 4 = 0 := by
  have h : (desc &&& 0xfffffffc) &&& 3 = 0 := by
    rw [BitVec.and_assoc]
    exact BitVec.and_zero
  have hnat := congrArg BitVec.toNat h
  rw [BitVec.toNat_and] at hnat
  exact (Nat.and_two_pow_sub_one_eq_mod _ 2).symm.trans hnat

theorem rcvLong_valid (h : i.rcvLong = true) : invalidIpcBuffer i.rcvMsg = false := by
  simp only [rcvLong, Bool.and_eq_true, Bool.not_eq_true'] at h
  exact h.2

theorem strings_safe (i : LongIpc) (vm : Nat) : (∀ x ∈ i.stringLoop i.numStrings 0 vm, x.Safe) ↔
    ∀ j < i.numStrings, (∀ k < j, i.Complete k) → i.StringFits j := by
  have hle := dopeStrings_le i.sndDope
  have hnum : 0 + i.numStrings ≤ 31 := by
    unfold numStrings
    omega
  rw [i.stringLoop_safe _ 0 vm hnum]
  simp only [Nat.zero_add]

theorem sendBuffer_safe (i : LongIpc) : (∀ x ∈ i.sendBuffer, x.Safe) ↔
    i.sndMsg + 12 ≤ userMax ∧ (i.rcvLong = true → i.rcvMsg + 8 ≤ userMax ∧ i.WordsFit ∧
      (i.ReachesStrings → ∀ j < i.numStrings, (∀ k < j, i.Complete k) → i.StringFits j)) := by
  have hhead : (i.rcvMessage noWindow 4 4).Safe ↔ i.rcvMsg + 8 ≤ userMax := by
    rw [rcvMessage_safe (by decide) (by decide)]
  have hsnd : (Access.snd (i.sndMsg + 8) 4).Safe ↔ i.sndMsg + 12 ≤ userMax := snd_safe (by decide)
  unfold sendBuffer
  rw [List.forall_mem_cons, hsnd]
  refine and_congr_right fun hend => ?_
  cases hlong : i.rcvLong with
  | false => simp
  | true =>
    simp only [Bool.not_true, Bool.false_eq_true, if_false, forall_true_left]
    rw [List.forall_mem_cons, List.forall_mem_append, List.forall_mem_append, hhead, copyWords_safe]
    refine and_congr_right fun hrcv => and_congr_right fun hwords => ?_
    rw [and_iff_right (fpages_safe hwords)]
    by_cases hstop : (!i.fpages.2) = true ∨ i.sndWords > i.rcvWords
    · have hnot : ¬i.ReachesStrings := by
        rintro ⟨hok, hle⟩
        rcases hstop with h | h
        · rw [hok] at h
          cases h
        · omega
      rw [if_pos hstop]
      simp [hnot]
    · have hyes : i.ReachesStrings := by
        rw [not_or, Bool.not_eq_true, Bool.not_eq_false'] at hstop
        exact ⟨hstop.1, Nat.not_lt.mp hstop.2⟩
      have hsize : (Access.snd (i.sndMsg + 4) 4).Safe := (snd_safe (by decide)).mpr (by omega)
      rw [if_neg hstop, List.forall_mem_cons, List.forall_mem_cons, and_iff_right hsize,
        and_iff_right (hhead.mpr hrcv), strings_safe, forall_prop_of_true hyes]

/-- A transfer stays in user memory if and only if all it gets to ends there. -/
theorem transfer_in_bounds (i : LongIpc) : (∀ x ∈ i.doSendLong, x.Safe) ↔ i.EndsInUserMemory := by
  unfold doSendLong EndsInUserMemory ReachesWords
  have hfp : ∀ x ∈ (if i.rcvLong = true then [i.rcvMessage noWindow 0 4] else []), x.Safe := by
    cases hlong : i.rcvLong with
    | false => simp
    | true =>
      have hvalid := superpageBase_add_le (rcvLong_valid hlong)
      have hlt := lt_superpageBase i.rcvMsg
      have hmod : i.rcvMsg % 4 = 0 := msg_mod i.rcvDesc
      have huser : userMax % 4 = 0 := by decide
      simp only [if_true, List.forall_mem_cons, List.not_mem_nil, false_imp_iff, implies_true, and_true]
      rw [rcvMessage_safe (by decide) (by decide)]
      omega
  cases hvalid : invalidIpcBuffer i.sndMsg with
  | true => simp
  | false =>
    simp only [Bool.false_eq_true, if_false, true_and]
    by_cases hwin : (i.rcvLong && !i.sameSpace && !i.window) = true
    · have hnot : ¬(i.rcvLong = true → (i.sameSpace || i.window) = true) := by
        cases h₁ : i.rcvLong <;> cases h₂ : i.sameSpace <;> cases h₃ : i.window <;> simp_all
      rw [if_pos hwin]
      simp only [hnot, false_and, false_imp_iff, List.not_mem_nil, implies_true]
    · have hyes : i.rcvLong = true → (i.sameSpace || i.window) = true := by
        cases h₁ : i.rcvLong <;> cases h₂ : i.sameSpace <;> cases h₃ : i.window <;> simp_all
      rw [if_neg hwin, List.forall_mem_append, and_iff_right hfp, iff_true_intro hyes, true_and]
      by_cases hmap : (i.map && !i.rcvFpage) = true
      · rw [if_pos hmap]
        simp only [Bool.and_eq_true, Bool.not_eq_true'] at hmap
        simp [hmap.1, hmap.2]
      rw [if_neg hmap]
      have hmap : i.map = true → i.rcvFpage = true := by
        cases h₁ : i.map <;> cases h₂ : i.rcvFpage <;> simp_all
      by_cases hmsg : i.sndMsg = 0
      · rw [if_pos hmsg]
        simp [hmsg]
      rw [if_neg hmsg]
      by_cases hreg : (i.map && decide (i.regFpage = .failed)) = true
      · rw [if_pos hreg]
        simp only [Bool.and_eq_true, decide_eq_true_eq] at hreg
        simp [hreg.1, hreg.2]
      · rw [if_neg hreg, sendBuffer_safe]
        have hreg : i.map = true → i.regFpage ≠ .failed := fun h h' => hreg (by simp [h, h'])
        have hreach : (i.map = true → i.rcvFpage = true) ∧ i.sndMsg ≠ 0 ∧
            (i.map = true → i.regFpage ≠ .failed) := ⟨hmap, hmsg, hreg⟩
        rw [forall_prop_of_true hreach]

/-- A message of 2000 words between different spaces. -/
def longMessage (sndDesc rcvDesc : BitVec 32) : LongIpc where
  sndDesc := sndDesc
  rcvDesc := rcvDesc
  sameSpace := false
  window := true
  rcvFpage := false
  regFpage := .invalid
  sndDope := 0xfa0000
  sndSizeDope := 0xfa0000
  rcvWordsDope := 0xfa0000
  rcvStringsDope := 0xfa0000
  fpage _ := .invalid
  string _ := ⟨0, 0, 0, 0, true⟩

/-- The words in front of the end of user memory are read and written on behind it. -/
theorem transfer_out_of_bounds :
    (∃ x ∈ (longMessage 0xbffff000 0x1000).doSendLong, ¬x.Safe) ∧
      ∃ x ∈ (longMessage 0x1000 0xbffff000).doSendLong, ¬x.Safe := by
  constructor
  · refine ⟨.snd 0xbffff014 7992, by decide +kernel, fun h => ?_⟩
    exact absurd (h 7991 (by decide)) (by decide)
  · refine ⟨.window false 0xbfc00000 noWindow 0xee3ff014 7992, by decide +kernel, fun h => ?_⟩
    exact absurd (h 7991 (by decide)).2.2 (by decide)

end LongIpc

end L4env.Fiasco
