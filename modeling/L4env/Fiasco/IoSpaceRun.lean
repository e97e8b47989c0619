import L4env.Fiasco.IoSpace
import Mathlib.Data.Finset.Card
import Mathlib.Tactic

/-!
# Counter and bitmap of an I/O port space

In runs in which no insertion of the whole space runs out of memory for the bitmap, the counter is the
number of enabled ports and the flag for the whole space is set only if all ports are enabled.
-/

namespace L4env.Fiasco.IoSpace

variable {c : IoConfig} {s s' : IoSpace} {page : Nat → BitVec 8} {g : PageGrant} {st : IoStatus}
  {grant : Nat → PageGrant} {p q n : Nat} {whole : Bool}

/-! ## Bits and bytes -/

theorem getPortBit_eq (p : Nat) : getPortBit p = BitVec.twoPow 8 (p % 8) := by
  rw [getPortBit, show p &&& 7 = p % 8 from Nat.and_two_pow_sub_one_eq_mod p 3]
  rfl

theorem pageEnables_eq (page : Nat → BitVec 8) (p : Nat) :
    pageEnables page p = !(page (portOffset p)).getLsbD (p % 8) := by
  have hne : BitVec.twoPow 8 (p % 8) ≠ 0#8 := by
    intro h
    have hbit := congrArg (BitVec.getLsbD · (p % 8)) h
    simp [Nat.mod_lt] at hbit
  rw [pageEnables, getPortBit_eq, BitVec.and_twoPow]
  split <;> simp_all

/-- A port is given by its page, the byte there and the bit in the byte. -/
theorem port_eq (hpage : portPage q = portPage p) (hoff : portOffset q = portOffset p)
    (hbit : q % 8 = p % 8) : q = p := by
  rw [portPage, portPage, ioPageSize, Nat.shiftRight_eq_div_pow, Nat.shiftRight_eq_div_pow] at hpage
  rw [portOffset, portOffset, ioPageSize, Nat.shiftRight_eq_div_pow, Nat.shiftRight_eq_div_pow]
    at hoff
  omega

theorem enabled_eq (h : s.bitmap (portPage p) = some page) :
    s.enabled p = !(page (portOffset p)).getLsbD (p % 8) := by
  rw [enabled, h]
  exact pageEnables_eq page p

theorem setByte_enabled (h : s.bitmap (portPage p) = some page) (byte : BitVec 8) (q : Nat) :
    (s.setByte page p byte).enabled q =
      if portPage q = portPage p ∧ portOffset q = portOffset p then !byte.getLsbD (q % 8)
      else s.enabled q := by
  by_cases hpage : portPage q = portPage p
  · have hmap : (s.setByte page p byte).bitmap (portPage q) =
        some (Function.update page (portOffset p) byte) := by
      rw [hpage]
      exact Function.update_self ..
    rw [enabled_eq hmap, enabled_eq ((congrArg s.bitmap hpage).trans h)]
    by_cases hoff : portOffset q = portOffset p
    · rw [if_pos ⟨hpage, hoff⟩, hoff, Function.update_self]
    · rw [if_neg fun h => hoff h.2, Function.update_of_ne hoff]
  · have hmap : (s.setByte page p byte).bitmap (portPage q) = s.bitmap (portPage q) :=
      Function.update_of_ne hpage ..
    rw [if_neg fun h => hpage h.1, enabled, enabled, hmap]

@[simp] theorem addtoIoCounter_enabled (s : IoSpace) (incr : BitVec 32) (q : Nat) :
    (s.addtoIoCounter incr).enabled q = s.enabled q := rfl

/-- Only the port's own bit of the byte changes. -/
theorem setByte_bit (h : s.bitmap (portPage p) = some page) {byte : BitVec 8}
    (hbits : ∀ i < 8, i ≠ p % 8 → byte.getLsbD i = (page (portOffset p)).getLsbD i) (q : Nat) :
    (s.setByte page p byte).enabled q =
      if q = p then !byte.getLsbD (p % 8) else s.enabled q := by
  rw [setByte_enabled h]
  by_cases hq : portPage q = portPage p ∧ portOffset q = portOffset p
  · rw [if_pos hq, enabled_eq ((congrArg s.bitmap hq.1).trans h), hq.2]
    by_cases hqp : q = p
    · rw [if_pos hqp, hqp]
    · have hbit : q % 8 ≠ p % 8 := fun hb => hqp (port_eq hq.1 hq.2 hb)
      rw [if_neg hqp, hbits _ (Nat.mod_lt _ (by decide)) hbit]
  · have hne : q ≠ p := fun he => hq (by rw [he]; exact ⟨rfl, rfl⟩)
    rw [if_neg hq, if_neg hne]

theorem setByte_enable (h : s.bitmap (portPage p) = some page) (q : Nat) :
    (s.setByte page p (page (portOffset p) &&& ~~~getPortBit p)).enabled q =
      (s.enabled q || decide (q = p)) := by
  have hlt : p % 8 < 8 := Nat.mod_lt _ (by decide)
  rw [setByte_bit h (by simp +contextual [getPortBit_eq]), getPortBit_eq]
  by_cases hq : q = p <;> simp [hq, hlt]

theorem setByte_disable (h : s.bitmap (portPage p) = some page) (q : Nat) :
    (s.setByte page p (page (portOffset p) ||| getPortBit p)).enabled q =
      (s.enabled q && !decide (q = p)) := by
  have hlt : p % 8 < 8 := Nat.mod_lt _ (by decide)
  rw [setByte_bit h (by simp +contextual [getPortBit_eq]), getPortBit_eq]
  by_cases hq : q = p <;> simp [hq, hlt]

/-! ## The counter -/

/-- The ports of a space that are enabled in its bitmap. -/
def enabledPorts (s : IoSpace) : Finset Nat := {p ∈ Finset.range ioPortMax | s.enabled p = true}

/-- The word that counts `n` ports. -/
def counterWord (whole : Bool) (n : Nat) : BitVec 32 :=
  BitVec.ofNat 32 (n + if whole then 2 ^ 28 else 0)

theorem counterWord_eq (whole : Bool) (h : n < 2 ^ 28) :
    counterWord whole n = (if whole then superpageFlag else 0) ||| BitVec.ofNat 32 n := by
  cases whole with
  | false => simp [counterWord]
  | true =>
    rw [counterWord, if_pos rfl, if_pos rfl, Nat.add_comm, ← Nat.mul_one (2 ^ 28),
      Nat.two_pow_add_eq_or_of_lt h, BitVec.ofNat_or]
    rfl

theorem ofNat_and_flag (h : n < 2 ^ 28) : BitVec.ofNat 32 n &&& superpageFlag = 0 := by
  rw [show superpageFlag = BitVec.twoPow 32 28 from rfl, BitVec.and_twoPow, if_neg]
  · rfl
  · rw [BitVec.getLsbD_ofNat, Nat.testBit_lt_two_pow h]
    simp

theorem ofNat_and_not_flag (h : n < 2 ^ 28) :
    BitVec.ofNat 32 n &&& ~~~superpageFlag = BitVec.ofNat 32 n := by
  have hsplit := ofNat_and_flag h
  have : BitVec.ofNat 32 n = BitVec.ofNat 32 n &&& (superpageFlag ||| ~~~superpageFlag) := by
    rw [BitVec.or_not_self, BitVec.and_allOnes]
  rw [BitVec.and_or_distrib_left, hsplit] at this
  simpa using this.symm

theorem counterWord_and_flag (h : n < 2 ^ 28) :
    (counterWord whole n &&& superpageFlag != 0) = whole := by
  rw [counterWord_eq whole h, BitVec.and_or_distrib_right, ofNat_and_flag h]
  cases whole <;> rfl

theorem counterWord_and_not_flag (h : n < 2 ^ 28) :
    counterWord whole n &&& ~~~superpageFlag = BitVec.ofNat 32 n := by
  rw [counterWord_eq whole h, BitVec.and_or_distrib_right, ofNat_and_not_flag h]
  cases whole <;> simp

theorem counterWord_or_flag (h : n < 2 ^ 28) :
    counterWord false n ||| superpageFlag = counterWord true n := by
  rw [counterWord_eq false h, counterWord_eq true h, BitVec.or_comm]
  simp

theorem counterWord_succ : counterWord whole n + 1 = counterWord whole (n + 1) := by
  rw [counterWord, counterWord, Nat.add_right_comm]
  exact (BitVec.ofNat_add _ 1).symm

theorem counterWord_pred : counterWord whole (n + 1) + -1 = counterWord whole n := by
  rw [← counterWord_succ, BitVec.add_assoc]
  exact BitVec.add_zero _

/-! ## Single ports -/

/-- The counter counts the enabled ports, next to the flag for the whole space. -/
def Counts (s : IoSpace) (whole : Bool) : Prop := s.counter = counterWord whole s.enabledPorts.card

theorem mem_enabledPorts : p ∈ s.enabledPorts ↔ p < ioPortMax ∧ s.enabled p = true := by
  rw [enabledPorts, Finset.mem_filter, Finset.mem_range]

theorem card_enabledPorts_le (s : IoSpace) : s.enabledPorts.card ≤ ioPortMax :=
  (Finset.card_filter_le _ _).trans (Finset.card_range _).le

theorem card_enabledPorts_lt (s : IoSpace) : s.enabledPorts.card < 2 ^ 28 :=
  (card_enabledPorts_le s).trans_lt (by decide)

theorem Counts.isSuperpage (h : s.Counts whole) : s.isSuperpage = whole := by
  rw [IoSpace.isSuperpage, h]
  exact counterWord_and_flag (card_enabledPorts_lt s)

theorem Counts.getIoCounter (h : s.Counts whole) :
    s.getIoCounter = BitVec.ofNat 32 s.enabledPorts.card := by
  rw [IoSpace.getIoCounter, h]
  exact counterWord_and_not_flag (card_enabledPorts_lt s)

theorem Counts.congr (h : s.Counts whole) (hcounter : s'.counter = s.counter)
    (henabled : ∀ q, s'.enabled q = s.enabled q) : s'.Counts whole := by
  have hports : s'.enabledPorts = s.enabledPorts := by
    ext q
    rw [mem_enabledPorts, mem_enabledPorts, henabled]
  rw [Counts, hports, hcounter]
  exact h

/-- What `io_insert` does to a space. -/
structure Inserted (s : IoSpace) (p : Nat) (st : IoStatus) (s' : IoSpace) : Prop where
  counts : ∀ {whole}, s.Counts whole → s'.Counts whole
  failed : st = .insertErrNomem ∨ st = .insertErrExists → s' = s
  mono : ∀ q, s.enabled q = true → s'.enabled q = true
  enabled : st ≠ .insertErrNomem → s'.enabled p = true
  pages : ∀ k, s.bitmap k ≠ none → s'.bitmap k ≠ none

/-- A page that is written stays mapped, and so do the others. -/
theorem update_pages (b : Nat → Option (Nat → BitVec 8)) (p : Nat) (page : Nat → BitVec 8) (k : Nat)
    (h : b k ≠ none) : Function.update b p (some page) k ≠ none := by
  by_cases hk : k = p
  · rw [hk, Function.update_self]
    exact nofun
  · rw [Function.update_of_ne hk]
    exact h

theorem enablePort_inserted (h : s.bitmap (portPage p) = some page) (hp : p < ioPortMax) :
    Inserted s p (s.enablePort page p).1 (s.enablePort page p).2 := by
  have hval : s.enabled p = pageEnables page p := by rw [IoSpace.enabled, h]
  rw [enablePort]
  split
  · rename_i hon
    exact ⟨id, fun _ => rfl, fun _ => id, fun _ => hval.trans hon, fun _ => id⟩
  · rename_i hoff
    have henabled := setByte_enable h
    refine ⟨fun hc => ?_, fun hst => ?_, fun q hq => ?_, fun _ => ?_, update_pages _ _ _⟩
    · have hports : ((s.setByte page p (page (portOffset p) &&& ~~~getPortBit p)).addtoIoCounter
          1).enabledPorts = insert p s.enabledPorts := by
        ext q
        rw [mem_enabledPorts, Finset.mem_insert, mem_enabledPorts]
        rw [addtoIoCounter_enabled, henabled, Bool.or_eq_true, decide_eq_true_eq]
        constructor
        · rintro ⟨hlt, hq | rfl⟩
          · exact .inr ⟨hlt, hq⟩
          · exact .inl rfl
        · rintro (rfl | ⟨hlt, hq⟩)
          · exact ⟨hp, .inr rfl⟩
          · exact ⟨hlt, .inl hq⟩
      have hnew : p ∉ s.enabledPorts := fun hmem => hoff (hval ▸ (mem_enabledPorts.mp hmem).2)
      rw [Counts, hports, Finset.card_insert_of_notMem hnew, ← counterWord_succ, ← hc]
      rfl
    · rcases hst with hst | hst <;> cases hst
    · exact (henabled q).trans (by rw [hq, Bool.true_or])
    · exact (henabled p).trans (by rw [decide_eq_true rfl, Bool.or_true])

/-- A new page of the bitmap enables no port. -/
theorem mapPage_enabled (h : s.bitmap (portPage p) = none) (q : Nat) :
    (s.mapPage p).enabled q = s.enabled q := by
  by_cases hq : portPage q = portPage p
  · have hnew : (s.mapPage p).bitmap (portPage q) = some clearPage := by
      rw [hq]
      exact Function.update_self ..
    have hold : s.enabled q = false := by rw [enabled, hq, h]
    have hbit : (BitVec.allOnes 8).getLsbD (q % 8) = true := by
      rw [BitVec.getLsbD_allOnes]
      exact decide_eq_true (Nat.mod_lt _ (by decide))
    rw [hold, enabled_eq hnew]
    exact congrArg (!·) hbit
  · have hsame : (s.mapPage p).bitmap (portPage q) = s.bitmap (portPage q) :=
      Function.update_of_ne hq ..
    rw [enabled, enabled, hsame]

theorem assert_of {holds : Bool} (h : holds = true) : assert c holds = some () := by
  rw [assert, h, Bool.or_true]
  rfl

theorem ioInsert_spec (c : IoConfig) (g : PageGrant) (s : IoSpace) (hp : p < ioPortMax) :
    ∃ st s', ioInsert c g s p = some (st, s') ∧ Inserted s p st s' ∧
      ((s.bitmap (portPage p) = none → g = .granted) → st ≠ .insertErrNomem) := by
  have hassert := assert_of (c := c) (decide_eq_true hp)
  have hok (s : IoSpace) (page : Nat → BitVec 8) : (s.enablePort page p).1 ≠ .insertErrNomem := by
    rw [enablePort]
    split <;> exact nofun
  cases hmap : s.bitmap (portPage p) with
  | some page =>
    refine ⟨_, _, ?_, enablePort_inserted hmap hp, fun _ => hok s page⟩
    simp [ioInsert, hassert, hmap]
  | none =>
    by_cases hg : g = .granted
    · have hnew : (s.mapPage p).bitmap (portPage p) = some clearPage := Function.update_self ..
      have hins := enablePort_inserted hnew hp
      have hsame := mapPage_enabled hmap
      refine ⟨_, _, ?_, ⟨fun hc => hins.counts (hc.congr rfl hsame), fun hst => ?_,
        fun q hq => hins.mono q ((hsame q).trans hq), hins.enabled,
        fun k hk => hins.pages k (update_pages _ _ _ k hk)⟩, fun _ => hok _ _⟩
      · simp [ioInsert, hassert, hmap, hg]
      · rw [enablePort] at hst
        split at hst <;> rcases hst with hst | hst <;> cases hst
    · refine ⟨.insertErrNomem, s, ?_, ⟨id, fun _ => rfl, fun _ => id, fun h => absurd rfl h,
        fun _ => id⟩,
        fun h => absurd (h rfl) hg⟩
      cases g with
      | granted => exact absurd rfl hg
      | noPage | noTable => simp [ioInsert, hassert, hmap]

/-- `io_delete` disables the port and takes it out of the count. -/
theorem ioDelete_spec (whole : Bool) (c : IoConfig) (s : IoSpace) (hp : p < ioPortMax) :
    ∃ rights s', ioDelete c s p = some (rights, s') ∧
      (∀ q, s'.enabled q = (s.enabled q && !decide (q = p))) ∧ (s.Counts whole → s'.Counts whole) := by
  have hassert := assert_of (c := c) (decide_eq_true hp)
  cases hmap : s.bitmap (portPage p) with
  | none =>
    have hval : s.enabled p = false := by rw [enabled, hmap]
    refine ⟨0, s, by simp [ioDelete, hassert, hmap], fun q => ?_, id⟩
    by_cases hq : q = p <;> simp [hq, hval]
  | some page =>
    have hval : s.enabled p = pageEnables page p := by rw [enabled, hmap]
    by_cases hon : pageEnables page p = true
    · have henabled := setByte_disable hmap
      refine ⟨ioPageAllAttribs, (s.setByte page p (page (portOffset p) ||| getPortBit p)).addtoIoCounter
        (-1), by simp [ioDelete, hassert, hmap, hon], fun q => ?_, fun hc => ?_⟩
      · rw [addtoIoCounter_enabled, henabled]
      · have hports : ((s.setByte page p (page (portOffset p) ||| getPortBit p)).addtoIoCounter
            (-1)).enabledPorts = s.enabledPorts.erase p := by
          ext q
          rw [mem_enabledPorts, Finset.mem_erase, mem_enabledPorts]
          rw [addtoIoCounter_enabled, henabled, Bool.and_eq_true, Bool.not_eq_true', decide_eq_false_iff_not]
          exact ⟨fun h => ⟨h.2.2, h.1, h.2.1⟩, fun h => ⟨h.2.1, h.2.2, h.1⟩⟩
        have hmem : p ∈ s.enabledPorts := mem_enabledPorts.mpr ⟨hp, hval.trans hon⟩
        have hcard := Finset.card_erase_add_one hmem
        rw [Counts, ← hcard] at hc
        rw [Counts, hports, ← counterWord_pred, ← hc]
        rfl
    · refine ⟨0, s, by simp [ioDelete, hassert, hmap, hon], fun q => ?_, id⟩
      by_cases hq : q = p <;> simp [hq, hval, hon]

/-! ## All ports -/

theorem insertPorts_succ :
    insertPorts c grant s (n + 1) =
      (insertPorts c grant s n).bind fun s => (ioInsert c (grant n) s n).map Prod.snd := by
  rw [insertPorts, List.range_succ, List.foldlM_append]
  simp only [List.foldlM_cons, List.foldlM_nil, bind_pure]
  rfl

theorem deletePorts_succ :
    deletePorts c s (n + 1) =
      (deletePorts c s n).bind fun s => (ioDelete c s n).map Prod.snd := by
  rw [deletePorts, List.range_succ, List.foldlM_append]
  simp only [List.foldlM_cons, List.foldlM_nil, bind_pure]
  rfl

/-- For each page of the bitmap that is missing, the first of its ports gets one. -/
def MapsPages (grant : Nat → PageGrant) (s : IoSpace) : Prop :=
  ∀ p < ioPortMax, p % (8 * ioPageSize) = 0 → s.bitmap (portPage p) = none → grant p = .granted

theorem insertPorts_spec (whole : Bool) (c : IoConfig) (grant : Nat → PageGrant) (s : IoSpace)
    (hn : n ≤ ioPortMax) :
    ∃ s', insertPorts c grant s n = some s' ∧ (s.Counts whole → s'.Counts whole) ∧
      (∀ k, s.bitmap k ≠ none → s'.bitmap k ≠ none) ∧
      (MapsPages grant s → ∀ q < n, s'.enabled q = true) := by
  induction n with
  | zero => exact ⟨s, rfl, id, fun _ => id, fun _ => nofun⟩
  | succ n ih =>
    obtain ⟨s₁, hs₁, hcounts, hpages, hon⟩ := ih (by omega)
    obtain ⟨st, s₂, hs₂, hins, hst⟩ := ioInsert_spec c (grant n) s₁ (p := n) hn
    refine ⟨s₂, ?_, fun hc => hins.counts (hcounts hc), fun k hk => hins.pages k (hpages k hk),
      fun hmaps q hq => ?_⟩
    · rw [insertPorts_succ, hs₁, Option.bind_some, hs₂]
      rfl
    · rcases Nat.lt_succ_iff_lt_or_eq.mp hq with hlt | rfl
      · exact hins.mono q (hon hmaps q hlt)
      · refine hins.enabled (hst fun hnone => ?_)
        by_cases hfirst : q % (8 * ioPageSize) = 0
        · exact hmaps q hn hfirst (not_not.mp fun hs => hpages _ hs hnone)
        · -- the port before is on the same page, and enabled
          have hsame : portPage (q - 1) = portPage q := by
            rw [portPage, portPage, ioPageSize, Nat.shiftRight_eq_div_pow,
              Nat.shiftRight_eq_div_pow]
            rw [ioPageSize] at hfirst
            omega
          have hprev := hon hmaps (q - 1) (Nat.sub_one_lt fun h => hfirst (by rw [h, Nat.zero_mod]))
          rw [enabled, hsame, hnone] at hprev
          cases hprev

theorem deletePorts_spec (c : IoConfig) (s : IoSpace) (hn : n ≤ ioPortMax) :
    ∃ s', deletePorts c s n = some s' ∧ ∀ q < n, s'.enabled q = false := by
  induction n with
  | zero => exact ⟨s, rfl, nofun⟩
  | succ n ih =>
    obtain ⟨s₁, hs₁, hoff⟩ := ih (by omega)
    obtain ⟨rights, s₂, hs₂, henabled, -⟩ := ioDelete_spec false c s₁ hn
    refine ⟨s₂, ?_, fun q hq => ?_⟩
    · rw [deletePorts_succ, hs₁, Option.bind_some, hs₂]
      rfl
    · rw [henabled]
      rcases Nat.lt_succ_iff_lt_or_eq.mp hq with hq | rfl
      · rw [hoff q hq, Bool.false_and]
      · rw [decide_eq_true rfl, Bool.not_true, Bool.and_false]

/-! ## Calls -/

/-- What holds between calls. -/
structure Inv (c : IoConfig) (s : IoSpace) : Prop where
  counts : s.Counts s.isSuperpage
  all : s.isSuperpage = true → c.iopl3 = false ∧ ∀ p < ioPortMax, s.enabled p = true

/-- An insertion of the whole space does not lack a page of the bitmap where it needs one, and goes by
the bitmap. -/
def InsertFits (c : IoConfig) (s : IoSpace) (grant : Nat → PageGrant) (size : Nat) : Prop :=
  s.isSuperpage = false → s.getIoCounter = 0 → size = ioMapSuperpageSize →
    c.iopl3 = false ∧ MapsPages grant s

theorem of_assert {α : Type} {b : Bool} {f : Unit → Option α} {r : α}
    (h : (assert c b >>= f) = some r) : f () = some r := by
  rw [assert] at h
  split at h
  · exact h
  · cases h

theorem Inv.of_counts (whole : Bool) (h : s.Counts whole)
    (hall : whole = true → c.iopl3 = false ∧ ∀ p < ioPortMax, s.enabled p = true) : s.Inv c := by
  have hwhole := h.isSuperpage
  subst hwhole
  exact ⟨h, hall⟩

theorem Inv.ioInsert (h : s.Inv c) (hp : p < ioPortMax) (hs : ioInsert c g s p = some (st, s')) :
    s'.Inv c := by
  obtain ⟨st₁, s₁, hs₁, hins, -⟩ := ioInsert_spec c g s hp
  obtain ⟨-, rfl⟩ := Prod.mk.inj (Option.some.inj (hs₁.symm.trans hs))
  exact .of_counts _ (hins.counts h.counts) fun hw =>
    ⟨(h.all hw).1, fun q hq => hins.mono q ((h.all hw).2 q hq)⟩

theorem Inv.vInsert {phys virt size : Nat} (h : s.Inv c) (hmap : isMappable virt size = true)
    (hfits : s.InsertFits c grant size) (hs : vInsert c grant s phys virt size = some (st, s')) :
    s'.Inv c := by
  have hvirt : virt < ioPortMax := (of_decide_eq_true hmap).1
  have hs := of_assert hs
  by_cases hwhole : s.isSuperpage && size == ioMapSuperpageSize
  · rw [if_pos hwhole] at hs
    cases hs
    exact h
  rw [if_neg hwhole] at hs
  by_cases hnew : s.getIoCounter == 0 && size == ioMapSuperpageSize
  · rw [if_pos hnew] at hs
    obtain ⟨hzero, hsize⟩ := Bool.and_eq_true_iff.mp hnew
    rw [hsize, Bool.and_true, Bool.not_eq_true] at hwhole
    obtain ⟨hiopl, hpages⟩ := hfits hwhole (eq_of_beq hzero) (eq_of_beq hsize)
    obtain ⟨s₁, hs₁, hcounts, -, hon⟩ :=
      insertPorts_spec s.isSuperpage c grant s (Nat.le_refl ioPortMax)
    rw [hiopl, hs₁] at hs
    cases hs
    have hcounts := hcounts h.counts
    rw [hwhole] at hcounts
    refine .of_counts true ?_ fun _ => ⟨hiopl, hon hpages⟩
    exact (congrArg (· ||| superpageFlag) hcounts).trans
      (counterWord_or_flag (card_enabledPorts_lt s₁))
  · rw [if_neg hnew] at hs
    exact h.ioInsert hvirt (of_assert hs)

/-- A failed insertion changes nothing. -/
theorem vInsert_failed {phys virt size : Nat} (hmap : isMappable virt size = true)
    (hs : vInsert c grant s phys virt size = some (st, s'))
    (hst : st = .insertErrNomem ∨ st = .insertErrExists) : s' = s := by
  have hvirt : virt < ioPortMax := (of_decide_eq_true hmap).1
  have hs := of_assert hs
  split at hs
  · cases hs
    rfl
  split at hs
  · split at hs
    · cases hs
      rcases hst with hst | hst <;> cases hst
    · obtain ⟨s₁, -, hs⟩ := Option.bind_eq_some_iff.mp hs
      cases hs
      rcases hst with hst | hst <;> cases hst
  · obtain ⟨st₁, s₁, hs₁, hins, -⟩ := ioInsert_spec c (grant virt) s hvirt
    obtain ⟨rfl, rfl⟩ := Prod.mk.inj (Option.some.inj (hs₁.symm.trans (of_assert hs)))
    exact hins.failed hst

theorem Inv.vDelete {virt size attribs rights : Nat} (h : s.Inv c) (hmap : isMappable virt size = true)
    (hs : vDelete c s virt size attribs = some (rights, s')) : s'.Inv c := by
  have hvirt : virt < ioPortMax := (of_decide_eq_true hmap).1
  have hs := of_assert hs
  by_cases hwhole : s.isSuperpage = true
  · obtain ⟨hiopl, -⟩ := h.all hwhole
    obtain ⟨s₁, hs₁, hoff⟩ := deletePorts_spec c s (Nat.le_refl ioPortMax)
    rw [if_pos hwhole] at hs
    have hs := of_assert hs
    rw [hiopl, hs₁] at hs
    cases hs
    have hnone : enabledPorts { s₁ with counter := 0 } = ∅ :=
      Finset.filter_eq_empty_iff.mpr fun q hq hon =>
        Bool.false_ne_true ((hoff q (Finset.mem_range.mp hq)).symm.trans hon)
    refine .of_counts false ?_ nofun
    rw [Counts, hnone]
    rfl
  · rw [if_neg hwhole] at hs
    obtain ⟨rights₁, s₁, hs₁, -, hcounts⟩ := ioDelete_spec s.isSuperpage c s hvirt
    obtain ⟨-, rfl⟩ := Prod.mk.inj (Option.some.inj (hs₁.symm.trans (of_assert hs)))
    exact .of_counts _ (hcounts h.counts) fun hw => absurd hw hwhole

/-! ## Runs -/

/-- The states of the runs of insertions and deletions of single ports or the whole space. -/
inductive Reachable (c : IoConfig) : IoSpace → Prop
  | empty : Reachable c empty
  | insert {s s' : IoSpace} {st : IoStatus} (grant : Nat → PageGrant) (phys virt size : Nat) :
    Reachable c s → isMappable virt size = true → s.InsertFits c grant size →
    vInsert c grant s phys virt size = some (st, s') → Reachable c s'
  | delete {s s' : IoSpace} {rights : Nat} (virt size attribs : Nat) :
    Reachable c s → isMappable virt size = true → vDelete c s virt size attribs = some (rights, s') →
    Reachable c s'

theorem Reachable.inv (h : Reachable c s) : s.Inv c := by
  induction h with
  | empty =>
    have hnone : enabledPorts IoSpace.empty = ∅ := Finset.filter_eq_empty_iff.mpr fun _ _ => nofun
    refine .of_counts false ?_ nofun
    rw [Counts, hnone]
    rfl
  | insert grant phys virt size _ hmap hfits hs ih => exact ih.vInsert hmap hfits hs
  | delete virt size attribs _ hmap hs ih => exact ih.vDelete hmap hs

theorem Inv.vLookup (h : s.Inv c) (hp : p < ioPortMax) :
    ∃ l, vLookup c s p = some l ∧ l.found = s.enabled p := by
  have hassert := assert_of (c := c) (decide_eq_true hp)
  have hlook : ioLookup c s p = some (s.enabled p) := by
    rw [ioLookup, hassert]
    rfl
  rw [IoSpace.vLookup]
  split
  · rename_i hwhole
    exact ⟨_, rfl, ((h.all hwhole).2 p hp).symm⟩
  · rw [hlook]
    cases hon : s.enabled p with
    | true => exact ⟨_, rfl, rfl⟩
    | false =>
      rw [Option.bind_eq_bind, Option.bind_some, if_neg Bool.false_ne_true]
      split <;> exact ⟨_, rfl, rfl⟩

/-- In every run in which no insertion of the whole space lacks a page of the bitmap, the counter counts
the enabled ports, the flag is set only where all ports are enabled, a lookup goes by the bitmap, and a
failed insertion changes nothing. -/
theorem io_space_agrees (h : Reachable c s) :
    s.getIoCounter.toNat = s.enabledPorts.card ∧
    (s.isSuperpage = true → ∀ p < ioPortMax, s.enabled p = true) ∧
    (∀ p < ioPortMax, ∃ l, vLookup c s p = some l ∧ (l.found = true ↔ s.enabled p = true)) ∧
    ∀ (grant : Nat → PageGrant) (phys virt size : Nat) (st : IoStatus) (s' : IoSpace),
      isMappable virt size = true → vInsert c grant s phys virt size = some (st, s') →
      st = .insertErrNomem ∨ st = .insertErrExists → s' = s := by
  refine ⟨?_, fun hw => (h.inv.all hw).2, fun p hp => ?_, fun _ _ _ _ _ _ => vInsert_failed⟩
  · rw [h.inv.counts.getIoCounter, BitVec.toNat_ofNat, Nat.mod_eq_of_lt]
    exact (card_enabledPorts_lt s).trans (by decide)
  · obtain ⟨l, hl, hfound⟩ := h.inv.vLookup hp
    exact ⟨l, hl, by rw [hfound]⟩

/-- The default build with assertions. -/
def defaultBuild : IoConfig := ⟨false, false⟩

theorem io_space_agrees_port : ∃ s, vInsert defaultBuild (fun _ => .granted) empty 0x60 0x60 1 =
    some (.insertOk, s) ∧ s.getIoCounter.toNat = s.enabledPorts.card := by
  refine ⟨_, rfl, (io_space_agrees (c := defaultBuild) ?_).1⟩
  exact .insert (fun _ => .granted) 0x60 0x60 1 .empty (by decide) (fun _ _ hsize => by cases hsize) rfl

theorem insertPorts_noPage (n : Nat) (hn : n ≤ ioPortMax) :
    insertPorts c (fun _ => .noPage) empty n = some empty := by
  induction n with
  | zero => rfl
  | succ n ih =>
    have hassert := assert_of (c := c) (decide_eq_true (show n < ioPortMax from hn))
    rw [insertPorts_succ, ih (by omega), Option.bind_some, ioInsert, hassert]
    rfl

/-- The whole space is inserted where there is no memory for the bitmap: the call succeeds, all ports
are found, and none is enabled. -/
theorem io_space_whole_disabled : ∃ s,
    vInsert defaultBuild (fun _ => .noPage) empty 0 0 ioMapSuperpageSize = some (.insertOk, s) ∧
    s.isSuperpage = true ∧ s.enabledPorts = ∅ ∧
    (vLookup defaultBuild s 0).map IoLookup.found = some true := by
  refine ⟨{ empty with counter := superpageFlag }, ?_, rfl, ?_, rfl⟩
  · have hloop := insertPorts_noPage (c := defaultBuild) ioPortMax (Nat.le_refl _)
    have hnew : empty.getIoCounter == 0 && ioMapSuperpageSize == ioMapSuperpageSize := by decide
    rw [vInsert, assert_of (by decide), Option.bind_eq_bind, Option.bind_some,
      if_neg (by decide), if_pos hnew, if_neg (by decide), hloop]
    rfl
  · exact Finset.filter_eq_empty_iff.mpr fun _ _ => nofun

end L4env.Fiasco.IoSpace
