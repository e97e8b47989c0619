import L4env.Fiasco.RamQuota
import L4env.Util.Outcome

/-!
# Runs of the quotas

Every quota counts exactly what is charged to it, however the calls of the threads interleave, and what is
charged to a quota and to all the quotas below it stays within its limit. The quota in the hands of a
thread may be gone, though: nothing is charged to it between the lookup and the first allocation.
-/

namespace L4env.Fiasco

variable {C Q : Type} [DecidableEq C] [DecidableEq Q]

/-- The quota that a charge is for. -/
def Charge.child (x : Charge C Q) : Option Q :=
  match x.payee with
  | .quota n => some n
  | _ => none

omit [DecidableEq C] [DecidableEq Q] in
theorem Charge.child_eq_some {x : Charge C Q} {n : Q} : x.child = some n ↔ x.payee = .quota n := by
  unfold child
  cases x.payee <;> simp

namespace Quotas

variable {s s' : Quotas C Q} {q q' n : Q} {x y : Charge C Q} {bytes v : Nat} {charges : List (Charge C Q)}

/-- What is charged to `q` in a list of charges. -/
def sumOf (charges : List (Charge C Q)) (q : Q) : Nat :=
  (charges.map fun x => if x.quota = q then (x.size : Nat) else 0).sum

/-- What is charged to `q`. -/
def used (s : Quotas C Q) (q : Q) : Nat := sumOf s.charges q

omit [DecidableEq C] in
@[simp] theorem sumOf_cons (x : Charge C Q) (l : List (Charge C Q)) (q : Q) :
    sumOf (x :: l) q = (if x.quota = q then (x.size : Nat) else 0) + sumOf l q := rfl

omit [DecidableEq C] in
theorem sumOf_perm {l l' : List (Charge C Q)} (h : l.Perm l') (q : Q) : sumOf l q = sumOf l' q :=
  (h.map _).sum_eq

omit [DecidableEq C] in
theorem le_sumOf {l : List (Charge C Q)} (hx : x ∈ l) : (x.size : Nat) ≤ sumOf l x.quota := by
  have hle : (if x.quota = x.quota then (x.size : Nat) else 0) ≤ sumOf l x.quota :=
    List.single_le_sum (fun z _ => Nat.zero_le z) _ (List.mem_map_of_mem hx)
  rwa [if_pos rfl] at hle

omit [DecidableEq C] in
theorem ne_of_sumOf {l : List (Charge C Q)} (hx : x ∈ l) (h : sumOf l q = 0) : x.quota ≠ q := by
  rintro rfl
  have hle := le_sumOf hx
  have hpos := x.size.2.1
  omega

/-- Every quota counts what is charged to it, within its limit if it has one; the charges are to quotas
that are there, and each quota but the root is charged to its parent. -/
structure Accounts (s : Quotas C Q) : Prop where
  rootMax : (s.quota s.root).max = 2 ^ 32 - 1
  grown : Grown (fun q => (s.quota q).parent) (s.slab ++ [s.root])
  current : ∀ q, s.Live q → (s.quota q).current = s.used q % 2 ^ 32
  within : ∀ q ∈ s.slab, s.used q ≤ (s.quota q).max ∧ (s.quota q).max < 2 ^ 28
  charged : ∀ x ∈ s.charges, s.Live x.quota
  children : (s.charges.filterMap Charge.child).Perm s.slab
  reserved : ∀ x ∈ s.charges, ∀ n, x.payee = .quota n →
    (s.quota n).parent = some x.quota ∧ (x.size : Nat) = sizeofQuota + (s.quota n).max

omit [DecidableEq C] [DecidableEq Q] in
theorem mem_append_root : q ∈ s.slab ++ [s.root] ↔ s.Live q := by
  rw [List.mem_append, List.mem_singleton, or_comm]
  rfl

omit [DecidableEq C] in
@[simp] theorem setCurrent_current : ((s.setCurrent q v).quota q).current = v := by
  simp [setCurrent]

omit [DecidableEq C] in
theorem setCurrent_other (h : q' ≠ q) : (s.setCurrent q v).quota q' = s.quota q' :=
  Function.update_of_ne h ..

omit [DecidableEq C] in
@[simp] theorem setCurrent_parent : ((s.setCurrent q v).quota q').parent = (s.quota q').parent := by
  unfold setCurrent
  dsimp only
  rw [Function.update_apply]
  split
  · rename_i h
    rw [h]
  · rfl

omit [DecidableEq C] in
@[simp] theorem setCurrent_max : ((s.setCurrent q v).quota q').max = (s.quota q').max := by
  unfold setCurrent
  dsimp only
  rw [Function.update_apply]
  split
  · rename_i h
    rw [h]
  · rfl

omit [DecidableEq Q] in
theorem setClaim_self {c : C} {claim : Option (Claim Q)} : (s.setClaim c claim).claim c = claim :=
  Function.update_self ..

omit [DecidableEq Q] in
theorem setClaim_other {c c' : C} {claim : Option (Claim Q)} (h : c' ≠ c) :
    (s.setClaim c claim).claim c' = s.claim c' :=
  Function.update_of_ne h ..

namespace Accounts

omit [DecidableEq C] in
theorem root_not_mem (h : s.Accounts) : s.root ∉ s.slab := fun hm =>
  (List.nodup_append.mp h.grown.nodup).2.2 _ hm _ (List.mem_singleton_self _) rfl

omit [DecidableEq C] in
theorem current_eq (h : s.Accounts) (hq : q ∈ s.slab) : (s.quota q).current = s.used q := by
  have hle := h.within q hq
  rw [h.current q (.inr hq), Nat.mod_eq_of_lt (by omega)]

omit [DecidableEq C] in
/-- The charge for a quota. -/
theorem exists_charge (h : s.Accounts) (hn : n ∈ s.slab) : ∃ x ∈ s.charges, x.payee = .quota n := by
  obtain ⟨x, hx, hc⟩ := List.mem_filterMap.mp (h.children.mem_iff.mpr hn)
  exact ⟨x, hx, Charge.child_eq_some.mp hc⟩

omit [DecidableEq C] in
theorem alloc_spec (h : s.Accounts) (hq : s.Live q) (hb : bytes < 2 ^ 31) :
    s.alloc q bytes = .ok (true, s.setCurrent q ((s.used q + bytes) % 2 ^ 32)) ∧
        (q ∈ s.slab → s.used q + bytes ≤ (s.quota q).max) ∨
      s.alloc q bytes = .ok (false, s) := by
  have hsum : ((s.quota q).current + bytes) % 2 ^ 32 = (s.used q + bytes) % 2 ^ 32 := by
    rw [h.current q hq, Nat.mod_add_mod]
  unfold alloc
  rw [if_pos hq]
  dsimp only
  rw [hsum]
  split
  · rename_i hfit
    refine .inl ⟨rfl, fun hm => ?_⟩
    have hle := h.within q hm
    have hlimit : (s.quota q).unlimited = false := by
      simp only [RamQuota.unlimited, beq_eq_false_iff_ne]
      omega
    rw [hlimit, Bool.false_or, decide_eq_true_eq, Nat.mod_eq_of_lt (by omega)] at hfit
    exact hfit
  · exact .inr rfl

omit [DecidableEq C] in
theorem free_spec (h : s.Accounts) (hq : s.Live q) (hb : 0 < bytes) (hlt : bytes < 2 ^ 31)
    (hle : bytes ≤ s.used q) : s.free q bytes = .ok (s.setCurrent q ((s.used q - bytes) % 2 ^ 32)) := by
  have hsum : ((s.quota q).current + (2 ^ 32 - bytes) % 2 ^ 32) % 2 ^ 32 = (s.used q - bytes) % 2 ^ 32 := by
    rw [h.current q hq]
    omega
  have hfit : ((s.quota q).unlimited || decide ((s.used q - bytes) % 2 ^ 32 ≤ (s.quota q).max)) = true := by
    obtain rfl | hm := hq
    · simp [RamQuota.unlimited, h.rootMax]
    · have hw := h.within q hm
      rw [Bool.or_eq_true, decide_eq_true_eq]
      right
      rw [Nat.mod_eq_of_lt (by omega)]
      omega
  unfold free alloc
  rw [if_pos hq]
  dsimp only
  rw [hsum, if_pos hfit]
  rfl

omit [DecidableEq C] in
/-- The accounts after a change of the charges to one quota. -/
theorem recharge (h : s.Accounts) (hv : v = sumOf charges q % 2 ^ 32)
    (hother : ∀ q' ≠ q, sumOf charges q' = s.used q')
    (hfit : q ∈ s.slab → sumOf charges q ≤ (s.quota q).max) (hlive : ∀ x ∈ charges, s.Live x.quota)
    (hchildren : (charges.filterMap Charge.child).Perm (s.charges.filterMap Charge.child))
    (hreserved : ∀ x ∈ charges, ∀ n, x.payee = .quota n → x ∈ s.charges) :
    Accounts { s.setCurrent q v with charges := charges } := by
  refine ⟨?_, ?_, fun q' hq' => ?_, fun q' hq' => ?_, hlive, hchildren.trans h.children,
    fun x hx n hn => ?_⟩
  · show ((s.setCurrent q v).quota s.root).max = _
    rw [setCurrent_max, h.rootMax]
  · refine h.grown.congr fun q' _ => ?_
    show ((s.setCurrent q v).quota q').parent = _
    rw [setCurrent_parent]
  · show ((s.setCurrent q v).quota q').current = sumOf charges q' % 2 ^ 32
    by_cases he : q' = q
    · subst he
      rw [setCurrent_current, hv]
    · rw [setCurrent_other he, hother q' he]
      exact h.current q' hq'
  · show sumOf charges q' ≤ ((s.setCurrent q v).quota q').max ∧ ((s.setCurrent q v).quota q').max < 2 ^ 28
    rw [setCurrent_max]
    by_cases he : q' = q
    · subst he
      exact ⟨hfit hq', (h.within q' hq').2⟩
    · rw [hother q' he]
      exact h.within q' hq'
  · have hr := h.reserved x (hreserved x hx n hn) n hn
    show ((s.setCurrent q v).quota n).parent = some x.quota ∧ (x.size : Nat) =
      sizeofQuota + ((s.setCurrent q v).quota n).max
    rw [setCurrent_parent, setCurrent_max]
    exact hr

omit [DecidableEq C] in
/-- An allocation. -/
theorem pay (h : s.Accounts) (hq : s.Live q) {size : Size} {payee : Payee C Q}
    (hfit : q ∈ s.slab → s.used q + size ≤ (s.quota q).max) (hp : ∀ n, payee ≠ .quota n) :
    Accounts { s.setCurrent q ((s.used q + size) % 2 ^ 32) with
      charges := ⟨q, size, payee⟩ :: s.charges } := by
  have hself : sumOf (⟨q, size, payee⟩ :: s.charges) q = s.used q + size := by
    rw [sumOf_cons, if_pos rfl, Nat.add_comm]
    rfl
  have hnone : Charge.child ⟨q, size, payee⟩ = none := by
    cases payee with
    | quota n => exact absurd rfl (hp n)
    | _ => rfl
  refine h.recharge (by rw [hself]) (fun q' hq' => ?_) (fun hm => ?_) (fun x hx => ?_) ?_ fun x hx n hn => ?_
  · rw [sumOf_cons, if_neg (Ne.symm hq'), Nat.zero_add]
    rfl
  · rw [hself]
    exact hfit hm
  · obtain rfl | hx := List.mem_cons.mp hx
    · exact hq
    · exact h.charged x hx
  · rw [List.filterMap_cons_none hnone]
  · obtain rfl | hx := List.mem_cons.mp hx
    · exact absurd hn (hp n)
    · exact hx

theorem used_erase (hx : x ∈ s.charges) (q : Q) :
    s.used q = (if x.quota = q then (x.size : Nat) else 0) + sumOf (s.charges.erase x) q := by
  rw [← sumOf_cons]
  exact sumOf_perm (List.perm_cons_erase hx) q

/-- The end of an allocation. -/
theorem repay (h : s.Accounts) (hx : x ∈ s.charges) (hp : ∀ n, x.payee ≠ .quota n) :
    Accounts { s.setCurrent x.quota ((s.used x.quota - x.size) % 2 ^ 32) with
      charges := s.charges.erase x } := by
  have hself := used_erase hx x.quota
  rw [if_pos rfl] at hself
  have hnone : x.child = none := by
    unfold Charge.child
    cases hpx : x.payee with
    | quota n => exact absurd hpx (hp n)
    | _ => rfl
  refine h.recharge ?_ (fun q' hq' => ?_) (fun hm => ?_) (fun y hy => ?_) ?_ fun y hy n _ =>
    List.mem_of_mem_erase hy
  · rw [hself, Nat.add_sub_cancel_left]
  · rw [used_erase hx q', if_neg (Ne.symm hq'), Nat.zero_add]
  · have hw := (h.within _ hm).1
    omega
  · exact h.charged y (List.mem_of_mem_erase hy)
  · have hperm := (List.perm_cons_erase hx).filterMap Charge.child
    rw [List.filterMap_cons_none hnone] at hperm
    exact hperm.symm

omit [DecidableEq C] in
theorem congr (h : s.Accounts) (hroot : s'.root = s.root) (hquota : s'.quota = s.quota)
    (hslab : s'.slab = s.slab) (hcharges : s'.charges = s.charges) : s'.Accounts := by
  have hlive : ∀ q, s'.Live q ↔ s.Live q := fun q => by
    unfold Live
    rw [hroot, hslab]
  have hused : ∀ q, s'.used q = s.used q := fun q => by
    unfold used
    rw [hcharges]
  refine ⟨?_, ?_, fun q hq => ?_, fun q hq => ?_, fun x hx => ?_, ?_, fun x hx => ?_⟩
  · rw [hroot, hquota]
    exact h.rootMax
  · rw [hroot, hquota, hslab]
    exact h.grown
  · rw [hquota, hused]
    exact h.current q ((hlive q).mp hq)
  · rw [hslab] at hq
    rw [hquota, hused]
    exact h.within q hq
  · rw [hcharges] at hx
    exact (hlive _).mpr (h.charged x hx)
  · rw [hcharges, hslab]
    exact h.children
  · rw [hcharges] at hx
    rw [hquota]
    exact h.reserved x hx

/-- A task that is made becomes one of the tasks. -/
theorem enter (h : s.Accounts) (hx : x ∈ s.charges) (hp : ∀ n, x.payee ≠ .quota n) (no chief : Nat) :
    Accounts { s with charges := { x with payee := .task no chief } :: s.charges.erase x } := by
  have hlive := h.charged x hx
  have hsum : ∀ q, sumOf ({ x with payee := .task no chief } :: s.charges.erase x) q = s.used q := fun q => by
    rw [used_erase hx q, sumOf_cons]
  have hnone : x.child = none := by
    unfold Charge.child
    cases hpx : x.payee with
    | quota n => exact absurd hpx (hp n)
    | _ => rfl
  have hperm := (List.perm_cons_erase hx).filterMap Charge.child
  rw [List.filterMap_cons_none hnone] at hperm
  have hre : Accounts { s.setCurrent x.quota (s.quota x.quota).current with
      charges := { x with payee := .task no chief } :: s.charges.erase x } := by
    refine h.recharge ?_ (fun q' _ => hsum q') (fun hm => ?_) (fun y hy => ?_) ?_ fun y hy n hn => ?_
    · rw [hsum, h.current _ hlive]
    · rw [hsum]
      exact (h.within _ hm).1
    · obtain rfl | hy := List.mem_cons.mp hy
      · exact hlive
      · exact h.charged y (List.mem_of_mem_erase hy)
    · rw [List.filterMap_cons_none rfl]
      exact hperm.symm
    · obtain rfl | hy := List.mem_cons.mp hy
      · cases hn
      · exact List.mem_of_mem_erase hy
  exact hre.congr rfl (Function.update_eq_self _ _).symm rfl rfl

omit [DecidableEq C] in
/-- A new quota below `q`. -/
theorem grow (h : s.Accounts) (hq : s.Live q) {d : QuotaDesc}
    (hfit : q ∈ s.slab → s.used q + d.reservation ≤ (s.quota q).max) (hn : ¬ s.Live n) :
    Accounts { s with
      quota := Function.update (s.setCurrent q ((s.used q + d.reservation) % 2 ^ 32)).quota n
        { parent := some q, current := 0, max := d.amount }
      slab := n :: s.slab
      charges := ⟨q, d.reservation, .quota n⟩ :: s.charges } := by
  have hne : ∀ {q'}, s.Live q' → q' ≠ n := fun hq' e => hn (e ▸ hq')
  generalize hv : (s.used q + d.reservation) % 2 ^ 32 = v
  have hself : sumOf (⟨q, d.reservation, .quota n⟩ :: s.charges) q = s.used q + d.reservation := by
    rw [sumOf_cons, if_pos rfl, Nat.add_comm]
    rfl
  have hother : ∀ q' ≠ q, sumOf (⟨q, d.reservation, .quota n⟩ :: s.charges) q' = s.used q' := fun q' hq' => by
    rw [sumOf_cons, if_neg (Ne.symm hq'), Nat.zero_add]
    rfl
  -- nothing is charged to the new quota
  have hzero : sumOf (⟨q, d.reservation, .quota n⟩ :: s.charges) n = 0 := by
    rw [hother n (hne hq).symm]
    refine List.sum_eq_zero fun z hz => ?_
    obtain ⟨y, hy, rfl⟩ := List.mem_map.mp hz
    exact if_neg (hne (h.charged y hy))
  have hold : ∀ {q'}, s.Live q' → Function.update (s.setCurrent q v).quota n
      { parent := some q, current := 0, max := d.amount } q' = (s.setCurrent q v).quota q' :=
    fun hq' => Function.update_of_ne (hne hq') ..
  refine ⟨?_, ⟨?_, fun p hp => ?_, ?_⟩, fun q' hq' => ?_, fun q' hq' => ?_, fun x hx => ?_, ?_,
    fun x hx m hm => ?_⟩
  · dsimp only
    rw [hold (.inl rfl), setCurrent_max]
    exact h.rootMax
  · dsimp only
    rw [List.append_eq, mem_append_root]
    exact hn
  · dsimp only at hp ⊢
    rw [Function.update_self] at hp
    cases hp
    exact mem_append_root.mpr hq
  · refine h.grown.congr fun q' hq' => ?_
    dsimp only
    rw [hold (mem_append_root.mp hq'), setCurrent_parent]
  · dsimp only [used]
    by_cases he : q' = n
    · subst he
      rw [hzero, Function.update_self]
      rfl
    · have hq'' : s.Live q' := hq'.imp_right fun hm => (List.mem_cons.mp hm).resolve_left he
      rw [hold hq'']
      by_cases hqq : q' = q
      · subst hqq
        rw [setCurrent_current, hself, hv]
      · rw [setCurrent_other hqq, hother q' hqq]
        exact h.current q' hq''
  · dsimp only [used]
    obtain rfl | hm := List.mem_cons.mp hq'
    · rw [hzero, Function.update_self]
      exact ⟨Nat.zero_le _, d.amount_lt⟩
    · rw [hold (.inr hm), setCurrent_max]
      by_cases hqq : q' = q
      · subst hqq
        rw [hself]
        exact ⟨hfit hm, (h.within q' hm).2⟩
      · rw [hother q' hqq]
        exact h.within q' hm
  · obtain rfl | hx := List.mem_cons.mp hx
    · exact hq.imp_right (List.mem_cons_of_mem _)
    · exact (h.charged x hx).imp_right (List.mem_cons_of_mem _)
  · exact h.children.cons n
  · dsimp only
    obtain rfl | hx := List.mem_cons.mp hx
    · cases hm
      rw [Function.update_self]
      exact ⟨rfl, rfl⟩
    · have hmem : m ∈ s.slab := h.children.mem_iff.mp
        (List.mem_filterMap.mpr ⟨x, hx, Charge.child_eq_some.mpr hm⟩)
      rw [hold (.inr hmem), setCurrent_parent, setCurrent_max]
      exact h.reserved x hx m hm

/-- A quota to which nothing is charged goes back to its parent. -/
theorem giveBack (h : s.Accounts) (hq : q ∈ s.slab) (hzero : s.used q = 0) :
    ∃ p, (s.quota q).parent = some p ∧ s.Live p ∧ p ≠ q ∧
      s.free p (sizeofQuota + (s.quota q).max) =
        .ok (s.setCurrent p ((s.used p - (sizeofQuota + (s.quota q).max)) % 2 ^ 32)) ∧
      Accounts { s.setCurrent p ((s.used p - (sizeofQuota + (s.quota q).max)) % 2 ^ 32) with
        slab := s.slab.erase q
        charges := s.charges.eraseP fun x => x.payee = .quota q } := by
  obtain ⟨x, hx, hpx⟩ := h.exists_charge hq
  obtain ⟨hparent, hsize⟩ := h.reserved x hx q hpx
  have hlive := h.charged x hx
  have hpos := x.size.2
  have hpq : x.quota ≠ q := ne_of_sumOf hx hzero
  have hle : (x.size : Nat) ≤ s.used x.quota := le_sumOf hx
  refine ⟨x.quota, hparent, hlive, hpq, ?_⟩
  rw [← hsize]
  refine ⟨h.free_spec hlive hpos.1 hpos.2 hle, ?_⟩
  -- the charge for `q` is the one that goes
  obtain ⟨y, l₁, l₂, _, hy, hl, herase⟩ := List.exists_of_eraseP hx (p := fun x => x.payee = .quota q)
    (by simpa using hpx)
  rw [decide_eq_true_eq] at hy
  have hperm : s.charges.Perm (y :: s.charges.eraseP fun x => x.payee = .quota q) := by
    rw [herase, hl]
    exact List.perm_middle
  have hyr := h.reserved y (hperm.mem_iff.mpr List.mem_cons_self) q hy
  have hyq : y.quota = x.quota := Option.some.inj (hyr.1.symm.trans hparent)
  have hys : (y.size : Nat) = x.size := hyr.2.trans hsize.symm
  have hsum : ∀ q', s.used q' = (if x.quota = q' then (x.size : Nat) else 0) +
      sumOf (s.charges.eraseP fun x => x.payee = .quota q) q' := fun q' => by
    rw [← hyq, ← hys, ← sumOf_cons]
    exact sumOf_perm hperm q'
  have hmem : ∀ z ∈ s.charges.eraseP fun x => x.payee = .quota q, z ∈ s.charges := fun z hz =>
    List.mem_of_mem_eraseP hz
  generalize (s.charges.eraseP fun x => x.payee = .quota q) = rest at hperm hsum hmem
  generalize hv : (s.used x.quota - x.size) % 2 ^ 32 = v
  have hself := hsum x.quota
  rw [if_pos rfl] at hself
  have hother : ∀ q' ≠ x.quota, sumOf rest q' = s.used q' := fun q' hq' => by
    rw [hsum q', if_neg (Ne.symm hq'), Nat.zero_add]
  have hnodup : s.slab.Nodup := (List.nodup_append.mp h.grown.nodup).1
  have hslab : ∀ {q'}, q' ∈ s.slab.erase q ↔ q' ≠ q ∧ q' ∈ s.slab := hnodup.mem_erase_iff
  have hold : ∀ {q'}, q' = s.root ∨ q' ∈ s.slab.erase q → s.Live q' := fun hq' =>
    hq'.imp_right fun hm => (hslab.mp hm).2
  refine ⟨?_, ?_, fun q' hq' => ?_, fun q' hq' => ?_, fun z hz => ?_, ?_, fun z hz m hm => ?_⟩
  · dsimp only
    rw [setCurrent_max]
    exact h.rootMax
  · have htree : (s.slab ++ [s.root]).erase q = s.slab.erase q ++ [s.root] := List.erase_append_left _ hq
    show Grown _ (s.slab.erase q ++ [s.root])
    rw [← htree]
    refine (h.grown.erase fun z hz hp => ?_).congr fun z _ => setCurrent_parent
    obtain rfl | hm := mem_append_root.mp hz
    · rw [h.grown.last_parent] at hp
      cases hp
    · obtain ⟨w, hw, hpw⟩ := h.exists_charge hm
      have hwq := (h.reserved w hw z hpw).1
      exact ne_of_sumOf hw hzero (Option.some.inj (hwq.symm.trans hp))
  · dsimp only [used]
    by_cases he : q' = x.quota
    · subst he
      rw [setCurrent_current, ← hv, hself, Nat.add_sub_cancel_left]
    · rw [setCurrent_other he, hother q' he]
      exact h.current q' (hold hq')
  · dsimp only [used]
    have hm := (hslab.mp hq').2
    rw [setCurrent_max]
    refine ⟨le_trans ?_ (h.within q' hm).1, (h.within q' hm).2⟩
    rw [hsum q']
    exact Nat.le_add_left _ _
  · exact (h.charged z (hmem z hz)).imp_right fun hm => hslab.mpr ⟨ne_of_sumOf (hmem z hz) hzero, hm⟩
  · have hp := hperm.filterMap Charge.child
    rw [List.filterMap_cons_some (Charge.child_eq_some.mpr hy)] at hp
    exact (hp.symm.trans (h.children.trans (List.perm_cons_erase hq))).cons_inv
  · dsimp only
    rw [setCurrent_parent, setCurrent_max]
    exact h.reserved z (hmem z hz) m hm

end Accounts

/-- The task of a thread that goes by the quota of its own task is there. -/
structure Inv (taskOf : C → Nat) (s : Quotas C Q) : Prop where
  accounts : s.Accounts
  own : ∀ c q, s.claim c = some (.own q) →
    ∃ x ∈ s.charges, (∃ chief, x.payee = .task (taskOf c) chief) ∧ x.quota = q

/-- The quotas in the hands of the threads are there. -/
def Held (s : Quotas C Q) : Prop := ∀ c claim, s.claim c = some claim → s.Live claim.quota

namespace Event

/-- The steps that meet a quota that is gone. -/
def Dangles (s : Quotas C Q) (q : Q) : Event C Q → Prop
  | .newQuota c _ => ¬ s.Live q ∧ ∃ d, s.claim c = some (.asked q d)
  | .createTask c => ¬ s.Live q ∧ (s.claim c = some (.shared q) ∨ s.claim c = some (.fresh q))
  | .reap c => ¬ s.Live q ∧ s.claim c = some (.reaping q)
  | _ => False

/-- A quota is given back only if no other thread has it in its hands. -/
def Careful (s : Quotas C Q) : Event C Q → Prop
  | .reap c => ∀ q, s.claim c = some (.reaping q) → (s.quota q).current = 0 → q ≠ s.root →
      ∀ c' ≠ c, ∀ claim, s.claim c' = some claim → claim.quota ≠ q
  | _ => True

end Event

variable {taskOf : C → Nat} {c : C} {e : Event C Q} {claim : Option (Claim Q)}

/-- What a step keeps. -/
def Kept (taskOf : C → Nat) (s : Quotas C Q) (careful : Prop) (s' : Quotas C Q) : Prop :=
  s'.Inv taskOf ∧ (careful → s.Held → s'.Held)

omit [DecidableEq C] in
theorem Inv.live (h : s.Inv taskOf) (hc : s.claim c = some (.own q)) : s.Live q := by
  obtain ⟨x, hx, _, rfl⟩ := h.own c q hc
  exact h.accounts.charged x hx

theorem Inv.setClaim (h : s.Inv taskOf) (hown : ∀ q, claim = some (.own q) →
    ∃ x ∈ s.charges, (∃ chief, x.payee = .task (taskOf c) chief) ∧ x.quota = q) :
    (s.setClaim c claim).Inv taskOf := by
  refine ⟨h.accounts.congr rfl rfl rfl rfl, fun c' q hc => ?_⟩
  by_cases he : c' = c
  · subst he
    rw [setClaim_self] at hc
    exact hown q hc
  · rw [setClaim_other he] at hc
    exact h.own c' q hc

omit [DecidableEq Q] in
theorem Held.setClaim (h : s.Held) (hlive : ∀ cl, claim = some cl → s.Live cl.quota) :
    (s.setClaim c claim).Held := by
  intro c' cl hc
  by_cases he : c' = c
  · subst he
    rw [setClaim_self] at hc
    exact hlive cl hc
  · rw [setClaim_other he] at hc
    exact h c' cl hc

omit [DecidableEq C] in
/-- A step that changes neither the claims nor which quotas there are. -/
theorem Inv.kept (h : s.Inv taskOf) {careful : Prop} (ha : s'.Accounts) (hclaim : s'.claim = s.claim)
    (hroot : s'.root = s.root) (hslab : s'.slab = s.slab)
    (hkeep : ∀ c q, s.claim c = some (.own q) → ∀ x ∈ s.charges,
      (∃ chief, x.payee = .task (taskOf c) chief) → x ∈ s'.charges) : Kept taskOf s careful s' := by
  refine ⟨⟨ha, fun c q hc => ?_⟩, fun _ hheld c cl hc => ?_⟩
  · rw [hclaim] at hc
    obtain ⟨x, hx, htask, hq⟩ := h.own c q hc
    exact ⟨x, hkeep c q hc x hx htask, htask, hq⟩
  · rw [hclaim] at hc
    unfold Live
    rw [hroot, hslab]
    exact hheld c cl hc

omit [DecidableEq C] in
theorem Inv.refl (h : s.Inv taskOf) {careful : Prop} : Kept taskOf s careful s :=
  ⟨h, fun _ hheld => hheld⟩

theorem Kept.setClaim {careful : Prop} (h : Kept taskOf s careful s')
    (hown : ∀ q, claim ≠ some (.own q)) (hlive : ∀ cl, claim = some cl → s'.Live cl.quota) :
    Kept taskOf s careful (s'.setClaim c claim) :=
  ⟨h.1.setClaim fun q hc => absurd hc (hown q), fun hcareful hheld => (h.2 hcareful hheld).setClaim hlive⟩

theorem charge_outcome (h : s.Inv taskOf) {size : Size} {payee : Payee C Q} (hp : ∀ n, payee ≠ .quota n) :
    Outcome (Kept taskOf s True) (fun e => e = q ∧ ¬ s.Live q) (s.charge q size payee) := by
  unfold charge
  by_cases hq : s.Live q
  · obtain ⟨hr, hfit⟩ | hr := h.accounts.alloc_spec hq size.2.2
    · rw [hr]
      refine h.kept (h.accounts.pay hq hfit hp) rfl rfl rfl fun c q _ x hx _ => ?_
      exact List.mem_cons_of_mem _ hx
    · rw [hr]
      exact h.refl
  · rw [alloc, if_neg hq]
    exact ⟨rfl, hq⟩

theorem release_eq (h : s.Accounts) (hx : x ∈ s.charges) : s.release x =
    .ok { s.setCurrent x.quota ((s.used x.quota - x.size) % 2 ^ 32) with charges := s.charges.erase x } := by
  unfold release
  rw [h.free_spec (h.charged x hx) x.size.2.1 x.size.2.2 (le_sumOf hx)]
  rfl

theorem release_outcome (h : s.Inv taskOf) (hx : x ∈ s.charges) (hp : ∀ n, x.payee ≠ .quota n)
    (htask : ∀ no chief, x.payee = .task no chief → ∀ c, taskOf c = no → s.claim c = none) :
    Outcome (Kept taskOf s True) (fun _ => False) (s.release x) := by
  rw [release_eq h.accounts hx]
  refine h.kept (h.accounts.repay hx hp) rfl rfl rfl fun c q hc y hy hpy => ?_
  obtain ⟨chief, hpy⟩ := hpy
  refine (List.mem_erase_of_ne ?_).mpr hy
  rintro rfl
  rw [htask _ _ hpy c rfl] at hc
  cases hc

omit [DecidableEq C] [DecidableEq Q] in
theorem task_spec {no chief : Nat} (h : s.task no = some (x, chief)) :
    x ∈ s.charges ∧ x.payee = .task no chief := by
  obtain ⟨y, hy, hr⟩ := List.exists_of_findSome?_eq_some h
  split at hr
  · split at hr
    · rename_i n k hp hn
      cases hr
      exact ⟨hy, hn ▸ hp⟩
    · cases hr
  · cases hr

omit [DecidableEq C] [DecidableEq Q] in
theorem refQuota_spec {caller ref : Nat} (h : s.refQuota caller ref = some q) :
    ∃ x ∈ s.charges, x.quota = q := by
  unfold refQuota at h
  split at h
  · rename_i x chief ht
    split at h
    · cases h
      exact ⟨x, (task_spec ht).1, rfl⟩
    · cases h
  · cases h

omit [DecidableEq C] [DecidableEq Q] in
theorem lookup_spec {caller : Nat} {d : QuotaDesc} {cl : Claim Q} (h : s.lookup caller d = some cl) :
    (∃ x ∈ s.charges, x.quota = cl.quota) ∧ ∀ q, cl = .own q →
      ∃ x ∈ s.charges, (∃ chief, x.payee = .task caller chief) ∧ x.quota = q := by
  unfold lookup at h
  split at h
  · obtain ⟨q, hq, rfl⟩ := Option.map_eq_some_iff.mp h
    exact ⟨refQuota_spec hq, fun _ hc => by cases hc⟩
  · split at h
    · obtain ⟨q, hq, rfl⟩ := Option.map_eq_some_iff.mp h
      exact ⟨refQuota_spec hq, fun _ hc => by cases hc⟩
    · obtain ⟨t, ht, rfl⟩ := Option.map_eq_some_iff.mp h
      obtain ⟨x, chief⟩ := t
      obtain ⟨hx, hp⟩ := task_spec ht
      refine ⟨⟨x, hx, rfl⟩, fun q hq => ?_⟩
      cases hq
      exact ⟨x, hx, ⟨chief, hp⟩, rfl⟩

theorem lookup_kept (h : s.Inv taskOf) (c : C) (d : QuotaDesc) :
    Kept taskOf s True (s.setClaim c (s.lookup (taskOf c) d)) := by
  refine ⟨h.setClaim fun q hq => (lookup_spec hq).2 q rfl, fun _ hheld => hheld.setClaim fun cl hcl => ?_⟩
  obtain ⟨x, hx, hq⟩ := (lookup_spec hcl).1
  exact hq ▸ h.accounts.charged x hx

theorem newQuota_outcome (h : s.Inv taskOf) {nq : Option Q} {d : QuotaDesc}
    (hc : s.claim c = some (.asked q d)) (hn : ∀ n, nq = some n → ¬ s.Live n) :
    Outcome (Kept taskOf s True) (fun e => e = q ∧ ¬ s.Live q) (s.newQuota c nq) := by
  unfold newQuota allocQuota
  rw [hc]
  dsimp only
  by_cases hq : s.Live q
  · obtain ⟨hr, hfit⟩ | hr := h.accounts.alloc_spec hq d.reservation.2.2
    · rw [show sizeofQuota + d.amount = (d.reservation : Nat) from rfl, hr]
      cases nq with
      | some n =>
        have hkept : Kept taskOf s True _ :=
          ⟨⟨h.accounts.grow hq hfit (hn n rfl), fun c' q' hc' => by
            obtain ⟨x, hx, hx'⟩ := h.own c' q' hc'
            exact ⟨x, List.mem_cons_of_mem _ hx, hx'⟩⟩,
          fun _ hheld c' cl hc' => (hheld c' cl hc').imp_right (List.mem_cons_of_mem _)⟩
        exact hkept.setClaim (fun q hq => by cases hq) fun cl hcl => by
          cases hcl
          exact .inr List.mem_cons_self
      | none =>
        have hkept : Kept taskOf s True _ := h.kept (h.accounts.pay hq hfit fun n (hp : Payee.lost = _) =>
          by cases hp) rfl rfl rfl fun c q _ x hx _ => List.mem_cons_of_mem _ hx
        exact hkept.setClaim (fun q hq => by cases hq) fun cl hcl => by cases hcl
    · rw [show sizeofQuota + d.amount = (d.reservation : Nat) from rfl, hr]
      exact h.refl.setClaim (fun q hq => by cases hq) fun cl hcl => by cases hcl
  · rw [alloc, if_neg hq]
    exact ⟨rfl, hq⟩

theorem createTask_outcome (h : s.Inv taskOf) {cl : Claim Q} (hc : s.claim c = some cl) :
    Outcome (Kept taskOf s True) (fun e => e = cl.quota ∧ ¬ s.Live cl.quota) (s.createTask c) := by
  unfold createTask
  rw [hc]
  refine (charge_outcome h fun n hp => by cases hp).bind fun s' hs' => ?_
  exact hs'.setClaim (fun q hq => by cases hq) fun cl hcl => by cases hcl

theorem register_outcome (h : s.Inv taskOf) (hx : x ∈ s.charges) (hp : x.payee = .making c) (no chief : Nat) :
    Outcome (Kept taskOf s True) (fun _ => False) (s.register x no chief) := by
  have hne : ∀ n, x.payee ≠ .quota n := fun n hn => by
    rw [hp] at hn
    cases hn
  unfold register
  split
  · refine release_outcome h hx hne fun no' chief' hp' => ?_
    rw [hp] at hp'
    cases hp'
  · refine h.kept (h.accounts.enter hx hne no chief) rfl rfl rfl fun c' q hc y hy hpy => ?_
    obtain ⟨chief', hpy⟩ := hpy
    refine List.mem_cons_of_mem _ ((List.mem_erase_of_ne ?_).mpr hy)
    rintro rfl
    rw [hp] at hpy
    cases hpy

theorem destroy_outcome (h : s.Inv taskOf) (hx : x ∈ s.charges) (hp : x.payee = .object) :
    Outcome (Kept taskOf s True) (fun _ => False) (s.destroy c x) := by
  have hne : ∀ n, x.payee ≠ .quota n := fun n hn => by
    rw [hp] at hn
    cases hn
  have hlive := h.accounts.charged x hx
  have hrelease := release_outcome h hx hne fun no chief hp' => by
    rw [hp] at hp'
    cases hp'
  unfold destroy
  rw [release_eq h.accounts hx] at hrelease ⊢
  exact hrelease.setClaim (fun q hq => by cases hq) fun cl hcl => by
    cases hcl
    exact hlive

theorem reap_outcome (h : s.Inv taskOf) (hc : s.claim c = some (.reaping q)) :
    Outcome (Kept taskOf s ((Event.reap c : Event C Q).Careful s)) (fun e => e = q ∧ ¬ s.Live q)
      (s.reap c) := by
  have hidle : Kept taskOf s ((Event.reap c : Event C Q).Careful s) (s.setClaim c none) :=
    h.refl.setClaim (fun q hq => by cases hq) fun cl hcl => by cases hcl
  unfold reap
  rw [hc]
  dsimp only
  by_cases hq : s.Live q
  · rw [if_pos hq]
    split
    · rename_i hzero
      unfold freeQuota
      by_cases hroot : q = s.root
      · rw [if_pos hroot]
        exact hidle
      · have hm := hq.resolve_left hroot
        obtain ⟨p, hparent, -, hpq, hfree, hacc⟩ := h.accounts.giveBack hm (h.accounts.current_eq hm ▸ hzero)
        rw [if_neg hroot, if_pos hq, hparent]
        dsimp only
        rw [hfree]
        refine ⟨⟨hacc.congr rfl rfl rfl rfl, fun c' q' hc' => ?_⟩, fun hcareful hheld c' cl hc' => ?_⟩
        · have hne : c' ≠ c := by
            rintro rfl
            rw [setClaim_self] at hc'
            cases hc'
          rw [setClaim_other hne] at hc'
          obtain ⟨x, hx, ⟨chief, hpx⟩, hxq⟩ := h.own c' q' hc'
          exact ⟨x, (List.mem_eraseP_of_neg (by simp [hpx])).mpr hx, ⟨chief, hpx⟩, hxq⟩
        · have hne : c' ≠ c := by
            rintro rfl
            rw [setClaim_self] at hc'
            cases hc'
          rw [setClaim_other hne] at hc'
          have hlive := hheld c' cl hc'
          have hother := hcareful q hc hzero hroot c' hne cl hc'
          exact hlive.imp_right fun hmem => (List.mem_erase_of_ne hother).mpr hmem
    · exact hidle
  · rw [if_neg hq]
    exact ⟨rfl, hq⟩

theorem step_outcome (h : s.Inv taskOf) (he : e.Enabled taskOf s) :
    Outcome (Kept taskOf s (e.Careful s)) (fun q => e.Dangles s q) (s.step taskOf e) := by
  have hlift : ∀ {r : Except Q (Quotas C Q)}, Outcome (Kept taskOf s True) (fun _ => False) r →
      Outcome (Kept taskOf s True) (fun q => e.Dangles s q) r :=
    fun hr => hr.mono (fun _ hk => hk) fun _ hf => hf.elim
  cases e with
  | charge q size =>
    refine (charge_outcome h fun n hp => by cases hp).mono (fun _ hk => hk) fun e hf => hf.2 ?_
    obtain rfl | ⟨x, hx, rfl, -⟩ := he
    · exact .inl rfl
    · exact h.accounts.charged x hx
  | release x =>
    refine hlift (release_outcome h he.1 (fun n hn => ?_) fun no chief hp c hno => ?_)
    · obtain hp | ⟨c, hp⟩ | ⟨no, chief, hp, -⟩ := he.2 <;>
      · rw [hn] at hp
        cases hp
    · obtain hp' | ⟨c', hp'⟩ | ⟨no', chief', hp', hidle⟩ := he.2 <;> rw [hp] at hp' <;> cases hp'
      exact hidle c hno
  | lookup c d => exact lookup_kept h c d
  | newQuota c nq =>
    obtain ⟨⟨q, d, hc⟩, hn⟩ := he
    refine (newQuota_outcome h hc hn).mono (fun _ hk => hk) fun e hf => ?_
    obtain ⟨rfl, hq⟩ := hf
    exact ⟨hq, d, hc⟩
  | createTask c =>
    obtain ⟨q, hc | hc | hc⟩ := he <;>
      refine (createTask_outcome h hc).mono (fun _ hk => hk) fun e hf => ?_ <;>
      obtain ⟨rfl, hq⟩ := hf
    · exact absurd (h.live hc) hq
    · exact ⟨hq, .inl hc⟩
    · exact ⟨hq, .inr hc⟩
  | createRoot c =>
    exact (charge_outcome h fun n hp => by cases hp).mono (fun _ hk => hk) fun e hf => hf.2 (.inl rfl)
  | register c x no chief => exact hlift (register_outcome h he.1 he.2 no chief)
  | destroy c x => exact hlift (destroy_outcome h he.1 he.2.1)
  | reap c =>
    obtain ⟨q, hc⟩ := he
    refine (reap_outcome h hc).mono (fun _ hk => hk) fun e hf => ?_
    obtain ⟨rfl, hq⟩ := hf
    exact ⟨hq, hc⟩
  | stop c => exact h.refl.setClaim (fun q hq => by cases hq) fun cl hcl => by cases hcl

/-- Only the root is there, and nothing is charged to it. -/
structure Booted (s : Quotas C Q) : Prop where
  root : (s.quota s.root).parent = none ∧ (s.quota s.root).current = 0 ∧
    (s.quota s.root).max = 2 ^ 32 - 1
  slab : s.slab = []
  charges : s.charges = []
  claim : ∀ c, s.claim c = none

omit [DecidableEq C] in
theorem Booted.inv (h : Booted s) : s.Inv taskOf := by
  have hlive : ∀ q, s.Live q → q = s.root := fun q hq => hq.resolve_right (by simp [h.slab])
  refine ⟨⟨h.root.2.2, ?_, fun q hq => ?_, ?_, ?_, ?_, ?_⟩, fun c q hc => ?_⟩
  · rw [h.slab]
    exact ⟨List.not_mem_nil, fun p hp => by simp [h.root.1] at hp, trivial⟩
  · rw [hlive q hq, h.root.2.1, used, h.charges]
    rfl
  · simp [h.slab]
  · simp [h.charges]
  · simp [h.slab, h.charges]
  · simp [h.charges]
  · rw [h.claim] at hc
    cases hc

variable (taskOf) in
/-- The states of all runs. -/
inductive Reachable : Quotas C Q → Prop
  | boot {s : Quotas C Q} : Booted s → Reachable s
  | step {s s' : Quotas C Q} {e : Event C Q} : Reachable s → e.Enabled taskOf s →
    s.step taskOf e = .ok s' → Reachable s'

variable (taskOf) in
/-- The states of the runs in which every step is careful. -/
inductive CarefullyReachable : Quotas C Q → Prop
  | boot {s : Quotas C Q} : Booted s → CarefullyReachable s
  | step {s s' : Quotas C Q} {e : Event C Q} : CarefullyReachable s → e.Enabled taskOf s → e.Careful s →
    s.step taskOf e = .ok s' → CarefullyReachable s'

theorem Reachable.inv (h : Reachable taskOf s) : s.Inv taskOf := by
  induction h with
  | boot h => exact h.inv
  | step _ he hr ih => exact ((step_outcome ih he).ok hr).1

theorem CarefullyReachable.held (h : CarefullyReachable taskOf s) : s.Inv taskOf ∧ s.Held := by
  induction h with
  | boot h =>
    refine ⟨h.inv, fun c cl hc => ?_⟩
    rw [h.claim] at hc
    cases hc
  | step _ he hcareful hr ih =>
    have hkept := (step_outcome ih.1 he).ok hr
    exact ⟨hkept.1, hkept.2 hcareful ih.2⟩

theorem CarefullyReachable.reachable (h : CarefullyReachable taskOf s) : Reachable taskOf s := by
  induction h with
  | boot h => exact .boot h
  | step _ he _ hr ih => exact ih.step he hr

/-- Only the root. -/
def onlyRoot : Quotas Bool Bool where
  taskSize := ⟨100, by decide⟩
  root := false
  quota _ := { parent := none, current := 0, max := 2 ^ 32 - 1 }
  slab := []
  charges := []
  claim _ := none

/-- A page. -/
def page : Size := ⟨4096, by decide⟩

/-- Task 4 has made task 5 with a quota of its own, in which task 5 has got a page. -/
def onePage : Quotas Bool Bool where
  taskSize := onlyRoot.taskSize
  root := false
  quota q := if q then { parent := some false, current := 4196, max := 0x4000 }
    else { parent := none, current := 0x4070, max := 2 ^ 32 - 1 }
  slab := [true]
  charges := [⟨true, page, .object⟩, ⟨true, onlyRoot.taskSize, .task 5 4⟩,
    ⟨false, QuotaDesc.reservation 0x20004004, .quota true⟩, ⟨false, onlyRoot.taskSize, .task 4 2⟩]
  claim _ := none

theorem onePage_reachable : CarefullyReachable (fun _ => 4) onePage := by
  have h₀ : CarefullyReachable (fun _ => 4) onlyRoot := .boot ⟨⟨rfl, rfl, rfl⟩, rfl, rfl, fun _ => rfl⟩
  have h₁ := h₀.step (e := .createRoot false) trivial trivial rfl
  have h₂ := h₁.step (e := .register false ⟨false, onlyRoot.taskSize, .making false⟩ 4 2)
    ⟨List.mem_cons_self, rfl⟩ trivial rfl
  have h₃ := h₂.step (e := .lookup false 0x20004004) rfl trivial rfl
  have h₄ := h₃.step (e := .newQuota false (some true)) ⟨⟨false, 0x20004004, rfl⟩, by decide⟩ trivial rfl
  have h₅ := h₄.step (e := .createTask false) ⟨true, .inr (.inr rfl)⟩ trivial rfl
  have h₆ := h₅.step (e := .register false ⟨true, onlyRoot.taskSize, .making false⟩ 5 4)
    ⟨List.mem_cons_self, rfl⟩ trivial rfl
  refine h₆.step (e := .charge true page) (.inr ⟨_, List.mem_cons_self, rfl, .inl ⟨5, 4, rfl⟩⟩) trivial ?_
  refine congrArg Except.ok (Quotas.ext rfl rfl (funext fun q => ?_) rfl rfl (funext fun c => ?_))
  · cases q <;> rfl
  · cases c <;> rfl

/-- If no quota is given back while another thread has it in its hands, every step meets only quotas that
are there. -/
theorem careful_quotas_live (h : CarefullyReachable taskOf s) :
    (∀ c claim, s.claim c = some claim → s.Live claim.quota) ∧
    ∀ (e : Event C Q) (q : Q), e.Enabled taskOf s → s.step taskOf e ≠ .error q := by
  obtain ⟨hinv, hheld⟩ := h.held
  refine ⟨hheld, fun e q he hr => ?_⟩
  have hd : e.Dangles s q := (step_outcome hinv he).error hr
  cases e with
  | newQuota c nq =>
    obtain ⟨hq, d, hc⟩ := hd
    exact hq (hheld c _ hc)
  | createTask c =>
    obtain ⟨hq, hc | hc⟩ := hd
    · exact hq (hheld c _ hc)
    · exact hq (hheld c _ hc)
  | reap c => exact hd.1 (hheld c _ hd.2)
  | charge | release | lookup | createRoot | register | destroy | stop => exact hd

theorem careful_quotas_live_onePage : ∃ s : Quotas Bool Bool, CarefullyReachable (fun _ => 4) s ∧
    s.claim true = some (.shared true) ∧ s.Live true ∧
    ∀ (e : Event Bool Bool) (q : Bool), e.Enabled (fun _ => 4) s → s.step (fun _ => 4) e ≠ .error q := by
  have h := onePage_reachable.step (e := .lookup true 0x10000005) rfl trivial rfl
  exact ⟨_, h, rfl, (careful_quotas_live h).1 true _ rfl, (careful_quotas_live h).2⟩

/-- What is charged to `q` itself, apart from the quotas below it. -/
def spentOf (charges : List (Charge C Q)) (q : Q) : Nat :=
  (charges.map fun x => if x.child = none ∧ x.quota = q then (x.size : Nat) else 0).sum

omit [DecidableEq C] in
/-- A charge is one of a quota below or one of the quota itself. -/
theorem sumOf_eq {quota : Q → RamQuota Q} (h : ∀ x ∈ charges, ∀ n, x.payee = .quota n →
    (quota n).parent = some x.quota ∧ (x.size : Nat) = sizeofQuota + (quota n).max) :
    sumOf charges q = spentOf charges q + ((charges.filterMap Charge.child).map fun n =>
      if (quota n).parent = some q then sizeofQuota + (quota n).max else 0).sum := by
  induction charges with
  | nil => rfl
  | cons x l ih =>
    have hrest := ih fun y hy => h y (List.mem_cons_of_mem _ hy)
    rw [sumOf_cons, hrest]
    cases hx : x.child with
    | none =>
      rw [List.filterMap_cons_none hx]
      simp [spentOf, hx, Nat.add_assoc]
    | some n =>
      obtain ⟨hp, hs⟩ := h x List.mem_cons_self n (Charge.child_eq_some.mp hx)
      rw [List.filterMap_cons_some hx, List.map_cons, List.sum_cons, hp, ← hs]
      simp only [spentOf, List.map_cons, hx, Option.some.injEq, reduceCtorEq, false_and, if_false,
        List.sum_cons]
      omega

omit [DecidableEq C] in
/-- The charges to some of the quotas, summed up by quota or one by one. -/
theorem sum_spentOf {nodes : List Q} (hnodes : nodes.Nodup) (P : Q → Prop) [DecidablePred P]
    (h : ∀ x ∈ charges, x.quota ∈ nodes) :
    (nodes.map fun n => if P n then spentOf charges n else 0).sum =
      (charges.map fun x => if x.child = none ∧ P x.quota then (x.size : Nat) else 0).sum := by
  induction charges with
  | nil =>
    refine List.sum_eq_zero fun z hz => ?_
    obtain ⟨n, _, rfl⟩ := List.mem_map.mp hz
    exact ite_self 0
  | cons x l ih =>
    have hsplit : ∀ n, (if P n then spentOf (x :: l) n else 0) =
        (if n = x.quota then (if x.child = none ∧ P x.quota then (x.size : Nat) else 0) else 0) +
          if P n then spentOf l n else 0 := by
      intro n
      by_cases hn : n = x.quota
      · subst hn
        by_cases hP : P x.quota <;> simp [spentOf, hP]
      · simp [spentOf, hn, Ne.symm hn]
    simp only [hsplit, List.sum_map_add, List.map_cons, List.sum_cons]
    rw [sum_single hnodes (h x List.mem_cons_self), ih fun y hy => h y (List.mem_cons_of_mem _ hy)]

omit [DecidableEq C] in
theorem Accounts.spent_le (h : s.Accounts) (q : Q) :
    spentOf s.charges q + handedDown (fun n => (s.quota n).parent) (fun n => (s.quota n).max)
      (s.slab ++ [s.root]) q ≤ s.used q := by
  rw [used, sumOf_eq h.reserved, ((h.children.map _).sum_eq)]
  have hroot : (s.quota s.root).parent = none := h.grown.last_parent
  simp only [handedDown, List.map_append, List.map_cons, List.map_nil, List.sum_append, List.sum_cons,
    List.sum_nil, hroot, reduceCtorEq, if_false, Nat.add_zero]
  refine Nat.add_le_add_left (List.sum_le_sum fun n _ => ?_) _
  split
  · exact Nat.le_add_left _ _
  · exact le_refl 0

end Quotas

end L4env.Fiasco
