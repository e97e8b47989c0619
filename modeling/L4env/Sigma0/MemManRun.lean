import L4env.Sigma0.MemManAdd

/-!
# The region trees of sigma0: runs

The trees stand for an ownership map, from addresses to the task that has them. In every run of
`add_free`, `alloc`, `alloc_first` and `morecore`, with any node allocator, every operation does to the
map what it says, as long as the memory for tree nodes suffices. The exceptions are in `Regular`: a
search by `alloc_first` must not come to a free region so close to the end of the address space that
rounding its start up wraps, and `add_free` must not be given pages that the node allocator has.
-/

namespace L4env.Sigma0

/-- The owners of the addresses of each map; sigma0 itself is not recorded. -/
abbrev Ownership := Mem → Nat → Option Nat

namespace Ownership

open Classical in
/-- The addresses `P` of the map `m` go to `o`. -/
noncomputable def assign (w : Ownership) (m : Mem) (P : Nat → Prop) (o : Nat) : Ownership :=
  fun m' a => if m' = m ∧ P a then if o = sigma0TaskNo then none else some o else w m' a

open Classical in
/-- The pages go to sigma0. -/
noncomputable def without (w : Ownership) (ps : List (Mem × Nat)) : Ownership :=
  fun m a => if OnPages ps m a then none else w m a

/-- All addresses of the region belong to `o`. -/
def Uniform (w : Ownership) (m : Mem) (r : Region) (o : Nat) : Prop :=
  ∀ a, r.Covers a → w m a = some o

end Ownership

variable {A : Type} {N : NodeAlloc A} {V : Balancing} {s s' s₁ : State A} {m m' : Mem}
  {r r₁ k q : Region} {a o p n size : Nat} {b : Bool} {ps : List (Mem × Nat)}

namespace State

/-- The map that the trees stand for. -/
def ownership (s : State A) : Ownership := fun m a =>
  ((s.keys m).find? fun q => q.Covers a).map Region.owner

theorem TreeInv.ownership_eq (h : s.TreeInv) : s.ownership m a = some o ↔ s.Owns m a o := by
  unfold ownership
  rw [Option.map_eq_some_iff]
  constructor
  · rintro ⟨q, hq, rfl⟩
    exact ⟨q, List.mem_of_find?_eq_some hq, by simpa using List.find?_some hq, rfl⟩
  · rintro ⟨q, hq, ha, rfl⟩
    cases hf : (s.keys m).find? fun q => q.Covers a with
    | none =>
      rw [List.find?_eq_none] at hf
      exact absurd ha (by simpa using hf q hq)
    | some q' =>
      have hq' := h.eq_of_covers (List.mem_of_find?_eq_some hf) hq
        (by simpa using List.find?_some hf) ha
      exact ⟨q', rfl, by rw [hq']⟩

/-- Neighbouring regions have different owners, so a region in which all addresses have the same owner
lies in one region of the tree. -/
theorem TreeInv.in_one_iff (h : s.TreeInv) (hr : r.Ok) :
    (∃ q ∈ s.keys m, q.contains r = true ∧ q.owner = o) ↔ s.ownership.Uniform m r o := by
  constructor
  · rintro ⟨q, hq, hc, rfl⟩ a ha
    obtain ⟨hle, hge⟩ := Region.contains_iff.mp hc
    exact h.ownership_eq.mpr ⟨q, hq, ⟨Nat.le_trans hle ha.1, Nat.le_trans ha.2 hge⟩, rfl⟩
  · intro hu
    obtain ⟨q, hq, hc, hqo⟩ := h.ownership_eq.mp (hu r.start ⟨Nat.le_refl _, hr.le⟩)
    refine ⟨q, hq, Region.contains_iff.mpr ⟨hc.1, ?_⟩, hqo⟩
    -- else the next address is in a neighbour with the same owner
    by_contra hlt
    have hle := hc.2
    obtain ⟨q', hq', hc', hqo'⟩ := h.ownership_eq.mp (hu (q.stop + 1) ⟨by omega, by omega⟩)
    refine h.apart m q hq q' hq' ?_ (hqo.trans hqo'.symm)
    by_contra hne
    have hok := (h.ok m q hq).le
    have hstart := hc'.1
    have hstop := hc'.2
    have heq := h.eq_of_covers hq hq' ⟨hok, Nat.le_refl _⟩ ⟨by omega, by omega⟩
    rw [heq] at hstop
    omega

/-- An aligned block in a free region. -/
def FreeBlock (s : State A) (m : Mem) (size b : Nat) : Prop :=
  size ∣ b ∧ ∃ q ∈ s.keys m, q.owner = 0 ∧ q.start ≤ b ∧ b + size - 1 ≤ q.stop

/-- `r` lies in one region that is free or belongs to the owner of `r`. -/
def Allocatable (s : State A) (m : Mem) (r : Region) : Prop :=
  r.valid = true ∧ ∃ q ∈ s.keys m, q.contains r = true ∧ (q.owner = 0 ∨ q.owner = r.owner)

/-- The addresses of `r` and of the regions that overlap it. -/
def Joined (s : State A) (m : Mem) (r : Region) (a : Nat) : Prop :=
  r.Covers a ∨ ∃ q ∈ s.keys m, (∃ c, q.Covers c ∧ r.Covers c) ∧ q.Covers a

/-- The addresses `P` of the map `m` change their owner to `o`. Free pages outside of `P` may go to
the node allocator. -/
def Changed (s s' : State A) (m : Mem) (P : Nat → Prop) (o : Nat) : Prop :=
  ∃ ps, s'.pages = ps ++ s.pages ∧
    (∀ p ∈ ps, p.2 % pageSize = 0 ∧
      ∀ a, p.2 ≤ a → a ≤ p.2 + 4095 → s.ownership p.1 a = some 0) ∧
    (∀ a, P a → ¬ OnPages ps m a) ∧ s'.ownership = (s.ownership.assign m P o).without ps

end State

/-! ## Operations -/

inductive Op
  | addFree (m : Mem) (r : Region)
  | alloc (m : Mem) (r : Region)
  | allocFirst (m : Mem) (size owner : Nat)
  | morecore (m : Mem)

inductive Answer
  | done (b : Bool)
  | addr (a : Nat)
  deriving DecidableEq

def exec (N : NodeAlloc A) (V : Balancing) (n : Nat) (s : State A) :
    Op → Option (Answer × State A)
  | .addFree m r => (s.addFree N V n m r).map fun p => (.done p.1, p.2)
  | .alloc m r => (s.alloc N V n m r).map fun p => (.addr p.1, p.2)
  | .allocFirst m size owner => (s.allocFirst N V n m size owner).map fun p => (.addr p.1, p.2)
  | .morecore m => (State.morecore N V n s m).map fun p => (.done p.1, p.2)

/-- Regions of pages, and sizes that are powers of two from one page on. -/
def Op.PageAligned : Op → Prop
  | .addFree _ r => r.Aligned
  | .alloc _ r => r.Aligned
  | .allocFirst _ size _ => ∃ k, 12 ≤ k ∧ k < 32 ∧ size = 2 ^ k
  | .morecore _ => True

/-- `add_free` gets free memory without pages of the node allocator. The owner for `alloc_first` fits
its field, and the search ends before a free region whose start, rounded up, wraps. -/
def Op.Regular (s : State A) : Op → Prop
  | .addFree m r => r.owner = 0 ∧ ∀ a, r.Covers a → ¬ OnPages s.pages m a
  | .alloc _ _ => True
  | .allocFirst m size owner => owner ≤ 0xfff ∧
      ∀ q ∈ s.keys m, q.owner = 0 → 4294967296 < q.start + size →
        ∃ b < q.start, s.FreeBlock m size b
  | .morecore _ => True

/-- What an operation does to the ownership map. -/
def Op.Meets (s : State A) (op : Op) (ans : Answer) (s' : State A) : Prop :=
  match op with
  | .addFree m r =>
    ans = .done true ∧ if r.valid then State.Changed s s' m (s.Joined m r) 0 else s' = s
  | .alloc m r =>
    (s.Allocatable m r ∧ ans = .addr r.start ∧ State.Changed s s' m r.Covers r.owner) ∨
      (¬ s.Allocatable m r ∧ ans = .addr noAddr ∧ s' = s)
  | .allocFirst m size owner =>
    (∃ b, IsLeast {b | s.FreeBlock m size b} b ∧ ans = .addr b ∧
      State.Changed s s' m (fun a => b ≤ a ∧ a < b + size) owner) ∨
      ((∀ b, ¬ s.FreeBlock m size b) ∧ ans = .addr noAddr ∧ s' = s)
  | .morecore m =>
    (∃ p, ans = .done true ∧ s'.pages = (m, p) :: s.pages ∧ p % pageSize = 0 ∧
      (∀ a, p ≤ a → a ≤ p + 4095 → s.ownership m a = some 0) ∧
      s'.ownership = s.ownership.without [(m, p)]) ∨
      ((∀ a, s.ownership m a ≠ some 0) ∧ ans = .done false ∧ s' = s)

/-- The states of the runs in which the memory for the tree nodes suffices. -/
inductive Reachable (N : NodeAlloc A) (V : Balancing) : State A → Prop
  | init (a : A) : Reachable N V (State.init a)
  | step {s s' : State A} {op : Op} {ans : Answer} : Reachable N V s → op.PageAligned →
      op.Regular s → Returns (fun n => exec N V n s op) (ans, s') → s'.outOfMemory = false →
      Reachable N V s'

namespace State

theorem init_inv (a : A) : (State.init a).Inv := by
  have hkeys : ∀ m q, q ∉ (State.init a).keys m := fun m q hq => by cases hq
  exact ⟨⟨fun m q hq => absurd hq (hkeys m q), fun m => .nil, fun m q hq => absurd hq (hkeys m q),
    fun m q hq => absurd hq (hkeys m q)⟩, fun m a o ⟨q, hq, _⟩ => absurd hq (hkeys m q)⟩

theorem Assigned.changed {P : Nat → Prop} (h : Assigned s s' m P o ps) (hs : s.Inv)
    (hf : s'.outOfMemory = false) : Changed s s' m P o := by
  refine ⟨ps, h.pages, fun p hp => ⟨(h.free p hp).1, fun a hle hge =>
    hs.ownership_eq.mpr ((h.free p hp).2 a hle hge)⟩, h.apart, ?_⟩
  funext m' a
  refine Option.ext fun o' => ?_
  rw [h.inv.ownership_eq, h.owns hf]
  unfold Ownership.without Ownership.assign
  by_cases hp : OnPages ps m' a
  · rw [if_pos hp]
    constructor
    · rintro (⟨-, -, hne⟩ | ⟨rfl, hP, -⟩)
      · exact absurd hp hne
      · exact absurd hp (h.apart a hP)
    · rintro ⟨⟩
  · rw [if_neg hp]
    by_cases hP : m' = m ∧ P a
    · rw [if_pos hP]
      by_cases hown : o = sigma0TaskNo
      · rw [if_pos hown]
        exact ⟨fun hc => by tauto, fun hc => by cases hc⟩
      · rw [if_neg hown]
        simp only [Option.some.injEq]
        constructor
        · rintro (⟨hne, -⟩ | ⟨-, -, rfl, -⟩)
          · exact absurd hP hne
          · rfl
        · rintro rfl
          exact .inr ⟨hP.1, hP.2, rfl, hown⟩
    · rw [if_neg hP, hs.ownership_eq]
      constructor
      · rintro (⟨-, hq, -⟩ | ⟨hm, ha, -⟩)
        · exact hq
        · exact absurd ⟨hm, ha⟩ hP
      · exact fun hq => .inl ⟨hP, hq, hp⟩

/-! ## `add_free` -/

/-- The loop of `add_free` takes out what overlaps, one region a round. -/
theorem Inv.joinLoop (c : Nat) : ∀ {s : State A} {r : Region}, (s.keys m).length = c → s.Inv → r.Ok →
    ∃ r' s', (∀ n ≥ c + 1, State.joinLoop N V n s m r = some (r', s')) ∧ r'.Ok ∧
      r'.owner = r.owner ∧ Cut s s' m r'.Covers ∧ ∀ a, r'.Covers a ↔ s.Joined m r a := by
  induction c with
  | zero =>
    intro s r hc h hr
    have hkeys := List.length_eq_zero_iff.mp hc
    have hnone : ∀ q ∈ s.keys m, False := by simp [hkeys]
    refine ⟨r, s, fun n hn => ?_, hr, rfl, ⟨h.toTreeInv, rfl, rfl, fun m' a o => ?_⟩, fun a => ?_⟩
    · obtain ⟨n, rfl⟩ := Nat.exists_eq_add_of_le' hn
      rw [State.joinLoop]
      cases hf : s.treeFind m r with
      | none => rfl
      | some k => exact (hnone k (SearchTree.find_mem hf).1).elim
    · refine ⟨fun hq => ⟨hq, ?_⟩, fun hq => hq.1⟩
      rintro ⟨rfl, -⟩
      obtain ⟨q, hq, -⟩ := hq
      exact hnone q hq
    · exact ⟨.inl, fun hj => hj.resolve_right fun ⟨q, hq, _⟩ => hnone q hq⟩
  | succ c ih =>
    intro s r hc h hr
    cases hf : s.treeFind m r with
    | none =>
      -- nothing overlaps
      have hapart : ∀ q ∈ s.keys m, ∀ a, q.Covers a → ¬ r.Covers a := by
        intro q hq a ha hra
        have hlt := SearchTree.find_none (h.sorted m) hf q hq
        rw [Region.lt_iff, Region.lt_iff] at hlt
        obtain ⟨hle, hge⟩ := ha
        obtain ⟨hle', hge'⟩ := hra
        omega
      refine ⟨r, s, fun n hn => ?_, hr, rfl, ⟨h.toTreeInv, rfl, rfl, fun m' a o => ?_⟩, fun a => ?_⟩
      · obtain ⟨n, rfl⟩ := Nat.exists_eq_add_of_le' hn
        rw [← Nat.add_assoc, State.joinLoop, hf]
      · refine ⟨fun hq => ⟨hq, ?_⟩, fun hq => hq.1⟩
        rintro ⟨rfl, hra⟩
        obtain ⟨q, hq, ha, -⟩ := hq
        exact hapart q hq a ha hra
      · exact ⟨.inl, fun hj => hj.resolve_right fun ⟨q, hq, ⟨c, hqc, hrc⟩, _⟩ => hapart q hq c hqc hrc⟩
    | some k =>
      obtain ⟨hk, hk₁, hk₂⟩ := SearchTree.find_mem hf
      rw [Region.lt_false_iff] at hk₁ hk₂
      have hok := h.ok m k hk
      have hcut := h.treeRemove (N := N) (V := V) hk
      -- `r` with `k`
      obtain ⟨r₁, hr₁, hok₁, hown₁, hcov₁⟩ : ∃ r₁, (fun r : Region => if k.stop > r.stop then
          r.setStop k.stop else r) (if k.start < r.start then r.setStart k.start else r) = r₁ ∧
          r₁.Ok ∧ r₁.owner = r.owner ∧ ∀ a, r₁.Covers a ↔ r.Covers a ∨ k.Covers a := by
        refine ⟨_, rfl, ?_⟩
        have hlt := hok.start_lt
        have hmod := hok.start_mod
        have hle := hok.le
        have hrle := hr.le
        have hset : (r.setStart k.start).start = k.start := by
          rw [Region.setStart_start hlt, hmod, Nat.sub_zero]
        have hsetown := Region.setStart_owner (r := r) hlt
        by_cases hs : k.start < r.start <;> by_cases he : k.stop > r.stop
        · simp only [if_pos hs, Region.setStart_stop, if_pos he]
          refine ⟨(hr.setStart hlt hmod (by omega)).setStop hok.stop_lt hok.stop_mod
            (by rw [hset]; omega), hsetown, fun a => ?_⟩
          unfold Region.Covers
          rw [Region.setStop_start, Region.setStop_stop, hset]
          omega
        · simp only [if_pos hs, Region.setStart_stop, if_neg he]
          refine ⟨hr.setStart hlt hmod (by omega), hsetown, fun a => ?_⟩
          unfold Region.Covers
          rw [Region.setStart_stop, hset]
          omega
        · simp only [if_neg hs, if_pos he]
          refine ⟨hr.setStop hok.stop_lt hok.stop_mod (by omega), Region.setStop_owner, fun a => ?_⟩
          unfold Region.Covers
          rw [Region.setStop_start, Region.setStop_stop]
          omega
        · simp only [if_neg hs, if_neg he]
          refine ⟨hr, trivial, fun a => ?_⟩
          unfold Region.Covers
          omega
      have hedit := h.treeRemove_edit (N := N) (V := V) hk
      obtain ⟨B, C, hB, hC⟩ := hedit.split
      have hlen : ((s.treeRemove N V m k).keys m).length = c := by
        rw [hB] at hc
        rw [hC]
        simp only [List.length_append, List.length_cons, List.length_nil] at hc ⊢
        omega
      have hmem : ∀ q, q ∈ s.keys m ↔ q = k ∨ q ∈ (s.treeRemove N V m k).keys m := by
        intro q
        rw [hB, hC]
        simp only [List.mem_append, List.mem_cons, List.not_mem_nil]
        tauto
      have hkout : k ∉ (s.treeRemove N V m k).keys m := fun hin =>
        ((hcut.owns m k.start k.owner).mp ⟨k, hin, ⟨Nat.le_refl _, hok.le⟩, rfl⟩).2
          ⟨rfl, Nat.le_refl _, hok.le⟩
      obtain ⟨r', s', hloop, hok', hown', hcut', hcov'⟩ := ih hlen (hcut.inv_of h) hok₁
      have hjoin : ∀ a, r'.Covers a ↔ s.Joined m r a := by
        intro a
        rw [hcov', Joined, Joined, hcov₁]
        constructor
        · rintro ((ha | ha) | ⟨q, hq, ⟨c, hqc, hrc⟩, ha⟩)
          · exact .inl ha
          · exact .inr ⟨k, hk, ⟨max k.start r.start, ⟨le_max_left .., max_le hok.le hk₂⟩,
              ⟨le_max_right .., max_le hk₁ hr.le⟩⟩, ha⟩
          · have hq' := (hmem q).mpr (.inr hq)
            rcases (hcov₁ c).mp hrc with hrc | hkc
            · exact .inr ⟨q, hq', ⟨c, hqc, hrc⟩, ha⟩
            · rw [h.eq_of_covers hq' hk hqc hkc] at hq
              exact absurd hq hkout
        · rintro (ha | ⟨q, hq, ⟨c, hqc, hrc⟩, ha⟩)
          · exact .inl (.inl ha)
          · rcases (hmem q).mp hq with rfl | hq
            · exact .inl (.inr ha)
            · exact .inr ⟨q, hq, ⟨c, hqc, (hcov₁ c).mpr (.inl hrc)⟩, ha⟩
      refine ⟨r', s', fun n hn => ?_, hok', hown'.trans hown₁, ⟨hcut'.inv,
        hcut'.pages.trans hcut.pages, hcut'.outOfMemory.trans hcut.outOfMemory, fun m' a o => ?_⟩,
        hjoin⟩
      · obtain ⟨n, rfl⟩ := Nat.exists_eq_add_of_le' hn
        rw [← Nat.add_assoc, State.joinLoop, hf]
        rw [← hr₁] at hloop
        exact hloop (n + (c + 1)) (by omega)
      · rw [hcut'.owns, hcut.owns]
        constructor
        · rintro ⟨⟨hq, -⟩, hne⟩
          exact ⟨hq, hne⟩
        · rintro ⟨hq, hne⟩
          refine ⟨⟨hq, fun hk' => hne ⟨hk'.1, ?_⟩⟩, hne⟩
          exact (hcov' a).mpr (.inl ((hcov₁ a).mpr (.inr hk'.2)))

theorem Inv.addFree (h : s.Inv) (hr : r.Aligned) (hown : r.owner = 0)
    (hout : ∀ a, r.Covers a → ¬ OnPages s.pages m a) :
    ∃ b s', Returns (fun n => s.addFree N V n m r) (b, s') ∧
      (s'.outOfMemory = false → Op.Meets s (.addFree m r) (.done b) s') ∧
      s'.Inv := by
  unfold State.addFree
  by_cases hv : r.valid = true
  · have hok : r.Ok := ⟨hr, Region.valid_iff.mp hv⟩
    obtain ⟨r', s₁, hloop, hok', hown', hcut, hcov⟩ :=
      Inv.joinLoop (N := N) (V := V) (m := m) _ rfl h hok
    have hout' : s₁.Outside m r' := by
      intro a ha
      refine ⟨fun o hq => ((hcut.owns m a o).mp hq).2 ⟨rfl, ha⟩, ?_⟩
      rw [hcut.pages]
      rcases (hcov a).mp ha with ha | ⟨q, hq, -, ha⟩
      · exact hout a ha
      · exact h.given m a _ ⟨q, hq, ha, rfl⟩
    obtain ⟨b, s', ps, hret, had⟩ := (hcut.inv_of h).add (N := N) (V := V) hok' hout'
    have hjoined : Returns (fun n => State.joinLoop N V n s m r) (r', s₁) := ⟨_, hloop⟩
    refine ⟨b, s', ?_, fun hf => ?_, had.inv⟩
    · refine (hjoined.bind (k := fun n p => State.add N V n p.2 m p.1) hret).congr fun n => ?_
      rw [if_pos hv]
    · have hP : r'.Covers = s.Joined m r := funext fun a => propext (hcov a)
      have hchanged := (hcut.assigned had).changed h hf
      rw [hP, hown', hown] at hchanged
      have hb : b = true := (had.outOfMemory hf).2
      exact ⟨by rw [hb], by rwa [if_pos hv]⟩
  · exact ⟨true, s, (Returns.const _).congr fun n => if_neg hv, fun _ => ⟨rfl, by rw [if_neg hv]⟩, h⟩

/-! ## `alloc` -/

theorem Inv.find_eq (h : s.Inv) (hk : k ∈ s.keys m) (hr : r.Ok) (hc : k.contains r = true) :
    s.find m r = some k := by
  obtain ⟨hle, hge⟩ := Region.contains_iff.mp hc
  have hrle := hr.le
  unfold State.find
  rw [if_pos (Region.valid_iff.mpr hrle)]
  cases hf : s.treeFind m r with
  | none =>
    have hlt := SearchTree.find_none (h.sorted m) hf k hk
    rw [Region.lt_iff, Region.lt_iff] at hlt
    omega
  | some k' =>
    obtain ⟨hk', h₁, h₂⟩ := SearchTree.find_mem hf
    rw [Region.lt_false_iff] at h₁ h₂
    have hle' := (h.ok m k' hk').le
    have heq : k' = k := h.eq_of_covers (a := max r.start k'.start) hk' hk
      ⟨le_max_right .., max_le h₂ hle'⟩
      ⟨Nat.le_trans hle (le_max_left ..), Nat.le_trans (max_le hrle h₁) hge⟩
    show (if k'.contains r = true then some k' else none) = some k
    rw [heq, if_pos hc]

theorem find_contains (hf : s.find m r = some k) : k ∈ s.keys m ∧ k.contains r = true := by
  unfold State.find at hf
  split at hf
  · split at hf
    · cases hf
    · next k' hk' =>
      split at hf
      · next hc =>
        cases hf
        exact ⟨(SearchTree.find_mem hk').1, hc⟩
      · cases hf
  · cases hf

theorem Inv.alloc (h : s.Inv) (hr : r.Aligned) :
    ∃ a s', Returns (fun n => s.alloc N V n m r) (a, s') ∧
      (s'.outOfMemory = false → Op.Meets s (.alloc m r) (.addr a) s') ∧ s'.Inv := by
  unfold State.alloc
  by_cases hv : r.valid = true
  · have hok : r.Ok := ⟨hr, Region.valid_iff.mp hv⟩
    cases hf : s.find m r with
    | none =>
      refine ⟨noAddr, s, (Returns.const _).congr fun n => ?_, fun _ => .inr ⟨?_, rfl, rfl⟩, h⟩
      · rw [if_pos hv]
      · rintro ⟨-, q, hq, hc, -⟩
        rw [h.find_eq hq hok hc] at hf
        cases hf
    | some k =>
      obtain ⟨hk, hc⟩ := find_contains hf
      obtain ⟨b, s', ps, hret, hcases⟩ := h.allocFrom (N := N) (V := V) hk hok hc
      refine ⟨if b then r.start else noAddr, s', ?_, fun hmem => ?_, ?_⟩
      · refine (hret.bind (k := fun _ p => some (if p.1 then r.start else noAddr, p.2))
          (Returns.const _)).congr fun n => ?_
        rw [if_pos hv]
      · rcases hcases with ⟨rfl, rfl, hno⟩ | ⟨hb, hmay, has⟩
        · refine .inr ⟨?_, rfl, rfl⟩
          rintro ⟨-, q, hq, hqc, hown⟩
          have heq := (h.find_eq hq hok hqc).symm.trans hf
          rw [Option.some.inj heq] at hown
          exact hno hown
        · rw [hb hmem]
          exact .inl ⟨⟨hv, k, hk, hc, hmay⟩, rfl, has.changed h hmem⟩
      · rcases hcases with ⟨-, rfl, -⟩ | ⟨-, -, has⟩
        · exact h
        · exact has.inv
  · refine ⟨noAddr, s, (Returns.const _).congr fun n => if_neg hv, fun _ => .inr ⟨?_, rfl, rfl⟩, h⟩
    exact fun hc => hv hc.1

/-! ## `alloc_first` -/

/-- The block that `alloc_first` takes from a free region, where rounding up does not wrap. -/
theorem matchStart_iff {i : Nat} (hk : k.Ok) (hi : 12 ≤ i) (hi' : i < 32)
    (hwrap : k.start + 2 ^ i ≤ 4294967296) :
    (matchStart (2 ^ i) k = true ↔
      k.owner = 0 ∧ Word.roundUp k.start (2 ^ i) + 2 ^ i - 1 ≤ k.stop) ∧
    2 ^ i ∣ Word.roundUp k.start (2 ^ i) ∧ k.start ≤ Word.roundUp k.start (2 ^ i) ∧
    Word.roundUp k.start (2 ^ i) < 4294967296 ∧
    ∀ b, 2 ^ i ∣ b → k.start ≤ b → Word.roundUp k.start (2 ^ i) ≤ b := by
  have hpos : 2 ^ 12 ≤ 2 ^ i := Nat.pow_le_pow_right (by decide) hi
  have hlt := hk.start_lt
  have hstop := hk.stop_lt
  have hround := Word.roundUp_eq (v := k.start) hi' hwrap
  have hup := Word.roundUp_lt hlt hi'
  have hcases : 2 ^ i ∣ Word.roundUp k.start (2 ^ i) ∧ k.start ≤ Word.roundUp k.start (2 ^ i) ∧
      Word.roundUp k.start (2 ^ i) < k.start + 2 ^ i := by
    rw [hround]
    have hdm := Nat.div_add_mod (k.start + 2 ^ i - 1) (2 ^ i)
    have hml := Nat.mod_lt (k.start + 2 ^ i - 1) (Nat.two_pow_pos i)
    rw [Nat.mul_comm] at hdm
    exact ⟨Nat.dvd_mul_left _ _, by omega, by omega⟩
  obtain ⟨hdvd, hge, hnext⟩ := hcases
  have hleast : ∀ b, 2 ^ i ∣ b → k.start ≤ b → Word.roundUp k.start (2 ^ i) ≤ b := by
    intro b hb hkb
    by_contra hlt'
    -- two multiples of the size differ by at least the size
    obtain ⟨c, hc⟩ := Nat.dvd_sub hdvd hb
    rcases Nat.eq_zero_or_pos c with rfl | hcpos
    · omega
    · have : 2 ^ i * 1 ≤ 2 ^ i * c := Nat.mul_le_mul_left _ hcpos
      omega
  unfold matchStart
  generalize Word.roundUp k.start (2 ^ i) = st at *
  refine ⟨?_, hdvd, hge, hup, hleast⟩
  rw [decide_eq_true_iff]
  constructor
  · rintro ⟨hown, hst, hsize⟩
    rw [Word.sub_eq hst.le hstop] at hsize
    exact ⟨hown, by omega⟩
  · rintro ⟨hown, hle⟩
    have hst : st < k.stop := by omega
    rw [Word.sub_eq hst.le hstop]
    exact ⟨hown, hst, by omega⟩

theorem Inv.allocFirst (h : s.Inv) {i owner : Nat} (hi : 12 ≤ i) (hi' : i < 32)
    (hreg : Op.Regular s (.allocFirst m (2 ^ i) owner)) :
    ∃ a s', Returns (fun n => s.allocFirst N V n m (2 ^ i) owner) (a, s') ∧
      (s'.outOfMemory = false → Op.Meets s (.allocFirst m (2 ^ i) owner) (.addr a) s') ∧
      s'.Inv := by
  obtain ⟨howner, hsearch⟩ := hreg
  have hpos : 2 ^ 12 ≤ 2 ^ i := Nat.pow_le_pow_right (by decide) hi
  have hpow : (2 : Nat) ^ 12 ∣ 2 ^ i := Nat.pow_dvd_pow 2 hi
  -- a region with a free block is accepted, unless its start wraps
  have hmatch : ∀ q ∈ s.keys m, ∀ b, 2 ^ i ∣ b → q.owner = 0 → q.start ≤ b →
      b + 2 ^ i - 1 ≤ q.stop → matchStart (2 ^ i) q = true := by
    intro q hq b hb hown hle hge
    have hok := h.ok m q hq
    have := hok.stop_lt
    obtain ⟨hiff, -, -, -, hleast⟩ := matchStart_iff hok hi hi' (by omega)
    refine hiff.mpr ⟨hown, ?_⟩
    have := hleast b hb hle
    omega
  unfold State.allocFirst
  rw [SearchTree.iterate_eq]
  cases hf : (SearchTree.keys (s.tree m)).find? (matchStart (2 ^ i)) with
  | none =>
    refine ⟨noAddr, s, Returns.const _, fun _ => .inr ⟨?_, rfl, rfl⟩, h⟩
    rintro b ⟨hb, q, hq, hown, hle, hge⟩
    rw [List.find?_eq_none] at hf
    exact hf q hq (hmatch q hq b hb hown hle hge)
  | some k =>
    obtain ⟨hk', B, C, hsplit, hB⟩ := List.find?_eq_some_iff_append.mp hf
    have hk : k ∈ s.keys m := List.mem_of_find?_eq_some hf
    have hkeys : s.keys m = B ++ k :: C := hsplit
    have hok := h.ok m k hk
    have hsorted := h.sorted m
    rw [hkeys] at hsorted
    have hown : k.owner = 0 := (of_decide_eq_true hk').1
    have hBfalse : ∀ q ∈ B, matchStart (2 ^ i) q = false := fun q hq => by
      have := hB q hq
      simpa using this
    -- the regions before `k` have no free block
    have hfirst : ∀ b, s.FreeBlock m (2 ^ i) b → k.start ≤ b := by
      rintro b ⟨hb, q, hq, hqown, hle, hge⟩
      have hq' := hq
      rw [hkeys] at hq'
      rcases List.mem_append.mp hq' with hq' | hq'
      · have hfalse := hBfalse q hq'
        rw [hmatch q hq b hb hqown hle hge] at hfalse
        cases hfalse
      · rcases List.mem_cons.mp hq' with rfl | hq'
        · exact hle
        · have hlt := Region.lt_iff.mp (hsorted.lt_of_right hq')
          have := hok.le
          omega
    have hwrap : k.start + 2 ^ i ≤ 4294967296 := by
      by_contra hgt
      obtain ⟨b, hb, hfree⟩ := hsearch k hk hown (by omega)
      have := hfirst b hfree
      omega
    obtain ⟨hiff, hdvd, hge, hup, hleast⟩ := matchStart_iff hok hi hi' hwrap
    have hfit := (hiff.mp hk').2
    generalize hst : Word.roundUp k.start (2 ^ i) = st at *
    have hstop := hok.stop_lt
    have hstop0 := hok.stop_mod
    have hmod : st % 4096 = 0 := Nat.mod_eq_zero_of_dvd (Nat.dvd_trans hpow hdvd)
    have hmod' : 2 ^ i % 4096 = 0 := Nat.mod_eq_zero_of_dvd hpow
    have hbs : Region.bs st (2 ^ i) owner = Region.of st (st + 2 ^ i - 1) owner :=
      Region.bs_eq (by omega) (by omega)
    have hrok : (Region.of st (st + 2 ^ i - 1) owner).Ok :=
      Region.of_ok hup (by omega) (by omega) (by omega) (by omega)
    have hrstart : (Region.of st (st + 2 ^ i - 1) owner).start = st := by
      rw [Region.of_start hup (by omega), hmod, Nat.sub_zero]
    have hrown : (Region.of st (st + 2 ^ i - 1) owner).owner = owner :=
      Region.of_owner hup (by omega)
    have hrstop : (Region.of st (st + 2 ^ i - 1) owner).stop = st + 2 ^ i - 1 := Region.of_stop
    rw [← hbs] at hrok hrstart hrown hrstop
    generalize hr : Region.bs st (2 ^ i) owner = r at *
    have hc : k.contains r = true := by
      rw [Region.contains_iff, hrstart, hrstop]
      exact ⟨hge, hfit⟩
    obtain ⟨b, s', ps, hret, hcases⟩ := h.allocFrom (N := N) (V := V) hk hrok hc
    refine ⟨st, s', ?_, fun hmem => ?_, ?_⟩
    · refine (hret.bind (k := fun _ p => some (r.start, p.2)) ?_).congr fun n => ?_
      · simp only [hrstart]
        exact Returns.const _
      · simp only [hst, hr]
    · rcases hcases with ⟨-, -, hno⟩ | ⟨-, -, has⟩
      · exact absurd (.inl hown) hno
      · refine .inl ⟨st, ⟨⟨hdvd, k, hk, hown, hge, hfit⟩, fun b hb => hleast b hb.1 (hfirst b hb)⟩,
          rfl, ?_⟩
        have hP : r.Covers = fun a => st ≤ a ∧ a < st + 2 ^ i := by
          funext a
          unfold Region.Covers
          rw [hrstart, hrstop, eq_iff_iff]
          omega
        have hchanged := has.changed h hmem
        rwa [hP, hrown] at hchanged
    · rcases hcases with ⟨-, rfl, -⟩ | ⟨-, -, has⟩
      · exact h
      · exact has.inv

/-! ## Runs -/

theorem Inv.morecore_meets (h : s.Inv) :
    ∃ b s', Returns (fun n => State.morecore N V n s m) (b, s') ∧
      Op.Meets s (.morecore m) (.done b) s' ∧ s'.Inv := by
  rcases h.morecore (N := N) (V := V) m with ⟨hmore, hnone⟩ | ⟨p, s', hmore, hg⟩
  · refine ⟨false, s, ⟨1, fun n hn => ?_⟩, .inr ⟨fun a ha => ?_, rfl, rfl⟩, h⟩
    · obtain ⟨n, rfl⟩ := Nat.exists_eq_add_of_le' hn
      exact hmore n
    · obtain ⟨q, hq, -, hown⟩ := h.ownership_eq.mp ha
      exact hnone q hq hown
  · refine ⟨true, s', ⟨1, fun n hn => ?_⟩, .inl ⟨p, rfl, hg.pages, hg.free.1, fun a hle hge =>
      h.ownership_eq.mpr (hg.free.2 a hle hge), ?_⟩, hg.inv⟩
    · obtain ⟨n, rfl⟩ := Nat.exists_eq_add_of_le' hn
      exact hmore n
    · funext m' a
      refine Option.ext fun o => ?_
      rw [hg.inv.ownership_eq, hg.owns]
      unfold Ownership.without
      rw [onPages_cons, or_iff_left onPages_nil, eq_comm (a := m')]
      by_cases hp : m = m' ∧ p ≤ a ∧ a ≤ p + 4095
      · rw [if_pos hp]
        exact ⟨fun hq => absurd hp hq.2, fun hc => by cases hc⟩
      · rw [if_neg hp, h.ownership_eq]
        exact ⟨fun hq => hq.1, fun hq => ⟨hq, hp⟩⟩

theorem Inv.exec (h : s.Inv) {op : Op} (hop : op.PageAligned) (hreg : op.Regular s) :
    ∃ ans s', Returns (fun n => exec N V n s op) (ans, s') ∧
      (s'.outOfMemory = false → op.Meets s ans s') ∧ s'.Inv := by
  cases op with
  | addFree m r =>
    obtain ⟨b, s', hret, hmeets, hinv⟩ := h.addFree (N := N) (V := V) hop hreg.1 hreg.2
    exact ⟨.done b, s', hret.map fun p => (Answer.done p.1, p.2), hmeets, hinv⟩
  | alloc m r =>
    obtain ⟨a, s', hret, hmeets, hinv⟩ := h.alloc (N := N) (V := V) (m := m) hop
    exact ⟨.addr a, s', hret.map fun p => (Answer.addr p.1, p.2), hmeets, hinv⟩
  | allocFirst m size owner =>
    obtain ⟨i, hi, hi', rfl⟩ := hop
    obtain ⟨a, s', hret, hmeets, hinv⟩ := h.allocFirst (N := N) (V := V) hi hi' hreg
    exact ⟨.addr a, s', hret.map fun p => (Answer.addr p.1, p.2), hmeets, hinv⟩
  | morecore m =>
    obtain ⟨b, s', hret, hmeets, hinv⟩ := h.morecore_meets (N := N) (V := V) (m := m)
    exact ⟨.done b, s', hret.map fun p => (Answer.done p.1, p.2), fun _ => hmeets, hinv⟩

end State

theorem Reachable.inv (h : Reachable N V s) : s.Inv := by
  induction h with
  | init a => exact State.init_inv a
  | step _ hop hreg hret _ ih =>
    obtain ⟨ans, s', hret', -, hinv⟩ := ih.exec (N := N) (V := V) hop hreg
    cases hret.unique hret'
    exact hinv

/-- An allocator that has always a node. -/
def manyNodes : NodeAlloc Unit := ⟨some, id, fun _ => id⟩

/-- An allocator of the nodes that it counts, with 203 of them on a page. -/
def countedNodes : NodeAlloc Nat :=
  ⟨fun n => if n = 0 then none else some (n - 1), (· + 1), fun _ n => n + 203⟩

/-- Trees of one or two nodes need no balancing. -/
def noBalancing : Balancing := ⟨id, id, fun _ => rfl, fun _ => rfl⟩

end L4env.Sigma0
