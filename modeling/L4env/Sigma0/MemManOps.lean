import L4env.Sigma0.MemManInv
import L4env.Util.Returns

/-!
# The region trees of sigma0: operations

One lemma for each operation of `Mem_man`. An operation that adds a region may take pages of RAM for
the node allocator; such pages were free, and the lemmas name them.
-/

namespace L4env.Sigma0.State

variable {A : Type} {N : NodeAlloc A} {V : Balancing} {s s' s₁ : State A} {m m' : Mem}
  {r r₁ k q : Region} {a o p n : Nat} {ps : List (Mem × Nat)}

/-- The addresses of `r` are in no region and on no page of the node allocator. -/
def Outside (s : State A) (m : Mem) (r : Region) : Prop :=
  ∀ a, r.Covers a → (∀ o, ¬ s.Owns m a o) ∧ ¬ OnPages s.pages m a

theorem Outside.lt_or_lt (h : s.Outside m r) (hs : s.TreeInv) (hr : r.Ok) (hq : q ∈ s.keys m) :
    r.lt q = true ∨ q.lt r = true :=
  hr.lt_or_lt (hs.ok m q hq) fun a ha hqa => (h a ha).1 q.owner ⟨q, hq, hqa, rfl⟩

/-- A whole page that nobody owns. -/
def FreePage (s : State A) (p : Mem × Nat) : Prop :=
  p.2 % 4096 = 0 ∧ ∀ a, p.2 ≤ a → a ≤ p.2 + 4095 → s.Owns p.1 a 0

/-! ## Merging with the neighbours -/

/-- The region of `p` is `r` with a part of the map `m`, which `p` has no more. -/
structure Merged (s : State A) (m : Mem) (r : Region) (p : Region × State A) : Prop where
  inv : p.2.Inv
  ok : p.1.Ok
  outside : p.2.Outside m p.1
  owner : p.1.owner = r.owner
  pages : p.2.pages = s.pages
  outOfMemory : p.2.outOfMemory = s.outOfMemory
  sub : ∀ m' a o, p.2.Owns m' a o → s.Owns m' a o
  owns : ∀ m' a o, (p.2.Owns m' a o ∨ m' = m ∧ p.1.Covers a ∧ o = r.owner) ↔
    (s.Owns m' a o ∨ m' = m ∧ r.Covers a ∧ o = r.owner)

theorem Merged.refl (h : s.Inv) (hr : r.Ok) (ho : s.Outside m r) : Merged s m r (r, s) :=
  ⟨h, hr, ho, rfl, rfl, rfl, fun _ _ _ h => h, fun _ _ _ => .rfl⟩

theorem Merged.trans {p₁ : Region × State A} (h : Merged s m r (r₁, s₁))
    (h₁ : Merged s₁ m r₁ p₁) : Merged s m r p₁ := by
  refine ⟨h₁.inv, h₁.ok, h₁.outside, h₁.owner.trans h.owner, h₁.pages.trans h.pages,
    h₁.outOfMemory.trans h.outOfMemory, fun m' a o ho => h.sub m' a o (h₁.sub m' a o ho),
    fun m' a o => ?_⟩
  have howner : r₁.owner = r.owner := h.owner
  have h₁o := h₁.owns m' a o
  rw [howner] at h₁o
  exact h₁o.trans (h.owns m' a o)

/-- The region takes in a neighbour. -/
theorem Inv.merge (h : s.Inv) (ho : s.Outside m r) (hk : k ∈ s.keys m) (hown : k.owner = r.owner)
    (hok : r₁.Ok) (hr₁ : r₁.owner = r.owner) (hcov : ∀ a, r₁.Covers a ↔ r.Covers a ∨ k.Covers a) :
    Merged s m r (r₁, s.treeRemove N V m k) := by
  have hcut := h.treeRemove (N := N) (V := V) hk
  refine ⟨hcut.inv_of h, hok, fun a ha => ?_, hr₁, hcut.pages, hcut.outOfMemory,
    fun m' a o hq => ((hcut.owns m' a o).mp hq).1, fun m' a o => ?_⟩
  · rw [hcut.pages]
    rcases (hcov a).mp ha with hra | hka
    · exact ⟨fun o hq => (ho a hra).1 o ((hcut.owns m a o).mp hq).1, (ho a hra).2⟩
    · exact ⟨fun o hq => ((hcut.owns m a o).mp hq).2 ⟨rfl, hka⟩, h.given m a _ ⟨k, hk, hka, rfl⟩⟩
  · show ((s.treeRemove N V m k).Owns m' a o ∨ m' = m ∧ r₁.Covers a ∧ o = r.owner) ↔ _
    rw [hcut.owns, hcov]
    constructor
    · rintro (⟨hq, -⟩ | ⟨rfl, ha | ha, rfl⟩)
      · exact .inl hq
      · exact .inr ⟨rfl, ha, rfl⟩
      · exact .inl ⟨k, hk, ha, hown⟩
    · rintro (hq | ⟨rfl, ha, rfl⟩)
      · by_cases hka : m' = m ∧ k.Covers a
        · obtain ⟨rfl, hka⟩ := hka
          refine .inr ⟨rfl, .inr hka, ?_⟩
          rw [← hown]
          exact h.owns_unique hq ⟨k, hk, hka, rfl⟩
        · exact .inl ⟨hq, hka⟩
      · exact .inr ⟨rfl, .inl ha, rfl⟩

/-- No neighbour in front of the region has the same owner. -/
def LoneStart (s : State A) (m : Mem) (r : Region) : Prop :=
  ∀ a, a + 1 = r.start → ¬ s.Owns m a r.owner

def LoneStop (s : State A) (m : Mem) (r : Region) : Prop := ¬ s.Owns m (r.stop + 1) r.owner

theorem Inv.mergePrev (h : s.Inv) (hr : r.Ok) (ho : s.Outside m r) :
    Merged s m r (s.mergePrev N V m r) ∧
      (s.mergePrev N V m r).2.LoneStart m (s.mergePrev N V m r).1 := by
  have hmod := hr.start_mod
  have hlt := hr.start_lt
  unfold State.mergePrev
  by_cases hpos : r.start > 0
  · rw [if_pos hpos]
    -- the region with the page in front of it
    have hsub : Word.sub r.start 1 = r.start - 1 := Word.sub_eq (by omega) hlt
    have hstart : (r.setStart (Word.sub r.start 1)).start = r.start - 4096 := by
      rw [hsub, Region.setStart_start (by omega)]
      omega
    -- a region that has the last address of this page
    have hend : ∀ q ∈ s.keys m, ∀ a, q.Covers a → a + 1 = r.start → q.stop + 1 = r.start := by
      intro q hq a ha hadj
      have hq' := ho.lt_or_lt h.toTreeInv hr hq
      have hqok := h.ok m q hq
      have := hr.le
      obtain ⟨hle, hge⟩ := ha
      rw [Region.lt_iff, Region.lt_iff] at hq'
      omega
    cases hf : s.treeFind m (r.setStart (Word.sub r.start 1)) with
    | none =>
      refine ⟨.refl h hr ho, fun a hadj => ?_⟩
      rintro ⟨q, hq, ha, -⟩
      have hq' := SearchTree.find_none (h.sorted m) hf q hq
      have := hend q hq a ha hadj
      have := (h.ok m q hq).le
      have := hr.le
      rw [Region.lt_iff, Region.lt_iff, Region.setStart_stop, hstart] at hq'
      omega
    | some k =>
      obtain ⟨hk, hk₁, hk₂⟩ := SearchTree.find_mem hf
      have hk' := ho.lt_or_lt h.toTreeInv hr hk
      have hkok := h.ok m k hk
      rw [Region.lt_false_iff, Region.setStart_stop] at hk₁
      rw [Region.lt_false_iff, hstart] at hk₂
      rw [Region.lt_iff, Region.lt_iff] at hk'
      have hkstop : k.stop + 1 = r.start := by
        have := hkok.stop_mod
        omega
      have hkle := hkok.le
      show Merged s m r (if k.owner = r.owner then _ else _) ∧ State.LoneStart
        (if k.owner = r.owner then _ else _ : Region × State A).2 m
        (if k.owner = r.owner then _ else _ : Region × State A).1
      by_cases hown : k.owner = r.owner
      · rw [if_pos hown]
        have hk0 := hkok.start_mod
        have hstart' : (r.setStart k.start).start = k.start := by
          rw [Region.setStart_start hkok.start_lt, hk0, Nat.sub_zero]
        have hle : k.start ≤ r.stop := by
          have := hr.le
          omega
        have hmerge := h.merge (N := N) (V := V) ho hk hown
          (hr.setStart hkok.start_lt hk0 hle) (Region.setStart_owner hkok.start_lt) fun a => by
            have := hr.le
            unfold Region.Covers
            rw [hstart', Region.setStart_stop]
            omega
        refine ⟨hmerge, fun a hadj hq => ?_⟩
        obtain ⟨q, hq, ha, hqo⟩ := hmerge.sub m a _ hq
        have hqs : q.stop + 1 = k.start := by
          have hadj' : a + 1 = k.start := by rw [← hstart']; exact hadj
          have hqok := h.ok m q hq
          obtain ⟨hle, hge⟩ := ha
          by_contra hne
          have hc : q.Covers k.start := ⟨by omega, by omega⟩
          rw [h.eq_of_covers hq hk hc ⟨Nat.le_refl _, hkle⟩] at hle
          omega
        refine h.apart m q hq k hk hqs ?_
        rw [hqo, hown]
        exact Region.setStart_owner hkok.start_lt
      · rw [if_neg hown]
        refine ⟨.refl h hr ho, fun a hadj => ?_⟩
        rintro ⟨q, hq, ha, hqo⟩
        have hqs := hend q hq a ha hadj
        have hqk := h.eq_of_covers hq hk ⟨(h.ok m q hq).le, Nat.le_refl _⟩
          (a := q.stop) ⟨by omega, by omega⟩
        exact hown (hqk ▸ hqo)
  · rw [if_neg hpos]
    refine ⟨.refl h hr ho, fun a hadj => ?_⟩
    have hadj' : a + 1 = r.start := hadj
    omega

theorem Inv.mergeNext (h : s.Inv) (hr : r.Ok) (ho : s.Outside m r) :
    Merged s m r (s.mergeNext N V m r) ∧
      (s.mergeNext N V m r).2.LoneStop m (s.mergeNext N V m r).1 ∧
      (s.mergeNext N V m r).1.start = r.start := by
  have hmod := hr.stop_mod
  have hlt := hr.stop_lt
  unfold State.mergeNext
  by_cases hadd : Word.add r.stop 1 = 0
  · rw [if_neg (by simpa using hadd)]
    refine ⟨.refl h hr ho, ?_, rfl⟩
    rintro ⟨q, hq, ha, -⟩
    have := (h.ok m q hq).stop_lt
    have hle : r.stop + 1 ≤ q.stop := ha.2
    have hne : ¬ r.stop + 1 < 4294967296 := fun hlt' => by
      rw [Word.add_eq hlt'] at hadd
      omega
    omega
  · rw [if_pos hadd]
    have hlt' : r.stop + 1 < 4294967296 := by
      by_contra hge
      exact hadd (Word.add_eq_zero (by omega))
    have hstop : Word.add r.stop 1 = r.stop + 1 := Word.add_eq hlt'
    have hbegin : ∀ q ∈ s.keys m, q.Covers (r.stop + 1) → q.start = r.stop + 1 := by
      intro q hq ha
      have hq' := ho.lt_or_lt h.toTreeInv hr hq
      have := hr.le
      obtain ⟨hle, hge⟩ := ha
      rw [Region.lt_iff, Region.lt_iff] at hq'
      omega
    cases hf : s.treeFind m (r.setStop (Word.add r.stop 1)) with
    | none =>
      refine ⟨.refl h hr ho, ?_, rfl⟩
      rintro ⟨q, hq, ha, -⟩
      have hq' := SearchTree.find_none (h.sorted m) hf q hq
      have := hbegin q hq ha
      have := (h.ok m q hq).le
      have := hr.le
      rw [Region.lt_iff, Region.lt_iff, Region.setStop_stop, Region.setStop_start, hstop] at hq'
      omega
    | some k =>
      obtain ⟨hk, hk₁, hk₂⟩ := SearchTree.find_mem hf
      have hk' := ho.lt_or_lt h.toTreeInv hr hk
      have hkok := h.ok m k hk
      rw [Region.lt_false_iff, Region.setStop_stop, hstop] at hk₁
      rw [Region.lt_false_iff, Region.setStop_start] at hk₂
      rw [Region.lt_iff, Region.lt_iff] at hk'
      have hkstart : k.start = r.stop + 1 := by omega
      have hkle := hkok.le
      have hrle := hr.le
      show Merged s m r (if k.owner = r.owner then _ else _) ∧ State.LoneStop
        (if k.owner = r.owner then _ else _ : Region × State A).2 m
        (if k.owner = r.owner then _ else _ : Region × State A).1 ∧
        (if k.owner = r.owner then _ else _ : Region × State A).1.start = r.start
      by_cases hown : k.owner = r.owner
      · rw [if_pos hown]
        have hmerge := h.merge (N := N) (V := V) ho hk hown
          (hr.setStop hkok.stop_lt hkok.stop_mod (by omega)) (Region.setStop_owner (e := k.stop))
          fun a => by
            unfold Region.Covers
            rw [Region.setStop_start, Region.setStop_stop]
            omega
        refine ⟨hmerge, fun hq => ?_, rfl⟩
        obtain ⟨q, hq, ha, hqo⟩ := hmerge.sub m _ _ hq
        have hqs : k.stop + 1 = q.start := by
          obtain ⟨hle, hge⟩ := ha
          by_contra hne
          have hc : q.Covers k.stop := by
            constructor
            · have : q.start ≤ k.stop + 1 := hle
              omega
            · have : k.stop + 1 ≤ q.stop := hge
              omega
          rw [h.eq_of_covers hq hk hc ⟨hkle, Nat.le_refl _⟩] at hge
          have : k.stop + 1 ≤ k.stop := hge
          omega
        exact h.apart m k hk q hq hqs (hown.trans hqo.symm)
      · rw [if_neg hown]
        refine ⟨.refl h hr ho, ?_, rfl⟩
        rintro ⟨q, hq, ha, hqo⟩
        have hka : k.Covers (r.stop + 1) := ⟨by omega, by omega⟩
        exact hown (h.eq_of_covers hq hk ha hka ▸ hqo)

/-! ## A new region -/

theorem Inv.treeInsert (h : s.Inv) (hr : r.Ok) (hown : r.owner ≠ sigma0TaskNo) (ho : s.Outside m r)
    (hstart : s.LoneStart m r) (hstop : s.LoneStop m r) :
    s.treeInsert N V m r = (-1, s) ∨
    ∃ s', s.treeInsert N V m r = (0, s') ∧ s'.Inv ∧ s'.pages = s.pages ∧
      s'.outOfMemory = s.outOfMemory ∧
      ∀ m' a o, s'.Owns m' a o ↔ s.Owns m' a o ∨ m' = m ∧ r.Covers a ∧ o = r.owner := by
  have hlt := fun q hq => ho.lt_or_lt h.toTreeInv hr (q := q) hq
  obtain ⟨t, B, C, hins, hkeys, hkeys', hB, hC⟩ := SearchTree.insert_spec (h.sorted m) hlt
  simp only [State.treeInsert, hins]
  cases N.alloc s.nodes with
  | none => exact .inl rfl
  | some b =>
    refine .inr ⟨_, rfl, ?_⟩
    set s' : State A := { s with tree := Function.update s.tree m (V.insert t), nodes := b }
    have hm : s'.keys m = B ++ r :: C := by
      show SearchTree.keys (Function.update s.tree m (V.insert t) m) = _
      rw [Function.update_self, V.insert_keys, hkeys']
    have hother : ∀ m', m' ≠ m → s'.keys m' = s.keys m' := fun m' hm => keys_update hm
    have hmem : ∀ m' q, q ∈ s'.keys m' ↔ (m' = m ∧ q = r) ∨ q ∈ s.keys m' := by
      intro m' q
      rcases eq_or_ne m' m with rfl | hne
      · have : s.keys m' = B ++ C := hkeys
        rw [hm, this]
        simp only [List.mem_append, List.mem_cons]
        tauto
      · rw [hother m' hne]
        simp [hne]
    have howns : ∀ m' a o, s'.Owns m' a o ↔
        s.Owns m' a o ∨ m' = m ∧ r.Covers a ∧ o = r.owner := by
      intro m' a o
      constructor
      · rintro ⟨q, hq, ha, hqo⟩
        rcases (hmem m' q).mp hq with ⟨rfl, rfl⟩ | hq
        · exact .inr ⟨rfl, ha, hqo.symm⟩
        · exact .inl ⟨q, hq, ha, hqo⟩
      · rintro (⟨q, hq, ha, hqo⟩ | ⟨rfl, ha, rfl⟩)
        · exact ⟨q, (hmem m' q).mpr (.inr hq), ha, hqo⟩
        · exact ⟨r, (hmem m' r).mpr (.inl ⟨rfl, rfl⟩), ha, rfl⟩
    refine ⟨⟨⟨fun m' q hq => ?_, fun m' => ?_, fun m' q hq => ?_, fun m' q hq q' hq' hadj => ?_⟩,
      fun m' a o hq => ?_⟩, rfl, rfl, howns⟩
    · rcases (hmem m' q).mp hq with ⟨-, rfl⟩ | hq
      · exact hr
      · exact h.ok m' q hq
    · rcases eq_or_ne m' m with rfl | hne
      · have hsorted : SearchTree.Sorted Region.lt (B ++ C) := hkeys ▸ h.sorted m'
        rw [hm]
        refine (hsorted.insert hB hC ?_ fun a b ha hb => ?_).order
        · rw [Region.lt_false_iff]
          exact hr.le
        · rw [Region.lt_iff] at *
          exact Nat.lt_trans (Nat.lt_of_lt_of_le ha hr.le) hb
      · rw [hother m' hne]
        exact h.order m'
    · rcases (hmem m' q).mp hq with ⟨-, rfl⟩ | hq
      · exact hown
      · exact h.foreign m' q hq
    · rcases (hmem m' q).mp hq with ⟨rfl, rfl⟩ | hqs
      · rcases (hmem m' q').mp hq' with ⟨-, rfl⟩ | hqs'
        · have := hr.le
          omega
        · intro heq
          have hqok := (h.ok m' q' hqs').le
          exact hstop ⟨q', hqs', ⟨by omega, by omega⟩, heq.symm⟩
      · rcases (hmem m' q').mp hq' with ⟨rfl, rfl⟩ | hqs'
        · exact fun heq => hstart q.stop hadj ⟨q, hqs, ⟨(h.ok m' q hqs).le, Nat.le_refl _⟩, heq⟩
        · exact h.apart m' q hqs q' hqs' hadj
    · rcases (howns m' a o).mp hq with hq | ⟨rfl, ha, -⟩
      · exact h.given m' a o hq
      · exact (ho a ha).2

/-! ## A page for the node allocator -/

/-- The page `p` of the map `m` was free and is given to the node allocator. -/
structure Gave (s s' : State A) (m : Mem) (p : Nat) : Prop where
  inv : s'.Inv
  pages : s'.pages = (m, p) :: s.pages
  outOfMemory : s'.outOfMemory = s.outOfMemory
  free : s.FreePage (m, p)
  owns : ∀ m' a o, s'.Owns m' a o ↔ s.Owns m' a o ∧ ¬ (m' = m ∧ p ≤ a ∧ a ≤ p + 4095)

/-- Regions of sigma0 are not merged and not inserted. -/
theorem TreeInv.addWith_self (h : s.TreeInv) (hr : r.owner = sigma0TaskNo)
    (more : State A → Option (Bool × State A)) (n : Nat) :
    addWith N V more n s m r = some (true, s) := by
  have hne : ∀ r' k, s.treeFind m r' = some k → k.owner ≠ r.owner := by
    intro r' k hf
    rw [hr]
    exact h.foreign m k (SearchTree.find_mem hf).1
  have hprev : s.mergePrev N V m r = (r, s) := by
    unfold State.mergePrev
    split
    · split
      · rfl
      · next k hf => rw [if_neg (hne _ k hf)]
    · rfl
  have hnext : s.mergeNext N V m r = (r, s) := by
    unfold State.mergeNext
    split
    · split
      · rfl
      · next k hf => rw [if_neg (hne _ k hf)]
    · rfl
  unfold addWith
  rw [hprev]
  simp only [hnext, hr, if_true]

theorem roundPage_wrap : roundPage (Word.sub (Word.sub 4095 4096) 1) = 0 := by decide +kernel

theorem roundPage_last (hk : k.Ok) :
    roundPage (Word.sub (Word.sub k.stop 4096) 1) = k.stop - 4095 := by
  have hlt := hk.stop_lt
  have hmod := hk.stop_mod
  rcases Nat.lt_or_ge k.stop 4097 with hsmall | hbig
  · -- the difference wraps, and so does the rounding
    have hstop : k.stop = 4095 := by omega
    rw [hstop]
    exact roundPage_wrap
  · have hround := Word.roundUp_eq (v := k.stop - 4096 - 1) (k := 12) (by decide) (by omega)
    rw [Word.sub_eq (by omega) hlt, Word.sub_eq (by omega) (by omega)]
    refine hround.trans ?_
    omega

theorem lastPage_eq (hk : k.Ok) : (lastPage k).start = k.stop - 4095 ∧
    (lastPage k).stop = k.stop ∧ (lastPage k).owner = sigma0TaskNo := by
  have hle := hk.page_le
  have hlt := hk.stop_lt
  have hmod := hk.stop_mod
  have hbs : lastPage k = Region.of (k.stop - 4095) k.stop sigma0TaskNo := by
    have hsize : k.stop - 4095 + 4096 - 1 = k.stop := by omega
    rw [lastPage, pageSize, roundPage_last hk, Region.bs_eq (by decide) (by omega), hsize]
  rw [hbs]
  refine ⟨?_, Region.of_stop, Region.of_owner (by omega) (by decide)⟩
  rw [Region.of_start (by omega) (by decide)]
  omega

theorem matchEnd_iff (hk : k.Ok) : matchEnd pageSize k = true ↔ k.owner = 0 := by
  have hle := hk.page_le
  have hsub : Word.sub k.stop k.start = k.stop - k.start := Word.sub_eq hk.le hk.stop_lt
  unfold matchEnd pageSize
  rw [hk.roundPage_start, hsub, decide_eq_true_iff]
  omega

theorem givePage_owns : (s.givePage N m p).Owns m' a o ↔ s.Owns m' a o := Iff.rfl

/-- A region is cut by its last page. -/
theorem Inv.cutPage (h : s.Inv) (hk : k ∈ s.keys m) (hown : k.owner = 0) {s₁ : State A}
    (hcut : Cut (s.givePage N m (k.stop - 4095)) s₁ m fun a => k.stop - 4095 ≤ a ∧ a ≤ k.stop) :
    Gave s s₁ m (k.stop - 4095) := by
  have hok := h.ok m k hk
  have hle := hok.page_le
  have hmod := hok.stop_mod
  have howns : ∀ m' a o, s₁.Owns m' a o ↔
      s.Owns m' a o ∧ ¬ (m' = m ∧ k.stop - 4095 ≤ a ∧ a ≤ k.stop - 4095 + 4095) := by
    intro m' a o
    rw [hcut.owns, givePage_owns, Nat.sub_add_cancel (by omega)]
  refine ⟨⟨hcut.inv, fun m' a o ho => ?_⟩, hcut.pages, hcut.outOfMemory, ⟨?_, fun a ha ha' => ?_⟩,
    howns⟩
  · obtain ⟨ho, hne⟩ := (howns m' a o).mp ho
    have hpages : s₁.pages = (m, k.stop - 4095) :: s.pages := hcut.pages
    rw [hpages, onPages_cons]
    rintro (⟨rfl, ha⟩ | hp)
    · exact hne ⟨rfl, ha⟩
    · exact h.given m' a o ho hp
  · show (k.stop - 4095) % 4096 = 0
    omega
  · have h₁ : k.stop - 4095 ≤ a := ha
    have h₂ : a ≤ k.stop - 4095 + 4095 := ha'
    exact ⟨k, hk, ⟨by omega, by omega⟩, hown⟩

theorem Inv.morecore (h : s.Inv) (m : Mem) :
    ((∀ n, morecore N V (n + 1) s m = some (false, s)) ∧ ∀ k ∈ s.keys m, k.owner ≠ 0) ∨
    ∃ p s', (∀ n, morecore N V (n + 1) s m = some (true, s')) ∧ Gave s s' m p := by
  have hmatch : ∀ k ∈ s.keys m, (matchEnd pageSize k = true ↔ k.owner = 0) :=
    fun k hk => matchEnd_iff (h.ok m k hk)
  cases hf : SearchTree.revIterate (matchEnd pageSize) (s.tree m) with
  | none =>
    refine .inl ⟨fun n => by simp only [State.morecore, hf], fun k hk hown => ?_⟩
    rw [SearchTree.revIterate_eq, List.find?_eq_none] at hf
    exact hf k (List.mem_reverse.mpr hk) ((hmatch k hk).mpr hown)
  | some k =>
    have hf' := hf
    rw [SearchTree.revIterate_eq] at hf'
    have hk : k ∈ s.keys m := List.mem_reverse.mp (List.mem_of_find?_eq_some hf')
    have hown : k.owner = 0 := (hmatch k hk).mp (List.find?_some hf')
    have hok := h.ok m k hk
    obtain ⟨hstart, hstop, howner⟩ := lastPage_eq hok
    have hle := hok.page_le
    have hmod := hok.stop_mod
    have hlt := hok.stop_lt
    have hstart0 := hok.start_mod
    have hg : (s.givePage N m (k.stop - 4095)).TreeInv := ⟨h.ok, h.order, h.foreign, h.apart⟩
    refine .inr ⟨k.stop - 4095, ?_⟩
    by_cases hall : k.start = k.stop - 4095
    · -- the region is this page
      have hcut := hg.treeRemove (N := N) (V := V) hk
      refine ⟨(s.givePage N m (k.stop - 4095)).treeRemove N V m k, fun n => ?_,
        h.cutPage (N := N) hk hown ?_⟩
      · have hbeq : (lastPage k).beq k = true := Region.beq_iff.mpr ⟨by omega, hstop⟩
        simp only [State.morecore, hf, allocFromWith, howner, hown, hbeq, hstart, sigma0TaskNo,
          hcut.inv.addWith_self howner]
        rfl
      · refine ⟨hcut.inv, hcut.pages, hcut.outOfMemory, fun m' a o => ?_⟩
        rw [hcut.owns, Region.Covers, hall]
    · have hsub : Word.sub (k.stop - 4095) 1 = k.stop - 4096 := by
        rw [Word.sub_eq (by omega) (by omega)]
        omega
      have hcut := hg.setKey hk (k.setStop (k.stop - 4096))
        (hok.setStop (by omega) (by omega) (by omega)) Region.setStop_owner
        (Nat.le_of_eq Region.setStop_start.symm)
        (by rw [Region.setStop_stop]; omega)
      refine ⟨(s.givePage N m (k.stop - 4095)).setKey m k (k.setStop (k.stop - 4096)),
        fun n => ?_, h.cutPage (N := N) hk hown ?_⟩
      · have hbeq : (lastPage k).beq k = false := by
          rw [← Bool.not_eq_true, Region.beq_iff, hstart]
          exact fun hc => hall hc.1.symm
        have hne : ¬ k.stop - 4095 = k.start := fun hc => hall hc.symm
        simp only [State.morecore, hf, allocFromWith, howner, hown, hbeq, hstart, hstop, hsub,
          sigma0TaskNo, if_neg hne, hcut.inv.addWith_self howner]
        rfl
      · refine ⟨hcut.inv, hcut.pages, hcut.outOfMemory, fun m' a o => ?_⟩
        rw [hcut.owns]
        unfold Region.Covers
        rw [Region.setStop_start, Region.setStop_stop]
        refine and_congr_right fun _ => not_congr (and_congr_right fun _ => ?_)
        omega

end L4env.Sigma0.State
