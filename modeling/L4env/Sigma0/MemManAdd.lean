import L4env.Sigma0.MemManOps
import Mathlib.Data.Set.Card

/-!
# The region trees of sigma0: adding and allocating

`add` ends because every page that it takes for the node allocator was a free page of RAM. When the
memory suffices, the new region and the pages are all that changes.
-/

namespace L4env.Sigma0.State

variable {A : Type} {N : NodeAlloc A} {V : Balancing} {s s' s₁ : State A} {m m' : Mem}
  {r r₁ k q : Region} {a o p n : Nat} {b : Bool} {ps : List (Mem × Nat)}

/-! ## The loop that inserts -/

/-- The number of free addresses of RAM. -/
noncomputable def freeCount (s : State A) : Nat := Set.ncard {a | s.Owns .ram a 0}

theorem TreeInv.finite_free (h : s.TreeInv) : Set.Finite {a | s.Owns .ram a 0} := by
  refine (Set.finite_Iio 4294967296).subset fun a ha => ?_
  obtain ⟨q, hq, ha, -⟩ := ha
  exact Nat.lt_of_le_of_lt ha.2 (h.ok .ram q hq).stop_lt

theorem Gave.freeCount_lt (h : Gave s s' .ram p) (hs : s.TreeInv) : s'.freeCount < s.freeCount := by
  refine Set.ncard_lt_ncard ⟨fun a ha => ((h.owns .ram a 0).mp ha).1, fun hsub => ?_⟩ hs.finite_free
  have hp : s.Owns .ram p 0 := h.free.2 p (Nat.le_refl _) (Nat.le_add_right _ _)
  exact ((h.owns .ram p 0).mp (hsub hp)).2 ⟨rfl, Nat.le_refl _, Nat.le_add_right _ _⟩

theorem Outside.not_onPages (h : s.Outside m r) (hp : ∀ p ∈ ps, s.FreePage p) (ha : r.Covers a) :
    ¬ OnPages ps m a := by
  rintro ⟨p, hmem, rfl, hle, hge⟩
  exact (h a ha).1 0 ((hp p hmem).2 a hle hge)

/-- The region `r` was added to the map `m`, and pages may have been taken. The answer is `b`. -/
structure Added (s s' : State A) (b : Bool) (m : Mem) (r : Region) (ps : List (Mem × Nat)) :
    Prop where
  inv : s'.Inv
  pages : s'.pages = ps ++ s.pages
  free : ∀ p ∈ ps, s.FreePage p
  sub : ∀ m' a o, s'.Owns m' a o →
    s.Owns m' a o ∧ ¬ OnPages ps m' a ∨ m' = m ∧ r.Covers a ∧ o = r.owner
  -- where the memory sufficed, nothing was lost
  outOfMemory : s'.outOfMemory = false → s.outOfMemory = false ∧ b = true
  kept : s'.outOfMemory = false → ∀ m' a o, s.Owns m' a o → ¬ OnPages ps m' a → s'.Owns m' a o
  new : s'.outOfMemory = false → r.owner ≠ sigma0TaskNo → ∀ a, r.Covers a → s'.Owns m a r.owner

theorem Inv.insertLoop (c : Nat) : ∀ {s : State A}, s.freeCount = c → s.Inv → r.Ok →
    r.owner ≠ sigma0TaskNo → s.Outside m r → s.LoneStart m r → s.LoneStop m r →
    ∃ K b s' ps, (∀ n ≥ K, ∀ j ≥ 1,
      insertLoop N V (fun s => State.morecore N V j s .ram) n s m r = some (b, s')) ∧
      Added s s' b m r ps := by
  induction c using Nat.strong_induction_on with
  | _ c ih =>
    intro s hc h hr hown ho hstart hstop
    -- one round of the loop
    have hround : ∀ n ≥ 1, ∃ i, n = i + 1 := fun n hn => ⟨n - 1, by omega⟩
    rcases h.treeInsert (N := N) (V := V) hr hown ho hstart hstop with
      hins | ⟨s', hins, hs', hpages, hflag, howns⟩
    · rcases h.morecore (N := N) (V := V) .ram with ⟨hmore, -⟩ | ⟨p, s₁, hmore, hg⟩
      · -- no free page is left
        refine ⟨1, false, { s with outOfMemory := true }, [], fun n hn j hj => ?_,
          ⟨⟨h.ok, h.order, h.foreign, h.apart⟩, h.given⟩, rfl, by simp,
          fun m' a o hq => .inl ⟨hq, onPages_nil⟩, (by simp), (by simp), (by simp)⟩
        obtain ⟨i, rfl⟩ := hround n hn
        obtain ⟨j, rfl⟩ := hround j hj
        rw [State.insertLoop, hins, if_pos rfl, hmore]
        rfl
      · have hout : s₁.Outside m r := by
          intro a ha
          refine ⟨fun o hq => (ho a ha).1 o ((hg.owns m a o).mp hq).1, ?_⟩
          rw [hg.pages, onPages_cons]
          rintro (⟨rfl, hle, hge⟩ | hp)
          · exact (ho a ha).1 0 (hg.free.2 a hle hge)
          · exact (ho a ha).2 hp
        obtain ⟨K, b, s', ps, hloop, had⟩ := ih s₁.freeCount (hc ▸ hg.freeCount_lt h.toTreeInv) rfl
          hg.inv hr hown hout (fun a hadj hq => hstart a hadj ((hg.owns m a _).mp hq).1)
          (fun hq => hstop ((hg.owns m _ _).mp hq).1)
        have hpage : ∀ m' a, OnPages (ps ++ [(.ram, p)]) m' a ↔
            OnPages ps m' a ∨ m' = .ram ∧ p ≤ a ∧ a ≤ p + 4095 := by
          intro m' a
          rw [onPages_append, onPages_cons, or_iff_left onPages_nil, eq_comm (a := Mem.ram)]
        refine ⟨K + 1, b, s', ps ++ [(.ram, p)], fun n hn j hj => ?_, had.inv, ?_, fun x hx => ?_,
          fun m' a o hq => ?_, fun hf => ?_, fun hf m' a o hq hne => ?_, had.new⟩
        · obtain ⟨i, rfl⟩ := hround n (by omega)
          have hj' := hloop i (by omega) j hj
          obtain ⟨j, rfl⟩ := hround j hj
          rw [State.insertLoop, hins, if_pos rfl, hmore]
          exact hj'
        · rw [had.pages, hg.pages]
          simp
        · rcases List.mem_append.mp hx with hx | hx
          · refine ⟨(had.free x hx).1, fun a hle hge => ?_⟩
            exact ((hg.owns x.1 a 0).mp ((had.free x hx).2 a hle hge)).1
          · rw [List.mem_singleton.mp hx]
            exact hg.free
        · rcases had.sub m' a o hq with ⟨hq, hne⟩ | hnew
          · obtain ⟨hq, hne'⟩ := (hg.owns m' a o).mp hq
            refine .inl ⟨hq, fun hp => ?_⟩
            rcases (hpage m' a).mp hp with hp | hp
            · exact hne hp
            · exact hne' hp
          · exact .inr hnew
        · rw [← hg.outOfMemory]
          exact had.outOfMemory hf
        · rw [hpage, not_or] at hne
          exact had.kept hf m' a o ((hg.owns m' a o).mpr ⟨hq, hne.2⟩) hne.1
    · refine ⟨1, true, s', [], fun n hn j hj => ?_, hs', hpages, by simp, fun m' a o hq => ?_,
        fun hf => ⟨hflag ▸ hf, rfl⟩, fun _ m' a o hq _ => (howns m' a o).mpr (.inl hq),
        fun _ _ a ha => (howns m a r.owner).mpr (.inr ⟨rfl, ha, rfl⟩)⟩
      · obtain ⟨i, rfl⟩ := hround n hn
        rw [State.insertLoop, hins, if_neg (by simp)]
      · rcases (howns m' a o).mp hq with hq | hnew
        · exact .inl ⟨hq, onPages_nil⟩
        · exact .inr hnew

/-! ## `add` -/

theorem Merged.added {p : Region × State A} (h : Merged s m r p) (hs : s.TreeInv)
    (ho : s.Outside m r) (had : Added p.2 s' b m p.1 ps) : Added s s' b m r ps := by
  have howns := h.owns
  refine ⟨had.inv, had.pages.trans (by rw [h.pages]), fun x hx => ?_, fun m' a o hq => ?_,
    fun hf => ?_, fun hf m' a o hq hne => ?_, fun hf hown a ha => ?_⟩
  · exact ⟨(had.free x hx).1, fun a hle hge => h.sub _ _ _ ((had.free x hx).2 a hle hge)⟩
  · rcases had.sub m' a o hq with ⟨hq, hne⟩ | ⟨rfl, ha, rfl⟩
    · exact .inl ⟨h.sub m' a o hq, hne⟩
    · rcases (howns m' a _).mp (.inr ⟨rfl, ha, h.owner⟩) with hq | hnew
      · exact .inl ⟨hq, h.outside.not_onPages had.free ha⟩
      · exact .inr ⟨hnew.1, hnew.2.1, h.owner⟩
  · rw [← h.outOfMemory]
    exact had.outOfMemory hf
  · rcases (howns m' a o).mpr (.inl hq) with hq | ⟨rfl, ha, rfl⟩
    · exact had.kept hf m' a o hq hne
    · have hnot : p.1.owner ≠ sigma0TaskNo := by
        obtain ⟨q, hq, -, hqo⟩ := hq
        rw [h.owner, ← hqo]
        exact hs.foreign _ q hq
      have := had.new hf hnot a ha
      rwa [h.owner] at this
  · rcases (howns m a r.owner).mpr (.inr ⟨rfl, ha, rfl⟩) with hq | ⟨-, hpa, -⟩
    · exact absurd (h.sub m a _ hq) ((ho a ha).1 _)
    · have := had.new hf (by rw [h.owner]; exact hown) a hpa
      rwa [h.owner] at this

/-- What `add` does with a region of its own, once the bound on its rounds is large enough. -/
theorem Inv.addWith (h : s.Inv) (hr : r.Ok) (ho : s.Outside m r) :
    ∃ K b s' ps, (∀ n ≥ K, ∀ j ≥ 1,
      addWith N V (fun s => State.morecore N V j s .ram) n s m r = some (b, s')) ∧
      Added s s' b m r ps := by
  by_cases hown : r.owner = sigma0TaskNo
  · refine ⟨0, true, s, [], fun n _ j _ => h.addWith_self hown _ n, h, rfl, by simp,
      fun m' a o hq => .inl ⟨hq, onPages_nil⟩, fun hf => ⟨hf, rfl⟩, fun _ m' a o hq _ => hq,
      fun _ hne => absurd hown hne⟩
  obtain ⟨hprev, hlone⟩ := h.mergePrev (N := N) (V := V) hr ho
  generalize hp : s.mergePrev N V m r = p at hprev hlone
  obtain ⟨r₁, s₁⟩ := p
  obtain ⟨hnext, hlone', hstart⟩ := hprev.inv.mergeNext (N := N) (V := V) hprev.ok hprev.outside
  generalize hp' : s₁.mergeNext N V m r₁ = p' at hnext hlone' hstart
  obtain ⟨r₂, s₂⟩ := p'
  have hmerged : Merged s m r (r₂, s₂) := hprev.trans hnext
  have howner : r₂.owner = r.owner := hmerged.owner
  have hstart₂ : s₂.LoneStart m r₂ := by
    intro a hadj hq
    have hq' := hnext.sub m a _ hq
    have howner' : r₂.owner = r₁.owner := hnext.owner
    rw [howner'] at hq'
    exact hlone a (hadj.trans hstart) hq'
  have hown₂ : r₂.owner ≠ sigma0TaskNo := by rwa [howner]
  obtain ⟨K, b, s', ps, hloop, had⟩ := Inv.insertLoop (N := N) (V := V) _ (s := s₂) rfl hmerged.inv
    hmerged.ok hown₂ hmerged.outside hstart₂ hlone'
  refine ⟨K, b, s', ps, fun n hn j hj => ?_, hmerged.added h.toTreeInv ho had⟩
  unfold State.addWith
  simp only [hp, hp', if_neg hown₂]
  exact hloop n hn j hj

theorem Inv.add (h : s.Inv) (hr : r.Ok) (ho : s.Outside m r) :
    ∃ b s' ps, Returns (fun n => add N V n s m r) (b, s') ∧ Added s s' b m r ps := by
  obtain ⟨K, b, s', ps, hadd, had⟩ := h.addWith (N := N) (V := V) hr ho
  exact ⟨b, s', ps, ⟨K + 1, fun n hn => hadd n (by omega) n (by omega)⟩, had⟩

/-! ## Changes of owner -/

/-- The addresses `P` of the map `m` got the owner `o`, and the free pages `ps`, none of them in `P`,
went to the node allocator. That nothing else was lost holds where the memory sufficed. -/
structure Assigned (s s' : State A) (m : Mem) (P : Nat → Prop) (o : Nat) (ps : List (Mem × Nat)) :
    Prop where
  inv : s'.Inv
  pages : s'.pages = ps ++ s.pages
  free : ∀ p ∈ ps, s.FreePage p
  apart : ∀ a, P a → ¬ OnPages ps m a
  outOfMemory : s'.outOfMemory = false → s.outOfMemory = false
  owns : s'.outOfMemory = false → ∀ m' a o', s'.Owns m' a o' ↔
    (¬ (m' = m ∧ P a) ∧ s.Owns m' a o' ∧ ¬ OnPages ps m' a) ∨
    (m' = m ∧ P a ∧ o' = o ∧ o ≠ sigma0TaskNo)

theorem Assigned.refl (h : s.Inv) (hown : ∀ a, P a → s.Owns m a o) : Assigned s s m P o [] := by
  refine ⟨h, rfl, by simp, fun a _ => onPages_nil, fun hf => hf, fun _ m' a o' => ⟨fun hq => ?_, ?_⟩⟩
  · by_cases hP : m' = m ∧ P a
    · obtain ⟨rfl, hP⟩ := hP
      refine .inr ⟨rfl, hP, h.owns_unique hq (hown a hP), ?_⟩
      obtain ⟨q, hq, -, hqo⟩ := hown a hP
      rw [← hqo]
      exact h.foreign m' q hq
    · exact .inl ⟨hP, hq, onPages_nil⟩
  · rintro (⟨-, hq, -⟩ | ⟨rfl, hP, rfl, -⟩)
    · exact hq
    · exact hown a hP

/-- A region is cut out of the map and added with another owner. -/
theorem Cut.assigned (hc : Cut s s₁ m r.Covers) (had : Added s₁ s' b m r ps) :
    Assigned s s' m r.Covers r.owner ps := by
  have hfree : ∀ p ∈ ps, ∀ a, p.2 ≤ a → a ≤ p.2 + 4095 →
      s.Owns p.1 a 0 ∧ ¬ (p.1 = m ∧ r.Covers a) := fun p hp a hle hge =>
    (hc.owns p.1 a 0).mp ((had.free p hp).2 a hle hge)
  have hap : ∀ a, r.Covers a → ¬ OnPages ps m a := by
    rintro a ha ⟨p, hp, hpm, hle, hge⟩
    exact (hfree p hp a hle hge).2 ⟨hpm, ha⟩
  refine ⟨had.inv, had.pages.trans (by rw [hc.pages]), fun p hp => ⟨(had.free p hp).1, fun a hle hge =>
    (hfree p hp a hle hge).1⟩, hap, fun hf => hc.outOfMemory ▸ (had.outOfMemory hf).1,
    fun hf m' a o' => ⟨fun hq => ?_, ?_⟩⟩
  · rcases had.sub m' a o' hq with ⟨hq', hne⟩ | ⟨rfl, ha, rfl⟩
    · obtain ⟨hq', hne'⟩ := (hc.owns m' a o').mp hq'
      exact .inl ⟨hne', hq', hne⟩
    · refine .inr ⟨rfl, ha, rfl, ?_⟩
      obtain ⟨q, hq, -, hqo⟩ := hq
      rw [← hqo]
      exact had.inv.foreign m' q hq
  · rintro (⟨hne, hq, hne'⟩ | ⟨rfl, ha, rfl, hown⟩)
    · exact had.kept hf m' a o' ((hc.owns m' a o').mpr ⟨hq, hne⟩) hne'
    · exact had.new hf hown a ha

/-- What is cut out is outside. -/
theorem Cut.outside (hs : s.Inv) (hc : Cut s s₁ m P) (hP : ∀ a, r.Covers a → P a)
    (hk : ∀ a, r.Covers a → ∃ o, s.Owns m a o) : s₁.Outside m r := by
  intro a ha
  refine ⟨fun o hq => ((hc.owns m a o).mp hq).2 ⟨rfl, hP a ha⟩, ?_⟩
  obtain ⟨o, ho⟩ := hk a ha
  rw [hc.pages]
  exact hs.given m a o ho

/-- A region is cut out, and the part behind it stays with the old owner. -/
theorem Cut.assigned_split {nr : Region} {b' : Bool} {qs : List (Mem × Nat)} {s₂ : State A}
    (hs : s.Inv) (hk : k ∈ s.keys m) (hkr : k.owner ≠ r.owner)
    (hown : k.owner = 0) (hnr : nr.owner = 0)
    (hc : Cut s s₁ m fun a => r.Covers a ∨ nr.Covers a) (hdisj : ∀ a, r.Covers a → ¬ nr.Covers a)
    (hin : ∀ a, nr.Covers a → k.Covers a) (hor : s₁.Outside m r) (honr : s₁.Outside m nr)
    (had : Added s₁ s₂ b m r ps) (had' : Added s₂ s' b' m nr qs) (hon₂ : s₂.Outside m nr) :
    Assigned s s' m r.Covers r.owner (qs ++ ps) := by
  have hr0 : r.owner ≠ 0 := fun h0 => hkr (hown.trans h0.symm)
  -- an address that is free after the first step was free before
  have hfree₂ : ∀ m' a, s₂.Owns m' a 0 → s.Owns m' a 0 ∧ ¬ (m' = m ∧ r.Covers a) := by
    intro m' a hq
    rcases had.sub m' a 0 hq with ⟨hq, -⟩ | ⟨-, -, h0⟩
    · obtain ⟨hq, hne⟩ := (hc.owns m' a 0).mp hq
      exact ⟨hq, fun hr => hne ⟨hr.1, .inl hr.2⟩⟩
    · exact absurd h0.symm hr0
  have hap : ∀ a, r.Covers a → ¬ OnPages (qs ++ ps) m a := by
    intro a ha hp
    rcases onPages_append.mp hp with ⟨p, hp, hpm, hle, hge⟩ | hp
    · exact (hfree₂ p.1 a ((had'.free p hp).2 a hle hge)).2 ⟨hpm, ha⟩
    · exact hor.not_onPages had.free ha hp
  refine ⟨had'.inv, ?_, fun p hp => ?_, hap, fun hf => ?_, fun hf m' a o' => ⟨fun hq => ?_, ?_⟩⟩
  · rw [had'.pages, had.pages, hc.pages, List.append_assoc]
  · rcases List.mem_append.mp hp with hp | hp
    · exact ⟨(had'.free p hp).1, fun a hle hge => (hfree₂ p.1 a ((had'.free p hp).2 a hle hge)).1⟩
    · refine ⟨(had.free p hp).1, fun a hle hge => ?_⟩
      exact ((hc.owns p.1 a 0).mp ((had.free p hp).2 a hle hge)).1
  · rw [← hc.outOfMemory]
    exact (had.outOfMemory (had'.outOfMemory hf).1).1
  · rcases had'.sub m' a o' hq with ⟨hq', hne⟩ | ⟨rfl, ha, rfl⟩
    · rcases had.sub m' a o' hq' with ⟨hq', hne'⟩ | ⟨rfl, ha, rfl⟩
      · obtain ⟨hq', hcut⟩ := (hc.owns m' a o').mp hq'
        refine .inl ⟨fun hr => hcut ⟨hr.1, .inl hr.2⟩, hq', ?_⟩
        rw [onPages_append, not_or]
        exact ⟨hne, hne'⟩
      · refine .inr ⟨rfl, ha, rfl, ?_⟩
        obtain ⟨q, hq, -, hqo⟩ := hq
        rw [← hqo]
        exact had'.inv.foreign m' q hq
    · refine .inl ⟨fun hr => hdisj a hr.2 ha, ⟨k, hk, hin a ha, hown.trans hnr.symm⟩, ?_⟩
      rw [onPages_append, not_or]
      exact ⟨hon₂.not_onPages had'.free ha, honr.not_onPages had.free ha⟩
  · have hf₂ := (had'.outOfMemory hf).1
    rintro (⟨hne, hq, hne'⟩ | ⟨rfl, ha, rfl, howner⟩)
    · rw [onPages_append, not_or] at hne'
      by_cases hna : m' = m ∧ nr.Covers a
      · obtain ⟨rfl, hna⟩ := hna
        have ho' : o' = nr.owner := by
          rw [hnr, ← hown]
          exact hs.owns_unique hq ⟨k, hk, hin a hna, rfl⟩
        rw [ho']
        exact had'.new hf (by rw [hnr]; decide) a hna
      · refine had'.kept hf m' a o' (had.kept hf₂ m' a o' ((hc.owns m' a o').mpr ⟨hq, ?_⟩) hne'.2) hne'.1
        rintro ⟨rfl, hr | hn⟩
        · exact hne ⟨rfl, hr⟩
        · exact hna ⟨rfl, hn⟩
    · have hnot := hap a ha
      rw [onPages_append, not_or] at hnot
      exact had'.kept hf m' a _ (had.new hf₂ howner a ha) hnot.1

/-- A region is added where it was cut out. -/
theorem Cut.add (hc : Cut s s₁ m r.Covers) (h : s.Inv) (hr : r.Ok)
    (hown : ∀ a, r.Covers a → ∃ o, s.Owns m a o) :
    ∃ b s' ps, Returns (fun n => State.add N V n s₁ m r) (b, s') ∧ (s'.outOfMemory = false → b = true) ∧
      Assigned s s' m r.Covers r.owner ps := by
  obtain ⟨b, s', ps, hret, had⟩ := (hc.inv_of h).add (N := N) (V := V) hr (hc.outside h (fun _ ha => ha) hown)
  exact ⟨b, s', ps, hret, fun hf => (had.outOfMemory hf).2, hc.assigned had⟩

/-- `alloc_from`: refused, or the owner of exactly `r` changes. -/
theorem Inv.allocFrom (h : s.Inv) (hk : k ∈ s.keys m) (hr : r.Ok) (hc : k.contains r = true) :
    ∃ b s' ps, Returns (fun n => State.allocFrom N V n s m k r) (b, s') ∧
      ((b = false ∧ s' = s ∧ ¬ (k.owner = 0 ∨ k.owner = r.owner)) ∨
        ((s'.outOfMemory = false → b = true) ∧ (k.owner = 0 ∨ k.owner = r.owner) ∧
          Assigned s s' m r.Covers r.owner ps)) := by
  have hok := h.ok m k hk
  obtain ⟨hle, hge⟩ := Region.contains_iff.mp hc
  have hrle := hr.le
  have hkr : ∀ a, r.Covers a → k.Covers a := fun a ha =>
    ⟨Nat.le_trans hle ha.1, Nat.le_trans ha.2 hge⟩
  unfold State.allocFrom allocFromWith
  by_cases hother : k.owner ≠ 0 ∧ k.owner ≠ r.owner
  · refine ⟨false, s, [], (Returns.const _).congr fun n => if_pos hother, .inl ⟨rfl, rfl, ?_⟩⟩
    rwa [not_or]
  have hmay : k.owner = 0 ∨ k.owner = r.owner := by tauto
  by_cases hsame : k.owner = r.owner
  · refine ⟨true, s, [], (Returns.const _).congr fun n => ?_, .inr ⟨fun _ => rfl, hmay, ?_⟩⟩
    · rw [if_neg hother, if_pos hsame]
    · exact .refl h fun a ha => ⟨k, hk, hkr a ha, hsame⟩
  have hfree : k.owner = 0 := hmay.resolve_right hsame
  have hkown : ∀ a, k.Covers a → ∃ o, s.Owns m a o := fun a ha => ⟨_, k, hk, ha, rfl⟩
  have hrown : ∀ a, r.Covers a → ∃ o, s.Owns m a o := fun a ha => hkown a (hkr a ha)
  have hstart0 := hr.start_mod
  have hstop0 := hr.stop_mod
  have hkstart := hok.start_mod
  have hkstop := hok.stop_mod
  have hklt := hok.stop_lt
  simp only [if_neg hother, if_neg hsame]
  by_cases hbeq : r.beq k = true
  · -- the whole region
    obtain ⟨hs, he⟩ := Region.beq_iff.mp hbeq
    have hcut : Cut s (s.treeRemove N V m k) m r.Covers := by
      have hcov : r.Covers = k.Covers := by
        funext a
        rw [Region.Covers, Region.Covers, hs, he]
      rw [hcov]
      exact h.treeRemove hk
    obtain ⟨b, s', ps, hret, hflag, hass⟩ := hcut.add (N := N) (V := V) h hr hrown
    refine ⟨b, s', ps, hret.congr fun n => ?_, .inr ⟨hflag, hmay, hass⟩⟩
    rw [if_pos hbeq]
    rfl
  have hne : ¬ (r.start = k.start ∧ r.stop = k.stop) := fun hc => hbeq (Region.beq_iff.mpr hc)
  simp only [if_neg hbeq]
  by_cases hs : r.start = k.start
  · -- the front of the region
    have hadd : Word.add r.stop 1 = r.stop + 1 := Word.add_eq (by omega)
    have hstart : (k.setStart (Word.add r.stop 1)).start = r.stop + 1 := by
      rw [hadd, Region.setStart_start (by omega)]
      omega
    have hcut : Cut s (s.setKey m k (k.setStart (Word.add r.stop 1))) m r.Covers := by
      have hcut := h.setKey hk (k.setStart (Word.add r.stop 1))
        (hok.setStart (by rw [hadd]; omega) (by rw [hadd]; omega) (by rw [hadd]; omega))
        (Region.setStart_owner (by rw [hadd]; omega)) (by rw [hstart]; omega) (Nat.le_refl _)
      refine ⟨hcut.inv, hcut.pages, hcut.outOfMemory, fun m' a o => ?_⟩
      rw [hcut.owns]
      unfold Region.Covers
      rw [hstart, Region.setStart_stop]
      refine and_congr_right fun _ => not_congr (and_congr_right fun _ => ?_)
      omega
    obtain ⟨b, s', ps, hret, -, hass⟩ := hcut.add (N := N) (V := V) h hr hrown
    refine ⟨true, s', ps, ?_, .inr ⟨fun _ => rfl, hmay, hass⟩⟩
    refine (hret.bind (k := fun _ p => some (true, p.2)) (Returns.const _)).congr fun n => ?_
    rw [if_pos hs]
    rfl
  simp only [if_neg hs]
  have hsub : Word.sub r.start 1 = r.start - 1 := Word.sub_eq (by omega) hr.start_lt
  have hstop : (k.setStop (Word.sub r.start 1)).Ok :=
    hok.setStop (by rw [hsub]; omega) (by rw [hsub]; omega) (by rw [hsub]; omega)
  have hcut := h.setKey hk (k.setStop (Word.sub r.start 1)) hstop Region.setStop_owner
    (Nat.le_of_eq Region.setStop_start.symm) (by rw [Region.setStop_stop, hsub]; omega)
  by_cases he : r.stop = k.stop
  · -- the end of the region
    have hcut' : Cut s (s.setKey m k (k.setStop (Word.sub r.start 1))) m r.Covers := by
      refine ⟨hcut.inv, hcut.pages, hcut.outOfMemory, fun m' a o => ?_⟩
      rw [hcut.owns]
      unfold Region.Covers
      rw [Region.setStop_start, Region.setStop_stop, hsub]
      refine and_congr_right fun _ => not_congr (and_congr_right fun _ => ?_)
      omega
    obtain ⟨b, s', ps, hret, -, hass⟩ := hcut'.add (N := N) (V := V) h hr hrown
    refine ⟨true, s', ps, ?_, .inr ⟨fun _ => rfl, hmay, hass⟩⟩
    refine (hret.bind (k := fun _ p => some (true, p.2)) (Returns.const _)).congr fun n => ?_
    rw [if_pos he]
    rfl
  · -- a part in the middle
    simp only [if_neg he]
    have hadd : Word.add r.stop 1 = r.stop + 1 := Word.add_eq (by omega)
    have hnrok : (Region.of (Word.add r.stop 1) k.stop k.owner).Ok :=
      Region.of_ok (by rw [hadd]; omega) k.owner_lt hklt hkstop (by rw [hadd]; omega)
    have hnrown : (Region.of (Word.add r.stop 1) k.stop k.owner).owner = 0 := by
      rw [Region.of_owner (by rw [hadd]; omega) k.owner_lt, hfree]
    have hnrstart : (Region.of (Word.add r.stop 1) k.stop k.owner).start = r.stop + 1 := by
      rw [hadd, Region.of_start (by omega) k.owner_lt]
      omega
    have hnrstop : (Region.of (Word.add r.stop 1) k.stop k.owner).stop = k.stop := Region.of_stop
    generalize Region.of (Word.add r.stop 1) k.stop k.owner = nr at *
    have hcut' : Cut s (s.setKey m k (k.setStop (Word.sub r.start 1))) m
        fun a => r.Covers a ∨ nr.Covers a := by
      refine ⟨hcut.inv, hcut.pages, hcut.outOfMemory, fun m' a o => ?_⟩
      rw [hcut.owns]
      unfold Region.Covers
      rw [Region.setStop_start, Region.setStop_stop, hsub, hnrstart, hnrstop]
      refine and_congr_right fun _ => not_congr (and_congr_right fun _ => ?_)
      omega
    have hknr : ∀ a, nr.Covers a → k.Covers a := by
      unfold Region.Covers
      rw [hnrstart, hnrstop]
      omega
    have hor := hcut'.outside (r := r) h (fun _ => .inl) hrown
    have honr := hcut'.outside (r := nr) h (fun _ => .inr) fun a ha => hkown a (hknr a ha)
    have hdisj : ∀ a, r.Covers a → ¬ nr.Covers a := by
      unfold Region.Covers
      rw [hnrstart, hnrstop]
      omega
    obtain ⟨b, s₂, ps, hret, had⟩ := (hcut'.inv_of h).add (N := N) (V := V) hr hor
    have hon₂ : s₂.Outside m nr := by
      intro a ha
      refine ⟨fun o hq => ?_, ?_⟩
      · rcases had.sub m a o hq with ⟨hq, -⟩ | ⟨-, hra, -⟩
        · exact (honr a ha).1 o hq
        · exact hdisj a hra ha
      · rw [had.pages, onPages_append, not_or]
        exact ⟨honr.not_onPages had.free ha, (honr a ha).2⟩
    obtain ⟨b', s', qs, hret', had'⟩ := had.inv.add (N := N) (V := V) hnrok hon₂
    refine ⟨true, s', qs ++ ps, ?_, .inr ⟨fun _ => rfl, hmay, hcut'.assigned_split h hk hsame hfree
      hnrown hdisj hknr hor honr had had' hon₂⟩⟩
    have hlast : Returns (fun n => State.add N V n s₂ m nr >>= fun p => some (true, p.2))
        (true, s') := hret'.bind (k := fun _ p => some (true, p.2)) (Returns.const _)
    have hboth := hret.bind (v := (b, s₂))
      (k := fun n p => State.add N V n p.2 m nr >>= fun p => some (true, p.2)) hlast
    exact hboth.congr fun n => rfl

end L4env.Sigma0.State
