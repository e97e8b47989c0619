import L4env.Sigma0.MemMan

/-!
# The region trees of sigma0: the invariant

`Inv` says that the regions of every map are whole pages, in order and disjoint, that neighbours have
different owners, and that no page of the node allocator is in the map it was taken from. What an
operation does is said by single addresses: `Owns m a o` says that `o` has the address `a` of the map
`m`, and `Cut` that some addresses were taken out of a map.
-/

namespace L4env.Sigma0

variable {A : Type} {N : NodeAlloc A} {V : Balancing} {s s' s₁ : State A} {m m' : Mem}
  {r k k' q q' : Region} {a o p : Nat} {ps : List (Mem × Nat)}

/-- The address lies on one of the pages. -/
def OnPages (ps : List (Mem × Nat)) (m : Mem) (a : Nat) : Prop :=
  ∃ p ∈ ps, p.1 = m ∧ p.2 ≤ a ∧ a ≤ p.2 + 4095

@[simp] theorem onPages_nil : ¬ OnPages [] m a := by simp [OnPages]

theorem onPages_append {qs : List (Mem × Nat)} :
    OnPages (ps ++ qs) m a ↔ OnPages ps m a ∨ OnPages qs m a := by
  simp only [OnPages, List.mem_append, or_and_right, exists_or]

theorem onPages_cons :
    OnPages ((m', p) :: ps) m a ↔ (m' = m ∧ p ≤ a ∧ a ≤ p + 4095) ∨ OnPages ps m a := by
  simp [OnPages]

namespace State

/-- The owner `o` has the address `a`. -/
def Owns (s : State A) (m : Mem) (a o : Nat) : Prop := ∃ q ∈ s.keys m, q.Covers a ∧ q.owner = o

/-- The regions of each map: whole pages, disjoint and in order, merged where the owner is the same. -/
structure TreeInv (s : State A) : Prop where
  ok : ∀ m, ∀ q ∈ s.keys m, q.Ok
  order : ∀ m, (s.keys m).Pairwise fun q q' => q.lt q' = true
  foreign : ∀ m, ∀ q ∈ s.keys m, q.owner ≠ sigma0TaskNo
  apart : ∀ m, ∀ q ∈ s.keys m, ∀ q' ∈ s.keys m, q.stop + 1 = q'.start → q.owner ≠ q'.owner

structure Inv (s : State A) : Prop extends s.TreeInv where
  given : ∀ m a o, s.Owns m a o → ¬ OnPages s.pages m a

theorem TreeInv.sorted (h : s.TreeInv) (m : Mem) : SearchTree.Sorted Region.lt (s.keys m) := by
  refine ⟨h.order m, fun k hk => ?_, fun k hk a b hak hkb => ?_⟩
  · rw [Region.lt_false_iff]
    exact (h.ok m k hk).le
  · rw [Region.lt_iff] at *
    exact Nat.lt_trans (Nat.lt_of_lt_of_le hak (h.ok m k hk).le) hkb

/-- Only one region has an address. -/
theorem TreeInv.eq_of_covers (h : s.TreeInv) (hq : q ∈ s.keys m) (hq' : q' ∈ s.keys m)
    (ha : q.Covers a) (ha' : q'.Covers a) : q = q' := by
  have hor : (s.keys m).Pairwise fun q q' => q.lt q' = true ∨ q'.lt q = true :=
    (h.order m).imp Or.inl
  have : Std.Symm fun q q' : Region => q.lt q' = true ∨ q'.lt q = true := ⟨fun _ _ => Or.symm⟩
  by_contra hne
  have hlt := hor.forall hq hq' hne
  rw [Region.lt_iff, Region.lt_iff] at hlt
  obtain ⟨hle, hge⟩ := ha
  obtain ⟨hle', hge'⟩ := ha'
  omega

theorem TreeInv.owns_unique (h : s.TreeInv) {o' : Nat} (ho : s.Owns m a o) (ho' : s.Owns m a o') :
    o = o' := by
  obtain ⟨q, hq, ha, rfl⟩ := ho
  obtain ⟨q', hq', ha', rfl⟩ := ho'
  rw [h.eq_of_covers hq hq' ha ha']

/-! ## Changes of one key -/

/-- In one map the keys `old` are replaced by `new`, nothing else happens. -/
structure Edit (s s' : State A) (m : Mem) (old new : List Region) : Prop where
  split : ∃ B C, s.keys m = B ++ old ++ C ∧ s'.keys m = B ++ new ++ C
  other : ∀ m', m' ≠ m → s'.keys m' = s.keys m'
  pages : s'.pages = s.pages
  outOfMemory : s'.outOfMemory = s.outOfMemory

theorem keys_update {t : BinaryTree Region} {b : A} {f : Bool} (hm : m' ≠ m) :
    State.keys (⟨Function.update s.tree m t, b, ps, f⟩ : State A) m' = s.keys m' := by
  show SearchTree.keys (Function.update s.tree m t m') = _
  rw [Function.update_of_ne hm, State.keys]

theorem TreeInv.treeRemove_edit (h : s.TreeInv) (hk : k ∈ s.keys m) :
    Edit s (s.treeRemove N V m k) m [k] [] := by
  obtain ⟨t, B, C, hrem, hB, hC⟩ := SearchTree.remove_spec (h.sorted m) hk
  simp only [State.treeRemove, hrem]
  refine ⟨⟨B, C, ?_, ?_⟩, fun m' hm => keys_update hm, rfl, rfl⟩
  · rw [List.append_assoc, List.singleton_append]
    exact hB
  · show SearchTree.keys (Function.update s.tree m (V.remove t) m) = _
    rw [Function.update_self, V.remove_keys, hC, List.append_nil]

theorem TreeInv.setKey_edit (h : s.TreeInv) (hk : k ∈ s.keys m) (k' : Region) :
    Edit s (s.setKey m k k') m [k] [k'] := by
  obtain ⟨B, C, hB⟩ := List.append_of_mem hk
  have hsorted := h.sorted m
  rw [hB] at hsorted
  refine ⟨⟨B, C, by simpa using hB, ?_⟩, fun m' hm => keys_update hm, rfl, rfl⟩
  show SearchTree.keys (Function.update s.tree m _ m) = _
  rw [Function.update_self, SearchTree.setKey_split hsorted hB]
  simp

/-- The regions of `s'` are those of `s` without the addresses `P` of the map `m`. -/
structure Cut (s s' : State A) (m : Mem) (P : Nat → Prop) : Prop where
  inv : s'.TreeInv
  pages : s'.pages = s.pages
  outOfMemory : s'.outOfMemory = s.outOfMemory
  owns : ∀ m' a o, s'.Owns m' a o ↔ s.Owns m' a o ∧ ¬ (m' = m ∧ P a)

theorem Cut.inv_of (h : Cut s s' m P) (hs : s.Inv) : s'.Inv := by
  refine ⟨h.inv, fun m' a o ho => ?_⟩
  rw [h.pages]
  exact hs.given m' a o ((h.owns m' a o).mp ho).1

theorem TreeInv.treeRemove (h : s.TreeInv) (hk : k ∈ s.keys m) :
    Cut s (s.treeRemove N V m k) m k.Covers := by
  have he := h.treeRemove_edit (N := N) (V := V) hk
  generalize s.treeRemove N V m k = s' at he
  obtain ⟨B, C, hB, hC⟩ := he.split
  rw [List.append_assoc, List.singleton_append] at hB
  rw [List.append_nil] at hC
  have hsub : ∀ m' q, q ∈ s'.keys m' → q ∈ s.keys m' := by
    intro m' q hq
    rcases eq_or_ne m' m with rfl | hm
    · rw [hC] at hq
      rw [hB]
      simp only [List.mem_append, List.mem_cons] at hq ⊢
      tauto
    · rwa [he.other m' hm] at hq
  have hnot : k ∉ s'.keys m := by
    have hnd := (h.sorted m).nodup
    rw [hB, List.nodup_middle] at hnd
    rw [hC]
    exact (List.nodup_cons.mp hnd).1
  refine ⟨⟨fun m' q hq => h.ok m' q (hsub m' q hq), fun m' => ?_,
    fun m' q hq => h.foreign m' q (hsub m' q hq),
    fun m' q hq q' hq' => h.apart m' q (hsub m' q hq) q' (hsub m' q' hq')⟩, he.pages, he.outOfMemory,
    fun m' a o => ⟨?_, ?_⟩⟩
  · rcases eq_or_ne m' m with rfl | hm
    · have hord := h.order m'
      rw [hB] at hord
      rw [hC]
      exact hord.sublist ((List.sublist_cons_self k C).append_left B)
    · rw [he.other m' hm]
      exact h.order m'
  · rintro ⟨q, hq, ha, ho⟩
    refine ⟨⟨q, hsub m' q hq, ha, ho⟩, ?_⟩
    rintro ⟨rfl, hka⟩
    rw [h.eq_of_covers (hsub m' q hq) hk ha hka] at hq
    exact hnot hq
  · rintro ⟨⟨q, hq, ha, ho⟩, hne⟩
    refine ⟨q, ?_, ha, ho⟩
    rcases eq_or_ne m' m with rfl | hm
    · rw [hB] at hq
      rw [hC]
      have hqk : q ≠ k := by
        rintro rfl
        exact hne ⟨rfl, ha⟩
      simp only [List.mem_append, List.mem_cons] at hq ⊢
      tauto
    · rwa [he.other m' hm]

/-- A region is shortened where it is. -/
theorem TreeInv.setKey (h : s.TreeInv) (hk : k ∈ s.keys m) (k' : Region) (hok : k'.Ok)
    (ho : k'.owner = k.owner) (hstart : k.start ≤ k'.start) (hstop : k'.stop ≤ k.stop) :
    Cut s (s.setKey m k k') m fun a => k.Covers a ∧ ¬ k'.Covers a := by
  have he := h.setKey_edit hk k'
  generalize s.setKey m k k' = s' at he
  obtain ⟨B, C, hB, hC⟩ := he.split
  rw [List.append_assoc, List.singleton_append] at hB hC
  have hsorted := h.sorted m
  rw [hB] at hsorted
  have hsorted' : SearchTree.Sorted Region.lt (B ++ k' :: C) := by
    refine hsorted.exchange (fun b hb => ?_) (fun b hb => ?_) ?_ fun b c hb hc => ?_
    · rw [Region.lt_iff] at hb ⊢
      omega
    · rw [Region.lt_iff] at hb ⊢
      omega
    · rw [Region.lt_false_iff]
      exact hok.le
    · have := hok.le
      rw [Region.lt_iff] at hb hc ⊢
      omega
  have hcases : ∀ m' q, q ∈ s'.keys m' → (m' = m ∧ q = k') ∨ q ∈ s.keys m' ∧ ¬ (m' = m ∧ q = k) := by
    intro m' q hq
    rcases eq_or_ne m' m with rfl | hm
    · have hnd := hsorted.nodup
      rw [List.nodup_middle, List.nodup_cons] at hnd
      rw [hC] at hq
      have hq' : q = k' ∨ q ∈ B ++ C := by
        simp only [List.mem_append, List.mem_cons] at hq ⊢
        tauto
      rcases hq' with rfl | hq'
      · exact .inl ⟨rfl, rfl⟩
      · refine .inr ⟨?_, ?_⟩
        · rw [hB]
          simp only [List.mem_append, List.mem_cons] at hq' ⊢
          tauto
        · rintro ⟨-, rfl⟩
          exact hnd.1 hq'
    · rw [he.other m' hm] at hq
      exact .inr ⟨hq, fun hc => hm hc.1⟩
  have hk' : k' ∈ s'.keys m := by
    rw [hC]
    simp
  -- the new key lies in the old one
  have hcov : ∀ a, k'.Covers a → k.Covers a := fun a ha =>
    ⟨Nat.le_trans hstart ha.1, Nat.le_trans ha.2 hstop⟩
  refine ⟨⟨fun m' q hq => ?_, fun m' => ?_, fun m' q hq => ?_, fun m' q hq q' hq' hadj => ?_⟩,
    he.pages, he.outOfMemory, fun m' a o => ⟨?_, ?_⟩⟩
  · rcases hcases m' q hq with ⟨rfl, rfl⟩ | ⟨hq, -⟩
    · exact hok
    · exact h.ok m' q hq
  · rcases eq_or_ne m' m with rfl | hm
    · rw [hC]
      exact hsorted'.order
    · rw [he.other m' hm]
      exact h.order m'
  · rcases hcases m' q hq with ⟨rfl, rfl⟩ | ⟨hq, -⟩
    · rw [ho]
      exact h.foreign m' k hk
    · exact h.foreign m' q hq
  · rcases hcases m' q hq with ⟨rfl, rfl⟩ | ⟨hq, hqk⟩
    · rcases hcases m' q' hq' with ⟨-, rfl⟩ | ⟨hq', hqk'⟩
      · have := hok.le
        omega
      · -- a region behind the new end is the old successor
        rw [ho]
        refine h.apart m' k hk q' hq' ?_
        by_contra hne
        refine hqk' ⟨rfl, h.eq_of_covers hq' hk ⟨Nat.le_refl _, (h.ok m' q' hq').le⟩ ⟨?_, ?_⟩⟩
        · have := hok.le
          omega
        · have := h.order m'
          omega
    · rcases hcases m' q' hq' with ⟨rfl, rfl⟩ | ⟨hq', hqk'⟩
      · rw [ho]
        refine h.apart m' q hq k hk ?_
        by_contra hne
        have hqok := (h.ok m' q hq).le
        refine hqk ⟨rfl, h.eq_of_covers hq hk ⟨hqok, Nat.le_refl _⟩ ⟨?_, ?_⟩⟩
        · have := h.order m'
          omega
        · have := hok.le
          omega
      · exact h.apart m' q hq q' hq' hadj
  · rintro ⟨q, hq, ha, hqo⟩
    rcases hcases m' q hq with ⟨rfl, rfl⟩ | ⟨hq, hqk⟩
    · exact ⟨⟨k, hk, hcov a ha, ho ▸ hqo⟩, fun hc => hc.2.2 ha⟩
    · refine ⟨⟨q, hq, ha, hqo⟩, ?_⟩
      rintro ⟨rfl, hka, -⟩
      exact hqk ⟨rfl, h.eq_of_covers hq hk ha hka⟩
  · rintro ⟨⟨q, hq, ha, hqo⟩, hne⟩
    rcases eq_or_ne m' m with rfl | hm
    · rcases eq_or_ne q k with rfl | hqk
      · refine ⟨k', hk', ?_, ho.trans hqo⟩
        by_contra hk'a
        exact hne ⟨rfl, ha, hk'a⟩
      · refine ⟨q, ?_, ha, hqo⟩
        rw [hB] at hq
        rw [hC]
        simp only [List.mem_append, List.mem_cons] at hq ⊢
        tauto
    · exact ⟨q, by rwa [he.other m' hm], ha, hqo⟩

end State

end L4env.Sigma0
