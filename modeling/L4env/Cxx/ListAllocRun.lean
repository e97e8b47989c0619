import L4env.Cxx.ListAllocSplit

/-!
# Runs of the list allocator

The allocator and its client: blocks are given to the allocator and taken from it, and the client may
write to every byte that is not in a free block.
-/

namespace L4env.Cxx

open ListAlloc

/-- The allocator and the blocks it has handed out. -/
structure Heap where
  list : ListAlloc
  used : List Block

inductive HeapOp where
  | free (b : Block)
  | alloc (size align : Nat)
  | write (a : Nat) (v : BitVec 8)

namespace Heap

/-- One step, with at most `n` rounds for each loop, and the address that `alloc` returns. -/
def exec (n : Nat) (s : Heap) : HeapOp → Option (Nat × Heap)
  | .free b => (s.list.free n b.start b.size).map fun h => (0, ⟨h, s.used.erase b⟩)
  | .alloc size align =>
    (s.list.alloc n size align).map fun (a, h) =>
      (a, ⟨h, if a = 0 then s.used else ⟨a, size⟩ :: s.used⟩)
  | .write a v => some (0, ⟨{ s.list with mem := Function.update s.list.mem a v }, s.used⟩)

/-- The blocks of the list up to the null pointer. -/
def FreeList (s : Heap) (L : List Block) : Prop :=
  s.list.IsList L ∧ ∀ b ∈ L, 0 < b.start

/-- What the client may do: it frees a block that was handed out or new memory, and does not write to
memory that is free. -/
def Legal (s : Heap) (L : List Block) : HeapOp → Prop
  | .free b => b ∈ s.used ∨
      4 ∣ b.start ∧ 8 ≤ b.size ∧ b.fin ≤ 4294967296 ∧ ∀ x ∈ L ++ s.used, b.Disjoint x
  | .alloc size align => 0 < size ∧ size < 4294967296 ∧ IsAlign align
  | .write a _ => ¬ Covers L a

/-- The headers that the step writes fit: a freed block has room for one and is not at the null
pointer, and the block that is split leaves rests that have. -/
def HeadersFit (L : List Block) : HeapOp → Prop
  | .free b => 0 < b.start ∧ 8 ≤ b.size
  | .alloc size align => ∀ b ∈ firstFit size align L, b.SplitsClean size align
  | .write _ _ => True

/-- The heaps reached from the empty list, over any memory, by legal steps that meet `C`. -/
inductive Run (C : List Block → HeapOp → Prop) : Heap → Prop
  | start (mem : Bytes) : Run C ⟨⟨0, mem⟩, []⟩
  | step {s s' : Heap} {L : List Block} {op : HeapOp} {n a : Nat} (h : Run C s)
      (hl : s.FreeList L) (legal : s.Legal L op) (hC : C L op) (he : s.exec n op = some (a, s')) :
      Run C s'

/-- The list is sorted, its headers are inside their blocks, and no block that is in use overlaps
a free block or another one in use. -/
structure Inv (s : Heap) (L : List Block) : Prop where
  list : s.list.IsList L
  sorted : Sorted L
  apart : Apart L
  used_free : ∀ u ∈ s.used, ∀ b ∈ L, u.Disjoint b
  used : s.used.Pairwise Block.Disjoint
  fits : ∀ u ∈ s.used, 0 < u.size ∧ u.fin ≤ 4294967296

/-- What a step has to do. -/
def Effect (s : Heap) (L : List Block) (a : Nat) (s' : Heap) (L' : List Block) : HeapOp → Prop
  | .free b =>
      total L' = total L + b.size ∧ (∀ i, Covers L' i ↔ Covers L i ∨ b.Has i) ∧
        ∀ i, ¬ Covers L' i → s'.list.mem i = s.list.mem i
  | .alloc size align =>
      (a = 0 → s' = s ∧ ∀ b ∈ L, ∀ x, Aligned align x → b.start ≤ x → b.fin < x + size) ∧
      (a ≠ 0 → Aligned align a ∧ (∀ u ∈ s.used, (Block.mk a size).Disjoint u) ∧
        (∃ b ∈ L, b.start ≤ a ∧ a + size ≤ b.fin) ∧ (∀ b ∈ L', (Block.mk a size).Disjoint b) ∧
        total L' + size = total L ∧
        (∀ i, Covers L' i ↔ Covers L i ∧ ¬ (Block.mk a size).Has i) ∧
        ∀ i, ¬ Covers L i → s'.list.mem i = s.list.mem i)
  | .write _ _ => s'.list.first = s.list.first ∧ L' = L

variable {s s' : Heap} {L L' : List Block} {op : HeapOp} {n m a : Nat}

/-! ## More rounds do not change a result -/

theorem mergeFrom_succ {h h' : ListAlloc} {c : Nat} (he : mergeFrom n h c = some h') :
    mergeFrom (n + 1) h c = some h' := by
  induction n generalizing h c with
  | zero => cases he
  | succ n ih =>
    rw [mergeFrom] at he ⊢
    split_ifs at he ⊢ with h₁ h₂
    · exact he
    · exact ih he
    · exact ih he

theorem seek_succ {h : ListAlloc} {block : Nat} {c c' : Option Nat}
    (he : h.seek block n c = some c') : h.seek block (n + 1) c = some c' := by
  induction n generalizing c with
  | zero => cases he
  | succ n ih =>
    rw [seek] at he ⊢
    split_ifs at he ⊢ with h₁
    · exact ih he
    · exact he

theorem allocFrom_succ {size almask : Nat} {h : ListAlloc} {c : Option Nat} {r : Nat × ListAlloc}
    (he : allocFrom size almask n h c = some r) :
    allocFrom size almask (n + 1) h c = some r := by
  induction n generalizing c with
  | zero => cases he
  | succ n ih =>
    rw [allocFrom] at he ⊢
    dsimp only at he ⊢
    split_ifs at he ⊢
    all_goals first | exact he | exact ih he

theorem free_succ {h h' : ListAlloc} {block size : Nat} (he : h.free n block size = some h') :
    h.free (n + 1) block size = some h' := by
  obtain ⟨c, hc, hm⟩ := Option.bind_eq_some_iff.mp he
  refine Option.bind_eq_some_iff.mpr ⟨c, ?_, mergeFrom_succ hm⟩
  split_ifs at hc ⊢ with h0
  · exact seek_succ hc
  · exact hc

theorem exec_succ {r : Nat × Heap} (he : s.exec n op = some r) : s.exec (n + 1) op = some r := by
  cases op with
  | free b =>
    obtain ⟨h, hh, rfl⟩ := Option.map_eq_some_iff.mp he
    exact Option.map_eq_some_iff.mpr ⟨h, free_succ hh, rfl⟩
  | alloc size align =>
    obtain ⟨r, hr, rfl⟩ := Option.map_eq_some_iff.mp he
    exact Option.map_eq_some_iff.mpr ⟨r, allocFrom_succ hr, rfl⟩
  | write a v => exact he

theorem exec_returns {r : Nat × Heap} (he : s.exec n op = some r) :
    Returns (fun k => s.exec k op) r := by
  refine ⟨n, fun k hk => ?_⟩
  induction k, hk using Nat.le_induction with
  | base => exact he
  | succ k hk ih => exact exec_succ ih

/-! ## One step -/

/-- Blocks without a common address do not overlap. -/
theorem disjoint_of_not_has {b b' : Block} (hb : 0 < b.size) (hb' : 0 < b'.size)
    (h : ∀ i, b.Has i → ¬ b'.Has i) : b.Disjoint b' := by
  have h₁ := h b.start
  have h₂ := h b'.start
  unfold Block.Disjoint Block.Has Block.fin at *
  omega

theorem disjoint_of_covers {u b : Block} (hu : 0 < u.size) (hb : b ∈ L) (hs : Sorted L)
    (h : ∀ i, u.Has i → ¬ Covers L i) : u.Disjoint b :=
  disjoint_of_not_has hu (Nat.lt_of_lt_of_le (by decide) (hs.valid b hb).header)
    fun i hi hbi => h i hi ⟨b, hb, hbi⟩

theorem not_covers_of_disjoint {u : Block} (h : ∀ b ∈ L, u.Disjoint b) {i : Nat} (hi : u.Has i) :
    ¬ Covers L i :=
  fun ⟨b, hb, hbi⟩ => (h b hb).not_has hi hbi

theorem Inv.freeList (I : s.Inv L) : s.FreeList L :=
  ⟨I.list, fun b hb => (I.sorted.valid b hb).pos⟩

/-- The blocks that stay in use do not overlap the freed one. -/
theorem Inv.erase_disjoint {b : Block} (I : s.Inv L) (hlegal : s.Legal L (.free b)) :
    (∀ x ∈ L, b.Disjoint x) ∧ ∀ x ∈ s.used.erase b, b.Disjoint x := by
  cases hlegal with
  | inl hb =>
    refine ⟨I.used_free b hb, ?_⟩
    have hpair : (b :: s.used.erase b).Pairwise Block.Disjoint :=
      I.used.perm (List.perm_cons_erase hb) fun h => h.symm
    exact fun x hx => List.rel_of_pairwise_cons hpair hx
  | inr hb =>
    obtain ⟨-, -, -, hdisj⟩ := hb
    exact ⟨fun x hx => hdisj x (List.mem_append_left _ hx),
      fun x hx => hdisj x (List.mem_append_right _ (List.mem_of_mem_erase hx))⟩

theorem Inv.free {b : Block} (I : s.Inv L) (hlegal : s.Legal L (.free b))
    (hfit : HeadersFit L (.free b)) :
    ∃ a s' L', Returns (fun n => s.exec n (.free b)) (a, s') ∧ s'.Inv L' ∧
      s.Effect L a s' L' (.free b) := by
  obtain ⟨hL, hused⟩ := I.erase_disjoint hlegal
  have hend : b.fin ≤ 4294967296 := by
    cases hlegal with
    | inl hb => exact (I.fits b hb).2
    | inr hb => exact hb.2.2.1
  obtain ⟨h', L', hret, hl', hs', ha', htotal, hcov, hout⟩ :=
    IsList.free I.list I.sorted ⟨hfit.1, hfit.2, hend⟩ hL
  have hsub : ∀ u ∈ s.used.erase b, u ∈ s.used := fun u hu => List.mem_of_mem_erase hu
  refine ⟨0, ⟨h', s.used.erase b⟩, L', hret.map _, ⟨hl', hs', ha', fun u hu x hx => ?_, ?_,
    fun u hu => I.fits u (hsub u hu)⟩, htotal, hcov, hout⟩
  · refine disjoint_of_covers (I.fits u (hsub u hu)).1 hx hs' fun i hi hci => ?_
    cases (hcov i).mp hci with
    | inl hci => exact not_covers_of_disjoint (I.used_free u (hsub u hu)) hi hci
    | inr hbi => exact (hused u hu).not_has hbi hi
  · exact I.used.sublist List.erase_sublist

theorem Inv.alloc {size align : Nat} (I : s.Inv L) (hlegal : s.Legal L (.alloc size align))
    (hfit : HeadersFit L (.alloc size align)) :
    ∃ a s' L', Returns (fun n => s.exec n (.alloc size align)) (a, s') ∧ s'.Inv L' ∧
      s.Effect L a s' L' (.alloc size align) := by
  obtain ⟨hsize, -, halign⟩ := hlegal
  cases hsearch : firstFit size align L with
  | none =>
    refine ⟨0, s, L, (IsList.alloc_none I.list I.sorted halign hsearch).map _, I,
      fun _ => ⟨rfl, fun b hb x hx hle => not_inside ?_ hx hle⟩, fun h => absurd rfl h⟩
    have hnone : ∀ b ∈ L, ¬ b.Fits size align := by
      simpa [firstFit, List.find?_eq_none] using hsearch
    exact hnone b hb
  | some b =>
    have hclean := hfit b (Option.mem_def.mpr hsearch)
    obtain ⟨h', L', hret, hl', hs', ha', htotal, hcov, hout⟩ :=
      IsList.alloc_some I.list I.sorted I.apart halign hsize hsearch hclean
    have hb : b ∈ L := List.mem_of_find?_eq_some hsearch
    have hroom : b.front align + size ≤ b.size :=
      of_decide_eq_true (List.find?_eq_some_iff_append.mp hsearch).1
    have hvalid := I.sorted.valid b hb
    have hpos := hvalid.pos
    have hend : b.start + b.size ≤ 4294967296 := hvalid.fits
    let range : Block := ⟨b.start + b.front align, size⟩
    have hin : ∀ u ∈ s.used, range.Disjoint u := by
      intro u hu
      have hub := I.used_free u hu b hb
      unfold Block.Disjoint Block.fin at hub ⊢
      dsimp only [range]
      omega
    have hrange : ∀ x ∈ L', range.Disjoint x := fun x hx =>
      disjoint_of_covers (by exact hsize) hx hs' fun i hi hci => ((hcov i).mp hci).2 hi
    have hne : b.start + b.front align ≠ 0 := by omega
    refine ⟨_, ⟨h', range :: s.used⟩, L', ?_, ⟨hl', hs', ha', ?_, ?_, ?_⟩, fun h0 => absurd h0 hne,
      fun _ => ⟨aligned_front b, hin, ⟨b, hb, Nat.le_add_right _ _, ?_⟩, hrange, htotal, hcov,
        hout⟩⟩
    · have hmap := hret.map fun (a, h) =>
        (a, (⟨h, if a = 0 then s.used else ⟨a, size⟩ :: s.used⟩ : Heap))
      dsimp only at hmap
      rwa [if_neg hne] at hmap
    · intro u hu x hx
      cases hu with
      | head => exact hrange x hx
      | tail _ hu =>
        refine disjoint_of_covers (I.fits u hu).1 hx hs' fun i hi hci => ?_
        exact not_covers_of_disjoint (I.used_free u hu) hi ((hcov i).mp hci).1
    · exact List.pairwise_cons.mpr ⟨hin, I.used⟩
    · refine List.forall_mem_cons.mpr ⟨⟨hsize, ?_⟩, I.fits⟩
      unfold Block.fin
      dsimp only [range]
      omega
    · unfold Block.fin
      omega

theorem Inv.write {v : BitVec 8} (I : s.Inv L) (hlegal : s.Legal L (.write a v)) :
    ∃ a' s' L', Returns (fun n => s.exec n (.write a v)) (a', s') ∧ s'.Inv L' ∧
      s.Effect L a' s' L' (.write a v) := by
  refine ⟨0, ⟨{ s.list with mem := Function.update s.list.mem a v }, s.used⟩, L, Returns.const _,
    { I with list := ?_ }, rfl, rfl⟩
  refine Chain.frame I.list fun b hb i h₁ h₂ => Function.update_of_ne ?_ _ _
  rintro rfl
  have hheader := (I.sorted.valid b hb).header
  exact hlegal ⟨b, hb, h₁, by unfold Block.fin; omega⟩

theorem Inv.step (I : s.Inv L) (hlegal : s.Legal L op) (hfit : HeadersFit L op) :
    ∃ a s' L', Returns (fun n => s.exec n op) (a, s') ∧ s'.Inv L' ∧ s.Effect L a s' L' op := by
  cases op with
  | free b => exact I.free hlegal hfit
  | alloc size align => exact I.alloc hlegal hfit
  | write a v => exact I.write hlegal

/-! ## Runs -/

theorem Run.inv (h : Run HeadersFit s) : ∃ L, s.Inv L := by
  induction h with
  | start mem =>
    exact ⟨[], rfl, ⟨by simp, .nil⟩, .nil, by simp, .nil, by simp⟩
  | @step s s' L op n a h hl hlegal hfit he ih =>
    obtain ⟨L₀, I⟩ := ih
    obtain rfl : L = L₀ := Chain.unique hl.1 I.list hl.2 I.freeList.2
    obtain ⟨a', s'', L', hret, I', -⟩ := I.step hlegal hfit
    obtain ⟨-, rfl⟩ := Prod.mk.inj ((exec_returns he).unique hret)
    exact ⟨L', I'⟩

/-- If all headers fit that the steps write, the free list stays sorted, apart and within the memory
that is not in use, `avail` is its size, and every further step returns and does what it has to. -/
theorem list_alloc_sound (h : Run HeadersFit s) :
    ∃ L, s.FreeList L ∧ s.Inv L ∧ Returns (fun n => s.list.avail n) (total L) ∧
      ∀ op, s.Legal L op → HeadersFit L op →
        ∃ a s' L', Returns (fun n => s.exec n op) (a, s') ∧ s'.FreeList L' ∧ s'.Inv L' ∧
          Returns (fun n => s'.list.avail n) (total L') ∧ s.Effect L a s' L' op := by
  obtain ⟨L, I⟩ := h.inv
  refine ⟨L, I.freeList, I, IsList.avail I.list I.sorted, fun op hlegal hfit => ?_⟩
  obtain ⟨a, s', L', hret, I', heffect⟩ := I.step hlegal hfit
  exact ⟨a, s', L', hret, I'.freeList, I', IsList.avail I'.list I'.sorted, heffect⟩

theorem list_alloc_sound_page : ∃ s a s' L', Run HeadersFit s ∧ s.FreeList [⟨4096, 4096⟩] ∧
    Returns (fun n => s.exec n (.alloc 32 32)) (a, s') ∧ s'.Inv L' ∧
    Returns (fun n => s'.list.avail n) (total L') ∧
    s.Effect [⟨4096, 4096⟩] a s' L' (.alloc 32 32) := by
  let s₀ : Heap := ⟨⟨0, fun _ => 0⟩, []⟩
  have hrun : (s₀.exec 3 (.free ⟨4096, 4096⟩)).map (fun r =>
      [r.2.list.first, r.2.list.next 4096, r.2.list.size 4096]) = some [4096, 0, 4096] := by
    decide +kernel
  obtain ⟨⟨a₁, s₁⟩, he, hrun⟩ := Option.map_eq_some_iff.mp hrun
  simp only [List.cons.injEq, and_true] at hrun
  obtain ⟨hfirst, hnext, hsize⟩ := hrun
  have hl : s₁.FreeList [⟨4096, 4096⟩] := ⟨chain_cons_iff.mpr ⟨hfirst, hsize, hnext⟩, by simp⟩
  have hl₀ : s₀.FreeList [] := ⟨rfl, by simp⟩
  have hlegal : s₀.Legal [] (.free ⟨4096, 4096⟩) :=
    Or.inr ⟨by decide, by decide, by decide, by simp [s₀]⟩
  have hfits : HeadersFit [] (.free ⟨4096, 4096⟩) := ⟨by decide, by decide⟩
  have hstep : Run HeadersFit s₁ := .step (.start _) hl₀ hlegal hfits he
  obtain ⟨L, hL, -, -, hnext⟩ := list_alloc_sound hstep
  obtain rfl : L = [⟨4096, 4096⟩] := Chain.unique hL.1 hl.1 hL.2 hl.2
  have hfit : HeadersFit [⟨4096, 4096⟩] (.alloc 32 32) := by
    intro b hb
    obtain rfl := Option.mem_some.mp hb
    exact ⟨by decide, by decide⟩
  obtain ⟨a, s', L', hret, -, I, havail, heffect⟩ :=
    hnext (.alloc 32 32) ⟨by decide, by decide, .inr ⟨5, by decide, rfl⟩⟩ hfit
  exact ⟨s₁, a, s', L', hstep, hl, hret, I, havail, heffect⟩

/-- Behind 60 bytes of a block of 64 there is no room for a header: its size is written to the memory
behind the block. -/
theorem list_alloc_overrun : ∃ s s' L L' a,
    Run (fun _ _ => True) s ∧ s.FreeList L ∧ s.Legal L (.alloc 60 0) ∧
    s.exec 3 (.alloc 60 0) = some (a, s') ∧ s'.FreeList L' ∧ (∃ b ∈ L', b.size < 8) ∧
    ¬ Covers L 4160 ∧ s'.list.mem 4160 ≠ s.list.mem 4160 := by
  let s₀ : Heap := ⟨⟨0, fun _ => 0⟩, []⟩
  have hrun : ((s₀.exec 3 (.free ⟨4096, 64⟩)).bind fun r => (r.2.exec 3 (.alloc 60 0)).map fun r' =>
      [r.2.list.first, r.2.list.next 4096, r.2.list.size 4096, (r.2.list.mem 4160).toNat,
        r'.2.list.first, r'.2.list.next 4156, r'.2.list.size 4156, (r'.2.list.mem 4160).toNat]) =
      some [4096, 0, 64, 0, 4156, 0, 4, 4] := by decide +kernel
  obtain ⟨⟨a₁, s₁⟩, h₁, hrun⟩ := Option.bind_eq_some_iff.mp hrun
  obtain ⟨⟨a₂, s₂⟩, h₂, hrun⟩ := Option.map_eq_some_iff.mp hrun
  simp only [List.cons.injEq, and_true] at hrun
  obtain ⟨hf₁, hn₁, hs₁, hm₁, hf₂, hn₂, hs₂, hm₂⟩ := hrun
  have hl₁ : s₁.FreeList [⟨4096, 64⟩] := ⟨chain_cons_iff.mpr ⟨hf₁, hs₁, hn₁⟩, by simp⟩
  have hl₂ : s₂.FreeList [⟨4156, 4⟩] := ⟨chain_cons_iff.mpr ⟨hf₂, hs₂, hn₂⟩, by simp⟩
  have hl₀ : s₀.FreeList [] := ⟨rfl, by simp⟩
  have hlegal : s₀.Legal [] (.free ⟨4096, 64⟩) :=
    Or.inr ⟨by decide, by decide, by decide, by simp [s₀]⟩
  have hstep : Run (fun _ _ => True) s₁ := .step (.start _) hl₀ hlegal trivial h₁
  refine ⟨s₁, s₂, _, _, a₂, hstep, hl₁, ⟨by decide, by decide, .inl rfl⟩, h₂, hl₂,
    ⟨_, List.mem_singleton_self _, by decide⟩, ?_, fun heq => ?_⟩
  · simp [Covers, Block.Has, Block.fin]
  · rw [heq, hm₁] at hm₂
    cases hm₂

end Heap

end L4env.Cxx
