import L4env.Cxx.ListAlloc

/-!
# The free list

The free blocks in the order of their addresses, and how they are threaded through the memory. Two
blocks of the list may touch while a block is added; afterwards `mergeBlocks` joins those that do.
-/

namespace L4env.Cxx

/-- A range of `size` bytes. -/
structure Block where
  start : Nat
  size : Nat
deriving DecidableEq

namespace Block

def fin (b : Block) : Nat := b.start + b.size

/-- The addresses of the block. -/
def Has (b : Block) (i : Nat) : Prop := b.start ≤ i ∧ i < b.fin

def Disjoint (b b' : Block) : Prop := b.fin ≤ b'.start ∨ b'.fin ≤ b.start

theorem Disjoint.symm {b b' : Block} (h : b.Disjoint b') : b'.Disjoint b := Or.symm h

theorem Disjoint.not_has {b b' : Block} {i : Nat} (h : b.Disjoint b') (hi : b.Has i) :
    ¬ b'.Has i := by
  unfold Disjoint Has at *
  omega

/-- A block that can carry its header: it is not at address zero, does not reach past the end of the
memory, and the header fits into it. -/
structure Valid (b : Block) : Prop where
  pos : 0 < b.start
  header : 8 ≤ b.size
  fits : b.fin ≤ 4294967296

end Block

/-- Some block of the list has the address. -/
def Covers (L : List Block) (i : Nat) : Prop := ∃ b ∈ L, b.Has i

def total (L : List Block) : Nat := (L.map Block.size).sum

/-- The list is sorted by address, its blocks do not overlap, and each has room for its header. -/
structure Sorted (L : List Block) : Prop where
  valid : ∀ b ∈ L, b.Valid
  order : L.Pairwise fun b b' => b.fin ≤ b'.start

/-- No two blocks touch. -/
def Apart (L : List Block) : Prop := L.Pairwise fun b b' => b.fin < b'.start

/-- The headers in the memory link the blocks of the list, from the pointer `p` to the pointer `q`. -/
def Chain (m : Bytes) : Nat → List Block → Nat → Prop
  | p, [], q => p = q
  | p, b :: L, q => p = b.start ∧ m.load32 (b.start + 4) = b.size ∧ Chain m (m.load32 b.start) L q

/-- The list with blocks that touch joined. -/
def mergeBlocks : List Block → List Block
  | [] => []
  | [b] => [b]
  | b :: b' :: L =>
    if b.fin = b'.start then mergeBlocks (⟨b.start, b.size + b'.size⟩ :: L)
    else b :: mergeBlocks (b' :: L)
termination_by L => L.length

section
variable {b b' : Block} {L L' L₁ L₂ : List Block} {i : Nat}

@[simp] theorem covers_nil : ¬ Covers [] i := by simp [Covers]

@[simp] theorem covers_cons : Covers (b :: L) i ↔ b.Has i ∨ Covers L i := by simp [Covers]

@[simp] theorem covers_append : Covers (L₁ ++ L₂) i ↔ Covers L₁ i ∨ Covers L₂ i := by
  simp [Covers, or_and_right, exists_or]

@[simp] theorem total_nil : total [] = 0 := rfl

@[simp] theorem total_cons : total (b :: L) = b.size + total L := rfl

@[simp] theorem total_append : total (L₁ ++ L₂) = total L₁ + total L₂ := by simp [total]

theorem Sorted.tail (h : Sorted (b :: L)) : Sorted L :=
  ⟨fun x hx => h.valid x (List.mem_cons_of_mem _ hx), h.order.of_cons⟩

theorem Sorted.head_le (h : Sorted (b :: L)) (hx : b' ∈ L) : b.fin ≤ b'.start :=
  List.rel_of_pairwise_cons h.order hx

theorem sorted_append :
    Sorted (L₁ ++ L₂) ↔ Sorted L₁ ∧ Sorted L₂ ∧ ∀ b ∈ L₁, ∀ b' ∈ L₂, b.fin ≤ b'.start := by
  constructor
  · intro ⟨hv, ho⟩
    obtain ⟨ho₁, ho₂, ho⟩ := List.pairwise_append.mp ho
    exact ⟨⟨fun b hb => hv b (List.mem_append_left _ hb), ho₁⟩,
      ⟨fun b hb => hv b (List.mem_append_right _ hb), ho₂⟩, ho⟩
  · intro ⟨h₁, h₂, ho⟩
    refine ⟨fun b hb => ?_, List.pairwise_append.mpr ⟨h₁.order, h₂.order, ho⟩⟩
    cases List.mem_append.mp hb with
    | inl hb => exact h₁.valid b hb
    | inr hb => exact h₂.valid b hb

theorem sorted_cons :
    Sorted (b :: L) ↔ b.Valid ∧ Sorted L ∧ ∀ b' ∈ L, b.fin ≤ b'.start := by
  constructor
  · intro h
    exact ⟨h.valid b List.mem_cons_self, h.tail, fun _ => h.head_le⟩
  · intro ⟨hb, h, ho⟩
    exact ⟨List.forall_mem_cons.mpr ⟨hb, h.valid⟩, List.pairwise_cons.mpr ⟨ho, h.order⟩⟩

/-- The blocks of a sorted list fit into the memory. -/
theorem Sorted.total_le (h : Sorted L) {a : Nat} (ha : ∀ b ∈ L, a ≤ b.start)
    (h32 : a ≤ 4294967296) : a + total L ≤ 4294967296 := by
  induction L generalizing a with
  | nil => simpa using h32
  | cons b L ih =>
    have hfit := (h.valid b List.mem_cons_self).fits
    have hle := ih h.tail (fun x hx => h.head_le hx) hfit
    have hstart := ha b List.mem_cons_self
    rw [total_cons]
    unfold Block.fin at hle
    omega

/-- A block is replaced by parts of it. -/
theorem Sorted.splice {R : List Block} (h : Sorted (L₁ ++ b :: L₂)) (hR : Sorted R)
    (hin : ∀ x ∈ R, b.start ≤ x.start ∧ x.fin ≤ b.fin) : Sorted (L₁ ++ (R ++ L₂)) := by
  obtain ⟨h₁, h₂, ho⟩ := sorted_append.mp h
  refine sorted_append.mpr ⟨h₁, sorted_append.mpr ⟨hR, h₂.tail, fun x hx y hy => ?_⟩,
    fun x hx y hy => ?_⟩
  · exact Nat.le_trans (hin x hx).2 (h₂.head_le hy)
  · cases List.mem_append.mp hy with
    | inl hy => exact Nat.le_trans (ho x hx b List.mem_cons_self) (hin y hy).1
    | inr hy => exact ho x hx y (List.mem_cons_of_mem _ hy)

theorem Apart.splice {R : List Block} (h : Apart (L₁ ++ b :: L₂)) (hR : Apart R)
    (hin : ∀ x ∈ R, b.start ≤ x.start ∧ x.fin ≤ b.fin) : Apart (L₁ ++ (R ++ L₂)) := by
  obtain ⟨h₁, h₂, ho⟩ := List.pairwise_append.mp h
  obtain ⟨hb, h₂⟩ := List.pairwise_cons.mp h₂
  refine List.pairwise_append.mpr ⟨h₁, List.pairwise_append.mpr ⟨hR, h₂, fun x hx y hy => ?_⟩,
    fun x hx y hy => ?_⟩
  · exact Nat.lt_of_le_of_lt (hin x hx).2 (hb y hy)
  · cases List.mem_append.mp hy with
    | inl hy => exact Nat.lt_of_lt_of_le (ho x hx b List.mem_cons_self) (hin y hy).1
    | inr hy => exact ho x hx y (List.mem_cons_of_mem _ hy)

end

/-! ## Joining -/

section
variable {b b' x : Block} {L : List Block} {i : Nat}

/-- A block of the joined list begins where one of the list begins. -/
theorem start_of_mem_mergeBlocks (hx : x ∈ mergeBlocks L) : ∃ y ∈ L, y.start = x.start := by
  fun_induction mergeBlocks L with
  | case1 => cases hx
  | case2 b => exact ⟨x, hx, rfl⟩
  | case3 b b' L heq ih =>
    obtain ⟨y, hy, hyx⟩ := ih hx
    cases hy with
    | head => exact ⟨_, List.mem_cons_self, hyx⟩
    | tail _ hy => exact ⟨y, List.mem_cons_of_mem _ (List.mem_cons_of_mem _ hy), hyx⟩
  | case4 b b' L hne ih =>
    cases hx with
    | head => exact ⟨_, List.mem_cons_self, rfl⟩
    | tail _ hx =>
      obtain ⟨y, hy, hyx⟩ := ih hx
      exact ⟨y, List.mem_cons_of_mem _ hy, hyx⟩

theorem has_join (heq : b.fin = b'.start) :
    (Block.mk b.start (b.size + b'.size)).Has i ↔ b.Has i ∨ b'.Has i := by
  simp only [Block.Has, Block.fin] at heq ⊢
  omega

@[simp] theorem covers_mergeBlocks : Covers (mergeBlocks L) i ↔ Covers L i := by
  fun_induction mergeBlocks L with
  | case1 => rfl
  | case2 => rfl
  | case3 b b' L heq ih =>
    rw [ih, covers_cons, covers_cons, covers_cons, has_join heq, or_assoc]
  | case4 b b' L hne ih => simp only [covers_cons, ih]

@[simp] theorem total_mergeBlocks : total (mergeBlocks L) = total L := by
  fun_induction mergeBlocks L with
  | case1 => rfl
  | case2 => rfl
  | case3 b b' L heq ih => rw [ih, total_cons, total_cons, total_cons, Nat.add_assoc]
  | case4 b b' L hne ih => simp only [total_cons, ih]

/-- Two blocks that touch make one. -/
theorem Sorted.join (h : Sorted (b :: b' :: L)) (heq : b.fin = b'.start) :
    Sorted (⟨b.start, b.size + b'.size⟩ :: L) := by
  have hfin : (Block.mk b.start (b.size + b'.size)).fin = b'.fin := by
    simp only [Block.fin] at heq ⊢
    omega
  have hb := h.valid b List.mem_cons_self
  have hb' := h.tail.valid b' List.mem_cons_self
  refine sorted_cons.mpr ⟨⟨hb.pos, ?_, ?_⟩, h.tail.tail, fun x hx => ?_⟩
  · exact Nat.le_trans hb.header (Nat.le_add_right _ _)
  · rw [hfin]
    exact hb'.fits
  · rw [hfin]
    exact h.tail.head_le hx

/-- The start of a block behind two that do not touch. -/
theorem Sorted.fin_lt (h : Sorted (b :: b' :: L)) (hne : b.fin ≠ b'.start) (hx : x ∈ b' :: L) :
    b.fin < x.start := by
  have hle := h.head_le List.mem_cons_self
  cases hx with
  | head => omega
  | tail _ hx =>
    have hb' := (h.tail.valid b' List.mem_cons_self).header
    have hle' := h.tail.head_le hx
    unfold Block.fin at *
    omega

theorem Sorted.merge (h : Sorted L) : Sorted (mergeBlocks L) ∧ Apart (mergeBlocks L) := by
  fun_induction mergeBlocks L with
  | case1 => exact ⟨h, .nil⟩
  | case2 b => exact ⟨h, List.pairwise_singleton _ _⟩
  | case3 b b' L heq ih => exact ih (h.join heq)
  | case4 b b' L hne ih =>
    obtain ⟨hs, ha⟩ := ih h.tail
    have hlt : ∀ x ∈ mergeBlocks (b' :: L), b.fin < x.start := by
      intro x hx
      obtain ⟨y, hy, hyx⟩ := start_of_mem_mergeBlocks hx
      rw [← hyx]
      exact h.fin_lt hne hy
    exact ⟨sorted_cons.mpr ⟨h.valid b List.mem_cons_self, hs, fun x hx => (hlt x hx).le⟩,
      List.pairwise_cons.mpr ⟨hlt, ha⟩⟩

end

/-! ## Threading -/

section
variable {m m' : Bytes} {p q r : Nat} {b : Block} {L L₁ L₂ : List Block}

theorem chain_append :
    Chain m p (L₁ ++ L₂) q ↔ ∃ r, Chain m p L₁ r ∧ Chain m r L₂ q := by
  induction L₁ generalizing p with
  | nil => exact ⟨fun h => ⟨p, rfl, h⟩, fun ⟨r, hr, h⟩ => by rwa [← show p = r from hr] at h⟩
  | cons b L ih =>
    simp only [List.cons_append, Chain, ih]
    constructor
    · intro ⟨h₁, h₂, r, h₃, h₄⟩
      exact ⟨r, ⟨h₁, h₂, h₃⟩, h₄⟩
    · intro ⟨r, ⟨h₁, h₂, h₃⟩, h₄⟩
      exact ⟨h₁, h₂, r, h₃, h₄⟩

/-- Only the headers matter. -/
theorem Chain.frame (h : Chain m p L q)
    (hm : ∀ b ∈ L, ∀ i, b.start ≤ i → i < b.start + 8 → m' i = m i) : Chain m' p L q := by
  induction L generalizing p with
  | nil => exact h
  | cons b L ih =>
    obtain ⟨hp, hsize, hnext⟩ := h
    have hb := hm b List.mem_cons_self
    refine ⟨hp, ?_, ?_⟩
    · rw [Bytes.load32_congr fun i h₁ h₂ => hb i (by omega) (by omega), hsize]
    · rw [Bytes.load32_congr fun i h₁ h₂ => hb i h₁ (by omega)]
      exact ih hnext fun x hx => hm x (List.mem_cons_of_mem _ hx)

/-- A list is not changed by a write to another block's header. -/
theorem Chain.frame_block (h : Chain m p L q) (hL : ∀ x ∈ L, 8 ≤ x.size ∧ x.Disjoint b)
    (hm : ∀ i, ¬ b.Has i → m' i = m i) : Chain m' p L q := by
  refine h.frame fun x hx i h₁ h₂ => hm i ?_
  obtain ⟨hsize, hdisj⟩ := hL x hx
  exact hdisj.not_has ⟨h₁, by unfold Block.fin; omega⟩

theorem Chain.unique {L' : List Block} (h : Chain m p L 0) (h' : Chain m p L' 0)
    (hL : ∀ b ∈ L, 0 < b.start) (hL' : ∀ b ∈ L', 0 < b.start) : L = L' := by
  induction L generalizing p L' with
  | nil =>
    cases L' with
    | nil => rfl
    | cons b' L' =>
      have hb' := hL' b' List.mem_cons_self
      have h₁ : p = 0 := h
      have h₂ := h'.1
      omega
  | cons b L ih =>
    obtain ⟨hp, hsize, hnext⟩ := h
    cases L' with
    | nil =>
      have hb := hL b List.mem_cons_self
      have h₁ : p = 0 := h'
      omega
    | cons b' L' =>
      obtain ⟨hp', hsize', hnext'⟩ := h'
      have hbb : b = b' := by
        cases b
        cases b'
        simp_all
      subst hbb
      rw [ih hnext hnext' (fun x hx => hL x (List.mem_cons_of_mem _ hx))
        fun x hx => hL' x (List.mem_cons_of_mem _ hx)]

end

end L4env.Cxx
