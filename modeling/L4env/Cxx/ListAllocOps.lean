import L4env.Cxx.ListAllocInv
import L4env.Util.Returns

/-!
# Adding a block to the free list

`free` puts the block in its place in the list of free blocks and joins the blocks that touch.
-/

namespace L4env.Cxx

namespace ListAlloc

/-- The free list of the allocator. -/
def IsList (h : ListAlloc) (L : List Block) : Prop := Chain h.mem h.first L 0

/-- The pointer to the list pointer behind the blocks of `L`. -/
def link (L : List Block) : Option Nat := L.getLast?.map Block.start

end ListAlloc

open ListAlloc

section
variable {h h' : ListAlloc} {b b' : Block} {L L₁ L₂ : List Block} {p q r v : Nat}

@[simp] theorem link_nil : link [] = none := rfl

@[simp] theorem link_concat : link (L ++ [b]) = some b.start := by simp [link]

@[simp] theorem setNext_first : (h.setNext p v).first = h.first := rfl

@[simp] theorem setSize_first : (h.setSize p v).first = h.first := rfl

theorem next_setNext (hv : v < 4294967296) : (h.setNext p v).next p = v :=
  Bytes.load32_store32 hv

theorem size_setSize (hv : v < 4294967296) : (h.setSize p v).size p = v :=
  Bytes.load32_store32 hv

theorem size_setNext (hpq : p + 8 ≤ q ∨ q + 8 ≤ p ∨ p = q) :
    (h.setNext p v).size q = h.size q :=
  Bytes.load32_store32_of_disjoint (by omega)

theorem next_setNext_of_ne (hpq : p + 8 ≤ q ∨ q + 8 ≤ p) : (h.setNext p v).next q = h.next q :=
  Bytes.load32_store32_of_disjoint (by omega)

theorem next_setSize (hpq : p + 8 ≤ q ∨ q + 8 ≤ p ∨ p = q) :
    (h.setSize p v).next q = h.next q :=
  Bytes.load32_store32_of_disjoint (by omega)

theorem size_setSize_of_ne (hpq : p + 8 ≤ q ∨ q + 8 ≤ p) : (h.setSize p v).size q = h.size q :=
  Bytes.load32_store32_of_disjoint (by omega)

/-- Nothing outside the header of `p` is written. -/
theorem setNext_mem {i : Nat} (hi : i < p ∨ p + 8 ≤ i) : (h.setNext p v).mem i = h.mem i :=
  Bytes.store32_of_outside (by omega)

theorem setSize_mem {i : Nat} (hi : i < p ∨ p + 8 ≤ i) : (h.setSize p v).mem i = h.mem i :=
  Bytes.store32_of_outside (by omega)

theorem next_lt : h.next p < 4294967296 := Bytes.load32_lt _ _

/-- The header of a block that ends its list part. -/
theorem chain_single : Chain h.mem b.start [b] q ↔ h.size b.start = b.size ∧ h.next b.start = q :=
  ⟨fun h => ⟨h.2.1, h.2.2⟩, fun h => ⟨rfl, h.1, h.2⟩⟩

theorem chain_cons_iff :
    Chain h.mem p (b :: L) q ↔
      p = b.start ∧ h.size b.start = b.size ∧ Chain h.mem (h.next b.start) L q := Iff.rfl

theorem deref_link (hc : Chain h.mem h.first L r) : h.deref (link L) = r := by
  induction L using List.reverseRecOn with
  | nil => exact hc
  | append_singleton L b ih =>
    obtain ⟨q, -, hb⟩ := chain_append.mp hc
    rw [link_concat]
    exact hb.2.2

/-- A list that is made to go on at `v`. -/
theorem Chain.assign_link (hc : Chain h.mem h.first L r) (hs : Sorted L) (hv : v < 4294967296) :
    Chain (h.assign (link L) v).mem (h.assign (link L) v).first L v ∧
      ∀ i, ¬ Covers L i → (h.assign (link L) v).mem i = h.mem i := by
  cases L using List.reverseRecOn with
  | nil => exact ⟨rfl, fun _ _ => rfl⟩
  | append_singleton L b =>
    obtain ⟨q, hL, hb⟩ := chain_append.mp hc
    have hvalid := hs.valid b List.mem_concat_self
    rw [link_concat]
    show Chain (h.setNext b.start v).mem h.first _ v ∧ ∀ i, _ → (h.setNext b.start v).mem i = _
    have hout : ∀ i, ¬ b.Has i → (h.setNext b.start v).mem i = h.mem i := by
      intro i hi
      have := hvalid.header
      exact setNext_mem (by unfold Block.Has Block.fin at hi; omega)
    constructor
    · refine chain_append.mpr ⟨q, hL.frame_block (fun x hx => ⟨?_, .inl ?_⟩) hout, hb.1, ?_, ?_⟩
      · exact (hs.valid x (List.mem_append_left _ hx)).header
      · exact (sorted_append.mp hs).2.2 x hx b (List.mem_singleton_self b)
      · exact (size_setNext (.inr (.inr rfl))).trans hb.2.1
      · exact next_setNext hv
    · intro i hi
      exact hout i fun hb => hi (covers_append.mpr (.inr (covers_cons.mpr (.inl hb))))

/-! ## Joining blocks that touch -/

theorem mergeFrom_step (fuel : Nat) (hp : p ≠ 0) (hn : h.next p ≠ 0)
    (hne : Word.add p (h.size p) ≠ h.next p) :
    mergeFrom (fuel + 1) h p = mergeFrom fuel h (h.next p) := by
  rw [mergeFrom, if_neg (by tauto), if_neg hne]

/-- One round of the loop joins two blocks. -/
theorem mergeFrom_join (hc : Chain h.mem b.start (b :: b' :: L) 0) (hs : Sorted (b :: b' :: L))
    (heq : b.fin = b'.start) :
    ∃ h', (∀ fuel, mergeFrom (fuel + 1) h b.start = mergeFrom fuel h' b.start) ∧
      h'.first = h.first ∧ Chain h'.mem b.start (⟨b.start, b.size + b'.size⟩ :: L) 0 ∧
      ∀ i, ¬ b.Has i → h'.mem i = h.mem i := by
  obtain ⟨-, hsize, hrest⟩ := chain_cons_iff.mp hc
  obtain ⟨hnext, hsize', hrest⟩ := chain_cons_iff.mp hrest
  have hb := hs.valid b List.mem_cons_self
  have hb' := hs.tail.valid b' List.mem_cons_self
  have hpos := hb.pos
  have hheader := hb.header
  have hpos' := hb'.pos
  have hheader' := hb'.header
  have hfits' : b'.start + b'.size ≤ 4294967296 := hb'.fits
  have hfin : b.start + b.size = b'.start := heq
  let h₁ := h.setSize b.start (b.size + b'.size)
  let h₂ := h₁.setNext b.start (h.next b'.start)
  have hnext₁ : h₁.next b.start = b'.start := (next_setSize (.inr (.inr rfl))).trans hnext
  have hnext₁' : h₁.next b'.start = h.next b'.start := next_setSize (.inl (by omega))
  have hsize₂ : h₂.size b.start = b.size + b'.size :=
    (size_setNext (.inr (.inr rfl))).trans (size_setSize (by omega))
  have hout : ∀ i, ¬ b.Has i → h₂.mem i = h.mem i := by
    intro i hi
    have hi : i < b.start ∨ b.start + 8 ≤ i := by unfold Block.Has Block.fin at hi; omega
    exact (setNext_mem hi).trans (setSize_mem hi)
  refine ⟨h₂, fun fuel => ?_, rfl, ⟨rfl, hsize₂, ?_⟩, hout⟩
  · have htouch : Word.add b.start (h.size b.start) = h.next b.start := by
      rw [hsize, hnext, Word.add_eq (by omega), hfin]
    have hsum : Word.add (h.size b.start) (h.size (h.next b.start)) = b.size + b'.size := by
      rw [hnext, hsize, hsize', Word.add_eq (by omega)]
    rw [mergeFrom, if_neg (by omega), if_pos htouch, hsum]
    show mergeFrom fuel (h₁.setNext b.start (h₁.next (h₁.next b.start))) b.start = _
    rw [hnext₁, hnext₁']
  · show Chain h₂.mem (h₂.next b.start) L 0
    rw [show h₂.next b.start = h.next b'.start from next_setNext next_lt]
    refine hrest.frame_block (fun x hx => ⟨?_, .inr ?_⟩) hout
    · exact (hs.tail.tail.valid x hx).header
    · exact hs.head_le (List.mem_cons_of_mem _ hx)

theorem Chain.mergeFrom_eq (hc : Chain h.mem p L 0) (hs : Sorted L) :
    ∃ h', (∀ fuel > L.length, mergeFrom fuel h p = some h') ∧ h'.first = h.first ∧
      Chain h'.mem p (mergeBlocks L) 0 ∧ ∀ i, ¬ Covers L i → h'.mem i = h.mem i := by
  induction L using mergeBlocks.induct generalizing h p with
  | case1 =>
    refine ⟨h, fun fuel hf => ?_, rfl, by rwa [mergeBlocks], fun _ _ => rfl⟩
    obtain ⟨n, rfl⟩ := Nat.exists_eq_add_of_lt hf
    rw [mergeFrom, if_pos (.inl hc)]
  | case2 b =>
    refine ⟨h, fun fuel hf => ?_, rfl, by rwa [mergeBlocks], fun _ _ => rfl⟩
    obtain ⟨n, rfl⟩ := Nat.exists_eq_add_of_lt hf
    obtain ⟨rfl, hb⟩ := hc
    rw [mergeFrom, if_pos (.inr hb.2)]
  | case3 b b' L heq ih =>
    obtain rfl : p = b.start := hc.1
    obtain ⟨h₁, hround, hfirst, hc₁, hout⟩ := mergeFrom_join hc hs heq
    obtain ⟨h', hloop, hfirst', hc', hout'⟩ := ih hc₁ (hs.join heq)
    refine ⟨h', fun fuel hf => ?_, hfirst'.trans hfirst, ?_, fun i hi => ?_⟩
    · obtain ⟨n, rfl⟩ := Nat.exists_eq_add_of_lt hf
      rw [hround]
      exact hloop _ (by simp only [List.length_cons] at *; omega)
    · rw [mergeBlocks, if_pos heq]
      exact hc'
    · rw [hout' i, hout i]
      · exact fun hb => hi (covers_cons.mpr (.inl hb))
      · rwa [covers_cons, has_join heq, or_assoc, ← covers_cons, ← covers_cons]
  | case4 b b' L hne ih =>
    obtain ⟨rfl, hsize, hrest⟩ := chain_cons_iff.mp hc
    obtain ⟨h', hloop, hfirst', hc', hout'⟩ := ih hrest hs.tail
    have hb := hs.valid b List.mem_cons_self
    have hfits : b.start + b.size ≤ b'.start := hs.head_le List.mem_cons_self
    have hb' := hs.tail.valid b' List.mem_cons_self
    have hfits' : b'.start + b'.size ≤ 4294967296 := hb'.fits
    have hnext : h.next b.start = b'.start := hrest.1
    have hkeep : ∀ i, b.start ≤ i → i < b.start + 8 → h'.mem i = h.mem i := by
      intro i h₁ h₂
      refine hout' i fun ⟨x, hx, hxi⟩ => ?_
      have hle := hs.head_le hx
      have hhas : b.Has i := ⟨h₁, by have := hb.header; unfold Block.fin; omega⟩
      exact (show b.Disjoint x from .inl hle).not_has hhas hxi
    refine ⟨h', fun fuel hf => ?_, hfirst', ?_, fun i hi => ?_⟩
    · obtain ⟨n, rfl⟩ := Nat.exists_eq_add_of_lt hf
      have hpos := hb.pos
      have hpos' := hb'.pos
      have hheader' := hb'.header
      rw [mergeFrom_step _ (by omega) (by omega)]
      · exact hloop _ (by simp only [List.length_cons] at *; omega)
      · rw [hsize, hnext, Word.add_eq (by omega)]
        exact hne
    · rw [mergeBlocks, if_neg hne]
      refine chain_cons_iff.mpr ⟨rfl, ?_, ?_⟩
      · exact (Bytes.load32_congr fun i _ _ => hkeep i (by omega) (by omega)).trans hsize
      · have hnext' : h'.next b.start = h.next b.start :=
          Bytes.load32_congr fun i _ _ => hkeep i (by omega) (by omega)
        rw [hnext']
        exact hc'
    · exact hout' i fun hx => hi (covers_cons.mpr (.inr hx))

/-! ## Freeing a block -/

/-- The search passes the blocks below the address. -/
theorem seek_eq (block : Nat) (hc : Chain h.mem h.first L₁ r) (hc' : Chain h.mem r L₂ 0)
    (hs : Sorted L₂) :
    ∃ M₁ M₂, L₂ = M₁ ++ M₂ ∧ (∀ x ∈ M₁, x.start < block) ∧ (∀ x ∈ M₂.head?, block ≤ x.start) ∧
      ∀ fuel > L₂.length, h.seek block fuel (link L₁) = some (link (L₁ ++ M₁)) := by
  induction L₂ generalizing L₁ r with
  | nil =>
    refine ⟨[], [], rfl, by simp, by simp, fun fuel hf => ?_⟩
    obtain ⟨n, rfl⟩ := Nat.exists_eq_add_of_lt hf
    obtain rfl : r = 0 := hc'
    rw [seek, deref_link hc, if_neg (by simp), List.append_nil]
  | cons x L ih =>
    obtain ⟨rfl, hsize, hrest⟩ := chain_cons_iff.mp hc'
    cases Nat.lt_or_ge x.start block with
    | inl hlt =>
      have hc₁ : Chain h.mem h.first (L₁ ++ [x]) (h.next x.start) :=
        chain_append.mpr ⟨_, hc, chain_single.mpr ⟨hsize, rfl⟩⟩
      obtain ⟨M₁, M₂, rfl, hM₁, hM₂, hloop⟩ := ih hc₁ hrest hs.tail
      refine ⟨x :: M₁, M₂, rfl, List.forall_mem_cons.mpr ⟨hlt, hM₁⟩, hM₂, fun fuel hf => ?_⟩
      obtain ⟨n, rfl⟩ := Nat.exists_eq_add_of_lt hf
      have hpos := (hs.valid x List.mem_cons_self).pos
      rw [seek, deref_link hc, if_pos ⟨by omega, hlt⟩]
      have hgo := hloop ((x :: (M₁ ++ M₂)).length + n) (by simp only [List.length_cons]; omega)
      rwa [link_concat, List.append_assoc] at hgo
    | inr hge =>
      refine ⟨[], x :: L, rfl, by simp, by simpa using hge, fun fuel hf => ?_⟩
      obtain ⟨n, rfl⟩ := Nat.exists_eq_add_of_lt hf
      rw [seek, deref_link hc, if_neg (by omega), List.append_nil]

/-- A block in front of `L₂`, behind `L₁`. -/
theorem Sorted.insert (hs : Sorted (L₁ ++ L₂)) (hb : b.Valid)
    (hdisj : ∀ x ∈ L₁ ++ L₂, b.Disjoint x) (h₁ : ∀ x ∈ L₁, x.start < b.start)
    (h₂ : ∀ x ∈ L₂.head?, b.start ≤ x.start) : Sorted (L₁ ++ b :: L₂) := by
  obtain ⟨hs₁, hs₂, ho⟩ := sorted_append.mp hs
  have hheader := hb.header
  have hbefore : ∀ x ∈ L₁, x.fin ≤ b.start := by
    intro x hx
    have hd := hdisj x (List.mem_append_left _ hx)
    have hlt := h₁ x hx
    unfold Block.Disjoint Block.fin at *
    omega
  have hbehind : ∀ x ∈ L₂, b.fin ≤ x.start := by
    intro x hx
    have hd := hdisj x (List.mem_append_right _ hx)
    have hvalid := (hs₂.valid x hx).header
    have hle : b.start ≤ x.start := by
      cases L₂ with
      | nil => cases hx
      | cons y L =>
        have hy := h₂ y rfl
        cases hx with
        | head => exact hy
        | tail _ hx =>
          have := hs₂.head_le hx
          unfold Block.fin at this
          omega
    unfold Block.Disjoint Block.fin at *
    omega
  refine sorted_append.mpr ⟨hs₁, sorted_cons.mpr ⟨hb, hs₂, hbehind⟩, fun x hx y hy => ?_⟩
  cases hy with
  | head => exact hbefore x hx
  | tail _ hy => exact ho x hx y hy

theorem Chain.lt (hc : Chain h.mem p L 0) (hs : Sorted L) : p < 4294967296 := by
  cases L with
  | nil =>
    rw [show p = 0 from hc]
    decide
  | cons b L =>
    have hb := hs.valid b List.mem_cons_self
    have hpos := hb.header
    have hfits := hb.fits
    rw [hc.1]
    unfold Block.fin at hfits
    omega

theorem Chain.eq_nil (hc : Chain h.mem p L 0) (hs : Sorted L) (hp : p = 0) : L = [] := by
  cases L with
  | nil => rfl
  | cons b L =>
    have hpos := (hs.valid b List.mem_cons_self).pos
    have hstart := hc.1
    omega

/-- The writes of `free` put the block between `L₁` and `L₂`. -/
theorem Chain.insert (hc : Chain h.mem h.first L₁ r) (hc' : Chain h.mem r L₂ 0)
    (hs : Sorted (L₁ ++ b :: L₂)) :
    ∃ h₁ h₂, h₁ = h.assign (link L₁) b.start ∧ h₂ = h₁.setNext (h₁.deref (link L₁)) r ∧
      (h₂.setSize (h₂.deref (link L₁)) b.size).IsList (L₁ ++ b :: L₂) ∧
      ∀ i, ¬ Covers (L₁ ++ b :: L₂) i →
        (h₂.setSize (h₂.deref (link L₁)) b.size).mem i = h.mem i := by
  obtain ⟨hs₁, hs₂, ho⟩ := sorted_append.mp hs
  have hb := hs₂.valid b List.mem_cons_self
  have hpos := hb.pos
  have hheader := hb.header
  have hfits : b.start + b.size ≤ 4294967296 := hb.fits
  obtain ⟨hc₁, hout₁⟩ := hc.assign_link hs₁ (v := b.start) (by omega)
  let h₁ := h.assign (link L₁) b.start
  let h₂ := h₁.setNext b.start r
  let h₃ := h₂.setSize b.start b.size
  have hL₁ : ∀ x ∈ L₁, 8 ≤ x.size ∧ x.Disjoint b :=
    fun x hx => ⟨(hs₁.valid x hx).header, .inl (ho x hx b List.mem_cons_self)⟩
  have hL₂ : ∀ x ∈ L₂, 8 ≤ x.size ∧ x.Disjoint b :=
    fun x hx => ⟨(hs₂.tail.valid x hx).header, .inr (hs₂.head_le hx)⟩
  have houter : ∀ i, ¬ b.Has i → i < b.start ∨ b.start + 8 ≤ i := by
    intro i hi
    unfold Block.Has Block.fin at hi
    omega
  have hout₂ : ∀ i, ¬ b.Has i → h₂.mem i = h₁.mem i := fun i hi => setNext_mem (houter i hi)
  have hout₃ : ∀ i, ¬ b.Has i → h₃.mem i = h₂.mem i := fun i hi => setSize_mem (houter i hi)
  have hc₂ : Chain h₂.mem h₂.first L₁ b.start := hc₁.frame_block hL₁ hout₂
  have hc₃ : Chain h₃.mem h₃.first L₁ b.start := hc₂.frame_block hL₁ hout₃
  have hnext : h₃.next b.start = r :=
    (next_setSize (.inr (.inr rfl))).trans (next_setNext (hc'.lt hs₂.tail))
  have hrest : Chain h₃.mem r L₂ 0 := by
    have hrest₁ : Chain h₁.mem r L₂ 0 := by
      refine hc'.frame fun x hx i hi₁ hi₂ => hout₁ i ?_
      rintro ⟨y, hy, hyi⟩
      have hyx := ho y hy x (List.mem_cons_of_mem _ hx)
      unfold Block.Has at hyi
      omega
    exact hrest₁.frame_block hL₂ fun i hi => (hout₃ i hi).trans (hout₂ i hi)
  refine ⟨h₁, h₂, rfl, ?_, ?_⟩
  · show h₂ = h₁.setNext (h₁.deref (link L₁)) r
    rw [show h₁.deref (link L₁) = b.start from deref_link hc₁]
  · rw [deref_link hc₂]
    refine ⟨chain_append.mpr ⟨_, hc₃, chain_cons_iff.mpr ⟨rfl, size_setSize (by omega), ?_⟩⟩, ?_⟩
    · rw [hnext]
      exact hrest
    · intro i hi
      simp only [covers_append, covers_cons, not_or] at hi
      exact (hout₃ i hi.2.1).trans ((hout₂ i hi.2.1).trans (hout₁ i hi.1))

theorem IsList.free (hl : h.IsList L) (hs : Sorted L) (hb : b.Valid)
    (hdisj : ∀ x ∈ L, b.Disjoint x) :
    ∃ h' L', Returns (fun n => h.free n b.start b.size) h' ∧ h'.IsList L' ∧ Sorted L' ∧
      Apart L' ∧ total L' = total L + b.size ∧ (∀ i, Covers L' i ↔ Covers L i ∨ b.Has i) ∧
      ∀ i, ¬ Covers L' i → h'.mem i = h.mem i := by
  obtain ⟨M₁, M₂, rfl, hM₁, hM₂, hseek⟩ :=
    seek_eq b.start (show Chain h.mem h.first [] h.first from rfl) hl hs
  obtain ⟨r, hc₁, hc₂⟩ := chain_append.mp hl
  have hs' := hs.insert hb hdisj hM₁ hM₂
  obtain ⟨h₁, h₂, hh₁, hh₂, hl₃, hout₃⟩ := hc₁.insert hc₂ hs'
  obtain ⟨h', hmerge, hfirst, hc', hout'⟩ := Chain.mergeFrom_eq hl₃ hs'
  obtain ⟨hsorted, hapart⟩ := hs'.merge
  refine ⟨h', mergeBlocks (M₁ ++ b :: M₂), ?_, ?_, hsorted, hapart, ?_, ?_, ?_⟩
  · refine ⟨(M₁ ++ b :: M₂).length + 1, fun fuel hf => ?_⟩
    have hfuel : (M₁ ++ M₂).length < fuel := by simp at hf ⊢; omega
    have hfind : (if h.first ≠ 0 then h.seek b.start fuel none else some none) =
        some (link M₁) ∧ (if h.first ≠ 0 then h.deref (link M₁) else 0) = r := by
      cases Nat.eq_zero_or_pos h.first with
      | inl h0 =>
        obtain ⟨rfl, rfl⟩ := List.append_eq_nil_iff.mp (Chain.eq_nil hl hs h0)
        rw [if_neg (by simp [h0]), if_neg (by simp [h0])]
        exact ⟨rfl, hc₂.symm⟩
      | inr hpos =>
        rw [if_pos (by omega), if_pos (by omega), deref_link hc₁]
        exact ⟨hseek fuel hfuel, rfl⟩
    show h.free fuel b.start b.size = some h'
    simp only [ListAlloc.free, hfind.1, Option.bind_some, hfind.2]
    rw [← hh₁, ← hh₂]
    exact hmerge fuel (by omega)
  · show Chain h'.mem h'.first _ 0
    rw [hfirst]
    exact hc'
  · rw [total_mergeBlocks, total_append, total_append, total_cons]
    omega
  · intro i
    rw [covers_mergeBlocks, covers_append, covers_append, covers_cons]
    tauto
  · intro i hi
    rw [covers_mergeBlocks] at hi
    rw [hout' i hi, hout₃ i hi]

end

end L4env.Cxx
