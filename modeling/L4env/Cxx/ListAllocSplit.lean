import L4env.Cxx.ListAllocOps

/-!
# Taking a range from the free list

`alloc` takes the first block that has room for an aligned range and puts back what is left of it in
front and behind, if the headers of these rests fit.
-/

namespace L4env.Cxx

open ListAlloc

/-- The alignment that `alloc` is called with: none, or a power of two that is an `unsigned`. -/
def IsAlign (align : Nat) : Prop := align = 0 ∨ ∃ k < 32, align = 2 ^ k

/-- The address meets the alignment. -/
def Aligned (align a : Nat) : Prop := align = 0 ∨ align ∣ a

namespace Block

/-- The bytes in front of the first aligned address of the block. -/
def front (align : Nat) (b : Block) : Nat :=
  if align = 0 then 0 else (align - b.start % align) % align

/-- An aligned range of `size` bytes is inside the block. -/
def Fits (size align : Nat) (b : Block) : Prop := b.front align + size ≤ b.size

instance (size align : Nat) (b : Block) : Decidable (b.Fits size align) :=
  inferInstanceAs (Decidable (_ ≤ _))

/-- What is left of the block in front of the range and behind it. -/
def rest (size align : Nat) (b : Block) : List Block :=
  (if b.front align = 0 then [] else [⟨b.start, b.front align⟩]) ++
    if b.front align + size = b.size then []
    else [⟨b.start + b.front align + size, b.size - b.front align - size⟩]

/-- The split leaves the headers of the rests on bytes of their own: each rest has room for a header,
and the header behind a range that begins the block does not reach into the header of the block. -/
structure SplitsClean (size align : Nat) (b : Block) : Prop where
  header : ∀ x ∈ b.rest size align, 8 ≤ x.size
  behind : b.front align = 0 → b.size ≠ size → 8 ≤ size

end Block

section
variable {align size a : Nat} {b : Block}

/-- The first aligned address at or behind the start of the block. -/
theorem aligned_front (b : Block) : Aligned align (b.start + b.front align) := by
  cases Nat.eq_zero_or_pos align with
  | inl h0 => exact .inl h0
  | inr hpos =>
    right
    have hmod := Nat.mod_lt b.start hpos
    have hdiv := Nat.div_add_mod b.start align
    rw [Block.front, if_neg (by omega)]
    cases Nat.eq_zero_or_pos (b.start % align) with
    | inl h0 =>
      rw [h0, Nat.sub_zero, Nat.mod_self, Nat.add_zero]
      exact Nat.dvd_of_mod_eq_zero h0
    | inr hr =>
      rw [Nat.mod_eq_of_lt (by omega)]
      refine ⟨b.start / align + 1, ?_⟩
      rw [Nat.mul_add, Nat.mul_one]
      omega

theorem front_le (ha : Aligned align a) (hle : b.start ≤ a) : b.start + b.front align ≤ a := by
  cases Nat.eq_zero_or_pos align with
  | inl h0 => rwa [Block.front, if_pos h0]
  | inr hpos =>
    obtain ⟨c, rfl⟩ := ha.resolve_left (by omega)
    have hmod := Nat.mod_lt b.start hpos
    have hdiv := Nat.div_add_mod b.start align
    rw [Block.front, if_neg (by omega)]
    cases Nat.eq_zero_or_pos (b.start % align) with
    | inl h0 => rwa [h0, Nat.sub_zero, Nat.mod_self, Nat.add_zero]
    | inr hr =>
      rw [Nat.mod_eq_of_lt (by omega)]
      have hlt : b.start / align < c := by
        by_contra hge
        have := Nat.mul_le_mul_left align (Nat.le_of_not_lt hge)
        omega
      have := Nat.mul_le_mul_left align hlt
      rw [Nat.mul_succ] at this
      omega

theorem sorted_rest (hb : b.Valid) (hfit : b.Fits size align) (hsize : 0 < size)
    (hclean : b.SplitsClean size align) :
    Sorted (b.rest size align) ∧ Apart (b.rest size align) ∧
      ∀ x ∈ b.rest size align, b.start ≤ x.start ∧ x.fin ≤ b.fin := by
  have hpos := hb.pos
  have hfits : b.start + b.size ≤ 4294967296 := hb.fits
  have hfit : b.front align + size ≤ b.size := hfit
  have hin : ∀ x ∈ b.rest size align, b.start ≤ x.start ∧ x.fin ≤ b.fin := by
    intro x hx
    unfold Block.rest at hx
    unfold Block.fin
    rw [List.mem_append] at hx
    obtain hx | hx := hx
    · split_ifs at hx
      · cases hx
      · obtain rfl := List.mem_singleton.mp hx
        exact ⟨Nat.le_refl _, by dsimp only; omega⟩
    · split_ifs at hx
      · cases hx
      · obtain rfl := List.mem_singleton.mp hx
        constructor <;> dsimp only <;> omega
  have hapart : Apart (b.rest size align) := by
    unfold Block.rest Apart
    refine List.pairwise_append.mpr ⟨?_, ?_, fun x hx y hy => ?_⟩
    · split_ifs
      · exact .nil
      · exact List.pairwise_singleton _ _
    · split_ifs
      · exact .nil
      · exact List.pairwise_singleton _ _
    · split_ifs at hx hy
      · cases hx
      · cases hx
      · cases hy
      · obtain rfl := List.mem_singleton.mp hx
        obtain rfl := List.mem_singleton.mp hy
        unfold Block.fin
        dsimp only
        omega
  refine ⟨⟨fun x hx => ⟨?_, hclean.header x hx, ?_⟩, hapart.imp Nat.le_of_lt⟩, hapart, hin⟩
  · have := (hin x hx).1
    omega
  · exact Nat.le_trans (hin x hx).2 hfits

/-- The bytes of the block that are not in the range. -/
theorem covers_rest (hfit : b.Fits size align) {i : Nat} :
    Covers (b.rest size align) i ↔ b.Has i ∧ ¬ (Block.mk (b.start + b.front align) size).Has i := by
  have hfit : b.front align + size ≤ b.size := hfit
  unfold Block.rest
  rw [covers_append]
  split_ifs <;> simp only [covers_cons, covers_nil, Block.Has, Block.fin] <;> grind

theorem total_rest (hfit : b.Fits size align) : total (b.rest size align) + size = b.size := by
  have hfit : b.front align + size ≤ b.size := hfit
  unfold Block.rest
  split_ifs <;> simp <;> omega

/-- No aligned range of the size is inside a block in which it does not fit. -/
theorem not_inside (hfit : ¬ b.Fits size align) (ha : Aligned align a) (hle : b.start ≤ a) :
    b.fin < a + size := by
  have := front_le ha hle
  unfold Block.Fits at hfit
  unfold Block.fin
  omega

/-- What the code computes of the alignment. -/
theorem front_eq (h : IsAlign align) (hb : b.start < 4294967296) :
    (b.start &&& (if align ≠ 0 then align - 1 else 0) = 0 ↔ b.front align = 0) ∧
      (b.front align ≠ 0 →
        Word.add (Word.roundDown b.start ((if align ≠ 0 then align - 1 else 0) + 1))
          (1 + if align ≠ 0 then align - 1 else 0) = (b.start + b.front align) % 4294967296 ∧
        b.front align < 2147483648) := by
  cases h with
  | inl h0 => simp [Block.front, h0]
  | inr h =>
    obtain ⟨k, hk, rfl⟩ := h
    have hpos : 0 < 2 ^ k := Nat.two_pow_pos k
    have hle : 2 ^ k ≤ 2147483648 := Nat.pow_le_pow_right (by decide) (show k ≤ 31 by omega)
    have hmod := Nat.mod_lt b.start hpos
    rw [if_pos hpos.ne', Nat.and_two_pow_sub_one_eq_mod, Block.front, if_neg hpos.ne',
      Nat.sub_add_cancel hpos, Nat.add_sub_cancel' hpos, Word.roundDown_eq hb hk]
    cases Nat.eq_zero_or_pos (b.start % 2 ^ k) with
    | inl h0 => simp [h0]
    | inr hr =>
      have hle' : b.start % 2 ^ k ≤ b.start := Nat.mod_le _ _
      rw [Nat.mod_eq_of_lt (show 2 ^ k - b.start % 2 ^ k < 2 ^ k by omega), Word.add_mod]
      refine ⟨by omega, fun _ => ⟨?_, by omega⟩⟩
      congr 1
      omega

end

section
variable {h h' : ListAlloc} {b : Block} {L L₁ L₂ : List Block} {r size align : Nat}

/-- A block without room is passed. -/
theorem allocFrom_skip (hc : Chain h.mem h.first L₁ b.start) (hsize : h.size b.start = b.size)
    (hb : b.Valid) (halign : IsAlign align) (hfit : ¬ b.Fits size align) (fuel : Nat) :
    allocFrom size (if align ≠ 0 then align - 1 else 0) (fuel + 1) h (link L₁) =
      allocFrom size (if align ≠ 0 then align - 1 else 0) fuel h (some b.start) := by
  have hpos := hb.pos
  have hheader := hb.header
  have hfits : b.start + b.size ≤ 4294967296 := hb.fits
  obtain ⟨haligned, hstart⟩ := front_eq halign (b := b) (by omega)
  rw [allocFrom]
  simp only [deref_link hc, hsize, if_neg hpos.ne']
  unfold Block.Fits at hfit
  cases Nat.lt_or_ge b.size size with
  | inl hlt => rw [if_pos hlt]
  | inr hge =>
    have hfront : b.front align ≠ 0 := by omega
    obtain ⟨hstart, hlt⟩ := hstart hfront
    rw [if_neg (by omega), if_neg (by rw [haligned]; exact hfront), hstart,
      Word.sub_wrapped (by omega)]
    cases Nat.lt_or_ge (b.front align) b.size with
    | inr hle => rw [if_pos hle]
    | inl hin =>
      rw [if_neg (by omega), Nat.mod_eq_of_lt (by omega), Word.sub_add_eq (by omega) (by omega),
        if_pos (by omega)]

/-- The parts of the list around a block whose bytes are written. -/
theorem Chain.around {q : Nat} (hc : Chain h.mem h.first L₁ b.start) (hc' : Chain h.mem q L₂ 0)
    (hs : Sorted (L₁ ++ b :: L₂)) (hfirst : h'.first = h.first)
    (hout : ∀ i, ¬ b.Has i → h'.mem i = h.mem i) :
    Chain h'.mem h'.first L₁ b.start ∧ Chain h'.mem q L₂ 0 := by
  obtain ⟨hs₁, hs₂, ho⟩ := sorted_append.mp hs
  rw [hfirst]
  constructor
  · exact hc.frame_block (fun x hx => ⟨(hs₁.valid x hx).header, .inl (ho x hx b
      List.mem_cons_self)⟩) hout
  · exact hc'.frame_block (fun x hx => ⟨(hs₂.tail.valid x hx).header, .inr (hs₂.head_le hx)⟩) hout

/-- The list behind `L₁` when the pointer of `L₁` to it is written. -/
theorem Chain.behind {q v : Nat} (hc : Chain h.mem h.first L₁ r) (hc' : Chain h.mem q L₂ 0)
    (hs : Sorted (L₁ ++ L₂)) (hv : v < 4294967296) :
    Chain (h.assign (link L₁) v).mem q L₂ 0 := by
  obtain ⟨hs₁, hs₂, ho⟩ := sorted_append.mp hs
  refine hc'.frame fun x hx i hi₁ hi₂ => (hc.assign_link hs₁ hv).2 i ?_
  rintro ⟨y, hy, hyi⟩
  have hyx := ho y hy x hx
  unfold Block.Has at hyi
  omega

/-- The block is as large as the range. -/
theorem take_whole (hc : Chain h.mem h.first L₁ b.start) (hc' : Chain h.mem b.start (b :: L₂) 0)
    (hs : Sorted (L₁ ++ b :: L₂)) (hb : b.size = size) (halign : IsAlign align)
    (hfront : b.front align = 0) :
    ∃ h', (∀ fuel, allocFrom size (if align ≠ 0 then align - 1 else 0) (fuel + 1) h (link L₁) =
        some (b.start, h')) ∧ h'.IsList (L₁ ++ L₂) ∧
      ∀ i, ¬ Covers (L₁ ++ b :: L₂) i → h'.mem i = h.mem i := by
  obtain ⟨hs₁, hs₂, ho⟩ := sorted_append.mp hs
  obtain ⟨-, hsize, hrest⟩ := chain_cons_iff.mp hc'
  have hvalid := hs₂.valid b List.mem_cons_self
  have hpos := hvalid.pos
  have hheader := hvalid.header
  have hfits : b.start + b.size ≤ 4294967296 := hvalid.fits
  have haligned := (front_eq halign (b := b) (by omega)).1
  have hs' : Sorted (L₁ ++ L₂) := hs.splice (R := []) ⟨by simp, .nil⟩ (by simp)
  obtain ⟨hc₁, hout⟩ := hc.assign_link hs₁ (v := h.next b.start) next_lt
  refine ⟨h.assign (link L₁) (h.next b.start), fun fuel => ?_, ?_, fun i hi => hout i ?_⟩
  · rw [allocFrom]
    simp only [deref_link hc, hsize, if_neg hpos.ne']
    rw [if_neg (by omega), if_pos (haligned.mpr hfront), if_pos hb]
  · exact chain_append.mpr ⟨_, hc₁, hc.behind hrest hs' next_lt⟩
  · exact fun hi' => hi (covers_append.mpr (.inl hi'))

/-- The range is at the start of the block. -/
theorem take_start (hc : Chain h.mem h.first L₁ b.start) (hc' : Chain h.mem b.start (b :: L₂) 0)
    (hs : Sorted (L₁ ++ b :: L₂)) (hs' : Sorted (L₁ ++ ⟨b.start + size, b.size - size⟩ :: L₂))
    (hb : size + 8 ≤ b.size) (hsize8 : 8 ≤ size) (halign : IsAlign align)
    (hfront : b.front align = 0) :
    ∃ h', (∀ fuel, allocFrom size (if align ≠ 0 then align - 1 else 0) (fuel + 1) h (link L₁) =
        some (b.start, h')) ∧ h'.IsList (L₁ ++ ⟨b.start + size, b.size - size⟩ :: L₂) ∧
      ∀ i, ¬ Covers (L₁ ++ b :: L₂) i → h'.mem i = h.mem i := by
  obtain ⟨hs₁, hs₂, ho⟩ := sorted_append.mp hs
  obtain ⟨-, hsize, hrest⟩ := chain_cons_iff.mp hc'
  have hvalid := hs₂.valid b List.mem_cons_self
  have hpos := hvalid.pos
  have hfits : b.start + b.size ≤ 4294967296 := hvalid.fits
  have haligned := (front_eq halign (b := b) (by omega)).1
  let m := b.start + size
  let h₁ := h.setNext m (h.next b.start)
  let h₂ := h₁.setSize m (b.size - size)
  have hout₁ : ∀ i, ¬ b.Has i → h₁.mem i = h.mem i := by
    intro i hi
    exact setNext_mem (by unfold Block.Has Block.fin at hi; omega)
  have hout₂ : ∀ i, ¬ b.Has i → h₂.mem i = h.mem i := by
    intro i hi
    exact (setSize_mem (by unfold Block.Has Block.fin at hi; omega)).trans (hout₁ i hi)
  obtain ⟨hc₁, -⟩ := hc.around hrest hs (show h₁.first = h.first from rfl) hout₁
  obtain ⟨hc₂, hrest₂⟩ := hc.around hrest hs (show h₂.first = h.first from rfl) hout₂
  obtain ⟨hc₃, hout₃⟩ := hc₂.assign_link hs₁ (v := m) (by omega)
  have hsize₂ : h₂.size m = b.size - size := size_setSize (by omega)
  have hnext₂ : h₂.next m = h.next b.start :=
    (next_setSize (.inr (.inr rfl))).trans (next_setNext next_lt)
  refine ⟨h₂.assign (link L₁) m, fun fuel => ?_, ?_, fun i hi => ?_⟩
  · rw [allocFrom]
    simp only [deref_link hc, hsize, if_neg hpos.ne']
    rw [if_neg (by omega), if_pos (haligned.mpr hfront), if_neg (by omega),
      Word.add_eq (by omega)]
    have hsize₁ : h₁.size b.start = b.size := (size_setNext (.inr (.inl (by omega)))).trans hsize
    have hsub : Word.sub (h₁.size (h₁.deref (link L₁))) size = b.size - size := by
      rw [deref_link hc₁, hsize₁, Word.sub_eq (by omega) (by omega)]
    show some ((h₁.setSize m (Word.sub (h₁.size (h₁.deref (link L₁))) size)).deref (link L₁), _) =
      _
    rw [hsub, deref_link hc₂]
  · have hc₄ : Chain h₂.mem m (⟨m, b.size - size⟩ :: L₂) 0 := by
      refine chain_cons_iff.mpr ⟨rfl, hsize₂, ?_⟩
      show Chain h₂.mem (h₂.next m) L₂ 0
      rw [hnext₂]
      exact hrest₂
    exact chain_append.mpr ⟨_, hc₃, hc₂.behind hc₄ hs' (by omega)⟩
  · simp only [covers_append, covers_cons, not_or] at hi
    exact (hout₃ i hi.1).trans (hout₂ i hi.2.1)

/-- The block ends with the range. -/
theorem take_end (hc : Chain h.mem h.first L₁ b.start) (hc' : Chain h.mem b.start (b :: L₂) 0)
    (hs : Sorted (L₁ ++ b :: L₂)) (hb : b.front align + size = b.size) (halign : IsAlign align)
    (hfront : b.front align ≠ 0) (hsize0 : 0 < size) :
    ∃ h', (∀ fuel, allocFrom size (if align ≠ 0 then align - 1 else 0) (fuel + 1) h (link L₁) =
        some (b.start + b.front align, h')) ∧ h'.IsList (L₁ ++ ⟨b.start, b.front align⟩ :: L₂) ∧
      ∀ i, ¬ b.Has i → h'.mem i = h.mem i := by
  obtain ⟨hs₁, hs₂, ho⟩ := sorted_append.mp hs
  obtain ⟨-, hsize, hrest⟩ := chain_cons_iff.mp hc'
  have hvalid := hs₂.valid b List.mem_cons_self
  have hpos := hvalid.pos
  have hheader := hvalid.header
  have hfits : b.start + b.size ≤ 4294967296 := hvalid.fits
  obtain ⟨haligned, hstart⟩ := front_eq halign (b := b) (by omega)
  obtain ⟨hstart, -⟩ := hstart hfront
  let h' := h.setSize b.start (b.front align)
  have hout : ∀ i, ¬ b.Has i → h'.mem i = h.mem i := by
    intro i hi
    exact setSize_mem (by unfold Block.Has Block.fin at hi; omega)
  obtain ⟨hc₁, hrest₁⟩ := hc.around hrest hs (show h'.first = h.first from rfl) hout
  refine ⟨h', fun fuel => ?_, ?_, hout⟩
  · rw [allocFrom]
    simp only [deref_link hc, hsize, if_neg hpos.ne']
    rw [if_neg (by omega), if_neg (by rw [haligned]; exact hfront), hstart,
      Nat.mod_eq_of_lt (by omega), Word.sub_eq (by omega) (by omega), if_neg (by omega),
      Word.sub_add_eq (by omega) (by omega), if_neg (by omega), if_pos (by omega),
      Word.sub_eq (by omega) (by omega), ← hb, Nat.add_sub_cancel]
  · refine chain_append.mpr ⟨_, hc₁, chain_cons_iff.mpr ⟨rfl, size_setSize (by omega), ?_⟩⟩
    rw [show h'.next b.start = h.next b.start from next_setSize (.inr (.inr rfl))]
    exact hrest₁

/-- The range is between two rests of the block. -/
theorem take_middle (hc : Chain h.mem h.first L₁ b.start) (hc' : Chain h.mem b.start (b :: L₂) 0)
    (hs : Sorted (L₁ ++ b :: L₂)) (hfront : 8 ≤ b.front align)
    (hb : b.front align + size + 8 ≤ b.size) (halign : IsAlign align) (hsize0 : 0 < size) :
    ∃ h', (∀ fuel, allocFrom size (if align ≠ 0 then align - 1 else 0) (fuel + 1) h (link L₁) =
        some (b.start + b.front align, h')) ∧
      h'.IsList (L₁ ++ ⟨b.start, b.front align⟩ ::
        ⟨b.start + b.front align + size, b.size - b.front align - size⟩ :: L₂) ∧
      ∀ i, ¬ b.Has i → h'.mem i = h.mem i := by
  obtain ⟨hs₁, hs₂, ho⟩ := sorted_append.mp hs
  obtain ⟨-, hsize, hrest⟩ := chain_cons_iff.mp hc'
  have hvalid := hs₂.valid b List.mem_cons_self
  have hpos := hvalid.pos
  have hheader := hvalid.header
  have hfits : b.start + b.size ≤ 4294967296 := hvalid.fits
  obtain ⟨haligned, hstart⟩ := front_eq halign (b := b) (by omega)
  obtain ⟨hstart, -⟩ := hstart (by omega)
  let m := b.start + b.front align + size
  let h₁ := h.setNext m (h.next b.start)
  let h₂ := h₁.setSize m (b.size - b.front align - size)
  let h₃ := h₂.setSize b.start (b.front align)
  let h₄ := h₃.setNext b.start m
  have hout₁ : ∀ i, ¬ b.Has i → h₁.mem i = h.mem i := by
    intro i hi
    exact setNext_mem (by unfold Block.Has Block.fin at hi; omega)
  have hout₂ : ∀ i, ¬ b.Has i → h₂.mem i = h.mem i := by
    intro i hi
    exact (setSize_mem (by unfold Block.Has Block.fin at hi; omega)).trans (hout₁ i hi)
  have hout₃ : ∀ i, ¬ b.Has i → h₃.mem i = h.mem i := by
    intro i hi
    exact (setSize_mem (by unfold Block.Has Block.fin at hi; omega)).trans (hout₂ i hi)
  have hout₄ : ∀ i, ¬ b.Has i → h₄.mem i = h.mem i := by
    intro i hi
    exact (setNext_mem (by unfold Block.Has Block.fin at hi; omega)).trans (hout₃ i hi)
  obtain ⟨hc₂, -⟩ := hc.around hrest hs (show h₂.first = h.first from rfl) hout₂
  obtain ⟨hc₃, -⟩ := hc.around hrest hs (show h₃.first = h.first from rfl) hout₃
  obtain ⟨hc₄, hrest₄⟩ := hc.around hrest hs (show h₄.first = h.first from rfl) hout₄
  have hsize₂ : h₂.size b.start = b.size :=
    (size_setSize_of_ne (.inr (by omega))).trans
      ((size_setNext (.inr (.inl (by omega)))).trans hsize)
  refine ⟨h₄, fun fuel => ?_, ?_, hout₄⟩
  · rw [allocFrom]
    simp only [deref_link hc, hsize, if_neg hpos.ne']
    have hlarge : Word.add (Word.sub b.size (b.start + b.front align)) b.start =
        b.size - b.front align := Word.sub_add_eq (by omega) (by omega)
    rw [if_neg (by omega), if_neg (by rw [haligned]; omega), hstart,
      Nat.mod_eq_of_lt (by omega), Word.sub_eq (by omega) (by omega), if_neg (by omega),
      hlarge, if_neg (by omega), if_neg (by omega), Word.add_eq (by omega),
      Word.sub_eq (a := b.size - b.front align) (by omega) (by omega)]
    show some (_, (h₂.setSize (h₂.deref (link L₁)) (Word.sub (h₂.size (h₂.deref (link L₁)))
      (b.size - b.front align))).setNext ((h₂.setSize (h₂.deref (link L₁)) (Word.sub (h₂.size
      (h₂.deref (link L₁))) (b.size - b.front align))).deref (link L₁)) m) = _
    have hsub : Word.sub b.size (b.size - b.front align) = b.front align := by
      rw [Word.sub_eq (by omega) (by omega)]
      omega
    rw [deref_link hc₂, hsize₂, hsub, deref_link hc₃]
  · have hsize₄ : h₄.size b.start = b.front align :=
      (size_setNext (.inr (.inr rfl))).trans (size_setSize (by omega))
    have hnext₄ : h₄.next b.start = m := next_setNext (by omega)
    have hsize₄' : h₄.size m = b.size - b.front align - size :=
      (size_setNext (.inl (by omega))).trans
        ((size_setSize_of_ne (.inl (by omega))).trans (size_setSize (by omega)))
    have hnext₄' : h₄.next m = h.next b.start :=
      (next_setNext_of_ne (.inl (by omega))).trans ((next_setSize (.inl (by omega))).trans
        ((next_setSize (.inr (.inr rfl))).trans (next_setNext next_lt)))
    refine chain_append.mpr ⟨_, hc₄, chain_cons_iff.mpr ⟨rfl, hsize₄, ?_⟩⟩
    rw [hnext₄]
    refine chain_cons_iff.mpr ⟨rfl, hsize₄', ?_⟩
    show Chain h₄.mem (h₄.next m) L₂ 0
    rw [hnext₄']
    exact hrest₄

/-- The first block with room is split. -/
theorem allocFrom_take (hc : Chain h.mem h.first L₁ b.start)
    (hc' : Chain h.mem b.start (b :: L₂) 0) (hs : Sorted (L₁ ++ b :: L₂)) (hsize0 : 0 < size)
    (halign : IsAlign align) (hfit : b.Fits size align) (hclean : b.SplitsClean size align) :
    ∃ h', (∀ fuel, allocFrom size (if align ≠ 0 then align - 1 else 0) (fuel + 1) h (link L₁) =
        some (b.start + b.front align, h')) ∧ h'.IsList (L₁ ++ (b.rest size align ++ L₂)) ∧
      ∀ i, ¬ Covers (L₁ ++ b :: L₂) i → h'.mem i = h.mem i := by
  have hvalid := hs.valid b (List.mem_append_right _ List.mem_cons_self)
  have hheader := hclean.header
  have hfit : b.front align + size ≤ b.size := hfit
  obtain ⟨hsorted, -, hin⟩ := sorted_rest hvalid hfit hsize0 hclean
  have hs' := hs.splice hsorted hin
  have hcov : ∀ i, ¬ Covers (L₁ ++ b :: L₂) i → ¬ b.Has i :=
    fun i hi hb => hi (covers_append.mpr (.inr (covers_cons.mpr (.inl hb))))
  unfold Block.rest at hheader hs' ⊢
  cases Nat.eq_zero_or_pos (b.front align) with
  | inl hfront =>
    simp only [hfront, Nat.zero_add, Nat.add_zero, Nat.sub_zero, if_pos, List.nil_append]
      at hfit hheader hs' ⊢
    cases eq_or_ne size b.size with
    | inl heq =>
      rw [if_pos heq]
      exact take_whole hc hc' hs heq.symm halign hfront
    | inr hne =>
      rw [if_neg hne] at hheader hs' ⊢
      have hback := hheader _ (List.mem_singleton_self _)
      dsimp only at hback
      exact take_start hc hc' hs hs' (by omega) (hclean.behind hfront hne.symm) halign hfront
  | inr hpos =>
    rw [if_neg hpos.ne'] at hheader hs' ⊢
    cases eq_or_ne (b.front align + size) b.size with
    | inl heq =>
      rw [if_pos heq]
      obtain ⟨h', hret, hl, hout⟩ := take_end hc hc' hs heq halign hpos.ne' hsize0
      exact ⟨h', hret, hl, fun i hi => hout i (hcov i hi)⟩
    | inr hne =>
      rw [if_neg hne] at hheader hs' ⊢
      have hfront := hheader _ List.mem_cons_self
      have hback := hheader _ (List.mem_cons_of_mem _ (List.mem_singleton_self _))
      dsimp only at hfront hback
      obtain ⟨h', hret, hl, hout⟩ := take_middle hc hc' hs hfront (by omega) halign hsize0
      exact ⟨h', hret, hl, fun i hi => hout i (hcov i hi)⟩

/-- The blocks without room are passed. -/
theorem allocFrom_pass (hc : Chain h.mem h.first L₁ r) (hc' : Chain h.mem r (L ++ L₂) 0)
    (hs : Sorted (L ++ L₂)) (halign : IsAlign align) (hfit : ∀ b ∈ L, ¬ b.Fits size align)
    (fuel : Nat) :
    allocFrom size (if align ≠ 0 then align - 1 else 0) (fuel + L.length) h (link L₁) =
      allocFrom size (if align ≠ 0 then align - 1 else 0) fuel h (link (L₁ ++ L)) := by
  induction L generalizing L₁ r with
  | nil => rw [List.append_nil, List.length_nil, Nat.add_zero]
  | cons b L ih =>
    obtain ⟨rfl, hsize, hrest⟩ := chain_cons_iff.mp hc'
    have hc₁ : Chain h.mem h.first (L₁ ++ [b]) (h.next b.start) :=
      chain_append.mpr ⟨_, hc, chain_single.mpr ⟨hsize, rfl⟩⟩
    have hstep := allocFrom_skip hc hsize (hs.valid b List.mem_cons_self) halign
      (hfit b List.mem_cons_self) (fuel + L.length)
    have hloop := ih hc₁ hrest hs.tail fun x hx => hfit x (List.mem_cons_of_mem _ hx)
    rw [link_concat, List.append_assoc] at hloop
    exact hstep.trans hloop

/-- The first block that has room for the range. -/
def firstFit (size align : Nat) (L : List Block) : Option Block :=
  L.find? fun b => decide (b.Fits size align)

theorem IsList.alloc_none (hl : h.IsList L) (hs : Sorted L) (halign : IsAlign align)
    (hnone : firstFit size align L = none) : Returns (fun n => h.alloc n size align) (0, h) := by
  have hfit : ∀ b ∈ L, ¬ b.Fits size align := by
    simpa [firstFit, List.find?_eq_none] using hnone
  refine ⟨L.length + 1, fun fuel hf => ?_⟩
  obtain ⟨n, rfl⟩ := Nat.exists_eq_add_of_le hf
  have hc : Chain h.mem h.first [] h.first := rfl
  have hpass := allocFrom_pass hc (show Chain h.mem h.first (L ++ []) 0 by rwa [List.append_nil])
    (by rwa [List.append_nil]) halign hfit (n + 1)
  rw [show L.length + 1 + n = n + 1 + L.length by omega]
  refine hpass.trans ?_
  have hend : h.deref (link ([] ++ L)) = 0 := deref_link hl
  rw [allocFrom]
  simp only [hend, if_true]

theorem IsList.alloc_some (hl : h.IsList L) (hs : Sorted L) (ha : Apart L)
    (halign : IsAlign align) (hsize0 : 0 < size) (hsome : firstFit size align L = some b)
    (hclean : b.SplitsClean size align) :
    ∃ h' L', Returns (fun n => h.alloc n size align) (b.start + b.front align, h') ∧
      h'.IsList L' ∧ Sorted L' ∧ Apart L' ∧ total L' + size = total L ∧
      (∀ i, Covers L' i ↔ Covers L i ∧ ¬ (Block.mk (b.start + b.front align) size).Has i) ∧
      ∀ i, ¬ Covers L i → h'.mem i = h.mem i := by
  obtain ⟨hfit, L₁, L₂, rfl, hbefore⟩ := List.find?_eq_some_iff_append.mp hsome
  have hfit : b.Fits size align := of_decide_eq_true hfit
  have hskip : ∀ x ∈ L₁, ¬ x.Fits size align := by simpa using hbefore
  obtain ⟨r, hc₁, hc₂⟩ := chain_append.mp hl
  obtain rfl : r = b.start := hc₂.1
  obtain ⟨h', hret, hl', hout⟩ := allocFrom_take hc₁ hc₂ hs hsize0 halign hfit hclean
  have hvalid := hs.valid b (List.mem_append_right _ List.mem_cons_self)
  obtain ⟨hsorted, hapart, hin⟩ := sorted_rest hvalid hfit hsize0 hclean
  refine ⟨h', _, ⟨L₁.length + 1, fun fuel hf => ?_⟩, hl', hs.splice hsorted hin,
    ha.splice hapart hin, ?_, fun i => ?_, hout⟩
  · obtain ⟨n, rfl⟩ := Nat.exists_eq_add_of_le hf
    have hc : Chain h.mem h.first [] h.first := rfl
    rw [show L₁.length + 1 + n = n + 1 + L₁.length by omega]
    exact (allocFrom_pass hc hl hs halign hskip (n + 1)).trans (hret n)
  · have := total_rest hfit
    simp only [total_append, total_cons]
    omega
  · have hother : ∀ x ∈ L₁ ++ L₂, x.Has i → ¬ b.Has i := by
      intro x hx hxi
      obtain ⟨hs₁, hs₂, ho⟩ := sorted_append.mp hs
      cases List.mem_append.mp hx with
      | inl hx => exact Block.Disjoint.not_has (.inl (ho x hx b List.mem_cons_self)) hxi
      | inr hx => exact Block.Disjoint.not_has (.inr (hs₂.head_le hx)) hxi
    have hrange : (Block.mk (b.start + b.front align) size).Has i → b.Has i := by
      unfold Block.Fits at hfit
      unfold Block.Has Block.fin
      dsimp only
      omega
    have hout₁ : Covers L₁ i → ¬ b.Has i :=
      fun ⟨x, hx, hxi⟩ => hother x (List.mem_append_left _ hx) hxi
    have hout₂ : Covers L₂ i → ¬ b.Has i :=
      fun ⟨x, hx, hxi⟩ => hother x (List.mem_append_right _ hx) hxi
    simp only [covers_append, covers_cons, covers_rest hfit]
    tauto

/-! ## The memory that is left -/

theorem availFrom_eq {p a : Nat} (hc : Chain h.mem p L 0) (hs : Sorted L)
    (hsum : a + total L < 4294967296) :
    ∀ fuel > L.length, h.availFrom fuel p a = some (a + total L) := by
  induction L generalizing p a with
  | nil =>
    intro fuel hf
    obtain ⟨n, rfl⟩ := Nat.exists_eq_add_of_lt hf
    rw [availFrom, if_pos (show p = 0 from hc)]
    rfl
  | cons b L ih =>
    intro fuel hf
    obtain ⟨n, rfl⟩ := Nat.exists_eq_add_of_lt hf
    obtain ⟨rfl, hsize, hrest⟩ := chain_cons_iff.mp hc
    have hpos := (hs.valid b List.mem_cons_self).pos
    rw [total_cons] at hsum ⊢
    rw [availFrom, if_neg (by omega), hsize, Word.add_eq (by omega),
      ih hrest hs.tail (by omega) _ (by simp only [List.length_cons]; omega), Nat.add_assoc]

theorem IsList.avail (hl : h.IsList L) (hs : Sorted L) :
    Returns (fun n => h.avail n) (total L) := by
  have hle := hs.total_le (a := 1) (fun b hb => (hs.valid b hb).pos) (by decide)
  refine ⟨L.length + 1, fun fuel hf => ?_⟩
  have := availFrom_eq hl hs (a := 0) (by omega) fuel hf
  rwa [Nat.zero_add] at this

end

end L4env.Cxx
