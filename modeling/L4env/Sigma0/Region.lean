import L4env.Util.Word

/-!
# Regions of sigma0

A region is a pair of machine words: the first holds the page-aligned start address and, in its low
twelve bits, the owner, the second holds the last address. Every setter rounds the start down. Regions
are compared as intervals, so two regions that overlap count as equal in a search.
-/

namespace L4env.Sigma0

/-- `l4_trunc_page`, and what the setters of `Region` do to a start address. -/
def truncPage (x : Nat) : Nat := Word.roundDown x 4096

/-- `l4_round_page`. -/
def roundPage (x : Nat) : Nat := Word.roundUp x 4096

structure Region where
  l : Nat
  h : Nat
  deriving DecidableEq, Repr

namespace Region

/-- The constructor `Region (start, end, owner)`. -/
def of (start stop owner : Nat) : Region := ⟨truncPage start ||| owner, stop⟩

def owner (r : Region) : Nat := r.l &&& 0xfff

def start (r : Region) : Nat := truncPage r.l

def stop (r : Region) : Nat := r.h

def setStart (r : Region) (start : Nat) : Region := ⟨(r.l &&& 0xfff) ||| truncPage start, r.h⟩

def setStop (r : Region) (stop : Nat) : Region := ⟨r.l, stop⟩

/-- `operator <`. -/
def lt (r q : Region) : Bool := r.stop < q.start

def contains (r q : Region) : Bool := r.start ≤ q.start ∧ q.stop ≤ r.stop

/-- `operator ==`. -/
def beq (r q : Region) : Bool := r.start = q.start ∧ r.stop = q.stop

def valid (r : Region) : Bool := r.start ≤ r.stop

/-- A region by its size. -/
def bs (start size owner : Nat) : Region :=
  if size = 0 then of 1 0 0 else of start (Word.sub (Word.add start size) 1) owner

/-- The region from `start` up to, but without, `stop`. -/
def kr (start stop owner : Nat) : Region := bs start (Word.sub stop start) owner

/-! ## Pages -/

theorem truncPage_eq {x : Nat} (hx : x < 4294967296) : truncPage x = x - x % 4096 :=
  Word.roundDown_eq (k := 12) hx (by decide)

theorem truncPage_of_dvd {x : Nat} (hx : x < 4294967296) (h : x % 4096 = 0) : truncPage x = x := by
  rw [truncPage_eq hx, h, Nat.sub_zero]

/-- A page-aligned address and an owner in one word. -/
theorem or_owner {a o : Nat} (ha : a % 4096 = 0) (ho : o < 4096) : a ||| o = a + o := by
  have := Nat.two_pow_add_eq_or_of_lt (i := 12) ho (a / 4096)
  rw [show 2 ^ 12 * (a / 4096) = a by omega] at this
  exact this.symm

theorem owner_eq (r : Region) : r.owner = r.l % 4096 :=
  Nat.and_two_pow_sub_one_eq_mod r.l 12

theorem owner_lt (r : Region) : r.owner < 4096 := by
  rw [owner_eq]
  exact Nat.mod_lt _ (by decide)

/-- Two words of which the second is the end of a page. -/
structure Aligned (r : Region) : Prop where
  l_lt : r.l < 4294967296
  stop_lt : r.stop < 4294967296
  stop_mod : r.stop % 4096 = 4095

/-- The region is made of one or more pages. -/
structure Ok (r : Region) : Prop extends Aligned r where
  le : r.start ≤ r.stop

variable {r q : Region} {a s e o : Nat}

theorem start_eq (h : r.l < 4294967296) : r.start = r.l - r.l % 4096 := truncPage_eq h

theorem Aligned.start_mod (h : r.Aligned) : r.start % 4096 = 0 := by
  have := start_eq h.l_lt
  omega

theorem Aligned.start_lt (h : r.Aligned) : r.start < 4294967296 := by
  have := start_eq h.l_lt
  have := h.l_lt
  omega

theorem Aligned.l_eq (h : r.Aligned) : r.l = r.start + r.owner := by
  have := start_eq h.l_lt
  have := owner_eq r
  omega

theorem Aligned.ext (hr : r.Aligned) (hq : q.Aligned) (hs : r.start = q.start)
    (he : r.stop = q.stop) (ho : r.owner = q.owner) : r = q := by
  have hl : r.l = q.l := by rw [hr.l_eq, hq.l_eq, hs, ho]
  cases r
  cases q
  congr

theorem Ok.page_le (h : r.Ok) : r.start + 4095 ≤ r.stop := by
  have := h.start_mod
  have := h.stop_mod
  have := h.le
  omega

@[simp] theorem of_stop : (of s e o).stop = e := rfl

theorem of_l (hs : s < 4294967296) (ho : o < 4096) : (of s e o).l = s - s % 4096 + o := by
  have hmod : (s - s % 4096) % 4096 = 0 := by omega
  rw [of, truncPage_eq hs, or_owner hmod ho]

theorem of_l_lt (hs : s < 4294967296) (ho : o < 4096) : (of s e o).l < 4294967296 := by
  rw [of_l hs ho]
  omega

theorem of_start (hs : s < 4294967296) (ho : o < 4096) : (of s e o).start = s - s % 4096 := by
  rw [start_eq (of_l_lt hs ho), of_l hs ho]
  omega

theorem of_owner (hs : s < 4294967296) (ho : o < 4096) : (of s e o).owner = o := by
  rw [owner_eq, of_l hs ho]
  omega

@[simp] theorem setStart_stop : (r.setStart a).stop = r.stop := rfl

theorem setStart_l (ha : a < 4294967296) : (r.setStart a).l = a - a % 4096 + r.owner := by
  have hmod : (a - a % 4096) % 4096 = 0 := by omega
  show r.owner ||| truncPage a = _
  rw [Nat.or_comm, truncPage_eq ha, or_owner hmod r.owner_lt]

theorem setStart_l_lt (ha : a < 4294967296) : (r.setStart a).l < 4294967296 := by
  have := r.owner_lt
  rw [setStart_l ha]
  omega

theorem setStart_start (ha : a < 4294967296) : (r.setStart a).start = a - a % 4096 := by
  have := r.owner_lt
  rw [start_eq (setStart_l_lt ha), setStart_l ha]
  omega

theorem setStart_owner (ha : a < 4294967296) : (r.setStart a).owner = r.owner := by
  have := r.owner_lt
  rw [owner_eq, setStart_l ha]
  omega

@[simp] theorem setStop_stop : (r.setStop e).stop = e := rfl

@[simp] theorem setStop_start : (r.setStop e).start = r.start := rfl

@[simp] theorem setStop_owner : (r.setStop e).owner = r.owner := rfl

theorem lt_iff : r.lt q = true ↔ r.stop < q.start := decide_eq_true_iff

theorem lt_false_iff : r.lt q = false ↔ q.start ≤ r.stop := by
  rw [← Bool.not_eq_true, lt_iff, Nat.not_lt]

theorem valid_iff : r.valid = true ↔ r.start ≤ r.stop := decide_eq_true_iff

theorem contains_iff : r.contains q = true ↔ r.start ≤ q.start ∧ q.stop ≤ r.stop :=
  decide_eq_true_iff

theorem beq_iff : r.beq q = true ↔ r.start = q.start ∧ r.stop = q.stop := decide_eq_true_iff

theorem Ok.setStart (h : r.Ok) (ha : a < 4294967296) (hm : a % 4096 = 0) (hle : a ≤ r.stop) :
    (r.setStart a).Ok := by
  refine ⟨⟨setStart_l_lt ha, h.stop_lt, h.stop_mod⟩, ?_⟩
  rw [setStart_start ha, hm, Nat.sub_zero]
  exact hle

theorem Ok.setStop (h : r.Ok) (he : e < 4294967296) (hm : e % 4096 = 4095) (hle : r.start ≤ e) :
    (r.setStop e).Ok :=
  ⟨⟨h.l_lt, he, hm⟩, hle⟩

theorem of_ok (hs : s < 4294967296) (ho : o < 4096) (he : e < 4294967296) (hm : e % 4096 = 4095)
    (hle : s ≤ e) : (of s e o).Ok := by
  refine ⟨⟨of_l_lt hs ho, he, hm⟩, ?_⟩
  rw [of_start hs ho, of_stop]
  omega

theorem Ok.roundPage_start (h : r.Ok) : roundPage r.start = r.start := by
  have := h.page_le
  have := h.stop_lt
  have := h.start_mod
  have hround := Word.roundUp_eq (v := r.start) (k := 12) (by decide) (by omega)
  rw [roundPage, show 4096 = 2 ^ 12 from rfl, hround]
  omega

/-- A region by its size, where it does not wrap. -/
theorem bs_eq {size : Nat} (h0 : size ≠ 0) (h : s + size ≤ 4294967296) :
    bs s size o = of s (s + size - 1) o := by
  rw [bs, if_neg h0]
  rcases Nat.lt_or_ge (s + size) 4294967296 with hlt | hge
  · rw [Word.add_eq hlt, Word.sub_eq (by omega) hlt]
  · rw [Word.add_eq_zero (by omega), Word.sub_zero_left (by decide) (by decide),
      show s + size = 4294967296 by omega]

/-! ## Addresses -/

/-- The address lies in the region. -/
def Covers (r : Region) (a : Nat) : Prop := r.start ≤ a ∧ a ≤ r.stop

instance (r : Region) (a : Nat) : Decidable (r.Covers a) := inferInstanceAs (Decidable (_ ∧ _))

/-- Regions with no common address are ordered. -/
theorem Ok.lt_or_lt (hr : r.Ok) (hq : q.Ok) (h : ∀ a, r.Covers a → ¬ q.Covers a) :
    r.lt q = true ∨ q.lt r = true := by
  rw [lt_iff, lt_iff]
  by_contra hne
  refine h (max r.start q.start) ⟨le_max_left .., ?_⟩ ⟨le_max_right .., ?_⟩
  · have := hr.le
    omega
  · have := hq.le
    omega

end Region

end L4env.Sigma0
