import L4env.DMphys.PoolOps

/-!
# The lists of areas in use

A dataspace owns a list of page areas of one pool. `Holds s A l` says that the pools are consistent
and that the areas in use outside the descriptor memory are those of the lists `l`. Each operation on
one list leaves the other lists alone.
-/

namespace L4env.DMphys

/-- A list of areas in use: its pool, its first area and the areas themselves. -/
structure Held where
  pool : Nat
  pages : Ptr
  areas : List Ptr

/-- What the owner of a list knows of it. -/
def Held.key (x : Held) : Nat × Ptr := (x.pool, x.pages)

def heldAreas (l : List Held) : List Ptr := (l.map Held.areas).flatten

@[simp] theorem heldAreas_cons (x : Held) (l : List Held) :
    heldAreas (x :: l) = x.areas ++ heldAreas l := rfl

theorem heldAreas_perm {l l' : List Held} (h : l.Perm l') : (heldAreas l).Perm (heldAreas l') :=
  (h.map _).flatten

theorem areas_mem_heldAreas {x : Held} {l : List Held} (hx : x ∈ l) (ha : a ∈ x.areas) :
    a ∈ heldAreas l :=
  List.mem_flatten.mpr ⟨x.areas, List.mem_map.mpr ⟨x, hx, rfl⟩, ha⟩

structure Holds (s : State) (A : Nat → Set Ptr) (l : List Held) : Prop where
  inv : Inv s A (heldAreas l) none
  links : ∀ x ∈ l, IsSList s.dsNext (some x.pages) x.areas
  mem : ∀ x ∈ l, ∀ a ∈ x.areas, a ∈ A x.pool

section
variable {s s' : State} {A A' : Nat → Set Ptr} {l l' : List Held} {x : Held}

theorem Holds.perm (h : Holds s A l) (hp : l.Perm l') : Holds s A l' :=
  ⟨h.inv.perm (heldAreas_perm hp), fun x hx => h.links x (hp.mem_iff.mpr hx),
    fun x hx => h.mem x (hp.mem_iff.mpr hx)⟩

theorem Holds.chain (h : Holds s A (x :: l)) :
    Chain s A (heldAreas l) x.pool (some x.pages) x.areas :=
  ⟨h.inv, h.links x (by simp), h.mem x (by simp)⟩

/-- The lists that an operation does not touch keep their areas. -/
theorem Holds.frame (h : Holds s A l) (hF : Frame s A s' A' (· ∈ heldAreas l)) :
    (∀ x ∈ l, IsSList s'.dsNext (some x.pages) x.areas) ∧ ∀ x ∈ l, ∀ a ∈ x.areas, a ∈ A' x.pool := by
  constructor
  · intro x hx
    exact (h.links x hx).congr fun a ha => hF.dsNext a (areas_mem_heldAreas hx ha)
  · intro x hx a ha
    exact hF.mem a (areas_mem_heldAreas hx ha) x.pool (h.mem x hx a ha)

theorem Holds.leaves (h : Holds s A l) (hL : Leaves s A (heldAreas l) (heldAreas l) s' A') :
    Holds s' A' l :=
  ⟨hL.inv, (h.frame hL.frame).1, (h.frame hL.frame).2⟩

theorem Holds.tail (h : Holds s A (x :: l))
    (hL : Leaves s A (x.areas ++ heldAreas l) (heldAreas l) s' A') : Holds s' A' l := by
  refine ⟨hL.inv, fun y hy => ?_, fun y hy a ha => ?_⟩
  · refine (h.links y (by simp [hy])).congr fun a ha => ?_
    exact hL.frame.dsNext a (areas_mem_heldAreas hy ha)
  · exact hL.frame.mem a (areas_mem_heldAreas hy ha) y.pool (h.mem y (by simp [hy]) a ha)

theorem Holds.cons (h : Holds s A l) (hE : Extends s A (heldAreas l) P [] n s' A' (some p) c 0) :
    Holds s' A' (⟨P, p, c⟩ :: l) := by
  have hF := h.frame hE.frame
  refine ⟨hE.chain.inv, ?_, ?_⟩
  · intro x hx
    rcases List.mem_cons.mp hx with rfl | hx
    · exact hE.chain.links
    · exact hF.1 x hx
  · intro x hx
    rcases List.mem_cons.mp hx with rfl | hx
    · exact hE.chain.mem
    · exact hF.2 x hx

theorem Holds.resized (h : Holds s A (x :: l))
    (hR : Resized s A (heldAreas l) x.pool x.pages s' A' c) :
    Holds s' A' (⟨x.pool, x.pages, c⟩ :: l) := by
  refine ⟨hR.chain.inv, ?_, ?_⟩
  · intro y hy
    rcases List.mem_cons.mp hy with rfl | hy
    · exact hR.chain.links
    · refine (h.links y (by simp [hy])).congr fun a ha => ?_
      exact hR.frame.dsNext a (areas_mem_heldAreas hy ha)
  · intro y hy
    rcases List.mem_cons.mp hy with rfl | hy
    · exact hR.chain.mem
    · exact fun a ha => hR.frame.mem a (areas_mem_heldAreas hy ha) y.pool (h.mem y (by simp [hy]) a ha)

/-- The first areas of two lists are different. -/
theorem Holds.pages_mem (h : Holds s A l) (hx : x ∈ l) : x.pages ∈ x.areas := by
  have := h.links x hx
  cases hc : x.areas with
  | nil => rw [hc] at this; cases this
  | cons a c => rw [hc] at this; cases this.1; simp

end

end L4env.DMphys
