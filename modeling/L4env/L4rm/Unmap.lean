import L4env.DMphys.Unmap
import L4env.L4rm.Region

/-!
# L4RM: unmapping a region

When a region is detached or cleared its pages are unmapped (`l4rm_unmap_region` in
`l4rm/lib/src/region.c`). The loop is that of `__unmap_area` of DMphys: `l4util_log2` is the bit scan
`l4util_bsr`, and `l4_addr_t` and `l4_size_t` are words of 32 bits in both.
-/

namespace L4env.L4rm

open DMphys (Fpage)

/-- `l4rm_unmap_region`: the flexpages of its calls of `l4_fpage_unmap`. -/
def unmapRegion (r : Region) : Except DMphys.Panic (List Fpage) :=
  let size := Word.add (Word.sub r.last r.start) 1
  DMphys.unmapLoop (size + 1) r.start size

/-- The flexpages are aligned to their sizes, at least a page large and disjoint, and their addresses
are the `size` bytes from `start`. -/
structure Exact (u : List Fpage) (start size : Nat) : Prop where
  aligned : ∀ p ∈ u, 2 ^ p.size2.toNat ∣ p.addr
  page : ∀ p ∈ u, 12 ≤ p.size2
  disjoint : u.Pairwise fun p q => ∀ x, ¬(p.Has x ∧ q.Has x)
  cover : ∀ x, (∃ p ∈ u, p.Has x) ↔ start ≤ x ∧ x < start + size

variable {start size fuel : Nat}

theorem unmapLoop_exact (hstart : 4096 ∣ start) (hsize : 4096 ∣ size)
    (h : start + size ≤ 4294967296) (hw : size < 4294967296) (hf : size < fuel) :
    ∃ u, DMphys.unmapLoop fuel start size = .ok u ∧ Exact u start size := by
  obtain ⟨u, hu, ht, ha, hn⟩ := DMphys.unmapLoop_tiles h hw hf
  refine ⟨u, hu, ha, hn 12 hstart hsize, ht.pairwise.imp fun hlt x hx => ?_, fun x => ?_⟩
  · simp only [DMphys.Fpage.has_iff] at hx
    omega
  · simp only [DMphys.Fpage.has_iff]
    constructor
    · intro ⟨p, hp, h1, h2⟩
      have := ht.bounds hp
      omega
    · exact fun hx => ht.cover hx.1 hx.2

/-- The size of a region is a word, and the loop gets it back from the two ends. -/
theorem region_size (hpos : 0 < size) (h : start + size ≤ 4294967296) (hw : size < 4294967296) :
    Word.add (Word.sub (start + size - 1) start) 1 = size := by
  have hsub : Word.sub (start + size - 1) start = size - 1 := by
    rw [Word.sub_eq (by omega) (by omega)]
    omega
  rw [hsub, Word.add_eq (by omega)]
  omega

end L4env.L4rm
