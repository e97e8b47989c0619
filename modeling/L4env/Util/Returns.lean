import Mathlib.Tactic

/-!
# Results of computations with a bound on their steps

A loop that takes at most `n` rounds is a function of `n`. `Returns f v` says that it ends with `v`
once `n` is large enough. The rules below follow the way such functions are put together.
-/

namespace L4env

variable {α β : Type} {f g : Nat → Option α} {v w : α}

/-- `f` has the value `v` for every large enough number of steps. -/
def Returns (f : Nat → Option α) (v : α) : Prop := ∃ N, ∀ n ≥ N, f n = some v

theorem Returns.const (v : α) : Returns (fun _ => some v) v := ⟨0, fun _ _ => rfl⟩

theorem Returns.unique (h : Returns f v) (h' : Returns f w) : v = w := by
  obtain ⟨N, hN⟩ := h
  obtain ⟨N', hN'⟩ := h'
  have heq := (hN (max N N') (le_max_left ..)).symm.trans (hN' (max N N') (le_max_right ..))
  exact Option.some.inj heq

theorem Returns.congr (h : Returns f v) (hg : ∀ n, g n = f n) : Returns g v :=
  h.imp fun _ hN n hn => (hg n).trans (hN n hn)

/-- A round of a loop that goes on as `f`. -/
theorem Returns.round (h : Returns f v) (hg : ∀ n, g (n + 1) = f n) : Returns g v := by
  obtain ⟨N, hN⟩ := h
  refine ⟨N + 1, fun n hn => ?_⟩
  obtain ⟨m, rfl⟩ := Nat.exists_eq_add_of_le' (Nat.le_trans (Nat.le_add_left 1 N) hn)
  rw [hg]
  exact hN m (Nat.le_of_add_le_add_right hn)

theorem Returns.bind {k : Nat → α → Option β} {u : β} (h : Returns f v)
    (hk : Returns (fun n => k n v) u) : Returns (fun n => f n >>= k n) u := by
  obtain ⟨N, hN⟩ := h
  obtain ⟨N', hN'⟩ := hk
  refine ⟨max N N', fun n hn => ?_⟩
  show (f n >>= k n) = some u
  rw [hN n (le_of_max_le_left hn)]
  exact hN' n (le_of_max_le_right hn)

theorem Returns.map (h : Returns f v) (k : α → β) : Returns (fun n => (f n).map k) (k v) :=
  h.imp fun _ hN n hn => by
    show (f n).map k = _
    rw [hN n hn, Option.map_some]

/-- A fold along a list, by what its steps return. -/
theorem Returns.foldlM_cons {s : Nat → β → α → Option β} {a : α} {l : List α} {b b' b'' : β}
    (h : Returns (fun n => s n b a) b') (hl : Returns (fun n => l.foldlM (s n) b') b'') :
    Returns (fun n => (a :: l).foldlM (s n) b) b'' :=
  (h.bind (k := fun n b => l.foldlM (s n) b) hl).congr fun _ => List.foldlM_cons

end L4env
