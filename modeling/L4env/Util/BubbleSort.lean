import L4env.Util.Returns

/-!
# Bubble sort

One pass swaps neighbours in the wrong order and says whether there were any; passes are repeated until there
were none. An asymmetric relation is enough for the sort to end, and for its result to have no two neighbours in
the wrong order. In a list in order, two elements are neighbours if and only if no element is between them.
-/

namespace L4env

variable {α : Type} {lt : α → α → Bool} {a b c : α} {l : List α}

/-- A pass over the list `c :: l`. -/
def bubbleFrom (lt : α → α → Bool) (c : α) : List α → List α × Bool
  | [] => ([c], false)
  | n :: l =>
    if lt n c then (n :: (bubbleFrom lt c l).1, true) else (c :: (bubbleFrom lt n l).1, (bubbleFrom lt n l).2)

/-- A pass. -/
def bubble (lt : α → α → Bool) : List α → List α × Bool
  | [] => ([], false)
  | c :: l => bubbleFrom lt c l

/-- Passes until nothing is swapped. -/
def bubbleSort (lt : α → α → Bool) : Nat → List α → Option (List α)
  | 0, _ => none
  | fuel + 1, l => if (bubble lt l).2 then bubbleSort lt fuel (bubble lt l).1 else some (bubble lt l).1

/-- The number of pairs in the wrong order. -/
def inversions (lt : α → α → Bool) : List α → Nat
  | [] => 0
  | c :: l => l.countP (fun n => lt n c) + inversions lt l

theorem bubbleFrom_perm (c : α) (l : List α) : (bubbleFrom lt c l).1.Perm (c :: l) := by
  induction l generalizing c with
  | nil => exact .refl _
  | cons n l ih =>
    rw [bubbleFrom]
    split
    · exact ((ih c).cons n).trans (.swap c n l)
    · exact (ih n).cons c

/-- A pass does not make an inversion, and takes one out if it swaps. -/
theorem inversions_bubbleFrom (hlt : ∀ a ∈ c :: l, ∀ b ∈ c :: l, lt a b = true → lt b a = false) :
    inversions lt (bubbleFrom lt c l).1 + (bubbleFrom lt c l).2.toNat ≤ inversions lt (c :: l) := by
  induction l generalizing c with
  | nil => exact le_rfl
  | cons n l ih =>
    rw [bubbleFrom]
    have hn : n ∈ c :: n :: l := .tail _ (List.mem_cons_self ..)
    have hless : ∀ a ∈ c :: l, a ∈ c :: n :: l := fun a ha => by
      obtain rfl | ha := List.mem_cons.mp ha
      · exact List.mem_cons_self ..
      · exact .tail _ (.tail _ ha)
    split
    case isTrue h =>
      have hperm : (bubbleFrom lt c l).1.Perm (c :: l) := bubbleFrom_perm c l
      have hcount := hperm.countP_eq fun m => lt m n
      have hle := ih fun a ha b hb => hlt a (hless a ha) b (hless b hb)
      have hback : lt c n = false := hlt n hn c (List.mem_cons_self ..) h
      rw [List.countP_cons_of_neg (by rw [hback]; exact Bool.false_ne_true)] at hcount
      simp only [inversions, List.countP_cons, h, if_true, Bool.toNat_true, hcount] at hle ⊢
      omega
    case isFalse h =>
      have hperm : (bubbleFrom lt n l).1.Perm (n :: l) := bubbleFrom_perm n l
      have hcount := hperm.countP_eq fun m => lt m c
      have hle := ih fun a ha b hb => hlt a (.tail _ ha) b (.tail _ hb)
      simp only [inversions, hcount] at hle ⊢
      omega

theorem bubbleFrom_done (h : (bubbleFrom lt c l).2 = false) :
    (bubbleFrom lt c l).1 = c :: l ∧ (c :: l).IsChain fun a b => lt b a = false := by
  induction l generalizing c with
  | nil => exact ⟨rfl, .singleton c⟩
  | cons n l ih =>
    rw [bubbleFrom] at h ⊢
    split at h
    · exact absurd h nofun
    · rename_i hlt
      obtain ⟨heq, hchain⟩ := ih h
      rw [if_neg hlt, heq]
      exact ⟨rfl, .cons_cons (eq_false_of_ne_true hlt) hchain⟩

theorem bubble_perm (l : List α) : (bubble lt l).1.Perm l := by
  cases l with
  | nil => exact .refl _
  | cons c l => exact bubbleFrom_perm c l

/-- The sort ends, with a permutation of the list that has no two neighbours in the wrong order. -/
theorem bubbleSort_spec (hlt : ∀ a ∈ l, ∀ b ∈ l, lt a b = true → lt b a = false) :
    ∃ r, Returns (fun fuel => bubbleSort lt fuel l) r ∧ r.Perm l ∧ r.IsChain fun a b => lt b a = false := by
  induction hn : inversions lt l using Nat.strong_induction_on generalizing l with | _ n ih
  cases hswapped : (bubble lt l).2 with
  | true =>
    have hless : inversions lt (bubble lt l).1 < n := by
      cases l with
      | nil => cases hswapped
      | cons c l =>
        have hle := inversions_bubbleFrom hlt
        rw [show (bubbleFrom lt c l).2 = true from hswapped, Bool.toNat_true, hn] at hle
        exact hle
    have hlt' : ∀ a ∈ (bubble lt l).1, ∀ b ∈ (bubble lt l).1, lt a b = true → lt b a = false := fun a ha b hb =>
      hlt a ((bubble_perm l).mem_iff.mp ha) b ((bubble_perm l).mem_iff.mp hb)
    obtain ⟨r, hrun, hperm, hchain⟩ := ih _ hless hlt' rfl
    refine ⟨r, hrun.round fun fuel => ?_, hperm.trans (bubble_perm l), hchain⟩
    rw [bubbleSort, hswapped, if_pos rfl]
  | false =>
    refine ⟨(bubble lt l).1, (Returns.const _).round fun fuel => ?_, bubble_perm l, ?_⟩
    · rw [bubbleSort, hswapped, if_neg Bool.false_ne_true]
    · cases l with
      | nil => exact .nil
      | cons c l =>
        obtain ⟨heq, hchain⟩ := bubbleFrom_done hswapped
        rw [bubble, heq]
        exact hchain

/-! ## Neighbours -/

variable {R P : α → α → Prop}

/-- The elements of a list in order that have no element between them are neighbours. -/
theorem isChain_iff_between (hR : ∀ a ∈ l, ∀ b ∈ l, R a b → ¬ R b a) (h : l.Pairwise R) :
    l.IsChain P ↔ ∀ c ∈ l, ∀ n ∈ l, R c n → (∀ m ∈ l, ¬ (R c m ∧ R m n)) → P c n := by
  induction l with
  | nil => exact ⟨fun _ => nofun, fun _ => .nil⟩
  | cons c l ih =>
    obtain ⟨hfirst, hrest⟩ := List.pairwise_cons.mp h
    have hR' : ∀ a ∈ l, ∀ b ∈ l, R a b → ¬ R b a := fun a ha b hb =>
      hR a (.tail _ ha) b (.tail _ hb)
    have hback : ∀ a ∈ c :: l, ¬ R a c := fun a ha hac => by
      obtain rfl | ha' := List.mem_cons.mp ha
      · exact hR _ ha _ ha hac hac
      · exact hR _ ha _ (List.mem_cons_self ..) hac (hfirst a ha')
    have ih := ih hR' hrest
    cases l with
    | nil =>
      refine ⟨fun _ a ha b hb hab => ?_, fun _ => .singleton c⟩
      rw [List.mem_singleton.mp hb] at hab
      exact absurd hab (hback a ha)
    | cons d l =>
      obtain ⟨hsecond, -⟩ := List.pairwise_cons.mp hrest
      rw [List.isChain_cons_cons, ih]
      constructor
      · rintro ⟨hcd, H⟩ a ha b hb hab hno
        obtain rfl | hb' := List.mem_cons.mp hb
        · exact absurd hab (hback a ha)
        obtain rfl | ha' := List.mem_cons.mp ha
        · obtain rfl | hb'' := List.mem_cons.mp hb'
          · exact hcd
          · exact absurd ⟨hfirst d (List.mem_cons_self ..), hsecond b hb''⟩
              (hno d (.tail _ (List.mem_cons_self ..)))
        · exact H a ha' b hb' hab fun m hm => hno m (.tail _ hm)
      · refine fun H => ⟨?_, fun a ha b hb hab hno => ?_⟩
        · refine H c (List.mem_cons_self ..) d (.tail _ (List.mem_cons_self ..)) (hfirst d (List.mem_cons_self ..))
            fun m hm hbetween => ?_
          obtain rfl | hm := List.mem_cons.mp hm
          · exact hback _ (List.mem_cons_self ..) hbetween.1
          obtain rfl | hm := List.mem_cons.mp hm
          · exact hR' _ (List.mem_cons_self ..) _ (List.mem_cons_self ..) hbetween.2 hbetween.2
          · exact hR' d (List.mem_cons_self ..) m (.tail _ hm) (hsecond m hm) hbetween.2
        · refine H a (.tail _ ha) b (.tail _ hb) hab fun m hm hbetween => ?_
          obtain rfl | hm := List.mem_cons.mp hm
          · exact hback a (.tail _ ha) hbetween.1
          · exact hno m hm hbetween

end L4env
