import Mathlib.Tactic

/-!
# Outcomes of computations that may fail

`Outcome P F r` says that `r` is a value with `P` or an error with `F`. The rules follow the way such
computations are put together.
-/

namespace L4env

variable {α β ε : Type} {P P' : α → Prop} {Q : β → Prop} {F F' : ε → Prop} {r : Except ε α}
  {k : α → Except ε β} {a : α} {e : ε}

def Outcome (P : α → Prop) (F : ε → Prop) : Except ε α → Prop
  | .ok a => P a
  | .error e => F e

theorem Outcome.mono (h : Outcome P F r) (hP : ∀ a, P a → P' a) (hF : ∀ e, F e → F' e) :
    Outcome P' F' r := by
  cases r with
  | ok a => exact hP a h
  | error e => exact hF e h

theorem Outcome.bind (h : Outcome P F r) (hk : ∀ a, P a → Outcome Q F (k a)) :
    Outcome Q F (r >>= k) := by
  cases r with
  | ok a => exact hk a h
  | error e => exact h

theorem Outcome.map {f : α → β} (h : Outcome (fun a => Q (f a)) F r) : Outcome Q F (r.map f) := by
  cases r with
  | ok a => exact h
  | error e => exact h

theorem Outcome.ok (h : Outcome P F r) (hr : r = .ok a) : P a := by
  subst hr
  exact h

theorem Outcome.error (h : Outcome P F r) (hr : r = .error e) : F e := by
  subst hr
  exact h

end L4env
