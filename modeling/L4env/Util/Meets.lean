import Mathlib.Tactic

/-!
# Postconditions of computations that may fail

`Meets r Q E` says that the computation `r` ends, with a value that satisfies `Q` or with an
exception that satisfies `E`. The rules below take a sequence of computations apart.
-/

namespace L4env

variable {ε α β : Type}

/-- `r` returns a value in `Q` or fails with an exception in `E`. -/
def Meets (r : Except ε α) (Q : α → Prop) (E : ε → Prop) : Prop :=
  match r with
  | .ok v => Q v
  | .error e => E e

section
variable {r : Except ε α} {f : α → Except ε β} {Q Q' : α → Prop} {R : β → Prop} {E E' : ε → Prop}

@[simp] theorem meets_ok {v : α} : Meets (.ok v : Except ε α) Q E ↔ Q v := Iff.rfl

@[simp] theorem meets_error {e : ε} : Meets (.error e : Except ε α) Q E ↔ E e := Iff.rfl

@[simp] theorem meets_pure {v : α} : Meets (pure v : Except ε α) Q E ↔ Q v := Iff.rfl

@[simp] theorem meets_map {g : α → β} :
    Meets (r.map g) R E ↔ Meets r (fun v => R (g v)) E := by
  cases r <;> rfl

@[simp] theorem ok_bind {v : α} : ((.ok v : Except ε α) >>= f) = f v := rfl

theorem Meets.bind (h : Meets r Q E) (hf : ∀ v, Q v → Meets (f v) R E) : Meets (r >>= f) R E := by
  cases r with
  | ok v => exact hf v h
  | error e => exact h

theorem Meets.mono (h : Meets r Q E) (hQ : ∀ v, Q v → Q' v) (hE : ∀ e, E e → E' e) :
    Meets r Q' E' := by
  cases r with
  | ok v => exact hQ v h
  | error e => exact hE e h

theorem Meets.imp (h : Meets r Q E) (hQ : ∀ v, Q v → Q' v) : Meets r Q' E :=
  h.mono hQ fun _ he => he

/-- A first computation that is known to succeed. -/
theorem Meets.bind_ok {v : α} (h : r = .ok v) (hf : Meets (f v) R E) : Meets (r >>= f) R E := by
  rw [h]; exact hf

theorem Meets.of_eq_ok {v : α} (h : r = .ok v) (hQ : Q v) : Meets r Q E := by
  rw [h]; exact hQ

theorem Meets.post {v : α} (h : Meets r Q E) (hr : r = .ok v) : Q v := by
  rw [hr] at h; exact h

theorem Meets.fail {e : ε} (h : Meets r Q E) (hr : r = .error e) : E e := by
  rw [hr] at h; exact h

end

end L4env
