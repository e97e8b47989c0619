import L4env.Util.Meets

/-!
# Programs that follow each other

`Simulates R m m'` says that whenever the program `m'` returns, `m` returns too, and the two results are
related by `R`. The rules take two programs apart that are built in the same way; where they differ,
`m` may do steps that are known to succeed, and `m'` may check what `m` does not.
-/

namespace L4env

variable {ε ε' α α' β β' : Type}

/-- The two parts of a program that returns. -/
theorem of_bind_ok {m : Except ε α} {k : α → Except ε β} {w : β} (h : m >>= k = .ok w) :
    ∃ v, m = .ok v ∧ k v = .ok w := by
  cases m with
  | error e => cases h
  | ok v => exact ⟨v, rfl, h⟩

/-- Whenever `m'` returns, `m` returns a related value. -/
def Simulates (R : α → α' → Prop) (m : Except ε α) (m' : Except ε' α') : Prop :=
  ∀ v', m' = .ok v' → ∃ v, m = .ok v ∧ R v v'

section
variable {R R' : α → α' → Prop} {S : β → β' → Prop} {m : Except ε α} {m' : Except ε' α'}
  {k : α → Except ε β} {k' : α' → Except ε' β'} {v : α} {v' : α'}

theorem Simulates.pure (h : R v v') : Simulates R (pure v : Except ε α) (pure v' : Except ε' α') :=
  fun _ hw => ⟨v, rfl, Except.ok.inj hw ▸ h⟩

theorem Simulates.ok (h : R v v') : Simulates R (.ok v : Except ε α) (.ok v' : Except ε' α') :=
  .pure h

theorem Simulates.throw {e : ε'} : Simulates R m (throw e : Except ε' α') :=
  fun _ h => nomatch h

theorem Simulates.imp (h : Simulates R m m') (hR : ∀ v v', R v v' → R' v v') :
    Simulates R' m m' :=
  fun v' hv' => (h v' hv').imp fun v hv => ⟨hv.1, hR v v' hv.2⟩

theorem Simulates.bind (h : Simulates R m m') (hk : ∀ v v', R v v' → Simulates S (k v) (k' v')) :
    Simulates S (m >>= k) (m' >>= k') := by
  intro w' hw'
  obtain ⟨v', hv', hw'⟩ := of_bind_ok hw'
  obtain ⟨v, rfl, hR⟩ := h v' hv'
  exact hk v v' hR w' hw'

/-- The results are known to be those of the two programs. -/
theorem Simulates.and_ok (h : Simulates R m m') :
    Simulates (fun v v' => m = .ok v ∧ m' = .ok v' ∧ R v v') m m' :=
  fun v' hv' => (h v' hv').imp fun _ hv => ⟨hv.1, hv.1, hv', hv.2⟩

/-- The program that is followed makes a check of its own. -/
theorem Simulates.skip {n : Except ε' β'} {l : β' → Except ε' α'}
    (h : ∀ v, n = .ok v → Simulates R m (l v)) : Simulates R m (n >>= l) := by
  intro w' hw'
  obtain ⟨v, hv, hw'⟩ := of_bind_ok hw'
  exact h v hv w' hw'

theorem Simulates.ite {p p' : Prop} [Decidable p] [Decidable p'] {n : Except ε α} {n' : Except ε' α'}
    (hp : p ↔ p') (h : p → Simulates R m m') (hn : ¬p → Simulates R n n') :
    Simulates R (if p then m else n) (if p' then m' else n') := by
  split_ifs with h₁ h₂ h₂
  · exact h h₁
  · exact absurd (hp.mp h₁) h₂
  · exact absurd (hp.mpr h₂) h₁
  · exact hn h₁

end

end L4env
