import Mathlib.Tactic.Common

/-! # Computations that keep their state when they fail

A C function that changes memory and then returns an error code leaves the changes behind.
`Outcome ε σ` is the monad of such functions: the state that comes out of a failed run is the
state at the point of failure.
-/

namespace SylixOS.Lib

/-- A state-passing function that returns a value or an error, and a state in both cases. -/
def Outcome (ε σ α : Type) : Type := σ → Except ε α × σ

namespace Outcome

variable {ε σ α β γ : Type}

instance : Monad (Outcome ε σ) where
  pure a := fun s => (.ok a, s)
  bind m f := fun s => match m s with
    | (.ok a, s') => f a s'
    | (.error e, s') => (.error e, s')

/-- The current state. -/
def get : Outcome ε σ σ := fun s => (.ok s, s)

/-- Replace part of the state. -/
def modify (f : σ → σ) : Outcome ε σ Unit := fun s => (.ok (), f s)

/-- Go on only when the condition holds. -/
def ensure (c : Prop) [Decidable c] (e : ε) : Outcome ε σ Unit := fun s =>
  if c then (.ok (), s) else (.error e, s)

/-- The same function with another error code, and with something to be done when it fails. -/
def onFail (e : ε) (f : σ → σ) (m : Outcome ε σ α) : Outcome ε σ α := fun s => match m s with
  | (.ok a, s') => (.ok a, s')
  | (.error _, s') => (.error e, f s')

/-- The same function with another error code. -/
def failWith (e : ε) (m : Outcome ε σ α) : Outcome ε σ α := onFail e id m

theorem bind_ok {m : Outcome ε σ α} {f : α → Outcome ε σ β} {s s' : σ} {b : β} :
    (m >>= f) s = (.ok b, s') ↔ ∃ a s₁, m s = (.ok a, s₁) ∧ f a s₁ = (.ok b, s') := by
  change (match m s with | (.ok a, s') => f a s' | (.error e, s') => (.error e, s')) = _ ↔ _
  rcases m s with ⟨e | a, s₁⟩
  · constructor
    · intro h
      cases h
    · rintro ⟨_, _, h, _⟩
      cases h
  · constructor
    · exact fun h => ⟨a, s₁, rfl, h⟩
    · rintro ⟨_, _, h, h'⟩
      cases h
      exact h'

theorem bind_of_ok {m : Outcome ε σ α} {f : α → Outcome ε σ β} {s s' : σ} {a : α}
    (h : m s = (.ok a, s')) : (m >>= f) s = f a s' := by
  change (match m s with | (.ok a, s') => f a s' | (.error e, s') => (.error e, s')) = _
  rw [h]

theorem bind_of_error {m : Outcome ε σ α} {f : α → Outcome ε σ β} {s s' : σ} {e : ε}
    (h : m s = (.error e, s')) : (m >>= f) s = (.error e, s') := by
  change (match m s with | (.ok a, s') => f a s' | (.error e, s') => (.error e, s')) = _
  rw [h]

/-- A sequence fails in its first part or in its second. -/
theorem bind_error {m : Outcome ε σ α} {f : α → Outcome ε σ β} {s s' : σ} {e : ε}
    (h : (m >>= f) s = (.error e, s')) :
    m s = (.error e, s') ∨ ∃ a s₁, m s = (.ok a, s₁) ∧ f a s₁ = (.error e, s') := by
  change (match m s with | (.ok a, s') => f a s' | (.error e, s') => (.error e, s')) = _ at h
  rcases hr : m s with ⟨e' | a, s₁⟩
  · rw [hr] at h
    dsimp only at h
    cases h
    exact .inl rfl
  · rw [hr] at h
    exact .inr ⟨a, s₁, rfl, h⟩

@[simp] theorem pure_error {a : α} {s s' : σ} {e : ε} :
    ¬ (pure a : Outcome ε σ α) s = (.error e, s') := by
  change ¬ ((Except.ok a : Except ε α), s) = _
  simp

@[simp] theorem pure_ok {a b : α} {s s' : σ} :
    (pure a : Outcome ε σ α) s = (.ok b, s') ↔ a = b ∧ s = s' := by
  change ((Except.ok a : Except ε α), s) = _ ↔ _
  simp

@[simp] theorem get_ok {s s' a : σ} :
    (get : Outcome ε σ σ) s = (.ok a, s') ↔ s = a ∧ s = s' := by
  simp [get]

@[simp] theorem modify_ok {f : σ → σ} {s s' : σ} {u : Unit} :
    (modify f : Outcome ε σ Unit) s = (.ok u, s') ↔ f s = s' := by
  simp [modify]

@[simp] theorem ensure_ok {c : Prop} [Decidable c] {e : ε} {s s' : σ} {u : Unit} :
    (ensure c e : Outcome ε σ Unit) s = (.ok u, s') ↔ c ∧ s = s' := by
  unfold ensure
  split_ifs with h <;> simp [h]

@[simp] theorem onFail_ok {e : ε} {f : σ → σ} {m : Outcome ε σ α} {s s' : σ} {a : α} :
    onFail e f m s = (.ok a, s') ↔ m s = (.ok a, s') := by
  unfold onFail
  rcases m s with ⟨_ | _, _⟩ <;> simp

@[simp] theorem failWith_ok {e : ε} {m : Outcome ε σ α} {s s' : σ} {a : α} :
    failWith e m s = (.ok a, s') ↔ m s = (.ok a, s') := onFail_ok

theorem failWith_error {e e' : ε} {m : Outcome ε σ α} {s s' : σ}
    (h : failWith e m s = (.error e', s')) : ∃ e₀, m s = (.error e₀, s') := by
  unfold failWith onFail at h
  rcases hm : m s with ⟨e₀ | a, s₁⟩ <;> rw [hm] at h <;> cases h
  exact ⟨e₀, rfl⟩

end Outcome

end SylixOS.Lib
