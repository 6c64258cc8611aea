import Mathlib.Logic.Relation
import Mathlib.Tactic.Common

/-! # Waiting without cycles

A relation says who waits for whom. A new wait closes no cycle if no chain of waits leads back from
the one waited for. Where everyone waits for at most one other, such a chain is found by following
it for a bounded number of waits.
-/

namespace SylixOS.Lib
open Relation

variable {κ : Type*} {r r' : κ → κ → Prop} {a b : κ}

/-- Nobody waits for itself, however many others are between. -/
def Acyclic (r : κ → κ → Prop) : Prop := ∀ a, ¬ TransGen r a a

theorem Acyclic.mono (h : Acyclic r) (hle : ∀ a b, r' a b → r a b) : Acyclic r' := fun a hc =>
  h a (TransGen.mono hle _ _ hc)

theorem Acyclic.insert (h : Acyclic r) (hne : a ≠ b) (hback : ¬ TransGen r b a)
    (hnew : ∀ x y, r' x y → r x y ∨ (x = a ∧ y = b)) : Acyclic r' := by
  -- A chain of the new relation either is one of the old, or goes from a to b on its way.
  have hsplit (x y : κ) (hxy : TransGen r' x y) :
      TransGen r x y ∨ (ReflTransGen r x a ∧ ReflTransGen r b y) := by
    induction hxy with
    | single hxy =>
      rcases hnew _ _ hxy with hr | ⟨rfl, rfl⟩
      · exact .inl (.single hr)
      · exact .inr ⟨.refl, .refl⟩
    | tail _ hyz ih =>
      rcases hnew _ _ hyz with hr | ⟨rfl, rfl⟩
      · rcases ih with ih | ⟨hxa, hby⟩
        · exact .inl (ih.tail hr)
        · exact .inr ⟨hxa, hby.tail hr⟩
      · rcases ih with ih | ⟨hxa, -⟩
        · exact .inr ⟨ih.to_reflTransGen, .refl⟩
        · exact .inr ⟨hxa, .refl⟩
  intro x hc
  rcases hsplit x x hc with hr | ⟨hxa, hbx⟩
  · exact h x hr
  · rcases reflTransGen_iff_eq_or_transGen.mp (hbx.trans hxa) with heq | hba
    · exact hne heq
    · exact hback hba

variable [DecidableEq κ]

/-- Does the chain of waits from here lead to the target? A chain that is too long counts as one that
does. -/
def follow (next : κ → Option κ) (target : κ) : ℕ → κ → Bool
  | 0, _ => true
  | n + 1, p =>
    match next p with
    | none => false
    | some q => if q = target then true else follow next target n q

theorem follow_eq_false {next : κ → Option κ} {target p : κ} {n : ℕ}
    (hnext : ∀ p q, r p q → next p = some q) (h : follow next target n p = false) :
    ¬ TransGen r p target := by
  intro hc
  induction n generalizing p with
  | zero => cases h
  | succ n ih =>
    obtain ⟨q, hpq, hq⟩ := TransGen.head'_iff.mp hc
    rw [follow, hnext p q hpq] at h
    by_cases heq : q = target
    · simp [heq] at h
    · simp only [if_neg heq] at h
      rcases reflTransGen_iff_eq_or_transGen.mp hq with he | hq
      · exact heq he.symm
      · exact ih h hq

end SylixOS.Lib
