import Mathlib.Tactic.Common

/-! # Reachable states

A system is a partial step function on its states. A run may be restricted to steps that meet a
condition on the state before the step, so that a property can be claimed of all runs or only of
those that keep to a condition.
-/

namespace SylixOS.Lib

variable {σ α : Type*}

/-- The states reached from initial ones by steps that all meet the condition `ok`. -/
inductive Reach (next : σ → α → Option σ) (ok : σ → α → Prop) (init : σ → Prop) : σ → Prop where
  | start {s : σ} (h : init s) : Reach next ok init s
  | step {s s' : σ} {a : α} (h : Reach next ok init s) (hok : ok s a) (hs : next s a = some s') :
      Reach next ok init s'

variable {next : σ → α → Option σ} {ok ok' : σ → α → Prop} {init : σ → Prop} {s : σ}

/-- What holds at the start and is kept by every step that meets the condition holds of every
state reached. -/
theorem Reach.invariant {Inv : σ → Prop} (hinit : ∀ s, init s → Inv s)
    (hstep : ∀ s a s', Inv s → ok s a → next s a = some s' → Inv s')
    (h : Reach next ok init s) : Inv s := by
  induction h with
  | start h => exact hinit _ h
  | step h hok hs ih => exact hstep _ _ _ ih hok hs

/-- One more step of a run, with the step named. -/
theorem Reach.extend {s' : σ} (h : Reach next ok init s) (a : α) (hok : ok s a)
    (hs : next s a = some s') : Reach next ok init s' := .step h hok hs

/-- The state after a list of steps. -/
def runs (next : σ → α → Option σ) : σ → List α → Option σ
  | s, [] => some s
  | s, a :: as => (next s a).bind fun s => runs next s as

/-- The end of a list of steps is reached by it. -/
theorem Reach.of_runs {s s' : σ} {as : List α} (h : Reach next (fun _ _ => True) init s)
    (hr : runs next s as = some s') : Reach next (fun _ _ => True) init s' := by
  induction as generalizing s with
  | nil =>
    simp only [runs, Option.some.injEq] at hr
    subst hr
    exact h
  | cons a as ih =>
    simp only [runs, Option.bind_eq_some_iff] at hr
    obtain ⟨s₁, hs, hr⟩ := hr
    exact ih (.step h trivial hs) hr

/-- Every step of a list of steps meets the condition `ok`. -/
def Along (next : σ → α → Option σ) (ok : σ → α → Prop) : σ → List α → Prop
  | _, [] => True
  | s, a :: as => ok s a ∧ ∀ s', next s a = some s' → Along next ok s' as

/-- What a step keeps exactly if it meets the condition is kept by a run exactly if every step does. -/
theorem Along.iff_of_step {Inv P : σ → Prop}
    (hinv : ∀ s a s', Inv s → next s a = some s' → Inv s')
    (hstep : ∀ s a s', Inv s → next s a = some s' → (P s' ↔ P s ∧ ok s a))
    {s s' : σ} {as : List α} (hs : Inv s) (hr : runs next s as = some s') :
    P s' ↔ P s ∧ Along next ok s as := by
  induction as generalizing s with
  | nil =>
    simp only [runs, Option.some.injEq] at hr
    subst hr
    exact (and_iff_left trivial).symm
  | cons a as ih =>
    simp only [runs, Option.bind_eq_some_iff] at hr
    obtain ⟨s₁, hnext, hr⟩ := hr
    rw [ih (hinv s a s₁ hs hnext) hr, hstep s a s₁ hs hnext, Along, and_assoc]
    refine and_congr_right fun _ => and_congr_right fun _ => ⟨fun h s₂ h₂ => ?_, fun h => h s₁ hnext⟩
    rw [hnext] at h₂
    cases h₂
    exact h

/-- Where a step from a state with `P` leads to one with `P` exactly if it meets the condition, a run
stays within such states exactly if every step does. -/
theorem Along.stays_iff {Inv P : σ → Prop}
    (hinv : ∀ s a s', Inv s → next s a = some s' → Inv s')
    (hstep : ∀ s a s', Inv s → P s → next s a = some s' → (P s' ↔ ok s a))
    {s s' : σ} {as : List α} (hs : Inv s) (hP : P s) (hr : runs next s as = some s') :
    Along next (fun s a => ∀ s', next s a = some s' → P s') s as ↔ Along next ok s as := by
  induction as generalizing s with
  | nil => exact Iff.rfl
  | cons a as ih =>
    simp only [runs, Option.bind_eq_some_iff] at hr
    obtain ⟨s₁, hnext, hr⟩ := hr
    have hone {Q : σ → Prop} : (∀ s', next s a = some s' → Q s') ↔ Q s₁ := by simp [hnext]
    rw [Along, Along, hone, hone, hone, hstep s a s₁ hs hP hnext]
    refine and_congr_right fun hok => ?_
    exact ih (hinv s a s₁ hs hnext) ((hstep s a s₁ hs hP hnext).mpr hok) hr

instance Along.decidable [∀ s a, Decidable (ok s a)] :
    ∀ s as, Decidable (Along next ok s as)
  | _, [] => .isTrue trivial
  | s, a :: as =>
    match h : next s a with
    | none => decidable_of_iff (ok s a) (by simp [Along, h])
    | some s' =>
      have := Along.decidable s' as
      decidable_of_iff (ok s a ∧ Along next ok s' as) (by simp [Along, h])

/-- A list of steps that all meet the condition leads from a reachable state to another one. -/
theorem Reach.of_along {s s' : σ} {as : List α} (h : Reach next ok init s)
    (ha : Along next ok s as) (hr : runs next s as = some s') : Reach next ok init s' := by
  induction as generalizing s with
  | nil =>
    simp only [runs, Option.some.injEq] at hr
    subst hr
    exact h
  | cons a as ih =>
    simp only [runs, Option.bind_eq_some_iff] at hr
    obtain ⟨s₁, hs, hr⟩ := hr
    exact ih (.step h ha.1 hs) (ha.2 s₁ hs) hr

theorem runs_append {s : σ} {as bs : List α} :
    runs next s (as ++ bs) = (runs next s as).bind fun s => runs next s bs := by
  induction as generalizing s with
  | nil => rfl
  | cons a as ih =>
    simp only [List.cons_append, runs, Option.bind_assoc]
    congr 1
    funext x
    exact ih

theorem Along.append {s s' : σ} {as bs : List α} (h : Along next ok s (as ++ bs))
    (hr : runs next s as = some s') : Along next ok s as ∧ Along next ok s' bs := by
  induction as generalizing s with
  | nil =>
    simp only [runs, Option.some.injEq] at hr
    subst hr
    exact ⟨trivial, h⟩
  | cons a as ih =>
    simp only [runs, Option.bind_eq_some_iff] at hr
    obtain ⟨s₁, hs, hr⟩ := hr
    obtain ⟨has, hbs⟩ := ih (h.2 s₁ hs) hr
    refine ⟨⟨h.1, fun s₂ hs₂ => ?_⟩, hbs⟩
    rw [hs, Option.some.injEq] at hs₂
    exact hs₂ ▸ has

/-- A condition may be replaced by one that it implies wherever the run comes. -/
theorem Along.of_invariant {P : σ → Prop} {s : σ} {as : List α}
    (hok : ∀ s a, P s → ok s a → ok' s a)
    (hstep : ∀ s a s', P s → ok s a → next s a = some s' → P s') (hs : P s)
    (h : Along next ok s as) : Along next ok' s as := by
  induction as generalizing s with
  | nil => trivial
  | cons a as ih =>
    exact ⟨hok s a hs h.1, fun s' hnext => ih (hstep s a s' hs h.1 hnext) (h.2 s' hnext)⟩

/-- Some step of a list of steps does what `Q` says. -/
def Sometime (next : σ → α → Option σ) (Q : σ → σ → Prop) : σ → List α → Prop
  | _, [] => False
  | s, a :: as => ∃ s', next s a = some s' ∧ (Q s s' ∨ Sometime next Q s' as)

section Sometime
variable {Q : σ → σ → Prop} {s s' : σ} {as bs : List α}

/-- What holds is kept, or the step that ends it comes. -/
theorem Along.keeps_or_sometime {P : σ → Prop}
    (hstep : ∀ s a s', P s → ok s a → next s a = some s' → P s' ∨ Q s s')
    (hs : P s) (h : Along next ok s as) (hr : runs next s as = some s') :
    P s' ∨ Sometime next Q s as := by
  induction as generalizing s with
  | nil =>
    simp only [runs, Option.some.injEq] at hr
    subst hr
    exact .inl hs
  | cons a as ih =>
    simp only [runs, Option.bind_eq_some_iff] at hr
    obtain ⟨s₁, hnext, hr⟩ := hr
    cases hstep s a s₁ hs h.1 hnext with
    | inl hs₁ => exact (ih hs₁ (h.2 s₁ hnext) hr).imp_right fun hq => ⟨s₁, hnext, .inr hq⟩
    | inr hq => exact .inr ⟨s₁, hnext, .inl hq⟩

/-- The state right after the step. -/
theorem Sometime.split (h : Sometime next Q s as) :
    ∃ bs cs x y, as = bs ++ cs ∧ runs next s bs = some y ∧ Q x y := by
  induction as generalizing s with
  | nil => exact h.elim
  | cons a as ih =>
    obtain ⟨s₁, hnext, hq | h⟩ := h
    · exact ⟨[a], as, s, s₁, rfl, by simp [runs, hnext], hq⟩
    · obtain ⟨bs, cs, x, y, rfl, hr, hq⟩ := ih h
      exact ⟨a :: bs, cs, x, y, rfl, by simp [runs, hnext, hr], hq⟩

theorem Sometime.append_right (hr : runs next s as = some s') (h : Sometime next Q s' bs) :
    Sometime next Q s (as ++ bs) := by
  induction as generalizing s with
  | nil =>
    simp only [runs, Option.some.injEq] at hr
    subst hr
    exact h
  | cons a as ih =>
    simp only [runs, Option.bind_eq_some_iff] at hr
    obtain ⟨s₁, hnext, hr⟩ := hr
    exact ⟨s₁, hnext, .inr (ih hr)⟩

theorem Sometime.append_left (h : Sometime next Q s as) : Sometime next Q s (as ++ bs) := by
  induction as generalizing s with
  | nil => exact h.elim
  | cons a as ih =>
    obtain ⟨s₁, hnext, h⟩ := h
    exact ⟨s₁, hnext, h.imp_right ih⟩

instance Sometime.decidable [∀ s s', Decidable (Q s s')] :
    ∀ s as, Decidable (Sometime next Q s as)
  | _, [] => .isFalse id
  | s, a :: as =>
    match h : next s a with
    | none => .isFalse (by simp [Sometime, h])
    | some s' =>
      have := Sometime.decidable s' as
      decidable_of_iff (Q s s' ∨ Sometime next Q s' as) (by simp [Sometime, h])

end Sometime

end SylixOS.Lib
