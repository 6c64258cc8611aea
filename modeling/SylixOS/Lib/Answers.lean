import SylixOS.Lib.Reach

/-! # Machines that answer

A machine takes requests one by one and answers each of them. A machine refines another one where
related states give the same answers and go on to related states.
-/

namespace SylixOS.Lib

variable {σ τ α ρ : Type*}

/-- The state after a list of requests, and the answers to them. -/
def answers (step : σ → α → σ × ρ) : σ → List α → σ × List ρ
  | s, [] => (s, [])
  | s, a :: as => ((answers step (step s a).1 as).1, (step s a).2 :: (answers step (step s a).1 as).2)

/-- Requests that are admitted where they are made are answered alike. -/
def Refines (step : σ → α → σ × ρ) (step' : τ → α → τ × ρ) (admits : τ → α → Prop)
    (R : σ → τ → Prop) : Prop :=
  ∀ s t a, R s t → admits t a → R (step s a).1 (step' t a).1 ∧ (step s a).2 = (step' t a).2

/-- All of a list of requests are admitted. -/
def Admits (step' : τ → α → τ × ρ) (admits : τ → α → Prop) : τ → List α → Prop
  | _, [] => True
  | t, a :: as => admits t a ∧ Admits step' admits (step' t a).1 as

instance Admits.decidable {step' : τ → α → τ × ρ} {admits : τ → α → Prop}
    [∀ t a, Decidable (admits t a)] : ∀ t as, Decidable (Admits step' admits t as)
  | _, [] => .isTrue trivial
  | t, a :: as =>
    have : Decidable (Admits step' admits (step' t a).1 as) := Admits.decidable _ as
    inferInstanceAs (Decidable (_ ∧ _))

variable {step : σ → α → σ × ρ} {step' : τ → α → τ × ρ} {admits : τ → α → Prop} {R : σ → τ → Prop}
  {s : σ} {t : τ} {as : List α}

theorem Admits.of_forall (h : ∀ t, ∀ a ∈ as, admits t a) : Admits step' admits t as := by
  induction as generalizing t with
  | nil => trivial
  | cons a as ih =>
    exact ⟨h t a List.mem_cons_self, ih fun t b hb => h t b (.tail a hb)⟩

/-- What every request keeps holds after all of them. -/
theorem answers_invariant {P : σ → Prop} (h : ∀ s a, P s → P (step s a).1) (hs : P s) :
    P (answers step s as).1 := by
  induction as generalizing s with
  | nil => exact hs
  | cons a as ih => exact ih (h s a hs)

/-- A refinement gives the same answers in every run. -/
theorem Refines.answers (h : Refines step step' admits R) (hR : R s t)
    (has : Admits step' admits t as) : R (Lib.answers step s as).1 (Lib.answers step' t as).1 ∧
      (Lib.answers step s as).2 = (Lib.answers step' t as).2 := by
  induction as generalizing s t with
  | nil => exact ⟨hR, rfl⟩
  | cons a as ih =>
    obtain ⟨hR₁, heq⟩ := h s t a hR has.1
    obtain ⟨hR', heqs⟩ := ih hR₁ has.2
    refine ⟨hR', ?_⟩
    rw [Lib.answers, Lib.answers, heq, heqs]

/-- Steps that are admitted where they are made are taken, and lead to related states. -/
theorem runs_of_simulates {next : σ → α → Option σ} {after : τ → α → τ}
    (h : ∀ s t a, R s t → admits t a → ∃ s', next s a = some s' ∧ R s' (after t a)) (hR : R s t)
    (has : Along (fun t a => some (after t a)) admits t as) :
    ∃ s', runs next s as = some s' ∧ R s' (as.foldl after t) := by
  induction as generalizing s t with
  | nil => exact ⟨s, rfl, hR⟩
  | cons a as ih =>
    obtain ⟨s₁, hs₁, hR₁⟩ := h s t a hR has.1
    obtain ⟨s', hs', hR'⟩ := ih hR₁ (has.2 _ rfl)
    exact ⟨s', by rw [runs, hs₁, Option.bind_some, hs'], hR'⟩

/-! ## Requests without a result

A request may lead to no state at all.
-/

/-- The state after a list of requests, and the answers to them, if all have a result. -/
def tries (step : σ → α → Option (σ × ρ)) : σ → List α → Option (σ × List ρ)
  | s, [] => some (s, [])
  | s, a :: as => (step s a).bind fun x => (tries step x.1 as).map fun y => (y.1, x.2 :: y.2)

/-- Requests that are admitted where they are made and meet the condition are answered alike; those
that do not meet it have no result. -/
def RefinesWhere (step : σ → α → Option (σ × ρ)) (step' : τ → α → τ × ρ) (admits : τ → α → Prop)
    (ok : σ → α → Prop) (R : σ → τ → Prop) : Prop :=
  ∀ s t a, R s t → admits t a →
    (ok s a → ∃ s', step s a = some (s', (step' t a).2) ∧ R s' (step' t a).1) ∧
      (¬ ok s a → step s a = none)

section Where
variable {step : σ → α → Option (σ × ρ)} {ok : σ → α → Prop}

/-- Where every request meets the condition, the answers in a run are the same. -/
theorem RefinesWhere.tries (h : RefinesWhere step step' admits ok R) (hR : R s t)
    (has : Admits step' admits t as)
    (hall : Along (fun s a => (step s a).map Prod.fst) ok s as) :
    ∃ s', Lib.tries step s as = some (s', (Lib.answers step' t as).2) ∧
      R s' (Lib.answers step' t as).1 := by
  induction as generalizing s t with
  | nil => exact ⟨s, rfl, hR⟩
  | cons a as ih =>
    obtain ⟨s₁, hs₁, hR₁⟩ := (h s t a hR has.1).1 hall.1
    obtain ⟨s', hs', hR'⟩ := ih hR₁ has.2 (hall.2 s₁ (congrArg (Option.map Prod.fst) hs₁))
    refine ⟨s', ?_, hR'⟩
    rw [Lib.tries, hs₁, Option.bind_some, hs']
    rfl

/-- Where a run has a result, every request meets the condition. -/
theorem RefinesWhere.along (h : RefinesWhere step step' admits ok R) (hR : R s t)
    (has : Admits step' admits t as) {x : σ × List ρ} (hx : Lib.tries step s as = some x) :
    Along (fun s a => (step s a).map Prod.fst) ok s as := by
  induction as generalizing s t x with
  | nil => trivial
  | cons a as ih =>
    obtain ⟨hok, hnot⟩ := h s t a hR has.1
    rw [Lib.tries, Option.bind_eq_some_iff] at hx
    obtain ⟨⟨s₁, r⟩, hs₁, hx⟩ := hx
    have ha : ok s a := by
      by_contra hno
      rw [hnot hno] at hs₁
      cases hs₁
    refine ⟨ha, fun s₂ hs₂ => ?_⟩
    obtain ⟨s', hs', hR₁⟩ := hok ha
    rw [hs'] at hs₁
    cases hs₁
    obtain rfl : s₁ = s₂ := Option.some.inj ((congrArg (Option.map Prod.fst) hs').symm.trans hs₂)
    obtain ⟨y, hy, -⟩ := Option.map_eq_some_iff.mp hx
    exact ih hR₁ has.2 hy

end Where

end SylixOS.Lib
