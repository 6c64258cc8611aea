import Mathlib.Data.List.Basic
import Mathlib.Tactic.Common

/-! # Strings with a common prefix

The strings of a list that start with a letter, without this letter, are again a list of strings.
Taking one letter after the other gives what is left of the strings with a given prefix.
-/

namespace SylixOS.Lib

variable {α : Type*} [DecidableEq α]

/-- What is behind the letter in the strings that start with it. -/
def tailsOf (c : α) (ws : List (List α)) : List (List α) :=
  ws.filterMap fun w =>
    match w with
    | [] => none
    | d :: w => if d = c then some w else none

/-- What is behind the prefix in the strings that start with it. -/
def suffixes (p : List α) (ws : List (List α)) : List (List α) := p.foldl (fun ws c => tailsOf c ws) ws

/-- The number of strings that start with the prefix. -/
def through (ws : List (List α)) (p : List α) : ℕ := ws.countP fun w => p <+: w

variable {c d : α} {w p q : List α} {ws vs : List (List α)}

@[simp] theorem tailsOf_nil : tailsOf c ([] : List (List α)) = [] := rfl

@[simp] theorem tailsOf_cons_nil : tailsOf c ([] :: ws) = tailsOf c ws := rfl

@[simp] theorem tailsOf_cons_self : tailsOf c ((c :: w) :: ws) = w :: tailsOf c ws := by
  simp [tailsOf]

theorem tailsOf_cons_of_ne (h : d ≠ c) : tailsOf c ((d :: w) :: ws) = tailsOf c ws := by
  simp [tailsOf, h]

@[simp] theorem tailsOf_append : tailsOf c (ws ++ vs) = tailsOf c ws ++ tailsOf c vs :=
  List.filterMap_append

@[simp] theorem suffixes_nil : suffixes [] ws = ws := rfl

@[simp] theorem suffixes_cons : suffixes (c :: p) ws = suffixes p (tailsOf c ws) := rfl

@[simp] theorem mem_tailsOf : w ∈ tailsOf c ws ↔ c :: w ∈ ws := by
  induction ws with
  | nil => simp
  | cons v ws ih =>
    cases v with
    | nil => simp [ih]
    | cons d v =>
      by_cases h : d = c
      · subst h
        simp [ih]
      · simp [tailsOf_cons_of_ne h, ih, Ne.symm h]

@[simp] theorem mem_suffixes : w ∈ suffixes p ws ↔ p ++ w ∈ ws := by
  induction p generalizing ws with
  | nil => rfl
  | cons c p ih => simp [ih]

theorem through_tailsOf : through (tailsOf c ws) p = through ws (c :: p) := by
  induction ws with
  | nil => rfl
  | cons v ws ih =>
    unfold through at ih ⊢
    cases v with
    | nil => simp [ih]
    | cons d v =>
      by_cases h : d = c
      · subst h
        simp [ih, List.countP_cons]
      · simp [tailsOf_cons_of_ne h, ih, Ne.symm h]

theorem length_suffixes : (suffixes p ws).length = through ws p := by
  induction p generalizing ws with
  | nil => simp [through]
  | cons c p ih => rw [suffixes_cons, ih, through_tailsOf]

/-- Some string starts with the prefix exactly if something is left behind it. -/
theorem suffixes_eq_nil : suffixes p ws = [] ↔ ∀ w ∈ ws, ¬ p <+: w := by
  constructor
  · rintro h w hw ⟨r, rfl⟩
    have := mem_suffixes.mpr hw
    rw [h] at this
    cases this
  · intro h
    refine List.eq_nil_iff_forall_not_mem.mpr fun w hw => ?_
    exact h _ (mem_suffixes.mp hw) (List.prefix_append p w)

end SylixOS.Lib
