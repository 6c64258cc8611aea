import Mathlib.Tactic.Common
import Mathlib.Data.List.Basic

/-! # Delta lists

A list of entries that fall due one after the other stores, for each entry, only the time that it
falls due after the entry before it. Adding, removing or ageing an entry then touches one neighbour
at most. The times themselves are the prefix sums, and every operation is described by what it does
to them.
-/

namespace SylixOS.Lib.DeltaList

variable {α : Type*}

/-- An entry, and how long after the entry before it it falls due. -/
structure Entry (α : Type*) where
  key : α
  delta : ℕ
  deriving DecidableEq, Repr

/-- The times of a list whose predecessor falls due at `t`. -/
def times : ℕ → List (Entry α) → List (α × ℕ)
  | _, [] => []
  | t, e :: es => (e.key, t + e.delta) :: times (t + e.delta) es

/-- Adding an entry that falls due after `c`, behind all entries that fall due no later. -/
def insert (k : α) : ℕ → List (Entry α) → List (Entry α)
  | c, [] => [⟨k, c⟩]
  | c, e :: es =>
    if e.delta ≤ c then e :: insert k (c - e.delta) es
    else ⟨k, c⟩ :: { e with delta := e.delta - c } :: es

/-- Giving the first entry more time. -/
def delay (d : ℕ) : List (Entry α) → List (Entry α)
  | [] => []
  | e :: es => { e with delta := e.delta + d } :: es

/-- Removing an entry: its successor takes over its delta. -/
def remove [DecidableEq α] (k : α) : List (Entry α) → List (Entry α)
  | [] => []
  | e :: es => if e.key = k then delay e.delta es else e :: remove k es

/-- Taking a time that has passed off the first entry alone. -/
def advance (d : ℕ) : List (Entry α) → List (Entry α)
  | [] => []
  | e :: es => { e with delta := e.delta - d } :: es

/-- Taking a time that has passed off the list: what is due is dropped, and the first entry that
is not due loses what is left of the time. -/
def expire : ℕ → List (Entry α) → List (Entry α)
  | _, [] => []
  | d, e :: es =>
    if d < e.delta then { e with delta := e.delta - d } :: es else expire (d - e.delta) es

/-- The first entry has as much left as has passed, or nothing falls due later than it. -/
def Covers (d : ℕ) : List (Entry α) → Prop
  | [] => True
  | e :: es => d ≤ e.delta ∨ ∀ m ∈ es, m.delta = 0

instance (d : ℕ) : (es : List (Entry α)) → Decidable (Covers d es)
  | [] => inferInstanceAs (Decidable True)
  | e :: es => inferInstanceAs (Decidable (d ≤ e.delta ∨ ∀ m ∈ es, m.delta = 0))

variable {k : α} {t c d : ℕ} {es : List (Entry α)}

@[simp] theorem times_nil : times t ([] : List (Entry α)) = [] := rfl

theorem times_map_fst : (times t es).map Prod.fst = es.map Entry.key := by
  induction es generalizing t with
  | nil => rfl
  | cons e es ih => simp [times, ih]

/-- No entry falls due before its predecessor. -/
theorem le_times {p : α × ℕ} (hp : p ∈ times t es) : t ≤ p.2 := by
  induction es generalizing t with
  | nil => simp at hp
  | cons e es ih =>
    simp only [times, List.mem_cons] at hp
    cases hp with
    | inl h => simp [h]
    | inr h => exact Nat.le_trans (Nat.le_add_right _ _) (ih h)

/-- A new entry goes between those that fall due no later than it and those that fall due later,
and no time changes. -/
theorem times_insert (k : α) (t c : ℕ) (es : List (Entry α)) :
    ∃ l r, times t es = l ++ r ∧ times t (insert k c es) = l ++ (k, t + c) :: r ∧
      (∀ p ∈ l, p.2 ≤ t + c) ∧ ∀ p ∈ r, t + c < p.2 := by
  induction es generalizing t c with
  | nil => exact ⟨[], [], rfl, rfl, by simp, by simp⟩
  | cons e es ih =>
    by_cases h : e.delta ≤ c
    · have hc : t + e.delta + (c - e.delta) = t + c := by omega
      cases ih (t + e.delta) (c - e.delta) with
      | intro l ih =>
        cases ih with
        | intro r ih =>
          rw [hc] at ih
          refine ⟨(e.key, t + e.delta) :: l, r, ?_, ?_, ?_, ih.2.2.2⟩
          · simp [times, ih.1]
          · simp [insert, h, times, ih.2.1]
          · simpa [h] using ih.2.2.1
    · have hc : t + c + (e.delta - c) = t + e.delta := by omega
      refine ⟨[], times t (e :: es), rfl, ?_, by simp, ?_⟩
      · simp [insert, h, times, hc]
      · intro p hp
        have hle : t + e.delta ≤ p.2 := by
          simp only [times, List.mem_cons] at hp
          cases hp with
          | inl hp => simp [hp]
          | inr hp => exact le_times hp
        omega

/-- Removing an entry takes its time out of the list, and no other time changes. -/
theorem times_remove [DecidableEq α] (hd : (es.map Entry.key).Nodup) :
    times t (remove k es) = (times t es).filter (fun p => p.1 ≠ k) := by
  induction es generalizing t with
  | nil => rfl
  | cons e es ih =>
    simp only [List.map_cons, List.nodup_cons] at hd
    by_cases h : e.key = k
    · subst h
      have hother : ∀ p ∈ times (t + e.delta) es, p.1 ≠ e.key := by
        intro p hp heq
        have hmem := List.mem_map_of_mem (f := Prod.fst) hp
        rw [times_map_fst, heq] at hmem
        exact hd.1 hmem
      have hrest : (times (t + e.delta) es).filter (fun p => p.1 ≠ e.key) =
          times (t + e.delta) es := by
        rw [List.filter_eq_self]
        simpa using hother
      rw [times, List.filter_cons_of_neg (by simp), hrest]
      cases es with
      | nil => simp [remove, delay]
      | cons m ms =>
        have hsum : t + (m.delta + e.delta) = t + e.delta + m.delta := by omega
        simp [remove, delay, times, hsum]
    · rw [remove, if_neg h, times, times, List.filter_cons_of_pos (by simpa using h), ih hd.2]

theorem times_sub (h : d ≤ t) :
    times (t - d) es = (times t es).map fun p => (p.1, p.2 - d) := by
  induction es generalizing t with
  | nil => rfl
  | cons e es ih =>
    have heq : t - d + e.delta = t + e.delta - d := by omega
    simp only [times, List.map_cons, heq]
    rw [ih (by omega)]

/-- When the first entry covers the time that has passed, all times go down by it. -/
theorem times_advance (h : Covers d es) :
    times 0 (advance d es) = (times 0 es).map fun p => (p.1, p.2 - d) := by
  cases es with
  | nil => rfl
  | cons e es =>
    simp only [advance, times, List.map_cons, Nat.zero_add]
    cases h with
    | inl hle => rw [times_sub hle]
    | inr hzero =>
      have hconst : ∀ u, times u es = es.map fun m => (m.key, u) := by
        intro u
        clear e
        induction es generalizing u with
        | nil => rfl
        | cons m ms ih =>
          simp only [List.mem_cons, forall_eq_or_imp] at hzero
          simp [times, hzero.1, ih hzero.2]
      simp [hconst]

/-- Ageing the whole list drops what is due, and all other times go down. -/
theorem times_expire :
    times 0 (expire d es) =
      ((times 0 es).filter fun p => d < p.2).map fun p => (p.1, p.2 - d) := by
  induction es generalizing d with
  | nil => rfl
  | cons e es ih =>
    by_cases h : d < e.delta
    · have hlater : (times (0 + e.delta) es).filter (fun p => d < p.2) = times e.delta es := by
        rw [Nat.zero_add, List.filter_eq_self]
        intro p hp
        have := le_times hp
        simp only [decide_eq_true_eq]
        omega
      rw [expire, if_pos h, times, times, List.filter_cons_of_pos (by simpa using h), hlater,
        List.map_cons, Nat.zero_add, Nat.zero_add, times_sub (by omega)]
    · have hle : e.delta ≤ d := by omega
      rw [expire, if_neg h, ih, times, List.filter_cons_of_neg (by simpa using hle), Nat.zero_add]
      have hback : times 0 es = (times e.delta es).map fun p => (p.1, p.2 - e.delta) := by
        rw [← times_sub (Nat.le_refl _), Nat.sub_self]
      rw [hback, List.filter_map, List.map_map]
      have hfilter : (times e.delta es).filter ((fun p => decide (d - e.delta < p.2)) ∘
          fun p => (p.1, p.2 - e.delta)) = (times e.delta es).filter fun p => d < p.2 := by
        apply List.filter_congr
        intro p hp
        have := le_times hp
        simp only [Function.comp_apply, decide_eq_decide]
        omega
      rw [hfilter]
      apply List.map_congr_left
      intro p hp
      simp only [Function.comp_apply, Prod.mk.injEq, true_and]
      omega

end SylixOS.Lib.DeltaList
