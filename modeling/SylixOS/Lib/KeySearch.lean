import Mathlib.Data.List.GetD
import Mathlib.Order.Nat
import Mathlib.Tactic.Common

/-! # Binary search

A search through keys in ascending order that stops at an equal key, or ends between two keys. -/

namespace SylixOS.Lib

/-- The loop: `low` has a key below `k`, `high` is the end or has a key above it. -/
def searchLoop (key : ℕ → ℕ) (k : ℕ) (insert : Bool) : ℕ → ℕ → ℕ → ℕ × Bool
  | 0, low, high => (if insert then high else low, false)
  | fuel + 1, low, high =>
    if low + 1 < high then
      let mid := (low + high) / 2
      if k = key mid then (mid, true)
      else if key mid < k then searchLoop key k insert fuel mid high
      else searchLoop key k insert fuel low mid
    else (if insert then high else low, false)

/-- The search: where a key is to be inserted, or the last place whose key is not above it, and whether
there is an equal key. -/
def keySearch (keys : List ℕ) (k : ℕ) (insert : Bool) : ℕ × Bool :=
  match keys with
  | [] => (0, false)
  | k₀ :: _ =>
    if k ≤ k₀ then (0, k = k₀)
    else searchLoop (fun i => keys.getD i 0) k insert keys.length 0 keys.length

variable {key : ℕ → ℕ} {keys l r : List ℕ} {k k₀ n i fuel low high : ℕ} {insert b : Bool}

/-- What a search has found at a place: an equal key, the place to insert, or the last key below. -/
inductive Found (key : ℕ → ℕ) (n k : ℕ) : Bool → ℕ × Bool → Prop where
  | equal {insert : Bool} {i : ℕ} (hi : i < n) (hk : key i = k) : Found key n k insert (i, true)
  | insert {i : ℕ} (hi : i ≤ n) (hl : ∀ j < i, key j < k) (hr : ∀ j, i ≤ j → j < n → k < key j) :
      Found key n k true (i, false)
  | floor {i : ℕ} (hi : i < n) (hk : key i < k) (hr : ∀ j, i < j → j < n → k < key j) :
      Found key n k false (i, false)

variable (hmono : ∀ i j, i < j → j < n → key i < key j)
include hmono

theorem found_end (hle : high ≤ low + 1) (hlow : low < high) (hhigh : high ≤ n) (hlk : key low < k)
    (hhk : ∀ j, high ≤ j → j < n → k < key j) :
    Found key n k insert (if insert then high else low, false) := by
  cases insert with
  | true =>
    rw [if_pos rfl]
    refine .insert hhigh (fun j hj => ?_) hhk
    rcases Nat.lt_or_ge j low with hj' | hj'
    · exact (hmono j low hj' (by omega)).trans hlk
    · rw [show j = low by omega]
      exact hlk
  | false =>
    rw [if_neg Bool.false_ne_true]
    exact .floor (by omega) hlk fun j hj hjn => hhk j (by omega) hjn

theorem searchLoop_found (hfuel : high ≤ low + fuel) (hlow : low < high) (hhigh : high ≤ n)
    (hlk : key low < k) (hhk : ∀ j, high ≤ j → j < n → k < key j) :
    Found key n k insert (searchLoop key k insert fuel low high) := by
  induction fuel generalizing low high with
  | zero => exact absurd hlow (by omega)
  | succ fuel ih =>
    rw [searchLoop]
    by_cases hlt : low + 1 < high
    · have hmid : low < (low + high) / 2 ∧ (low + high) / 2 < high := by omega
      simp only [if_pos hlt]
      generalize (low + high) / 2 = mid at hmid ⊢
      by_cases heq : k = key mid
      · rw [if_pos heq]
        exact .equal (by omega) heq.symm
      · rw [if_neg heq]
        by_cases hmk : key mid < k
        · rw [if_pos hmk]
          exact ih (by omega) hmid.2 hhigh hmk hhk
        · rw [if_neg hmk]
          refine ih (by omega) hmid.1 (by omega) hlk fun j hj hjn => ?_
          rcases Nat.lt_or_ge mid j with hmj | hmj
          · have := hmono mid j hmj hjn
            omega
          · rw [show j = mid by omega]
            omega
    · rw [if_neg hlt]
      exact found_end hmono (by omega) hlow hhigh hlk hhk

omit hmono

variable (hs : keys.Pairwise (· < ·))
include hs

theorem getD_strictMono : ∀ i j, i < j → j < keys.length → keys.getD i 0 < keys.getD j 0 := by
  intro i j hij hj
  rw [List.getD_eq_getElem _ _ hj, List.getD_eq_getElem _ _ (hij.trans hj)]
  exact List.pairwise_iff_getElem.mp hs i j (hij.trans hj) hj hij

theorem keySearch_found (hk : k₀ < k) (hkeys : keys.head? = some k₀) :
    Found (fun i => keys.getD i 0) keys.length k insert (keySearch keys k insert) := by
  cases keys with
  | nil => cases hkeys
  | cons a t =>
    simp only [List.head?_cons, Option.some.injEq] at hkeys
    subst hkeys
    rw [keySearch, if_neg (by omega)]
    refine searchLoop_found (getD_strictMono hs) (by omega) (by simp) le_rfl (by simpa using hk) ?_
    intro j hj hjn
    omega

/-- The place that is found when nothing is to be inserted has the last key that is not above. -/
theorem keySearch_floor (hne : keys ≠ []) : ∃ l k' r, keys = l ++ k' :: r ∧
    (keySearch keys k false).1 = l.length ∧ (l = [] ∨ k' ≤ k) ∧ (∀ x ∈ r, k < x) ∧
    ((keySearch keys k false).2 = true ↔ k' = k) := by
  obtain ⟨k₀, t, rfl⟩ := List.exists_cons_of_ne_nil hne
  rcases Nat.lt_or_ge k₀ k with hlt | hge
  · have hf : Found _ _ _ _ (keySearch (k₀ :: t) k false) := keySearch_found hs hlt rfl
    generalize keySearch (k₀ :: t) k false = res at hf
    have hsplit (i : ℕ) (hi : i < (k₀ :: t).length) : k₀ :: t =
        (k₀ :: t).take i ++ (k₀ :: t).getD i 0 :: (k₀ :: t).drop (i + 1) := by
      rw [List.getD_eq_getElem _ _ hi, ← List.drop_eq_getElem_cons, List.take_append_drop]
    have hdrop (i : ℕ) (hr : ∀ j, i < j → j < (k₀ :: t).length → k < (k₀ :: t).getD j 0) :
        ∀ x ∈ (k₀ :: t).drop (i + 1), k < x := by
      intro x hx
      obtain ⟨j, hj, rfl⟩ := List.getElem_of_mem hx
      rw [List.length_drop] at hj
      rw [List.getElem_drop, ← List.getD_eq_getElem _ 0]
      exact hr _ (by omega) (by omega)
    cases hf with
    | @equal _ i hi hk =>
      refine ⟨_, _, _, hsplit i hi, (List.length_take_of_le hi.le).symm, .inr hk.le, ?_, iff_of_true rfl hk⟩
      refine hdrop i fun j hj hjn => ?_
      rw [← hk]
      exact getD_strictMono hs i j hj hjn
    | @floor i hi hk hr =>
      exact ⟨_, _, _, hsplit i hi, (List.length_take_of_le hi.le).symm, .inr hk.le, hdrop i hr, by
        simp only [Bool.false_eq_true, false_iff]
        exact hk.ne⟩
  · refine ⟨[], k₀, t, rfl, by simp [keySearch, hge], .inl rfl, fun x hx => ?_, ?_⟩
    · have := List.rel_of_pairwise_cons hs hx
      omega
    · simp [keySearch, hge, eq_comm]

/-- Where a key is to be inserted that is not there. -/
theorem keySearch_insert (h : (keySearch keys k true).2 = false) : ∃ l r, keys = l ++ r ∧
    (keySearch keys k true).1 = l.length ∧ (∀ x ∈ l, x < k) ∧ ∀ x ∈ r, k < x := by
  cases keys with
  | nil => exact ⟨[], [], rfl, rfl, by simp, by simp⟩
  | cons k₀ t =>
    rcases Nat.lt_or_ge k₀ k with hlt | hge
    · have hf : Found _ _ _ _ (keySearch (k₀ :: t) k true) := keySearch_found hs hlt rfl
      generalize keySearch (k₀ :: t) k true = res at hf h
      cases hf with
      | equal hi hk => cases h
      | @insert i hi hl hr =>
        refine ⟨(k₀ :: t).take i, (k₀ :: t).drop i, (List.take_append_drop _ _).symm,
          (List.length_take_of_le hi).symm, fun x hx => ?_, fun x hx => ?_⟩
        · obtain ⟨j, hj, rfl⟩ := List.getElem_of_mem hx
          rw [List.length_take] at hj
          rw [List.getElem_take, ← List.getD_eq_getElem _ 0]
          exact hl j (by omega)
        · obtain ⟨j, hj, rfl⟩ := List.getElem_of_mem hx
          rw [List.length_drop] at hj
          rw [List.getElem_drop, ← List.getD_eq_getElem _ 0]
          exact hr _ (by omega) (by omega)
    · have hne : k ≠ k₀ := by simpa [keySearch, hge] using h
      refine ⟨[], k₀ :: t, rfl, by simp [keySearch, hge], by simp, fun x hx => ?_⟩
      rcases List.mem_cons.mp hx with rfl | hx
      · omega
      · have := List.rel_of_pairwise_cons hs hx
        omega

/-- An insertion is refused only where there is an equal key. -/
theorem keySearch_mem (h : (keySearch keys k true).2 = true) : k ∈ keys := by
  cases keys with
  | nil => cases h
  | cons k₀ t =>
    rcases Nat.lt_or_ge k₀ k with hlt | hge
    · have hf : Found _ _ _ _ (keySearch (k₀ :: t) k true) := keySearch_found hs hlt rfl
      generalize keySearch (k₀ :: t) k true = res at hf h
      cases hf with
      | @equal _ i hi hk =>
        rw [← hk]
        simp only [List.getD_eq_getElem _ _ hi]
        exact List.getElem_mem hi
      | insert hi hl hr => cases h
    · have heq : k = k₀ := by simpa [keySearch, hge] using h
      simp [heq]

end SylixOS.Lib
