import Mathlib.Tactic.Common

/-! # Named edges

A directed graph with at most one edge of a name out of each node. A path of names is walked as far as
there are edges. Walks are compared in two graphs that differ in single edges. -/

namespace SylixOS.Lib

/-- Where a walk is: the edge it has come by last, and the node. -/
structure Place (ι ν : Type*) where
  edge : Option (ι × ν)
  node : ι
  deriving DecidableEq

namespace Edges
variable {ι ν : Type*}

/-- The place where the walk ends, with the names that are left over. -/
def walk (find : ι → ν → Option ι) : Place ι ν → List ν → Place ι ν × List ν
  | e, [] => (e, [])
  | e, c :: p =>
    match find e.node c with
    | none => (e, c :: p)
    | some i => walk find ⟨some (e.node, c), i⟩ p

/-- A walk uses an edge. -/
def Passes (find : ι → ν → Option ι) (k : ι × ν) : ι → List ν → Prop
  | _, [] => False
  | d, c :: p =>
    match find d c with
    | none => False
    | some i => (d, c) = k ∨ Passes find k i p

instance decidablePasses [DecidableEq ι] [DecidableEq ν] (find : ι → ν → Option ι) (k : ι × ν) :
    (d : ι) → (p : List ν) → Decidable (Passes find k d p)
  | _, [] => inferInstanceAs (Decidable False)
  | d, c :: p =>
    match h : find d c with
    | none => isFalse (by simp [Passes, h])
    | some i =>
      have := decidablePasses find k i p
      decidable_of_iff ((d, c) = k ∨ Passes find k i p) (by simp [Passes, h])

variable {find find' : ι → ν → Option ι} {e e' : Place ι ν} {k : ι × ν} {p rest : List ν} {d : ι} {c : ν}

/-- A walk goes on from where it is. -/
theorem walk_append (p q : List ν) (h : walk find e p = (e', [])) :
    walk find e (p ++ q) = walk find e' q := by
  induction p generalizing e with
  | nil =>
    cases h
    rfl
  | cons c p ih =>
    rw [walk] at h
    rw [List.cons_append, walk]
    cases hc : find e.node c with
    | none =>
      rw [hc] at h
      cases h
    | some i =>
      rw [hc] at h
      exact ih h

/-- What is left over begins with a name that is missing. -/
theorem walk_rest (h : walk find e p = (e', c :: rest)) : find e'.node c = none ∧
    ∃ q, p = q ++ c :: rest ∧ walk find e q = (e', []) := by
  induction p generalizing e with
  | nil => cases h
  | cons b p ih =>
    rw [walk] at h
    cases hb : find e.node b with
    | none =>
      rw [hb] at h
      cases h
      exact ⟨hb, [], rfl, rfl⟩
    | some i =>
      rw [hb] at h
      obtain ⟨hnone, q, rfl, hq⟩ := ih h
      refine ⟨hnone, b :: q, rfl, ?_⟩
      rw [walk, hb]
      exact hq

/-- A path that is not empty and walked to its end comes by an edge that exists. -/
theorem walk_edge (hp : p ≠ []) (h : walk find e p = (e', [])) :
    ∃ d c, e'.edge = some (d, c) ∧ find d c = some e'.node := by
  induction p generalizing e with
  | nil => exact absurd rfl hp
  | cons b p ih =>
    rw [walk] at h
    cases hb : find e.node b with
    | none =>
      rw [hb] at h
      cases h
    | some i =>
      rw [hb] at h
      cases p with
      | nil =>
        cases h
        exact ⟨_, _, rfl, hb⟩
      | cons _ _ => exact ih (List.cons_ne_nil _ _) h

/-- In a graph that has lost one edge, a walk that does not pass it is the same. -/
theorem walk_of_agree (hagree : ∀ d c i, find d c = some i → (d, c) ≠ k → find' d c = some i)
    (hpass : ¬ Passes find k e.node p) (h : walk find e p = (e', [])) :
    walk find' e p = (e', []) := by
  induction p generalizing e with
  | nil => exact h
  | cons c p ih =>
    rw [walk] at h
    rw [Passes] at hpass
    cases hc : find e.node c with
    | none =>
      rw [hc] at h
      cases h
    | some i =>
      rw [hc] at h
      simp only [hc, not_or] at hpass
      rw [walk, hagree _ _ _ hc hpass.1]
      exact ih hpass.2 h

/-- A walk that passes it ends there. -/
theorem walk_of_passes (hagree : ∀ d c i, find d c = some i → (d, c) ≠ k → find' d c = some i)
    (hgone : find' k.1 k.2 = none) (hpass : Passes find k e.node p) : (walk find' e p).2 ≠ [] := by
  induction p generalizing e with
  | nil => exact hpass.elim
  | cons c p ih =>
    rw [Passes] at hpass
    cases hc : find e.node c with
    | none =>
      rw [hc] at hpass
      exact hpass.elim
    | some i =>
      simp only [hc] at hpass
      by_cases hk : (e.node, c) = k
      · subst hk
        rw [walk, hgone]
        exact List.cons_ne_nil _ _
      · rw [walk, hagree _ _ _ hc hk]
        exact ih (hpass.resolve_left hk)

theorem Passes.append (q : List ν) (h : walk find e p = (e', [])) :
    Passes find k e.node (p ++ q) ↔ Passes find k e.node p ∨ Passes find k e'.node q := by
  induction p generalizing e with
  | nil =>
    cases h
    simp [Passes]
  | cons c p ih =>
    rw [walk] at h
    cases hc : find e.node c with
    | none =>
      rw [hc] at h
      cases h
    | some i =>
      rw [hc] at h
      have := ih h
      simp only [List.cons_append, Passes, hc, or_assoc] at this ⊢
      rw [this]

end Edges
end SylixOS.Lib
