import Mathlib.Data.List.Nodup
import Mathlib.Tactic.Common

/-! # Finding a node of a list

The nodes of a linked list have keys, such as their addresses. The first node with a key is found
together with what stands before it and after it, and so is the node of a place.
-/

namespace SylixOS.Lib

variable {α : Type*}

/-- What stands before the first node with the key, the node, and what stands after it. -/
def cut (key : α → ℕ) (a : ℕ) : List α → Option (List α × α × List α)
  | [] => none
  | x :: xs =>
    if key x = a then some ([], x, xs)
    else (cut key a xs).map fun (l, y, r) => (x :: l, y, r)

variable {key : α → ℕ} {a : ℕ} {l r xs : List α} {x : α}

theorem cut_eq_some (h : cut key a xs = some (l, x, r)) : xs = l ++ x :: r ∧ key x = a := by
  induction xs generalizing l with
  | nil => cases h
  | cons y ys ih =>
    unfold cut at h
    split_ifs at h with hy
    · cases h
      exact ⟨rfl, hy⟩
    · simp only [Option.map_eq_some_iff, Prod.mk.injEq] at h
      obtain ⟨⟨l', y', r'⟩, hc, rfl, rfl, rfl⟩ := h
      obtain ⟨rfl, hkey⟩ := ih hc
      exact ⟨rfl, hkey⟩

theorem cut_append (h : ∀ y ∈ l, key y ≠ key x) : cut key (key x) (l ++ x :: r) = some (l, x, r) := by
  induction l with
  | nil => simp [cut]
  | cons y l ih =>
    rw [List.cons_append, cut, if_neg (h y List.mem_cons_self),
      ih fun z hz => h z (List.mem_cons_of_mem _ hz)]
    rfl

theorem cut_of_nodup (h : ((l ++ x :: r).map key).Nodup) :
    cut key (key x) (l ++ x :: r) = some (l, x, r) := by
  refine cut_append fun y hy heq => ?_
  rw [List.map_append, List.map_cons, List.nodup_append] at h
  exact h.2.2 (key y) (List.mem_map_of_mem hy) (key x) List.mem_cons_self heq

/-- A node is found at its own key. -/
theorem exists_cut (h : (xs.map key).Nodup) (hx : x ∈ xs) :
    ∃ l r, xs = l ++ x :: r ∧ cut key (key x) xs = some (l, x, r) := by
  obtain ⟨l, r, rfl⟩ := List.append_of_mem hx
  exact ⟨l, r, rfl, cut_of_nodup h⟩

/-- A node of a place, with what stands before it and after it when it is replaced. -/
theorem exists_set {i : ℕ} (h : xs[i]? = some x) :
    ∃ l r, xs = l ++ x :: r ∧ ∀ y, xs.set i y = l ++ y :: r := by
  obtain ⟨hi, rfl⟩ := List.getElem?_eq_some_iff.mp h
  refine ⟨xs.take i, xs.drop (i + 1), ?_, fun y => ?_⟩
  · rw [← List.drop_eq_getElem_cons hi, List.take_append_drop]
  · rw [List.set_eq_take_append_cons_drop, if_pos hi]

end SylixOS.Lib
