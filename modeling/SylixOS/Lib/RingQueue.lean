import Mathlib.Tactic.Common
import Mathlib.Data.List.GetD

/-! # A queue in a ring of cells

The entries of a queue lie one behind the other in a ring of cells, from the head on. The other cells
may hold anything: the queue is known by its head and its length.
-/

namespace SylixOS.Lib.RingQueue
open Function

variable {α : Type*} {n h : ℕ} {c c' : ℕ → α}

/-- The place in a ring of `n` cells that a place less than `n` behind its end stands for. -/
def wrap (n i : ℕ) : ℕ := if i < n then i else i - n

theorem wrap_lt {i : ℕ} (hi : i < 2 * n) : wrap n i < n := by
  unfold wrap
  split_ifs <;> omega

theorem wrap_of_lt {i : ℕ} (hi : i < n) : wrap n i = i := if_pos hi

theorem wrap_self : wrap n n = 0 := by
  unfold wrap
  rw [if_neg (by omega), Nat.sub_self]

/-- The entries in the `k` cells from `h` on. -/
def contents (n h k : ℕ) (c : ℕ → α) : List α := (List.range k).map fun t => c (wrap n (h + t))

/-- The `k` entries from `h` on are changed, one after the other. -/
def visit (n : ℕ) (f : α → α) : ℕ → ℕ → (ℕ → α) → ℕ → α
  | 0, _, c => c
  | k + 1, i, c => visit n f k (wrap n (i + 1)) (update c i (f (c i)))

variable {k i : ℕ} {f : α → α}

@[simp] theorem contents_length : (contents n h k c).length = k := by simp [contents]

theorem contents_congr (hc : ∀ t < k, c' (wrap n (h + t)) = c (wrap n (h + t))) :
    contents n h k c' = contents n h k c :=
  List.map_congr_left fun t ht => hc t (List.mem_range.mp ht)

theorem wrap_inj {s t : ℕ} (hs : s < n) (ht : t < n)
    (heq : wrap n (h + s) = wrap n (h + t)) : s = t := by
  unfold wrap at heq
  split_ifs at heq <;> omega

theorem wrap_eq_mod (hi : i < 2 * n) : wrap n i = i % n := by
  unfold wrap
  split_ifs with hlt
  · exact (Nat.mod_eq_of_lt hlt).symm
  · rw [Nat.mod_eq_sub_mod (by omega), Nat.mod_eq_of_lt (by omega)]

theorem wrap_wrap_add (hh : h < n) (hk : k < n) :
    wrap n (wrap n (h + 1) + k) = wrap n (h + (k + 1)) := by
  unfold wrap
  split_ifs <;> omega

/-- The first entry and the others. -/
theorem contents_pop (hh : h < n) (hk : k < n) :
    contents n h (k + 1) c = c h :: contents n (wrap n (h + 1)) k c := by
  rw [contents, List.range_succ_eq_map, List.map_cons, List.map_map, Nat.add_zero, wrap_of_lt hh]
  refine congrArg (c h :: ·) (List.map_congr_left fun t ht => ?_)
  have ht := List.mem_range.mp ht
  rw [Function.comp_apply, wrap_wrap_add hh (by omega)]

/-- A new entry after the last one. -/
theorem contents_push (hk : k < n) (x : α) :
    contents n h (k + 1) (update c (wrap n (h + k)) x) = contents n h k c ++ [x] := by
  rw [contents, List.range_succ, List.map_append, List.map_singleton, update_self]
  refine congrArg (· ++ [x]) (contents_congr fun t ht => update_of_ne (fun heq => ?_) _ _)
  have := wrap_inj (by omega) hk heq
  omega

theorem wrap_add_wrap {s t : ℕ} (hh : h < n) (hs : s + t ≤ n) :
    wrap n (wrap n (h + s) + t) = wrap n (h + (s + t)) := by
  unfold wrap
  split_ifs <;> omega

/-- The first entries and the others. -/
theorem contents_add {s t : ℕ} (hh : h < n) (hs : s + t ≤ n) :
    contents n h (s + t) c = contents n h s c ++ contents n (wrap n (h + s)) t c := by
  rw [contents, List.range_add, List.map_append, List.map_map]
  refine congrArg _ (List.map_congr_left fun j hj => ?_)
  have hj := List.mem_range.mp hj
  rw [Function.comp_apply, wrap_add_wrap hh (by omega)]

/-- The entries that lie one behind the other without a turn. -/
theorem contents_straight (hk : h + k ≤ n) :
    contents n h k c = (List.range k).map fun t => c (h + t) := by
  refine List.map_congr_left fun t ht => ?_
  have ht := List.mem_range.mp ht
  rw [wrap_of_lt (by omega)]

/-- New entries after the last one. -/
theorem contents_append {l : List α} (hh : h < n) (hk : k + l.length ≤ n)
    (hold : ∀ t < k, c' (wrap n (h + t)) = c (wrap n (h + t)))
    (hnew : ∀ t (ht : t < l.length), c' (wrap n (wrap n (h + k) + t)) = l[t]) :
    contents n h (k + l.length) c' = contents n h k c ++ l := by
  rw [contents_add hh hk, contents_congr hold]
  refine congrArg _ (List.ext_getElem contents_length fun t _ ht => ?_)
  simp only [contents, List.getElem_map, List.getElem_range]
  exact hnew t ht

theorem visit_other (hi : ∀ t < k, wrap n (h + t) ≠ i) (hh : h < n) (hk : k ≤ n) :
    visit n f k h c i = c i := by
  induction k generalizing h c with
  | zero => rfl
  | succ k ih =>
    have h0 : i ≠ h := by
      have := hi 0 (by omega)
      rw [Nat.add_zero, wrap_of_lt hh] at this
      exact this.symm
    rw [visit, ih (fun t ht => ?_) (wrap_lt (by omega)) (by omega), update_of_ne h0]
    rw [wrap_wrap_add hh (by omega)]
    exact hi (t + 1) (by omega)

/-- Each entry of the queue is changed once. -/
theorem contents_visit (hh : h < n) (hk : k ≤ n) :
    contents n h k (visit n f k h c) = (contents n h k c).map f := by
  induction k generalizing h c with
  | zero => rfl
  | succ k ih =>
    have hne (t : ℕ) (ht : t < k) : wrap n (wrap n (h + 1) + t) ≠ h := by
      rw [wrap_wrap_add hh (by omega)]
      unfold wrap
      split_ifs <;> omega
    have hw : wrap n (h + 1) < n := wrap_lt (by omega)
    rw [contents_pop hh (by omega), contents_pop hh (by omega), List.map_cons, visit,
      ih hw (by omega), visit_other hne hw (by omega), update_self]
    refine congrArg (f (c h) :: ·) (congrArg _ (contents_congr fun t ht => ?_))
    exact update_of_ne (hne t ht) _ _

end SylixOS.Lib.RingQueue
