import Mathlib.Tactic.Common
import Mathlib.Data.List.Basic
import Mathlib.Logic.Function.Basic

/-! # Cells addressed by numbers

A store is a function from addresses to cells. Reading a run of cells gives a list,
writing a list overlays it, and a buffer is patched in place by `splice`. Everything
about byte ranges on a device comes down to these three and to how they commute.
-/

namespace SylixOS.Lib.Store

variable {β : Type*}

/-- The `n` cells from address `a` on. -/
def slice (f : ℕ → β) (a n : ℕ) : List β := (List.range n).map fun i => f (a + i)

/-- The store with the cells from address `a` on replaced by a list. -/
def overlay (f : ℕ → β) (a : ℕ) (l : List β) : ℕ → β := fun x =>
  if a ≤ x then (l[x - a]?).getD (f x) else f x

/-- The list with the cells from position `p` on replaced by another list. -/
def splice (l : List β) (p : ℕ) (d : List β) : List β :=
  l.take p ++ d ++ l.drop (p + d.length)

@[simp] theorem slice_length (f : ℕ → β) (a n : ℕ) : (slice f a n).length = n := by
  simp [slice]

@[simp] theorem slice_zero (f : ℕ → β) (a : ℕ) : slice f a 0 = [] := rfl

theorem slice_getElem? (f : ℕ → β) (a n i : ℕ) :
    (slice f a n)[i]? = if i < n then some (f (a + i)) else none := by
  unfold slice
  by_cases h : i < n <;> simp [h]

theorem slice_congr {f g : ℕ → β} {a n : ℕ} (h : ∀ x, a ≤ x → x < a + n → f x = g x) :
    slice f a n = slice g a n := by
  refine List.map_congr_left fun i hi => h _ (Nat.le_add_right _ _) ?_
  have := List.mem_range.mp hi
  omega

theorem slice_add (f : ℕ → β) (a m n : ℕ) :
    slice f a (m + n) = slice f a m ++ slice f (a + m) n := by
  simp [slice, List.range_add, Function.comp_def, Nat.add_assoc]

theorem slice_succ (f : ℕ → β) (a n : ℕ) :
    slice f a (n + 1) = f a :: slice f (a + 1) n := by
  rw [Nat.add_comm n 1, slice_add]
  rfl

theorem drop_slice (f : ℕ → β) (a n k : ℕ) :
    (slice f a n).drop k = slice f (a + k) (n - k) := by
  apply List.ext_getElem?
  intro i
  simp only [List.getElem?_drop, slice_getElem?, Nat.add_assoc]
  grind

theorem take_slice (f : ℕ → β) (a n k : ℕ) :
    (slice f a n).take k = slice f a (min k n) := by
  apply List.ext_getElem?
  intro i
  simp only [List.getElem?_take, slice_getElem?]
  grind

theorem overlay_eq (f : ℕ → β) (a : ℕ) (l : List β) (x : ℕ) (hx : a ≤ x ∧ x < a + l.length) :
    some (overlay f a l x) = l[x - a]? := by
  have hlt : x - a < l.length := by omega
  simp [overlay, hx.1, List.getElem?_eq_getElem hlt]

theorem overlay_outside (f : ℕ → β) (a : ℕ) (l : List β) (x : ℕ)
    (hx : x < a ∨ a + l.length ≤ x) : overlay f a l x = f x := by
  unfold overlay
  split_ifs with h
  · rw [List.getElem?_eq_none (by omega)]
    rfl
  · rfl

@[simp] theorem overlay_nil (f : ℕ → β) (a : ℕ) : overlay f a [] = f := by
  funext x
  exact overlay_outside f a [] x (by simp only [List.length_nil]; omega)

theorem overlay_append (f : ℕ → β) (a : ℕ) (l r : List β) :
    overlay f a (l ++ r) = overlay (overlay f a l) (a + l.length) r := by
  funext x
  unfold overlay
  by_cases hl : x - a < l.length
  · by_cases ha : a ≤ x
    · rw [if_pos ha, if_neg (by omega), if_pos ha, List.getElem?_append_left hl]
    · rw [if_neg ha, if_neg (by omega), if_neg ha]
  · by_cases ha : a ≤ x
    · rw [if_pos ha, if_pos (by omega), if_pos ha, List.getElem?_append_right (by omega),
        List.getElem?_eq_none (l := l) (by omega)]
      simp [Nat.sub_sub]
    · rw [if_neg ha, if_neg (by omega), if_neg ha]

theorem overlay_singleton (f : ℕ → β) (a : ℕ) (x : β) :
    overlay f a [x] = Function.update f a x := by
  funext y
  rcases eq_or_ne y a with rfl | h
  · simp [overlay]
  · rw [overlay_outside _ _ _ _ (by simp only [List.length_singleton]; omega),
      Function.update_of_ne h]

theorem overlay_cons (f : ℕ → β) (a : ℕ) (x : β) (l : List β) :
    overlay f a (x :: l) = overlay (Function.update f a x) (a + 1) l := by
  rw [← List.singleton_append, overlay_append, overlay_singleton, List.length_singleton]

theorem overlay_congr {f g : ℕ → β} {a : ℕ} {l : List β} {x : ℕ} (h : f x = g x) :
    overlay f a l x = overlay g a l x := by
  unfold overlay
  rw [h]

/-- What was written does not depend on where it was written. -/
theorem overlay_shift {f g : ℕ → β} {l : List β} {a b k : ℕ} (h : k < l.length) :
    overlay f a l (a + k) = overlay g b l (b + k) := by
  apply Option.some.inj
  rw [overlay_eq f a l _ (by omega), overlay_eq g b l _ (by omega), Nat.add_sub_cancel_left,
    Nat.add_sub_cancel_left]

/-- Reading back the run that was just written. -/
theorem slice_overlay_self (f : ℕ → β) (a : ℕ) (l : List β) :
    slice (overlay f a l) a l.length = l := by
  apply List.ext_getElem?
  intro i
  rw [slice_getElem?]
  split_ifs with h
  · rw [overlay_eq _ _ _ _ (by omega), Nat.add_sub_cancel_left]
  · rw [List.getElem?_eq_none (by omega)]

theorem slice_overlay_disjoint (f : ℕ → β) (a : ℕ) (l : List β) (b n : ℕ)
    (h : b + n ≤ a ∨ a + l.length ≤ b) : slice (overlay f a l) b n = slice f b n :=
  slice_congr fun x h₁ h₂ => overlay_outside f a l x (by omega)

@[simp] theorem splice_length (l : List β) (p : ℕ) (d : List β) (h : p + d.length ≤ l.length) :
    (splice l p d).length = l.length := by
  simp only [splice, List.length_append, List.length_take, List.length_drop]
  omega

theorem splice_getElem? (l : List β) (p : ℕ) (d : List β) (h : p + d.length ≤ l.length) (i : ℕ) :
    (splice l p d)[i]? = if p ≤ i ∧ i < p + d.length then d[i - p]? else l[i]? := by
  have hp : (l.take p).length = p := by rw [List.length_take]; omega
  unfold splice
  rcases Nat.lt_or_ge i p with hi | hi
  · rw [if_neg (by omega), List.append_assoc, List.getElem?_append_left (by omega),
      List.getElem?_take_of_lt hi]
  · rcases Nat.lt_or_ge i (p + d.length) with hd | hd
    · rw [if_pos ⟨hi, hd⟩, List.getElem?_append_left (by simp only [List.length_append]; omega),
        List.getElem?_append_right (by omega), hp]
    · rw [if_neg (by omega), List.getElem?_append_right (by simp only [List.length_append]; omega),
        List.getElem?_drop, List.length_append, hp]
      congr 1
      omega

theorem splice_append {a x b d : List β} (h : x.length = d.length) :
    splice (a ++ x ++ b) a.length d = a ++ d ++ b := by
  unfold splice
  rw [List.append_assoc a x b, List.take_left, ← List.drop_drop, List.drop_left, ← h, List.drop_left]

theorem splice_splice (l : List β) (p : ℕ) (d d' : List β) (hd : d.length = d'.length)
    (h : p + d.length ≤ l.length) : splice (splice l p d) p d' = splice l p d' := by
  apply List.ext_getElem?
  intro i
  rw [splice_getElem? _ _ _ (by rw [splice_length _ _ _ h]; omega), splice_getElem? _ _ _ h,
    splice_getElem? _ _ _ (by omega), hd]
  split_ifs <;> rfl

theorem drop_splice_self (l : List β) (p : ℕ) (d : List β) (h : p ≤ l.length) :
    (splice l p d).drop p = d ++ l.drop (p + d.length) := by
  have hp : (l.take p).length = p := by rw [List.length_take]; omega
  rw [splice, List.append_assoc, List.drop_left' hp]

theorem drop_splice_of_ge (l : List β) (p : ℕ) (d : List β) {m : ℕ} (h : p ≤ l.length)
    (hm : p + d.length ≤ m) : (splice l p d).drop m = l.drop m := by
  have hp : (l.take p ++ d).length = p + d.length := by
    rw [List.length_append, List.length_take]
    omega
  obtain ⟨k, rfl⟩ := Nat.exists_eq_add_of_le hm
  rw [splice, ← List.drop_drop, List.drop_left' hp, List.drop_drop]

theorem take_drop_splice_of_le (l : List β) (p : ℕ) (d : List β) {m n : ℕ} (h : p ≤ l.length)
    (hm : m + n ≤ p) : ((splice l p d).drop m).take n = (l.drop m).take n := by
  have hp : (l.take p).length = p := by rw [List.length_take]; omega
  rw [splice, List.append_assoc, List.drop_append_of_le_length (by omega),
    List.take_append_of_le_length (by rw [List.length_drop]; omega), List.drop_take,
    List.take_take, Nat.min_eq_left (by omega)]

/-- Patching a buffer that was read from a store is reading the patched store. -/
theorem splice_slice (f : ℕ → β) (a n p : ℕ) (d : List β) (h : p + d.length ≤ n) :
    splice (slice f a n) p d = slice (overlay f (a + p) d) a n := by
  apply List.ext_getElem?
  intro i
  rw [splice_getElem? _ _ _ (by simpa using h), slice_getElem?, slice_getElem?]
  rcases Nat.lt_or_ge i n with hi | hi
  · rw [if_pos hi, if_pos hi]
    split_ifs with hc
    · rw [overlay_eq _ _ _ _ (by omega), Nat.add_sub_add_left]
    · rw [overlay_outside _ _ _ _ (by omega)]
  · rw [if_neg (by omega), if_neg (by omega), if_neg (by omega)]

/-- Reading a run, patching it and writing it back only writes the patch. -/
theorem overlay_splice_slice (f : ℕ → β) (a n p : ℕ) (d : List β) (h : p + d.length ≤ n) :
    overlay f a (splice (slice f a n) p d) = overlay f (a + p) d := by
  funext x
  rw [splice_slice f a n p d h]
  by_cases hx : a ≤ x ∧ x < a + n
  · apply Option.some.inj
    rw [overlay_eq _ _ _ _ (by simpa using hx), slice_getElem?, if_pos (by omega)]
    congr 2
    omega
  · rw [overlay_outside _ _ _ _ (by rw [slice_length]; omega), overlay_outside _ _ _ _ (by omega)]

/-! ## Runs of sectors

A buffer that holds whole sectors of `S` cells, patched with a run of whole sectors.
-/

theorem sector_index {S k n : ℕ} (hS : 0 < S) (i : ℕ) :
    (k * S ≤ i ∧ i < k * S + n * S) ↔ (k ≤ i / S ∧ i / S < k + n) := by
  rw [Nat.le_div_iff_mul_le hS, Nat.div_lt_iff_lt_mul hS, Nat.add_mul]

/-- Writing whole sectors from sector `k` on changes no other sector. -/
theorem overlay_sectors_outside {S k n : ℕ} (hS : 0 < S) (f : ℕ → β) (l : List β)
    (hl : l.length = n * S) {x : ℕ} (hx : x / S < k ∨ k + n ≤ x / S) :
    overlay f (k * S) l x = f x := by
  refine overlay_outside _ _ _ _ ?_
  have := sector_index (k := k) (n := n) hS x
  omega

theorem splice_sectors {S k n : ℕ} (hS : 0 < S) (buf : List β) (f : ℕ → β) (b : ℕ)
    (h : (k + n) * S ≤ buf.length) (i : ℕ) :
    (splice buf (k * S) (slice f (b * S) (n * S)))[i]? =
      if k ≤ i / S ∧ i / S < k + n then some (f ((b + (i / S - k)) * S + i % S)) else buf[i]? := by
  rw [splice_getElem? _ _ _ (by rw [slice_length, ← Nat.add_mul]; exact h), slice_length]
  simp only [sector_index hS]
  split_ifs with hc
  · rw [slice_getElem?, if_pos (by have := (sector_index (n := n) hS i).mpr hc; omega)]
    congr 2
    obtain ⟨m, hm⟩ := Nat.exists_eq_add_of_le hc.1
    have hi := Nat.div_add_mod' i S
    rw [hm, Nat.add_mul] at hi
    rw [hm, Nat.add_sub_cancel_left, Nat.add_mul]
    omega
  · rfl

end SylixOS.Lib.Store
