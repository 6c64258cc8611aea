import Mathlib.Data.List.InsertIdx
import Mathlib.Order.Nat
import Mathlib.Tactic.Common

/-! # A line that is edited

The text of a line with a cursor in it, and what the keys do to them.
-/

namespace SylixOS.Shell

/-- The characters of a line, and the cursor in it. -/
@[ext]
structure InputLine (α : Type*) where
  chars : List α
  cursor : ℕ
  le : cursor ≤ chars.length

namespace InputLine
variable {α : Type*}

/-- With the cursor at its end. -/
def ending (w : List α) : InputLine α := ⟨w, w.length, le_rfl⟩

def AtEnd (l : InputLine α) : Prop := l.cursor = l.chars.length

instance (l : InputLine α) : Decidable l.AtEnd := inferInstanceAs (Decidable (_ = _))

def left (l : InputLine α) : InputLine α := ⟨l.chars, l.cursor - 1, (Nat.sub_le ..).trans l.le⟩

def right (l : InputLine α) : InputLine α :=
  if h : l.cursor < l.chars.length then ⟨l.chars, l.cursor + 1, h⟩ else l

def home (l : InputLine α) : InputLine α := ⟨l.chars, 0, Nat.zero_le _⟩

/-- A character is put in front of the cursor. -/
def insert (c : α) (l : InputLine α) : InputLine α where
  chars := l.chars.insertIdx l.cursor c
  cursor := l.cursor + 1
  le := by
    rw [List.length_insertIdx_of_le_length l.le]
    exact Nat.succ_le_succ l.le

/-- The character at the cursor goes. -/
def delete (l : InputLine α) : InputLine α where
  chars := l.chars.eraseIdx l.cursor
  cursor := l.cursor
  le := by
    have hle := l.le
    rw [List.length_eraseIdx]
    split_ifs <;> omega

/-- The character in front of the cursor goes, if there is one. -/
def backspace (l : InputLine α) : InputLine α := if l.cursor = 0 then l else l.left.delete

variable {l : InputLine α}

theorem insert_atEnd {c : α} (h : l.AtEnd) : (l.insert c).AtEnd := by
  change l.cursor + 1 = (l.chars.insertIdx l.cursor c).length
  rw [List.length_insertIdx_of_le_length l.le, h]

theorem delete_atEnd (h : l.AtEnd) : l.delete.chars = l.chars :=
  List.eraseIdx_of_length_le (Nat.le_of_eq h.symm)

theorem backspace_atEnd (h : l.AtEnd) (hpos : 0 < l.cursor) :
    l.backspace.chars.length = l.chars.length - 1 ∧ l.backspace.AtEnd := by
  have hlen : l.backspace.chars.length = l.chars.length - 1 := by
    unfold backspace
    rw [if_neg (Nat.ne_of_gt hpos)]
    refine List.length_eraseIdx_of_lt ?_
    change l.cursor - 1 < l.chars.length
    have hle := l.le
    omega
  refine ⟨hlen, Eq.trans ?_ hlen.symm⟩
  unfold backspace
  rw [if_neg (Nat.ne_of_gt hpos)]
  exact congrArg (· - 1) h

/-! ## The text before and behind the cursor -/

variable {a b : List α} {c : α}

theorem exists_split (l : InputLine α) : ∃ a b, l.chars = a ++ b ∧ a.length = l.cursor :=
  ⟨l.chars.take l.cursor, l.chars.drop l.cursor, (List.take_append_drop ..).symm,
    List.length_take_of_le l.le⟩

theorem insertIdx_append : (a ++ b).insertIdx a.length c = a ++ c :: b := by
  induction a with
  | nil => rfl
  | cons d a ih =>
    rw [List.cons_append, List.length_cons, List.insertIdx_succ_cons, ih]
    rfl

theorem insert_chars (h : l.chars = a ++ b) (ha : a.length = l.cursor) :
    (l.insert c).chars = a ++ c :: b := by
  change l.chars.insertIdx l.cursor c = _
  rw [h, ← ha]
  exact insertIdx_append

theorem delete_chars (h : l.chars = a ++ c :: b) (ha : a.length = l.cursor) :
    l.delete.chars = a ++ b := by
  change l.chars.eraseIdx l.cursor = _
  rw [h, ← ha, List.eraseIdx_append_of_length_le le_rfl, Nat.sub_self]
  rfl

theorem backspace_chars (h : l.chars = a ++ c :: b) (ha : a.length + 1 = l.cursor) :
    l.backspace.chars = a ++ b ∧ l.backspace.cursor = a.length := by
  have hpos : l.cursor ≠ 0 := by omega
  unfold backspace
  rw [if_neg hpos]
  have hleft : a.length = l.left.cursor := by
    change a.length = l.cursor - 1
    omega
  exact ⟨delete_chars h hleft, hleft.symm⟩

theorem insert_eq_ending (h : l.AtEnd) : l.insert c = .ending (l.chars ++ [c]) := by
  have hchars : (l.insert c).chars = l.chars ++ [c] :=
    insert_chars (List.append_nil _).symm h.symm
  refine InputLine.ext hchars ?_
  change l.cursor + 1 = (l.chars ++ [c]).length
  rw [h, List.length_append]
  rfl

/-- The cursor is not at the end. -/
theorem exists_at_cursor (h : l.cursor < l.chars.length) :
    ∃ a c b, l.chars = a ++ c :: b ∧ a.length = l.cursor := by
  obtain ⟨a, b, hab, ha⟩ := l.exists_split
  cases b with
  | nil =>
    rw [hab, List.append_nil] at h
    omega
  | cons c b => exact ⟨a, c, b, hab, ha⟩

/-- The cursor is not at the start. -/
theorem exists_before_cursor (h : 0 < l.cursor) :
    ∃ a c b, l.chars = a ++ c :: b ∧ a.length + 1 = l.cursor := by
  have hle := l.le
  obtain ⟨a, c, b, hab, ha⟩ := l.left.exists_at_cursor (by change l.cursor - 1 < l.chars.length; omega)
  refine ⟨a, c, b, hab, ?_⟩
  rw [ha]
  exact Nat.sub_add_cancel h

end InputLine

end SylixOS.Shell
