import Mathlib.Algebra.Order.Ring.Int
import Mathlib.Tactic.Ring
import SylixOS.Shell.IfStatement

/-! # The comparison of an `if` condition

At the end of a condition its operands are compared. The loop over two strings looks at the first
characters only: when these are the same, it does not move on and has no end. A number is summed up from
its characters with 32 bits, and a sign is one of these characters. -/

namespace SylixOS.Shell
namespace IfState

/-! ## Strings -/

/-- The loop over two strings with `answer`, which `continue` brings back to the same characters, and
what is done behind it. -/
def stringLoop : ℕ → Text → Text → Option Ordering
  | 0, _, _ => none
  | fuel + 1, l :: left, r :: right =>
    if l = r then stringLoop fuel (l :: left) (r :: right) else some (if l < r then .lt else .gt)
  | _ + 1, _ :: _, [] => some .gt
  | _ + 1, [], _ :: _ => some .lt
  | _ + 1, [], [] => some .eq

/-- The loop has an end exactly when the first characters are not the same. -/
theorem stringLoop_eq (left right : Text) (fuel : ℕ) :
    stringLoop (fuel + 1) left right = compareString left right := by
  rcases left with _ | ⟨l, left⟩ <;> rcases right with _ | ⟨r, right⟩
  · rfl
  · rfl
  · rfl
  · by_cases hlr : l = r
    · subst hlr
      rw [compareString, if_pos rfl]
      induction fuel with
      | zero => simp [stringLoop]
      | succ fuel ih => rw [stringLoop, if_pos rfl, ih]
    · rw [stringLoop, compareString, if_neg hlr, if_neg hlr]
      split_ifs <;> rfl

/-- Strings in lexicographic order. -/
def lexOrder (l r : Text) : Ordering := if l = r then .eq else if l < r then .lt else .gt

theorem compareString_eq (l r : Text) :
    compareString l r = if l.head? = r.head? → l = [] then some (lexOrder l r) else none := by
  rcases l with _ | ⟨a, l⟩ <;> rcases r with _ | ⟨b, r⟩
  · simp [compareString, lexOrder]
  · simp [compareString, lexOrder]
  · simp [compareString, lexOrder]
  · by_cases hab : a = b
    · simp [compareString, hab]
    · rw [if_pos (by simp [hab])]
      simp only [compareString, lexOrder, hab, List.cons_lt_cons_iff, List.cons.injEq, false_and,
        or_false, if_false]
      split_ifs <;> rfl

/-! ## Numbers -/

/-- The sum of the digits, without a bound. -/
def digitSum (z : ℤ) (t : Text) : ℤ := t.foldl (fun n c => n * 10 + ((c.toNat : ℤ) - '0'.toNat)) z

theorem digitSum_cons (z : ℤ) (c : Char) (t : Text) :
    digitSum z (c :: t) = digitSum (z * 10 + ((c.toNat : ℤ) - '0'.toNat)) t := rfl

theorem number_eq_digitSum (t : Text) : number t = (digitSum 0 t).bmod (2 ^ 32) := by
  have h : ∀ z, t.foldl (fun n c => (n * 10 + ((c.toNat : ℤ) - '0'.toNat)).bmod (2 ^ 32))
      (Int.bmod z (2 ^ 32)) = (digitSum z t).bmod (2 ^ 32) := by
    induction t with
    | nil => exact fun _ => rfl
    | cons c t ih =>
      intro z
      rw [List.foldl_cons, digitSum_cons, ← ih, ← Int.bmod_add_bmod, Int.bmod_mul_bmod,
        Int.bmod_add_bmod]
  exact h 0

theorem digitSum_start (z : ℤ) (t : Text) : digitSum z t = z * 10 ^ t.length + digitSum 0 t := by
  induction t generalizing z with
  | nil => simp [digitSum]
  | cons c t ih =>
    rw [digitSum_cons, digitSum_cons, ih, ih (0 * 10 + _), List.length_cons, pow_succ]
    ring

theorem digitSum_digits {t : Text} {n : ℕ} (h : digitsValue t = some n) : digitSum 0 t = n := by
  have hsum : ∀ (t : Text) (k : ℕ), t.all Char.isDigit = true →
      digitSum k t = (t.foldl (fun n c => n * 10 + (c.toNat - '0'.toNat)) k : ℕ) := by
    intro t
    induction t with
    | nil => exact fun _ _ => rfl
    | cons c t ih =>
      intro k hall
      rw [List.all_cons, Bool.and_eq_true] at hall
      have hdigit : '0'.toNat ≤ c.toNat := by
        have h := hall.1
        simp only [Char.isDigit, Bool.and_eq_true, decide_eq_true_eq] at h
        exact h.1
      rw [digitSum_cons, List.foldl_cons, ← ih _ hall.2, Nat.cast_add, Nat.cast_mul, Nat.cast_sub hdigit]
      rfl
  unfold digitsValue at h
  split_ifs at h with hall
  rw [← Option.some.inj h]
  exact hsum t 0 hall.2

/-- What a number is read as: a sign in front of `k` digits is read as `-3 * 10 ^ k`, and the sum has 32
bits. -/
def readAs (t : Text) (n : ℤ) : ℤ :=
  (if t.head? = some '-' then -n - 3 * 10 ^ (t.length - 1) else n).bmod (2 ^ 32)

theorem intValue_sign (t : Text) : intValue ('-' :: t) = (digitsValue t).map fun k : ℕ => (-k : ℤ) := by
  cases h : digitsValue t <;> simp [intValue, h]

theorem intValue_digits {t : Text} (hsign : t.head? ≠ some '-') :
    intValue t = (digitsValue t).map fun k : ℕ => (k : ℤ) := by
  unfold intValue
  split
  · exact absurd rfl hsign
  · cases h : digitsValue t <;> simp

theorem number_eq_readAs {t : Text} {n : ℤ} (h : intValue t = some n) : number t = readAs t n := by
  rw [number_eq_digitSum]
  unfold readAs
  by_cases hsign : t.head? = some '-'
  · obtain ⟨t, rfl⟩ := List.head?_eq_some_iff.mp hsign
    rw [if_pos hsign]
    rw [intValue_sign] at h
    obtain ⟨k, hk, rfl⟩ := Option.map_eq_some_iff.mp h
    rw [digitSum_cons, digitSum_start, digitSum_digits hk]
    have hminus : ((0 : ℤ) * 10 + (('-'.toNat : ℤ) - '0'.toNat)) = -3 := by decide
    rw [hminus, List.length_cons, Nat.add_sub_cancel]
    congr 1
    ring
  · rw [if_neg hsign]
    rw [intValue_digits hsign] at h
    obtain ⟨k, hk, rfl⟩ := Option.map_eq_some_iff.mp h
    rw [digitSum_digits hk]

theorem compareNumber_eq {l r : Text} {m n : ℤ} (hl : intValue l = some m) (hr : intValue r = some n) :
    compareNumber l r = compare (readAs l m) (readAs r n) := by
  unfold compareNumber
  rw [number_eq_readAs hl, number_eq_readAs hr]
  rcases lt_trichotomy (readAs l m) (readAs r n) with h | h | h
  · rw [if_neg h.ne, if_neg h.not_gt, compare_lt_iff_lt.mpr h]
  · rw [if_pos h, compare_eq_iff_eq.mpr h]
  · rw [if_neg h.ne', if_pos h, compare_gt_iff_gt.mpr h]

/-- A number below `2 ^ 31` without a sign is read as it is. -/
theorem readAs_self {t : Text} {n : ℤ} (hsign : t.head? ≠ some '-') (hlow : 0 ≤ n) (hhigh : n < 2 ^ 31) :
    readAs t n = n := by
  unfold readAs
  rw [if_neg hsign]
  exact Int.bmod_eq_of_le (by omega) (by omega)

end IfState

/-! ## The comparison as a whole -/

namespace Comparison
open IfState

/-- Strings differ in their first characters, if both have one; numbers are read as numbers that stand in
the relation exactly when they do. -/
def Sound (c : Comparison) : Prop :=
  if c.string then c.left.value.head? = c.right.value.head? → c.left.value = []
  else ∀ m n, intValue c.left.value = some m → intValue c.right.value = some n →
    (compare (readAs c.left.value m) (readAs c.right.value n) = c.op ↔ compare m n = c.op)

/-- At the `]` or `]]` the parser goes on behind the condition with the answer that the comparison really
has. -/
def Evaluated (c : Comparison) : Prop :=
  ∀ t, round ⟨.operands, c.left.value, .done, c.right.value, .done, some c.op, c.string⟩
      ((if c.string then [']', ']'] else [']']) ++ ';' :: ' ' :: t) =
    .ok (after c.left.value c.right.value c.holds, t)

theorem evaluated_iff_answered {c : Comparison} : c.Evaluated ↔ c.answered = some c.holds := by
  unfold Evaluated
  simp only [round_close]
  rw [answered_eq]
  cases (if c.string then compareString c.left.value c.right.value
      else some (compareNumber c.left.value c.right.value)) with
  | none => simp
  | some answer =>
    constructor
    · intro h
      have hafter := congrArg IfState.status (Prod.mk.inj (Except.ok.inj (h []))).1
      rw [Option.map_some, Option.some.injEq]
      unfold after at hafter
      cases hanswer : decide (answer = c.op) <;> cases hholds : c.holds <;>
        rw [hanswer, hholds] at hafter <;> first | rfl | cases hafter
    · intro h t
      rw [Option.map_some, Option.some.injEq] at h
      dsimp only
      rw [h]

/-- Numbers without a sign that are below `2 ^ 31` are compared as they should be. -/
theorem sound_of_small {l r : Operand} {op : Ordering} {m n : ℕ} (hl : digitsValue l.value = some m)
    (hr : digitsValue r.value = some n) (hm : m < 2 ^ 31) (hn : n < 2 ^ 31) :
    Sound ⟨false, l, op, r⟩ := by
  have hsign : ∀ {t : Text} {k : ℕ}, digitsValue t = some k → t.head? ≠ some '-' := by
    rintro t k h hhead
    obtain ⟨t, rfl⟩ := List.head?_eq_some_iff.mp hhead
    unfold digitsValue at h
    rw [if_neg (by simp)] at h
    cases h
  have hvalue : ∀ {t : Text} {k : ℕ}, digitsValue t = some k → intValue t = some (k : ℤ) := by
    intro t k h
    rw [intValue_digits (hsign h), h, Option.map_some]
  unfold Sound
  rw [if_neg Bool.false_ne_true]
  intro m' n' hm' hn'
  rw [hvalue hl] at hm'
  rw [hvalue hr] at hn'
  cases hm'
  cases hn'
  rw [readAs_self (hsign hl) (by omega) (by omega), readAs_self (hsign hr) (by omega) (by omega)]

end Comparison
end SylixOS.Shell
