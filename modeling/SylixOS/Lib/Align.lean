import Mathlib.Data.Nat.Bitwise
import Mathlib.Tactic.Common

/-! # Rounding an address up

C code that asks for an address with an alignment sets the low bits and adds one.
-/

namespace SylixOS.Lib

/-- Setting the low bits of an address. -/
theorem or_mask_add_one (x j : ℕ) : (x ||| (2 ^ j - 1)) + 1 = (x / 2 ^ j + 1) * 2 ^ j := by
  have hpos : 0 < 2 ^ j := Nat.two_pow_pos j
  have hlow : x % 2 ^ j ||| (2 ^ j - 1) = 2 ^ j - 1 := by
    refine Nat.eq_of_testBit_eq fun i => ?_
    rw [Nat.testBit_or, Nat.testBit_two_pow_sub_one, Nat.testBit_mod_two_pow]
    by_cases hi : i < j
    · simp [hi]
    · simp [hi]
  have hx : x = 2 ^ j * (x / 2 ^ j) ||| x % 2 ^ j := by
    rw [← Nat.two_pow_add_eq_or_of_lt (Nat.mod_lt x hpos), Nat.div_add_mod]
  have hor : x ||| (2 ^ j - 1) = 2 ^ j * (x / 2 ^ j) + (2 ^ j - 1) := by
    rw [Nat.two_pow_add_eq_or_of_lt (by omega)]
    nth_rewrite 1 [hx]
    rw [Nat.or_assoc, hlow]
  rw [hor, Nat.add_mul, Nat.mul_comm (x / 2 ^ j)]
  omega

/-- What is left out in front of the next aligned address. -/
theorem dvd_align_sub {x i j : ℕ} (hx : 2 ^ i ∣ x) (hmod : x % 2 ^ j ≠ 0) :
    x ≤ (x / 2 ^ j + 1) * 2 ^ j ∧ 2 ^ i ∣ (x / 2 ^ j + 1) * 2 ^ j - x := by
  have hij : i ≤ j := by
    by_contra hlt
    exact hmod (Nat.mod_eq_zero_of_dvd (Nat.dvd_trans (Nat.pow_dvd_pow 2 (by omega)) hx))
  have hdiv := Nat.div_add_mod x (2 ^ j)
  have hlt := Nat.mod_lt x (Nat.two_pow_pos j)
  have heq : (x / 2 ^ j + 1) * 2 ^ j = 2 ^ j * (x / 2 ^ j) + 2 ^ j := by
    rw [Nat.add_mul, Nat.mul_comm, Nat.one_mul]
  refine ⟨by omega, Nat.dvd_sub ?_ hx⟩
  exact Nat.dvd_trans (Nat.pow_dvd_pow 2 hij) (Nat.dvd_mul_left _ _)

end SylixOS.Lib
