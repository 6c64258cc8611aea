import Mathlib.Tactic.Ring
import Mathlib.Data.List.Basic

/-! # Little-endian numbers in byte lists

A number is stored in `w` bytes, the least significant first, and what does not fit is
cut off. Decoding the encoding gives the number back modulo `256 ^ w`.
-/

namespace SylixOS.Lib.LittleEndian

/-- The `w` low bytes of a number, the least significant first. -/
def enc : ℕ → ℕ → List UInt8
  | 0, _ => []
  | w + 1, n => UInt8.ofNat (n % 256) :: enc w (n / 256)

/-- The number whose little-endian bytes are given. -/
def dec : List UInt8 → ℕ
  | [] => 0
  | b :: bs => b.toNat + 256 * dec bs

@[simp] theorem enc_length (w n : ℕ) : (enc w n).length = w := by
  induction w generalizing n with
  | zero => rfl
  | succ w ih => simp [enc, ih]

theorem dec_enc (w n : ℕ) : dec (enc w n) = n % 256 ^ w := by
  induction w generalizing n with
  | zero => simp [enc, dec, Nat.mod_one]
  | succ w ih =>
    have hb : (UInt8.ofNat (n % 256)).toNat = n % 256 := by
      simp [UInt8.toNat_ofNat']
    rw [enc, dec, ih, hb, Nat.pow_succ, Nat.mul_comm (256 ^ w) 256, Nat.mod_mul]

theorem dec_replicate_zero (w : ℕ) : dec (List.replicate w 0) = 0 := by
  induction w with
  | zero => rfl
  | succ w ih => simp [List.replicate_succ, dec, ih]

/-- Take a number of `w` bytes from the front of a buffer. -/
def getLE (w : ℕ) (p : List UInt8) : ℕ × List UInt8 := (dec (p.take w), p.drop w)

@[simp] theorem getLE_enc (w n : ℕ) (rest : List UInt8) :
    getLE w (enc w n ++ rest) = (n % 256 ^ w, rest) := by
  have h : w = (enc w n).length := (enc_length w n).symm
  unfold getLE
  rw [List.take_left' h.symm, List.drop_left' h.symm, dec_enc]

end SylixOS.Lib.LittleEndian
