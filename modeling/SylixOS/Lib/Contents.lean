import Mathlib.Order.Nat
import Mathlib.Tactic.Common

/-! # The contents of a file

A file is meant to be an array of values that is zero wherever nothing has been written since it was last
behind the end. -/

namespace SylixOS.Lib

structure Contents (β : Type*) [Zero β] where
  len : ℕ
  byte : ℕ → β
  zero : ∀ o, len ≤ o → byte o = 0

namespace Contents
variable {β : Type*} [Zero β]

@[ext] theorem ext {v w : Contents β} (hlen : v.len = w.len) (hbyte : ∀ o, v.byte o = w.byte o) :
    v = w := by
  obtain ⟨len, byte, zero⟩ := v
  obtain ⟨len', byte', zero'⟩ := w
  obtain rfl : byte = byte' := funext hbyte
  cases hlen
  rfl

def empty : Contents β := ⟨0, fun _ => 0, fun _ _ => rfl⟩

/-- The values behind the end are zeros up to a place. -/
def grow (v : Contents β) (off : ℕ) : Contents β where
  len := max v.len off
  byte := v.byte
  zero := fun o ho => v.zero o ((le_max_left _ _).trans ho)

/-- Values are written at a place, with zeros in front of them where the file ends earlier. -/
def write (v : Contents β) (off : ℕ) (buf : List β) : Contents β where
  len := if buf = [] then v.len else max v.len (off + buf.length)
  byte := fun o => if off ≤ o ∧ o < off + buf.length then buf.getD (o - off) 0 else v.byte o
  zero := by
    intro o ho
    have hle : v.len ≤ o ∧ (buf ≠ [] → off + buf.length ≤ o) := by
      split_ifs at ho with hnil
      · exact ⟨ho, fun hne => absurd hnil hne⟩
      · exact ⟨(le_max_left _ _).trans ho, fun _ => (le_max_right _ _).trans ho⟩
    rw [if_neg, v.zero o hle.1]
    rintro ⟨h, h'⟩
    have := hle.2 (List.ne_nil_of_length_pos (by omega))
    omega

/-- The values up to a place are kept. -/
def cut (v : Contents β) (size : ℕ) : Contents β where
  len := min v.len size
  byte := fun o => if o < size then v.byte o else 0
  zero := by
    intro o ho
    split_ifs
    · exact v.zero o (by omega)
    · rfl

def read (v : Contents β) (off n : ℕ) : List β :=
  (List.range (min n (v.len - off))).map fun j => v.byte (off + j)

variable {v : Contents β} {off n : ℕ} {buf : List β}

@[simp] theorem write_nil : v.write off [] = v := by
  refine ext rfl fun o => ?_
  simp only [write, List.length_nil]
  exact if_neg (by omega)

theorem len_write (hbuf : buf ≠ []) : (v.write off buf).len = max v.len (off + buf.length) :=
  if_neg hbuf

theorem byte_write (o : ℕ) : (v.write off buf).byte o =
    if off ≤ o ∧ o < off + buf.length then buf.getD (o - off) 0 else v.byte o := rfl

/-- One part behind the other. -/
theorem write_append (v : Contents β) (off : ℕ) (buf buf' : List β) :
    (v.write off buf).write (off + buf.length) buf' = v.write off (buf ++ buf') := by
  by_cases hnil : buf = []
  · rw [hnil, write_nil, List.nil_append, List.length_nil, Nat.add_zero]
  by_cases hnil' : buf' = []
  · rw [hnil', write_nil, List.append_nil]
  refine ext ?_ fun o => ?_
  · rw [len_write hnil', len_write hnil, len_write (by simp [hnil]), List.length_append]
    omega
  · simp only [write, List.length_append]
    by_cases h' : off + buf.length ≤ o ∧ o < off + buf.length + buf'.length
    · have hge : buf.length ≤ o - off := by omega
      rw [if_pos h', if_pos (by omega), List.getD_eq_getElem?_getD, List.getD_eq_getElem?_getD,
        List.getElem?_append_right hge]
      congr 2
      omega
    · rw [if_neg h']
      by_cases h : off ≤ o ∧ o < off + buf.length
      · have hlt : o - off < buf.length := by omega
        rw [if_pos h, if_pos (by omega), List.getD_eq_getElem?_getD, List.getD_eq_getElem?_getD,
          List.getElem?_append_left hlt]
      · rw [if_neg h, if_neg (by omega)]

theorem byte_cut (o : ℕ) : (v.cut n).byte o = if o < n then v.byte o else 0 := rfl

theorem length_read : (v.read off n).length = min n (v.len - off) := by
  rw [read, List.length_map, List.length_range]

@[simp] theorem read_zero : v.read off 0 = [] := by
  rw [read, Nat.zero_min, List.range_zero, List.map_nil]

theorem read_eq (h : off + n ≤ v.len) : v.read off n = (List.range n).map fun j => v.byte (off + j) := by
  rw [read, Nat.min_eq_left (by omega)]

/-- A range inside the file, and what follows it. -/
theorem read_add {m : ℕ} (h : off + m ≤ v.len) :
    v.read off (m + n) = v.read off m ++ v.read (off + m) n := by
  have hmin : min (m + n) (v.len - off) = m + min n (v.len - (off + m)) := by omega
  have hm : min m (v.len - off) = m := by omega
  rw [read, hmin, List.range_add, List.map_append, List.map_map, read, hm, read]
  congr 1
  refine List.map_congr_left fun j _ => ?_
  rw [Function.comp_apply, Nat.add_assoc]

/-- Zeros behind the end are there already. -/
theorem write_zeros : v.write v.len (List.replicate n 0) = v.grow (v.len + n) := by
  refine ext ?_ fun o => ?_
  · cases n with
    | zero => simp [write, grow]
    | succ n => rw [len_write (by simp), List.length_replicate, grow]
  · simp only [write, grow, List.length_replicate]
    split_ifs with h
    · rw [v.zero o h.1, List.getD_eq_getElem?_getD, List.getElem?_replicate, if_pos (by omega)]
      rfl
    · rfl

theorem grow_grow {m : ℕ} : (v.grow m).grow n = v.grow (max m n) :=
  ext (max_assoc _ _ _) fun _ => rfl

theorem grow_eq (h : n ≤ v.len) : v.grow n = v := ext (max_eq_left h) fun _ => rfl

/-- A file need not grow before something is written behind its end. -/
theorem grow_write (hn : n ≤ off) (hbuf : buf ≠ []) : (v.grow n).write off buf = v.write off buf := by
  refine ext ?_ fun _ => rfl
  rw [len_write hbuf, len_write hbuf, grow, max_assoc]
  congr 1
  omega

end Contents
end SylixOS.Lib
