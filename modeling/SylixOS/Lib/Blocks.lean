import Mathlib.Data.List.Nodup
import Mathlib.Data.List.GetD
import Mathlib.Tactic.Common

/-! # Chains of blocks

Blocks of equal length are linked one behind the other, each known by its address. The bytes of the
chain are those of its blocks, one block after the other, and a byte behind the last block is zero.
-/

namespace SylixOS.Lib.Blocks

variable {β : Type*}

/-! ## Following links -/

/-- The block behind another one. -/
def next (l : List ℕ) (p : ℕ) : Option ℕ := l[l.idxOf p + 1]?

/-- The block before another one. -/
def prev (l : List ℕ) (p : ℕ) : Option ℕ := if l.idxOf p = 0 then none else l[l.idxOf p - 1]?

/-- A link is followed `n` times. -/
def walk (link : ℕ → Option ℕ) : ℕ → ℕ → Option ℕ
  | 0, p => some p
  | n + 1, p => (link p).bind (walk link n)

/-- A block is put behind another one. -/
def addRight (p e : ℕ) : List ℕ → List ℕ
  | [] => []
  | a :: l => if a = e then a :: p :: l else a :: addRight p e l

variable {l : List ℕ} {p e i n : ℕ}

theorem idxOf_of_getElem? (hl : l.Nodup) (hi : l[i]? = some p) : l.idxOf p = i := by
  obtain ⟨hlt, rfl⟩ := List.getElem?_eq_some_iff.mp hi
  exact hl.idxOf_getElem i hlt

theorem walk_next (hl : l.Nodup) (hi : l[i]? = some p) : walk (next l) n p = l[i + n]? := by
  induction n generalizing i p with
  | zero => exact hi.symm
  | succ n ih =>
    rw [walk, next, idxOf_of_getElem? hl hi]
    cases hnext : l[i + 1]? with
    | none =>
      rw [List.getElem?_eq_none_iff] at hnext
      exact (List.getElem?_eq_none (by omega)).symm
    | some q =>
      rw [Option.bind_some, ih hnext, Nat.add_assoc, Nat.add_comm 1]

theorem walk_prev (hl : l.Nodup) (hi : l[i]? = some p) (hn : n ≤ i) :
    walk (prev l) n p = l[i - n]? := by
  induction n generalizing i p with
  | zero => exact hi.symm
  | succ n ih =>
    rw [walk, prev, idxOf_of_getElem? hl hi, if_neg (by omega)]
    obtain ⟨hlt, -⟩ := List.getElem?_eq_some_iff.mp hi
    have hprev : l[i - 1]? = some l[i - 1] := List.getElem?_eq_getElem (by omega)
    rw [hprev, Option.bind_some, ih hprev (by omega)]
    congr 1
    omega

theorem addRight_last (he : e ∉ l) : addRight p e (l ++ [e]) = l ++ [e, p] := by
  induction l with
  | nil => exact if_pos rfl
  | cons a l ih =>
    rw [List.mem_cons, not_or] at he
    rw [List.cons_append, addRight, if_neg (Ne.symm he.1), ih he.2]
    rfl

/-! ## Bytes -/

variable [Zero β] {B : ℕ} {data data' : ℕ → ℕ → β} {l' : List ℕ} {o : ℕ}

/-- A byte of the chain. -/
def byteAt (B : ℕ) (data : ℕ → ℕ → β) (l : List ℕ) (o : ℕ) : β :=
  match l[o / B]? with
  | some p => data p (o % B)
  | none => 0

theorem byteAt_eq (h : l[o / B]? = some p) : byteAt B data l o = data p (o % B) := by
  rw [byteAt, h]

/-- Behind the last block. -/
theorem byteAt_beyond (hB : 0 < B) (h : l.length * B ≤ o) : byteAt B data l o = 0 := by
  rw [byteAt, List.getElem?_eq_none ((Nat.le_div_iff_mul_le hB).mpr h)]

theorem byteAt_head (h : o < B) : byteAt B data (p :: l) o = data p o := by
  rw [byteAt, Nat.div_eq_of_lt h, Nat.mod_eq_of_lt h]
  rfl

theorem byteAt_tail (hB : 0 < B) (h : B ≤ o) : byteAt B data (p :: l) o = byteAt B data l (o - B) := by
  have hdiv : o / B = (o - B) / B + 1 := by
    rw [Nat.div_eq_sub_div hB h]
  have hmod : o % B = (o - B) % B := Nat.mod_eq_sub_mod h
  rw [byteAt, byteAt, hdiv, hmod, List.getElem?_cons_succ]

theorem byteAt_drop {k : ℕ} (hB : 0 < B) :
    byteAt B data (l.drop k) o = byteAt B data l (k * B + o) := by
  rw [byteAt, byteAt, List.getElem?_drop, Nat.mul_comm k, Nat.mul_add_div hB,
    Nat.mul_add_mod]

theorem byteAt_append_left (hB : 0 < B) (h : o < l.length * B) :
    byteAt B data (l ++ l') o = byteAt B data l o := by
  rw [byteAt, byteAt, List.getElem?_append_left ((Nat.div_lt_iff_lt_mul hB).mpr h)]

theorem byteAt_take {k : ℕ} (hB : 0 < B) (h : o < k * B) :
    byteAt B data (l.take k) o = byteAt B data l o := by
  rw [byteAt, byteAt, List.getElem?_take_of_lt ((Nat.div_lt_iff_lt_mul hB).mpr h)]

theorem byteAt_congr (h : ∀ p ∈ l, data' p = data p) : byteAt B data' l o = byteAt B data l o := by
  unfold byteAt
  cases hp : l[o / B]? with
  | none => rfl
  | some p =>
    dsimp only
    rw [h p (List.mem_of_getElem? hp)]

end SylixOS.Lib.Blocks
