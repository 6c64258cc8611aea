import SylixOS.Kernel.Event

/-! # The bitmap of priorities

A bit for each of the 256 priorities, in eight words, and a word that says which of these have a bit
set. The highest priority is the first one with its bit set.
-/

namespace SylixOS.Kernel
open Function

/-- The position of the lowest bit that is set, counted from one, and zero if there is none. -/
def archFindLsb (ui32 : BitVec 32) : ℕ :=
  match (List.finRange 32).find? fun i => ui32.getLsbD i.val with
  | some i => i.val + 1
  | none => 0

theorem archFindLsb_eq_zero {x : BitVec 32} : archFindLsb x = 0 ↔ x = 0#32 := by
  unfold archFindLsb
  split
  · rename_i i hi
    have hbit := List.find?_some hi
    refine ⟨fun h => absurd h (Nat.succ_ne_zero _), fun h => ?_⟩
    rw [h] at hbit
    simp at hbit
  · rename_i hnone
    rw [List.find?_eq_none] at hnone
    refine ⟨fun _ => BitVec.eq_of_getLsbD_eq fun i hi => ?_, fun _ => rfl⟩
    have hbit := hnone ⟨i, hi⟩ (List.mem_finRange _)
    simpa using hbit

theorem archFindLsb_eq_succ {x : BitVec 32} {n : ℕ} (h : archFindLsb x = n + 1) :
    n < 32 ∧ x.getLsbD n = true ∧ ∀ m, m < n → x.getLsbD m = false := by
  unfold archFindLsb at h
  split at h
  · rename_i i hi
    obtain rfl : i.val = n := Nat.succ.inj h
    have hset := List.find?_some hi
    refine ⟨i.isLt, hset, fun m hm => ?_⟩
    obtain ⟨-, before, after, hsplit, hbefore⟩ := List.find?_eq_some_iff_append.mp hi
    have hmem : (⟨m, by omega⟩ : Fin 32) ∈ List.finRange 32 := List.mem_finRange _
    have hsorted : (List.finRange 32).Pairwise (· < ·) := List.pairwise_lt_finRange 32
    rw [hsplit] at hmem hsorted
    rw [List.mem_append, List.mem_cons] at hmem
    rcases hmem with hmem | hmem | hmem
    · simpa using hbefore _ hmem
    · exact absurd (congrArg Fin.val hmem) (Nat.ne_of_lt hm)
    · have hlt := (List.pairwise_append.mp hsorted).2.1
      have hgt := List.rel_of_pairwise_cons hlt hmem
      exact absurd hgt (not_lt.mpr (Nat.le_of_lt hm))
  · exact absurd h.symm (Nat.succ_ne_zero _)

/-- `ucPriority >> 5`. -/
def prioHigh (ucPriority : Prio) : Fin 8 := ⟨ucPriority.val >>> 5, by
  rw [Nat.shiftRight_eq_div_pow]
  omega⟩

/-- `ucPriority & 0x1f`. -/
def prioLow (ucPriority : Prio) : ℕ := ucPriority.val &&& 0x1f

theorem prioHigh_val (p : Prio) : (prioHigh p).val = p.val / 32 := by
  simp [prioHigh, Nat.shiftRight_eq_div_pow]

theorem prioLow_eq (p : Prio) : prioLow p = p.val % 32 := Nat.and_two_pow_sub_one_eq_mod _ 5

theorem prioLow_lt (p : Prio) : prioLow p < 32 := by
  rw [prioLow_eq]
  omega

/-- A priority is given by its word and its place there. -/
theorem prio_eq_iff {p q : Prio} : p = q ↔ prioHigh p = prioHigh q ∧ prioLow p = prioLow q := by
  rw [Fin.ext_iff, Fin.ext_iff, prioHigh_val, prioHigh_val, prioLow_eq, prioLow_eq]
  omega

/-- `LW_CLASS_BMAP`. The bits of `BMAP_uiMap` say which of the words of `BMAP_uiSubMap` are not
zero. -/
@[ext] structure Bmap where
  uiMap : BitVec 32
  uiSubMap : Fin 8 → BitVec 32
  map_iff : ∀ i, uiMap.getLsbD i = true ↔ ∃ h : i < 8, uiSubMap ⟨i, h⟩ ≠ 0#32

namespace Bmap

/-- The bit of the priority is set. -/
def has (b : Bmap) (p : Prio) : Bool := (b.uiSubMap (prioHigh p)).getLsbD (prioLow p)

/-- `_BitmapInit`. -/
def bitmapInit : Bmap where
  uiMap := 0
  uiSubMap _ := 0
  map_iff i := by simp

/-- Bit `n` alone. -/
theorem getLsbD_one_shiftLeft {n m : ℕ} (hn : n < 32) :
    (1#32 <<< n).getLsbD m = decide (m = n) := by
  rw [← BitVec.twoPow_eq, BitVec.getLsbD_twoPow]
  by_cases h : m = n
  · simp [h, hn]
  · simp [h, Ne.symm h]

theorem or_one_shiftLeft_ne_zero {n : ℕ} (hn : n < 32) (x : BitVec 32) : x ||| 1#32 <<< n ≠ 0#32 := by
  intro h
  have hbit := congrArg (fun y => y.getLsbD n) h
  simp [getLsbD_one_shiftLeft hn] at hbit

/-- `_BitmapAdd`. -/
def bitmapAdd (b : Bmap) (ucPriority : Prio) : Bmap where
  uiMap := b.uiMap ||| 1#32 <<< (prioHigh ucPriority).val
  uiSubMap := update b.uiSubMap (prioHigh ucPriority)
    (b.uiSubMap (prioHigh ucPriority) ||| 1#32 <<< prioLow ucPriority)
  map_iff i := by
    have hlt := (prioHigh ucPriority).isLt
    rw [BitVec.getLsbD_or, Bool.or_eq_true, b.map_iff,
      getLsbD_one_shiftLeft (Nat.lt_trans hlt (by decide)), decide_eq_true_eq]
    by_cases hi : i = (prioHigh ucPriority).val
    · subst hi
      have hne := or_one_shiftLeft_ne_zero (prioLow_lt ucPriority)
        (b.uiSubMap (prioHigh ucPriority))
      refine ⟨fun _ => ⟨hlt, ?_⟩, fun _ => .inr rfl⟩
      rw [update_self]
      exact hne
    · have hne (h : i < 8) : (⟨i, h⟩ : Fin 8) ≠ prioHigh ucPriority :=
        fun heq => hi (congrArg Fin.val heq)
      simp [hi, hne]

/-- `_BitmapDel`. -/
def bitmapDel (b : Bmap) (ucPriority : Prio) : Bmap where
  uiMap :=
    if b.uiSubMap (prioHigh ucPriority) &&& ~~~(1#32 <<< prioLow ucPriority) = 0#32 then
      b.uiMap &&& ~~~(1#32 <<< (prioHigh ucPriority).val)
    else b.uiMap
  uiSubMap := update b.uiSubMap (prioHigh ucPriority)
    (b.uiSubMap (prioHigh ucPriority) &&& ~~~(1#32 <<< prioLow ucPriority))
  map_iff i := by
    have hlt := (prioHigh ucPriority).isLt
    by_cases hi : i = (prioHigh ucPriority).val
    · subst hi
      split_ifs with hz
      · simp [hz, getLsbD_one_shiftLeft (Nat.lt_trans hlt (by decide))]
      · have hne : b.uiSubMap (prioHigh ucPriority) ≠ 0#32 := by
          intro h
          rw [h] at hz
          simp at hz
        rw [b.map_iff]
        refine ⟨fun _ => ⟨hlt, ?_⟩, fun _ => ⟨hlt, hne⟩⟩
        rw [update_self]
        exact hz
    · have hne (h : i < 8) : (⟨i, h⟩ : Fin 8) ≠ prioHigh ucPriority :=
        fun heq => hi (congrArg Fin.val heq)
      have hmap : (if b.uiSubMap (prioHigh ucPriority) &&& ~~~(1#32 <<< prioLow ucPriority) = 0#32 then
          b.uiMap &&& ~~~(1#32 <<< (prioHigh ucPriority).val) else b.uiMap).getLsbD i =
            b.uiMap.getLsbD i := by
        split_ifs
        · rw [BitVec.getLsbD_and, BitVec.getLsbD_not,
            getLsbD_one_shiftLeft (Nat.lt_trans hlt (by decide))]
          by_cases h32 : i < 32
          · simp [hi, h32]
          · simp [h32, BitVec.getLsbD_of_ge _ _ (not_lt.mp h32)]
        · rfl
      rw [hmap, b.map_iff]
      simp [hne]

/-- `_BitmapIsEmpty`. -/
def bitmapIsEmpty (b : Bmap) : Bool := b.uiMap == 0#32

/-- `_BitmapHigh`. -/
def bitmapHigh (b : Bmap) : Prio :=
  match h : archFindLsb b.uiMap with
  | 0 => 0
  | uiHigh + 1 =>
    have hlt : uiHigh < 8 := ((b.map_iff uiHigh).mp (archFindLsb_eq_succ h).2.1).1
    let uiLow := (archFindLsb (b.uiSubMap ⟨uiHigh, hlt⟩) + (2 ^ 32 - 1)) % 2 ^ 32
    Fin.ofNat 256 (uiHigh <<< 5 ||| uiLow)

variable {b : Bmap} {p q : Prio}

@[simp] theorem has_bitmapInit : bitmapInit.has p = false := by simp [has, bitmapInit]

@[simp] theorem has_bitmapAdd : (b.bitmapAdd p).has q = (decide (q = p) || b.has q) := by
  simp only [has, bitmapAdd]
  by_cases hh : prioHigh q = prioHigh p
  · rw [hh, update_self, BitVec.getLsbD_or, getLsbD_one_shiftLeft (prioLow_lt p),
      Bool.or_comm]
    simp [prio_eq_iff, hh]
  · rw [update_of_ne hh]
    simp [prio_eq_iff, hh]

@[simp] theorem has_bitmapDel : (b.bitmapDel p).has q = (!decide (q = p) && b.has q) := by
  simp only [has, bitmapDel]
  by_cases hh : prioHigh q = prioHigh p
  · rw [hh, update_self, BitVec.getLsbD_and, BitVec.getLsbD_not,
      getLsbD_one_shiftLeft (prioLow_lt p), Bool.and_comm]
    simp [prio_eq_iff, hh, prioLow_lt]
  · rw [update_of_ne hh]
    simp [prio_eq_iff, hh]

/-- A word that is not zero has a bit set. -/
theorem exists_getLsbD {x : BitVec 32} (h : x ≠ 0#32) : ∃ n, archFindLsb x = n + 1 := by
  cases hx : archFindLsb x with
  | zero => exact absurd (archFindLsb_eq_zero.mp hx) h
  | succ n => exact ⟨n, rfl⟩

/-- The priority with the given word and place. -/
theorem exists_prio (i : Fin 8) {n : ℕ} (hn : n < 32) : ∃ p : Prio, prioHigh p = i ∧ prioLow p = n ∧
    p.val = i.val <<< 5 ||| n := by
  have hi := i.isLt
  have hor : i.val <<< 5 ||| n = i.val * 32 + n := by
    rw [Nat.shiftLeft_add_eq_or_of_lt (by omega : n < 2 ^ 5) i.val |>.symm, Nat.shiftLeft_eq]
  refine ⟨⟨i.val * 32 + n, by omega⟩, ?_, ?_, hor.symm⟩
  · rw [Fin.ext_iff, prioHigh_val]
    change (i.val * 32 + n) / 32 = i.val
    omega
  · rw [prioLow_eq]
    change (i.val * 32 + n) % 32 = n
    omega

theorem bitmapIsEmpty_iff : b.bitmapIsEmpty = true ↔ ∀ p, b.has p = false := by
  rw [bitmapIsEmpty, beq_iff_eq]
  constructor
  · intro h p
    have hzero : b.uiSubMap (prioHigh p) = 0#32 := by
      by_contra hne
      have hbit := (b.map_iff (prioHigh p)).mpr ⟨(prioHigh p).isLt, hne⟩
      rw [h] at hbit
      simp at hbit
    rw [has, hzero]
    simp
  · intro h
    refine BitVec.eq_of_getLsbD_eq fun i _ => ?_
    by_contra hbit
    simp only [BitVec.getLsbD_zero, Bool.not_eq_false] at hbit
    obtain ⟨hi, hne⟩ := (b.map_iff i).mp hbit
    obtain ⟨n, hn⟩ := exists_getLsbD hne
    obtain ⟨hlt, hset, -⟩ := archFindLsb_eq_succ hn
    obtain ⟨p, hp, hlow, -⟩ := exists_prio ⟨i, hi⟩ hlt
    have hfalse := h p
    rw [has, hp, hlow, hset] at hfalse
    simp at hfalse

theorem bitmapHigh_spec (h : b.bitmapIsEmpty = false) :
    b.has b.bitmapHigh = true ∧ ∀ p, b.has p = true → b.bitmapHigh ≤ p := by
  have hmap : b.uiMap ≠ 0#32 := by
    intro hz
    rw [bitmapIsEmpty, hz] at h
    simp at h
  unfold bitmapHigh
  split
  · rename_i hz
    exact absurd (archFindLsb_eq_zero.mp hz) hmap
  · rename_i i hi
    obtain ⟨-, hset, hfirst⟩ := archFindLsb_eq_succ hi
    obtain ⟨hlt, hne⟩ := (b.map_iff i).mp hset
    obtain ⟨n, hn⟩ := exists_getLsbD hne
    obtain ⟨hn32, hbit, hlow⟩ := archFindLsb_eq_succ hn
    obtain ⟨p, hp, hpl, hval⟩ := exists_prio ⟨i, hlt⟩ hn32
    have heq : Fin.ofNat 256 (i <<< 5 ||| (archFindLsb (b.uiSubMap ⟨i, hlt⟩) + (2 ^ 32 - 1)) % 2 ^ 32) =
        p := by
      have hwrap : (n + 1 + (2 ^ 32 - 1)) % 2 ^ 32 = n := by omega
      rw [hn, hwrap, Fin.ext_iff, hval]
      change (i <<< 5 ||| n) % 256 = _
      rw [Nat.mod_eq_of_lt]
      rw [← hval]
      exact p.isLt
    dsimp only
    rw [heq]
    refine ⟨?_, fun q hq => ?_⟩
    · rw [has, hp, hpl]
      exact hbit
    · by_contra hlt'
      rw [not_le, Fin.lt_def] at hlt'
      have hqw := prioHigh_val q
      have hpw := prioHigh_val p
      have hql := prioLow_eq q
      have hpl' := prioLow_eq p
      rw [has] at hq
      by_cases hw : prioHigh q = ⟨i, hlt⟩
      · rw [hw] at hq
        rw [hlow (prioLow q) ?_] at hq
        · simp at hq
        · rw [hw] at hqw
          rw [hp] at hpw
          omega
      · have hqi : (prioHigh q).val < i := by
          have hne' : (prioHigh q).val ≠ i := fun h => hw (Fin.ext h)
          rw [hp] at hpw
          change i = p.val / 32 at hpw
          omega
        have hno := hfirst _ hqi
        have hyes := (b.map_iff (prioHigh q)).mpr ⟨(prioHigh q).isLt, fun hz => by simp [hz] at hq⟩
        rw [hno] at hyes
        simp at hyes

end Bmap

end SylixOS.Kernel
