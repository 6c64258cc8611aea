import SylixOS.TpsFs.Trans.Header
import Mathlib.Algebra.BigOperators.Group.List.Basic

/-! # What the checksum of a header covers

The checksum is the sum of the fields in 32 bits, where a field of 64 bits adds both of its halves.
Recovery takes a header with another sum, another magic number or another generation for none. -/

namespace SylixOS.TpsFs
open Lib Lib.LittleEndian

/-- The fields of a header on the disk, apart from the checksum. -/
inductive HeaderField where
  | magic | reserved | generation | serialNum | iType | iStatus | reserved64 | time | dataSecNum
  | dataSecCnt
  deriving DecidableEq, Repr

namespace HeaderField

def all : List HeaderField :=
  [magic, reserved, generation, serialNum, iType, iStatus, reserved64, time, dataSecNum, dataSecCnt]

theorem mem_all (f : HeaderField) : f ∈ all := by cases f <;> decide

theorem nodup_all : all.Nodup := by decide

/-- The width of a field. -/
def bits : HeaderField → ℕ
  | generation | serialNum | reserved64 | time | dataSecNum => 64
  | magic | reserved | iType | iStatus | dataSecCnt => 32

/-- The value of a field on the disk. -/
def value (t : Trans) : HeaderField → ℕ
  | magic => t.magic
  | reserved => t.reserved
  | generation => t.generation
  | serialNum => t.serialNum
  | iType => t.iType
  | iStatus => t.iStatus.code
  | reserved64 => t.reserved64
  | time => t.time
  | dataSecNum => t.dataSecNum
  | dataSecCnt => t.dataSecCnt

end HeaderField

/-- Both halves of a number, added up in a `UINT`. -/
def fold (n : ℕ) : ℕ := u32 (u32 n + u32 (n >>> 32))

/-- What a field adds to the checksum. -/
def part (n : ℕ) : HeaderField → ℕ
  | .dataSecNum => u32 (n >>> 32)
  | _ => fold n

/-- The fields of a header are of their C types. -/
def Trans.Typed (t : Trans) : Prop := ∀ f : HeaderField, f.value t < 2 ^ f.bits

/-- Two headers differ in one field. -/
def DifferAt (f : HeaderField) (t t' : Trans) : Prop :=
  f.value t ≠ f.value t' ∧ ∀ g, g ≠ f → g.value t = g.value t'

variable {f : HeaderField} {t t' t₀ : Trans} {n m : ℕ}

theorem fold_of_lt (h : n < 2 ^ 32) : fold n = n := by
  unfold fold u32
  rw [Nat.shiftRight_eq_div_pow, Nat.div_eq_of_lt h, Nat.zero_mod, Nat.add_zero, Nat.mod_mod,
    Nat.mod_eq_of_lt h]

theorem u32_add_eq_iff (a b c : ℕ) : u32 (a + b) = u32 (a + c) ↔ u32 b = u32 c := by
  unfold u32
  omega

theorem u32_part (n : ℕ) (f : HeaderField) : u32 (part n f) = part n f := by
  cases f <;> exact Nat.mod_mod _ _

theorem fold_carry (n : ℕ) : ∃ q, u32 n + u32 (n >>> 32) = fold n + 2 ^ 32 * q :=
  ⟨_, (Nat.mod_add_div _ (2 ^ 32)).symm⟩

theorem Trans.sum_eq (ht : t.Typed) :
    t.sum = u32 ((HeaderField.all.map fun f => part (f.value t) f).sum) := by
  have hfold (f : HeaderField) (hbits : f.bits = 32) : fold (f.value t) = u32 (f.value t) := by
    have hlt := ht f
    rw [hbits] at hlt
    rw [fold_of_lt hlt, u32, Nat.mod_eq_of_lt hlt]
  have hmagic := hfold .magic rfl
  have hreserved := hfold .reserved rfl
  have htype := hfold .iType rfl
  have hstatus := hfold .iStatus rfl
  have hcnt := hfold .dataSecCnt rfl
  obtain ⟨q₁, h₁⟩ := fold_carry t.generation
  obtain ⟨q₂, h₂⟩ := fold_carry t.serialNum
  obtain ⟨q₃, h₃⟩ := fold_carry t.reserved64
  obtain ⟨q₄, h₄⟩ := fold_carry t.time
  have hcarry : u32 t.magic + u32 t.reserved + u32 t.generation + u32 (t.generation >>> 32) +
      u32 t.serialNum + u32 (t.serialNum >>> 32) + u32 t.iType + u32 t.iStatus.code +
      u32 t.reserved64 + u32 (t.reserved64 >>> 32) + u32 t.time + u32 (t.time >>> 32) +
      u32 (t.dataSecNum >>> 32) + u32 t.dataSecCnt =
        (HeaderField.all.map fun f => part (f.value t) f).sum + 2 ^ 32 * (q₁ + q₂ + q₃ + q₄) := by
    simp only [HeaderField.value] at hmagic hreserved htype hstatus hcnt
    simp only [HeaderField.all, List.map_cons, List.map_nil, List.sum_cons, List.sum_nil, part,
      HeaderField.value, hmagic, hreserved, htype, hstatus, hcnt]
    omega
  rw [Trans.sum, hcarry, u32, Nat.add_mul_mod_self_left, u32]

/-- The checksums of two headers that differ in one field. -/
theorem sum_eq_iff (ht : t.Typed) (ht' : t'.Typed) (h : ∀ g, g ≠ f → g.value t = g.value t') :
    t.sum = t'.sum ↔ part (f.value t) f = part (f.value t') f := by
  have hsplit (t : Trans) := List.sum_map_erase (fun f => part (f.value t) f) f.mem_all
  have hrest : ((HeaderField.all.erase f).map fun f => part (f.value t) f).sum =
      ((HeaderField.all.erase f).map fun f => part (f.value t') f).sum := by
    congr 1
    refine List.map_congr_left fun g hg => ?_
    rw [h g (HeaderField.nodup_all.mem_erase_iff.mp hg).1]
  rw [Trans.sum_eq ht, Trans.sum_eq ht', ← hsplit t, ← hsplit t', hrest, Nat.add_comm,
    Nat.add_comm (part (f.value t') f), u32_add_eq_iff, u32_part, u32_part]

/-! ## Rejecting a damaged header -/

theorem code_ofCode (c : ℕ) : (TransStatus.ofCode c).code = c := by
  unfold TransStatus.ofCode
  split <;> rfl

theorem ofCode_eq_uninit_iff {c : ℕ} :
    TransStatus.ofCode c = .uninit ↔ c = TransStatus.uninit.code := by
  refine ⟨fun h => ?_, fun h => h ▸ rfl⟩
  rw [← code_ofCode c, h]

/-- What makes recovery reject a header. -/
theorem tpsFsTransUnserial_uninit_iff (psb : SuperBlock) (ht : t.Typed) (hsum : t.checkSum < 2 ^ 32)
    (rest : List UInt8) : (tpsFsTransUnserial psb t₀ (t.bytes ++ rest)).iStatus = .uninit ↔
      t.sum ≠ t.checkSum ∨ t.magic ≠ transMagic ∨ t.generation ≠ psb.generation ∨
        t.iStatus.code = TransStatus.uninit.code := by
  have h32 (n : ℕ) (hn : n < 2 ^ 32) : n % 256 ^ 4 = n := Nat.mod_eq_of_lt hn
  have h64 (n : ℕ) (hn : n < 2 ^ 64) : n % 256 ^ 8 = n := Nat.mod_eq_of_lt hn
  have hread : tpsFsTransUnserial psb t₀ (t.bytes ++ rest) =
      if t.sum ≠ t.checkSum ∨ t.magic ≠ transMagic ∨ t.generation ≠ psb.generation then
        { t with
          iStatus := .uninit
          tdReserved0 := t₀.tdReserved0
          tdReserved1 := t₀.tdReserved1
          secAreaArr := t₀.secAreaArr }
      else
        { t with
          iStatus := .ofCode t.iStatus.code
          tdReserved0 := t₀.tdReserved0
          tdReserved1 := t₀.tdReserved1
          secAreaArr := t₀.secAreaArr } := by
    unfold tpsFsTransUnserial Trans.bytes
    simp only [List.append_assoc, getLE_enc, h32 t.magic (ht .magic), h32 t.reserved (ht .reserved),
      h64 t.generation (ht .generation), h64 t.serialNum (ht .serialNum), h32 t.iType (ht .iType),
      h32 t.iStatus.code (ht .iStatus), h64 t.reserved64 (ht .reserved64), h64 t.time (ht .time),
      h64 t.dataSecNum (ht .dataSecNum), h32 t.dataSecCnt (ht .dataSecCnt), h32 t.checkSum hsum,
      Trans.sum, code_ofCode]
    rfl
  have hiff : t.sum ≠ t.checkSum ∨ t.magic ≠ transMagic ∨ t.generation ≠ psb.generation ∨
      t.iStatus.code = TransStatus.uninit.code ↔
        (t.sum ≠ t.checkSum ∨ t.magic ≠ transMagic ∨ t.generation ≠ psb.generation) ∨
          t.iStatus.code = TransStatus.uninit.code := by rw [or_assoc, or_assoc]
  rw [hread, hiff]
  split_ifs with hbad
  · exact iff_of_true rfl (.inl hbad)
  · rw [or_iff_right hbad]
    exact ofCode_eq_uninit_iff

theorem Trans.Fits.typed {psb : SuperBlock} (h : t.Fits psb) : t.Typed := by
  intro f
  cases f with
  | magic =>
    change t.magic < 2 ^ 32
    rw [h.magic]
    decide
  | reserved => exact h.reserved
  | generation =>
    change t.generation < 2 ^ 64
    rw [h.generation]
    exact psb.generation_lt
  | serialNum => exact h.serialNum
  | iType => exact h.iType
  | iStatus =>
    change t.iStatus.code < 2 ^ 32
    rcases h.status with h | h <;> rw [h] <;> decide
  | reserved64 => exact h.reserved64
  | time => exact h.time
  | dataSecNum => exact h.dataSecNum
  | dataSecCnt => exact h.dataSecCnt

/-- The checksum tells any two values of a field of 32 bits apart. -/
theorem part_ne (ht : t.Typed) (ht' : t'.Typed) (h : DifferAt f t t') (hbits : f.bits = 32) :
    part (f.value t) f ≠ part (f.value t') f := by
  have hlt := ht f
  have hlt' := ht' f
  rw [hbits] at hlt hlt'
  have hpart (n : ℕ) : part n f = fold n := by cases f <;> first | rfl | cases hbits
  rw [hpart, hpart, fold_of_lt hlt, fold_of_lt hlt']
  exact h.1

/-- Recovery rejects what the header `t` has become on the disk, where the checksum is still its own. -/
def Rejected (psb : SuperBlock) (t t' : Trans) : Prop :=
  ∀ buf off t₀ rest,
    let damaged := { t' with checkSum := (tpsFsTransSerial t buf off).1.checkSum }
    (tpsFsTransUnserial psb t₀ (damaged.bytes ++ rest)).iStatus = .uninit

/-- Recovery rejects a header of the volume with a damaged field, or it does not, by what the checksum
sees of the field. -/
theorem rejected_iff {psb : SuperBlock} (hfits : t.Fits psb) (ht' : t'.Typed) (h : DifferAt f t t') :
    Rejected psb t t' ↔ part (f.value t) f ≠ part (f.value t') f ∨ f = .magic ∨ f = .generation := by
  have ht := hfits.typed
  have hvalue (g : HeaderField) : g.value { t' with checkSum := t.sum } = g.value t' := by
    cases g <;> rfl
  have htyped : Trans.Typed { t' with checkSum := t.sum } := fun g => hvalue g ▸ ht' g
  have hmagic : t'.magic ≠ transMagic ↔ f = .magic := by
    rw [← hfits.magic]
    refine ⟨fun hne => Classical.byContradiction fun hf => hne (h.2 .magic (Ne.symm hf)).symm, ?_⟩
    rintro rfl
    exact h.1.symm
  have hgeneration : t'.generation ≠ psb.generation ↔ f = .generation := by
    rw [← hfits.generation]
    refine ⟨fun hne => Classical.byContradiction fun hf => hne (h.2 .generation (Ne.symm hf)).symm, ?_⟩
    rintro rfl
    exact h.1.symm
  have hstatus : t'.iStatus.code = TransStatus.uninit.code →
      part (f.value t) f ≠ part (f.value t') f := fun hcode => by
    by_cases hf : f = .iStatus
    · subst hf
      exact part_ne ht ht' h rfl
    · have hsame : t.iStatus.code = t'.iStatus.code := h.2 .iStatus (Ne.symm hf)
      rcases hfits.status with hs | hs <;> rw [← hsame, hs] at hcode <;> cases hcode
  have hsum : t'.sum ≠ t.sum ↔ part (f.value t) f ≠ part (f.value t') f := by
    rw [ne_comm, ne_eq, sum_eq_iff ht ht' h.2]
  have hread (t₀ : Trans) (rest : List UInt8) :
      (tpsFsTransUnserial psb t₀ (Trans.bytes { t' with checkSum := t.sum } ++ rest)).iStatus = .uninit ↔
        part (f.value t) f ≠ part (f.value t') f ∨ f = .magic ∨ f = .generation := by
    rw [tpsFsTransUnserial_uninit_iff psb htyped (u32_lt _) rest]
    change t'.sum ≠ t.sum ∨ t'.magic ≠ transMagic ∨ t'.generation ≠ psb.generation ∨
      t'.iStatus.code = TransStatus.uninit.code ↔ _
    rw [hsum, hmagic, hgeneration]
    constructor
    · rintro (hp | hf | hf | hcode)
      · exact .inl hp
      · exact .inr (.inl hf)
      · exact .inr (.inr hf)
      · exact .inl (hstatus hcode)
    · rintro (hp | hf | hf)
      · exact .inl hp
      · exact .inr (.inl hf)
      · exact .inr (.inr (.inl hf))
  exact ⟨fun h => (hread t []).mp (h [] 0 t []), fun h _ _ t₀ rest => (hread t₀ rest).mpr h⟩

/-- The checksums of two headers that differ in one field differ if the sums of the halves of the field
do, as they do for each field of 32 bits, and then recovery rejects the second header with the checksum
of the first. Of `TRANS_uiDataSecNum` the high half is covered. -/
theorem checkSum_covers (ht : t.Typed) (ht' : t'.Typed) (h : DifferAt f t t') (buf buf' : List UInt8)
    (off off' : ℕ) :
    (f ≠ .dataSecNum →
      ((tpsFsTransSerial t buf off).1.checkSum ≠ (tpsFsTransSerial t' buf' off').1.checkSum ↔
        fold (f.value t) ≠ fold (f.value t')) ∧
      ∀ psb, t.Fits psb →
        (Rejected psb t t' ↔ fold (f.value t) ≠ fold (f.value t') ∨ f = .magic ∨ f = .generation)) ∧
    (f.bits = 32 → fold (f.value t) ≠ fold (f.value t')) ∧
    (f = .dataSecNum → t.dataSecNum >>> 32 ≠ t'.dataSecNum >>> 32 →
      (tpsFsTransSerial t buf off).1.checkSum ≠ (tpsFsTransSerial t' buf' off').1.checkSum ∧
      ∀ psb, t.Fits psb → Rejected psb t t') := by
  have hsum : (tpsFsTransSerial t buf off).1.checkSum ≠ (tpsFsTransSerial t' buf' off').1.checkSum ↔
      part (f.value t) f ≠ part (f.value t') f := not_congr (sum_eq_iff ht ht' h.2)
  have hpart (hf : f ≠ .dataSecNum) (n : ℕ) : part n f = fold n := by
    cases f <;> first | rfl | exact absurd rfl hf
  refine ⟨fun hf => ?_, fun hbits => ?_, ?_⟩
  · rw [hsum, ← hpart hf, ← hpart hf]
    exact ⟨Iff.rfl, fun psb hfits => rejected_iff hfits ht' h⟩
  · have hf : f ≠ .dataSecNum := by
      rintro rfl
      cases hbits
    rw [← hpart hf, ← hpart hf]
    exact part_ne ht ht' h hbits
  · rintro rfl hhigh
    have hlt := ht .dataSecNum
    have hlt' := ht' .dataSecNum
    have hne : part (HeaderField.dataSecNum.value t) .dataSecNum ≠
        part (HeaderField.dataSecNum.value t') .dataSecNum := by
      change t.dataSecNum < 2 ^ 64 at hlt
      change t'.dataSecNum < 2 ^ 64 at hlt'
      change u32 (t.dataSecNum >>> 32) ≠ u32 (t'.dataSecNum >>> 32)
      rw [Nat.shiftRight_eq_div_pow, Nat.shiftRight_eq_div_pow] at hhigh ⊢
      unfold u32
      omega
    exact ⟨hsum.mpr hne, fun psb hfits => (rejected_iff hfits ht' h).mpr (.inl hne)⟩

/-- The header of a committed transaction with two sectors of data. -/
def committedHeader (serialNum : ℕ) : Trans where
  magic := transMagic
  reserved := 0
  generation := 7
  serialNum := serialNum
  iType := 1
  iStatus := .commit
  reserved64 := 0
  time := 0
  dataSecNum := 100
  dataSecCnt := 2
  checkSum := 0
  tdReserved0 := 0
  tdReserved1 := 0
  secAreaArr := []

theorem differAt_serialNum (hne : n ≠ m) :
    DifferAt .serialNum (committedHeader n) (committedHeader m) := by
  refine ⟨hne, fun g hg => ?_⟩
  cases g <;> first | rfl | exact absurd rfl hg

theorem typed_committedHeader (h : n < 2 ^ 64) : (committedHeader n).Typed := by
  intro f
  cases f <;> first | exact h | exact of_decide_eq_true rfl

theorem checkSum_covers_serialNum :
    (tpsFsTransSerial (committedHeader 1) [] 0).1.checkSum ≠
      (tpsFsTransSerial (committedHeader 2) [] 0).1.checkSum :=
  ((checkSum_covers (typed_committedHeader (by decide)) (typed_committedHeader (by decide))
    (differAt_serialNum (by decide)) [] [] 0 0).1 (by decide)).1.mpr (by decide)

/-- A bit that moves from one half of a field to the other is not seen. -/
theorem not_checkSum_ne : ¬ ∀ (f : HeaderField) (t t' : Trans), t.Typed → t'.Typed → DifferAt f t t' →
    (tpsFsTransSerial t [] 0).1.checkSum ≠ (tpsFsTransSerial t' [] 0).1.checkSum := by
  intro h
  exact h .serialNum (committedHeader 1) (committedHeader (2 ^ 32)) (typed_committedHeader (by decide))
    (typed_committedHeader (by decide)) (differAt_serialNum (by decide)) (by decide)

end SylixOS.TpsFs
