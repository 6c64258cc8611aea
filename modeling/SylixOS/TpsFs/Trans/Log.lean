import SylixOS.TpsFs.Trans.Commit

/-! # The ring of transaction headers

The header of the transaction with serial number `k` goes to slot `k % N` of the `N` slots of the
header area. Slots that have not been written in this lap keep the headers of the lap before,
apart from those of the current sector, which are erased when the sector is written.
-/

namespace SylixOS.TpsFs
open Lib Lib.Store Lib.Disk Lib.Outcome Lib.LittleEndian

/-- How many headers a sector holds. -/
def slotsPerSec (psb : SuperBlock) : ℕ := 1 <<< (psb.secShift - tranShift)

theorem slotsPerSec_mul (psb : SuperBlock) : slotsPerSec psb * 64 = psb.secSize := by
  have h := psb.secShift_ge
  rw [slotsPerSec, Nat.one_shiftLeft, SuperBlock.secSize, tranShift, show 64 = 2 ^ 6 from rfl,
    ← Nat.pow_add, Nat.sub_add_cancel (by omega)]

theorem slotsPerSec_pos (psb : SuperBlock) : 0 < slotsPerSec psb := by
  rw [slotsPerSec, Nat.one_shiftLeft]
  exact Nat.two_pow_pos _

/-- The number of slots of the header area. -/
def slotCnt (psb : SuperBlock) : ℕ :=
  (tpsFsBtreeTransInit psb).transSecCnt <<< (psb.secShift - tranShift)

theorem slotCnt_eq (psb : SuperBlock) :
    slotCnt psb = (tpsFsBtreeTransInit psb).transSecCnt * slotsPerSec psb := by
  rw [slotCnt, slotsPerSec, Nat.shiftLeft_eq, Nat.one_shiftLeft]

/-- The rest of the header sector from a slot on. -/
def slotBuf (psb : SuperBlock) (f : ℕ → UInt8) (i : ℕ) : List UInt8 :=
  (sector psb.secSize f ((tpsFsBtreeTransInit psb).transSecStart + i / slotsPerSec psb)).drop
    (i % slotsPerSec psb * 64)

/-- A buffer begins with a header of this volume. -/
structure Holds (psb : SuperBlock) (buf : List UInt8) (t : Trans) : Prop where
  fits : t.Fits psb
  sum : t.checkSum = t.sum
  bytes : buf.take 64 = t.bytes

/-- A buffer does not begin with a header of this volume. -/
def Vacant (psb : SuperBlock) (buf : List UInt8) : Prop :=
  ∀ t, (tpsFsTransUnserial psb t buf).iStatus = .uninit

theorem Holds.unserial {psb : SuperBlock} {buf : List UInt8} {t : Trans} (h : Holds psb buf t)
    (t' : Trans) : tpsFsTransUnserial psb t' buf =
      { t with
        tdReserved0 := t'.tdReserved0
        tdReserved1 := t'.tdReserved1
        secAreaArr := t'.secAreaArr } := by
  rw [← List.take_append_drop 64 buf, h.bytes]
  exact tpsFsTransUnserial_bytes h.fits t' _ h.sum

theorem Holds.status {psb : SuperBlock} {buf : List UInt8} {t : Trans} (h : Holds psb buf t) :
    t.iStatus ≠ .uninit := by
  rcases h.fits.status with h | h <;> rw [h] <;> decide

theorem Vacant.zero (psb : SuperBlock) {n m : ℕ} :
    Vacant psb ((List.replicate n (0 : UInt8)).drop m) := by
  intro t
  refine tpsFsTransUnserial_zero psb t ?_
  rw [List.drop_replicate, List.take_replicate, dec_replicate_zero]
  decide

/-- The header area after the header with serial number `e` was written: the slots up to its own
hold the headers of this lap, and the others nothing or an older header. -/
structure Ring (psb : SuperBlock) (f : ℕ → UInt8) (e : ℕ) (last : Trans) : Prop where
  newest : Holds psb (slotBuf psb f (e % slotCnt psb)) last
  serial : last.serialNum = e
  newer : ∀ i < e % slotCnt psb, ∃ t, Holds psb (slotBuf psb f i) t ∧
    t.serialNum = e - e % slotCnt psb + i
  older : ∀ i, e % slotCnt psb < i → i < slotCnt psb → Vacant psb (slotBuf psb f i) ∨
    ∃ t, Holds psb (slotBuf psb f i) t ∧ t.serialNum < e - e % slotCnt psb

/-! ## Steps of the cursor -/

theorem mod_succ {k n : ℕ} (hn : 0 < n) :
    (k + 1) % n = if k % n + 1 = n then 0 else k % n + 1 := by
  have hlt := Nat.mod_lt k hn
  rw [Nat.add_mod_eq_ite]
  rcases Nat.lt_or_ge 1 n with h | h
  · rw [Nat.mod_eq_of_lt h]
    split_ifs <;> omega
  · obtain rfl : n = 1 := by omega
    simp [Nat.mod_one]

/-- The next slot lies in the same sector, or it is the first one of the next sector. -/
theorem slot_succ {per c q : ℕ} (hper : 0 < per) (hq : q < c * per) :
    (if q % per + 1 = per then
      (if q + 1 = c * per then 0 else q + 1) / per = (if q / per + 1 = c then 0 else q / per + 1) ∧
        (if q + 1 = c * per then 0 else q + 1) % per = 0
    else (if q + 1 = c * per then 0 else q + 1) / per = q / per ∧
      (if q + 1 = c * per then 0 else q + 1) % per = q % per + 1) := by
  have hdm := Nat.div_add_mod' q per
  have hlt := Nat.mod_lt q hper
  by_cases hfull : q % per + 1 = per
  · have hq1 : q + 1 = (q / per + 1) * per := by rw [Nat.add_mul]; omega
    have hc : q + 1 = c * per ↔ q / per + 1 = c := by
      rw [hq1]
      exact ⟨fun h => Nat.eq_of_mul_eq_mul_right hper h, fun h => by rw [h]⟩
    rw [if_pos hfull]
    by_cases h : q / per + 1 = c
    · rw [if_pos (hc.mpr h), if_pos h]
      simp
    · rw [if_neg (fun h' => h (hc.mp h')), if_neg h, hq1]
      exact ⟨Nat.mul_div_cancel _ hper, Nat.mul_mod_left _ _⟩
  · have hne : q + 1 ≠ c * per := by
      intro h
      have hmod : (q + 1) % per = 0 := by rw [h, Nat.mul_mod_left]
      rw [mod_succ hper, if_neg hfull] at hmod
      omega
    rw [if_neg hfull, if_neg hne, mod_succ hper, if_neg hfull]
    refine ⟨?_, rfl⟩
    rw [Nat.div_eq_iff hper]
    omega

/-! ## Writing one more header -/

theorem Holds.of_take {psb : SuperBlock} {buf buf' : List UInt8} {t : Trans} (h : Holds psb buf t)
    (heq : buf'.take 64 = buf.take 64) : Holds psb buf' t :=
  ⟨h.fits, h.sum, heq.trans h.bytes⟩

/-- The header area of a volume whose next header has serial number `k`: nothing has been written
yet, or the newest header is that of transaction `k - 1`, and `P` holds of it. -/
def RingAt (psb : SuperBlock) (f : ℕ → UInt8) (k : ℕ) (P : Trans → Prop) : Prop :=
  (k = 0 ∧ ∀ i < slotCnt psb, Vacant psb (slotBuf psb f i)) ∨
    ∃ e last, k = e + 1 ∧ Ring psb f e last ∧ P last

section Write

variable {psb : SuperBlock} {f f' : ℕ → UInt8} {k : ℕ} {buff : List UInt8} {t : Trans}
  (hN : 0 < slotCnt psb)
  (hcur : sector psb.secSize f' ((tpsFsBtreeTransInit psb).transSecStart +
    k % slotCnt psb / slotsPerSec psb) =
      splice buff (k % slotCnt psb % slotsPerSec psb * 64) t.bytes)
  (hother : ∀ j < (tpsFsBtreeTransInit psb).transSecCnt,
    j ≠ k % slotCnt psb / slotsPerSec psb →
      sector psb.secSize f' ((tpsFsBtreeTransInit psb).transSecStart + j) =
        sector psb.secSize f ((tpsFsBtreeTransInit psb).transSecStart + j))
  (hlen : buff.length = psb.secSize)
  (hsame : k % slotCnt psb % slotsPerSec psb ≠ 0 →
    buff = sector psb.secSize f ((tpsFsBtreeTransInit psb).transSecStart +
      k % slotCnt psb / slotsPerSec psb))
  (hvac : ∀ j, k % slotCnt psb % slotsPerSec psb ≤ j → j < slotsPerSec psb →
    Vacant psb (buff.drop (j * 64)))

theorem slot_off_le (hlen : buff.length = psb.secSize) :
    k % slotCnt psb % slotsPerSec psb * 64 + 64 ≤ buff.length := by
  have hlt := Nat.mod_lt (k % slotCnt psb) (slotsPerSec_pos psb)
  have hmul := slotsPerSec_mul psb
  omega

include hother in
theorem slotBuf_other {i : ℕ} (hi : i < slotCnt psb)
    (hne : i / slotsPerSec psb ≠ k % slotCnt psb / slotsPerSec psb) :
    slotBuf psb f' i = slotBuf psb f i := by
  unfold slotBuf
  rw [hother _ _ hne]
  refine (Nat.div_lt_iff_lt_mul (slotsPerSec_pos psb)).mpr ?_
  rwa [← slotCnt_eq]

include hcur in
theorem slotBuf_same {i : ℕ} (heq : i / slotsPerSec psb = k % slotCnt psb / slotsPerSec psb) :
    slotBuf psb f' i = (splice buff (k % slotCnt psb % slotsPerSec psb * 64) t.bytes).drop
      (i % slotsPerSec psb * 64) := by
  unfold slotBuf
  rw [heq, hcur]

include hcur hlen in
theorem slotBuf_new (ht : t.Fits psb) (hsum : t.checkSum = t.sum) :
    Holds psb (slotBuf psb f' (k % slotCnt psb)) t := by
  refine ⟨ht, hsum, ?_⟩
  have hoff := slot_off_le (k := k) hlen
  rw [slotBuf_same hcur rfl, drop_splice_self _ _ _ (by omega),
    List.take_left' (Trans.bytes_length t)]

include hN hcur hother hlen hsame in
/-- Headers before the new one stay. -/
theorem slotBuf_before {i : ℕ} {t' : Trans} (hi : i < k % slotCnt psb)
    (h : Holds psb (slotBuf psb f i) t') : Holds psb (slotBuf psb f' i) t' := by
  have hq := Nat.mod_lt k hN
  by_cases hne : i / slotsPerSec psb = k % slotCnt psb / slotsPerSec psb
  · have hoff := slot_off_le (k := k) hlen
    have h₁ := Nat.div_add_mod' i (slotsPerSec psb)
    have h₂ := Nat.div_add_mod' (k % slotCnt psb) (slotsPerSec psb)
    rw [hne] at h₁
    refine h.of_take ?_
    rw [slotBuf_same hcur hne, take_drop_splice_of_le _ _ _ (by omega) (by omega),
      hsame (by omega), ← hne]
    rfl
  · rwa [slotBuf_other hother (hi.trans hq) hne]

include hcur hother hlen hvac in
/-- A slot behind the new header is erased, or it is as it was and lies in another sector. -/
theorem slotBuf_after {i : ℕ} (hi : k % slotCnt psb < i) (hiN : i < slotCnt psb) :
    Vacant psb (slotBuf psb f' i) ∨ slotBuf psb f' i = slotBuf psb f i := by
  by_cases hne : i / slotsPerSec psb = k % slotCnt psb / slotsPerSec psb
  · left
    have hoff := slot_off_le (k := k) hlen
    have h₁ := Nat.div_add_mod' i (slotsPerSec psb)
    have h₂ := Nat.div_add_mod' (k % slotCnt psb) (slotsPerSec psb)
    have h₃ := Nat.mod_lt i (slotsPerSec_pos psb)
    rw [hne] at h₁
    rw [slotBuf_same hcur hne, drop_splice_of_ge _ _ _ (by omega)
      (by rw [Trans.bytes_length]; omega)]
    exact hvac _ (by omega) h₃
  · exact .inr (slotBuf_other hother hiN hne)

include hN hcur hother hlen hsame hvac in
/-- One more header in the ring. -/
theorem RingAt.write {P : Trans → Prop} (h : RingAt psb f k P) (ht : t.Fits psb)
    (hsum : t.checkSum = t.sum) (hserial : t.serialNum = k) : Ring psb f' k t := by
  have hnew := slotBuf_new hcur hlen ht hsum
  have hbefore {i : ℕ} {t' : Trans} (hi : i < k % slotCnt psb)
      (h : Holds psb (slotBuf psb f i) t') := slotBuf_before hN hcur hother hlen hsame hi h
  have hafter {i : ℕ} (hi : k % slotCnt psb < i) (hiN : i < slotCnt psb) :=
    slotBuf_after hcur hother hlen hvac hi hiN
  rcases h with ⟨rfl, hvacant⟩ | ⟨e, last, rfl, hring, -⟩
  · refine ⟨hnew, hserial, fun i hi => ?_, fun i hi hiN => .inl ?_⟩
    · rw [Nat.zero_mod] at hi
      omega
    · rcases hafter hi hiN with h | h
      · exact h
      · rw [h]
        exact hvacant i hiN
  · have hmod := mod_succ (k := e) hN
    have hle := Nat.mod_le e (slotCnt psb)
    have hlt := Nat.mod_lt e hN
    by_cases hwrap : e % slotCnt psb + 1 = slotCnt psb
    · -- a new lap begins
      rw [if_pos hwrap] at hmod
      refine ⟨hnew, hserial, fun i hi => by omega, fun i hi hiN => ?_⟩
      rcases hafter hi hiN with h | h
      · exact .inl h
      · rw [h, hmod]
        right
        rcases Nat.lt_or_ge i (e % slotCnt psb) with hi' | hi'
        · obtain ⟨t', ht', hs'⟩ := hring.newer i hi'
          exact ⟨t', ht', by omega⟩
        · obtain rfl : i = e % slotCnt psb := by omega
          exact ⟨last, hring.newest, by rw [hring.serial]; omega⟩
    · rw [if_neg hwrap] at hmod
      refine ⟨hnew, hserial, fun i hi => ?_, fun i hi hiN => ?_⟩
      · rcases Nat.lt_or_ge i (e % slotCnt psb) with hi' | hi'
        · obtain ⟨t', ht', hs'⟩ := hring.newer i hi'
          exact ⟨t', hbefore hi ht', by omega⟩
        · obtain rfl : i = e % slotCnt psb := by omega
          exact ⟨last, hbefore hi hring.newest, by rw [hring.serial]; omega⟩
      · rcases hafter hi hiN with h | h
        · exact .inl h
        · rw [h]
          rcases hring.older i (by omega) hiN with h | ⟨t', ht', hs'⟩
          · exact .inl h
          · exact .inr ⟨t', ht', by omega⟩

end Write

theorem RingAt.congr {psb : SuperBlock} {f g : ℕ → UInt8} {k : ℕ} {P : Trans → Prop}
    (h : RingAt psb f k P) (hN : 0 < slotCnt psb)
    (hfg : ∀ j < (tpsFsBtreeTransInit psb).transSecCnt,
      sector psb.secSize g ((tpsFsBtreeTransInit psb).transSecStart + j) =
        sector psb.secSize f ((tpsFsBtreeTransInit psb).transSecStart + j)) :
    RingAt psb g k P := by
  have hslot (i : ℕ) (hi : i < slotCnt psb) : slotBuf psb g i = slotBuf psb f i := by
    unfold slotBuf
    rw [hfg]
    refine (Nat.div_lt_iff_lt_mul (slotsPerSec_pos psb)).mpr ?_
    rwa [← slotCnt_eq]
  rcases h with ⟨hk, hvac⟩ | ⟨e, last, hk, hring, hP⟩
  · refine .inl ⟨hk, fun i hi => ?_⟩
    rw [hslot i hi]
    exact hvac i hi
  · have hp := Nat.mod_lt e hN
    refine .inr ⟨e, last, hk, ⟨?_, hring.serial, fun i hi => ?_, fun i hi hiN => ?_⟩, hP⟩
    · rw [hslot _ hp]
      exact hring.newest
    · rw [hslot i (hi.trans hp)]
      exact hring.newer i hi
    · rw [hslot i hiN]
      exact hring.older i hi hiN

/-! ## The volume between two transactions -/

/-- The log sector where the next transaction begins, after one whose data ends at `dataEnd`. -/
def nextDataSec (psb : SuperBlock) (dataEnd : ℕ) : ℕ :=
  if (tpsFsBtreeTransInit psb).transDataStart + (tpsFsBtreeTransInit psb).transDataCnt -
      transRevDataSec psb ≤ dataEnd then
    (tpsFsBtreeTransInit psb).transDataStart
  else dataEnd

/-- The slot behind that of serial number `k` is that of serial number `k + 1`. -/
theorem TransSb.advance_eq {psb : SuperBlock} (t : TransSb) {k : ℕ} (dataEnd : ℕ)
    (hpos : 0 < (tpsFsBtreeTransInit psb).transSecCnt)
    (hst : t.transSecStart = (tpsFsBtreeTransInit psb).transSecStart)
    (hsc : t.transSecCnt = (tpsFsBtreeTransInit psb).transSecCnt)
    (hds : t.transDataStart = (tpsFsBtreeTransInit psb).transDataStart)
    (hdc : t.transDataCnt = (tpsFsBtreeTransInit psb).transDataCnt)
    (hcur : t.transCurSec =
      (tpsFsBtreeTransInit psb).transSecStart + k % slotCnt psb / slotsPerSec psb)
    (hoff : t.transSecOff = k % slotCnt psb % slotsPerSec psb * 64)
    (hser : t.serialNum = k) (hk : k + 1 < 2 ^ 64) :
    t.advance psb dataEnd =
      { tpsFsBtreeTransInit psb with
        transCurSec :=
          (tpsFsBtreeTransInit psb).transSecStart + (k + 1) % slotCnt psb / slotsPerSec psb
        transSecOff := (k + 1) % slotCnt psb % slotsPerSec psb * 64
        secBuff := if (k + 1) % slotCnt psb % slotsPerSec psb = 0 then
          List.replicate psb.secSize 0 else t.secBuff
        dataCurSec := nextDataSec psb dataEnd
        serialNum := k + 1 } := by
  have hper := slotsPerSec_pos psb
  have hmul := slotsPerSec_mul psb
  have hN : 0 < slotCnt psb := by
    rw [slotCnt_eq]
    exact Nat.mul_pos hpos hper
  have hlt := Nat.mod_lt (k % slotCnt psb) hper
  have hsec : k % slotCnt psb / slotsPerSec psb < (tpsFsBtreeTransInit psb).transSecCnt := by
    refine (Nat.div_lt_iff_lt_mul hper).mpr ?_
    rw [← slotCnt_eq]
    exact Nat.mod_lt _ hN
  have hu : u64 (k + 1) = k + 1 := Nat.mod_eq_of_lt hk
  have hstep := slot_succ (c := (tpsFsBtreeTransInit psb).transSecCnt) hper
    (q := k % slotCnt psb) (by rw [← slotCnt_eq]; exact Nat.mod_lt _ hN)
  rw [← slotCnt_eq, ← mod_succ hN] at hstep
  have hdata : (t.advance psb dataEnd).dataCurSec = nextDataSec psb dataEnd := by
    change (if t.transDataStart + t.transDataCnt - transRevDataSec psb ≤ dataEnd then _ else _) = _
    rw [hds, hdc, nextDataSec]
  have hserial : (t.advance psb dataEnd).serialNum = k + 1 := by
    change u64 (t.serialNum + 1) = _
    rw [hser, hu]
  by_cases hfull : k % slotCnt psb % slotsPerSec psb + 1 = slotsPerSec psb
  · rw [if_pos hfull] at hstep
    have hslot : t.advanceSlot psb = _ := if_pos (by dsimp only [tranSize]; rw [hoff]; omega)
    rw [TransSb.advance, hslot, TransSb.mk.injEq]
    refine ⟨hst, hsc, hds, hdc, ?_, ?_, ?_, hdata, hserial⟩
    · change (if t.transSecStart + t.transSecCnt ≤ t.transCurSec + 1 then t.transSecStart
        else t.transCurSec + 1) = _
      rw [hstep.1, hst, hsc, hcur]
      split_ifs <;> omega
    · rw [hstep.2]
    · rw [if_pos hstep.2]
  · rw [if_neg hfull] at hstep
    have hslot : t.advanceSlot psb = _ := if_neg (by dsimp only [tranSize]; rw [hoff]; omega)
    rw [TransSb.advance, hslot, TransSb.mk.injEq]
    refine ⟨hst, hsc, hds, hdc, ?_, ?_, ?_, hdata, hserial⟩
    · rw [hstep.1]
      exact hcur
    · rw [hstep.2, hoff, Nat.add_mul]
      rfl
    · rw [if_neg (by omega)]

namespace Vol

/-- The part of the transaction object that no transaction changes. -/
structure SameKind (t t' : Trans) : Prop where
  magic : t'.magic = t.magic
  generation : t'.generation = t.generation
  reserved : t'.reserved = t.reserved
  iType : t'.iType = t.iType
  reserved64 : t'.reserved64 = t.reserved64

/-- The log in memory and on the disk belong together: the slot for the next header is the one
of its serial number, the buffered sector is the one of this slot, and the header area is the
ring. -/
structure LogOk (v : Vol) : Prop where
  geom : v.ptranssb =
    { tpsFsBtreeTransInit v.psb with
      transCurSec := v.ptranssb.transCurSec
      transSecOff := v.ptranssb.transSecOff
      secBuff := v.ptranssb.secBuff
      dataCurSec := v.ptranssb.dataCurSec
      serialNum := v.ptranssb.serialNum }
  secCnt_pos : 0 < (tpsFsBtreeTransInit v.psb).transSecCnt
  rev_lt : transRevDataSec v.psb < (tpsFsBtreeTransInit v.psb).transDataCnt
  dataCnt_lt : (tpsFsBtreeTransInit v.psb).transDataCnt < 2 ^ 31
  onDev : (tpsFsBtreeTransInit v.psb).transDataStart + (tpsFsBtreeTransInit v.psb).transDataCnt ≤
    v.dev.sectorCnt
  magic : v.ptrans.magic = transMagic
  generation : v.ptrans.generation = v.psb.generation
  reserved : v.ptrans.reserved < 2 ^ 32
  iType : v.ptrans.iType < 2 ^ 32
  reserved64 : v.ptrans.reserved64 < 2 ^ 64
  curSec : v.ptranssb.transCurSec = (tpsFsBtreeTransInit v.psb).transSecStart +
    v.ptranssb.serialNum % slotCnt v.psb / slotsPerSec v.psb
  secOff : v.ptranssb.transSecOff =
    v.ptranssb.serialNum % slotCnt v.psb % slotsPerSec v.psb * 64
  buffLen : v.ptranssb.secBuff.length = v.psb.secSize
  buffSame : v.ptranssb.serialNum % slotCnt v.psb % slotsPerSec v.psb ≠ 0 →
    v.ptranssb.secBuff = sector v.psb.secSize v.dev.data v.ptranssb.transCurSec
  buffVacant : ∀ j, v.ptranssb.serialNum % slotCnt v.psb % slotsPerSec v.psb ≤ j →
    j < slotsPerSec v.psb → Vacant v.psb (v.ptranssb.secBuff.drop (j * 64))
  dataCur : (tpsFsBtreeTransInit v.psb).transDataStart ≤ v.ptranssb.dataCurSec
  ring : RingAt v.psb v.dev.data v.ptranssb.serialNum fun last =>
    last.iStatus = .complete ∧
    v.ptranssb.dataCurSec = nextDataSec v.psb (last.dataSecNum + last.dataSecCnt) ∧
    (v.ptranssb.serialNum % slotCnt v.psb % slotsPerSec v.psb = 0 →
      v.ptranssb.secBuff = List.replicate v.psb.secSize 0)

/-- A transaction that has been begun and not yet committed. -/
structure Running (v : Vol) : Prop where
  log : v.LogOk
  trans : v.TransOk
  serial : v.ptrans.serialNum = v.ptranssb.serialNum
  time : v.ptrans.time < 2 ^ 64
  below : Below (tpsFsBtreeTransInit v.psb).transSecStart v

variable {v : Vol}

theorem LogOk.slotCnt_pos (h : v.LogOk) : 0 < slotCnt v.psb := by
  rw [slotCnt_eq]
  exact Nat.mul_pos h.secCnt_pos (slotsPerSec_pos _)

theorem LogOk.sec_lt (h : v.LogOk) : v.ptranssb.serialNum % slotCnt v.psb / slotsPerSec v.psb <
    (tpsFsBtreeTransInit v.psb).transSecCnt := by
  refine (Nat.div_lt_iff_lt_mul (slotsPerSec_pos _)).mpr ?_
  rw [← slotCnt_eq]
  exact Nat.mod_lt _ h.slotCnt_pos

theorem transDataStart_eq (psb : SuperBlock) : (tpsFsBtreeTransInit psb).transDataStart =
    (tpsFsBtreeTransInit psb).transSecStart + (tpsFsBtreeTransInit psb).transSecCnt := rfl

/-- The counts of a transaction stay within their `UINT`. -/
theorem Running.cnt_lt (h : v.Running) :
    v.ptrans.dataSecCnt + v.ptrans.secAreaArr.length < 2 ^ 32 := by
  have hgeom := h.log.geom
  have hlt := h.log.dataCnt_lt
  have hstart := h.trans.start_le
  have hshort := h.trans.short
  have hmax : maxArea v.psb ≤ 2 ^ 30 := by
    have hb := v.psb.blkShift_lt
    rw [maxArea, Nat.shiftLeft_eq]
    calc 0x400 * 2 ^ (v.psb.blkShift - 12) ≤ 0x400 * 2 ^ 19 :=
          Nat.mul_le_mul_left _ (Nat.pow_le_pow_right (by decide) (by omega))
      _ ≤ 2 ^ 30 := by decide
  have hcnt : v.ptranssb.transDataCnt = (tpsFsBtreeTransInit v.psb).transDataCnt := by rw [hgeom]
  have hroom : v.ptrans.dataSecCnt ≤ v.ptranssb.transDataCnt := by
    rcases h.trans.room with ⟨-, h⟩ | h <;> omega
  omega

/-- The log stays in order as long as its headers and cursors and the fixed part of the transaction
object stay. -/
theorem LogOk.congr {w : Vol} (h : v.LogOk) (hpsb : w.psb = v.psb)
    (hcnt : w.dev.sectorCnt = v.dev.sectorCnt) (hsb : w.ptranssb = v.ptranssb)
    (ht : SameKind v.ptrans w.ptrans)
    (hsec : ∀ j < (tpsFsBtreeTransInit v.psb).transSecCnt,
      sector v.psb.secSize w.dev.data ((tpsFsBtreeTransInit v.psb).transSecStart + j) =
        sector v.psb.secSize v.dev.data ((tpsFsBtreeTransInit v.psb).transSecStart + j)) :
    w.LogOk := by
  constructor <;> (try rw [hpsb]) <;> (try rw [hsb])
  · exact h.geom
  · exact h.secCnt_pos
  · exact h.rev_lt
  · exact h.dataCnt_lt
  · rw [hcnt]
    exact h.onDev
  · exact ht.magic.trans h.magic
  · exact ht.generation.trans h.generation
  · rw [ht.reserved]
    exact h.reserved
  · rw [ht.iType]
    exact h.iType
  · rw [ht.reserved64]
    exact h.reserved64
  · exact h.curSec
  · exact h.secOff
  · exact h.buffLen
  · intro hne
    rw [h.buffSame hne, h.curSec]
    exact (hsec _ h.sec_lt).symm
  · exact h.buffVacant
  · exact h.dataCur
  · exact h.ring.congr h.slotCnt_pos hsec

/-- From `v` on, a transaction that has not been committed yet has led to `w`: on the device it
has only filled the log. -/
structure LogFilled (v w : Vol) : Prop where
  psb : w.psb = v.psb
  ptranssb : w.ptranssb = v.ptranssb
  kind : SameKind v.ptrans w.ptrans
  log : ∃ es, w.dev = v.dev.after v.psb.secSize es ∧ Whole v.psb.secSize es ∧
    Within (fun s => v.ptrans.dataSecNum ≤ s) es

theorem SameTrans.filled {w : Vol} (h : SameTrans v w) : LogFilled v w := by
  obtain ⟨es, hdev, hw, hin, -⟩ := h.log
  refine ⟨h.psb, h.ptranssb, ?_, es, hdev, hw, hin.mono fun s hs => by omega⟩
  rw [h.ptrans]
  exact ⟨rfl, rfl, rfl, rfl, rfl⟩

theorem SameTrans.trans_filled {u w : Vol} (h : SameTrans u v) (h' : LogFilled v w) :
    LogFilled u w := by
  obtain ⟨es, hdev, hw, hin, -⟩ := h.log
  obtain ⟨es', hdev', hw', hin'⟩ := h'.log
  have hk := h.filled.kind
  refine ⟨h'.psb.trans h.psb, h'.ptranssb.trans h.ptranssb, ⟨h'.kind.magic.trans hk.magic,
    h'.kind.generation.trans hk.generation, h'.kind.reserved.trans hk.reserved,
    h'.kind.iType.trans hk.iType, h'.kind.reserved64.trans hk.reserved64⟩, es ++ es', ?_, ?_, ?_⟩
  · rw [hdev', hdev, h.psb, Dev.after_append]
  · rw [h.psb] at hw'
    exact hw.append hw'
  · rw [h.dataSecNum] at hin'
    exact (hin.mono fun s hs => by omega).append hin'

/-- A transaction leaves the header area alone until it is committed. -/
theorem LogOk.filled {w : Vol} (h : v.LogOk)
    (hstart : (tpsFsBtreeTransInit v.psb).transDataStart ≤ v.ptrans.dataSecNum)
    (hs : LogFilled v w) : w.LogOk := by
  obtain ⟨es, hdev, hw, hin⟩ := hs.log
  refine h.congr hs.psb (by rw [hdev, Dev.after_sectorCnt]) hs.ptranssb hs.kind fun j hj => ?_
  rw [hdev]
  refine sector_applyAll hw hin ?_
  rw [transDataStart_eq] at hstart
  omega

/-- So do writes to places before the log. -/
theorem LogOk.after {es : List (IoEvent UInt8)} (h : v.LogOk) (hw : Whole v.psb.secSize es)
    (hin : Within (· < (tpsFsBtreeTransInit v.psb).transSecStart) es) : (v.after es).LogOk :=
  h.congr rfl rfl rfl ⟨rfl, rfl, rfl, rfl, rfl⟩ fun _ _ => sector_applyAll hw hin (by omega)

theorem LogOk.begin {v₁ : Vol} {time : ℕ} (h : v.LogOk)
    (hb : tpsFsTransAllocAndInit time v = (.ok true, v₁)) : v₁.Running := by
  have hge := h.dataCur
  have hlt := h.dataCnt_lt
  have hgeom := h.geom
  obtain ⟨htrans, -⟩ := tpsFsTransAllocAndInit_ok (by rw [hgeom]; exact hge)
    (by rw [hgeom]; exact hlt.trans (by decide)) hb
  unfold tpsFsTransAllocAndInit at hb
  split_ifs at hb <;> cases hb
  exact ⟨h.congr rfl rfl rfl ⟨rfl, rfl, rfl, rfl, rfl⟩ fun _ _ => rfl, htrans, rfl,
    Nat.mod_lt _ (by decide), fun a ha => by cases ha⟩

theorem Running.dataStart_le (h : v.Running) :
    (tpsFsBtreeTransInit v.psb).transDataStart ≤ v.ptrans.dataSecNum := by
  have := h.trans.start_le
  rwa [h.log.geom] at this

theorem Running.writes {v' : Vol} {ws : List TransWrite} {u : Unit} (h : v.Running)
    (hbelow : WritesBelow v.psb (tpsFsBtreeTransInit v.psb).transSecStart ws)
    (hw : tpsFsTransWrites ws v = (.ok u, v')) : v'.Running := by
  obtain ⟨htrans, hs, -, hL⟩ := tpsFsTransWrites_ok h.trans hw
  refine ⟨h.log.filled h.dataStart_le hs.filled, htrans, ?_, ?_, ?_⟩
  · rw [hs.ptrans, hs.ptranssb]
    exact h.serial
  · rw [hs.ptrans]
    exact h.time
  · rw [hs.psb]
    exact hL _ hbelow h.below

/-- A transaction with something in it can be committed as soon as its list of areas fits on the
device. -/
theorem Running.committable (h : v.Running) (hareas : v.ptrans.secAreaArr ≠ [])
    (hdev : v.ptrans.dataSecNum + v.fullCnt ≤ v.dev.sectorCnt) : v.Committable := by
  have hgeom := h.log.geom
  have hstart := h.dataStart_le
  have hS := transDataStart_eq v.psb
  refine ⟨hareas, h.cnt_lt, hdev, h.log.buffLen, ?_, ?_, h.trans.logged, fun a ha => ?_⟩
  · rw [h.log.secOff, ← h.log.buffLen]
    exact slot_off_le h.log.buffLen
  · have h₁ := h.log.sec_lt
    have h₂ := h.log.onDev
    rw [h.log.curSec]
    omega
  · have := h.below a ha
    omega

theorem Committable.headerSec_length (h : v.Committable) (cnt : ℕ) (st : TransStatus) :
    (v.headerSec cnt st).length = v.psb.secSize := by
  have := h.secOff
  rw [headerSec, splice_length, h.secBuff]
  rwa [Trans.bytes_length, h.secBuff]

section Commit

variable {esList esHome : List (IoEvent UInt8)}

theorem CommitRun.whole (h : v.Committable) (hr : v.CommitRun esList esHome) :
    Whole v.psb.secSize (v.commitEvents esList esHome) := by
  have hone (st : TransStatus) :
      Whole v.psb.secSize [.write v.ptranssb.transCurSec (v.headerSec v.fullCnt st), .sync] := by
    intro s data hm
    simp only [List.mem_cons, IoEvent.write.injEq, reduceCtorEq, List.not_mem_nil, or_false] at hm
    rw [hm.2, h.headerSec_length]
  have heq : v.commitEvents esList esHome = esList ++ [.sync] ++
      [.write v.ptranssb.transCurSec (v.headerSec v.fullCnt .commit), .sync] ++ esHome ++
      [.write v.ptranssb.transCurSec (v.headerSec v.fullCnt .complete), .sync] := by
    simp [commitEvents]
  rw [heq]
  exact (((hr.listWhole.append Whole.sync).append (hone _)).append hr.homeWhole).append (hone _)

/-- The header slot holds the complete header after a commit. -/
theorem CommitRun.sector_cur (h : v.Committable) :
    sector v.psb.secSize (v.committed esList esHome).dev.data v.ptranssb.transCurSec =
      v.headerSec v.fullCnt .complete := by
  have heq : v.commitEvents esList esHome = (esList ++ .sync ::
      .write v.ptranssb.transCurSec (v.headerSec v.fullCnt .commit) :: .sync :: esHome) ++
      [.write v.ptranssb.transCurSec (v.headerSec v.fullCnt .complete), .sync] := by
    simp [commitEvents]
  change sector _ (applyAll _ _ (v.commitEvents esList esHome)) _ = _
  rw [heq, applyAll_append, applyAll_cons_write, applyAll_sync, applyAll_nil]
  exact sector_overlay_self _ (h.headerSec_length _ _)

/-- Sectors that are neither in the log nor covered by the transaction stay. -/
theorem CommitRun.sector_other (h : v.Committable) (hr : v.CommitRun esList esHome) {s : ℕ}
    (hlog : s < v.ptrans.dataSecNum + v.ptrans.dataSecCnt) (hcur : s ≠ v.ptranssb.transCurSec)
    (hcov : ∀ a ∈ v.ptrans.secAreaArr, ¬ a.Covers s) :
    sector v.psb.secSize (v.committed esList esHome).dev.data s =
      sector v.psb.secSize v.dev.data s := by
  refine sector_applyAll (P := fun s => v.ptrans.dataSecNum + v.ptrans.dataSecCnt ≤ s ∨
    s = v.ptranssb.transCurSec ∨ ∃ a ∈ v.ptrans.secAreaArr, a.Covers s) (hr.whole h) ?_ ?_
  · intro t data hm
    simp only [commitEvents, List.mem_append, List.mem_cons, reduceCtorEq, false_or,
      IoEvent.write.injEq, List.not_mem_nil, or_false] at hm
    rcases hm with hm | ⟨rfl, -⟩ | hm | ⟨rfl, -⟩
    · exact .inl (hr.listIn t data hm)
    · exact .inr (.inl rfl)
    · exact .inr (.inr (hr.homeIn t data hm))
    · exact .inr (.inl rfl)
  · rintro (h' | h' | ⟨a, ha, h'⟩)
    · omega
    · exact hcur h'
    · exact hcov a ha h'

theorem header_fits (h : v.Running) (hdev : v.ptrans.dataSecNum + v.fullCnt ≤ v.dev.sectorCnt)
    (hk : v.ptranssb.serialNum < 2 ^ 64) {st : TransStatus} (hst : st = .commit ∨ st = .complete) :
    (v.header v.fullCnt st).Fits v.psb := by
  have hcnt := h.cnt_lt
  have hle := listSecs_le v.psb v.ptrans.secAreaArr.length
  have hdev' := v.dev.sectorCnt_lt
  refine ⟨h.log.magic, h.log.generation, hst, h.log.reserved, ?_, h.log.iType, h.log.reserved64,
    h.time, ?_, ?_⟩
  · change v.ptrans.serialNum < 2 ^ 64
    rwa [h.serial]
  · change v.ptrans.dataSecNum < 2 ^ 64
    omega
  · change v.fullCnt < 2 ^ 32
    unfold fullCnt
    omega

/-- A commit takes the log to the next slot of the ring. -/
theorem Running.committed_log (h : v.Running) (hareas : v.ptrans.secAreaArr ≠ [])
    (hdev : v.ptrans.dataSecNum + v.fullCnt ≤ v.dev.sectorCnt)
    (hk : v.ptranssb.serialNum + 1 < 2 ^ 64) (hr : v.CommitRun esList esHome) :
    (v.committed esList esHome).LogOk ∧
      (v.committed esList esHome).ptranssb.serialNum = v.ptranssb.serialNum + 1 := by
  have hc := h.committable hareas hdev
  have hN := h.log.slotCnt_pos
  have hper := slotsPerSec_pos v.psb
  have hgeom := h.log.geom
  have hstart := h.dataStart_le
  have hS := transDataStart_eq v.psb
  have hsec := h.log.sec_lt
  -- the header area
  have hcur : sector v.psb.secSize (v.committed esList esHome).dev.data
      ((tpsFsBtreeTransInit v.psb).transSecStart +
        v.ptranssb.serialNum % slotCnt v.psb / slotsPerSec v.psb) =
      splice v.ptranssb.secBuff
        (v.ptranssb.serialNum % slotCnt v.psb % slotsPerSec v.psb * 64)
        (v.header v.fullCnt .complete).bytes := by
    rw [← h.log.curSec, ← h.log.secOff]
    exact CommitRun.sector_cur hc
  have hother (j : ℕ) (hj : j < (tpsFsBtreeTransInit v.psb).transSecCnt)
      (hne : j ≠ v.ptranssb.serialNum % slotCnt v.psb / slotsPerSec v.psb) :
      sector v.psb.secSize (v.committed esList esHome).dev.data
        ((tpsFsBtreeTransInit v.psb).transSecStart + j) =
      sector v.psb.secSize v.dev.data ((tpsFsBtreeTransInit v.psb).transSecStart + j) := by
    refine hr.sector_other hc (by omega) (by rw [h.log.curSec]; omega) fun a ha hcov => ?_
    have := h.below a ha
    rw [SecArea.covers_iff] at hcov
    omega
  have hsame : v.ptranssb.serialNum % slotCnt v.psb % slotsPerSec v.psb ≠ 0 →
      v.ptranssb.secBuff = sector v.psb.secSize v.dev.data
        ((tpsFsBtreeTransInit v.psb).transSecStart +
          v.ptranssb.serialNum % slotCnt v.psb / slotsPerSec v.psb) := by
    rw [← h.log.curSec]
    exact h.log.buffSame
  have hring := h.log.ring.write hN hcur hother h.log.buffLen hsame h.log.buffVacant
    (header_fits h hdev (by omega) (.inr rfl)) rfl h.serial
  -- the next slot
  have hoff := slot_off_le (k := v.ptranssb.serialNum) h.log.buffLen
  have hadv : (v.committed esList esHome).ptranssb = _ :=
    TransSb.advance_eq { v.ptranssb with secBuff := v.headerSec v.fullCnt .complete }
      (v.ptrans.dataSecNum + v.fullCnt) h.log.secCnt_pos (by rw [hgeom]) (by rw [hgeom])
      (by rw [hgeom]) (by rw [hgeom]) h.log.curSec h.log.secOff rfl hk
  have hdata : (tpsFsBtreeTransInit v.psb).transDataStart ≤
      nextDataSec v.psb (v.ptrans.dataSecNum + v.fullCnt) := by
    unfold nextDataSec
    split_ifs <;> omega
  have hstep := slot_succ (c := (tpsFsBtreeTransInit v.psb).transSecCnt) hper
    (q := v.ptranssb.serialNum % slotCnt v.psb) (by rw [← slotCnt_eq]; exact Nat.mod_lt _ hN)
  rw [← slotCnt_eq, ← mod_succ hN] at hstep
  refine ⟨?_, by rw [hadv]⟩
  constructor <;> (try rw [hadv]) <;>
    (try rw [show (v.committed esList esHome).psb = v.psb from rfl])
  · exact h.log.secCnt_pos
  · exact h.log.rev_lt
  · exact h.log.dataCnt_lt
  · exact h.log.onDev
  · exact h.log.magic
  · exact h.log.generation
  · exact h.log.reserved
  · exact h.log.iType
  · exact h.log.reserved64
  · dsimp only
    split_ifs
    · exact List.length_replicate
    · exact hc.headerSec_length _ _
  · intro hne
    dsimp only at hne ⊢
    rw [if_neg hne]
    have hcur' : sector _ (v.committed esList esHome).dev.data _ = _ := CommitRun.sector_cur hc
    rw [h.log.curSec] at hcur'
    by_cases hfull : v.ptranssb.serialNum % slotCnt v.psb % slotsPerSec v.psb + 1 =
      slotsPerSec v.psb
    · rw [if_pos hfull] at hstep
      exact absurd hstep.2 hne
    · rw [if_neg hfull] at hstep
      rw [hstep.1]
      exact hcur'.symm
  · intro j hj hjlt
    dsimp only at hj ⊢
    split_ifs with hz
    · exact Vacant.zero v.psb
    · by_cases hfull : v.ptranssb.serialNum % slotCnt v.psb % slotsPerSec v.psb + 1 =
        slotsPerSec v.psb
      · rw [if_pos hfull] at hstep
        exact absurd hstep.2 hz
      · rw [if_neg hfull] at hstep
        rw [headerSec, drop_splice_of_ge _ _ _ (by rw [h.log.secOff]; omega)
          (by rw [Trans.bytes_length, h.log.secOff]; omega)]
        exact h.log.buffVacant j (by omega) hjlt
  · exact hdata
  · exact .inr ⟨v.ptranssb.serialNum, _, rfl, hring, rfl, rfl, fun hz => if_pos hz⟩

end Commit

theorem LogOk.setStatus (h : v.LogOk) (st : TransStatus) : (setStatus st v).LogOk :=
  h.congr rfl rfl rfl ⟨rfl, rfl, rfl, rfl, rfl⟩ fun _ _ => rfl

/-- A successful commit: there was nothing to commit, or the log is at its next slot. -/
theorem Running.commitLog {v' : Vol} {buf : List UInt8} {u : Unit} (h : v.Running)
    (hbuf : buf.length = v.psb.secSize) (hk : v.ptranssb.serialNum + 1 < 2 ^ 64)
    (hc : commitLog buf v = (.ok u, v')) :
    (v.ptrans.secAreaArr = [] ∧ v' = setStatus .complete v) ∨
      ∃ esList esHome, v.Committable ∧ v.CommitRun esList esHome ∧
        v' = v.committed esList esHome ∧ v'.LogOk ∧
        v'.ptranssb.serialNum = v.ptranssb.serialNum + 1 := by
  by_cases hareas : v.ptrans.secAreaArr = []
  · rw [TpsFs.commitLog, bind_of_ok (get_ok.mpr ⟨rfl, rfl⟩), if_pos hareas] at hc
    exact .inl ⟨hareas, (modify_ok.mp hc).symm⟩
  · right
    have hdev₀ : v.ptrans.dataSecNum + v.ptrans.dataSecCnt ≤ v.dev.sectorCnt :=
      h.trans.onDev.resolve_left hareas
    have hdev := commitLog_onDev hareas hbuf h.cnt_lt hdev₀ hc
    have hcom := h.committable hareas hdev
    obtain ⟨esList, esHome, hrun, hr⟩ := commitLog_isOk hcom hbuf
    obtain rfl : v.committed esList esHome = v' := by
      rw [hrun] at hc
      exact (Prod.mk.inj hc).2
    obtain ⟨hlog, hser⟩ := h.committed_log hareas hdev hk hr
    exact ⟨esList, esHome, hcom, hr, rfl, hlog, hser⟩

/-- A commit that fails has not come further than the list of areas, for which there was no room
on the device. -/
theorem Running.commitLog_error {v' : Vol} {buf : List UInt8} {e : TpsErr} (h : v.Running)
    (hbuf : buf.length = v.psb.secSize) (hc : TpsFs.commitLog buf v = (.error e, v')) :
    LogFilled v v' := by
  by_cases hareas : v.ptrans.secAreaArr = []
  · rw [TpsFs.commitLog, bind_of_ok (get_ok.mpr ⟨rfl, rfl⟩), if_pos hareas] at hc
    cases hc
  · have hdev₀ : v.ptrans.dataSecNum + v.ptrans.dataSecCnt ≤ v.dev.sectorCnt :=
      h.trans.onDev.resolve_left hareas
    by_cases hdev : v.ptrans.dataSecNum + v.fullCnt ≤ v.dev.sectorCnt
    · obtain ⟨_, _, hrun, -⟩ := commitLog_isOk (h.committable hareas hdev) hbuf
      rw [hrun] at hc
      cases hc
    · rw [TpsFs.commitLog, bind_of_ok (get_ok.mpr ⟨rfl, rfl⟩), if_neg hareas] at hc
      have hcnt := h.cnt_lt
      rcases bind_error hc with h₁ | ⟨_, v₁, h₁, -⟩
      · obtain ⟨es, c, rfl, hw, hin⟩ := writeSecAreas_error hbuf (by omega) h₁
        exact ⟨rfl, rfl, ⟨rfl, rfl, rfl, rfl, rfl⟩, es, rfl, hw, hin.mono fun s hs => by omega⟩
      · have := writeSecAreas_inRange (by omega) hbuf (by omega) hdev₀ h₁
        rw [Nat.sub_zero, Nat.add_assoc] at this
        exact absurd this hdev

theorem Running.commit_error {v' : Vol} {adjust : List TransWrite} {buf : List UInt8} {e : TpsErr}
    (h : v.Running) (hbelow : WritesBelow v.psb (tpsFsBtreeTransInit v.psb).transSecStart adjust)
    (hbuf : buf.length = v.psb.secSize)
    (hc : tpsFsTransCommitAndFree adjust buf v = (.error e, v')) : LogFilled v v' := by
  rcases bind_error hc with h₁ | ⟨_, v₁, h₁, h₂⟩
  · obtain ⟨e', h₁⟩ := failWith_error h₁
    exact (tpsFsTransWrites_error h.trans h₁).filled
  · have h₁ := failWith_ok.mp h₁
    have hs := (tpsFsTransWrites_ok h.trans h₁).2.1
    exact hs.trans_filled ((h.writes hbelow h₁).commitLog_error (by rwa [hs.psb]) h₂)

/-- A transaction with something in it is committed as soon as its list of areas fits on the
device. -/
theorem Running.commit_isOk {v : Vol} (buf : List UInt8) (h : v.Running)
    (hareas : v.ptrans.secAreaArr ≠ [])
    (hdev : v.ptrans.dataSecNum + v.fullCnt ≤ v.dev.sectorCnt)
    (hbuf : buf.length = v.psb.secSize) (hk : v.ptranssb.serialNum + 1 < 2 ^ 64) :
    ∃ v', tpsFsTransCommitAndFree [] buf v = (.ok (), v') ∧
      v'.ptranssb.serialNum = v.ptranssb.serialNum + 1 := by
  obtain ⟨esList, esHome, hrun, hr⟩ := commitLog_isOk (h.committable hareas hdev) hbuf
  exact ⟨_, hrun, (h.committed_log hareas hdev hk hr).2⟩

end Vol

/-- What `tpsFsTransRollBackAndFree` does to the transaction object. -/
def rollBackTrans (time : ℕ) (v : Vol) : Vol :=
  { v with ptrans :=
    { v.ptrans with
      serialNum := v.ptranssb.serialNum
      dataSecNum := v.ptranssb.dataCurSec
      dataSecCnt := 0
      time := u64 time
      secAreaArr := []
      iStatus := .uninit } }

theorem Vol.LogOk.rollBack {v : Vol} (h : v.LogOk) (time : ℕ) : (rollBackTrans time v).LogOk :=
  h.congr rfl rfl rfl ⟨rfl, rfl, rfl, rfl, rfl⟩ fun _ _ => rfl

/-- A device that has been formatted: the log has room for headers and data, and none of its
slots has a header of this volume. -/
structure Formatted (psb : SuperBlock) (dev : Dev) : Prop where
  secCnt_pos : 0 < (tpsFsBtreeTransInit psb).transSecCnt
  rev_lt : transRevDataSec psb < (tpsFsBtreeTransInit psb).transDataCnt
  dataCnt_lt : (tpsFsBtreeTransInit psb).transDataCnt < 2 ^ 31
  onDev : (tpsFsBtreeTransInit psb).transDataStart + (tpsFsBtreeTransInit psb).transDataCnt ≤
    dev.sectorCnt
  vacant : ∀ i < slotCnt psb, Vacant psb (slotBuf psb dev.data i)

/-- The volume on a device as mounting sets it up before it checks the log. What is left in the
reserved words of the list of areas and in the block pool is not defined yet. -/
def Vol.mount (psb : SuperBlock) (dev : Dev) (r₀ r₁ : ℕ) (pbp : BlkPool) : Vol where
  psb := psb
  dev := dev
  ptranssb := tpsFsBtreeTransInit psb
  ptrans := newTrans psb r₀ r₁
  transFault := false
  pbp := pbp

theorem Formatted.logOk {psb : SuperBlock} {dev : Dev} (h : Formatted psb dev) (r₀ r₁ : ℕ)
    (pbp : BlkPool) : (Vol.mount psb dev r₀ r₁ pbp).LogOk := by
  have hzero : 0 % slotCnt psb = 0 := Nat.zero_mod _
  refine ⟨rfl, h.secCnt_pos, h.rev_lt, h.dataCnt_lt, h.onDev, rfl, rfl, Nat.two_pow_pos _,
    (by decide : 1 < 2 ^ 32), Nat.two_pow_pos _, ?_, ?_, List.length_replicate, ?_, fun j _ _ => Vacant.zero psb, le_rfl,
    .inl ⟨rfl, h.vacant⟩⟩
  · change _ = _ + 0 % slotCnt psb / slotsPerSec psb
    rw [hzero, Nat.zero_div]
    rfl
  · change _ = 0 % slotCnt psb % slotsPerSec psb * 64
    rw [hzero, Nat.zero_mod]
    rfl
  · intro hne
    exact absurd (by change 0 % slotCnt psb % slotsPerSec psb = 0; rw [hzero, Nat.zero_mod]) hne

theorem smallVol_formatted : Formatted smallVol.psb smallVol.dev := by
  refine ⟨by decide, by decide, by decide, by decide, fun i _ => ?_⟩
  have hz (n : ℕ) : sector smallVol.psb.secSize smallVol.dev.data n =
      List.replicate smallVol.psb.secSize 0 := by
    refine List.ext_getElem? fun j => ?_
    rw [sector, slice_getElem?, List.getElem?_replicate]
    rfl
  unfold slotBuf
  rw [hz]
  exact Vacant.zero _

/-- Runs of the file system from `v₀` on, with `n` transactions committed. Writes go to places
before the log. -/
inductive LogRun (v₀ : Vol) : ℕ → Vol → Prop where
  | start : LogRun v₀ 0 v₀
  | commit {n : ℕ} {v v₁ v₂ v' : Vol} {time : ℕ} {ws adjust : List TransWrite} {buf : List UInt8}
      (run : LogRun v₀ n v)
      (begun : tpsFsTransAllocAndInit time v = (.ok true, v₁))
      (below : WritesBelow v.psb (tpsFsBtreeTransInit v.psb).transSecStart ws)
      (written : tpsFsTransWrites ws v₁ = (.ok (), v₂))
      (below' : WritesBelow v.psb (tpsFsBtreeTransInit v.psb).transSecStart adjust)
      (len : buf.length = v.psb.secSize)
      (committed : tpsFsTransCommitAndFree adjust buf v₂ = (.ok (), v')) : LogRun v₀ (n + 1) v'
  | rollBack {n : ℕ} {v v₁ v₂ : Vol} {time time' : ℕ} {ws : List TransWrite}
      {r : Except TpsErr Unit} (run : LogRun v₀ n v)
      (begun : tpsFsTransAllocAndInit time v = (.ok true, v₁))
      (written : tpsFsTransWrites ws v₁ = (r, v₂)) : LogRun v₀ n (rollBackTrans time' v₂)
  | abort {n : ℕ} {v v₁ v₂ v₃ : Vol} {time time' : ℕ} {ws adjust : List TransWrite}
      {buf : List UInt8} {e : TpsErr} (run : LogRun v₀ n v)
      (begun : tpsFsTransAllocAndInit time v = (.ok true, v₁))
      (below : WritesBelow v.psb (tpsFsBtreeTransInit v.psb).transSecStart ws)
      (written : tpsFsTransWrites ws v₁ = (.ok (), v₂))
      (below' : WritesBelow v.psb (tpsFsBtreeTransInit v.psb).transSecStart adjust)
      (len : buf.length = v.psb.secSize)
      (failed : tpsFsTransCommitAndFree adjust buf v₂ = (.error e, v₃)) :
      LogRun v₀ n (rollBackTrans time' v₃)
  | direct {n : ℕ} {v v' : Vol} {blk uiOff : ℕ} {data : List UInt8} {r : Except TpsErr Unit}
      (run : LogRun v₀ n v)
      (below : blkAddr v.psb blk uiOff + data.length ≤
        (tpsFsBtreeTransInit v.psb).transSecStart * v.psb.secSize)
      (written : tpsFsTransWrite false blk uiOff data v = (r, v')) : LogRun v₀ n v'

open Vol

theorem tpsFsTransAllocAndInit_psb {v v₁ : Vol} {time : ℕ}
    (h : tpsFsTransAllocAndInit time v = (.ok true, v₁)) :
    v₁.psb = v.psb ∧ v₁.ptranssb = v.ptranssb ∧ v₁.dev = v.dev := by
  unfold tpsFsTransAllocAndInit at h
  split_ifs at h <;> cases h
  exact ⟨rfl, rfl, rfl⟩

/-- The log is in order after every run, and no serial number has been used twice. -/
theorem LogRun.logOk {v₀ v : Vol} {n : ℕ} (h₀ : v₀.LogOk) (hser₀ : v₀.ptranssb.serialNum = 0)
    (hrun : LogRun v₀ n v) (hn : n < 2 ^ 64) :
    v.LogOk ∧ v.ptranssb.serialNum ≤ n ∧ v.psb = v₀.psb := by
  induction hrun with
  | start => exact ⟨h₀, hser₀.le, rfl⟩
  | @commit n v v₁ v₂ v' time ws adjust buf _ begun below written below' len committed ih =>
    obtain ⟨hlog, hser, hpsb⟩ := ih (by omega)
    obtain ⟨hp₁, hsb₁, -⟩ := tpsFsTransAllocAndInit_psb begun
    have hrun₁ := hlog.begin begun
    have hs₂ := (tpsFsTransWrites_ok hrun₁.trans written).2.1
    have hrun₂ := hrun₁.writes (by rwa [hp₁]) written
    obtain ⟨_, v₃, h₃, hc⟩ := bind_ok.mp committed
    have h₃ := failWith_ok.mp h₃
    have hs₃ := (tpsFsTransWrites_ok hrun₂.trans h₃).2.1
    have hrun₃ := hrun₂.writes (by rwa [hs₂.psb, hp₁]) h₃
    have hpsb₃ : v₃.psb = v.psb := by rw [hs₃.psb, hs₂.psb, hp₁]
    have hser₃ : v₃.ptranssb.serialNum = v.ptranssb.serialNum := by
      rw [hs₃.ptranssb, hs₂.ptranssb, hsb₁]
    rcases hrun₃.commitLog (by rw [hpsb₃]; exact len) (by omega) hc with
      ⟨-, rfl⟩ | ⟨_, _, -, -, rfl, hlog', hser'⟩
    · exact ⟨hrun₃.log.setStatus _, by change v₃.ptranssb.serialNum ≤ _; omega,
        hpsb₃.trans hpsb⟩
    · exact ⟨hlog', by omega, hpsb₃.trans hpsb⟩
  | @rollBack n v v₁ v₂ time time' ws r _ begun written ih =>
    obtain ⟨hlog, hser, hpsb⟩ := ih hn
    obtain ⟨hp₁, hsb₁, -⟩ := tpsFsTransAllocAndInit_psb begun
    have hrun₁ := hlog.begin begun
    have hs₂ : LogFilled v₁ v₂ := by
      cases r with
      | ok u => exact (tpsFsTransWrites_ok hrun₁.trans written).2.1.filled
      | error e => exact (tpsFsTransWrites_error hrun₁.trans written).filled
    refine ⟨(hrun₁.log.filled hrun₁.dataStart_le hs₂).rollBack time', ?_,
      hs₂.psb.trans (hp₁.trans hpsb)⟩
    change v₂.ptranssb.serialNum ≤ n
    rwa [hs₂.ptranssb, hsb₁]
  | @abort n v v₁ v₂ v₃ time time' ws adjust buf e _ begun below written below' len failed
      ih =>
    obtain ⟨hlog, hser, hpsb⟩ := ih hn
    obtain ⟨hp₁, hsb₁, -⟩ := tpsFsTransAllocAndInit_psb begun
    have hrun₁ := hlog.begin begun
    have hs₂ := (tpsFsTransWrites_ok hrun₁.trans written).2.1
    have hrun₂ := hrun₁.writes (by rwa [hp₁]) written
    have hs₃ := hs₂.trans_filled (hrun₂.commit_error (by rwa [hs₂.psb, hp₁])
      (by rwa [hs₂.psb, hp₁]) failed)
    refine ⟨(hrun₁.log.filled hrun₁.dataStart_le hs₃).rollBack time', ?_,
      hs₃.psb.trans (hp₁.trans hpsb)⟩
    change v₃.ptranssb.serialNum ≤ n
    rwa [hs₃.ptranssb, hsb₁]
  | @direct n v v' blk uiOff data r _ below written ih =>
    obtain ⟨hlog, hser, hpsb⟩ := ih hn
    obtain ⟨es, rfl, hw, hin, -⟩ := tpsFsTransWrite_direct below written
    exact ⟨hlog.after hw hin, hser, hpsb⟩

/-- Requests after which at most writes to the data area of the log are not flushed. -/
def Settled (psb : SuperBlock) (es : List (IoEvent UInt8)) : Prop :=
  Within (fun s => (tpsFsBtreeTransInit psb).transDataStart ≤ s) es ∨ ∃ es', es = es' ++ [.sync]

theorem Settled.flushed {psb : SuperBlock} {es₁ es₂ : List (IoEvent UInt8)} (h : Settled psb es₂)
    (h₁ : Flushed (fun s => (tpsFsBtreeTransInit psb).transDataStart ≤ s) es₁) :
    Flushed (fun s => (tpsFsBtreeTransInit psb).transDataStart ≤ s) (es₁ ++ es₂) := by
  rcases h with h | ⟨es', rfl⟩
  · exact h₁.append h
  · rw [← List.append_assoc]
    exact Flushed.sync

theorem Vol.LogFilled.settled {v w : Vol} (h : LogFilled v w)
    (hstart : (tpsFsBtreeTransInit v.psb).transDataStart ≤ v.ptrans.dataSecNum) :
    ∃ es, w.dev = v.dev.after v.psb.secSize es ∧ Whole v.psb.secSize es ∧ Settled v.psb es := by
  obtain ⟨es, hdev, hw, hin⟩ := h.log
  exact ⟨es, hdev, hw, .inl (hin.mono fun s hs => hstart.trans hs)⟩

/-- What the disk has seen of a run: everything but some sectors of the log is flushed. -/
structure OnTrace (dev dev' : Dev) (psb : SuperBlock) : Prop where
  data : dev'.data = applyAll psb.secSize dev.data dev'.trace
  whole : Whole psb.secSize dev'.trace
  flushed : Flushed (fun s => (tpsFsBtreeTransInit psb).transDataStart ≤ s) dev'.trace

theorem OnTrace.after {dev dev' : Dev} {psb : SuperBlock} {es : List (IoEvent UInt8)}
    (h : OnTrace dev dev' psb) (hw : Whole psb.secSize es) (hs : Settled psb es) :
    OnTrace dev (dev'.after psb.secSize es) psb := by
  refine ⟨?_, h.whole.append hw, hs.flushed h.flushed⟩
  change applyAll _ dev'.data es = applyAll _ _ (dev'.trace ++ es)
  rw [applyAll_append, ← h.data]

/-- What a run leaves to be flushed. -/
theorem LogRun.onTrace {v₀ v : Vol} {n : ℕ} (h₀ : v₀.LogOk) (hser₀ : v₀.ptranssb.serialNum = 0)
    (htrace : v₀.dev.trace = []) (hrun : LogRun v₀ n v) (hn : n < 2 ^ 64) :
    OnTrace v₀.dev v.dev v.psb := by
  induction hrun with
  | start => exact ⟨by rw [htrace]; rfl, by rw [htrace]; exact fun _ _ h => by simp at h,
      by rw [htrace]; exact Flushed.nil⟩
  | @commit n v v₁ v₂ v' time ws adjust buf hrun begun below written below' len committed ih =>
    have ih := ih (by omega)
    obtain ⟨hlog, hser, -⟩ := hrun.logOk h₀ hser₀ (by omega)
    obtain ⟨hp₁, hsb₁, hdev₁⟩ := tpsFsTransAllocAndInit_psb begun
    have hrun₁ := hlog.begin begun
    have hs₂ := (tpsFsTransWrites_ok hrun₁.trans written).2.1
    have hrun₂ := hrun₁.writes (by rwa [hp₁]) written
    obtain ⟨_, v₃, h₃, hc⟩ := bind_ok.mp committed
    have h₃ := failWith_ok.mp h₃
    have hs₃ := (tpsFsTransWrites_ok hrun₂.trans h₃).2.1
    have hrun₃ := hrun₂.writes (by rwa [hs₂.psb, hp₁]) h₃
    have hpsb₃ : v₃.psb = v.psb := by rw [hs₃.psb, hs₂.psb, hp₁]
    have hser₃ : v₃.ptranssb.serialNum = v.ptranssb.serialNum := by
      rw [hs₃.ptranssb, hs₂.ptranssb, hsb₁]
    obtain ⟨es, hdev, hw, hset⟩ := (hs₂.trans hs₃).filled.settled hrun₁.dataStart_le
    rw [hdev₁] at hdev
    rw [hp₁] at hdev hw hset
    have htr₃ := ih.after hw hset
    rw [← hdev] at htr₃
    rcases hrun₃.commitLog (by rw [hpsb₃]; exact len) (by omega) hc with
      ⟨-, rfl⟩ | ⟨esList, esHome, hcom, hr, rfl, -, -⟩
    · change OnTrace _ v₃.dev v₃.psb
      rwa [hpsb₃]
    · change OnTrace _ (v₃.dev.after v₃.psb.secSize _) v₃.psb
      have hw' := hr.whole hcom
      rw [hpsb₃] at hw' ⊢
      refine htr₃.after hw' (.inr ⟨esList ++ .sync ::
        .write v₃.ptranssb.transCurSec (v₃.headerSec v₃.fullCnt .commit) :: .sync ::
        (esHome ++ [.write v₃.ptranssb.transCurSec (v₃.headerSec v₃.fullCnt .complete)]), ?_⟩)
      simp [commitEvents]
  | @rollBack n v v₁ v₂ time time' ws r hrun begun written ih =>
    obtain ⟨hlog, -, -⟩ := hrun.logOk h₀ hser₀ hn
    obtain ⟨hp₁, -, hdev₁⟩ := tpsFsTransAllocAndInit_psb begun
    have hrun₁ := hlog.begin begun
    have hs₂ : LogFilled v₁ v₂ := by
      cases r with
      | ok u => exact (tpsFsTransWrites_ok hrun₁.trans written).2.1.filled
      | error e => exact (tpsFsTransWrites_error hrun₁.trans written).filled
    obtain ⟨es, hdev, hw, hset⟩ := hs₂.settled hrun₁.dataStart_le
    change OnTrace _ v₂.dev v₂.psb
    rw [hs₂.psb, hdev, hdev₁, hp₁]
    rw [hp₁] at hw hset
    exact (ih hn).after hw hset
  | @abort n v v₁ v₂ v₃ time time' ws adjust buf e hrun begun below written below' len failed
      ih =>
    obtain ⟨hlog, -, -⟩ := hrun.logOk h₀ hser₀ hn
    obtain ⟨hp₁, -, hdev₁⟩ := tpsFsTransAllocAndInit_psb begun
    have hrun₁ := hlog.begin begun
    have hs₂ := (tpsFsTransWrites_ok hrun₁.trans written).2.1
    have hrun₂ := hrun₁.writes (by rwa [hp₁]) written
    have hs₃ := hs₂.trans_filled (hrun₂.commit_error (by rwa [hs₂.psb, hp₁])
      (by rwa [hs₂.psb, hp₁]) failed)
    obtain ⟨es, hdev, hw, hset⟩ := hs₃.settled hrun₁.dataStart_le
    change OnTrace _ v₃.dev v₃.psb
    rw [hs₃.psb, hdev, hdev₁, hp₁]
    rw [hp₁] at hw hset
    exact (ih hn).after hw hset
  | @direct n v v' blk uiOff data r _ below written ih =>
    obtain ⟨es, rfl, hw, -, hset⟩ := tpsFsTransWrite_direct below written
    refine (ih hn).after hw ?_
    rcases hset with rfl | hset
    · exact .inl fun _ _ h => by simp at h
    · exact .inr hset

set_option maxRecDepth 8000 in
/-- One byte is written and committed. -/
theorem smallVol_run : ∃ v, LogRun (Vol.mount smallVol.psb smallVol.dev 0 0 ⟨3, 0, []⟩) 1 v ∧
    v.ptranssb.serialNum = 1 := by
  have hbelow : WritesBelow smallVol.psb 30720 oneByte := by decide
  have hnone : WritesBelow smallVol.psb 30720 [] := by decide
  have hlog := smallVol_formatted.logOk 0 0 ⟨3, 0, []⟩
  have hrun := (hlog.begin
    (rfl : tpsFsTransAllocAndInit 0 (Vol.mount smallVol.psb smallVol.dev 0 0 ⟨3, 0, []⟩) =
      (.ok true, _))).writes (by decide) (rfl : tpsFsTransWrites oneByte _ = (.ok (), _))
  obtain ⟨v', hv', hser⟩ := hrun.commit_isOk (List.replicate 512 0) (by decide) (by decide)
    (by decide) (by decide)
  exact ⟨v', .commit .start (rfl : tpsFsTransAllocAndInit 0 _ = (.ok true, _)) hbelow
    (rfl : tpsFsTransWrites oneByte _ = (.ok (), _)) hnone (by decide) hv', hser⟩

end SylixOS.TpsFs
