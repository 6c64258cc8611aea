import SylixOS.TpsFs.Trans.ReadWrite

/-! # Transaction headers and area lists on the disk

A header takes 64 bytes and carries a checksum and the generation of the volume, by which a
header of this volume is told from what else may lie there. The list of areas follows the data of
the transaction, a sector at a time.
-/

namespace SylixOS.TpsFs
open Lib Lib.Store Lib.Outcome Lib.LittleEndian

/-- `TPS_TRANS_MAGIC`. -/
def transMagic : ℕ := 0xEF34DDA4

/-- `TPS_TRAN_SIZE`. -/
def tranSize : ℕ := 64

/-- `TPS_TRAN_SHIFT`. -/
def tranShift : ℕ := 6

namespace Trans

/-- The checksum of a header. The low half of `TRANS_uiDataSecNum` is not in it. -/
def sum (t : Trans) : ℕ :=
  u32 (u32 t.magic + u32 t.reserved +
    u32 t.generation + u32 (t.generation >>> 32) +
    u32 t.serialNum + u32 (t.serialNum >>> 32) +
    u32 t.iType + u32 t.iStatus.code +
    u32 t.reserved64 + u32 (t.reserved64 >>> 32) +
    u32 t.time + u32 (t.time >>> 32) +
    u32 (t.dataSecNum >>> 32) + u32 t.dataSecCnt)

/-- The fields of a header in their order on the disk. -/
def bytes (t : Trans) : List UInt8 :=
  enc 4 t.magic ++ (enc 4 t.reserved ++ (enc 8 t.generation ++ (enc 8 t.serialNum ++
    (enc 4 t.iType ++ (enc 4 t.iStatus.code ++ (enc 8 t.reserved64 ++ (enc 8 t.time ++
      (enc 8 t.dataSecNum ++ (enc 4 t.dataSecCnt ++ enc 4 t.checkSum)))))))))

@[simp] theorem bytes_length (t : Trans) : t.bytes.length = 64 := by
  simp [bytes]

end Trans

/-- `__tpsFsTransSerial`: the header with its checksum, and the buffer with the header in it. -/
def tpsFsTransSerial (ptrans : Trans) (pucSecBuf : List UInt8) (off : ℕ) : Trans × List UInt8 :=
  let ptrans := { ptrans with checkSum := ptrans.sum }
  (ptrans, splice pucSecBuf off ptrans.bytes)

/-- `__tpsFsTransUnserial`: a header whose checksum, magic number or generation is wrong is
uninitialised. -/
def tpsFsTransUnserial (psb : SuperBlock) (ptrans : Trans) (pucSecBuf : List UInt8) : Trans :=
  let (magic, p) := getLE 4 pucSecBuf
  let (reserved, p) := getLE 4 p
  let (generation, p) := getLE 8 p
  let (serialNum, p) := getLE 8 p
  let (iType, p) := getLE 4 p
  let (iStatus, p) := getLE 4 p
  let (reserved64, p) := getLE 8 p
  let (time, p) := getLE 8 p
  let (dataSecNum, p) := getLE 8 p
  let (dataSecCnt, p) := getLE 4 p
  let (checkSum, _) := getLE 4 p
  let t : Trans :=
    { ptrans with
      magic := magic
      reserved := reserved
      generation := generation
      serialNum := serialNum
      iType := iType
      iStatus := .ofCode iStatus
      reserved64 := reserved64
      time := time
      dataSecNum := dataSecNum
      dataSecCnt := dataSecCnt
      checkSum := checkSum }
  if t.sum ≠ t.checkSum ∨ t.magic ≠ transMagic ∨ t.generation ≠ psb.generation then
    { t with iStatus := .uninit }
  else t

/-- The loop of `__tpsFsTransSecAreaSerial` over the areas that are left: the index after it and
the bytes of the entries. -/
def secAreaSerialLoop (uiLen : ℕ) : List SecArea → ℕ → ℕ → ℕ × List UInt8
  | [], _, i => (i, [])
  | a :: as, pos, i =>
    if pos < uiLen - 16 then
      let (i', bs) := secAreaSerialLoop uiLen as (pos + 16) (i + 1)
      (i', enc 8 a.secStart ++ (enc 4 a.secOff ++ (enc 4 a.secCnt ++ bs)))
    else (i, [])

/-- `__tpsFsTransSecAreaSerial`: the index after the last entry, and the buffer. -/
def tpsFsTransSecAreaSerial (t : Trans) (iIndex : ℕ) (pucSecBuf : List UInt8) (uiLen : ℕ) :
    ℕ × List UInt8 :=
  let (i, bs) := secAreaSerialLoop uiLen (t.secAreaArr.drop iIndex) 16 iIndex
  (i, splice pucSecBuf 0 (enc 4 t.secAreaArr.length ++ (enc 4 iIndex ++
    (enc 4 t.tdReserved0 ++ (enc 4 t.tdReserved1 ++ bs)))))

/-- The loop of `__tpsFsTransSecAreaUnserial`, with at most `n` entries left. -/
def secAreaUnserialLoop (uiLen : ℕ) : ℕ → ℕ → List UInt8 → List SecArea
  | 0, _, _ => []
  | n + 1, pos, p =>
    if pos < uiLen - 16 then
      let (secStart, p) := getLE 8 p
      let (secOff, p) := getLE 4 p
      let (secCnt, p) := getLE 4 p
      ⟨secStart, secOff, secCnt⟩ :: secAreaUnserialLoop uiLen n (pos + 16) p
    else []

/-- The array of areas with its count set; the entries beyond the old count are not defined. -/
def resizeAreas (as : List SecArea) (cnt : ℕ) : List SecArea :=
  as.take cnt ++ List.replicate (cnt - as.length) ⟨0, 0, 0⟩

/-- `__tpsFsTransSecAreaUnserial`: the index of the first entry, and the transaction with the
entries of this sector in its array. -/
def tpsFsTransSecAreaUnserial (t : Trans) (pucSecBuf : List UInt8) (uiLen : ℕ) : ℕ × Trans :=
  let (cnt, p) := getLE 4 pucSecBuf
  let (iIndex, p) := getLE 4 p
  let (r₀, p) := getLE 4 p
  let (r₁, p) := getLE 4 p
  (iIndex,
    { t with
      tdReserved0 := r₀
      tdReserved1 := r₁
      secAreaArr := splice (resizeAreas t.secAreaArr cnt) iIndex
        (secAreaUnserialLoop uiLen (cnt - iIndex) 16 p) })

/-! ## Headers -/

/-- A header that the transaction layer writes: its fields fit into their places on the disk, and
it is one of this volume. -/
structure Trans.Fits (psb : SuperBlock) (t : Trans) : Prop where
  magic : t.magic = transMagic
  generation : t.generation = psb.generation
  status : t.iStatus = .commit ∨ t.iStatus = .complete
  reserved : t.reserved < 2 ^ 32
  serialNum : t.serialNum < 2 ^ 64
  iType : t.iType < 2 ^ 32
  reserved64 : t.reserved64 < 2 ^ 64
  time : t.time < 2 ^ 64
  dataSecNum : t.dataSecNum < 2 ^ 64
  dataSecCnt : t.dataSecCnt < 2 ^ 32

theorem u32_lt (n : ℕ) : u32 n < 2 ^ 32 := Nat.mod_lt _ (by decide)

/-- The header that was written is the header that is read. -/
theorem tpsFsTransUnserial_bytes {psb : SuperBlock} {t : Trans} (h : t.Fits psb) (t' : Trans)
    (rest : List UInt8) (hsum : t.checkSum = t.sum) :
    tpsFsTransUnserial psb t' (t.bytes ++ rest) =
      { t with
        tdReserved0 := t'.tdReserved0
        tdReserved1 := t'.tdReserved1
        secAreaArr := t'.secAreaArr } := by
  have h32 {n : ℕ} (hn : n < 2 ^ 32) : n % 256 ^ 4 = n := Nat.mod_eq_of_lt hn
  have h64 {n : ℕ} (hn : n < 2 ^ 64) : n % 256 ^ 8 = n := Nat.mod_eq_of_lt hn
  have hm : t.magic < 2 ^ 32 := by rw [h.magic]; decide
  have hg : t.generation < 2 ^ 64 := by rw [h.generation]; exact psb.generation_lt
  have hc : t.checkSum < 2 ^ 32 := by rw [hsum]; exact u32_lt _
  have hst : t.iStatus.code < 2 ^ 32 ∧ TransStatus.ofCode t.iStatus.code = t.iStatus := by
    rcases h.status with h | h <;> rw [h] <;> decide
  unfold tpsFsTransUnserial Trans.bytes
  simp only [List.append_assoc, getLE_enc, h32 hm, h32 h.reserved, h64 hg, h64 h.serialNum,
    h32 h.iType, h32 hst.1, h64 h.reserved64, h64 h.time, h64 h.dataSecNum, h32 h.dataSecCnt,
    h32 hc, hst.2]
  rw [if_neg]
  rintro (hs | hs | hs)
  · exact hs hsum.symm
  · exact hs h.magic
  · exact hs h.generation

/-- Zeroed memory is no header. -/
theorem tpsFsTransUnserial_zero (psb : SuperBlock) (t : Trans) {buf : List UInt8}
    (h : dec (buf.take 4) ≠ transMagic) : (tpsFsTransUnserial psb t buf).iStatus = .uninit := by
  unfold tpsFsTransUnserial
  dsimp only [getLE]
  rw [if_pos (.inr (.inl h))]

/-! ## Lists of areas -/

/-- How many entries go into a sector behind position `pos`. -/
def entryRoom (uiLen pos : ℕ) : ℕ := (uiLen - 1 - pos) / 16

theorem entryRoom_succ {uiLen pos : ℕ} (h : pos < uiLen - 16) :
    entryRoom uiLen pos = entryRoom uiLen (pos + 16) + 1 := by
  unfold entryRoom
  omega

theorem entryRoom_zero {uiLen pos : ℕ} (h : ¬ pos < uiLen - 16) : entryRoom uiLen pos = 0 := by
  unfold entryRoom
  omega

/-- The bytes of an entry. -/
def SecArea.bytes (a : SecArea) : List UInt8 :=
  enc 8 a.secStart ++ (enc 4 a.secOff ++ enc 4 a.secCnt)

/-- The numbers of an area fit into their places on the disk. -/
structure SecArea.Fits (a : SecArea) : Prop where
  secStart : a.secStart < 2 ^ 64
  secOff : a.secOff < 2 ^ 32
  secCnt : a.secCnt < 2 ^ 32

theorem secAreaSerialLoop_eq (uiLen : ℕ) (as : List SecArea) (pos i : ℕ) :
    secAreaSerialLoop uiLen as pos i =
      (i + min as.length (entryRoom uiLen pos),
        (as.take (entryRoom uiLen pos)).flatMap SecArea.bytes) := by
  induction as generalizing pos i with
  | nil => simp [secAreaSerialLoop]
  | cons a as ih =>
    rw [secAreaSerialLoop]
    split_ifs with h
    · rw [ih, entryRoom_succ h]
      simp only [List.length_cons, List.take_succ_cons, List.flatMap_cons, SecArea.bytes,
        List.append_assoc, Prod.mk.injEq, and_true]
      omega
    · rw [entryRoom_zero h]
      simp

theorem secAreaUnserialLoop_bytes (uiLen : ℕ) (as : List SecArea) (hfit : ∀ a ∈ as, a.Fits)
    (pos : ℕ) (rest : List UInt8) :
    secAreaUnserialLoop uiLen as.length pos
        ((as.take (entryRoom uiLen pos)).flatMap SecArea.bytes ++ rest) =
      as.take (entryRoom uiLen pos) := by
  induction as generalizing pos with
  | nil => simp [secAreaUnserialLoop]
  | cons a as ih =>
    have ha := hfit a List.mem_cons_self
    rw [List.length_cons, secAreaUnserialLoop]
    split_ifs with h
    · rw [entryRoom_succ h]
      simp only [List.take_succ_cons, List.flatMap_cons, SecArea.bytes, List.append_assoc,
        getLE_enc]
      rw [ih fun b hb => hfit b (List.mem_cons_of_mem _ hb)]
      congr 2
      · exact Nat.mod_eq_of_lt ha.secStart
      · exact Nat.mod_eq_of_lt ha.secOff
      · exact Nat.mod_eq_of_lt ha.secCnt
    · rw [entryRoom_zero h]
      simp

/-- How many areas a sector of the list holds. -/
def perSector (uiLen : ℕ) : ℕ := entryRoom uiLen 16

/-- A sector of the list as it is read: its entries come to their places in the array. -/
theorem tpsFsTransSecAreaUnserial_serial {t t' : Trans} {i uiLen : ℕ} {buf : List UInt8}
    (hlen : t.secAreaArr.length < 2 ^ 32) (hi : i ≤ t.secAreaArr.length)
    (hfit : ∀ a ∈ t.secAreaArr, a.Fits) :
    tpsFsTransSecAreaUnserial t' (tpsFsTransSecAreaSerial t i buf uiLen).2 uiLen =
      (i, { t' with
        tdReserved0 := u32 t.tdReserved0
        tdReserved1 := u32 t.tdReserved1
        secAreaArr := splice (resizeAreas t'.secAreaArr t.secAreaArr.length) i
          ((t.secAreaArr.drop i).take (perSector uiLen)) }) := by
  have h32 {n : ℕ} (hn : n < 2 ^ 32) : n % 256 ^ 4 = n := Nat.mod_eq_of_lt hn
  have hfit' : ∀ a ∈ t.secAreaArr.drop i, a.Fits := fun a ha => hfit a (List.mem_of_mem_drop ha)
  have hleft : t.secAreaArr.length - i = (t.secAreaArr.drop i).length := by rw [List.length_drop]
  unfold tpsFsTransSecAreaUnserial tpsFsTransSecAreaSerial
  simp only [splice, secAreaSerialLoop_eq, List.take_zero, List.nil_append, List.append_assoc,
    getLE_enc, h32 hlen, h32 (Nat.lt_of_le_of_lt hi hlen)]
  rw [hleft, secAreaUnserialLoop_bytes uiLen _ hfit']
  rfl

theorem tpsFsTransSecAreaSerial_fst (t : Trans) (i : ℕ) (buf : List UInt8) (uiLen : ℕ) :
    (tpsFsTransSecAreaSerial t i buf uiLen).1 =
      i + min (t.secAreaArr.length - i) (perSector uiLen) := by
  simp [tpsFsTransSecAreaSerial, secAreaSerialLoop_eq, perSector]

theorem tpsFsTransSecAreaSerial_length (t : Trans) (i : ℕ) {buf : List UInt8} {uiLen : ℕ}
    (hu : 32 ≤ uiLen) (hb : uiLen ≤ buf.length) :
    (tpsFsTransSecAreaSerial t i buf uiLen).2.length = buf.length := by
  have hent (as : List SecArea) : (as.flatMap SecArea.bytes).length = 16 * as.length := by
    induction as with
    | nil => rfl
    | cons a as ih =>
      rw [List.flatMap_cons, List.length_append, ih]
      simp [SecArea.bytes]
      omega
  have hroom : 16 + 16 * perSector uiLen ≤ uiLen := by
    unfold perSector entryRoom
    omega
  unfold tpsFsTransSecAreaSerial
  simp only [secAreaSerialLoop_eq]
  refine splice_length _ _ _ ?_
  have hmin : ((t.secAreaArr.drop i).take (entryRoom uiLen 16)).length ≤ perSector uiLen := by
    rw [List.length_take]
    exact Nat.min_le_left _ _
  simp only [List.length_append, enc_length, hent]
  omega

end SylixOS.TpsFs
