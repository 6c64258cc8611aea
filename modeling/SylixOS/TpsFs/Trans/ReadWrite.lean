import SylixOS.TpsFs.Trans.Area

/-! # Reading and writing inside a transaction

A write inside a transaction appends its sectors to the log and an area to the list of areas. A
read takes the sectors from the device and patches in, area by area, what the transaction has
logged.
-/

namespace SylixOS.TpsFs
open Lib Lib.Store Lib.Disk Lib.Outcome

/-- `tpsFsTransAllocAndInit` at time `time`: whether a transaction was begun. -/
def tpsFsTransAllocAndInit (time : ℕ) : VolM Bool := fun v =>
  if v.transFault then (.ok false, v)
  else (.ok true, { v with ptrans :=
    { v.ptrans with
      serialNum := v.ptranssb.serialNum
      dataSecNum := v.ptranssb.dataCurSec
      dataSecCnt := 0
      time := u64 time
      secAreaArr := []
      iStatus := .init } })

namespace Vol

variable (v : Vol)

/-- Copy sectors of the log into a buffer. A failing read leaves the buffer as it is. -/
def patch (buf : List UInt8) (off sec cnt : ℕ) : List UInt8 :=
  match v.readSectors sec cnt with
  | some d => splice buf (off <<< v.psb.secShift) d
  | none => buf

/-- The body of the loop in `__tpsFsTransGetData`. -/
def getArea (secNum secCnt : ℕ) (buf : List UInt8) (a : SecArea) : List UInt8 :=
  let dataSec := v.ptrans.dataSecNum + a.secOff
  if min (a.secStart + a.secCnt) (secNum + secCnt) ≤ max a.secStart secNum then buf
  else
    let needCpy := min (a.secStart + a.secCnt) (secNum + secCnt) - max a.secStart secNum
    if secNum < a.secStart then v.patch buf (a.secStart - secNum) dataSec needCpy
    else v.patch buf 0 (dataSec + secNum - a.secStart) needCpy

/-- The transaction is neither uninitialised nor complete. -/
def Open : Prop := v.ptrans.iStatus = .init ∨ v.ptrans.iStatus = .commit

instance : Decidable v.Open := inferInstanceAs (Decidable (_ ∨ _))

/-- `__tpsFsTransGetData`. -/
def tpsFsTransGetData (buf : List UInt8) (secNum secCnt : ℕ) : List UInt8 :=
  if v.Open then
    v.ptrans.secAreaArr.foldl (v.getArea secNum secCnt) buf
  else buf

/-- Room is left for a write of `cnt` sectors: the check of `__tpsFsTransPutData`. -/
def HasRoom (cnt : ℕ) : Prop :=
  v.ptrans.secAreaArr.length < maxArea v.psb - 1 ∧
    v.ptrans.dataSecNum + v.ptrans.dataSecCnt + cnt ≤
      v.ptranssb.transDataStart + v.ptranssb.transDataCnt

instance (cnt : ℕ) : Decidable (v.HasRoom cnt) := inferInstanceAs (Decidable (_ ∧ _))

end Vol

/-- Where `__tpsFsTransPutData` leaves the older areas. -/
def trimAreas (secNum secCnt : ℕ) : VolM Unit := modify fun v =>
  { v with ptrans := { v.ptrans with
      secAreaArr := v.ptrans.secAreaArr.flatMap (SecArea.trim secNum secCnt) } }

/-- Count the new area and its sectors. -/
def pushArea (secNum secCnt : ℕ) : VolM Unit := modify fun v =>
  { v with ptrans := { v.ptrans with
      secAreaArr := v.ptrans.secAreaArr ++
        [⟨secNum, v.ptrans.dataSecCnt, u32 secCnt⟩]
      dataSecCnt := u32 (v.ptrans.dataSecCnt + secCnt) } }

/-- `__tpsFsTransPutData`. -/
def tpsFsTransPutData (buf : List UInt8) (secNum secCnt : ℕ) : VolM Unit := do
  let v ← get
  ensure (v.HasRoom secCnt) .transOverflow
  trimAreas secNum secCnt
  Vol.devWriteSector buf (v.ptrans.dataSecNum + v.ptrans.dataSecCnt) secCnt false
  pushArea secNum secCnt

/-- A read of sectors at the device followed by `__tpsFsTransGetData`. -/
def transReadSector (sec cnt : ℕ) : VolM (List UInt8) := do
  let buf ← Vol.devReadSector sec cnt
  let v ← get
  pure (v.tpsFsTransGetData buf sec cnt)

/-- `tpsFsTransRead`. -/
def tpsFsTransRead (blk uiOff szLen : ℕ) : VolM (List UInt8) := do
  let v ← get
  readRange v.psb transReadSector blk uiOff szLen

/-- `tpsFsTransWrite`. Without a transaction the bytes go to their place and are flushed. -/
def tpsFsTransWrite (inTrans : Bool) (blk uiOff : ℕ) (data : List UInt8) : VolM Unit := do
  let v ← get
  if inTrans then
    writeRange v.psb transReadSector
      (fun buf sec cnt => failWith .bufWrite (tpsFsTransPutData buf sec cnt)) blk uiOff data
  else tpsFsDevBufWrite v.psb blk uiOff data true

/-! ## What a transaction sees -/

namespace Vol

/-- The contents of the volume as a read inside the transaction returns them. -/
def view (v : Vol) (x : ℕ) : UInt8 :=
  match if v.Open then locate v.ptrans.secAreaArr (x / v.psb.secSize) else none with
  | some o => v.dev.data ((v.ptrans.dataSecNum + o) * v.psb.secSize + x % v.psb.secSize)
  | none => v.dev.data x

/-- The address lies in a sector of the log that the transaction has filled. -/
def InLog (v : Vol) (x : ℕ) : Prop :=
  v.ptrans.dataSecNum ≤ x / v.psb.secSize ∧
    x / v.psb.secSize < v.ptrans.dataSecNum + v.ptrans.dataSecCnt

instance (v : Vol) (x : ℕ) : Decidable (v.InLog x) := inferInstanceAs (Decidable (_ ∧ _))

/-- What holds of the transaction between two writes. -/
structure TransOk (v : Vol) : Prop where
  start_le : v.ptranssb.transDataStart ≤ v.ptrans.dataSecNum
  cnt_lt : v.ptranssb.transDataCnt < 2 ^ 32
  room : v.ptrans.secAreaArr = [] ∧ v.ptrans.dataSecCnt = 0 ∨ v.ptrans.dataSecNum + v.ptrans.dataSecCnt ≤
    v.ptranssb.transDataStart + v.ptranssb.transDataCnt
  onDev : v.ptrans.secAreaArr = [] ∨
    v.ptrans.dataSecNum + v.ptrans.dataSecCnt ≤ v.dev.sectorCnt
  status : v.ptrans.iStatus = .init
  logged : Logged v.ptrans.dataSecCnt v.ptrans.secAreaArr
  disjoint : v.ptrans.secAreaArr.Pairwise SecArea.Disjoint
  short : v.ptrans.secAreaArr.length ≤ maxArea v.psb

variable {v : Vol}

theorem TransOk.isOpen (h : v.TransOk) : v.Open := .inl h.status

/-- One area in a read: the sectors that it covers come from the log. -/
theorem getArea_getElem? {secNum secCnt : ℕ} {buf : List UInt8} {a : SecArea}
    (hbuf : buf.length = secCnt * v.psb.secSize)
    (hdev : v.ptrans.dataSecNum + a.secOff + a.secCnt ≤ v.dev.sectorCnt) (i : ℕ)
    (hi : i < secCnt * v.psb.secSize) :
    (v.getArea secNum secCnt buf a)[i]? =
      if a.Covers (secNum + i / v.psb.secSize) then
        some (v.dev.data ((v.ptrans.dataSecNum + (a.secOff + (secNum + i / v.psb.secSize -
          a.secStart))) * v.psb.secSize + i % v.psb.secSize))
      else buf[i]? := by
  have hS := v.psb.secSize_pos
  have his : i / v.psb.secSize < secCnt := Nat.div_lt_of_lt_mul (by rwa [Nat.mul_comm])
  -- the sectors of the area that the read asks for lie on the device
  have key (off sec n : ℕ) (hn : 0 < n) (hoff : off + n ≤ secCnt)
      (hsec : sec + n ≤ v.dev.sectorCnt) :
      (v.patch buf off sec n)[i]? = if off ≤ i / v.psb.secSize ∧ i / v.psb.secSize < off + n then
        some (v.dev.data ((sec + (i / v.psb.secSize - off)) * v.psb.secSize + i % v.psb.secSize))
        else buf[i]? := by
    unfold patch readSectors
    rw [if_pos hsec]
    dsimp only
    rw [v.psb.shiftLeft_sec, splice_sectors hS buf v.dev.data sec
      (by rw [hbuf]; exact Nat.mul_le_mul_right _ hoff)]
  unfold getArea
  dsimp only
  generalize i / v.psb.secSize = q at *
  by_cases h₁ : min (a.secStart + a.secCnt) (secNum + secCnt) ≤ max a.secStart secNum
  · rw [if_pos h₁, if_neg (by rw [SecArea.covers_iff]; omega)]
  · rw [if_neg h₁]
    by_cases h₂ : secNum < a.secStart
    · rw [if_pos h₂, key _ _ _ (by omega) (by omega) (by omega)]
      refine if_congr (by rw [SecArea.covers_iff]; omega) ?_ rfl
      congr 4
      omega
    · rw [if_neg h₂, key _ _ _ (by omega) (by omega) (by omega)]
      refine if_congr (by rw [SecArea.covers_iff]; omega) ?_ rfl
      congr 4
      omega

theorem getArea_length {secNum secCnt : ℕ} {buf : List UInt8} {a : SecArea}
    (hbuf : buf.length = secCnt * v.psb.secSize) :
    (v.getArea secNum secCnt buf a).length = secCnt * v.psb.secSize := by
  have key (off sec n : ℕ) (hoff : off + n ≤ secCnt) :
      (v.patch buf off sec n).length = secCnt * v.psb.secSize := by
    unfold patch readSectors
    split_ifs
    · dsimp only
      rw [splice_length, hbuf]
      rw [slice_length, v.psb.shiftLeft_sec, ← Nat.add_mul, hbuf]
      exact Nat.mul_le_mul_right _ hoff
    · exact hbuf
  unfold getArea
  dsimp only
  split_ifs
  · exact hbuf
  · exact key _ _ _ (by omega)
  · exact key _ _ _ (by omega)

theorem foldl_getArea_length {secNum secCnt : ℕ} {as : List SecArea} {buf : List UInt8}
    (hbuf : buf.length = secCnt * v.psb.secSize) :
    (as.foldl (v.getArea secNum secCnt) buf).length = secCnt * v.psb.secSize := by
  induction as generalizing buf with
  | nil => exact hbuf
  | cons a as ih => exact ih (getArea_length hbuf)

/-- All areas in a read: the last one that covers a sector decides. -/
theorem foldl_getArea {secNum secCnt : ℕ} {as : List SecArea}
    (hdev : ∀ a ∈ as, v.ptrans.dataSecNum + a.secOff + a.secCnt ≤ v.dev.sectorCnt) (i : ℕ)
    (hi : i < secCnt * v.psb.secSize) (buf : List UInt8)
    (hbuf : buf.length = secCnt * v.psb.secSize) :
    (as.foldl (v.getArea secNum secCnt) buf)[i]? =
      match locate as (secNum + i / v.psb.secSize) with
      | some o => some (v.dev.data ((v.ptrans.dataSecNum + o) * v.psb.secSize + i % v.psb.secSize))
      | none => buf[i]? := by
  induction as generalizing buf with
  | nil => rfl
  | cons a as ih =>
    rw [List.foldl_cons, ih (fun b hb => hdev b (List.mem_cons_of_mem _ hb)) _
      (getArea_length hbuf), locate]
    cases locate as (secNum + i / v.psb.secSize) with
    | some o => rfl
    | none =>
      dsimp only
      rw [getArea_getElem? hbuf (hdev a List.mem_cons_self) i hi]
      split_ifs <;> rfl

theorem TransOk.area_le (h : v.TransOk) (a : SecArea) (ha : a ∈ v.ptrans.secAreaArr) :
    v.ptrans.dataSecNum + a.secOff + a.secCnt ≤ v.dev.sectorCnt := by
  have := h.logged a ha
  rcases h.onDev with h | h
  · rw [h] at ha
    cases ha
  · omega

theorem view_eq (hopen : v.Open) (x : ℕ) :
    v.view x = match locate v.ptrans.secAreaArr (x / v.psb.secSize) with
      | some o => v.dev.data ((v.ptrans.dataSecNum + o) * v.psb.secSize + x % v.psb.secSize)
      | none => v.dev.data x := by
  rw [view, if_pos hopen]

/-- The transaction is in order, or it has nothing that a read would have to patch in. -/
def Readable (v : Vol) : Prop := v.TransOk ∨ ¬ v.Open ∨ v.ptrans.secAreaArr = []

theorem view_eq_data (h : ¬ v.Open ∨ v.ptrans.secAreaArr = []) : v.view = v.dev.data := by
  funext x
  unfold view
  rcases h with h | h
  · rw [if_neg h]
  · rw [h]
    split_ifs <;> rfl

/-- A buffer of device sectors becomes a buffer of what the transaction sees. -/
theorem tpsFsTransGetData_slice (h : v.Readable) (sec cnt : ℕ) :
    v.tpsFsTransGetData (slice v.dev.data (sec * v.psb.secSize) (cnt * v.psb.secSize)) sec cnt =
      slice v.view (sec * v.psb.secSize) (cnt * v.psb.secSize) := by
  have hS := v.psb.secSize_pos
  rcases h with h | h
  swap
  · rw [view_eq_data h, tpsFsTransGetData]
    rcases h with h | h
    · rw [if_neg h]
    · rw [h]
      split_ifs <;> rfl
  unfold tpsFsTransGetData
  rw [if_pos h.isOpen]
  apply List.ext_getElem?
  intro i
  rcases Nat.lt_or_ge i (cnt * v.psb.secSize) with hi | hi
  · rw [foldl_getArea h.area_le i hi _ (slice_length _ _ _), slice_getElem?, slice_getElem?,
      if_pos hi, if_pos hi, view_eq h.isOpen, Nat.mul_comm sec, Nat.mul_add_div hS, Nat.mul_add_mod]
    cases locate v.ptrans.secAreaArr (sec + i / v.psb.secSize) <;> rfl
  · rw [List.getElem?_eq_none, List.getElem?_eq_none]
    · simpa using hi
    · rwa [foldl_getArea_length (slice_length _ _ _)]

/-- From `v` on, writes inside the transaction have led to `w`: nothing else has changed, and all
they did to the device was to fill the next sectors of the log. -/
structure SameTrans (v w : Vol) : Prop where
  psb : w.psb = v.psb
  ptranssb : w.ptranssb = v.ptranssb
  transFault : w.transFault = v.transFault
  pbp : w.pbp = v.pbp
  ptrans : w.ptrans = { v.ptrans with
    dataSecCnt := w.ptrans.dataSecCnt
    secAreaArr := w.ptrans.secAreaArr }
  cnt_le : v.ptrans.dataSecCnt ≤ w.ptrans.dataSecCnt
  log : ∃ es, w.dev = v.dev.after v.psb.secSize es ∧ Whole v.psb.secSize es ∧
    Within (fun s => v.ptrans.dataSecNum + v.ptrans.dataSecCnt ≤ s) es ∧
    ∀ s, v.ptrans.dataSecNum + v.ptrans.dataSecCnt ≤ s →
      s < v.ptrans.dataSecNum + w.ptrans.dataSecCnt → ∃ data, .write s data ∈ es

theorem SameTrans.dataSecNum {w : Vol} (h : SameTrans v w) :
    w.ptrans.dataSecNum = v.ptrans.dataSecNum := by
  rw [h.ptrans]

theorem SameTrans.sectorCnt {w : Vol} (h : SameTrans v w) : w.dev.sectorCnt = v.dev.sectorCnt := by
  obtain ⟨es, hdev, -⟩ := h.log
  rw [hdev, Dev.after_sectorCnt]

theorem SameTrans.refl (v : Vol) : SameTrans v v :=
  ⟨rfl, rfl, rfl, rfl, rfl, Nat.le_refl _, [], by rw [Dev.after_nil], fun _ _ h => by simp at h,
    fun _ _ h => by simp at h, fun s h h' => by omega⟩

theorem SameTrans.trans {u w : Vol} (h : SameTrans u v) (h' : SameTrans v w) : SameTrans u w := by
  obtain ⟨es, hdev, hw, hin, hcov⟩ := h.log
  obtain ⟨es', hdev', hw', hin', hcov'⟩ := h'.log
  have hnum := h.dataSecNum
  have hle := h.cnt_le
  have hle' := h'.cnt_le
  refine ⟨h'.psb.trans h.psb, h'.ptranssb.trans h.ptranssb, h'.transFault.trans h.transFault,
    h'.pbp.trans h.pbp, h'.ptrans.trans (by rw [h.ptrans]), hle.trans hle', es ++ es', ?_, ?_, ?_,
    fun s hs hs' => ?_⟩
  · rw [hdev', hdev, h.psb, Dev.after_append]
  · rw [h.psb] at hw'
    exact hw.append hw'
  · refine hin.append (hin'.mono fun s hs => ?_)
    omega
  · rcases Nat.lt_or_ge s (u.ptrans.dataSecNum + v.ptrans.dataSecCnt) with hlt | hge
    · obtain ⟨data, hm⟩ := hcov s hs hlt
      exact ⟨data, List.mem_append_left _ hm⟩
    · obtain ⟨data, hm⟩ := hcov' s (by omega) (by omega)
      exact ⟨data, List.mem_append_right _ hm⟩

/-- The transaction has only areas before sector `L`. -/
def Below (L : ℕ) (v : Vol) : Prop := ∀ a ∈ v.ptrans.secAreaArr, a.secStart + a.secCnt ≤ L

end Vol

open Vol

theorem transReadSector_ok {v v' : Vol} {sec cnt : ℕ} {buf : List UInt8} (h : v.Readable)
    (hr : transReadSector sec cnt v = (.ok buf, v')) :
    v' = v ∧ buf = slice v.view (sec * v.psb.secSize) (cnt * v.psb.secSize) := by
  obtain ⟨b, w, h₁, h₂⟩ := bind_ok.mp hr
  obtain ⟨-, rfl, rfl⟩ := devReadSector_ok.mp h₁
  obtain ⟨w, w', h₃, h₄⟩ := bind_ok.mp h₂
  obtain ⟨rfl, rfl⟩ := get_ok.mp h₃
  obtain ⟨rfl, rfl⟩ := pure_ok.mp h₄
  exact ⟨rfl, tpsFsTransGetData_slice h sec cnt⟩

theorem transReadSector_isOk {v : Vol} {sec cnt : ℕ} (h : v.Readable)
    (hs : sec + cnt ≤ v.dev.sectorCnt) : transReadSector sec cnt v =
      (.ok (slice v.view (sec * v.psb.secSize) (cnt * v.psb.secSize)), v) :=
  bind_ok.mpr ⟨_, _, devReadSector_ok.mpr ⟨hs, rfl, rfl⟩, bind_ok.mpr ⟨_, _, get_ok.mpr ⟨rfl, rfl⟩,
    pure_ok.mpr ⟨tpsFsTransGetData_slice h sec cnt, rfl⟩⟩⟩

/-- The volume after `__tpsFsTransPutData`. -/
def Vol.put (v : Vol) (buf : List UInt8) (secNum secCnt : ℕ) : Vol :=
  { v with
    dev :=
      { v.dev with
        data := overlay v.dev.data ((v.ptrans.dataSecNum + v.ptrans.dataSecCnt) * v.psb.secSize)
          (buf.take (secCnt * v.psb.secSize))
        trace := v.dev.trace ++ writes v.psb.secSize buf
          (v.ptrans.dataSecNum + v.ptrans.dataSecCnt) secCnt ++ [] }
    ptrans :=
      { v.ptrans with
        secAreaArr := v.ptrans.secAreaArr.flatMap (SecArea.trim secNum secCnt) ++
          [⟨secNum, v.ptrans.dataSecCnt, u32 secCnt⟩]
        dataSecCnt := u32 (v.ptrans.dataSecCnt + secCnt) } }

theorem tpsFsTransPutData_ok {v v' : Vol} {buf : List UInt8} {secNum secCnt : ℕ} {u : Unit} :
    tpsFsTransPutData buf secNum secCnt v = (.ok u, v') ↔
      v.HasRoom secCnt ∧
        v.ptrans.dataSecNum + v.ptrans.dataSecCnt + secCnt ≤ v.dev.sectorCnt ∧
        v.put buf secNum secCnt = v' := by
  constructor
  · intro h
    obtain ⟨w, w', h₁, h₂⟩ := bind_ok.mp h
    obtain ⟨rfl, rfl⟩ := get_ok.mp h₁
    obtain ⟨_, w₂, h₃, h₄⟩ := bind_ok.mp h₂
    obtain ⟨hroom, rfl⟩ := ensure_ok.mp h₃
    obtain ⟨_, w₃, h₅, h₆⟩ := bind_ok.mp h₄
    obtain rfl := modify_ok.mp h₅
    obtain ⟨_, w₄, h₇, h₈⟩ := bind_ok.mp h₆
    obtain ⟨hdev, rfl⟩ := devWriteSector_ok.mp h₇
    obtain rfl := modify_ok.mp h₈
    exact ⟨hroom, hdev, rfl⟩
  · rintro ⟨hroom, hdev, rfl⟩
    exact bind_ok.mpr ⟨_, _, get_ok.mpr ⟨rfl, rfl⟩, bind_ok.mpr ⟨(), _, ensure_ok.mpr ⟨hroom, rfl⟩,
      bind_ok.mpr ⟨(), _, modify_ok.mpr rfl, bind_ok.mpr ⟨(), _,
        devWriteSector_ok.mpr ⟨hdev, rfl⟩, modify_ok.mpr rfl⟩⟩⟩⟩

section Put

variable {v : Vol} {buf : List UInt8} {secNum secCnt : ℕ}

theorem Vol.TransOk.u32_eq (h : v.TransOk) (hroom : v.HasRoom secCnt) :
    u32 secCnt = secCnt ∧ u32 (v.ptrans.dataSecCnt + secCnt) = v.ptrans.dataSecCnt + secCnt := by
  have h₁ := h.start_le
  have h₂ := h.cnt_lt
  have h₃ := hroom.2
  unfold u32
  constructor <;> apply Nat.mod_eq_of_lt <;> omega

theorem Vol.TransOk.put (h : v.TransOk) (hc : 0 < secCnt) (hroom : v.HasRoom secCnt)
    (hdev : v.ptrans.dataSecNum + v.ptrans.dataSecCnt + secCnt ≤ v.dev.sectorCnt) :
    (v.put buf secNum secCnt).TransOk := by
  obtain ⟨e₁, e₂⟩ := TransOk.u32_eq h hroom
  constructor
  · exact h.start_le
  · exact h.cnt_lt
  · right
    dsimp only [Vol.put]
    rw [e₂, ← Nat.add_assoc]
    exact hroom.2
  · right
    dsimp only [Vol.put]
    rwa [e₂, ← Nat.add_assoc]
  · exact h.status
  · intro a ha
    dsimp only [Vol.put] at ha ⊢
    rw [e₁] at ha
    rw [e₂]
    rcases List.mem_append.mp ha with ha | ha
    · have := h.logged.trim secNum secCnt a ha
      omega
    · rw [List.mem_singleton.mp ha]
  · dsimp only [Vol.put]
    rw [e₁]
    exact pairwise_put h.disjoint _ _ _
  · dsimp only [Vol.put]
    have h₁ := length_trim_le h.disjoint secNum hc
    have h₂ := hroom.1
    rw [List.length_append, List.length_singleton]
    omega

theorem Vol.SameTrans.put (secNum : ℕ) (h : v.TransOk) (hroom : v.HasRoom secCnt)
    (hbuf : secCnt * v.psb.secSize ≤ buf.length) : SameTrans v (v.put buf secNum secCnt) := by
  have e₂ : (v.put buf secNum secCnt).ptrans.dataSecCnt = v.ptrans.dataSecCnt + secCnt :=
    (TransOk.u32_eq h hroom).2
  refine ⟨rfl, rfl, rfl, rfl, rfl, by rw [e₂]; exact Nat.le_add_right _ _,
    writes v.psb.secSize buf (v.ptrans.dataSecNum + v.ptrans.dataSecCnt) secCnt, ?_,
    Whole.writes hbuf, Within.writes fun i _ => Nat.le_add_right _ _, fun s hs hs' => ?_⟩
  · rw [Dev.after, applyAll_writes hbuf, Vol.put, List.append_nil]
  · rw [e₂] at hs'
    obtain ⟨i, rfl⟩ := Nat.exists_eq_add_of_le hs
    exact ⟨_, mem_writes.mpr ⟨i, by omega, rfl, rfl⟩⟩

theorem Vol.Below.put {L : ℕ} (h : v.TransOk) (hroom : v.HasRoom secCnt) (hL : secNum + secCnt ≤ L)
    (hbelow : Below L v) : Below L (v.put buf secNum secCnt) := by
  intro a ha
  rcases List.mem_append.mp ha with ha | ha
  · obtain ⟨b, hb, hab⟩ := List.mem_flatMap.mp ha
    have h₁ := (SecArea.mem_trim hab).2.1
    have h₂ := hbelow b hb
    omega
  · rw [List.mem_singleton.mp ha, (TransOk.u32_eq h hroom).1]
    exact hL

/-- The sectors that were written are seen, and so is what was seen before. -/
theorem view_put (h : v.TransOk) (hroom : v.HasRoom secCnt)
    (hbuf : secCnt * v.psb.secSize ≤ buf.length) {x : ℕ}
    (hx : ¬ (v.put buf secNum secCnt).InLog x) :
    (v.put buf secNum secCnt).view x =
      overlay v.view (secNum * v.psb.secSize) (buf.take (secCnt * v.psb.secSize)) x := by
  obtain ⟨e₁, e₂⟩ := TransOk.u32_eq h hroom
  have hS := v.psb.secSize_pos
  have hlen : (buf.take (secCnt * v.psb.secSize)).length = secCnt * v.psb.secSize := by
    rw [List.length_take, Nat.min_eq_left hbuf]
  have hxr := Nat.div_add_mod' x v.psb.secSize
  have hr := Nat.mod_lt x hS
  have hdata : (v.put buf secNum secCnt).dev.data = overlay v.dev.data
    ((v.ptrans.dataSecNum + v.ptrans.dataSecCnt) * v.psb.secSize)
    (buf.take (secCnt * v.psb.secSize)) := rfl
  have hareas : (v.put buf secNum secCnt).ptrans.secAreaArr =
      v.ptrans.secAreaArr.flatMap (SecArea.trim secNum secCnt) ++
        [(⟨secNum, v.ptrans.dataSecCnt, secCnt⟩ : SecArea)] := by
    dsimp only [Vol.put]
    rw [e₁]
  have hlog : ¬ (v.ptrans.dataSecNum ≤ x / v.psb.secSize ∧ x / v.psb.secSize <
      v.ptrans.dataSecNum + (v.ptrans.dataSecCnt + secCnt)) := by
    rwa [← e₂]
  rw [view_eq (v := v.put buf secNum secCnt) h.isOpen, hareas, locate_put, hdata,
    show (v.put buf secNum secCnt).psb = v.psb from rfl,
    show (v.put buf secNum secCnt).ptrans.dataSecNum = v.ptrans.dataSecNum from rfl]
  by_cases hq : secNum ≤ x / v.psb.secSize ∧ x / v.psb.secSize < secNum + secCnt
  · -- a sector of this write
    rw [if_pos hq]
    dsimp only
    obtain ⟨k, hk⟩ := Nat.exists_eq_add_of_le hq.1
    have hlt : k * v.psb.secSize + x % v.psb.secSize < secCnt * v.psb.secSize :=
      calc k * v.psb.secSize + x % v.psb.secSize < (k + 1) * v.psb.secSize := by
            rw [Nat.add_mul]; omega
        _ ≤ secCnt * v.psb.secSize := Nat.mul_le_mul_right _ (by omega)
    have ey : (v.ptrans.dataSecNum + (v.ptrans.dataSecCnt + (x / v.psb.secSize - secNum))) *
        v.psb.secSize + x % v.psb.secSize =
        (v.ptrans.dataSecNum + v.ptrans.dataSecCnt) * v.psb.secSize +
          (k * v.psb.secSize + x % v.psb.secSize) := by
      rw [hk, Nat.add_sub_cancel_left, ← Nat.add_assoc, Nat.add_mul _ k, Nat.add_assoc]
    have ex : secNum * v.psb.secSize + (k * v.psb.secSize + x % v.psb.secSize) = x := by
      rw [← Nat.add_assoc, ← Nat.add_mul, ← hk, hxr]
    rw [ey, overlay_shift (g := v.view) (b := secNum * v.psb.secSize) (by rw [hlen]; exact hlt), ex]
  · rw [if_neg hq, overlay_sectors_outside hS v.view _ hlen (by omega), view_eq h.isOpen]
    cases hloc : locate v.ptrans.secAreaArr (x / v.psb.secSize) with
    | some o =>
      -- an older sector of the log
      have ho := h.logged.locate_lt hloc
      refine overlay_sectors_outside hS _ _ hlen (.inl ?_)
      rw [Nat.mul_comm, Nat.mul_add_div hS, Nat.div_eq_of_lt hr]
      omega
    | none => exact overlay_sectors_outside hS _ _ hlen (by omega)

end Put

theorem Vol.InLog.mono {w : Vol} (h : SameTrans v w) {x : ℕ} (hx : v.InLog x) : w.InLog x := by
  have hnum := h.dataSecNum
  have hle := h.cnt_le
  unfold InLog at hx ⊢
  rw [h.psb]
  omega

/-- A write that fails has changed the list of areas and the log at most. -/
theorem tpsFsTransPutData_error {w : Vol} {buf : List UInt8} {secNum secCnt : ℕ} {e : TpsErr}
    (h : tpsFsTransPutData buf secNum secCnt v = (.error e, w)) : SameTrans v w := by
  have hnil (areas : List SecArea) :
      SameTrans v { v with ptrans := { v.ptrans with secAreaArr := areas } } :=
    ⟨rfl, rfl, rfl, rfl, rfl, Nat.le_refl _, [], by rw [Dev.after_nil],
      fun _ _ h => by simp at h, fun _ _ h => by simp at h, fun s h h' => by dsimp only at h'; omega⟩
  rw [tpsFsTransPutData, bind_of_ok (get_ok.mpr ⟨rfl, rfl⟩)] at h
  rcases bind_error h with h₁ | ⟨_, v₁, h₁, h₂⟩
  · unfold ensure at h₁
    split_ifs at h₁ <;> cases h₁
    exact SameTrans.refl v
  · obtain ⟨-, rfl⟩ := ensure_ok.mp h₁
    rw [trimAreas, bind_of_ok (a := ()) (modify_ok.mpr rfl)] at h₂
    rcases bind_error h₂ with h₃ | ⟨_, v₂, -, h₄⟩
    · unfold devWriteSector at h₃
      split_ifs at h₃ <;> cases h₃
      exact hnil _
    · cases h₄

/-- A successful write inside a transaction: the bytes are seen at their place, nothing else
changes, and the transaction is in order. -/
theorem tpsFsTransWrite_ok {v v' : Vol} {blk uiOff : ℕ} {data : List UInt8} {u : Unit}
    (h : v.TransOk) (hw : tpsFsTransWrite true blk uiOff data v = (.ok u, v')) :
    v'.TransOk ∧ SameTrans v v' ∧ Wrote view InLog v v' (blkAddr v.psb blk uiOff) data ∧
      ∀ L, blkAddr v.psb blk uiOff + data.length ≤ L * v.psb.secSize → Below L v → Below L v' := by
  rw [tpsFsTransWrite, bind_of_ok (get_ok.mpr ⟨rfl, rfl⟩), if_pos rfl] at hw
  have key := writeRange_ok v.psb view InLog (fun w => w.TransOk ∧ SameTrans v w ∧
      ∀ L, blkAddr v.psb blk uiOff + data.length ≤ L * v.psb.secSize → Below L v → Below L w)
    _ ?_ ?_ ⟨h, SameTrans.refl v, fun _ _ hL => hL⟩ (Nat.le_refl _) hw
  · exact ⟨key.1.1, key.1.2.1, key.2, key.1.2.2⟩
  · intro v₁ sec cnt buf v₂ hg hr
    rw [← hg.2.1.psb]
    exact transReadSector_ok (.inl hg.1) hr
  · intro v₁ sec cnt buf v₂ u hg hbuf hc htop hp
    obtain ⟨hroom, hdev, rfl⟩ := tpsFsTransPutData_ok.mp (failWith_ok.mp hp)
    have hbuf' := hbuf
    rw [← hg.2.1.psb] at hbuf'
    have hsame := SameTrans.put sec hg.1 hroom hbuf'
    refine ⟨⟨hg.1.put hc hroom hdev, hg.2.1.trans hsame, fun L hL hbelow => ?_⟩,
      fun x hx => hx.mono hsame, ?_⟩
    · refine Below.put hg.1 hroom ?_ (hg.2.2 L hL hbelow)
      have := Nat.lt_of_mul_lt_mul_right (Nat.lt_of_lt_of_le htop hL)
      omega
    · intro x hx
      rw [← hg.2.1.psb]
      exact view_put hg.1 hroom hbuf' hx

/-- A write that fails has filled some sectors of the log at most. -/
theorem tpsFsTransWrite_error {v v' : Vol} {blk uiOff : ℕ} {data : List UInt8} {e : TpsErr}
    (h : v.TransOk) (hw : tpsFsTransWrite true blk uiOff data v = (.error e, v')) :
    SameTrans v v' := by
  rw [tpsFsTransWrite, bind_of_ok (get_ok.mpr ⟨rfl, rfl⟩), if_pos rfl] at hw
  refine writeRange_error v.psb view InLog (fun w => w.TransOk ∧ SameTrans v w) _ ?_ ?_
    (SameTrans v) ?_ ?_ (fun w hg => hg.2)
    ⟨h, SameTrans.refl v⟩ (Nat.le_refl _) hw
  · intro v₁ sec cnt buf v₂ hg hr
    rw [← hg.2.psb]
    exact transReadSector_ok (.inl hg.1) hr
  · intro v₁ sec cnt buf v₂ u hg hbuf hc htop hp
    obtain ⟨hroom, hdev, rfl⟩ := tpsFsTransPutData_ok.mp (failWith_ok.mp hp)
    rw [← hg.2.psb] at hbuf ⊢
    have hsame := SameTrans.put sec hg.1 hroom hbuf
    exact ⟨⟨hg.1.put hc hroom hdev, hg.2.trans hsame⟩, fun x hx => hx.mono hsame,
      fun x hx => view_put hg.1 hroom hbuf hx⟩
  · intro w sec cnt e w' hg hr
    rcases bind_error hr with h₁ | ⟨_, w₁, -, h₂⟩
    · unfold devReadSector at h₁
      split at h₁ <;> cases h₁
      rfl
    · rw [bind_of_ok (get_ok.mpr ⟨rfl, rfl⟩)] at h₂
      cases h₂
  · intro w sec cnt buf w' e hg hbuf hc hp
    refine hg.2.trans ?_
    unfold failWith onFail at hp
    split at hp
    · cases hp
    · next e' s hs =>
      cases hp
      exact tpsFsTransPutData_error hs

/-- A read inside a transaction returns what the transaction sees. -/
theorem tpsFsTransRead_ok {v v' : Vol} {blk uiOff szLen : ℕ} {buf : List UInt8}
    (h : v.Readable) (hr : tpsFsTransRead blk uiOff szLen v = (.ok buf, v')) :
    v' = v ∧ buf = slice v.view (blkAddr v.psb blk uiOff) szLen := by
  obtain ⟨w, w', h₁, h₂⟩ := bind_ok.mp hr
  obtain ⟨rfl, rfl⟩ := get_ok.mp h₁
  exact readRange_ok (fun sec cnt buf w' hrd => transReadSector_ok h hrd) h₂

theorem tpsFsTransRead_isOk {v : Vol} {blk uiOff szLen : ℕ} (h : v.Readable)
    (hlen : blkAddr v.psb blk uiOff + szLen ≤ v.dev.sectorCnt * v.psb.secSize) :
    tpsFsTransRead blk uiOff szLen v =
      (.ok (slice v.view (blkAddr v.psb blk uiOff) szLen), v) :=
  bind_ok.mpr ⟨_, _, get_ok.mpr ⟨rfl, rfl⟩,
    readRange_isOk (fun _ _ hs => transReadSector_isOk h hs) hlen
      fun _ _ _ _ hrd => transReadSector_ok h hrd⟩

/-- From `v` on, requests for sectors before `L` have led to `w`, and they are flushed. -/
def Vol.Direct (L : ℕ) (v w : Vol) : Prop :=
  ∃ es, w = v.after es ∧ Whole v.psb.secSize es ∧ Within (· < L) es ∧
    (es = [] ∨ ∃ es', es = es' ++ [.sync])

section Direct

variable {w w' : Vol} {L sec cnt : ℕ} {buf : List UInt8}

theorem Vol.Direct.refl (L : ℕ) (v : Vol) : Direct L v v :=
  ⟨[], (after_nil v).symm, fun _ _ h => by simp at h, fun _ _ h => by simp at h, .inl rfl⟩

theorem Vol.Direct.read (h : Direct L v w) (hr : devReadSector sec cnt w = (.ok buf, w')) :
    w' = w ∧ buf = slice w.dev.data (sec * v.psb.secSize) (cnt * v.psb.secSize) := by
  obtain ⟨es, rfl, -⟩ := h
  obtain ⟨-, rfl, rfl⟩ := devReadSector_ok.mp hr
  exact ⟨rfl, rfl⟩

theorem Vol.Direct.write {u : Unit} (h : Direct L v w) (hbuf : cnt * v.psb.secSize ≤ buf.length)
    (hL : (sec + cnt - 1) * v.psb.secSize < L * v.psb.secSize)
    (hr : devWriteSector buf sec cnt true w = (.ok u, w')) :
    Direct L v w' ∧ Wrote (fun w => w.dev.data) (fun _ _ => False) w w' (sec * v.psb.secSize)
      (buf.take (cnt * v.psb.secSize)) := by
  obtain ⟨es, rfl, hw, hin, -⟩ := h
  obtain ⟨hdev, hw'⟩ := devWriteSector_ok.mp hr
  have hlt := Nat.lt_of_mul_lt_mul_right hL
  cases (devWriteSector_isOk (v := v.after es) (b := true) hbuf hdev).symm.trans hr
  refine ⟨⟨_, after_after _ _ _, hw.append ((Whole.writes hbuf).append Whole.sync),
    hin.append ((Within.writes fun i hi => by omega).append Within.sync),
    .inr ⟨_, (List.append_assoc _ _ _).symm⟩⟩, fun _ h => h, fun x _ => ?_⟩
  rw [← hw']
  rfl

/-- A write outside a transaction overlays the contents of the device. -/
theorem tpsFsDevBufWrite_ok {v v' : Vol} {blk uiOff L : ℕ} {data : List UInt8} {u : Unit}
    (hL : blkAddr v.psb blk uiOff + data.length ≤ L * v.psb.secSize)
    (hw : tpsFsDevBufWrite v.psb blk uiOff data true v = (.ok u, v')) :
    Direct L v v' ∧ v'.dev.data = overlay v.dev.data (blkAddr v.psb blk uiOff) data := by
  have key := writeRange_ok v.psb (fun w => w.dev.data) (fun _ _ => False) (Direct L v)
    (L * v.psb.secSize) (fun _ _ _ _ _ h hr => h.read hr)
    (fun _ _ _ _ _ _ h hbuf _ hL hr => h.write hbuf hL hr) (Direct.refl L v) hL hw
  exact ⟨key.1, funext fun x => key.2.2 x id⟩

/-- A write outside a transaction goes to sectors of its range only, also when it fails, and is
flushed. -/
theorem tpsFsTransWrite_direct {v v' : Vol} {blk uiOff L : ℕ} {data : List UInt8}
    {r : Except TpsErr Unit}
    (hL : blkAddr v.psb blk uiOff + data.length ≤ L * v.psb.secSize)
    (hw : tpsFsTransWrite false blk uiOff data v = (r, v')) : Direct L v v' := by
  rw [tpsFsTransWrite, bind_of_ok (get_ok.mpr ⟨rfl, rfl⟩), if_neg (by decide)] at hw
  cases r with
  | ok u => exact (tpsFsDevBufWrite_ok hL hw).1
  | error e =>
    refine writeRange_error v.psb (fun w => w.dev.data) (fun _ _ => False) (Direct L v)
      (L * v.psb.secSize) (fun _ _ _ _ _ h hr => h.read hr)
      (fun _ _ _ _ _ _ h hbuf _ hL hr => h.write hbuf hL hr) _ ?_ ?_ (fun w h => h)
      (Direct.refl L v) hL hw
    · rintro w sec cnt e w' - hr
      unfold devReadSector at hr
      split at hr <;> cases hr
      rfl
    · rintro w sec cnt buf w' e hg - - hr
      unfold devWriteSector at hr
      split_ifs at hr <;> cases hr
      exact hg

end Direct

theorem tpsFsTransAllocAndInit_ok {v v' : Vol} {time : ℕ}
    (hstart : v.ptranssb.transDataStart ≤ v.ptranssb.dataCurSec)
    (hcnt : v.ptranssb.transDataCnt < 2 ^ 32)
    (h : tpsFsTransAllocAndInit time v = (.ok true, v')) :
    v'.TransOk ∧ v'.psb = v.psb ∧ v'.dev = v.dev ∧ v'.view = v.dev.data ∧
      v'.ptrans.dataSecCnt = 0 := by
  unfold tpsFsTransAllocAndInit at h
  split_ifs at h
  · simp at h
  · simp only [Prod.mk.injEq, true_and] at h
    subst h
    refine ⟨⟨hstart, hcnt, .inl ⟨rfl, rfl⟩, .inl rfl, rfl, ?_, List.Pairwise.nil, Nat.zero_le _⟩, rfl, rfl,
      ?_, rfl⟩
    · intro a ha
      cases ha
    · funext x
      rw [view_eq (.inl rfl)]
      rfl

end SylixOS.TpsFs
