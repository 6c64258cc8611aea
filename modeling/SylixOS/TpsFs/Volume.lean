import SylixOS.Lib.Disk
import SylixOS.Lib.LittleEndian
import SylixOS.Lib.Outcome

/-! # A mounted TpsFs volume

The part of the super block that the transaction layer, the block pool and the B+tree read,
the block device under it, and the in-memory transaction. The device answers reads with its
current contents and keeps the history of the requests that reached it, which is what a power
cut truncates.
-/

namespace SylixOS.TpsFs
open Lib Lib.Store Lib.Disk

/-- A value stored in a `UINT`. -/
def u32 (n : ℕ) : ℕ := n % 2 ^ 32

/-- A value stored in a `UINT64`. -/
def u64 (n : ℕ) : ℕ := n % 2 ^ 64

/-- The error codes of `tpsfs_error.h` that the modelled functions return. -/
inductive TpsErr where
  | alloc | param | paramNull
  | bufRead | bufWrite | bufSync | readDev | writeDev
  | transOverflow | transWrite | transNeedCommit | transCommitFault | transRollbkFault
  | bpInit | bpRead | bpWrite | bpAlloc | bpFree | bpAdjust
  | btreeNodeMagic | btreeGetNode | btreePutNode | btreeKeyAreadyExit | btreeUpdateKey
  | btreeInsertNode | btreeNodeType | btreeNodeNotExist | btreeNodeRemove | btreeBlockCount
  | btreeDiskSpace | btreeFree | btreeFreeNd | btreeAlloc | btreeInsert | btreeTrunc
  | btreeKeyNotfound | btreeOverflow
  | inodeOpen | inodeDeleted | inodeSize | inodeBuff | inodeSync | inodeHashNoEmpty
  deriving DecidableEq, Repr

/-- The fields of `TPS_SUPER_BLOCK` that say where things lie on the device. Mounting accepts
only sector sizes that are powers of two from 512 on and a power of two of sectors in a
block, and formatting refuses blocks smaller than `TPS_MIN_BLK_SIZE`. -/
structure SuperBlock where
  secShift : ℕ
  blkShift : ℕ
  generation : ℕ
  dataStartBlk : ℕ
  logStartBlk : ℕ
  logBlkCnt : ℕ
  bpStartBlk : ℕ
  bpBlkCnt : ℕ
  secShift_ge : 9 ≤ secShift
  secShift_le : secShift ≤ blkShift
  blkShift_ge : 12 ≤ blkShift
  blkShift_lt : blkShift < 32
  generation_lt : generation < 2 ^ 64

/-! The shifts of sectors of 512 bytes and of blocks of 4096 bytes. -/

theorem secShift_ok : 9 ≤ 9 := le_rfl
theorem secShift_le_blkShift : 9 ≤ 12 := by decide
theorem blkShift_ok : 12 ≤ 12 := le_rfl
theorem blkShift_small : 12 < 32 := by decide
theorem generation_small : 1 < 2 ^ 64 := by decide

namespace SuperBlock

variable (psb : SuperBlock)

/-- `SB_uiSectorSize`. -/
def secSize : ℕ := 2 ^ psb.secShift

/-- `SB_uiSectorMask`. -/
def secMask : ℕ := (1 <<< psb.secShift) - 1

/-- `SB_uiBlkSize`. -/
def blkSize : ℕ := 2 ^ psb.blkShift

/-- `SB_uiBlkMask`. -/
def blkMask : ℕ := (1 <<< psb.blkShift) - 1

/-- `SB_uiSecPerBlk`. -/
def secPerBlk : ℕ := 2 ^ (psb.blkShift - psb.secShift)

theorem secSize_pos : 0 < psb.secSize := Nat.two_pow_pos _

theorem blkSize_eq : psb.blkSize = psb.secPerBlk * psb.secSize := by
  rw [blkSize, secPerBlk, secSize, ← Nat.pow_add, Nat.sub_add_cancel psb.secShift_le]

theorem secSize_ge : 512 ≤ psb.secSize :=
  Nat.pow_le_pow_right (n := 2) (by decide) psb.secShift_ge

theorem blkSize_ge : 4096 ≤ psb.blkSize :=
  Nat.pow_le_pow_right (n := 2) (by decide) psb.blkShift_ge

theorem shiftRight_sec (x : ℕ) : x >>> psb.secShift = x / psb.secSize :=
  Nat.shiftRight_eq_div_pow x _

theorem shiftLeft_sec (x : ℕ) : x <<< psb.secShift = x * psb.secSize :=
  Nat.shiftLeft_eq x _

theorem shiftLeft_blk (x : ℕ) : x <<< psb.blkShift = x * psb.blkSize :=
  Nat.shiftLeft_eq x _

theorem and_secMask (x : ℕ) : x &&& psb.secMask = x % psb.secSize := by
  rw [secMask, Nat.one_shiftLeft, Nat.and_two_pow_sub_one_eq_mod, secSize]

theorem and_blkMask (x : ℕ) : x &&& psb.blkMask = x % psb.blkSize := by
  rw [blkMask, Nat.one_shiftLeft, Nat.and_two_pow_sub_one_eq_mod, blkSize]

end SuperBlock

/-- The block device: its size in sectors, its contents by byte address, and the requests it
has served, oldest first. Byte addresses are computed in a `UINT64`. -/
structure Dev where
  sectorCnt : ℕ
  data : ℕ → UInt8
  trace : List (IoEvent UInt8)
  sectorCnt_lt : sectorCnt < 2 ^ 55

/-- The device after some more requests. -/
def Dev.after (S : ℕ) (dev : Dev) (es : List (IoEvent UInt8)) : Dev :=
  { dev with data := applyAll S dev.data es, trace := dev.trace ++ es }

@[simp] theorem Dev.after_nil (S : ℕ) (dev : Dev) : dev.after S [] = dev := by
  simp [Dev.after]

@[simp] theorem Dev.after_append (S : ℕ) (dev : Dev) (es₁ es₂ : List (IoEvent UInt8)) :
    (dev.after S es₁).after S es₂ = dev.after S (es₁ ++ es₂) := by
  simp [Dev.after]

@[simp] theorem Dev.after_sectorCnt (S : ℕ) (dev : Dev) (es : List (IoEvent UInt8)) :
    (dev.after S es).sectorCnt = dev.sectorCnt := rfl

/-- `TRANS_iStatus`. -/
inductive TransStatus where
  | uninit | init | commit | complete
  | other (code : ℕ)
  deriving DecidableEq, Repr

namespace TransStatus

/-- The value of a status in a transaction header. -/
def code : TransStatus → ℕ
  | uninit => 0xFFFFFFFF
  | init => 0
  | commit => 1
  | complete => 2
  | other c => c

/-- The status that a value in a transaction header stands for. -/
def ofCode : ℕ → TransStatus
  | 0xFFFFFFFF => uninit
  | 0 => init
  | 1 => commit
  | 2 => complete
  | c => other c

end TransStatus

/-- One entry of `TD_secareaArr`: a run of sectors and where its data lies in the log. -/
structure SecArea where
  secStart : ℕ
  secOff : ℕ
  secCnt : ℕ
  deriving DecidableEq, Repr

/-- `TPS_TRANS`: the fields of the transaction header, and those of `TRANS_pdata`. -/
structure Trans where
  magic : ℕ
  reserved : ℕ
  generation : ℕ
  serialNum : ℕ
  iType : ℕ
  iStatus : TransStatus
  reserved64 : ℕ
  time : ℕ
  dataSecNum : ℕ
  dataSecCnt : ℕ
  checkSum : ℕ
  tdReserved0 : ℕ
  tdReserved1 : ℕ
  secAreaArr : List SecArea
  deriving DecidableEq, Repr

/-- `TPS_TRANS_SB`: the places of the log and the cursors into it. -/
structure TransSb where
  transSecStart : ℕ
  transSecCnt : ℕ
  transDataStart : ℕ
  transDataCnt : ℕ
  transCurSec : ℕ
  transSecOff : ℕ
  secBuff : List UInt8
  dataCurSec : ℕ
  serialNum : ℕ
  deriving DecidableEq

/-- `TPS_BLK_POOL`: the queue of free node blocks, and where in the ring on the disk its first
entry is. -/
structure BlkPool where
  blkStart : ℕ
  startOff : ℕ
  blkArr : List ℕ
  deriving DecidableEq, Repr

/-- The mounted volume. There is one transaction object, `TSB_ptrans`; `transFault` is the flag
`TPS_TRANS_FAULT` of `SB_uiFlags`. -/
@[ext]
structure Vol where
  psb : SuperBlock
  dev : Dev
  ptranssb : TransSb
  ptrans : Trans
  transFault : Bool
  pbp : BlkPool

/-- A function of the file system: it changes the volume and may return an error code. -/
abbrev VolM := Outcome TpsErr Vol

namespace Vol

/-- The volume after some more requests at the device. -/
def after (v : Vol) (es : List (IoEvent UInt8)) : Vol :=
  { v with dev := v.dev.after v.psb.secSize es }

@[simp] theorem after_nil (v : Vol) : v.after [] = v := by simp [after]

@[simp] theorem after_after (v : Vol) (es₁ es₂ : List (IoEvent UInt8)) :
    (v.after es₁).after es₂ = v.after (es₁ ++ es₂) := by
  simp [after]

/-- The sectors that a read at the device returns. -/
def readSectors (v : Vol) (sec cnt : ℕ) : Option (List UInt8) :=
  if sec + cnt ≤ v.dev.sectorCnt then
    some (slice v.dev.data (sec * v.psb.secSize) (cnt * v.psb.secSize))
  else none

/-- `DEV_ReadSector`. -/
def devReadSector (sec cnt : ℕ) : VolM (List UInt8) := fun v =>
  match v.readSectors sec cnt with
  | some buf => (.ok buf, v)
  | none => (.error .bufRead, v)

/-- `DEV_WriteSector`: the device takes the sectors one by one, and flushes them when asked to. -/
def devWriteSector (buf : List UInt8) (sec cnt : ℕ) (bSync : Bool) : VolM Unit := fun v =>
  if sec + cnt ≤ v.dev.sectorCnt then
    (.ok (), { v with dev :=
      { v.dev with
        data := overlay v.dev.data (sec * v.psb.secSize) (buf.take (cnt * v.psb.secSize))
        trace := v.dev.trace ++ writes v.psb.secSize buf sec cnt ++ if bSync then [.sync] else [] } })
  else (.error .bufWrite, v)

/-- `DEV_Sync`, a barrier for everything that was written before it. -/
def devSync : VolM Unit := fun v =>
  (.ok (), { v with dev := { v.dev with trace := v.dev.trace ++ [.sync] } })

theorem devReadSector_ok {v v' : Vol} {sec cnt : ℕ} {buf : List UInt8} :
    devReadSector sec cnt v = (.ok buf, v') ↔
      sec + cnt ≤ v.dev.sectorCnt ∧
        slice v.dev.data (sec * v.psb.secSize) (cnt * v.psb.secSize) = buf ∧ v = v' := by
  unfold devReadSector readSectors
  by_cases h : sec + cnt ≤ v.dev.sectorCnt <;> simp [h]

theorem devWriteSector_ok {v v' : Vol} {buf : List UInt8} {sec cnt : ℕ} {b : Bool} {u : Unit} :
    devWriteSector buf sec cnt b v = (.ok u, v') ↔
      sec + cnt ≤ v.dev.sectorCnt ∧ { v with dev :=
        { v.dev with
          data := overlay v.dev.data (sec * v.psb.secSize) (buf.take (cnt * v.psb.secSize))
          trace := v.dev.trace ++ writes v.psb.secSize buf sec cnt ++
            if b then [.sync] else [] } } = v' := by
  unfold devWriteSector
  by_cases h : sec + cnt ≤ v.dev.sectorCnt <;> simp [h]

theorem devReadSector_isOk {v : Vol} {sec cnt : ℕ} (h : sec + cnt ≤ v.dev.sectorCnt) :
    devReadSector sec cnt v =
      (.ok (slice v.dev.data (sec * v.psb.secSize) (cnt * v.psb.secSize)), v) :=
  devReadSector_ok.mpr ⟨h, rfl, rfl⟩

theorem devWriteSector_isOk {v : Vol} {buf : List UInt8} {sec cnt : ℕ} {b : Bool}
    (hbuf : cnt * v.psb.secSize ≤ buf.length) (h : sec + cnt ≤ v.dev.sectorCnt) :
    devWriteSector buf sec cnt b v =
      (.ok (), v.after (writes v.psb.secSize buf sec cnt ++ if b then [.sync] else [])) := by
  refine devWriteSector_ok.mpr ⟨h, ?_⟩
  have hsync (f : ℕ → UInt8) : applyAll v.psb.secSize f (if b then [.sync] else []) = f := by
    cases b <;> rfl
  rw [Vol.after, Dev.after, applyAll_append, hsync, applyAll_writes hbuf, List.append_assoc]

end Vol

end SylixOS.TpsFs
