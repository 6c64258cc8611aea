import SylixOS.TpsFs.Delete
import SylixOS.Lib.Blocks

/-! # Reading and writing a file

Data go straight to the blocks of the file, and only what describes the file goes through the journal. A
write takes blocks from the space tree first; a long one is split over several transactions. -/

namespace SylixOS.TpsFs
open Lib

inductive FileErr where
  | enomem | eio | enospc | einval | eisdir | enxio
  deriving DecidableEq, Repr

/-- How a transaction has ended: a commit with the state of the volume before it and the inode. -/
inductive TransEnd (σ : Type) where
  | committed (vol : σ) (inode : TpsInode)
  | rolledBack

/-- A file on a volume: what its blocks hold, and how the transactions so far have ended. -/
structure FileVol (σ : Type) where
  vol : σ
  dev : ℕ → ℕ → UInt8
  inode : TpsInode
  history : List (TransEnd σ)

/-- A range of blocks that `tpsFsInodeAllocBlk` returns for a request: it fails rather than return none,
and never returns more. -/
structure BlkRange (blkAllocAtom : ℕ) where
  blkStart : ℕ
  blkCnt : ℕ
  pos : 0 < blkCnt
  le : blkCnt ≤ blkAllocAtom

/-- What a file operation calls beyond that. -/
structure FileOps (σ : Type) extends VolOps σ where
  /-- `tpsFsInodeAllocBlk`. -/
  allocBlk : σ → (blkAllocAtom : ℕ) → Option (σ × BlkRange blkAllocAtom)
  /-- The blocks that new nodes of the tree get. -/
  nodeBlks : σ → List ℕ
  /-- `TPS_TRANS_FAULT`. -/
  fault : σ → Bool
  /-- `__TPS_FILE_LOCK` and `__SHEAP_ALLOC` succeed. -/
  fileLock : σ → Bool
  heapAlloc : σ → Bool
  /-- What the memory holds that `__SHEAP_ALLOC` returns. -/
  heapBuf : σ → ℕ → UInt8
  /-- `tpsFsDevBufRead` and `tpsFsDevBufWrite` of some bytes. -/
  devRead : σ → ℕ → ℕ → ℕ → Bool
  devWrite : σ → ℕ → ℕ → ℕ → Option σ
  /-- `tpsFsDevBufSync`. -/
  devSync : σ → ℕ → ℕ → ℕ → Option σ
  /-- What a commit writes into the blocks: the bytes of the sectors in the transaction. -/
  logged : σ → ℕ → ℕ → Option UInt8
  /-- `tpsFsTransRollBackAndFree`, with what the failed transaction has left behind. -/
  rollBack : FileVol σ → FileVol σ

variable {σ : Type} (psb : SuperBlock) (ops : FileOps σ)

/-- Bytes are written from a place in a block on, and into the blocks behind it. -/
def devPut (dev : ℕ → ℕ → UInt8) (blk off : ℕ) (buf : List UInt8) : ℕ → ℕ → UInt8 := fun p o =>
  if blk ≤ p ∧ o < psb.blkSize ∧ off ≤ (p - blk) * psb.blkSize + o ∧
      (p - blk) * psb.blkSize + o < off + buf.length then
    buf.getD ((p - blk) * psb.blkSize + o - off) 0
  else dev p o

/-- Bytes are read from a place in a block on. -/
def devGet (dev : ℕ → ℕ → UInt8) (blk off n : ℕ) : List UInt8 :=
  (List.range n).map fun j => dev (blk + (off + j) / psb.blkSize) ((off + j) % psb.blkSize)

namespace FileVol

/-- The loop of `tpsFsInodeWrite` that takes blocks, at most so many rounds. -/
def allocLoop (blkAllocAtom : ℕ) : ℕ → ℕ → FileVol σ → FileVol σ × Option FileErr
  | 0, _, s => (s, none)
  | fuel + 1, i64Alloc, s =>
    if i64Alloc = 0 then (s, none)
    else
      match ops.allocBlk s.vol blkAllocAtom with
      | none => (s, some .enospc)
      | some (vol, r) =>
        match tpsFsBtreeAppendBlk psb s.inode.tree r.blkStart r.blkCnt (ops.nodeBlks vol),
          ops.putNode vol with
        | .ok (t, _), .ok vol =>
          let s := { s with
            vol := vol
            inode := { s.inode with tree := t, blkCnt := s.inode.blkCnt + r.blkCnt } }
          match ops.adjustBP vol with
          | .error _ => (s, some .eio)
          | .ok vol =>
            let s := { s with vol := vol }
            if ops.trigerChk vol then (s, none)
            else allocLoop blkAllocAtom fuel (i64Alloc - r.blkCnt) s
        | _, _ => ({ s with vol := vol }, some .eio)

/-- A part of the data has been written to the device; `O_SYNC` waits for it. -/
def putData (s : FileVol σ) (blkPscStart offBlk : ℕ) (buf : List UInt8) : FileVol σ × Bool :=
  match ops.devWrite s.vol blkPscStart offBlk buf.length with
  | none => (s, false)
  | some vol =>
    let s := { s with vol := vol, dev := devPut psb s.dev blkPscStart offBlk buf }
    if s.inode.sync then
      match ops.devSync vol blkPscStart offBlk buf.length with
      | none => (s, false)
      | some vol => ({ s with vol := vol }, true)
    else (s, true)

/-- The loop of `tpsFsInodeWrite` over the ranges: where it has come to, and how many bytes are written
unless it has failed. -/
def writeLoop : ℕ → ℕ → List UInt8 → ℕ → FileVol σ → FileVol σ × ℕ × Option ℕ
  | 0, off, _, szCompleted, s => (s, off, some szCompleted)
  | fuel + 1, off, pucBuff, szCompleted, s =>
    if pucBuff = [] then (s, off, some szCompleted)
    else
      match tpsFsBtreeGetBlk s.inode.tree (off >>> psb.blkShift) with
      | .error _ => (s, off, some szCompleted)
      | .ok (blkPscStart, blkPscCnt) =>
        let offBlk := off &&& psb.blkMask
        let szWriteLen := min pucBuff.length (psb.blkSize * blkPscCnt - offBlk)
        match putData psb ops s blkPscStart offBlk (pucBuff.take szWriteLen) with
        | (s, false) => (s, off, none)
        | (s, true) => writeLoop fuel (off + szWriteLen) (pucBuff.drop szWriteLen)
            (szCompleted + szWriteLen) s

/-- How many blocks `size` bytes need. -/
def blksFor (size : ℕ) : ℕ :=
  if size &&& psb.blkMask ≠ 0 then (size >>> psb.blkShift) + 1 else size >>> psb.blkShift

/-- The end of `tpsFsInodeWrite`: a file that has grown has a new size, also after a failure. -/
def setSize (s : FileVol σ) (off : ℕ) : FileVol σ × Bool :=
  if s.inode.szData < off then
    let s := { s with inode := { s.inode with szData := off } }
    if s.inode.sync then
      match ops.transWrite s.vol s.inode with
      | .error _ => (s, false)
      | .ok vol => ({ s with vol := vol }, true)
    else (s, true)
  else (s, true)

/-- `tpsFsInodeWrite` for the data of a file. -/
def inodeWrite (s : FileVol σ) (off : ℕ) (pucBuff : List UInt8) : FileVol σ × Except FileErr ℕ :=
  let i64Alloc := blksFor psb (off + pucBuff.length) - s.inode.blkCnt
  let blkAllocAtom := min 32 (max (s.inode.blkCnt >>> 4) (max 4 i64Alloc))
  match allocLoop psb ops blkAllocAtom i64Alloc i64Alloc s with
  | (s, some e) => (s, .error e)
  | (s, none) =>
    match writeLoop psb ops pucBuff.length off pucBuff 0 s with
    | (s, off, r) =>
      match setSize ops s off, r with
      | (s, false), _ => (s, .error .eio)
      | (s, true), none => (s, .error .eio)
      | (s, true), some szCompleted => (s, .ok szCompleted)

/-- A transaction is committed, and its sectors are written. -/
def commit (s : FileVol σ) : Option (FileVol σ) :=
  match ops.commit s.vol with
  | .error _ => none
  | .ok vol => some
    { s with
      vol := vol
      dev := fun p o => (ops.logged s.vol p o).getD (s.dev p o)
      history := s.history ++ [.committed s.vol s.inode] }

def rollBack (s : FileVol σ) : FileVol σ := 
  { ops.rollBack s with history := s.history ++ [.rolledBack] }

/-- A transaction of `tpsFsWrite`. -/
def writeTrans (s : FileVol σ) (off : ℕ) (pucBuff : List UInt8) : FileVol σ × Except FileErr ℕ :=
  match ops.transAlloc s.vol with
  | none => (s, .error .enomem)
  | some vol =>
    match inodeWrite psb ops { s with vol := vol } off pucBuff with
    | (s, .error e) => (rollBack ops s, .error e)
    | (s, .ok szWrite) =>
      if szWrite = 0 then (rollBack ops s, .ok 0)
      else
        match commit ops s with
        | none => (rollBack ops s, .error .eio)
        | some s => (s, .ok szWrite)

/-- The loop of `tpsFsWrite`: how many bytes are in the file for good, and the error. -/
def tpsWriteLoop (off : ℕ) : ℕ → List UInt8 → ℕ → FileVol σ → FileVol σ × ℕ × Option FileErr
  | 0, _, szRet, s => (s, szRet, none)
  | fuel + 1, pucBuff, szRet, s =>
    if pucBuff = [] then (s, szRet, none)
    else
      match writeTrans psb ops s (off + szRet) pucBuff with
      | (s, .error e) => (s, szRet, some e)
      | (s, .ok szWrite) =>
        if szWrite = 0 then (s, szRet, none)
        else tpsWriteLoop off fuel (pucBuff.drop szWrite) (szRet + szWrite) s

/-- `tpsFsWrite` to a regular file. -/
def tpsWrite (s : FileVol σ) (off : ℕ) (pucBuff : List UInt8) : FileVol σ × ℕ × Option FileErr :=
  if ops.fault s.vol then (s, 0, some .eio)
  else tpsWriteLoop psb ops off pucBuff.length pucBuff 0 s

/-- The loop of `tpsFsInodeRead`. -/
def readLoop (s : FileVol σ) : ℕ → ℕ → ℕ → Option (List UInt8)
  | 0, _, _ => some []
  | fuel + 1, off, szLen =>
    if szLen = 0 then some []
    else
      match tpsFsBtreeGetBlk s.inode.tree (off >>> psb.blkShift) with
      | .error _ => some []
      | .ok (blkPscStart, blkPscCnt) =>
        let offBlk := off &&& psb.blkMask
        let szReadLen := min (min szLen (psb.blkSize * blkPscCnt - offBlk)) (s.inode.szData - off)
        if ops.devRead s.vol blkPscStart offBlk szReadLen then
          if s.inode.szData ≤ off + szReadLen then
            some (devGet psb s.dev blkPscStart offBlk szReadLen)
          else
            (readLoop s fuel (off + szReadLen) (szLen - szReadLen)).map
              (devGet psb s.dev blkPscStart offBlk szReadLen ++ ·)
        else none

/-- `tpsFsRead`: the bytes, or an error. -/
def tpsRead (s : FileVol σ) (off szLen : ℕ) : Option (List UInt8) :=
  if ops.fault s.vol then none
  else if s.inode.szData ≤ off then some []
  else readLoop psb ops s szLen off szLen

/-- A transaction of `tpsFsTrunc`, and whether another one follows. -/
def truncTrans (s : FileVol σ) (size : ℕ) : FileVol σ × Except FileErr Bool :=
  match ops.transAlloc s.vol with
  | none => (s, .error .enomem)
  | some vol =>
    match Deleting.truncInode psb ops.toVolOps ⟨vol, s.inode, []⟩ size with
    | (d, e) =>
      let s := { s with vol := d.vol, inode := d.inode }
      if e = none ∨ e = some .transNeedCommit then
        match commit ops s with
        | none => (rollBack ops s, .error .eio)
        | some s => (s, .ok e.isSome)
      else (rollBack ops s, .error .eio)

/-- The loop of `tpsFsTrunc`, at most so many transactions. -/
def tpsTruncLoop (size : ℕ) : ℕ → FileVol σ → FileVol σ × Option FileErr
  | 0, s => (s, none)
  | fuel + 1, s =>
    match truncTrans psb ops s size with
    | (s, .error e) => (s, some e)
    | (s, .ok false) => (s, none)
    | (s, .ok true) => tpsTruncLoop size fuel s

/-- `tpsFsTrunc`. A transaction that is not the last one takes a block off at least. -/
def tpsTrunc (s : FileVol σ) (size : ℕ) : FileVol σ × Option FileErr :=
  if ops.fault s.vol then (s, some .eio)
  else tpsTruncLoop psb ops size (tpsFsBtreeBlkCnt s.inode.tree + 1) s

end FileVol

/-! ## Through a descriptor -/

/-- A descriptor: `FDENTRY_oftPtr`, `FDNODE_oftSize`, and whether it is opened with `O_APPEND`. -/
structure FileFd (σ : Type) where
  file : FileVol σ
  oftPtr : ℕ
  oftSize : ℕ
  append : Bool

namespace FileFd

/-- The loop that writes a block of zeros up to a place behind the end, at most so many times, with the
error that ends it. -/
def gapLoop (pucZoreBuf : List UInt8) (oftPos : ℕ) : ℕ → FileVol σ → FileVol σ × Option FileErr
  | 0, s => (s, none)
  | fuel + 1, s =>
    if s.inode.szData < oftPos then
      let szWrite := min psb.blkSize (oftPos - s.inode.szData)
      match FileVol.tpsWrite psb ops s s.inode.szData (pucZoreBuf.take szWrite) with
      | (s, _, some e) => (s, some e)
      | (s, _, none) => gapLoop pucZoreBuf oftPos fuel s
    else (s, none)

/-- The zeros in front of a place that is behind the end. -/
def fillGap (s : FileVol σ) (oftPos : ℕ) : FileVol σ × Option FileErr :=
  gapLoop psb ops (List.replicate psb.blkSize 0) oftPos (oftPos - s.inode.szData) s

/-- What `__tpsFsWrite` and `__tpsFsPWrite` have in common: the file reaches up to the place, and then
the data are written. -/
def writeAt (s : FileFd σ) (oftPos : ℕ) (pcBuffer : List UInt8) :
    FileFd σ × Option (ℕ × Option FileErr) :=
  if s.file.inode.szData < oftPos then
    if ops.heapAlloc s.file.vol then
      let file := (fillGap psb ops s.file oftPos).1
      let s := { s with file := file, oftSize := file.inode.szData }
      if s.oftSize < oftPos then (s, none)
      else
        match FileVol.tpsWrite psb ops s.file oftPos pcBuffer with
        | (file, r) => ({ s with file := file }, some r)
    else (s, none)
  else
    match FileVol.tpsWrite psb ops s.file oftPos pcBuffer with
    | (file, r) => ({ s with file := file }, some r)

/-- `O_APPEND` moves the pointer to the end first. -/
def start (s : FileFd σ) : FileFd σ := if s.append then { s with oftPtr := s.oftSize } else s

/-- `__tpsFsWrite`: `none` for `PX_ERROR`, otherwise the count and what is in `errno`. -/
def fdWrite (s : FileFd σ) (pcBuffer : List UInt8) : FileFd σ × Option (ℕ × Option FileErr) :=
  if ops.fileLock s.file.vol then
    let s := s.start
    if pcBuffer = [] then (s, some (0, none))
    else
      match writeAt psb ops s s.oftPtr pcBuffer with
      | (s, none) => (s, none)
      | (s, some (szWriteNum, iErr)) =>
        if iErr = none ∧ 0 < szWriteNum then
          ({ s with oftPtr := s.oftPtr + szWriteNum, oftSize := s.file.inode.szData },
            some (szWriteNum, iErr))
        else (s, some (szWriteNum, iErr))
  else (s, none)

/-- `__tpsFsPWrite`. -/
def fdPWrite (s : FileFd σ) (pcBuffer : List UInt8) (oftPos : ℕ) :
    FileFd σ × Option (ℕ × Option FileErr) :=
  if ops.fileLock s.file.vol then
    if pcBuffer = [] then (s, some (0, none))
    else
      match writeAt psb ops s oftPos pcBuffer with
      | (s, none) => (s, none)
      | (s, some (szWriteNum, iErr)) =>
        if iErr = none ∧ 0 < szWriteNum then
          ({ s with oftSize := s.file.inode.szData }, some (szWriteNum, iErr))
        else (s, some (szWriteNum, iErr))
  else (s, none)

/-- `__tpsFsTruncate`: whether it returns `ERROR_NONE`. The memory that a file grows by is not cleared.
-/
def fdTruncate (s : FileFd σ) (oftSize : ℕ) : FileFd σ × Bool :=
  if ops.fileLock s.file.vol then
    if s.file.inode.szData < oftSize then
      if ops.heapAlloc s.file.vol then
        let file := (gapLoop psb ops ((List.range psb.blkSize).map (ops.heapBuf s.file.vol))
          oftSize (oftSize - s.file.inode.szData) s.file).1
        ({ s with file := file, oftSize := file.inode.szData },
          !decide (file.inode.szData < oftSize))
      else (s, false)
    else
      match FileVol.tpsTrunc psb ops s.file oftSize with
      | (file, e) => ({ s with file := file, oftSize := file.inode.szData }, e.isNone)
  else (s, false)

/-- `__tpsFsRead` and `__tpsFsPRead`: the bytes unless it has failed. -/
def fdPRead (s : FileFd σ) (stMaxBytes oftPos : ℕ) : Option (List UInt8) :=
  if ops.fileLock s.file.vol then
    if stMaxBytes = 0 then some [] else FileVol.tpsRead psb ops s.file oftPos stMaxBytes
  else none

def fdRead (s : FileFd σ) (stMaxBytes : ℕ) : FileFd σ × Option (List UInt8) :=
  match fdPRead psb ops s stMaxBytes s.oftPtr with
  | none => (s, none)
  | some pcBuffer => ({ s with oftPtr := s.oftPtr + pcBuffer.length }, some pcBuffer)

/-- `__tpsFsSeek`. -/
def fdSeek (s : FileFd σ) (oftPos : ℕ) : FileFd σ × Bool :=
  if ops.fileLock s.file.vol then ({ s with oftPtr := oftPos }, true) else (s, false)

end FileFd
end SylixOS.TpsFs
