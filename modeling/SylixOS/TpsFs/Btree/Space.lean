import SylixOS.TpsFs.Btree.Mapping

/-! # The space tree

The free ranges of a volume are in a tree of their own under their first blocks. Its nodes come from
the block pool. -/

namespace SylixOS.TpsFs
open Lib

/-- The tree of `SB_pinodeSpaceMng`, and `BP_blkArr`. -/
structure Space where
  tree : Btree
  pool : List ℕ

/-- `TPS_BP_SIZE`. -/
def bpSize : ℕ := 256

variable (psb : SuperBlock)

/-- `__tpsFsBtreeInsert` in the space tree: `__tpsFsBtrAllocNodeBlk` leaves four blocks in the pool. -/
def spaceInsert (s : Space) (kv : ℕ × KvValue) : Except TpsErr Space :=
  (btreeInsert psb s.tree kv (s.pool.take (s.pool.length - 4))).map fun (t, blks) =>
    ⟨t, blks ++ s.pool.drop (s.pool.length - 4)⟩

/-- `__tpsFsBtreeRemove` in the space tree: `__tpsFsBtrFreeNodeBlk` puts the nodes into the pool. -/
def spaceRemove (s : Space) (blkKey : ℕ) : Except TpsErr Space :=
  match btreeRemove psb s.tree blkKey with
  | .error e => .error e
  | .ok (t, freed) =>
    if s.pool.length + freed.length ≤ bpSize then .ok ⟨t, s.pool ++ freed⟩ else .error .bpFree

/-- Two ranges that touch, as one. -/
def mergeKv (kv kvInsert : ℕ × KvValue) : ℕ × KvValue :=
  (min kv.1 kvInsert.1, ⟨min kv.2.blkStart kvInsert.2.blkStart, kv.2.blkCnt + kvInsert.2.blkCnt⟩)

/-- The range behind the one that is freed, when they touch; `blkSet` is the range in front. -/
def freeBlkAfter (s : Space) (kvInsert : ℕ × KvValue) (blkSet : Option ℕ) (kv : ℕ × KvValue) :
    Except TpsErr Space :=
  if kvInsert.2.blkStart + kvInsert.2.blkCnt = kv.2.blkStart then
    match blkSet with
    | none => (btreeSet s.tree kv.1 (mergeKv kv kvInsert)).map fun t => { s with tree := t }
    | some blkSet => do
      let s ← spaceRemove psb s kv.1
      (btreeSet s.tree blkSet (mergeKv kv kvInsert)).map fun t => { s with tree := t }
  else
    match blkSet with
    | none => spaceInsert psb s kvInsert
    | some blkSet => (btreeSet s.tree blkSet kvInsert).map fun t => { s with tree := t }

/-- `tpsFsBtreeFreeBlk`. -/
def tpsFsBtreeFreeBlk (s : Space) (blkKey blkStart blkCnt : ℕ) : Except TpsErr Space :=
  if blkStart < psb.dataStartBlk ∨ psb.logStartBlk < blkStart + blkCnt then .error .btreeBlockCount
  else
    match btreeGet s.tree blkKey false, btreeGet s.tree (blkKey + blkCnt) false with
    | .ok kv, .ok kvAfter =>
      if kv.2.blkStart + kv.2.blkCnt = blkStart then
        freeBlkAfter psb s (mergeKv kv (blkKey, ⟨blkStart, blkCnt⟩)) (some kv.1) kvAfter
      else freeBlkAfter psb s (blkKey, ⟨blkStart, blkCnt⟩) none kvAfter
    | _, _ => .error .btreeGetNode

end SylixOS.TpsFs
