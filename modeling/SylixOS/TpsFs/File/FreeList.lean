import SylixOS.TpsFs.File.Descriptor

/-! # Blocks from the list of deleted inodes

A file of many ranges is not freed at once: its inode goes into a list, and the blocks of new data come
from there first. When the last block has been taken the block of the inode is freed too, and can be
taken for data in the transaction that has changed the inode. -/

namespace SylixOS.TpsFs
open Lib

/-- `tpsFsBtreeAllocBlk`. -/
def tpsFsBtreeAllocBlk (psb : SuperBlock) (s : Space) (blkKey blkCnt : ℕ) :
    Except TpsErr (Space × KvValue) :=
  match btreeGet s.tree blkKey true with
  | .error _ => .error .btreeGetNode
  | .ok (key, v) =>
    if v.blkCnt = 0 then .error .btreeDiskSpace
    else if blkCnt < v.blkCnt then
      (btreeSet s.tree key (key + blkCnt, ⟨v.blkStart + blkCnt, v.blkCnt - blkCnt⟩)).map
        fun t => ({ s with tree := t }, ⟨v.blkStart, blkCnt⟩)
    else (spaceRemove psb s key).map fun s => (s, v)

/-- A volume with its space tree, the head of the list of deleted inodes, and the blocks whose nodes the
transaction has changed. -/
structure ListVol where
  space : Space
  deleted : Option TpsInode
  nodes : List ℕ

namespace ListVol

/-- `__tpsFsGetFromFreeList` where the list has one inode at most. -/
def getFromFreeList (psb : SuperBlock) (v : ListVol) (blkCnt : ℕ) : Except TpsErr (ListVol × KvValue) :=
  match v.deleted with
  | none => .error .inodeDeleted
  | some d =>
    match tpsFsBtreeTrunc psb d.tree (d.blkCnt - blkCnt) with
    | .error _ => .error .btreeTrunc
    | .ok (t, r, _) =>
      let d := { d with tree := t, blkCnt := d.blkCnt - r.blkCnt }
      let v := { v with deleted := some d, nodes := d.inum :: v.nodes }
      if d.blkCnt = 0 then
        match tpsFsBtreeFreeBlk psb v.space d.inum d.inum 1 with
        | .error _ => .ok ({ v with deleted := none }, r)
        | .ok space => .ok ({ v with deleted := none, space := space }, r)
      else .ok (v, r)

/-- `tpsFsInodeAllocBlk`. -/
def allocBlk (psb : SuperBlock) (v : ListVol) (blkCnt : ℕ) : Except TpsErr (ListVol × KvValue) :=
  match v.getFromFreeList psb blkCnt with
  | .ok r => .ok r
  | .error _ =>
    (tpsFsBtreeAllocBlk psb v.space maxBlkNum blkCnt).map fun (space, r) => ({ v with space := space }, r)

/-- The first bytes of a node, with `TPS_MAGIC_BTRNODE`. -/
def nodeHead : List UInt8 := [0x87, 0xea, 0x48, 0xad]

/-- Operations on a device without faults, for the file with the inode in block 30. A root node is in the
sector at `TPS_INODE_DATASTART`. -/
def ops : FileOps ListVol where
  transAlloc v := some { v with nodes := [] }
  freeBlk v blkStart blkCnt :=
    (tpsFsBtreeFreeBlk BlkMap.smallPsb v.space blkStart blkStart blkCnt).map fun space =>
      { v with space := space }
  putNode v := .ok { v with nodes := 30 :: v.nodes }
  adjustBP v := if 64 < v.space.pool.length ∧ v.space.pool.length < 128 then .ok v else .error .bpAlloc
  trigerChk _ := false
  transWrite v _ := .ok v
  addToFreeList v d := { v with deleted := some d }
  entryRemove v := .ok v
  commit v := .ok { v with nodes := [] }
  allocBlk v blkAllocAtom :=
    match v.allocBlk BlkMap.smallPsb blkAllocAtom with
    | .error _ => none
    | .ok (v, r) =>
      if h : 0 < r.blkCnt ∧ r.blkCnt ≤ blkAllocAtom then some (v, ⟨r.blkStart, r.blkCnt, h.1, h.2⟩)
      else none
  nodeBlks _ := []
  fault _ := false
  fileLock _ := true
  heapAlloc _ := true
  heapBuf _ _ := 0
  devRead _ _ _ _ := true
  devWrite v _ _ _ := some v
  devSync v _ _ _ := some v
  logged v p o := if p ∈ v.nodes ∧ inodeDataStart ≤ o ∧ o < inodeDataStart + 512 then
    some (nodeHead.getD (o - inodeDataStart) 0) else none
  rollBack s := s

/-- A new file, on a volume with so many free blocks. -/
def created (blkCnt : ℕ) (deleted : Option TpsInode) : FileRun ListVol where
  fd :=
    { file :=
        { vol :=
            { space := ⟨⟨0, ⟨1, rootCap BlkMap.smallPsb 0, [(20, ⟨20, blkCnt⟩)]⟩⟩, List.range' 300 96⟩
              deleted := deleted
              nodes := [] }
          dev := fun _ _ => 0
          inode := ⟨30, none, 1, false, 0, 0, false, tpsFsBtreeInit BlkMap.smallPsb 30⟩
          history := [] }
      oftPtr := 0
      oftSize := 0
      append := false }
  bytes := .empty

theorem created_created (blkCnt : ℕ) (deleted : Option TpsInode) :
    (created blkCnt deleted).Created BlkMap.smallPsb :=
  ⟨⟨30, rfl⟩, rfl, rfl, rfl, rfl⟩

/-- A deleted inode in block 200 that has only block 150 left. -/
def lastBlk : TpsInode where
  inum := 200
  hash := none
  refCnt := 0
  deleted := true
  szData := 4096
  blkCnt := 1
  sync := false
  tree := ⟨0, ⟨200, rootCap BlkMap.smallPsb 0, [(0, ⟨150, 1⟩)]⟩⟩

/-- Three bytes of a new file. -/
theorem written : ∃ s : FileRun ListVol,
    FileRun.next BlkMap.smallPsb ops (created 10 none) (.write [1, 2, 3]) = some s ∧
      (∀ c ∈ s.fd.file.history, Untouched ops c) ∧ .rolledBack ∉ s.fd.file.history := by
  obtain ⟨s, hs, vol, inode, hhist, hnodes, hblocks⟩ : ∃ s : FileRun ListVol,
      FileRun.next BlkMap.smallPsb ops (created 10 none) (.write [1, 2, 3]) = some s ∧
        ∃ vol inode, s.fd.file.history = [.committed vol inode] ∧ vol.nodes = [30] ∧
          blocks inode.tree.items = [20, 21, 22, 23] :=
    ⟨_, rfl, _, _, rfl, rfl, rfl⟩
  refine ⟨s, hs, fun c hc => ?_, by simp [hhist]⟩
  rw [hhist, List.mem_singleton] at hc
  subst hc
  rw [Untouched, hblocks]
  refine ⟨by decide, fun p hp o => if_neg fun h => ?_⟩
  have h30 : p ∈ [30] := hnodes ▸ h.1
  simp only [List.mem_cons, List.not_mem_nil, or_false] at hp h30
  omega

/-- What is read after a write, and what should be. -/
def readBack (s : FileRun ListVol) (buf : List UInt8) (stMaxBytes oftPos : ℕ) :
    Option (Option (List UInt8) × List UInt8) :=
  (FileRun.next BlkMap.smallPsb ops s (.write buf)).map fun s =>
    (s.fd.fdPRead BlkMap.smallPsb ops stMaxBytes oftPos, s.bytes.read oftPos stMaxBytes)

end ListVol
end SylixOS.TpsFs
