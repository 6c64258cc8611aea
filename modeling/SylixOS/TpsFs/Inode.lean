import SylixOS.TpsFs.Btree.Space

/-! # Inodes

What the file operations see of an inode, and what they call in the volume, whose state is a parameter:
the space tree, the block pool, the journal and the device. -/

namespace SylixOS.TpsFs

/-- `TPS_INODE`. -/
structure TpsInode where
  inum : ℕ
  /-- `IND_inumHash` with the tree of `IND_pinodeHash`. -/
  hash : Option (ℕ × Btree)
  refCnt : ℕ
  deleted : Bool
  szData : ℕ
  blkCnt : ℕ
  /-- `IND_iFlag` has `O_SYNC` or `O_DSYNC`. -/
  sync : Bool
  tree : Btree

/-- What an operation calls in a volume with the state `σ`. -/
structure VolOps (σ : Type) where
  /-- `tpsFsTransAllocAndInit`. -/
  transAlloc : σ → Option σ
  /-- `tpsFsBtreeFreeBlk` on `SB_pinodeSpaceMng`. -/
  freeBlk : σ → ℕ → ℕ → Except TpsErr σ
  /-- The nodes that a change of the tree of a file writes. -/
  putNode : σ → Except TpsErr σ
  /-- `tpsFsBtreeAdjustBP`. -/
  adjustBP : σ → Except TpsErr σ
  /-- `tpsFsTransTrigerChk`. -/
  trigerChk : σ → Bool
  /-- `tpsFsTransWrite` of the header of the inode. -/
  transWrite : σ → TpsInode → Except TpsErr σ
  /-- `__tpsFsInodeAddToFreeList`. -/
  addToFreeList : σ → TpsInode → σ
  /-- `tpsFsEntryRemove`. -/
  entryRemove : σ → Except TpsErr σ
  /-- `tpsFsTransCommitAndFree`. -/
  commit : σ → Except TpsErr σ

end SylixOS.TpsFs
