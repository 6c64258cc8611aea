import SylixOS.Lib.KeySearch
import SylixOS.TpsFs.Volume

/-! # The B+tree of an inode

The leaves hold the block ranges of a file by their logical block, the other nodes the first key and
the block of each child. A node that is full is split, and its parent gets the new node, which may
split in turn; a node that becomes too small borrows an entry of a neighbour, or is merged with it, and
its parent loses an entry. -/

namespace SylixOS.TpsFs
open Lib

/-- `KV_value`. -/
structure KvValue where
  blkStart : ℕ
  blkCnt : ℕ
  deriving DecidableEq

/-- `TPS_BTR_NODE` with entries of the data `ε`, each behind its `KV_blkKey`. The type and the level of
a node are those of its data, and a parent holds its children in place of `ND_blkParent`. -/
structure BtrNode (ε : Type) where
  blkThis : ℕ
  uiMaxCnt : ℕ
  kvArr : List (ℕ × ε)

/-- `KV_data` of the nodes at a level: a range of blocks in a leaf, a child elsewhere. -/
@[reducible] def Data : ℕ → Type
  | 0 => KvValue
  | level + 1 => BtrNode (Data level)

/-- `MAX_NODE_CNT` of the size of a node, where `TPS_BTR_NODE` has 88 bytes, `TPS_BTR_KV` has 24 and
two blocks have 16. -/
def maxNodeCnt (size : ℕ) (leaf : Bool) : ℕ := (size - 88) / if leaf then 24 else 16

/-- `TPS_INODE_DATASTART`. -/
def inodeDataStart : ℕ := 2048

/-- `MAX_BLK_NUM`. -/
def maxBlkNum : ℕ := 2 ^ 64 - 1

section Node
variable {ε : Type}

namespace BtrNode

def keys (n : BtrNode ε) : List ℕ := n.kvArr.map Prod.fst

/-- The key of the first entry, which is the one that the parent has. -/
def firstKey (n : BtrNode ε) : ℕ := n.keys.headD 0

/-- A child is written back under its first key (`__tpsFsUpdateKey`). -/
def setChild (p : BtrNode (BtrNode ε)) (i : ℕ) (n : BtrNode ε) : BtrNode (BtrNode ε) :=
  { p with kvArr := p.kvArr.set i (n.firstKey, n) }

end BtrNode

/-- `__tpsFsBtrSearch`. -/
def btrSearch (n : BtrNode ε) (blkKey : ℕ) (bInsert : Bool) : ℕ × Bool :=
  keySearch n.keys blkKey bInsert

/-- A node, or the two that it has been split into. -/
inductive Split (ε : Type) where
  | one (n : BtrNode ε)
  | two (n pndSplit : BtrNode ε)

/-- `__tpsFsBtreeInsertNode` for one node. A new node gets the next of the blocks that
`__tpsFsBtrAllocNodeBlk` hands out. -/
def insertNode (n : BtrNode ε) (btrkv : ℕ × ε) (blks : List ℕ) : Except TpsErr (Split ε × List ℕ) :=
  let (iInsert, bEqual) := btrSearch n btrkv.1 true
  if bEqual then .error .btreeKeyAreadyExit
  else if n.kvArr.length = n.uiMaxCnt then
    let iSplit := n.kvArr.length / 2
    match blks with
    | [] => .error .bpAlloc
    | blkAlloc :: blks =>
      let head := n.kvArr.take iSplit
      let tail := n.kvArr.drop iSplit
      if iInsert < iSplit then
        .ok (.two { n with kvArr := head.insertIdx iInsert btrkv }
          { n with blkThis := blkAlloc, kvArr := tail }, blks)
      else
        .ok (.two { n with kvArr := head }
          { n with blkThis := blkAlloc, kvArr := tail.insertIdx (iInsert - iSplit) btrkv }, blks)
  else .ok (.one { n with kvArr := n.kvArr.insertIdx iInsert btrkv }, blks)

/-- `__tpsFsBtreeRemoveNode` for the child `i` of a node: the entry `iRemove` leaves the child. The
result is the parent, which of its entries it has to lose in turn, and the blocks that are free. -/
def removeNode (uiMaxCnt : ℕ) (p : BtrNode (BtrNode ε)) (i iRemove : ℕ) :
    Except TpsErr (BtrNode (BtrNode ε) × Option ℕ × List ℕ) :=
  match p.kvArr[i]? with
  | none => .error .btreeGetNode
  | some (_, n) =>
    let rest := n.kvArr.eraseIdx iRemove
    if n.kvArr.length ≤ uiMaxCnt / 2 then
      if i = p.kvArr.length - 1 then
        match p.kvArr[i - 1]? with
        | none => .error .btreeGetNode
        | some (blkKey, pndSibling) =>
          if uiMaxCnt / 2 < pndSibling.kvArr.length then
            match pndSibling.kvArr.getLast? with
            | none => .error .btreeGetNode
            | some last =>
              let left := { pndSibling with kvArr := pndSibling.kvArr.dropLast }
              let p := { p with kvArr := p.kvArr.set (i - 1) (blkKey, left) }
              .ok (p.setChild i { n with kvArr := last :: rest }, none, [])
          else
            let left := { pndSibling with kvArr := pndSibling.kvArr ++ rest }
            .ok ({ p with kvArr := p.kvArr.set (i - 1) (blkKey, left) }, some i, [n.blkThis])
      else
        match p.kvArr[i + 1]? with
        | none => .error .btreeGetNode
        | some (_, pndSibling) =>
          if uiMaxCnt / 2 < pndSibling.kvArr.length then
            let right := { pndSibling with kvArr := pndSibling.kvArr.tail }
            let p := p.setChild i { n with kvArr := rest ++ pndSibling.kvArr.take 1 }
            .ok (p.setChild (i + 1) right, none, [])
          else
            .ok (p.setChild i { n with kvArr := rest ++ pndSibling.kvArr }, some (i + 1),
              [pndSibling.blkThis])
    else .ok (p.setChild i { n with kvArr := rest }, none, [])

end Node

/-! ## The whole tree -/

/-- The node at the inode's own block, and its level. -/
structure Btree where
  level : ℕ
  root : BtrNode (Data level)

variable (psb : SuperBlock)

/-- The capacity of a node that has a block of its own. -/
def blkCap (level : ℕ) : ℕ := maxNodeCnt psb.blkSize (level = 0)

/-- The capacity of the root, which shares its block with the inode. -/
def rootCap (level : ℕ) : ℕ := maxNodeCnt (psb.blkSize - inodeDataStart) (level = 0)

/-- `tpsFsBtreeInit`. -/
def tpsFsBtreeInit (inum : ℕ) : Btree := ⟨0, ⟨inum, rootCap psb 0, []⟩⟩

/-- The descent of `__tpsFsBtreeInsert`, and the recursion of `__tpsFsBtreeInsertNode` back to the
parents. -/
def insertAt : (level : ℕ) → BtrNode (Data level) → ℕ × KvValue → List ℕ →
    Except TpsErr (Split (Data level) × List ℕ)
  | 0, n, kvInsert, blks => insertNode n kvInsert blks
  | level + 1, n, kvInsert, blks =>
    let i := (btrSearch n kvInsert.1 false).1
    match n.kvArr[i]? with
    | none => .error .btreeGetNode
    | some (_, c) => do
      let (r, blks) ← insertAt level c kvInsert blks
      match r with
      | .one c => .ok (.one (BtrNode.setChild n i c), blks)
      | .two c pndSplit =>
        insertNode (BtrNode.setChild n i c) (pndSplit.firstKey, pndSplit) blks

/-- The root keeps its block when it is split: its two halves get blocks of their own. -/
def splitRoot (level : ℕ) (n pndSplit : BtrNode (Data level)) (blkAlloc : ℕ) : Btree :=
  let n' := { n with blkThis := blkAlloc, uiMaxCnt := blkCap psb level }
  let pndSplit := { pndSplit with uiMaxCnt := blkCap psb level }
  ⟨level + 1, ⟨n.blkThis, rootCap psb (level + 1), [(n'.firstKey, n'), (pndSplit.firstKey, pndSplit)]⟩⟩

/-- `__tpsFsBtreeInsert`. -/
def btreeInsert (t : Btree) (kvInsert : ℕ × KvValue) (blks : List ℕ) :
    Except TpsErr (Btree × List ℕ) :=
  match insertAt t.level t.root kvInsert blks with
  | .error _ => .error .btreeInsertNode
  | .ok (.one n, blks) => .ok (⟨t.level, n⟩, blks)
  | .ok (.two _ _, []) => .error .btreeInsertNode
  | .ok (.two n pndSplit, blkAlloc :: blks) => .ok (splitRoot psb t.level n pndSplit blkAlloc, blks)

/-- The size below which a child of `p` is too small: that of the root counts when the child may have
to move there. -/
def removeCap (isRoot : Bool) (level : ℕ) (p : BtrNode (Data (level + 1))) (n : BtrNode (Data level)) :
    ℕ :=
  if isRoot = true ∧ p.kvArr.length = 2 then rootCap psb level else n.uiMaxCnt

/-- The descent of `__tpsFsBtreeRemove`, and the recursion of `__tpsFsBtreeRemoveNode` back to the
parents, with the entry that the node itself has to lose. -/
def removeAt (isRoot : Bool) : (level : ℕ) → BtrNode (Data level) → ℕ →
    Except TpsErr (BtrNode (Data level) × Option ℕ × List ℕ)
  | 0, n, blkKey =>
    let (i, bEqual) := btrSearch n blkKey false
    if bEqual then .ok (n, some i, []) else .error .btreeNodeNotExist
  | level + 1, p, blkKey =>
    let i := (btrSearch p blkKey false).1
    match p.kvArr[i]? with
    | none => .error .btreeGetNode
    | some (_, n) => do
      let (n, iRemove, freed) ← removeAt false level n blkKey
      let p := BtrNode.setChild p i n
      match iRemove with
      | none => .ok (p, none, freed)
      | some iRemove =>
        let (p, j, freed') ← removeNode (removeCap psb isRoot level p n) p i iRemove
        .ok (p, j, freed ++ freed')

/-- The root loses an entry; with a single child left, the child moves into its block. -/
def removeRoot : Btree → ℕ → Btree × List ℕ
  | ⟨0, n⟩, iRemove => (⟨0, { n with kvArr := n.kvArr.eraseIdx iRemove }⟩, [])
  | ⟨level + 1, n⟩, iRemove =>
    match n.kvArr.eraseIdx iRemove with
    | [(_, c)] =>
      (⟨level, { c with blkThis := n.blkThis, uiMaxCnt := rootCap psb level }⟩, [c.blkThis])
    | kvArr => (⟨level + 1, { n with kvArr := kvArr }⟩, [])

/-- `__tpsFsBtreeRemove`. -/
def btreeRemove (t : Btree) (blkKey : ℕ) : Except TpsErr (Btree × List ℕ) :=
  match removeAt psb true t.level t.root blkKey with
  | .error .btreeNodeNotExist => .error .btreeNodeNotExist
  | .error _ => .error .btreeInsertNode
  | .ok (n, none, freed) => .ok (⟨t.level, n⟩, freed)
  | .ok (n, some iRemove, freed) =>
    let (t, freed') := removeRoot psb ⟨t.level, n⟩ iRemove
    .ok (t, freed ++ freed')

/-- `__tpsFsBtreeGet`. -/
def getAt (bAfter : Bool) : (level : ℕ) → BtrNode (Data level) → ℕ → Except TpsErr (ℕ × KvValue)
  | 0, n, blkKey =>
    let i := (btrSearch n blkKey false).1
    let i := if bAfter = true ∧ n.keys.getD i 0 < blkKey ∧ 0 < n.kvArr.length ∧ i ≠ n.kvArr.length - 1
      then i + 1 else i
    .ok ((n.kvArr[i]?).getD (0, ⟨0, 0⟩))
  | level + 1, n, blkKey =>
    match n.kvArr[(btrSearch n blkKey false).1]? with
    | none => .error .btreeGetNode
    | some (_, c) => getAt bAfter level c blkKey

def btreeGet (t : Btree) (blkKey : ℕ) (bAfter : Bool) : Except TpsErr (ℕ × KvValue) :=
  getAt bAfter t.level t.root blkKey

/-- `__tpsFsBtreeSet`. -/
def setAt : (level : ℕ) → BtrNode (Data level) → ℕ → ℕ × KvValue → Except TpsErr (BtrNode (Data level))
  | 0, n, blkKey, kv =>
    let (i, bEqual) := btrSearch n blkKey false
    if bEqual then .ok { n with kvArr := n.kvArr.set i kv } else .error .btreeGetNode
  | level + 1, n, blkKey, kv =>
    let i := (btrSearch n blkKey false).1
    match n.kvArr[i]? with
    | none => .error .btreeGetNode
    | some (_, c) => (setAt level c blkKey kv).map (BtrNode.setChild n i)

def btreeSet (t : Btree) (blkKey : ℕ) (kv : ℕ × KvValue) : Except TpsErr Btree :=
  (setAt t.level t.root blkKey kv).map fun n => ⟨t.level, n⟩

/-! ## The mapping of a file -/

/-- `tpsFsBtreeGetBlk`: the physical block of a logical one, and how many follow it in its range. -/
def tpsFsBtreeGetBlk (t : Btree) (blkKey : ℕ) : Except TpsErr (ℕ × ℕ) :=
  match btreeGet t blkKey false with
  | .error _ => .error .btreeGetNode
  | .ok (key, v) =>
    if blkKey < key ∨ key + v.blkCnt ≤ blkKey then .error .btreeKeyNotfound
    else .ok (v.blkStart + (blkKey - key), v.blkCnt - (blkKey - key))

/-- `tpsFsBtreeAppendBlk`. -/
def tpsFsBtreeAppendBlk (t : Btree) (blkStart blkCnt : ℕ) (blks : List ℕ) :
    Except TpsErr (Btree × List ℕ) :=
  match btreeGet t maxBlkNum false with
  | .error _ => .error .btreeGetNode
  | .ok (key, v) =>
    if v.blkStart + v.blkCnt = blkStart then
      (btreeSet t key (key, { v with blkCnt := v.blkCnt + blkCnt })).map (·, blks)
    else btreeInsert psb t (key + v.blkCnt, ⟨blkStart, blkCnt⟩) blks

/-- `tpsFsBtreeTrunc`: the tree, the blocks that have left the file and the nodes that are free. -/
def tpsFsBtreeTrunc (t : Btree) (blkKey : ℕ) : Except TpsErr (Btree × KvValue × List ℕ) :=
  match btreeGet t maxBlkNum false with
  | .error _ => .error .btreeGetNode
  | .ok (key, v) =>
    if v.blkCnt = 0 then .error .btreeGetNode
    else if blkKey ≤ key then
      (btreeRemove psb t key).map fun (t, freed) => (t, v, freed)
    else if blkKey < key + v.blkCnt then
      (btreeSet t key (key, { v with blkCnt := blkKey - key })).map fun t =>
        (t, ⟨v.blkStart + (blkKey - key), v.blkCnt - (blkKey - key)⟩, [])
    else .ok (t, ⟨0, 0⟩, [])

/-- `tpsFsBtreeBlkCnt`. -/
def tpsFsBtreeBlkCnt (t : Btree) : ℕ :=
  match btreeGet t maxBlkNum false with
  | .error _ => 0
  | .ok (key, v) => key + v.blkCnt

end SylixOS.TpsFs
