import SylixOS.TpsFs.Btree.Node

/-! # A node on the disk

A block holds the head of a node and its entries, a block number and a child in the inner nodes, a range
of blocks in the others. The number of entries comes from the block itself; before each entry the
position is compared with the size of the block. -/

namespace SylixOS.TpsFs
open Lib Lib.LittleEndian

/-- `TPS_MAGIC_BTRNODE`. -/
def magicBtrNode : ℕ := 0xad48ea87

/-- `TPS_BTR_NODE_LEAF`. -/
def btrNodeLeaf : ℕ := 2

/-- `TPS_BTR_NODE_NON_LEAF`. -/
def btrNodeNonLeaf : ℕ := 3

/-- `KV_data`. -/
inductive KvData where
  | ptr (blk : ℕ)
  | value (blkStart blkCnt : ℕ)
  deriving DecidableEq

namespace KvData

/-- `KP_blkPtr`, which lies where `KV_blkStart` does. -/
def blkPtr : KvData → ℕ
  | ptr blk => blk
  | value blkStart _ => blkStart

/-- `KV_blkCnt`. Behind a pointer there is none. -/
def blkCnt : KvData → ℕ
  | ptr _ => 0
  | value _ blkCnt => blkCnt

def bytes (nonLeaf : Bool) (d : KvData) : List UInt8 :=
  if nonLeaf then enc 8 d.blkPtr else enc 8 d.blkPtr ++ enc 8 d.blkCnt

end KvData

/-- `TPS_BTR_NODE` with the `ND_uiEntrys` first entries of its array. -/
structure NodeBlock where
  uiMagic : ℕ
  iType : ℕ
  uiMaxCnt : ℕ
  uiLevel : ℕ
  uiReserved1 : ℕ
  generation : ℕ
  reserved2 : ℕ × ℕ
  inumInode : ℕ
  blkThis : ℕ
  blkParent : ℕ
  blkPrev : ℕ
  blkNext : ℕ
  kvArr : List (ℕ × KvData)

/-- The head of a node. -/
def NodeBlock.head (n : NodeBlock) : List UInt8 :=
  enc 4 n.uiMagic ++ (enc 4 n.iType ++ (enc 4 n.kvArr.length ++ (enc 4 n.uiMaxCnt ++ (enc 4 n.uiLevel ++
    (enc 4 n.uiReserved1 ++ (enc 8 n.generation ++ (enc 8 n.reserved2.1 ++ (enc 8 n.reserved2.2 ++
      (enc 8 n.inumInode ++ (enc 8 n.blkThis ++ (enc 8 n.blkParent ++ (enc 8 n.blkPrev ++
        enc 8 n.blkNext))))))))))))

/-- `*puiOffStart` and `*puiOffEnd` at the entry `i`. -/
def markOff (uiItemStart uiItemCnt i pos : ℕ) (off : ℕ × ℕ) : ℕ × ℕ :=
  (if uiItemStart = i then pos else off.1, if u32 (uiItemStart + uiItemCnt) = i then pos else off.2)

/-- The loop of `__tpsSerialBtrNode`. -/
def serialLoop (uiBlkSize uiItemStart uiItemCnt : ℕ) (nonLeaf : Bool) :
    List (ℕ × KvData) → ℕ → ℕ → ℕ × ℕ → Option (List UInt8 × ℕ × ℕ)
  | [], i, pos, off => some ([], markOff uiItemStart uiItemCnt i pos off)
  | (key, d) :: kvs, i, pos, off =>
    if uiBlkSize < pos then none
    else
      let entry := enc 8 key ++ d.bytes nonLeaf
      (serialLoop uiBlkSize uiItemStart uiItemCnt nonLeaf kvs (i + 1) (pos + entry.length)
        (markOff uiItemStart uiItemCnt i pos off)).map fun (bs, off) => (entry ++ bs, off)

/-- `__tpsSerialBtrNode`: what is written from the start of the buffer, and the offsets. -/
def tpsSerialBtrNode (n : NodeBlock) (uiBlkSize uiItemStart uiItemCnt : ℕ) (off : ℕ × ℕ) :
    Option (List UInt8 × ℕ × ℕ) :=
  if n.uiMagic ≠ magicBtrNode then none
  else
    (serialLoop uiBlkSize uiItemStart uiItemCnt (n.iType = btrNodeNonLeaf) n.kvArr 0 88 off).map
      fun (bs, off) => (n.head ++ bs, off)

/-- What `__tpsUnserialBtrNode` does with the memory: it reads bytes of the buffer, and writes an entry of
`ND_kvArr`. -/
inductive Access where
  | read (pos len : ℕ)
  | write (i : ℕ)
  deriving DecidableEq, Repr

/-- The loop of `__tpsUnserialBtrNode` with `n` entries left, and what follows in memory. -/
def unserialLoop (uiBlkSize : ℕ) (nonLeaf : Bool) : ℕ → ℕ → ℕ → List UInt8 →
    Option (List (ℕ × KvData)) × List Access
  | 0, _, _, _ => (some [], [])
  | n + 1, i, pos, p =>
    if uiBlkSize < pos then (none, [])
    else
      let (key, p) := getLE 8 p
      let (blkPtr, p) := getLE 8 p
      if nonLeaf then
        let (kvs, as) := unserialLoop uiBlkSize nonLeaf n (i + 1) (pos + 16) p
        (kvs.map ((key, .ptr blkPtr) :: ·), .read pos 16 :: .write i :: as)
      else
        let (blkCnt, p) := getLE 8 p
        let (kvs, as) := unserialLoop uiBlkSize nonLeaf n (i + 1) (pos + 24) p
        (kvs.map ((key, .value blkPtr blkCnt) :: ·), .read pos 24 :: .write i :: as)

/-- `__tpsUnserialBtrNode` with the memory from `pucBuff` on: the node, unless it fails, and what it has
read and written. -/
def tpsUnserialBtrNode (pucBuff : List UInt8) (uiBlkSize : ℕ) : Option NodeBlock × List Access :=
  let (uiMagic, p) := getLE 4 pucBuff
  if uiMagic ≠ magicBtrNode then (none, [.read 0 4])
  else
    let (iType, p) := getLE 4 p
    let (uiEntrys, p) := getLE 4 p
    let (uiMaxCnt, p) := getLE 4 p
    let (uiLevel, p) := getLE 4 p
    let (uiReserved1, p) := getLE 4 p
    let (generation, p) := getLE 8 p
    let (reserved₀, p) := getLE 8 p
    let (reserved₁, p) := getLE 8 p
    let (inumInode, p) := getLE 8 p
    let (blkThis, p) := getLE 8 p
    let (blkParent, p) := getLE 8 p
    let (blkPrev, p) := getLE 8 p
    let (blkNext, p) := getLE 8 p
    let (kvArr, as) := unserialLoop uiBlkSize (iType = btrNodeNonLeaf) uiEntrys 0 88 p
    (kvArr.map fun kvArr =>
      { uiMagic := uiMagic
        iType := iType
        uiMaxCnt := uiMaxCnt
        uiLevel := uiLevel
        uiReserved1 := uiReserved1
        generation := generation
        reserved2 := (reserved₀, reserved₁)
        inumInode := inumInode
        blkThis := blkThis
        blkParent := blkParent
        blkPrev := blkPrev
        blkNext := blkNext
        kvArr := kvArr }, .read 0 4 :: .read 4 84 :: as)

/-- `uiLen` of `__tpsFsBtrGetNode`: the root is in the block of its inode. -/
def nodeLen (psb : SuperBlock) (isRoot : Bool) : ℕ :=
  if isRoot then psb.blkSize - inodeDataStart else psb.blkSize

/-- How many entries `__tpsFsAllocBtrNode` makes room for. -/
def nodeRoom (psb : SuperBlock) : ℕ := (psb.blkSize - 88) / 16

/-- Nothing is read beyond the block or written beyond the array. -/
def InBounds (psb : SuperBlock) (uiLen : ℕ) : Access → Prop
  | .read pos len => pos + len ≤ uiLen
  | .write i => i < nodeRoom psb

/-- The data of an entry of this kind of node. -/
def KvData.Fits (nonLeaf : Bool) (d : KvData) : Prop :=
  if nonLeaf then ∃ blk < 2 ^ 64, d = .ptr blk
  else ∃ blkStart < 2 ^ 64, ∃ blkCnt < 2 ^ 64, d = .value blkStart blkCnt

/-- A node that is in use: its fields are of their C types, and its entries are those of its type. -/
structure NodeBlock.Fits (n : NodeBlock) : Prop where
  magic : n.uiMagic = magicBtrNode
  type : n.iType = btrNodeLeaf ∨ n.iType = btrNodeNonLeaf
  uiMaxCnt : n.uiMaxCnt < 2 ^ 32
  uiLevel : n.uiLevel < 2 ^ 32
  uiReserved1 : n.uiReserved1 < 2 ^ 32
  generation : n.generation < 2 ^ 64
  reserved2 : n.reserved2.1 < 2 ^ 64 ∧ n.reserved2.2 < 2 ^ 64
  inumInode : n.inumInode < 2 ^ 64
  blkThis : n.blkThis < 2 ^ 64
  blkParent : n.blkParent < 2 ^ 64
  blkPrev : n.blkPrev < 2 ^ 64
  blkNext : n.blkNext < 2 ^ 64
  keys : ∀ kv ∈ n.kvArr, kv.1 < 2 ^ 64
  data : ∀ kv ∈ n.kvArr, kv.2.Fits (n.iType = btrNodeNonLeaf)

/-! ## The entries -/

/-- The bytes of an entry on the disk. -/
def entryLen (nonLeaf : Bool) : ℕ := if nonLeaf then 16 else 24

theorem entryLen_pos (nonLeaf : Bool) : 0 < entryLen nonLeaf := by cases nonLeaf <;> decide

theorem KvData.length_bytes (nonLeaf : Bool) (d : KvData) :
    (d.bytes nonLeaf).length + 8 = entryLen nonLeaf := by
  cases nonLeaf <;> simp [bytes, entryLen]

section Loop
variable {uiBlkSize uiItemStart uiItemCnt n i pos : ℕ} {nonLeaf : Bool} {kvs : List (ℕ × KvData)}

/-- Entries that have room are written one behind the other. -/
theorem serialLoop_eq (uiItemStart uiItemCnt i pos : ℕ) (kvs : List (ℕ × KvData)) (off : ℕ × ℕ)
    (hroom : pos + kvs.length * entryLen nonLeaf ≤ uiBlkSize) : ∃ off',
    serialLoop uiBlkSize uiItemStart uiItemCnt nonLeaf kvs i pos off =
      some (kvs.flatMap fun kv => enc 8 kv.1 ++ kv.2.bytes nonLeaf, off') := by
  induction kvs generalizing i pos off with
  | nil => exact ⟨_, rfl⟩
  | cons kv kvs ih =>
    obtain ⟨key, d⟩ := kv
    have hentry : (enc 8 key ++ d.bytes nonLeaf).length = entryLen nonLeaf := by
      rw [List.length_append, enc_length, Nat.add_comm, d.length_bytes]
    rw [List.length_cons, Nat.succ_mul] at hroom
    obtain ⟨off', hloop⟩ := ih (i + 1) (pos + entryLen nonLeaf)
      (markOff uiItemStart uiItemCnt i pos off) (by omega)
    refine ⟨off', ?_⟩
    rw [serialLoop, if_neg (by omega)]
    dsimp only
    rw [hentry, hloop]
    rfl

/-- The entries that were written are read. -/
theorem unserialLoop_bytes (i pos : ℕ) (kvs : List (ℕ × KvData)) (rest : List UInt8)
    (hroom : pos + kvs.length * entryLen nonLeaf ≤ uiBlkSize) (hkeys : ∀ kv ∈ kvs, kv.1 < 2 ^ 64)
    (hdata : ∀ kv ∈ kvs, kv.2.Fits nonLeaf) :
    (unserialLoop uiBlkSize nonLeaf kvs.length i pos
      ((kvs.flatMap fun kv => enc 8 kv.1 ++ kv.2.bytes nonLeaf) ++ rest)).1 = some kvs := by
  have h64 {n : ℕ} (hn : n < 2 ^ 64) : n % 256 ^ 8 = n := Nat.mod_eq_of_lt hn
  induction kvs generalizing i pos with
  | nil => rfl
  | cons kv kvs ih =>
    obtain ⟨key, d⟩ := kv
    have hkey : key < 2 ^ 64 := hkeys _ (.head _)
    have hd := hdata _ (.head _)
    rw [List.length_cons, Nat.succ_mul] at hroom
    have ih' := ih (i + 1) (pos + entryLen nonLeaf) (by omega)
      (fun kv h => hkeys kv (.tail _ h)) (fun kv h => hdata kv (.tail _ h))
    rw [List.length_cons, unserialLoop, if_neg (by omega), List.flatMap_cons]
    cases nonLeaf with
    | true =>
      obtain ⟨blk, hblk, rfl⟩ := hd
      simp only [KvData.bytes, KvData.blkPtr, if_true, List.append_assoc, getLE_enc, h64 hkey, h64 hblk,
        entryLen] at ih' ⊢
      rw [ih']
      rfl
    | false =>
      obtain ⟨blkStart, hstart, blkCnt, hcnt, rfl⟩ := hd
      simp only [KvData.bytes, KvData.blkPtr, KvData.blkCnt, Bool.false_eq_true, if_false,
        List.append_assoc, getLE_enc, h64 hkey, h64 hstart, h64 hcnt, entryLen] at ih' ⊢
      rw [ih']
      rfl

/-- The loop fails where an entry begins beyond the block. -/
theorem unserialLoop_eq_none (n i pos : ℕ) (p : List UInt8) :
    (unserialLoop uiBlkSize nonLeaf n i pos p).1 = none ↔
      0 < n ∧ uiBlkSize + entryLen nonLeaf < pos + n * entryLen nonLeaf := by
  induction n generalizing i pos p with
  | zero => simp [unserialLoop]
  | succ n ih =>
    rw [unserialLoop]
    by_cases hpos : uiBlkSize < pos
    · rw [if_pos hpos, Nat.succ_mul]
      exact iff_of_true rfl ⟨n.succ_pos, by omega⟩
    · rw [if_neg hpos]
      cases nonLeaf <;>
        simp only [Bool.false_eq_true, if_false, if_true, Option.map_eq_none_iff, ih, entryLen] <;>
        omega

/-- The accesses of the loop are in bounds if all entries are in the block. -/
theorem unserialLoop_inBounds {psb : SuperBlock} (nonLeaf : Bool) (n i pos : ℕ) (p : List UInt8)
    (hle : uiBlkSize ≤ psb.blkSize) (hpos : pos = 88 + i * entryLen nonLeaf) (hpos' : pos ≤ uiBlkSize) :
    (∀ a ∈ (unserialLoop uiBlkSize nonLeaf n i pos p).2, InBounds psb uiBlkSize a) ↔
      pos + n * entryLen nonLeaf ≤ uiBlkSize := by
  induction n generalizing i pos p with
  | zero => simpa [unserialLoop] using hpos'
  | succ n ih =>
    have hsucc : 88 + (i + 1) * entryLen nonLeaf = pos + entryLen nonLeaf := by rw [Nat.succ_mul]; omega
    by_cases hin : pos + entryLen nonLeaf ≤ uiBlkSize
    · have hwrite : i < nodeRoom psb := by
        unfold nodeRoom
        rw [Nat.lt_div_iff_mul_lt (by decide)]
        cases nonLeaf <;>
          simp only [entryLen, Bool.false_eq_true, if_false, if_true] at hin hpos <;>
          omega
      have ih' (p : List UInt8) := ih (i + 1) _ p hsucc.symm hin
      rw [unserialLoop, if_neg (by omega), Nat.succ_mul]
      cases nonLeaf <;>
        simp only [Bool.false_eq_true, if_false, if_true, entryLen] at ih' hin ⊢ <;>
        rw [List.forall_mem_cons, List.forall_mem_cons, ih'] <;>
        simp only [InBounds, hwrite, hin, true_and] <;>
        omega
    · rw [unserialLoop, if_neg (by omega), Nat.succ_mul]
      refine iff_of_false (fun h => hin ?_) (by omega)
      cases nonLeaf <;>
        simp only [Bool.false_eq_true, if_false, if_true] at h <;>
        exact h _ (.head _)

end Loop

/-! ## The node -/

/-- `uiEntrys` of a block. -/
def blkEntrys (pucBuff : List UInt8) : ℕ := dec ((pucBuff.drop 8).take 4)

/-- How many entries there is room for in a block that says of itself what node it is. -/
def blkCapacity (pucBuff : List UInt8) (uiLen : ℕ) : ℕ :=
  maxNodeCnt uiLen (dec ((pucBuff.drop 4).take 4) ≠ btrNodeNonLeaf)

section Node
variable {psb : SuperBlock} {isRoot : Bool} {n : NodeBlock}

theorem nodeLen_ge (psb : SuperBlock) (isRoot : Bool) : 88 ≤ nodeLen psb isRoot := by
  have hge := psb.blkSize_ge
  unfold nodeLen inodeDataStart
  split_ifs <;> omega

theorem nodeLen_le (psb : SuperBlock) (isRoot : Bool) : nodeLen psb isRoot ≤ psb.blkSize := by
  cases isRoot
  · exact Nat.le_refl _
  · exact Nat.sub_le _ _

theorem le_maxNodeCnt_iff {uiLen : ℕ} (cnt : ℕ) (nonLeaf : Bool) (hlen : 88 ≤ uiLen) :
    cnt ≤ maxNodeCnt uiLen (!nonLeaf) ↔ 88 + cnt * entryLen nonLeaf ≤ uiLen := by
  unfold maxNodeCnt
  rw [Nat.le_div_iff_mul_le (by cases nonLeaf <;> decide)]
  cases nonLeaf <;>
    simp only [entryLen, Bool.not_true, Bool.not_false, Bool.false_eq_true, if_false, if_true] <;>
    omega

/-- A node that is not too large is written, and it is read again. -/
theorem tpsUnserialBtrNode_serial (hfits : n.Fits)
    (hcap : n.kvArr.length ≤ maxNodeCnt (nodeLen psb isRoot) (n.iType = btrNodeLeaf))
    (uiItemStart uiItemCnt : ℕ) (off : ℕ × ℕ) : ∃ bs off',
      tpsSerialBtrNode n (nodeLen psb isRoot) uiItemStart uiItemCnt off = some (bs, off') ∧
        ∀ rest, (tpsUnserialBtrNode (bs ++ rest) (nodeLen psb isRoot)).1 = some n := by
  have h32 {n : ℕ} (hn : n < 2 ^ 32) : n % 256 ^ 4 = n := Nat.mod_eq_of_lt hn
  have h64 {n : ℕ} (hn : n < 2 ^ 64) : n % 256 ^ 8 = n := Nat.mod_eq_of_lt hn
  have htype : decide (n.iType = btrNodeLeaf) = !decide (n.iType = btrNodeNonLeaf) := by
    rcases hfits.type with h | h <;> rw [h] <;> decide
  have htype' : n.iType < 2 ^ 32 := by rcases hfits.type with h | h <;> rw [h] <;> decide
  have hmagic : n.uiMagic < 2 ^ 32 := by rw [hfits.magic]; decide
  rw [htype, le_maxNodeCnt_iff _ _ (nodeLen_ge psb isRoot)] at hcap
  have hcnt : n.kvArr.length < 2 ^ 32 := by
    have hle := nodeLen_le psb isRoot
    have hlt : psb.blkSize < 2 ^ 32 := Nat.pow_lt_pow_right (by decide) psb.blkShift_lt
    have hmul := Nat.le_mul_of_pos_right n.kvArr.length (entryLen_pos (n.iType = btrNodeNonLeaf))
    omega
  obtain ⟨off', hloop⟩ := serialLoop_eq uiItemStart uiItemCnt 0 88 n.kvArr off hcap
  refine ⟨n.head ++ n.kvArr.flatMap fun kv => enc 8 kv.1 ++ kv.2.bytes (n.iType = btrNodeNonLeaf), off',
    ?_, fun rest => ?_⟩
  · rw [tpsSerialBtrNode, if_neg (not_not.mpr hfits.magic), hloop]
    rfl
  · have hread := unserialLoop_bytes 0 88 n.kvArr rest hcap hfits.keys hfits.data
    simp only [tpsUnserialBtrNode, NodeBlock.head, List.append_assoc, getLE_enc, h32 hmagic, h32 htype',
      h32 hcnt, h32 hfits.uiMaxCnt, h32 hfits.uiLevel, h32 hfits.uiReserved1, h64 hfits.generation,
      h64 hfits.reserved2.1, h64 hfits.reserved2.2, h64 hfits.inumInode, h64 hfits.blkThis,
      h64 hfits.blkParent, h64 hfits.blkPrev, h64 hfits.blkNext, if_neg (not_not.mpr hfits.magic), hread]
    rfl

theorem tpsUnserialBtrNode_of_magic {pucBuff : List UInt8} (h : dec (pucBuff.take 4) = magicBtrNode)
    (uiLen : ℕ) : ∃ p r, r = unserialLoop uiLen (dec ((pucBuff.drop 4).take 4) = btrNodeNonLeaf)
      (blkEntrys pucBuff) 0 88 p ∧
        ((tpsUnserialBtrNode pucBuff uiLen).1 = none ↔ r.1 = none) ∧
          (tpsUnserialBtrNode pucBuff uiLen).2 = .read 0 4 :: .read 4 84 :: r.2 := by
  simp only [tpsUnserialBtrNode, getLE, h, ne_eq, not_true_eq_false, if_false, Option.map_eq_none_iff,
    blkEntrys, List.drop_drop]
  exact ⟨_, _, rfl, Iff.rfl, rfl⟩

theorem tpsUnserialBtrNode_of_not_magic {pucBuff : List UInt8}
    (h : dec (pucBuff.take 4) ≠ magicBtrNode) (uiLen : ℕ) :
    tpsUnserialBtrNode pucBuff uiLen = (none, [.read 0 4]) := by
  simp only [tpsUnserialBtrNode, getLE]
  exact if_pos h

/-- A block is read, and its entries are stored, within the bounds. -/
def ReadInBounds (psb : SuperBlock) (isRoot : Bool) (pucBuff : List UInt8) : Prop :=
  ∀ a ∈ (tpsUnserialBtrNode pucBuff (nodeLen psb isRoot)).2, InBounds psb (nodeLen psb isRoot) a

theorem readInBounds_iff (psb : SuperBlock) (isRoot : Bool) (pucBuff : List UInt8) :
    ReadInBounds psb isRoot pucBuff ↔ dec (pucBuff.take 4) ≠ magicBtrNode ∨
      blkEntrys pucBuff ≤ blkCapacity pucBuff (nodeLen psb isRoot) := by
  have hge := nodeLen_ge psb isRoot
  unfold ReadInBounds
  by_cases hmagic : dec (pucBuff.take 4) = magicBtrNode
  · obtain ⟨p, r, rfl, -, hacc⟩ := tpsUnserialBtrNode_of_magic hmagic (nodeLen psb isRoot)
    have hin := unserialLoop_inBounds (dec ((pucBuff.drop 4).take 4) = btrNodeNonLeaf)
      (blkEntrys pucBuff) 0 88 p (nodeLen_le psb isRoot) (by omega) hge
    rw [hacc, List.forall_mem_cons, List.forall_mem_cons, hin, or_iff_right (not_not.mpr hmagic),
      blkCapacity, decide_not, le_maxNodeCnt_iff _ _ hge]
    simp only [InBounds]
    omega
  · refine iff_of_true ?_ (.inl hmagic)
    intro a ha
    rw [tpsUnserialBtrNode_of_not_magic hmagic, List.mem_singleton] at ha
    subst ha
    change 0 + 4 ≤ _
    omega

/-- Reading fails where there are at least two entries too many. -/
theorem tpsUnserialBtrNode_eq_none_iff (psb : SuperBlock) (isRoot : Bool) (pucBuff : List UInt8) :
    (tpsUnserialBtrNode pucBuff (nodeLen psb isRoot)).1 = none ↔ dec (pucBuff.take 4) ≠ magicBtrNode ∨
      blkCapacity pucBuff (nodeLen psb isRoot) + 1 < blkEntrys pucBuff := by
  by_cases hmagic : dec (pucBuff.take 4) = magicBtrNode
  · obtain ⟨p, r, rfl, hnone, -⟩ := tpsUnserialBtrNode_of_magic hmagic (nodeLen psb isRoot)
    have hcap := le_maxNodeCnt_iff (blkEntrys pucBuff - 1)
      (dec ((pucBuff.drop 4).take 4) = btrNodeNonLeaf) (nodeLen_ge psb isRoot)
    have hge := nodeLen_ge psb isRoot
    rw [hnone, unserialLoop_eq_none, or_iff_right (not_not.mpr hmagic), blkCapacity, decide_not]
    cases hn : blkEntrys pucBuff with
    | zero => simp
    | succ m =>
      rw [hn, Nat.add_sub_cancel] at hcap
      rw [Nat.succ_mul]
      omega
  · rw [tpsUnserialBtrNode_of_not_magic hmagic]
    exact iff_of_true rfl (.inl hmagic)

/-- A node that is not too large is read as it was written. A block is read within its bounds unless it
says that it has more entries than there is room for, and with one more entry this is not noticed. -/
theorem tpsUnserialBtrNode_readInBounds_iff (psb : SuperBlock) (isRoot : Bool) :
    (∀ n : NodeBlock, n.Fits →
      n.kvArr.length ≤ maxNodeCnt (nodeLen psb isRoot) (n.iType = btrNodeLeaf) →
        ∀ uiItemStart uiItemCnt off, ∃ bs off',
          tpsSerialBtrNode n (nodeLen psb isRoot) uiItemStart uiItemCnt off = some (bs, off') ∧
            ∀ rest, (tpsUnserialBtrNode (bs ++ rest) (nodeLen psb isRoot)).1 = some n) ∧
    ∀ pucBuff,
      (ReadInBounds psb isRoot pucBuff ↔ dec (pucBuff.take 4) ≠ magicBtrNode ∨
        blkEntrys pucBuff ≤ blkCapacity pucBuff (nodeLen psb isRoot)) ∧
      ((tpsUnserialBtrNode pucBuff (nodeLen psb isRoot)).1 = none ∨ ReadInBounds psb isRoot pucBuff ↔
        dec (pucBuff.take 4) ≠ magicBtrNode ∨
          blkEntrys pucBuff ≠ blkCapacity pucBuff (nodeLen psb isRoot) + 1) := by
  refine ⟨fun n hfits hcap => tpsUnserialBtrNode_serial hfits hcap, fun pucBuff =>
    ⟨readInBounds_iff psb isRoot pucBuff, ?_⟩⟩
  rw [readInBounds_iff, tpsUnserialBtrNode_eq_none_iff]
  constructor
  · rintro ((h | h) | h | h)
    · exact .inl h
    · exact .inr (by omega)
    · exact .inl h
    · exact .inr (by omega)
  · rintro (h | h)
    · exact .inl (.inl h)
    · rcases Nat.lt_or_gt_of_ne h with h | h
      · exact .inr (.inr (by omega))
      · exact .inl (.inr h)

/-- A leaf that claims 168 entries, and a block of 4096 bytes holds 167. -/
def fullLeaf : List UInt8 :=
  enc 4 magicBtrNode ++ (enc 4 btrNodeLeaf ++ (enc 4 168 ++ List.replicate 4084 0))

/-- A volume with blocks of 4096 bytes. -/
def smallBlocks : SuperBlock where
  secShift := 9
  blkShift := 12
  generation := 0
  dataStartBlk := 0
  logStartBlk := 0
  logBlkCnt := 0
  bpStartBlk := 0
  bpBlkCnt := 0
  secShift_ge := secShift_ok
  secShift_le := secShift_le_blkShift
  blkShift_ge := blkShift_ok
  blkShift_lt := blkShift_small
  generation_lt := by decide

theorem not_readInBounds_fullLeaf :
    ¬((tpsUnserialBtrNode fullLeaf (nodeLen smallBlocks false)).1 = none ∨
      ReadInBounds smallBlocks false fullLeaf) := by
  rw [readInBounds_iff, tpsUnserialBtrNode_eq_none_iff]
  decide +kernel

end Node

end SylixOS.TpsFs
