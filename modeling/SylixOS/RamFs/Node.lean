import Mathlib
import SylixOS.Lib.Reach
import SylixOS.Lib.Blocks

/-! # Files in memory

A file is a chain of blocks with its first and its last block, the number of its blocks, and a cookie
that remembers the block that was used last. A file may be longer than its blocks reach. A block that
is freed keeps its links and its bytes until it is allocated again.
-/

namespace SylixOS.RamFs
open Lib Blocks

/-- `__RAM_BDATASIZE`, which is at least two, and the number of bits of a word. -/
structure RamCfg where
  bDataSize : ℕ
  wordBits : ℕ
  two_le : 2 ≤ bDataSize

/-- What `__RAM_BALLOC` returns: the address of a block, and the bytes that it happens to hold. -/
structure RamBuffer where
  addr : ℕ
  ucData : ℕ → UInt8

/-- `RAM_VOLUME`, with the bytes of all blocks and the blocks that are allocated. -/
structure RamVolume where
  ucData : ℕ → ℕ → UInt8
  used : Finset ℕ
  ulCurBlk : ℕ
  ulMaxBlk : ℕ

/-- `RAM_NODE`; `plineBStart` is what is linked from the first block on. -/
structure RamNode where
  plineBStart : List ℕ
  plineBEnd : Option ℕ
  ulCnt : ℕ
  prambCookie : Option ℕ
  ulCookie : ℕ
  stSize : ℕ
  stVSize : ℕ

/-- A node that has just been made. -/
def ramMaken : RamNode where
  plineBStart := []
  plineBEnd := none
  ulCnt := 0
  prambCookie := none
  ulCookie := 0
  stSize := 0
  stVSize := 0

variable (cfg : RamCfg)

/-! ## Truncation -/

/-- The blocks from the first one on that does not begin before `stOft`; the block at hand begins at
`stTemp`. -/
def truncFrom (stOft : ℕ) : ℕ → List ℕ → List ℕ
  | _, [] => []
  | stTemp, p :: l => if stOft ≤ stTemp then p :: l else truncFrom stOft (stTemp + cfg.bDataSize) l

/-- A block is taken from the chain. It is the block behind it that is freed. -/
def truncBlock (plineDel : ℕ) (plineTemp : Option ℕ) (s : RamVolume × RamNode) :
    RamVolume × RamNode :=
  ({ s.1 with
      used := match plineTemp with
        | some plineTemp => s.1.used.erase plineTemp
        | none => s.1.used
      ulCurBlk := s.1.ulCurBlk - 1 },
    { s.2 with
      plineBStart := s.2.plineBStart.erase plineDel
      ulCnt := s.2.ulCnt - 1 })

/-- The loop of `__ram_truncate` over the blocks that go. -/
def truncLoop : List ℕ → RamVolume × RamNode → RamVolume × RamNode
  | [], s => s
  | plineDel :: l, s => truncLoop l (truncBlock plineDel l.head? s)

/-- `__ram_truncate`. -/
def ramTruncate (pramfs : RamVolume) (pramn : RamNode) (stOft : ℕ) : RamVolume × RamNode :=
  let s := match truncFrom cfg stOft 0 pramn.plineBStart with
    | [] => (pramfs, pramn)
    | plineTemp :: l =>
      let plineBEnd :=
        if pramn.plineBStart.head? = some plineTemp then none
        else if pramn.plineBEnd = some plineTemp then prev pramn.plineBStart plineTemp
        else pramn.plineBEnd
      truncLoop (plineTemp :: l) (pramfs, { pramn with plineBEnd, prambCookie := none })
  (s.1, { s.2 with stSize := stOft, stVSize := stOft })

/-! ## Growth -/

/-- A new block is put behind the last one, cleared or not. -/
def appendBlock (clear : Bool) (pramb : RamBuffer) (s : RamVolume × RamNode) : RamVolume × RamNode :=
  ({ s.1 with
      ucData := Function.update s.1.ucData pramb.addr (if clear then fun _ => 0 else pramb.ucData)
      used := insert pramb.addr s.1.used
      ulCurBlk := s.1.ulCurBlk + 1 },
    { s.2 with
      plineBStart := match s.2.plineBEnd with
        | some plineBEnd => addRight pramb.addr plineBEnd s.2.plineBStart
        | none => pramb.addr :: s.2.plineBStart
      plineBEnd := some pramb.addr
      ulCnt := s.2.ulCnt + 1 })

/-- Blocks are allocated one by one, as long as the allocator gives them. -/
def automemLoop (clear : Bool) : ℕ → List RamBuffer → RamVolume × RamNode →
    (RamVolume × RamNode) × Bool
  | 0, _, s => (s, true)
  | _ + 1, [], s => (s, false)
  | n + 1, pramb :: given, s => automemLoop clear n given (appendBlock clear pramb s)

/-- Whether `__ram_automem` clears the blocks that it allocates; this is decided for all of them from
where the first one begins. -/
def clears (ulCnt stStart stLen : ℕ) : Bool :=
  let stCur := ulCnt * cfg.bDataSize
  (stCur < stStart && stCur + cfg.bDataSize ≤ stStart) || (stCur > stStart && stCur ≥ stStart + stLen)

/-- `__ram_automem`; the result says whether there is room. -/
def ramAutomem (pramfs : RamVolume) (pramn : RamNode) (ulNBlk stStart stLen : ℕ)
    (given : List RamBuffer) : (RamVolume × RamNode) × Bool :=
  if ulNBlk ≤ pramn.ulCnt then ((pramfs, pramn), true)
  else if ulNBlk - pramn.ulCnt + pramfs.ulCurBlk > pramfs.ulMaxBlk then ((pramfs, pramn), false)
  else automemLoop (clears cfg pramn.ulCnt stStart stLen) (ulNBlk - pramn.ulCnt) given (pramfs, pramn)

/-- `__ram_increase`. -/
def ramIncrease (pramn : RamNode) (stNewSize : ℕ) : RamNode :=
  if pramn.stSize < stNewSize then
    { pramn with stSize := stNewSize, stVSize := max pramn.stVSize stNewSize }
  else pramn

/-- What `__ramFsSeek` does to the node. -/
def ramFsSeek (pramn : RamNode) (oftOffset : ℕ) : RamNode :=
  if pramn.stVSize < oftOffset then { pramn with stVSize := oftOffset } else pramn

/-! ## Finding a block -/

/-- The block of `__ram_getbuf`, from the cookie, from the first block or from the last one. -/
def findBlock (pramn : RamNode) (ulBlkIndex first : ℕ) : Option ℕ :=
  let ulFoot := match pramn.prambCookie with
    | some _ => if pramn.ulCookie > ulBlkIndex then pramn.ulCookie - ulBlkIndex
      else ulBlkIndex - pramn.ulCookie
    | none => 2 ^ cfg.wordBits - 1
  if ulFoot < ulBlkIndex then
    pramn.prambCookie.bind fun cookie =>
      if pramn.ulCookie < ulBlkIndex then walk (next pramn.plineBStart) ulFoot cookie
      else walk (prev pramn.plineBStart) ulFoot cookie
  else
    let ulBackward := (pramn.ulCnt + 2 ^ cfg.wordBits - ulBlkIndex - 1) % 2 ^ cfg.wordBits
    if ulBlkIndex ≤ ulBackward then walk (next pramn.plineBStart) ulBlkIndex first
    else pramn.plineBEnd.bind fun plineBEnd => walk (prev pramn.plineBStart) ulBackward plineBEnd

/-- `__ram_getbuf`. -/
def ramGetbuf (pramn : RamNode) (stOft : ℕ) : Option ℕ × RamNode :=
  match pramn.plineBStart with
  | [] => (none, pramn)
  | first :: _ =>
    let ulBlkIndex := stOft / cfg.bDataSize
    if pramn.prambCookie.isSome ∧ pramn.ulCookie = ulBlkIndex then (pramn.prambCookie, pramn)
    else match findBlock cfg pramn ulBlkIndex first with
      | some pramb => (some pramb, { pramn with prambCookie := some pramb, ulCookie := ulBlkIndex })
      | none => (none, pramn)

/-! ## Reading and writing -/

/-- The loop of `__ram_read` over the blocks from the one at hand on, with the cookie that it leaves. -/
def readLoop (ucData : ℕ → ℕ → UInt8) : List ℕ → ℕ → ℕ → ℕ → List UInt8 × Option ℕ × ℕ
  | [], _, stNBytes, ulCookie => (List.replicate stNBytes 0, none, ulCookie)
  | pramb :: l, stStart, stNBytes, ulCookie =>
    let stBufSize := cfg.bDataSize - stStart
    if stBufSize ≥ stNBytes then
      ((List.range stNBytes).map fun j => ucData pramb (stStart + j), some pramb, ulCookie)
    else
      let r := readLoop ucData l 0 (stNBytes - stBufSize) (ulCookie + 1)
      ((List.range stBufSize).map (fun j => ucData pramb (stStart + j)) ++ r.1, r.2)

/-- `__ram_read`. -/
def ramRead (pramfs : RamVolume) (pramn : RamNode) (stSize stOft : ℕ) : List UInt8 × RamNode :=
  if pramn.stVSize ≤ stOft then ([], pramn)
  else
    let stNBytes := min (pramn.stVSize - stOft) stSize
    match ramGetbuf cfg pramn stOft with
    | (none, pramn) => (List.replicate stNBytes 0, pramn)
    | (some pramb, pramn) =>
      let r := readLoop cfg pramfs.ucData
        (pramn.plineBStart.drop (pramn.plineBStart.idxOf pramb)) (stOft % cfg.bDataSize) stNBytes
        pramn.ulCookie
      (r.1, { pramn with prambCookie := r.2.1, ulCookie := r.2.2 })

/-- `stNBytes` bytes are copied into a block from `stStart` on. -/
def copyTo (ucData : ℕ → ℕ → UInt8) (pramb stStart stNBytes : ℕ) (pvBuffer : ℕ → UInt8) :
    ℕ → ℕ → UInt8 :=
  Function.update ucData pramb fun j =>
    if stStart ≤ j ∧ j < stStart + stNBytes then pvBuffer (j - stStart) else ucData pramb j

/-- What the loop of `__ram_write` leaves: the bytes of all blocks, the number of bytes that were
written, and the cookie. -/
structure Written where
  ucData : ℕ → ℕ → UInt8
  stWrite : ℕ
  prambCookie : Option ℕ
  ulCookie : ℕ

/-- The loop of `__ram_write` over the blocks from the one at hand on. -/
def writeLoop (ucData : ℕ → ℕ → UInt8) : List ℕ → (ℕ → UInt8) → ℕ → ℕ → ℕ → Written
  | [], _, _, _, ulCookie => ⟨ucData, 0, none, ulCookie⟩
  | pramb :: l, pucDest, stStart, stNBytes, ulCookie =>
    let stBufSize := cfg.bDataSize - stStart
    if stBufSize ≥ stNBytes then
      ⟨copyTo ucData pramb stStart stNBytes pucDest, stNBytes, some pramb, ulCookie⟩
    else
      let r := writeLoop (copyTo ucData pramb stStart stBufSize pucDest) l
        (fun j => pucDest (stBufSize + j)) 0 (stNBytes - stBufSize) (ulCookie + 1)
      { r with stWrite := stBufSize + r.stWrite }

/-- `ulNBlk` of `__ram_write`. -/
def blocksFor (stEnd : ℕ) : ℕ :=
  if stEnd % cfg.bDataSize ≠ 0 then stEnd / cfg.bDataSize + 1 else stEnd / cfg.bDataSize

/-- `__ram_write` from `__ram_getbuf` to the end of its loop, with the number of bytes that were
written. -/
def copyIn (pramfs : RamVolume) (pramn : RamNode) (pvBuffer : ℕ → UInt8) (stNBytes stOft : ℕ) :
    RamVolume × RamNode × ℕ :=
  match ramGetbuf cfg pramn stOft with
  | (none, pramn) => (pramfs, pramn, 0)
  | (some pramb, pramn) =>
    let r := writeLoop cfg pramfs.ucData (pramn.plineBStart.drop (pramn.plineBStart.idxOf pramb))
      pvBuffer (stOft % cfg.bDataSize) stNBytes pramn.ulCookie
    ({ pramfs with ucData := r.ucData },
      { pramn with prambCookie := r.prambCookie, ulCookie := r.ulCookie }, r.stWrite)

/-- `__ram_write`; a sum of sizes is a word. -/
def ramWrite (pramfs : RamVolume) (pramn : RamNode) (pvBuffer : ℕ → UInt8) (stNBytes stOft : ℕ)
    (given : List RamBuffer) : RamVolume × RamNode × ℕ :=
  let stEnd := (stOft + stNBytes) % 2 ^ cfg.wordBits
  match ramAutomem cfg pramfs pramn (blocksFor cfg stEnd) stOft stNBytes given with
  | ((pramfs, pramn), false) => (pramfs, pramn, 0)
  | ((pramfs, pramn), true) =>
    let (pramfs, pramn, stWrite) := copyIn cfg pramfs pramn pvBuffer stNBytes stOft
    (pramfs, ramIncrease pramn ((stOft + stWrite) % 2 ^ cfg.wordBits), stWrite)

/-- The blocks of a file that is unlinked are freed one by one. -/
def unlinkLoop : List ℕ → RamVolume → RamVolume
  | [], pramfs => pramfs
  | plineTemp :: l, pramfs =>
    unlinkLoop l
      { pramfs with used := pramfs.used.erase plineTemp, ulCurBlk := pramfs.ulCurBlk - 1 }

/-! ## The chain of a node -/

variable {cfg} {pramn : RamNode} {pramfs : RamVolume} {stOft ulBlkIndex : ℕ} {l : List ℕ}

/-- What is remembered of the chain is so. -/
structure Linked (pramn : RamNode) : Prop where
  nodup : pramn.plineBStart.Nodup
  cnt : pramn.ulCnt = pramn.plineBStart.length
  last : pramn.plineBEnd = pramn.plineBStart.getLast?
  cookie : ∀ p, pramn.prambCookie = some p → pramn.plineBStart[pramn.ulCookie]? = some p
  size_le : pramn.stSize ≤ pramn.stVSize

theorem RamCfg.pos (cfg : RamCfg) : 0 < cfg.bDataSize := Nat.lt_of_lt_of_le Nat.two_pos cfg.two_le

theorem Linked.setCookie (h : Linked pramn) {prambCookie : Option ℕ} {ulCookie : ℕ}
    (hc : ∀ p, prambCookie = some p → pramn.plineBStart[ulCookie]? = some p) :
    Linked { pramn with prambCookie, ulCookie } :=
  ⟨h.nodup, h.cnt, h.last, hc, h.size_le⟩

theorem Linked.findBlock {first : ℕ} (h : Linked pramn) (hfirst : pramn.plineBStart = first :: l)
    (hcnt : pramn.ulCnt < 2 ^ cfg.wordBits) (hidx : 2 * ulBlkIndex < 2 ^ cfg.wordBits) :
    findBlock cfg pramn ulBlkIndex first = pramn.plineBStart[ulBlkIndex]? := by
  have hnext : walk (next pramn.plineBStart) ulBlkIndex first = pramn.plineBStart[ulBlkIndex]? := by
    have hzero : pramn.plineBStart[0]? = some first := by rw [hfirst]; rfl
    rw [walk_next h.nodup hzero, Nat.zero_add]
  have hends : (if ulBlkIndex ≤ (pramn.ulCnt + 2 ^ cfg.wordBits - ulBlkIndex - 1) %
        2 ^ cfg.wordBits then walk (next pramn.plineBStart) ulBlkIndex first
      else pramn.plineBEnd.bind (walk (prev pramn.plineBStart)
        ((pramn.ulCnt + 2 ^ cfg.wordBits - ulBlkIndex - 1) % 2 ^ cfg.wordBits))) =
      pramn.plineBStart[ulBlkIndex]? := by
    rcases Nat.lt_or_ge ulBlkIndex pramn.ulCnt with hlt | hge
    · have hback : (pramn.ulCnt + 2 ^ cfg.wordBits - ulBlkIndex - 1) % 2 ^ cfg.wordBits =
          pramn.ulCnt - 1 - ulBlkIndex := by
        rw [show pramn.ulCnt + 2 ^ cfg.wordBits - ulBlkIndex - 1 =
          pramn.ulCnt - 1 - ulBlkIndex + 2 ^ cfg.wordBits by omega, Nat.add_mod_right]
        exact Nat.mod_eq_of_lt (by omega)
      rw [hback]
      split_ifs
      · exact hnext
      · have hlast : pramn.plineBStart[pramn.ulCnt - 1]? = pramn.plineBEnd := by
          rw [h.last, List.getLast?_eq_getElem?, h.cnt]
        cases hend : pramn.plineBEnd with
        | none =>
          rw [hend, List.getElem?_eq_none_iff, ← h.cnt] at hlast
          omega
        | some e =>
          rw [Option.bind_some, walk_prev h.nodup (hlast.trans hend) (by omega)]
          congr 1
          omega
    · have hback : (pramn.ulCnt + 2 ^ cfg.wordBits - ulBlkIndex - 1) % 2 ^ cfg.wordBits =
          pramn.ulCnt + 2 ^ cfg.wordBits - ulBlkIndex - 1 := Nat.mod_eq_of_lt (by omega)
      rw [hback, if_pos (by omega)]
      exact hnext
  unfold RamFs.findBlock
  cases hcookie : pramn.prambCookie with
  | none =>
    dsimp only
    rw [if_neg (by omega)]
    exact hends
  | some cookie =>
    have hc := h.cookie cookie hcookie
    dsimp only
    by_cases hgt : pramn.ulCookie > ulBlkIndex
    · rw [if_pos hgt]
      by_cases hfoot : pramn.ulCookie - ulBlkIndex < ulBlkIndex
      · rw [if_pos hfoot, Option.bind_some, if_neg (by omega), walk_prev h.nodup hc (by omega)]
        congr 1
        omega
      · rw [if_neg hfoot]
        exact hends
    · rw [if_neg hgt]
      by_cases hfoot : ulBlkIndex - pramn.ulCookie < ulBlkIndex
      · rw [if_pos hfoot, Option.bind_some]
        by_cases hlt : pramn.ulCookie < ulBlkIndex
        · rw [if_pos hlt, walk_next h.nodup hc]
          congr 1
          omega
        · rw [if_neg hlt, walk_prev h.nodup hc (by omega)]
          congr 1
          omega
      · rw [if_neg hfoot]
        exact hends

/-- `__ram_getbuf` finds the block in which the place lies, and remembers it. -/
theorem Linked.getbuf (h : Linked pramn) (hcnt : pramn.ulCnt < 2 ^ cfg.wordBits)
    (hoft : stOft < 2 ^ cfg.wordBits) : ramGetbuf cfg pramn stOft =
      match pramn.plineBStart[stOft / cfg.bDataSize]? with
      | some p => (some p, { pramn with prambCookie := some p, ulCookie := stOft / cfg.bDataSize })
      | none => (none, pramn) := by
  have hidx : 2 * (stOft / cfg.bDataSize) < 2 ^ cfg.wordBits := by
    have hmul := Nat.div_mul_le_self stOft cfg.bDataSize
    have htwo := Nat.mul_le_mul_left (stOft / cfg.bDataSize) cfg.two_le
    omega
  unfold ramGetbuf
  cases hl : pramn.plineBStart with
  | nil => rfl
  | cons first l =>
    dsimp only
    rw [h.findBlock hl hcnt hidx, hl]
    split_ifs with hcookie
    · obtain ⟨hsome, hat⟩ := hcookie
      obtain ⟨p, hp⟩ := Option.isSome_iff_exists.mp hsome
      have hc := h.cookie p hp
      rw [hl, hat] at hc
      rw [hc]
      dsimp only
      rw [← hat, ← hp, ← hl]
    · rfl

/-! ## Reading -/

variable {data : ℕ → ℕ → UInt8} {s n c : ℕ} {buf : ℕ → UInt8}

theorem byteAt_nil {o : ℕ} : byteAt cfg.bDataSize data [] o = 0 := rfl

theorem readLoop_bytes (hs : s < cfg.bDataSize) : (readLoop cfg data l s n c).1 =
    (List.range n).map fun j => byteAt cfg.bDataSize data l (s + j) := by
  induction l generalizing s n c with
  | nil => simp [readLoop, byteAt_nil]
  | cons p l ih =>
    have hbytes (k : ℕ) (hk : k ≤ cfg.bDataSize - s) :
        ((List.range k).map fun j => data p (s + j)) =
          (List.range k).map fun j => byteAt cfg.bDataSize data (p :: l) (s + j) := by
      refine List.map_congr_left fun j hj => ?_
      rw [List.mem_range] at hj
      rw [byteAt_head (by omega)]
    unfold readLoop
    dsimp only
    split_ifs with hn
    · exact hbytes n hn
    · dsimp only
      rw [ih cfg.pos, hbytes _ le_rfl]
      have hsplit : n = cfg.bDataSize - s + (n - (cfg.bDataSize - s)) := by omega
      conv_rhs => rw [hsplit, List.range_add, List.map_append, List.map_map]
      congr 1
      refine List.map_congr_left fun j _ => ?_
      rw [Function.comp_apply, byteAt_tail cfg.pos (by omega)]
      congr 1
      omega

theorem readLoop_cookie {blocks : List ℕ} (hl : l = blocks.drop c) :
    ∀ p, (readLoop cfg data l s n c).2.1 = some p →
      blocks[(readLoop cfg data l s n c).2.2]? = some p := by
  induction l generalizing s n c with
  | nil =>
    intro p hp
    cases hp
  | cons a l ih =>
    have hhead : blocks[c]? = some a := by
      rw [← Nat.add_zero c, ← List.getElem?_drop, ← hl]
      rfl
    have htail : l = blocks.drop (c + 1) := by
      rw [← List.tail_drop, ← hl]
      rfl
    unfold readLoop
    dsimp only
    split_ifs
    · intro p hp
      rw [← hp]
      exact hhead
    · exact ih htail

/-- A read returns the bytes of the chain up to the end of the file. -/
theorem Linked.read (h : Linked pramn) (hcnt : pramn.ulCnt < 2 ^ cfg.wordBits)
    (hoft : stOft < 2 ^ cfg.wordBits) (stSize : ℕ) :
    (ramRead cfg pramfs pramn stSize stOft).1 =
      (List.range (min (pramn.stVSize - stOft) stSize)).map fun j =>
        byteAt cfg.bDataSize pramfs.ucData pramn.plineBStart (stOft + j) := by
  unfold ramRead
  split_ifs with hend
  · rw [Nat.sub_eq_zero_of_le hend, Nat.zero_min]
    rfl
  · dsimp only
    rw [h.getbuf hcnt hoft]
    cases hat : pramn.plineBStart[stOft / cfg.bDataSize]? with
    | none =>
      have hle := (Nat.le_div_iff_mul_le cfg.pos).mp (List.getElem?_eq_none_iff.mp hat)
      refine (List.eq_replicate_iff.mpr ⟨by simp, fun b hb => ?_⟩).symm
      obtain ⟨j, -, rfl⟩ := List.mem_map.mp hb
      exact byteAt_beyond cfg.pos (by omega)
    | some p =>
      dsimp only
      rw [idxOf_of_getElem? h.nodup hat, readLoop_bytes (Nat.mod_lt _ cfg.pos)]
      refine List.map_congr_left fun j _ => ?_
      rw [byteAt_drop cfg.pos, ← Nat.add_assoc, Nat.div_add_mod']

theorem Linked.read_node (h : Linked pramn) (hcnt : pramn.ulCnt < 2 ^ cfg.wordBits)
    (hoft : stOft < 2 ^ cfg.wordBits) (stSize : ℕ) :
    ∃ prambCookie ulCookie, (ramRead cfg pramfs pramn stSize stOft).2 =
        { pramn with prambCookie, ulCookie } ∧
      ∀ p, prambCookie = some p → pramn.plineBStart[ulCookie]? = some p := by
  unfold ramRead
  split_ifs
  · exact ⟨pramn.prambCookie, pramn.ulCookie, rfl, h.cookie⟩
  · dsimp only
    rw [h.getbuf hcnt hoft]
    cases hat : pramn.plineBStart[stOft / cfg.bDataSize]? with
    | none => exact ⟨pramn.prambCookie, pramn.ulCookie, rfl, h.cookie⟩
    | some p =>
      dsimp only
      rw [idxOf_of_getElem? h.nodup hat]
      exact ⟨_, _, rfl, readLoop_cookie rfl⟩

/-! ## Writing -/

theorem copyTo_ne {p q : ℕ} (hq : q ≠ p) : copyTo data p s n buf q = data q :=
  Function.update_of_ne hq _ _

theorem writeLoop_ne {q : ℕ} (hq : q ∉ l) : (writeLoop cfg data l buf s n c).ucData q = data q := by
  induction l generalizing data buf s n c with
  | nil => rfl
  | cons p l ih =>
    rw [List.mem_cons, not_or] at hq
    unfold writeLoop
    dsimp only
    split_ifs
    · exact copyTo_ne hq.1
    · exact (ih hq.2).trans (copyTo_ne hq.1)

theorem writeLoop_cookie {blocks : List ℕ} (hl : l = blocks.drop c) :
    ∀ p, (writeLoop cfg data l buf s n c).prambCookie = some p →
      blocks[(writeLoop cfg data l buf s n c).ulCookie]? = some p := by
  induction l generalizing data buf s n c with
  | nil =>
    intro p hp
    cases hp
  | cons a l ih =>
    have hhead : blocks[c]? = some a := by
      rw [← Nat.add_zero c, ← List.getElem?_drop, ← hl]
      rfl
    have htail : l = blocks.drop (c + 1) := by
      rw [← List.tail_drop, ← hl]
      rfl
    unfold writeLoop
    dsimp only
    split_ifs
    · intro p hp
      rw [← hp]
      exact hhead
    · exact ih htail

/-- If the blocks reach, all is written. -/
theorem writeLoop_stWrite (hfit : s + n ≤ l.length * cfg.bDataSize) :
    (writeLoop cfg data l buf s n c).stWrite = n := by
  induction l generalizing data buf s n c with
  | nil =>
    rw [List.length_nil, Nat.zero_mul] at hfit
    exact (show n = 0 by omega).symm
  | cons p l ih =>
    rw [List.length_cons, Nat.add_mul, Nat.one_mul] at hfit
    unfold writeLoop
    dsimp only
    split_ifs with hn
    · rfl
    · dsimp only
      rw [ih (by omega)]
      omega

theorem writeLoop_bytes (hl : l.Nodup) (hs : s < cfg.bDataSize)
    (hfit : s + n ≤ l.length * cfg.bDataSize) (o : ℕ) :
    byteAt cfg.bDataSize (writeLoop cfg data l buf s n c).ucData l o =
      if s ≤ o ∧ o < s + n then buf (o - s) else byteAt cfg.bDataSize data l o := by
  induction l generalizing data buf s n c o with
  | nil =>
    rw [List.length_nil, Nat.zero_mul] at hfit
    rw [if_neg (by omega)]
    rfl
  | cons p l ih =>
    rw [List.nodup_cons] at hl
    rw [List.length_cons, Nat.add_mul, Nat.one_mul] at hfit
    have hcopy (k : ℕ) (o : ℕ) (ho : o < cfg.bDataSize) :
        copyTo data p s k buf p o = if s ≤ o ∧ o < s + k then buf (o - s)
          else byteAt cfg.bDataSize data (p :: l) o := by
      rw [copyTo, Function.update_self, byteAt_head ho]
    have hrest (k : ℕ) (o : ℕ) (ho : cfg.bDataSize ≤ o) :
        byteAt cfg.bDataSize (copyTo data p s k buf) l (o - cfg.bDataSize) =
          byteAt cfg.bDataSize data (p :: l) o := by
      rw [byteAt_tail cfg.pos ho]
      exact byteAt_congr fun q hq => copyTo_ne fun heq => hl.1 (heq ▸ hq)
    unfold writeLoop
    dsimp only
    split_ifs with hn hin hin
    · dsimp only
      rw [byteAt_head (by omega), hcopy n o (by omega), if_pos hin]
    · dsimp only
      rcases Nat.lt_or_ge o cfg.bDataSize with ho | ho
      · rw [byteAt_head ho, hcopy n o ho, if_neg hin]
      · rw [byteAt_tail cfg.pos ho, hrest n o ho]
    · dsimp only
      rcases Nat.lt_or_ge o cfg.bDataSize with ho | ho
      · rw [byteAt_head ho, writeLoop_ne hl.1, hcopy _ o ho, if_pos (by omega)]
      · rw [byteAt_tail cfg.pos ho, ih hl.2 cfg.pos (by omega), if_pos (by omega)]
        congr 1
        omega
    · dsimp only
      rcases Nat.lt_or_ge o cfg.bDataSize with ho | ho
      · rw [byteAt_head ho, writeLoop_ne hl.1, hcopy _ o ho, if_neg (by omega)]
      · rw [byteAt_tail cfg.pos ho, ih hl.2 cfg.pos (by omega), if_neg (by omega), hrest _ o ho]

/-- If the blocks reach, a write is done as asked for, and touches no other block. -/
theorem Linked.copyIn (h : Linked pramn) (hcnt : pramn.ulCnt < 2 ^ cfg.wordBits)
    (hoft : stOft < 2 ^ cfg.wordBits) (hfit : stOft + n ≤ pramn.ulCnt * cfg.bDataSize) :
    ∃ data prambCookie ulCookie, copyIn cfg pramfs pramn buf n stOft =
        ({ pramfs with ucData := data }, { pramn with prambCookie, ulCookie }, n) ∧
      (∀ p, prambCookie = some p → pramn.plineBStart[ulCookie]? = some p) ∧
      (∀ q ∉ pramn.plineBStart, data q = pramfs.ucData q) ∧
      ∀ o, byteAt cfg.bDataSize data pramn.plineBStart o =
        if stOft ≤ o ∧ o < stOft + n then buf (o - stOft)
        else byteAt cfg.bDataSize pramfs.ucData pramn.plineBStart o := by
  unfold RamFs.copyIn
  rw [h.getbuf hcnt hoft]
  rw [h.cnt] at hfit
  cases hat : pramn.plineBStart[stOft / cfg.bDataSize]? with
  | none =>
    have hle := (Nat.le_div_iff_mul_le cfg.pos).mp (List.getElem?_eq_none_iff.mp hat)
    obtain rfl : n = 0 := by omega
    refine ⟨pramfs.ucData, pramn.prambCookie, pramn.ulCookie, rfl, h.cookie, fun _ _ => rfl,
      fun o => ?_⟩
    rw [if_neg (by omega)]
  | some p =>
    dsimp only
    rw [idxOf_of_getElem? h.nodup hat]
    have hdm := Nat.div_add_mod' stOft cfg.bDataSize
    have hmod := Nat.mod_lt stOft cfg.pos
    have hlen : stOft % cfg.bDataSize + n ≤
        (pramn.plineBStart.drop (stOft / cfg.bDataSize)).length * cfg.bDataSize := by
      rw [List.length_drop, Nat.sub_mul]
      omega
    have hnodup := h.nodup
    rw [← List.take_append_drop (stOft / cfg.bDataSize) pramn.plineBStart,
      List.nodup_append] at hnodup
    have hstWrite := @writeLoop_stWrite cfg _ pramfs.ucData _ _ (stOft / cfg.bDataSize) buf hlen
    have hcookie := @writeLoop_cookie cfg _ pramfs.ucData (stOft % cfg.bDataSize) n _ buf _
      (@rfl _ (pramn.plineBStart.drop (stOft / cfg.bDataSize)))
    refine ⟨_, _, _, by rw [hstWrite], hcookie, fun q hq => writeLoop_ne fun hmem =>
      hq (List.mem_of_mem_drop hmem), fun o => ?_⟩
    · rcases Nat.lt_or_ge o (stOft / cfg.bDataSize * cfg.bDataSize) with ho | ho
      · rw [if_neg (by omega)]
        refine (byteAt_take cfg.pos ho).symm.trans (Eq.trans ?_ (byteAt_take cfg.pos ho))
        refine byteAt_congr fun q hq => writeLoop_ne fun hmem => ?_
        exact hnodup.2.2 q hq q hmem rfl
      · obtain ⟨d, rfl⟩ := Nat.exists_eq_add_of_le ho
        rw [← byteAt_drop cfg.pos, ← byteAt_drop cfg.pos, writeLoop_bytes hnodup.2.1 hmod hlen]
        split_ifs
        · congr 1
          omega
        · omega
        · omega
        · rfl

end SylixOS.RamFs
