import Mathlib

/-! # The memory heap

A heap is a list of segments that lie one after the other, each with a header in front of its data,
and a ring of the free ones. Memory is taken from the first free segment that is large enough, which
is split if enough is left over, and a segment that is freed is merged with the free segments next to
it. The sizes and addresses here are numbers without a bound; `none` as a pointer is `LW_NULL`, and a
pointer to no segment makes a function `none`.
-/

namespace SylixOS.Kernel

/-- The configuration: `sizeof(size_t)`, `LW_CFG_HEAP_ALIGNMENT`, `LW_CFG_HEAP_SEG_MIN_SIZE`, which
must be a multiple of the alignment, and whether overruns are checked for. -/
structure HeapConf where
  stWord : ℕ
  ulAlignment : ℕ
  stSegMinSize : ℕ
  bHeapCrossBorderEn : Bool
  word_eq : stWord = 4 ∨ stWord = 8
  align_pow : ∃ k, ulAlignment = 2 ^ k
  word_dvd : stWord ∣ ulAlignment
  align_dvd : ulAlignment ∣ stSegMinSize
  min_pos : 0 < stSegMinSize

/-- `ROUND_UP` for a power of two. -/
def roundUp (x align : ℕ) : ℕ := (x + (align - 1)) / align * align

/-- `ROUND_DOWN` for a power of two. -/
def roundDown (x align : ℕ) : ℕ := x / align * align

def segMagicReal : ℕ := 0xffffffff

/-- `LW_CLASS_SEGMENT` at its address. -/
structure Segment where
  addr : ℕ
  stByteSize : ℕ
  deriving DecidableEq, Repr

/-- `LW_CLASS_HEAP`. The segments are in the order of `SEGMENT_lineManage`; the free ones are in the
order of `HEAP_pringFreeSegment`. The memory has the words that the heap reads when it is given
a pointer: the magics of the segments and what is in front of aligned blocks. -/
structure Heap where
  pvStartAddress : ℕ
  segments : List Segment
  freeSegment : List ℕ
  ulSegmentCounter : ℕ
  stTotalByteSize : ℕ
  stUsedByteSize : ℕ
  stFreeByteSize : ℕ
  stMaxUsedByteSize : ℕ
  mem : ℕ → ℕ

/-- Aligned memory of a heap. -/
structure Region where
  addr : ℕ
  stSize : ℕ
  deriving DecidableEq, Repr

namespace HeapConf
variable (g : HeapConf)

/-- `__SEGMENT_BLOCK_SIZE_ALIGN`: the header of a segment has six words. -/
def stHeader : ℕ := roundUp (6 * g.stWord) g.ulAlignment

/-- The offset of `SEGMENT_stMagic`. -/
def stMagicOffset : ℕ := 5 * g.stWord

/-- `~LW_SEG_MAGIC_REAL`. -/
def segMagicFake : ℕ := 2 ^ (8 * g.stWord) - 1 - segMagicReal

/-- `__HEAP_SEGMENT_DATA_PTR`. -/
def dataPtr (psegment : Segment) : ℕ := psegment.addr + g.stHeader

/-- `__HEAP_SEGMENT_NEXT_PTR`. -/
def nextPtr (psegment : Segment) : ℕ := g.dataPtr psegment + psegment.stByteSize

/-- The aligned part of the memory from an address on. -/
def region (pvMemory stSize : ℕ) : Region where
  addr := roundUp pvMemory g.ulAlignment
  stSize := roundDown (stSize - (roundUp pvMemory g.ulAlignment - pvMemory)) g.ulAlignment

/-- `__heap_crossbord_size`. -/
def crossbordSize (stSize : ℕ) : ℕ := if g.bHeapCrossBorderEn then stSize + g.stWord else stSize

/-- The size of the segment for a request. -/
def segSize (stByteSize : ℕ) : ℕ := roundUp (g.crossbordSize stByteSize) g.stSegMinSize

end HeapConf

/-- The segments to the left of the one at an address, the segment, and those to its right. -/
def splitSegs (addr : ℕ) : List Segment → Option (List Segment × Segment × List Segment)
  | [] => none
  | s :: segments =>
    if s.addr = addr then some ([], s, segments)
    else (splitSegs addr segments).map fun (left, psegment, right) => (s :: left, psegment, right)

namespace Heap
variable (g : HeapConf) (h : Heap)

/-- `__HEAP_SEGMENT_IS_USED`: the segment is not in the free ring. -/
def isUsed (psegment : ℕ) : Bool := decide (psegment ∉ h.freeSegment)

def setWord (addr val : ℕ) : Heap := { h with mem := Function.update h.mem addr val }

/-- The magic of a segment's header. -/
def setMagic (psegment : ℕ) : Heap := h.setWord (psegment + g.stMagicOffset) segMagicReal

/-- `__HEAP_SEGMENT_IS_REAL`. -/
def isReal (psegment : ℕ) : Bool := h.mem (psegment + g.stMagicOffset) == segMagicReal

/-- `__HEAP_ADD_NEW_SEG_TO_FREELIST`: the last segment goes to the end of the ring. -/
def addNewSegToFreelist (psegment : ℕ) : Heap :=
  match splitSegs psegment h.segments with
  | some (_, _, []) => { h with freeSegment := h.freeSegment ++ [psegment] }
  | _ => { h with freeSegment := psegment :: h.freeSegment }

/-- `_List_Ring_Del`. -/
def listRingDel (psegment : ℕ) : Heap := { h with freeSegment := h.freeSegment.erase psegment }

/-- `__HEAP_UPDATA_MAX_USED`. -/
def updataMaxUsed : Heap :=
  if h.stMaxUsedByteSize < h.stUsedByteSize then { h with stMaxUsedByteSize := h.stUsedByteSize }
  else h

/-- `__heap_crossbord_mark`. What the check of a mark finds is only printed. -/
def crossbordMark (psegment : Segment) : Heap :=
  if g.bHeapCrossBorderEn then
    h.setWord (g.dataPtr psegment + (psegment.stByteSize - g.stWord)) 0xA5A54321
  else h

/-- `_HeapCtor`, for memory with room for a segment. -/
def heapCtor (pvStartAddress stByteSize : ℕ) (mem : ℕ → ℕ) : Option Heap :=
  let r := g.region pvStartAddress stByteSize
  if r.stSize < g.stHeader then none
  else
    let h : Heap :=
      { pvStartAddress := r.addr
        segments := [⟨r.addr, r.stSize - g.stHeader⟩]
        freeSegment := [r.addr]
        ulSegmentCounter := 1
        stTotalByteSize := r.stSize
        stUsedByteSize := g.stHeader
        stFreeByteSize := r.stSize - g.stHeader
        stMaxUsedByteSize := g.stHeader
        mem }
    some (h.setMagic g r.addr)

/-- The test of `_HeapAddMemory` whether the new memory overlaps the data of a segment. -/
def overlaps (r : Region) (psegment : Segment) : Bool :=
  let ulSeg := g.dataPtr psegment
  let ulEnd := r.addr + r.stSize - 1
  (ulSeg ≤ r.addr && r.addr < ulSeg + psegment.stByteSize) ||
    (ulSeg ≤ ulEnd && ulEnd < ulSeg + psegment.stByteSize)

/-- `_HeapAddMemory`, for memory with room for a segment: whether it has been added. The loop ends
before the last segment. -/
def heapAddMemory (pvMemory stSize : ℕ) : Option (Heap × Bool) :=
  let r := g.region pvMemory stSize
  if r.stSize < g.stHeader then none
  else if h.segments.dropLast.any (overlaps g r) then some (h, false)
  else
    let new : Segment := ⟨r.addr, r.stSize - g.stHeader⟩
    let h := { h with segments := h.segments ++ [new] }
    let h := (h.setMagic g new.addr).addNewSegToFreelist new.addr
    some
      ({ h with
          ulSegmentCounter := h.ulSegmentCounter + 1
          stTotalByteSize := h.stTotalByteSize + r.stSize
          stUsedByteSize := h.stUsedByteSize + g.stHeader
          stFreeByteSize := h.stFreeByteSize + new.stByteSize }, true)

/-- The loop of `_HeapVerify` over the segments. -/
def heapScan (pvStartAddress : ℕ) : List Segment → Option ℕ
  | [] => none
  | s :: segments =>
    if s.addr < pvStartAddress ∧ pvStartAddress ≤ g.nextPtr s then
      if h.isUsed s.addr then some s.addr else none
    else heapScan pvStartAddress segments

/-- `_HeapVerify`. -/
def heapVerify (pvStartAddress : ℕ) : Option ℕ :=
  if pvStartAddress < h.pvStartAddress ∨ h.pvStartAddress + h.stTotalByteSize ≤ pvStartAddress then
    none
  else h.heapScan g pvStartAddress h.segments

/-- The segment that `_HeapFree` and `_HeapRealloc` take a pointer to be in, if they accept it. -/
def segOf (pvStartAddress : ℕ) (bIsNeedVerify : Bool) : Option ℕ :=
  if bIsNeedVerify then h.heapVerify g pvStartAddress
  else
    let psegment := pvStartAddress - g.stHeader
    let psegment :=
      if h.isReal g psegment then psegment else h.mem (pvStartAddress - g.stWord)
    if h.isReal g psegment ∧ h.isUsed psegment then some psegment else none

/-- The first free segment that fits. -/
def firstFit (fits : Segment → Bool) : List ℕ → Option (Option Segment)
  | [] => some none
  | psegment :: freeSegment => do
    let (_, s, _) ← splitSegs psegment h.segments
    if fits s then some (some s) else firstFit fits freeSegment

/-- A free segment is taken and cut to the size if enough is left over, as `_HeapAllocate` and
`_HeapAllocateAlign` do. -/
def takeSeg (psegment stSize : ℕ) : Option (Heap × Segment) := do
  let (left, s, right) ← splitSegs psegment h.segments
  let h := h.listRingDel psegment
  if g.stHeader + g.stSegMinSize < s.stByteSize - stSize then
    let s' := { s with stByteSize := stSize }
    let new : Segment := ⟨g.nextPtr s', s.stByteSize - stSize - g.stHeader⟩
    let h := { h with segments := left ++ s' :: new :: right }
    let h := (h.setMagic g new.addr).addNewSegToFreelist new.addr
    some
      ({ h with
          ulSegmentCounter := h.ulSegmentCounter + 1
          stUsedByteSize := h.stUsedByteSize + (stSize + g.stHeader)
          stFreeByteSize := h.stFreeByteSize - (stSize + g.stHeader) }, s')
  else
    some
      ({ h with
          stUsedByteSize := h.stUsedByteSize + s.stByteSize
          stFreeByteSize := h.stFreeByteSize - s.stByteSize }, s)

/-- `_HeapAllocate`: the pointer. -/
def heapAllocate (stByteSize : ℕ) : Option (Heap × Option ℕ) :=
  let stSize := g.segSize stByteSize
  if h.stFreeByteSize < stSize then some (h, none)
  else do
    match ← h.firstFit (fun s => stSize ≤ s.stByteSize) h.freeSegment with
    | none => some (h, none)
    | some s =>
      let (h, s) ← h.takeSeg g s.addr stSize
      some (h.updataMaxUsed.crossbordMark g s, some (g.dataPtr s))

/-- The first address in the data of a segment with the alignment. -/
def alignPtr (stAlign : ℕ) (psegment : Segment) : ℕ :=
  if g.dataPtr psegment &&& (stAlign - 1) = 0 then g.dataPtr psegment
  else (g.dataPtr psegment ||| (stAlign - 1)) + 1

/-- `stAddedSize` of `_HeapAllocateAlign`. -/
def addedSize (stAlign : ℕ) (psegment : Segment) : ℕ :=
  alignPtr g stAlign psegment - g.dataPtr psegment

/-- `_HeapAllocateAlign` splits the part in front of the aligned data off the segment. -/
def splitLeft (psegment stAddedSize : ℕ) : Option (Heap × ℕ) := do
  let (left, s, right) ← splitSegs psegment h.segments
  let new : Segment :=
    ⟨g.dataPtr s + stAddedSize - g.stHeader, s.stByteSize - stAddedSize⟩
  let s' := { s with stByteSize := stAddedSize - g.stHeader }
  let h := { h with segments := left ++ s' :: new :: right }
  let h := (h.setMagic g new.addr).addNewSegToFreelist new.addr
  some
    ({ h with
        ulSegmentCounter := h.ulSegmentCounter + 1
        stUsedByteSize := h.stUsedByteSize + g.stHeader
        stFreeByteSize := h.stFreeByteSize - g.stHeader }, new.addr)

/-- What `_HeapAllocateAlign` leaves in front of an aligned pointer in the midst of a segment: the
segment's address, and no magic where the header of another segment would be. -/
def setLeft (psegment pcAlign : ℕ) : Heap :=
  let pstLeft := pcAlign - g.stWord
  let pstMagic := pcAlign - g.stHeader + g.stMagicOffset
  let h := h.setWord pstLeft psegment
  if pstLeft ≠ pstMagic then h.setWord pstMagic g.segMagicFake else h

/-- `_HeapAllocateAlign`: the pointer and its segment. -/
def heapAllocateAlign (stByteSize stAlign : ℕ) : Option (Heap × Option (ℕ × ℕ)) :=
  let stSize := g.segSize stByteSize
  if h.stFreeByteSize < stSize then some (h, none)
  else do
    match ← h.firstFit (fun s => stSize + addedSize g stAlign s ≤ s.stByteSize) h.freeSegment with
    | none => some (h, none)
    | some s =>
      let pcAlign := alignPtr g stAlign s
      let stAddedSize := addedSize g stAlign s
      if g.stHeader + g.stSegMinSize ≤ stAddedSize then
        let (h, psegment) ← h.splitLeft g s.addr stAddedSize
        let (h, s) ← h.takeSeg g psegment stSize
        some (h.updataMaxUsed.crossbordMark g s, some (pcAlign, s.addr))
      else
        let (h, s) ← h.takeSeg g s.addr (stSize + stAddedSize)
        let h := if stAddedSize = 0 then h else h.setLeft g s.addr pcAlign
        some (h.updataMaxUsed.crossbordMark g s, some (pcAlign, s.addr))

/-- `_HeapFree` merges a used segment with a free one to its left, and puts the last segment to the
end of the free ring: the segments to the left now, the segment, and whether it has been merged. -/
def mergeLeft (left : List Segment) (s : Segment) (right : List Segment) :
    Heap × List Segment × Segment × Bool :=
  match left.getLast? with
  | none => (h, left, s, false)
  | some psegmentLeft =>
    if h.isUsed psegmentLeft.addr ∨ g.nextPtr psegmentLeft ≠ s.addr then (h, left, s, false)
    else
      let s' :=
        { psegmentLeft with stByteSize := psegmentLeft.stByteSize + (s.stByteSize + g.stHeader) }
      let h :=
        { h with
          segments := left.dropLast ++ s' :: right
          ulSegmentCounter := h.ulSegmentCounter - 1
          stUsedByteSize := h.stUsedByteSize - (g.stHeader + s.stByteSize)
          stFreeByteSize := h.stFreeByteSize + (g.stHeader + s.stByteSize) }
      (if right.isEmpty then (h.listRingDel s'.addr).addNewSegToFreelist s'.addr else h,
        left.dropLast, s', true)

/-- The end of `_HeapFree` for a segment that is not merged to the right. -/
def rightMergeFail (s : Segment) (bIsMergeOk : Bool) (stSegmentByteSizeFree : ℕ) : Heap :=
  if bIsMergeOk then h
  else
    let h := h.addNewSegToFreelist s.addr
    { h with
      stUsedByteSize := h.stUsedByteSize - stSegmentByteSizeFree
      stFreeByteSize := h.stFreeByteSize + stSegmentByteSizeFree }

/-- `_HeapFree` merges a segment with a free one to its right. -/
def mergeRight (left : List Segment) (s : Segment) (right : List Segment) (bIsMergeOk : Bool)
    (stSegmentByteSizeFree : ℕ) : Heap :=
  match right with
  | [] => h.rightMergeFail s bIsMergeOk stSegmentByteSizeFree
  | psegmentRight :: right =>
    if h.isUsed psegmentRight.addr ∨ g.nextPtr s ≠ psegmentRight.addr then
      h.rightMergeFail s bIsMergeOk stSegmentByteSizeFree
    else
      let s' := { s with stByteSize := s.stByteSize + (psegmentRight.stByteSize + g.stHeader) }
      let h := h.listRingDel psegmentRight.addr
      let h :=
        { h with
          segments := left ++ s' :: right
          ulSegmentCounter := h.ulSegmentCounter - 1 }
      if bIsMergeOk then
        let h :=
          if right.isEmpty then (h.listRingDel s'.addr).addNewSegToFreelist s'.addr else h
        { h with
          stUsedByteSize := h.stUsedByteSize - g.stHeader
          stFreeByteSize := h.stFreeByteSize + g.stHeader }
      else
        let h := h.addNewSegToFreelist s'.addr
        { h with
          stUsedByteSize := h.stUsedByteSize - (g.stHeader + stSegmentByteSizeFree)
          stFreeByteSize := h.stFreeByteSize + (g.stHeader + stSegmentByteSizeFree) }

/-- `_HeapFree` from the segment on. -/
def freeSeg (psegment : ℕ) : Option Heap := do
  let (left, s, right) ← splitSegs psegment h.segments
  let (h, left, s', bIsMergeOk) := h.mergeLeft g left s right
  some (h.mergeRight g left s' right bIsMergeOk s.stByteSize)

/-- `_HeapFree`: the pointer comes back if it cannot be freed. -/
def heapFree (pvStartAddress : Option ℕ) (bIsNeedVerify : Bool) : Option (Heap × Option ℕ) :=
  match pvStartAddress with
  | none => some (h, none)
  | some p =>
    match h.segOf g p bIsNeedVerify with
    | none => some (h, some p)
    | some psegment => (h.freeSeg g psegment).map fun h => (h, none)

/-- `lib_memcpy`, of whole words. -/
def memcpy (dest src n : ℕ) : Heap :=
  { h with
    mem := fun a => if dest ≤ a ∧ a + g.stWord ≤ dest + n then h.mem (a - dest + src) else h.mem a }

/-- The end of `_HeapRealloc` from `__split_segment` on. -/
def splitSegment (psegment stSize : ℕ) : Option Heap := do
  let (left, s, right) ← splitSegs psegment h.segments
  let stNewSegSize := s.stByteSize - stSize
  if stNewSegSize < g.stHeader + g.stSegMinSize then some (h.updataMaxUsed.crossbordMark g s)
  else
    let s' := { s with stByteSize := stSize }
    let new : Segment := ⟨g.nextPtr s', stNewSegSize - g.stHeader⟩
    let h := { h with segments := left ++ s' :: new :: right }
    let h := h.setMagic g new.addr
    let h := { h with ulSegmentCounter := h.ulSegmentCounter + 1 }
    let h := h.crossbordMark g new
    let (h, _) ← h.heapFree g (some (g.dataPtr new)) false
    some (h.updataMaxUsed.crossbordMark g s')

/-- `_HeapRealloc` takes the free segment to the right of the segment into it, if this gives room
enough. -/
def growRight (psegment stSize : ℕ) : Option (Option Heap) := do
  let (left, s, right) ← splitSegs psegment h.segments
  match right with
  | [] => some none
  | psegmentRight :: right =>
    if ¬ h.isUsed psegmentRight.addr ∧ g.nextPtr s = psegmentRight.addr ∧
        stSize - s.stByteSize ≤ psegmentRight.stByteSize + g.stHeader then
      let h := h.listRingDel psegmentRight.addr
      let s' := { s with stByteSize := s.stByteSize + (psegmentRight.stByteSize + g.stHeader) }
      some <| some
        { h with
          segments := left ++ s' :: right
          ulSegmentCounter := h.ulSegmentCounter - 1
          stUsedByteSize := h.stUsedByteSize + psegmentRight.stByteSize
          stFreeByteSize := h.stFreeByteSize - psegmentRight.stByteSize }
    else some none

/-- `_HeapRealloc` moves a block to a new segment. The size of the copy is an `UINT`. -/
def moveBlock (s : Segment) (stSize : ℕ) : Option (Heap × Option ℕ) := do
  let (h, pvStartAddress) ← h.heapAllocate g stSize
  match pvStartAddress with
  | none => some (h.updataMaxUsed, none)
  | some p =>
    let h := h.memcpy g p (g.dataPtr s) (s.stByteSize % 2 ^ 32)
    let (h, _) ← h.heapFree g (some (g.dataPtr s)) false
    some (h.updataMaxUsed, some p)

/-- `_HeapRealloc` from the segment on. -/
def reallocSeg (psegment pvStartAddress stNewByteSize : ℕ) : Option (Heap × Option ℕ) := do
  let stSize := g.segSize stNewByteSize
  let (_, s, _) ← splitSegs psegment h.segments
  if pvStartAddress ≠ g.dataPtr s then some (h, none)
  else if stSize = s.stByteSize then some (h, some pvStartAddress)
  else if s.stByteSize < stSize then
    match ← h.growRight g psegment stSize with
    | none => h.moveBlock g s stSize
    | some h => (h.splitSegment g psegment stSize).map fun h => (h, some pvStartAddress)
  else (h.splitSegment g psegment stSize).map fun h => (h, some pvStartAddress)

/-- `_HeapRealloc`. -/
def heapRealloc (pvStartAddress : Option ℕ) (stNewByteSize : ℕ) (bIsNeedVerify : Bool) :
    Option (Heap × Option ℕ) :=
  if stNewByteSize = 0 then
    match pvStartAddress with
    | none => some (h, none)
    | some p => h.heapFree g (some p) bIsNeedVerify
  else
    match pvStartAddress with
    | none => h.heapAllocate g stNewByteSize
    | some p =>
      match h.segOf g p bIsNeedVerify with
      | none => some (h, none)
      | some psegment => h.reallocSeg g psegment p stNewByteSize

end Heap

end SylixOS.Kernel
