import SylixOS.Kernel.HeapSafe
import Mathlib.Order.Interval.Finset.Nat

/-! # Sizes near the top of the address space

The heap's functions once more, with the sizes and addresses in the machine's arithmetic, where
a sum of two `size_t` may come out smaller than either. The memory of a heap lies in the address
space, so the sums wrap only for what is asked for: the size with the mark's word, the size rounded
up, and the size behind the bytes that are left out in front of an aligned address.
-/

namespace SylixOS.Kernel
open Lib

namespace HeapConf
variable (g : HeapConf)

/-- The number of values of a `size_t`. -/
def sizeMod : ℕ := 2 ^ (8 * g.stWord)

/-- The sum of two `size_t`. -/
def add (a b : ℕ) : ℕ := (a + b) % g.sizeMod

/-- The difference of two `size_t`. -/
def sub (a b : ℕ) : ℕ := (a + (g.sizeMod - b)) % g.sizeMod

/-- `__HEAP_SEGMENT_DATA_PTR`. -/
def dataPtrM (psegment : Segment) : ℕ := g.add psegment.addr g.stHeader

/-- `__heap_crossbord_size`. -/
def crossbordSizeM (stSize : ℕ) : ℕ :=
  if g.bHeapCrossBorderEn then g.add stSize g.stWord else stSize

/-- The size of the segment for a request: `ROUND_UP` of it. -/
def segSizeM (stByteSize : ℕ) : ℕ :=
  g.add (g.crossbordSizeM stByteSize) (g.stSegMinSize - 1) / g.stSegMinSize * g.stSegMinSize

/-- The size of the segment for a request does not wrap. -/
def Fits (stByteSize : ℕ) : Prop :=
  g.crossbordSize stByteSize + (g.stSegMinSize - 1) < g.sizeMod

end HeapConf

namespace Heap
variable (g : HeapConf) (h : Heap)

/-- The magic of a segment's header. -/
def setMagicM (psegment : ℕ) : Heap := h.setWord (g.add psegment g.stMagicOffset) segMagicReal

/-- `__heap_crossbord_mark`. -/
def crossbordMarkM (psegment : Segment) : Heap :=
  if g.bHeapCrossBorderEn then
    h.setWord (g.add (g.dataPtrM psegment) (g.sub psegment.stByteSize g.stWord)) 0xA5A54321
  else h

/-- A free segment is taken and cut to the size if enough is left over, as `_HeapAllocate` and
`_HeapAllocateAlign` do. -/
def takeSegM (psegment stSize : ℕ) : Option (Heap × Segment) := do
  let (left, s, right) ← splitSegs psegment h.segments
  let h := h.listRingDel psegment
  if g.stHeader + g.stSegMinSize < g.sub s.stByteSize stSize then
    let stNewSegSize := g.sub s.stByteSize stSize
    let s' := { s with stByteSize := stSize }
    let new : Segment := ⟨g.add (g.dataPtrM s') stSize, g.sub stNewSegSize g.stHeader⟩
    let h := { h with segments := left ++ s' :: new :: right }
    let h := (h.setMagicM g new.addr).addNewSegToFreelist new.addr
    some
      ({ h with
          ulSegmentCounter := h.ulSegmentCounter + 1
          stUsedByteSize := g.add h.stUsedByteSize (g.add stSize g.stHeader)
          stFreeByteSize := g.sub h.stFreeByteSize (g.add stSize g.stHeader) }, s')
  else
    some
      ({ h with
          stUsedByteSize := g.add h.stUsedByteSize s.stByteSize
          stFreeByteSize := g.sub h.stFreeByteSize s.stByteSize }, s)

/-- `_HeapAllocate`: the pointer, 0 for `LW_NULL`. -/
def heapAllocateM (stByteSize : ℕ) : Option (Heap × ℕ) :=
  let stSize := g.segSizeM stByteSize
  if h.stFreeByteSize < stSize then some (h, 0)
  else do
    match ← h.firstFit (fun s => stSize ≤ s.stByteSize) h.freeSegment with
    | none => some (h, 0)
    | some s =>
      let (h, s) ← h.takeSegM g s.addr stSize
      some (h.updataMaxUsed.crossbordMarkM g s, g.dataPtrM s)

/-- `pcAlign` of `_HeapAllocateAlign`. -/
def alignPtrM (stAlign : ℕ) (psegment : Segment) : ℕ :=
  if g.dataPtrM psegment &&& (stAlign - 1) = 0 then g.dataPtrM psegment
  else g.add (g.dataPtrM psegment ||| (stAlign - 1)) 1

/-- `stAddedSize` of `_HeapAllocateAlign`. -/
def addedSizeM (stAlign : ℕ) (psegment : Segment) : ℕ :=
  g.sub (alignPtrM g stAlign psegment) (g.dataPtrM psegment)

/-- `_HeapAllocateAlign` splits the part in front of the aligned data off the segment. -/
def splitLeftM (psegment stAddedSize : ℕ) : Option (Heap × ℕ) := do
  let (left, s, right) ← splitSegs psegment h.segments
  let new : Segment :=
    ⟨g.sub (g.add (g.dataPtrM s) stAddedSize) g.stHeader, g.sub s.stByteSize stAddedSize⟩
  let s' := { s with stByteSize := g.sub stAddedSize g.stHeader }
  let h := { h with segments := left ++ s' :: new :: right }
  let h := (h.setMagicM g new.addr).addNewSegToFreelist new.addr
  some
    ({ h with
        ulSegmentCounter := h.ulSegmentCounter + 1
        stUsedByteSize := g.add h.stUsedByteSize g.stHeader
        stFreeByteSize := g.sub h.stFreeByteSize g.stHeader }, new.addr)

/-- What `_HeapAllocateAlign` leaves in front of an aligned pointer in the midst of a segment. -/
def setLeftM (psegment pcAlign : ℕ) : Heap :=
  let pstLeft := g.sub pcAlign g.stWord
  let pstMagic := g.add (g.sub pcAlign g.stHeader) g.stMagicOffset
  let h := h.setWord pstLeft psegment
  if pstLeft ≠ pstMagic then h.setWord pstMagic g.segMagicFake else h

/-- The test of `_HeapAllocateAlign` whether a segment is large enough. -/
def fitsAlignM (stSize stAlign : ℕ) (psegment : Segment) : Bool :=
  g.add stSize (addedSizeM g stAlign psegment) ≤ psegment.stByteSize

/-- `_HeapAllocateAlign`: the pointer, 0 for `LW_NULL`. -/
def heapAllocateAlignM (stByteSize stAlign : ℕ) : Option (Heap × ℕ) :=
  let stSize := g.segSizeM stByteSize
  if h.stFreeByteSize < stSize then some (h, 0)
  else do
    match ← h.firstFit (fitsAlignM g stSize stAlign) h.freeSegment with
    | none => some (h, 0)
    | some s =>
      let pcAlign := alignPtrM g stAlign s
      let stAddedSize := addedSizeM g stAlign s
      if g.stHeader + g.stSegMinSize ≤ stAddedSize then
        let (h, psegment) ← h.splitLeftM g s.addr stAddedSize
        let (h, s) ← h.takeSegM g psegment stSize
        some (h.updataMaxUsed.crossbordMarkM g s, pcAlign)
      else
        let (h, s) ← h.takeSegM g s.addr (g.add stSize stAddedSize)
        let h := if stAddedSize = 0 then h else h.setLeftM g s.addr pcAlign
        some (h.updataMaxUsed.crossbordMarkM g s, pcAlign)

end Heap

/-- The heap represents aligned ranges in the address space, none of them at `LW_NULL`. -/
structure InSpace (g : HeapConf) (s : Heap) (bs : List Chunk) : Prop extends Rep g s bs where
  aligned : ∀ x ∈ bs, g.ulAlignment ∣ x.addr
  ne_null : ∀ x ∈ bs, 0 < x.addr
  stop_lt : ∀ x ∈ bs, x.stop < g.sizeMod

/-- The bytes from a pointer on are data of a free segment before the call, and of a segment in use
after it. -/
structure Granted (g : HeapConf) (s s' : Heap) (p n : ℕ) : Prop where
  before : ∃ u ∈ s.segments, u.addr ∈ s.freeSegment ∧ g.dataPtr u ≤ p ∧ p + n ≤ g.nextPtr u
  after : ∃ u ∈ s'.segments, s'.isUsed u.addr = true ∧ g.dataPtr u ≤ p ∧ p + n ≤ g.nextPtr u

variable {g : HeapConf} {s s' : Heap} {bs l r : List Chunk} {u : Segment} {a b k n p stAlign : ℕ}

/-! ## The machine's arithmetic -/

namespace HeapConf

theorem add_of_lt (h : a + b < g.sizeMod) : g.add a b = a + b := Nat.mod_eq_of_lt h

theorem sub_of_le (hle : b ≤ a) (ha : a < g.sizeMod) : g.sub a b = a - b := by
  have heq : a + (g.sizeMod - b) = a - b + g.sizeMod := by omega
  rw [sub, heq, Nat.add_mod_right, Nat.mod_eq_of_lt (by omega)]

theorem segSizeM_eq (h : g.Fits n) : g.segSizeM n = g.segSize n := by
  have hle := le_crossbordSize (g := g) (n := n)
  unfold Fits at h
  have hcross : g.crossbordSizeM n = g.crossbordSize n := by
    unfold crossbordSizeM crossbordSize
    split_ifs with hb
    · rw [crossbordSize, if_pos hb] at h
      exact add_of_lt (by omega)
    · rfl
  rw [segSizeM, hcross, add_of_lt h, segSize, roundUp]

end HeapConf

/-! ## A heap in the address space -/

/-- A range leaves the address 0 free, so the sizes of all of them together do not wrap. -/
theorem InSpace.total_lt (h : InSpace g s bs) : s.stTotalByteSize < g.sizeMod := by
  have hsub : (cover bs).toFinset ⊆ Finset.Ico 1 g.sizeMod := fun c hc => by
    obtain ⟨x, hx, hlo, hhi⟩ := mem_cover.mp (List.mem_toFinset.mp hc)
    have hpos := h.ne_null x hx
    have hstop := h.stop_lt x hx
    exact Finset.mem_Ico.mpr ⟨by omega, by omega⟩
  have hcard := Finset.card_le_card hsub
  rw [List.toFinset_card_of_nodup h.nodup, length_cover, Nat.card_Ico, ← h.total] at hcard
  have hmod : 0 < g.sizeMod := Nat.two_pow_pos _
  omega

theorem InSpace.used_add_free (h : InSpace g s bs) :
    s.stUsedByteSize + s.stFreeByteSize < g.sizeMod := by
  rw [h.used, h.free, usedOf_add_freeOf fun x hx => h.header_le hx, ← h.total]
  exact h.total_lt

/-- The data of a free range is in the address space and counted as free. -/
theorem InSpace.free_range (h : InSpace g s (l ++ ⟨a, g.stHeader + k, true⟩ :: r)) :
    0 < a ∧ a + g.stHeader + k < g.sizeMod ∧ k ≤ s.stFreeByteSize := by
  have hmem : (⟨a, g.stHeader + k, true⟩ : Chunk) ∈ l ++ ⟨a, g.stHeader + k, true⟩ :: r := by simp
  have hstop : a + (g.stHeader + k) < g.sizeMod := h.stop_lt _ hmem
  refine ⟨h.ne_null _ hmem, by omega, ?_⟩
  rw [h.free, freeOf_append, freeOf_cons, if_pos rfl, Nat.add_sub_cancel_left]
  omega

theorem setMagicM_eq (h : a + g.stMagicOffset < g.sizeMod) : s.setMagicM g a = s.setMagic g a := by
  rw [Heap.setMagicM, Heap.setMagic, HeapConf.add_of_lt h]

theorem InSpace.takeSegM (h : InSpace g s (l ++ ⟨a, g.stHeader + k, true⟩ :: r)) (hk : n ≤ k) :
    s.takeSegM g a n = s.takeSeg g a n := by
  obtain ⟨left, right, hsplit, -, -, -⟩ := h.seg
  obtain ⟨-, hstop, hfree⟩ := h.free_range
  have hcount := h.used_add_free
  have hhead := g.header_pos
  have hmagic := g.magic_lt_header
  have hsub : g.sub k n = k - n := HeapConf.sub_of_le hk (by omega)
  unfold Heap.takeSegM Heap.takeSeg
  simp only [hsplit, Option.bind_eq_bind, Option.bind_some, hsub]
  split_ifs with hroom
  · have hdata : g.dataPtrM ⟨a, n⟩ = a + g.stHeader := HeapConf.add_of_lt (by simp only; omega)
    have hnew : g.add (a + g.stHeader) n = a + g.stHeader + n := HeapConf.add_of_lt (by omega)
    have hrest : g.sub (k - n) g.stHeader = k - n - g.stHeader :=
      HeapConf.sub_of_le (by omega) (by omega)
    have hsum : g.add n g.stHeader = n + g.stHeader := HeapConf.add_of_lt (by omega)
    have hused : g.add s.stUsedByteSize (n + g.stHeader) = s.stUsedByteSize + (n + g.stHeader) :=
      HeapConf.add_of_lt (by omega)
    have hleft : g.sub s.stFreeByteSize (n + g.stHeader) = s.stFreeByteSize - (n + g.stHeader) :=
      HeapConf.sub_of_le (by omega) (by omega)
    have hset : (({ s.listRingDel a with segments := left ++ ⟨a, n⟩ ::
        ⟨a + g.stHeader + n, k - n - g.stHeader⟩ :: right } : Heap).setMagicM g
          (a + g.stHeader + n)) = _ := setMagicM_eq (by omega)
    simp only [hdata, hnew, hrest, hsum, HeapConf.nextPtr, HeapConf.dataPtr, hset]
    obtain ⟨ring, heq, -⟩ := addNewSegToFreelist_eq
      (({ s.listRingDel a with segments := left ++ ⟨a, n⟩ ::
          ⟨a + g.stHeader + n, k - n - g.stHeader⟩ :: right } : Heap).setMagic g
            (a + g.stHeader + n)) (a + g.stHeader + n)
    rw [heq]
    simp only [Heap.setMagic, Heap.setWord, Heap.listRingDel, hused, hleft]
  · have hused : g.add s.stUsedByteSize k = s.stUsedByteSize + k := HeapConf.add_of_lt (by omega)
    have hleft : g.sub s.stFreeByteSize k = s.stFreeByteSize - k :=
      HeapConf.sub_of_le hfree (by omega)
    simp only [Heap.listRingDel, hused, hleft]

theorem InSpace.splitLeftM (h : InSpace g s (l ++ ⟨a, g.stHeader + k, true⟩ :: r))
    (hlo : g.stHeader ≤ n) (hhi : n ≤ k) : s.splitLeftM g a n = s.splitLeft g a n := by
  obtain ⟨left, right, hsplit, -, -, -⟩ := h.seg
  obtain ⟨-, hstop, hfree⟩ := h.free_range
  have hcount := h.used_add_free
  have hhead := g.header_pos
  have hmagic := g.magic_lt_header
  have hword := g.word_pos
  have hdata : g.dataPtrM ⟨a, k⟩ = a + g.stHeader := HeapConf.add_of_lt (by simp only; omega)
  have hlen : g.sub k n = k - n := HeapConf.sub_of_le hhi (by omega)
  have hpart : g.sub n g.stHeader = n - g.stHeader := HeapConf.sub_of_le hlo (by omega)
  have hnew : g.sub (g.add (a + g.stHeader) n) g.stHeader = a + g.stHeader + n - g.stHeader := by
    rw [HeapConf.add_of_lt (by omega), HeapConf.sub_of_le (by omega) (by omega)]
  have hused : g.add s.stUsedByteSize g.stHeader = s.stUsedByteSize + g.stHeader :=
    HeapConf.add_of_lt (by omega)
  have hleft : g.sub s.stFreeByteSize g.stHeader = s.stFreeByteSize - g.stHeader :=
    HeapConf.sub_of_le (by omega) (by omega)
  have hat : a + g.stHeader + n - g.stHeader + g.stMagicOffset < g.sizeMod := by omega
  have hset : (({ s with segments := left ++ ⟨a, n - g.stHeader⟩ ::
      ⟨a + g.stHeader + n - g.stHeader, k - n⟩ :: right } : Heap).setMagicM g
        (a + g.stHeader + n - g.stHeader)) = _ := setMagicM_eq hat
  obtain ⟨ring, heq, -⟩ := addNewSegToFreelist_eq
    (({ s with segments := left ++ ⟨a, n - g.stHeader⟩ ::
        ⟨a + g.stHeader + n - g.stHeader, k - n⟩ :: right } : Heap).setMagic g
          (a + g.stHeader + n - g.stHeader)) (a + g.stHeader + n - g.stHeader)
  unfold Heap.splitLeftM Heap.splitLeft
  simp only [hsplit, Option.bind_eq_bind, Option.bind_some, hdata, hlen, hpart, hnew, hset,
    HeapConf.dataPtr]
  rw [heq]
  simp only [Heap.setMagic, Heap.setWord, hused, hleft]

theorem setLeftM_eq (hlo : g.stHeader ≤ p) (hhi : p < g.sizeMod) :
    s.setLeftM g a p = s.setLeft g a p := by
  have hmagic := g.magic_lt_header
  have hword := g.word_pos
  have hleft : g.sub p g.stWord = p - g.stWord :=
    HeapConf.sub_of_le (by rw [HeapConf.stMagicOffset] at hmagic; omega) hhi
  have hfake : g.sub p g.stHeader = p - g.stHeader := HeapConf.sub_of_le hlo hhi
  have hat : g.add (p - g.stHeader) g.stMagicOffset = p - g.stHeader + g.stMagicOffset :=
    HeapConf.add_of_lt (by omega)
  unfold Heap.setLeftM Heap.setLeft
  simp only [hleft, hfake, hat]

theorem crossbordMarkM_eq (hroom : g.bHeapCrossBorderEn = true → g.stWord ≤ u.stByteSize)
    (hhi : g.nextPtr u < g.sizeMod) : s.crossbordMarkM g u = s.crossbordMark g u := by
  unfold Heap.crossbordMarkM Heap.crossbordMark
  split_ifs with hb
  · have hle := hroom hb
    have hword := g.word_pos
    have hhead := g.header_pos
    rw [HeapConf.nextPtr, HeapConf.dataPtr] at hhi
    have hdata : g.dataPtrM u = g.dataPtr u := HeapConf.add_of_lt (by omega)
    have hsub : g.sub u.stByteSize g.stWord = u.stByteSize - g.stWord :=
      HeapConf.sub_of_le hle (by omega)
    rw [hdata, hsub, HeapConf.add_of_lt (by rw [HeapConf.dataPtr]; omega)]
  · rfl

/-! ## Aligned addresses -/

theorem alignPtr_le (hpow : stAlign.isPowerOfTwo) (halign : stAlign < g.sizeMod)
    (hu : g.dataPtr u < g.sizeMod) :
    g.dataPtr u ≤ Heap.alignPtr g stAlign u ∧ Heap.alignPtr g stAlign u ≤ g.sizeMod := by
  unfold Heap.alignPtr
  split_ifs with hmask
  · omega
  · have hpos : 0 < stAlign := Nat.pos_of_isPowerOfTwo hpow
    have hle : g.dataPtr u ≤ g.dataPtr u ||| (stAlign - 1) := Nat.left_le_or
    have hlt : g.dataPtr u ||| (stAlign - 1) < g.sizeMod :=
      Nat.or_lt_two_pow hu (Nat.lt_of_le_of_lt (Nat.sub_le _ _) halign)
    omega

theorem dvd_alignPtr (hpow : stAlign.isPowerOfTwo) : stAlign ∣ Heap.alignPtr g stAlign u := by
  obtain ⟨j, rfl⟩ := hpow
  unfold Heap.alignPtr
  rw [Nat.and_two_pow_sub_one_eq_mod]
  split_ifs with hmod
  · exact Nat.dvd_of_mod_eq_zero hmod
  · rw [or_mask_add_one]
    exact Nat.dvd_mul_left _ _

theorem dataPtrM_eq (hu : g.dataPtr u < g.sizeMod) : g.dataPtrM u = g.dataPtr u :=
  HeapConf.add_of_lt hu

theorem alignPtrM_eq (hu : g.dataPtr u < g.sizeMod)
    (hlt : Heap.alignPtr g stAlign u < g.sizeMod) :
    Heap.alignPtrM g stAlign u = Heap.alignPtr g stAlign u := by
  unfold Heap.alignPtrM
  unfold Heap.alignPtr at hlt ⊢
  rw [dataPtrM_eq hu]
  split_ifs at hlt ⊢ with hmask
  · rfl
  · exact HeapConf.add_of_lt hlt

/-- Behind the last address comes `LW_NULL`. -/
theorem alignPtrM_wrap (hu : g.dataPtr u < g.sizeMod)
    (heq : Heap.alignPtr g stAlign u = g.sizeMod) : Heap.alignPtrM g stAlign u = 0 := by
  unfold Heap.alignPtrM
  unfold Heap.alignPtr at heq
  rw [dataPtrM_eq hu]
  split_ifs at heq ⊢ with hmask
  · omega
  · rw [HeapConf.add, heq, Nat.mod_self]

theorem addedSizeM_eq (hpow : stAlign.isPowerOfTwo) (halign : stAlign < g.sizeMod)
    (hu : g.dataPtr u < g.sizeMod) (hlt : Heap.alignPtr g stAlign u < g.sizeMod) :
    Heap.addedSizeM g stAlign u = Heap.addedSize g stAlign u := by
  have hle := (alignPtr_le hpow halign hu).1
  rw [Heap.addedSizeM, alignPtrM_eq hu hlt, dataPtrM_eq hu, HeapConf.sub_of_le hle hlt,
    Heap.addedSize]

/-- A segment that is large enough passes the machine's test, and one that passes it is large enough
unless the sum wraps. -/
theorem fitsAlignM_eq (hpow : stAlign.isPowerOfTwo) (halign : stAlign < g.sizeMod)
    (hu : g.nextPtr u < g.sizeMod) (hlt : Heap.alignPtr g stAlign u < g.sizeMod)
    (hsum : n + Heap.addedSize g stAlign u < g.sizeMod) :
    Heap.fitsAlignM g n stAlign u = decide (n + Heap.addedSize g stAlign u ≤ u.stByteSize) := by
  have hdata : g.dataPtr u < g.sizeMod := by
    rw [HeapConf.nextPtr] at hu
    omega
  rw [Heap.fitsAlignM, addedSizeM_eq hpow halign hdata hlt, HeapConf.add_of_lt hsum]

/-! ## Searching the ring -/

variable {ring : List ℕ} {fits fits' : Segment → Bool} {o : Option Segment}

theorem Rep.segment {f : Bool} (h : Rep g s bs) (hx : ⟨a, g.stHeader + k, f⟩ ∈ bs) :
    ⟨a, k⟩ ∈ s.segments ∧ s.isUsed a = !f := by
  obtain ⟨l, r, rfl⟩ := List.append_of_mem hx
  obtain ⟨left, right, -, hseg, -, -⟩ := h.seg
  exact ⟨by simp [hseg], h.isUsed⟩

/-- If a segment in the ring fits, then one is found. -/
theorem Rep.firstFit_of (h : Rep g s bs) (fits : Segment → Bool)
    (hsub : ∀ a ∈ ring, a ∈ s.freeSegment) (hu : u ∈ s.segments) (hring : u.addr ∈ ring)
    (hfit : fits u = true) :
    ∃ v, s.firstFit fits ring = some (some v) := by
  induction ring with
  | nil => simp at hring
  | cons b ring ih =>
    obtain ⟨v, hv, rfl⟩ := h.ringMem b (hsub b (.head _))
    have haddr : u.addr = v.addr → u = v := List.inj_on_of_nodup_map h.addrs hu hv
    obtain ⟨l, r, rfl⟩ := h.free_mem hv (hsub v.addr (.head _))
    obtain ⟨left, right, hsplit, hseg, -, -⟩ := h.seg
    simp only [Heap.firstFit, hsplit, Option.bind_eq_bind, Option.bind_some]
    split_ifs with hvfit
    · exact ⟨_, rfl⟩
    · rcases List.mem_cons.mp hring with heq | hmem
      · exact absurd (haddr heq ▸ hfit) hvfit
      · exact ih (fun c hc => hsub c (.tail _ hc)) hmem

/-- The first segment that passes one test is the first one that passes another, if it passes both
and the other one is stronger. -/
theorem firstFit_mono (himp : ∀ v ∈ s.segments, fits v = true → fits' v = true)
    (ho : s.firstFit fits' ring = some o) (hfit : ∀ v, o = some v → fits v = true) :
    s.firstFit fits ring = some o := by
  induction ring with
  | nil => exact ho
  | cons b ring ih =>
    simp only [Heap.firstFit, Option.bind_eq_bind] at ho ⊢
    cases hsplit : splitSegs b s.segments with
    | none => simp [hsplit] at ho
    | some x =>
      obtain ⟨left, v, right⟩ := x
      obtain ⟨hseg, -⟩ := splitSegs_some hsplit
      simp only [hsplit, Option.bind_some] at ho ⊢
      by_cases hv : fits' v = true
      · rw [if_pos hv, Option.some.injEq] at ho
        rw [if_pos (hfit v ho.symm), ho]
      · rw [if_neg hv] at ho
        rw [if_neg fun hf => hv (himp v (by simp [hseg]) hf)]
        exact ih ho

/-! ## The calls -/

theorem splitSegs_of_mem {segments : List Segment} (h : ∃ u ∈ segments, u.addr = a) :
    ∃ x, splitSegs a segments = some x := by
  induction segments with
  | nil => simp at h
  | cons v segments ih =>
    by_cases hv : v.addr = a
    · exact ⟨_, by rw [splitSegs, if_pos hv]⟩
    · obtain ⟨u, hu, hua⟩ := h
      rcases List.mem_cons.mp hu with rfl | hu
      · exact absurd hua hv
      · obtain ⟨⟨l, w, r⟩, hx⟩ := ih ⟨u, hu, hua⟩
        exact ⟨(v :: l, w, r), by rw [splitSegs, if_neg hv, hx, Option.map_some]⟩

theorem takeSegM_some (h : ∃ u ∈ s.segments, u.addr = a) : ∃ s' v,
    s.takeSegM g a n = some (s', v) ∧ v.addr = a := by
  obtain ⟨⟨left, u, right⟩, hsplit⟩ := splitSegs_of_mem h
  obtain ⟨-, haddr⟩ := splitSegs_some hsplit
  unfold Heap.takeSegM
  simp only [hsplit, Option.bind_eq_bind, Option.bind_some]
  split_ifs
  · exact ⟨_, _, rfl, haddr⟩
  · exact ⟨_, _, rfl, haddr⟩

theorem splitLeftM_some (h : ∃ u ∈ s.segments, u.addr = a) : ∃ s' b,
    s.splitLeftM g a n = some (s', b) ∧ ∃ u ∈ s'.segments, u.addr = b := by
  obtain ⟨⟨left, u, right⟩, hsplit⟩ := splitSegs_of_mem h
  unfold Heap.splitLeftM
  simp only [hsplit, Option.bind_eq_bind, Option.bind_some]
  refine ⟨_, _, rfl, ?_⟩
  obtain ⟨ring, heq, -⟩ := addNewSegToFreelist_eq
    (Heap.setMagicM g
      { s with segments := left ++ ⟨u.addr, g.sub n g.stHeader⟩ ::
          ⟨g.sub (g.add (g.dataPtrM u) n) g.stHeader, g.sub u.stByteSize n⟩ :: right }
      (g.sub (g.add (g.dataPtrM u) n) g.stHeader)) (g.sub (g.add (g.dataPtrM u) n) g.stHeader)
  rw [heq]
  exact ⟨⟨g.sub (g.add (g.dataPtrM u) n) g.stHeader, g.sub u.stByteSize n⟩,
    by simp [Heap.setMagicM, Heap.setWord], rfl⟩

/-- `_HeapAllocate` gives the data of the first segment that fits. -/
theorem heapAllocateM_ptr (hu : u ∈ s.segments) (hfree : ¬ s.stFreeByteSize < g.segSizeM n)
    (ho : s.firstFit (fun v => decide (g.segSizeM n ≤ v.stByteSize)) s.freeSegment =
      some (some u)) :
    ∃ s', s.heapAllocateM g n = some (s', g.dataPtrM u) := by
  obtain ⟨s₁, v, htake, haddr⟩ := takeSegM_some (g := g) (n := g.segSizeM n) ⟨u, hu, rfl⟩
  have hptr : g.dataPtrM v = g.dataPtrM u := by rw [HeapConf.dataPtrM, haddr, HeapConf.dataPtrM]
  unfold Heap.heapAllocateM
  simp only [if_neg hfree, ho, htake, hptr, Option.bind_eq_bind, Option.bind_some]
  exact ⟨_, rfl⟩

/-- `_HeapAllocateAlign` gives the aligned address of the first segment that passes its test. -/
theorem heapAllocateAlignM_ptr (hu : u ∈ s.segments)
    (hfree : ¬ s.stFreeByteSize < g.segSizeM n)
    (ho : s.firstFit (Heap.fitsAlignM g (g.segSizeM n) stAlign) s.freeSegment = some (some u)) :
    ∃ s', s.heapAllocateAlignM g n stAlign = some (s', Heap.alignPtrM g stAlign u) := by
  unfold Heap.heapAllocateAlignM
  simp only [if_neg hfree, ho, Option.bind_eq_bind, Option.bind_some]
  by_cases hleft : g.stHeader + g.stSegMinSize ≤ Heap.addedSizeM g stAlign u
  · obtain ⟨s₁, b, hsplit, hb⟩ := splitLeftM_some (g := g) (n := Heap.addedSizeM g stAlign u)
      ⟨u, hu, rfl⟩
    obtain ⟨s₂, v, htake, -⟩ := takeSegM_some (g := g) (n := g.segSizeM n) hb
    simp only [if_pos hleft, hsplit, htake, Option.bind_some]
    exact ⟨_, rfl⟩
  · obtain ⟨s₁, v, htake, -⟩ := takeSegM_some (g := g)
      (n := g.add (g.segSizeM n) (Heap.addedSizeM g stAlign u)) ⟨u, hu, rfl⟩
    simp only [if_neg hleft, htake, Option.bind_some]
    exact ⟨_, rfl⟩

/-- A segment is in the address space. -/
theorem InSpace.seg_lt (h : InSpace g s bs) (hu : u ∈ s.segments) :
    g.dataPtr u < g.sizeMod ∧ g.nextPtr u < g.sizeMod := by
  have hmem : chunk g s.freeSegment u ∈ bs := by
    rw [← h.view]
    exact List.mem_map_of_mem hu
  have hstop : u.addr + (g.stHeader + u.stByteSize) < g.sizeMod := h.stop_lt _ hmem
  rw [HeapConf.nextPtr, HeapConf.dataPtr]
  omega

/-- The segment that is granted has room for the word behind its block, and its end does not wrap. -/
theorem Cut.marked {stSize m : ℕ} {rest : List Chunk} (h : Cut g a k stSize m rest) (hk : stSize ≤ k)
    (hn : g.segSize n ≤ stSize) (hstop : a + g.stHeader + k < g.sizeMod) :
    (g.bHeapCrossBorderEn = true → g.stWord ≤ m) ∧ g.nextPtr ⟨a, m⟩ < g.sizeMod := by
  have hm := h.m_le
  refine ⟨fun hb => (HeapConf.word_le_segSize hb).trans (hn.trans (h.le hk)), ?_⟩
  simp only [HeapConf.nextPtr, HeapConf.dataPtr]
  omega

/-- Nothing wraps in `_HeapAllocate`. -/
theorem InSpace.heapAllocateM (h : InSpace g s bs) (hfit : g.Fits n) :
    s.heapAllocateM g n = (s.heapAllocate g n).map fun (s', o) => (s', o.getD 0) := by
  obtain ⟨o, ho, hfound⟩ := h.firstFit (fun u => decide (g.segSize n ≤ u.stByteSize)) fun _ ha => ha
  unfold Heap.heapAllocateM Heap.heapAllocate
  simp only [HeapConf.segSizeM_eq hfit, ho, Option.bind_eq_bind, Option.bind_some]
  split_ifs with hlt
  · rfl
  · cases o with
    | none => rfl
    | some u =>
      obtain ⟨hu, hring, hle⟩ := hfound u rfl
      rw [decide_eq_true_iff] at hle
      obtain ⟨l, r, rfl⟩ := h.free_mem hu hring
      obtain ⟨s₁, m, rest, htake, hcut, -, -⟩ := h.takeSeg hle
      obtain ⟨-, hstop, -⟩ := h.free_range
      obtain ⟨hroom, hnext⟩ := hcut.marked hle le_rfl hstop
      have hptr : g.dataPtrM ⟨u.addr, m⟩ = g.dataPtr ⟨u.addr, m⟩ :=
        dataPtrM_eq (Nat.lt_of_le_of_lt (Nat.le_add_right _ _) hnext)
      have hmark : s₁.updataMaxUsed.crossbordMarkM g ⟨u.addr, m⟩ = _ :=
        crossbordMarkM_eq hroom hnext
      simp only [h.takeSegM hle, htake, hptr, hmark, Option.bind_some, Option.map_some,
        Option.getD_some]

/-- The first segment that passes the machine's test is the first one that is large enough, unless
the sum wraps there. -/
theorem InSpace.firstFit_align (h : InSpace g s bs) (hfit : g.Fits n)
    (hpow : stAlign.isPowerOfTwo) (halign : stAlign < g.sizeMod) (hu : u ∈ s.segments)
    (hlt : Heap.alignPtr g stAlign u < g.sizeMod)
    (hsum : g.segSize n + Heap.addedSize g stAlign u < g.sizeMod) (hpass :
      Heap.fitsAlignM g (g.segSizeM n) stAlign u = true)
    (ho : s.firstFit (Heap.fitsAlignM g (g.segSizeM n) stAlign) s.freeSegment = some (some u)) :
    s.firstFit (fun v => decide (g.segSize n + Heap.addedSize g stAlign v ≤ v.stByteSize))
      s.freeSegment = some (some u) := by
  rw [HeapConf.segSizeM_eq hfit] at ho hpass
  refine firstFit_mono (fun v hv hle => ?_) ho fun v hv => ?_
  · rw [decide_eq_true_iff] at hle
    obtain ⟨hdata, hnext⟩ := h.seg_lt hv
    have hbase := (alignPtr_le hpow halign hdata).1
    have hadd : Heap.addedSize g stAlign v = Heap.alignPtr g stAlign v - g.dataPtr v := rfl
    have hend : g.dataPtr v + v.stByteSize < g.sizeMod := hnext
    rw [fitsAlignM_eq hpow halign hnext (by omega) (by omega)]
    exact decide_eq_true hle
  · rw [Option.some.injEq] at hv
    rwa [← hv, ← fitsAlignM_eq hpow halign (h.seg_lt hu).2 hlt hsum]

/-- The parts of a free range are in the address space. -/
theorem InSpace.split (h : InSpace g s (l ++ ⟨a, g.stHeader + k, true⟩ :: r)) (hn : n ≤ k)
    (hdvd : g.ulAlignment ∣ n)
    (hrep : Rep g s' (l ++ [⟨a, n, true⟩] ++ ⟨a + n, g.stHeader + (k - n), true⟩ :: r)) :
    InSpace g s' (l ++ [⟨a, n, true⟩] ++ ⟨a + n, g.stHeader + (k - n), true⟩ :: r) := by
  obtain ⟨hpos, hstop, -⟩ := h.free_range
  have ha : g.ulAlignment ∣ a := h.aligned ⟨a, g.stHeader + k, true⟩ (by simp)
  have hcases {x : Chunk}
      (hx : x ∈ l ++ [⟨a, n, true⟩] ++ ⟨a + n, g.stHeader + (k - n), true⟩ :: r) :
      x = ⟨a, n, true⟩ ∨ x = ⟨a + n, g.stHeader + (k - n), true⟩ ∨
        x ∈ l ++ ⟨a, g.stHeader + k, true⟩ :: r := by
    simp only [List.mem_append, List.mem_cons] at hx ⊢
    tauto
  refine ⟨hrep, fun x hx => ?_, fun x hx => ?_, fun x hx => ?_⟩
  · rcases hcases hx with rfl | rfl | hx
    · exact ha
    · exact Nat.dvd_add ha hdvd
    · exact h.aligned x hx
  · rcases hcases hx with rfl | rfl | hx
    · exact hpos
    · exact Nat.add_pos_left hpos _
    · exact h.ne_null x hx
  · rcases hcases hx with rfl | rfl | hx
    · simp only [Chunk.stop]
      omega
    · simp only [Chunk.stop]
      omega
    · exact h.stop_lt x hx

/-- Nothing wraps in `_HeapAllocateAlign`. -/
theorem InSpace.heapAllocateAlignM (h : InSpace g s bs) (hfit : g.Fits n)
    (hpow : stAlign.isPowerOfTwo) (halign : stAlign < g.sizeMod)
    (hu : u ∈ s.segments) (hring : u.addr ∈ s.freeSegment)
    (hpass : Heap.fitsAlignM g (g.segSizeM n) stAlign u = true)
    (hlt : Heap.alignPtr g stAlign u < g.sizeMod)
    (hsum : g.segSize n + Heap.addedSize g stAlign u < g.sizeMod)
    (ho : s.firstFit (Heap.fitsAlignM g (g.segSizeM n) stAlign) s.freeSegment = some (some u)) :
    s.heapAllocateAlignM g n stAlign =
      (s.heapAllocateAlign g n stAlign).map fun (s', o) => (s', (o.map Prod.fst).getD 0) := by
  have ho' := h.firstFit_align hfit hpow halign hu hlt hsum hpass ho
  obtain ⟨hdata, hnext⟩ := h.seg_lt hu
  rw [HeapConf.segSizeM_eq hfit] at ho
  rw [HeapConf.segSizeM_eq hfit, fitsAlignM_eq hpow halign hnext hlt hsum,
    decide_eq_true_iff] at hpass
  obtain ⟨l, r, rfl⟩ := h.free_mem hu hring
  obtain ⟨-, hstop, -⟩ := h.free_range
  have ha : g.ulAlignment ∣ u.addr := h.aligned ⟨u.addr, g.stHeader + u.stByteSize, true⟩ (by simp)
  obtain ⟨hptr, hzero, hdvd⟩ := alignPtr_spec hpow (Nat.dvd_add ha g.alignment_dvd_header)
  have hptrM := alignPtrM_eq hdata hlt
  have haddM := addedSizeM_eq hpow halign hdata hlt
  unfold Heap.heapAllocateAlignM Heap.heapAllocateAlign
  simp only [HeapConf.segSizeM_eq hfit, ho, ho', hptrM, haddM, Option.bind_eq_bind,
    Option.bind_some]
  generalize Heap.addedSize g stAlign u = j at *
  by_cases hfree : s.stFreeByteSize < g.segSize n
  · simp only [if_pos hfree, Option.map_some, Option.map_none, Option.getD_none]
  · by_cases hleft : g.stHeader + g.stSegMinSize ≤ j
    · obtain ⟨s₁, hsplit, hrep₁, -⟩ := h.splitLeft j (by omega) (by omega)
      rw [List.append_cons] at hrep₁
      have hle : g.segSize n ≤ u.stByteSize - j := by omega
      have h₁ := h.split (by omega) hdvd hrep₁
      have hsplitM := h.splitLeftM (n := j) (by omega) (by omega)
      obtain ⟨s₂, m, rest, htake, hcut, -, -⟩ := hrep₁.takeSeg hle
      obtain ⟨hroom, hend⟩ := hcut.marked hle le_rfl (by omega)
      have hmark : s₂.updataMaxUsed.crossbordMarkM g ⟨u.addr + j, m⟩ = _ :=
        crossbordMarkM_eq hroom hend
      simp only [if_neg hfree, if_pos hleft, hsplitM, hsplit, h₁.takeSegM hle, htake, hmark,
        Option.bind_some, Option.map_some, Option.getD_some]
    · obtain ⟨s₂, m, rest, htake, hcut, -, -⟩ := h.takeSeg hpass
      obtain ⟨hroom, hend⟩ := hcut.marked hpass (Nat.le_add_right _ _) hstop
      have hsize : g.add (g.segSize n) j = g.segSize n + j := HeapConf.add_of_lt hsum
      simp only [if_neg hfree, if_neg hleft, hsize, h.takeSegM hpass, htake, Option.bind_some,
        Option.map_some, Option.getD_some]
      by_cases hj : j = 0
      · have hmark : s₂.updataMaxUsed.crossbordMarkM g ⟨u.addr, m⟩ = _ :=
          crossbordMarkM_eq hroom hend
        simp only [if_pos hj, hmark]
      · have hlo : g.stHeader ≤ Heap.alignPtr g stAlign u := by
          rw [hptr, HeapConf.dataPtr]
          omega
        have hmark : (s₂.setLeft g u.addr (Heap.alignPtr g stAlign u)).updataMaxUsed.crossbordMarkM g
          ⟨u.addr, m⟩ = _ := crossbordMarkM_eq hroom hend
        simp only [if_neg hj, setLeftM_eq hlo hlt, hmark]

/-! ## Wholly inside one segment -/

/-- What is taken of a free range is granted. -/
theorem Taken.granted {bs' : List Chunk} {m : ℕ} (h : Rep g s bs) (h' : Rep g s' bs')
    (ht : Taken g bs bs' s s' n b m p) : Granted g s s' p n := by
  have hlo := ht.lo
  have hhi := ht.hi
  obtain ⟨l, r, a, k, lead, stSize, rest, rfl, rfl, hlead, -, hcut, -⟩ := ht.pieces
  have hm := hcut.m_le
  obtain ⟨hu, hused⟩ := h.segment (a := a) (k := k) (f := true) (by simp)
  obtain ⟨hv, hfree⟩ := h'.segment (a := b) (k := m) (f := false) (by simp)
  have hb : a ≤ b ∧ b ≤ a + k := by
    rcases hlead with ⟨-, rfl⟩ | ⟨j, -, rfl, -, hjk, -⟩
    · omega
    · omega
  refine ⟨⟨_, hu, by simpa [Heap.isUsed] using hused, ?_, ?_⟩, ⟨_, hv, hfree, hlo, hhi⟩⟩
  · simp only [HeapConf.dataPtr]
    omega
  · simp only [HeapConf.nextPtr, HeapConf.dataPtr]
    omega

theorem Taken.dvd {bs' : List Chunk} {m : ℕ} (ht : Taken g bs bs' s s' n b m p)
    (h : ∀ x ∈ bs, g.ulAlignment ∣ x.addr) : g.ulAlignment ∣ b := by
  obtain ⟨l, r, a, k, lead, stSize, rest, rfl, -, hlead, -⟩ := ht.pieces
  have ha : g.ulAlignment ∣ a := h ⟨a, g.stHeader + k, true⟩ (by simp)
  rcases hlead with ⟨-, rfl⟩ | ⟨j, -, rfl, -, -, hj⟩
  · exact ha
  · exact Nat.dvd_add ha hj

/-- Bytes that end below the top of the address space leave room for the header in front of them, so
their size does not wrap. -/
theorem fits_of_room {c : ℕ} (hconf : g.stWord + g.stSegMinSize ≤ g.stHeader)
    (h : g.dataPtr u + c + n < g.sizeMod) : g.Fits n ∧ g.segSize n + c < g.sizeMod := by
  have hmin := g.min_pos
  have hround := HeapConf.roundUp_lt (x := g.crossbordSize n) hmin
  have hcross : g.crossbordSize n ≤ n + g.stWord := by
    unfold HeapConf.crossbordSize
    split_ifs <;> omega
  rw [HeapConf.dataPtr] at h
  rw [HeapConf.Fits, HeapConf.segSize]
  omega

theorem Granted.lt (hg : Granted g s s' p n) (h : InSpace g s bs) : p + n < g.sizeMod := by
  obtain ⟨u, hu, -, -, hhi⟩ := hg.before
  exact Nat.lt_of_le_of_lt hhi (h.seg_lt hu).2

/-- A block of `_HeapAllocate` has the size that is asked for if and only if the size does not wrap,
or no free segment has room for what it wraps to. -/
theorem heapAllocateM_granted (h : InSpace g s bs)
    (hconf : g.stWord + g.stSegMinSize ≤ g.stHeader) :
    (∃ s' p, s.heapAllocateM g n = some (s', p) ∧
      (p ≠ 0 → Granted g s s' p n ∧ g.ulAlignment ∣ p)) ↔
    g.Fits n ∨ ∀ u ∈ s.segments, u.addr ∈ s.freeSegment → u.stByteSize < g.segSizeM n := by
  constructor
  · rintro ⟨s', p, hcall, hgrant⟩
    by_contra hno
    simp only [not_or, not_forall, not_lt] at hno
    obtain ⟨hfit, u, hu, hring, hle⟩ := hno
    obtain ⟨l, r, hbs⟩ := h.free_mem hu hring
    have hfree := (hbs ▸ h).free_range.2.2
    obtain ⟨v, ho⟩ := h.firstFit_of (fun v => decide (g.segSizeM n ≤ v.stByteSize))
      (fun _ ha => ha) hu hring (decide_eq_true hle)
    obtain ⟨o, ho', hfound⟩ := h.firstFit (fun v => decide (g.segSizeM n ≤ v.stByteSize))
      fun _ ha => ha
    obtain ⟨hv, -, -⟩ := hfound v (by rw [ho, Option.some.injEq] at ho'; exact ho'.symm)
    obtain ⟨s₁, hptr⟩ := heapAllocateM_ptr hv (by omega) ho
    obtain ⟨hdata, -⟩ := h.seg_lt hv
    rw [hcall, Option.some.injEq, Prod.mk.injEq, dataPtrM_eq hdata] at hptr
    obtain ⟨-, rfl⟩ := hptr
    have hpos : 0 < g.dataPtr v := Nat.add_pos_right _ g.header_pos
    have hlt := (hgrant hpos.ne').1.lt h
    exact hfit (fits_of_room (c := 0) hconf hlt).1
  · rintro (hfit | hno)
    · obtain ⟨s', o, hcall, hres⟩ := h.heapAllocate (n := n)
      rw [h.heapAllocateM hfit, hcall]
      rcases hres with ⟨rfl, rfl⟩ | ⟨b, m, bs', rfl, hrep, -, htaken⟩
      · exact ⟨_, _, rfl, fun hp => absurd rfl hp⟩
      · exact ⟨_, _, rfl, fun _ => ⟨htaken.granted h.toRep hrep,
          Nat.dvd_add (htaken.dvd h.aligned) g.alignment_dvd_header⟩⟩
    · obtain ⟨o, ho, hfound⟩ := h.firstFit (fun v => decide (g.segSizeM n ≤ v.stByteSize))
        fun _ ha => ha
      refine ⟨s, 0, ?_, fun hp => absurd rfl hp⟩
      cases o with
      | none =>
        unfold Heap.heapAllocateM
        simp only [ho, Option.bind_eq_bind, Option.bind_some, ite_self]
      | some u =>
        obtain ⟨hu, hring, hle⟩ := hfound u rfl
        have hlt := hno u hu hring
        rw [decide_eq_true_iff] at hle
        omega

/-- A block of `_HeapAllocateAlign` has the size that is asked for if and only if, where the machine's
test first passes, the size and the bytes left out in front do not wrap, or no address of the
alignment follows. -/
theorem heapAllocateAlignM_granted (h : InSpace g s bs)
    (hconf : g.stWord + g.stSegMinSize ≤ g.stHeader) (hpow : stAlign.isPowerOfTwo)
    (halign : stAlign < g.sizeMod) :
    (∃ s' p, s.heapAllocateAlignM g n stAlign = some (s', p) ∧
      (p ≠ 0 → Granted g s s' p n ∧ stAlign ∣ p)) ↔
    s.stFreeByteSize < g.segSizeM n ∨ ∀ u, s.firstFit (Heap.fitsAlignM g (g.segSizeM n) stAlign)
        s.freeSegment = some (some u) →
      Heap.alignPtr g stAlign u = g.sizeMod ∨
        g.Fits n ∧ g.segSize n + Heap.addedSize g stAlign u < g.sizeMod := by
  obtain ⟨o, ho, hfound⟩ := h.firstFit (Heap.fitsAlignM g (g.segSizeM n) stAlign) fun _ ha => ha
  constructor
  · rintro ⟨s', p, hcall, hgrant⟩
    by_contra hno
    simp only [not_or, not_forall] at hno
    obtain ⟨hfree, u, hu, hne, hwrap⟩ := hno
    obtain ⟨hmem, -, -⟩ := hfound u (by rw [hu, Option.some.injEq] at ho; exact ho.symm)
    obtain ⟨s₁, hptr⟩ := heapAllocateAlignM_ptr hmem hfree hu
    obtain ⟨hdata, -⟩ := h.seg_lt hmem
    obtain ⟨hle, hle'⟩ := alignPtr_le hpow halign hdata
    rw [hcall, Option.some.injEq, Prod.mk.injEq, alignPtrM_eq hdata (by omega)] at hptr
    obtain ⟨-, rfl⟩ := hptr
    have hpos : 0 < g.dataPtr u := Nat.add_pos_right _ g.header_pos
    have hlt := (hgrant (by omega)).1.lt h
    have hadd : Heap.addedSize g stAlign u = Heap.alignPtr g stAlign u - g.dataPtr u := rfl
    have hroom : g.dataPtr u + Heap.addedSize g stAlign u + n < g.sizeMod := by
      rw [hadd]
      omega
    exact hwrap (fits_of_room hconf hroom)
  · intro hcond
    by_cases hfree : s.stFreeByteSize < g.segSizeM n
    · refine ⟨s, 0, ?_, fun hp => absurd rfl hp⟩
      unfold Heap.heapAllocateAlignM
      simp only [if_pos hfree]
    cases o with
    | none =>
      refine ⟨s, 0, ?_, fun hp => absurd rfl hp⟩
      unfold Heap.heapAllocateAlignM
      simp only [ho, Option.bind_eq_bind, Option.bind_some, ite_self]
    | some u =>
      obtain ⟨hu, hring, hpass⟩ := hfound u rfl
      obtain ⟨hdata, -⟩ := h.seg_lt hu
      obtain ⟨s₁, hptr⟩ := heapAllocateAlignM_ptr hu hfree ho
      rcases hcond.resolve_left hfree u ho with heq | ⟨hfit, hsum⟩
      · exact ⟨s₁, 0, by rw [hptr, alignPtrM_wrap hdata heq], fun hp => absurd rfl hp⟩
      · obtain ⟨-, hle⟩ := alignPtr_le hpow halign hdata
        rcases Nat.eq_or_lt_of_le hle with heq | hlt
        · exact ⟨s₁, 0, by rw [hptr, alignPtrM_wrap hdata heq], fun hp => absurd rfl hp⟩
        · have hdvd : stAlign ∣ Heap.alignPtrM g stAlign u := by
            rw [alignPtrM_eq hdata hlt]
            exact dvd_alignPtr hpow
          refine ⟨s₁, _, hptr, fun hp => ⟨?_, hdvd⟩⟩
          rw [h.heapAllocateAlignM hfit hpow halign hu hring hpass hlt hsum ho] at hptr
          obtain ⟨s', o, hcall, hres⟩ := h.heapAllocateAlign (n := n) hpow h.aligned
          rw [hcall, Option.map_some, Option.some.injEq, Prod.mk.injEq] at hptr
          obtain ⟨rfl, hp'⟩ := hptr
          rcases hres with ⟨rfl, rfl⟩ | ⟨b, m, q, bs', rfl, hrep, htaken⟩
          · exact absurd hp'.symm hp
          · rw [← hp']
            exact htaken.granted h.toRep hrep

/-- A block of a heap, aligned or not, lies in one segment with the size that is asked for if and
only if no sum wraps. -/
theorem allocate_granted_iff (h : InSpace g s bs) (hconf : g.stWord + g.stSegMinSize ≤ g.stHeader)
    (hpow : stAlign.isPowerOfTwo) (halign : stAlign < g.sizeMod) :
    ((∃ s' p, s.heapAllocateM g n = some (s', p) ∧
      (p ≠ 0 → Granted g s s' p n ∧ g.ulAlignment ∣ p)) ↔
    g.Fits n ∨ ∀ u ∈ s.segments, u.addr ∈ s.freeSegment → u.stByteSize < g.segSizeM n) ∧
    ((∃ s' p, s.heapAllocateAlignM g n stAlign = some (s', p) ∧
      (p ≠ 0 → Granted g s s' p n ∧ stAlign ∣ p)) ↔
    s.stFreeByteSize < g.segSizeM n ∨ ∀ u, s.firstFit (Heap.fitsAlignM g (g.segSizeM n) stAlign)
        s.freeSegment = some (some u) →
      Heap.alignPtr g stAlign u = g.sizeMod ∨
        g.Fits n ∧ g.segSize n + Heap.addedSize g stAlign u < g.sizeMod) :=
  ⟨heapAllocateM_granted h hconf, heapAllocateAlignM_granted h hconf hpow halign⟩

/-! ## A request of all bytes -/

theorem onePage_inSpace : InSpace HeapSys.heap64 HeapSys.onePage.heap [⟨4096, 4096, true⟩] := by
  obtain ⟨bs, hinv⟩ := HeapSys.onePage_init.inv
  have hrep := hinv.rep
  have hbs : [⟨4096, 4096, true⟩] = bs := hrep.view
  rw [hbs]
  refine ⟨hrep, fun x hx => ?_, fun x hx => ?_, fun x hx => ?_⟩
  all_goals
    rw [← hbs, List.mem_singleton] at hx
    rw [hx]
    decide

theorem allocate_granted_onePage :
    (∃ s' p, HeapSys.onePage.heap.heapAllocateM HeapSys.heap64 100 = some (s', p) ∧
      (p ≠ 0 → Granted HeapSys.heap64 HeapSys.onePage.heap s' p 100 ∧ 16 ∣ p)) ∧
    ∃ s' p, HeapSys.onePage.heap.heapAllocateAlignM HeapSys.heap64 100 256 = some (s', p) ∧
      (p ≠ 0 → Granted HeapSys.heap64 HeapSys.onePage.heap s' p 100 ∧ 256 ∣ p) := by
  have hpow : Nat.isPowerOfTwo 256 := ⟨8, rfl⟩
  have hfit : HeapSys.heap64.Fits 100 := by
    rw [HeapConf.Fits]
    decide
  have hiff := allocate_granted_iff (n := 100) onePage_inSpace (by decide) hpow (by decide)
  refine ⟨hiff.1.mpr (.inl hfit), hiff.2.mpr (.inr fun u hu => .inr ⟨hfit, ?_⟩)⟩
  have heq : (⟨4096, 4048⟩ : Segment) = u := Option.some.inj (Option.some.inj hu)
  rw [← heq]
  decide

/-- A request of all bytes wraps to one of 7, and comes back with a segment of 16 bytes. -/
theorem heapAllocate_sizeMax : InSpace HeapSys.heap64 HeapSys.onePage.heap [⟨4096, 4096, true⟩] ∧
    ∃ s', HeapSys.onePage.heap.heapAllocateM HeapSys.heap64 (2 ^ 64 - 1) = some (s', 4144) ∧
      s'.segments = [⟨4096, 16⟩, ⟨4160, 3984⟩] ∧
      ¬ Granted HeapSys.heap64 HeapSys.onePage.heap s' 4144 (2 ^ 64 - 1) := by
  refine ⟨onePage_inSpace, _, rfl, rfl, fun hg => ?_⟩
  obtain ⟨u, hu, -, -, hhi⟩ := hg.before
  rw [List.mem_singleton.mp hu] at hhi
  revert hhi
  decide

end SylixOS.Kernel
