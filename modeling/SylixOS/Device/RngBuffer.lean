import Mathlib
import SylixOS.Pipe.RingBuffer
import SylixOS.Lib.Answers

/-! # The byte ring buffer

Two indices run around a buffer with one byte more than the ring can hold, so that they are equal only
when the ring is empty. A byte can also be stored ahead of the end, and the end is moved over such bytes
later.
-/

namespace SylixOS.Device
open Lib Lib.RingQueue Pipe Function

/-- `VX_RING`. -/
structure VxRing (β : Type*) where
  iToBuf : ℕ
  iFromBuf : ℕ
  iBufByteSize : ℕ
  pcBuf : ℕ → β

variable {β : Type*}

/-- `_rngCreate`, with what the memory holds. The size that is counted up is an `INT`. -/
def rngCreate (iNBytes : ℕ) (pcBuf : ℕ → β) : Option (VxRing β) :=
  if iNBytes + 1 < 2 ^ 31 then
    some { iToBuf := 0, iFromBuf := 0, iBufByteSize := iNBytes + 1, pcBuf }
  else none

namespace VxRing
variable (r : VxRing β)

/-- `_rngFlush`. -/
def rngFlush : VxRing β := { r with iToBuf := 0, iFromBuf := 0 }

/-- `_rngSizeGet`. -/
def rngSizeGet : ℕ := r.iBufByteSize - 1

/-- `_rngBufGet`, with the bytes that are read out. -/
def rngBufGet (iMaxBytes : ℕ) : VxRing β × List β :=
  if r.iFromBuf ≤ r.iToBuf then
    let iBytesGot := min iMaxBytes (r.iToBuf - r.iFromBuf)
    ({ r with iFromBuf := r.iFromBuf + iBytesGot }, copyOut r.pcBuf r.iFromBuf iBytesGot)
  else
    let iBytesGot := min iMaxBytes (r.iBufByteSize - r.iFromBuf)
    let iRngTemp := r.iFromBuf + iBytesGot
    if iRngTemp = r.iBufByteSize then
      let iBytes2 := min (iMaxBytes - iBytesGot) r.iToBuf
      ({ r with iFromBuf := iBytes2 },
        copyOut r.pcBuf r.iFromBuf iBytesGot ++ copyOut r.pcBuf 0 iBytes2)
    else ({ r with iFromBuf := iRngTemp }, copyOut r.pcBuf r.iFromBuf iBytesGot)

/-- `_rngBufPut`, with the number of bytes that are written. -/
def rngBufPut (pcBuffer : List β) : VxRing β × ℕ :=
  let iNBytes := pcBuffer.length
  if r.iToBuf < r.iFromBuf then
    let iBytesPut := min iNBytes (r.iFromBuf - r.iToBuf - 1)
    ({ r with
        pcBuf := copyIn r.pcBuf r.iToBuf (pcBuffer.take iBytesPut)
        iToBuf := r.iToBuf + iBytesPut },
      iBytesPut)
  else if r.iFromBuf = 0 then
    let iBytesPut := min iNBytes (r.iBufByteSize - r.iToBuf - 1)
    ({ r with
        pcBuf := copyIn r.pcBuf r.iToBuf (pcBuffer.take iBytesPut)
        iToBuf := r.iToBuf + iBytesPut },
      iBytesPut)
  else
    let iBytesPut := min iNBytes (r.iBufByteSize - r.iToBuf)
    let pcBuf := copyIn r.pcBuf r.iToBuf (pcBuffer.take iBytesPut)
    let iRngTemp := r.iToBuf + iBytesPut
    if iRngTemp = r.iBufByteSize then
      let iBytes2 := min (iNBytes - iBytesPut) (r.iFromBuf - 1)
      ({ r with
          pcBuf := copyIn pcBuf 0 ((pcBuffer.drop iBytesPut).take iBytes2)
          iToBuf := iBytes2 },
        iBytesPut + iBytes2)
    else ({ r with pcBuf, iToBuf := iRngTemp }, iBytesPut)

/-- `_rngIsEmpty`. -/
def rngIsEmpty : Bool := r.iToBuf == r.iFromBuf

/-- `_rngIsFull`. -/
def rngIsFull : Bool :=
  let iNum : ℤ := (r.iToBuf : ℤ) - r.iFromBuf + 1
  iNum == 0 || iNum == r.iBufByteSize

/-- `_rngFreeBytes`. -/
def rngFreeBytes : ℤ :=
  let iNum : ℤ := (r.iFromBuf : ℤ) - r.iToBuf - 1
  if iNum < 0 then iNum + r.iBufByteSize else iNum

/-- `_rngNBytes`. -/
def rngNBytes : ℤ :=
  let iNum : ℤ := (r.iToBuf : ℤ) - r.iFromBuf
  if iNum < 0 then iNum + r.iBufByteSize else iNum

/-- The place that `_rngPutAhead` and `_rngMoveAhead` compute. Their sum is an `INT`, and has no value
when it is too large for one. -/
def aheadPlace (iOffset : ℕ) : Option ℕ :=
  let iNum := r.iToBuf + iOffset
  if iNum < 2 ^ 31 then
    some (if r.iBufByteSize ≤ iNum then iNum - r.iBufByteSize else iNum)
  else none

/-- `_rngPutAhead`. -/
def rngPutAhead (cByte : β) (iOffset : ℕ) : Option (VxRing β) :=
  (r.aheadPlace iOffset).map fun iNum => { r with pcBuf := update r.pcBuf iNum cByte }

/-- `_rngMoveAhead`. -/
def rngMoveAhead (iNum : ℕ) : Option (VxRing β) :=
  (r.aheadPlace iNum).map fun iNum => { r with iToBuf := iNum }

end VxRing

inductive RngOp (β : Type*) where
  | put (pcBuffer : List β)
  | get (iMaxBytes : ℕ)
  | flush
  | putAhead (cByte : β) (iOffset : ℕ)
  | moveAhead (iNum : ℕ)

/-- What a call returned: the number of bytes written, or the bytes read. -/
inductive RngRet (β : Type*) where
  | put (n : ℕ)
  | get (bytes : List β)
  | none
  deriving DecidableEq

/-- One call. -/
def VxRing.step (r : VxRing β) : RngOp β → Option (VxRing β × RngRet β)
  | .put pcBuffer => some ((r.rngBufPut pcBuffer).1, .put (r.rngBufPut pcBuffer).2)
  | .get iMaxBytes => some ((r.rngBufGet iMaxBytes).1, .get (r.rngBufGet iMaxBytes).2)
  | .flush => some (r.rngFlush, .none)
  | .putAhead cByte iOffset => (r.rngPutAhead cByte iOffset).map (·, .none)
  | .moveAhead iNum => (r.rngMoveAhead iNum).map (·, .none)

/-- The sum of the index and an offset is an `INT`. -/
def VxRing.StepOk (r : VxRing β) : RngOp β → Prop
  | .putAhead _ iOffset => r.iToBuf + iOffset < 2 ^ 31
  | .moveAhead iNum => r.iToBuf + iNum < 2 ^ 31
  | _ => True

instance (r : VxRing β) : ∀ op, Decidable (r.StepOk op)
  | .putAhead _ _ => inferInstanceAs (Decidable (_ < _))
  | .moveAhead _ => inferInstanceAs (Decidable (_ < _))
  | .put _ => .isTrue trivial
  | .get _ => .isTrue trivial
  | .flush => .isTrue trivial

/-! ## The queue -/

/-- A queue of at most `cap` bytes, and the bytes that lie ahead of its end, by their distance. -/
structure ByteFifo (β : Type*) where
  cap : ℕ
  bytes : List β
  ahead : ℕ → Option β

namespace ByteFifo
variable (q : ByteFifo β)

def free : ℕ := q.cap - q.bytes.length

/-- As many bytes as fit are put at the end; what lay ahead of the end is nearer to it now. -/
def put (data : List β) : ByteFifo β :=
  { q with
    bytes := q.bytes ++ data.take q.free
    ahead := fun k => q.ahead (k + min data.length q.free) }

/-- The end is moved over bytes that lie ahead. -/
def moveAhead (n : ℕ) : ByteFifo β :=
  { q with
    bytes := q.bytes ++ (List.range n).filterMap q.ahead
    ahead := fun k => q.ahead (k + n) }

def step : RngOp β → ByteFifo β × RngRet β
  | .put data => (q.put data, .put (min data.length q.free))
  | .get n => ({ q with bytes := q.bytes.drop n }, .get (q.bytes.take n))
  | .flush => ({ q with bytes := [], ahead := fun _ => none }, .none)
  | .putAhead c k => ({ q with ahead := update q.ahead k (some c) }, .none)
  | .moveAhead n => (q.moveAhead n, .none)

/-- Bytes are put ahead within the free space, and the end is moved over such bytes only. -/
def Admits : RngOp β → Prop
  | .putAhead _ k => k < q.free
  | .moveAhead n => n ≤ q.free ∧ ∀ k < n, (q.ahead k).isSome
  | _ => True

instance : ∀ op, Decidable (q.Admits op)
  | .putAhead _ _ => inferInstanceAs (Decidable (_ < _))
  | .moveAhead _ => inferInstanceAs (Decidable (_ ∧ _))
  | .put _ => .isTrue trivial
  | .get _ => .isTrue trivial
  | .flush => .isTrue trivial

end ByteFifo

namespace VxRing

/-- The queries answer as they should for the queue. -/
structure Agrees (r : VxRing β) (q : ByteFifo β) : Prop where
  size : r.rngSizeGet = q.cap
  free : r.rngFreeBytes = q.free
  used : r.rngNBytes = q.bytes.length
  empty : r.rngIsEmpty = true ↔ q.bytes = []
  full : r.rngIsFull = true ↔ q.bytes.length = q.cap

/-- The same bytes as in a ring that counts those it holds. -/
def ring (r : VxRing β) (n : ℕ) : RingBuffer β :=
  { pcBuffer := r.pcBuf, pcInPtr := r.iToBuf, pcOutPtr := r.iFromBuf,
    stTotalBytes := r.iBufByteSize, stMsgBytes := n }

/-- The ring holds the bytes of the queue, and ahead of its end those that lie ahead. -/
structure Represents (r : VxRing β) (q : ByteFifo β) : Prop where
  size : r.iBufByteSize = q.cap + 1
  len : q.bytes.length ≤ q.cap
  ok : (r.ring q.bytes.length).Ok
  bytes : (r.ring q.bytes.length).bytes = q.bytes
  ahead : ∀ k b, q.ahead k = some b →
    k < q.free ∧ r.pcBuf (wrap r.iBufByteSize (r.iToBuf + k)) = b

variable {r r' : VxRing β} {q : ByteFifo β} {data : List β} {n iNBytes iOffset : ℕ} {b : β}

theorem Represents.bounds (h : r.Represents q) :
    r.iFromBuf < r.iBufByteSize ∧ r.iToBuf < r.iBufByteSize ∧
      r.iToBuf = wrap r.iBufByteSize (r.iFromBuf + q.bytes.length) :=
  ⟨h.ok.out_lt, h.ok.in_lt, h.ok.in_eq⟩

/-- The distance between the indices is the number of bytes. -/
theorem Represents.dist (h : r.Represents q) :
    r.iFromBuf + q.bytes.length = r.iToBuf ∧ r.iFromBuf ≤ r.iToBuf ∨
      r.iFromBuf + q.bytes.length = r.iToBuf + r.iBufByteSize ∧ r.iToBuf < r.iFromBuf := by
  obtain ⟨hfrom, -, hto⟩ := h.bounds
  have hlen := h.len
  have hsize := h.size
  unfold wrap at hto
  split_ifs at hto with hlt
  · exact .inl ⟨hto.symm, by omega⟩
  · exact .inr ⟨by omega, by omega⟩

theorem Represents.agrees (h : r.Represents q) : r.Agrees q := by
  have hsize := h.size
  have hlen := h.len
  have hbounds := h.bounds
  have hdist := h.dist
  have hnil : q.bytes = [] ↔ q.bytes.length = 0 := List.length_eq_zero_iff.symm
  constructor
  · rw [rngSizeGet, hsize, Nat.add_sub_cancel]
  · simp only [rngFreeBytes, ByteFifo.free]
    split_ifs <;> omega
  · simp only [rngNBytes]
    split_ifs <;> omega
  · rw [hnil, rngIsEmpty, beq_iff_eq]
    omega
  · simp only [rngIsFull, Bool.or_eq_true, beq_iff_eq]
    omega

/-! ## The calls -/

/-- A copy that stays below the end of the buffer. -/
theorem copyIn_straight (pcBuf : ℕ → β) {size a : ℕ} {d : List β} (hd : a + d.length < size) :
    copyIn (copyIn pcBuf a (d.take (size - a))) 0 (d.drop (size - a)) = copyIn pcBuf a d ∧
      wrap size (a + d.length) = a + d.length := by
  rw [List.take_of_length_le (by omega), List.drop_of_length_le (by omega), RingBuffer.copyIn_nil]
  exact ⟨rfl, wrap_of_lt hd⟩

/-- Whichever way the bytes go, as many as fit are copied behind the others. -/
theorem Represents.rngBufPut_eq (h : r.Represents q) (data : List β) :
    r.rngBufPut data =
      ({ r with
          pcBuf := copyIn (copyIn r.pcBuf r.iToBuf
            ((data.take q.free).take (r.iBufByteSize - r.iToBuf))) 0
              ((data.take q.free).drop (r.iBufByteSize - r.iToBuf))
          iToBuf := wrap r.iBufByteSize (r.iToBuf + (data.take q.free).length) },
        (data.take q.free).length) := by
  have hsize := h.size
  have hlen := h.len
  have hbounds := h.bounds
  have hdist := h.dist
  have hfree : q.free = q.cap - q.bytes.length := rfl
  unfold rngBufPut
  dsimp only
  split_ifs with hbehind hzero hend
  · have htake : data.take (min data.length (r.iFromBuf - r.iToBuf - 1)) = data.take q.free := by
      rw [List.take_eq_take_iff]
      omega
    have hput : min data.length (r.iFromBuf - r.iToBuf - 1) = (data.take q.free).length := by
      rw [List.length_take]
      omega
    have hlt : r.iToBuf + (data.take q.free).length < r.iBufByteSize := by omega
    obtain ⟨hcopy, hto⟩ := copyIn_straight r.pcBuf hlt
    rw [hcopy, hto, htake, hput]
  · have htake : data.take (min data.length (r.iBufByteSize - r.iToBuf - 1)) =
        data.take q.free := by
      rw [List.take_eq_take_iff]
      omega
    have hput : min data.length (r.iBufByteSize - r.iToBuf - 1) = (data.take q.free).length := by
      rw [List.length_take]
      omega
    have hlt : r.iToBuf + (data.take q.free).length < r.iBufByteSize := by omega
    obtain ⟨hcopy, hto⟩ := copyIn_straight r.pcBuf hlt
    rw [hcopy, hto, htake, hput]
  · -- The copy reaches the end of the buffer, and perhaps goes on from its beginning.
    have hput : min data.length (r.iBufByteSize - r.iToBuf) = r.iBufByteSize - r.iToBuf := by omega
    have htake : (data.take q.free).take (r.iBufByteSize - r.iToBuf) =
        data.take (r.iBufByteSize - r.iToBuf) := by
      rw [List.take_take, Nat.min_eq_left (by omega)]
    have hdrop : (data.take q.free).drop (r.iBufByteSize - r.iToBuf) =
        (data.drop (r.iBufByteSize - r.iToBuf)).take
          (min (data.length - (r.iBufByteSize - r.iToBuf)) (r.iFromBuf - 1)) := by
      rw [List.drop_take, List.take_eq_take_iff, List.length_drop]
      omega
    have hsum : (data.take q.free).length = r.iBufByteSize - r.iToBuf +
        min (data.length - (r.iBufByteSize - r.iToBuf)) (r.iFromBuf - 1) := by
      rw [List.length_take]
      omega
    have hto : wrap r.iBufByteSize (r.iToBuf + (data.take q.free).length) =
        min (data.length - (r.iBufByteSize - r.iToBuf)) (r.iFromBuf - 1) := by
      rw [hsum]
      unfold wrap
      split_ifs <;> omega
    rw [htake, hdrop, hto, hsum, hput]
  · have hput : min data.length (r.iBufByteSize - r.iToBuf) = data.length := by omega
    have htake : data.take q.free = data := List.take_of_length_le (by omega)
    have hlt : r.iToBuf + data.length < r.iBufByteSize := by omega
    obtain ⟨hcopy, hto⟩ := copyIn_straight r.pcBuf hlt
    rw [htake, hcopy, hto, hput, List.take_length]

theorem Represents.put (h : r.Represents q) (data : List β) :
    (r.rngBufPut data).1.Represents (q.put data) ∧
      (r.rngBufPut data).2 = min data.length q.free := by
  have hlen := h.len
  have hsize := h.size
  have hfree : q.free = q.cap - q.bytes.length := rfl
  have hn : (data.take q.free).length = min data.length q.free := by
    rw [List.length_take, Nat.min_comm]
  have heq := h.rngBufPut_eq data
  have hring : (r.rngBufPut data).1.ring (q.bytes ++ data.take q.free).length =
      (r.ring q.bytes.length).put (data.take q.free) := by
    rw [heq, RingBuffer.put_eq h.ok.in_lt, List.length_append]
    rfl
  have hle : (data.take q.free).length ≤ r.iBufByteSize - q.bytes.length := by omega
  obtain ⟨hok, hbytes⟩ := h.ok.put hle
  refine ⟨⟨?_, ?_, hring ▸ hok, ?_, fun k b hk => ?_⟩, by rw [heq, hn]⟩
  · rw [heq]
    exact hsize
  · change (q.bytes ++ data.take q.free).length ≤ q.cap
    rw [List.length_append]
    omega
  · exact (congrArg RingBuffer.bytes hring).trans (hbytes.trans (by rw [h.bytes]; rfl))
  · obtain ⟨hlt, hb⟩ := h.ahead _ _ hk
    have hto := h.bounds.2.1
    have hplace : wrap r.iBufByteSize
        (wrap r.iBufByteSize (r.iToBuf + (data.take q.free).length) + k) =
          wrap r.iBufByteSize (r.iToBuf + (k + min data.length q.free)) := by
      rw [wrap_add_wrap hto (by omega), hn, Nat.add_comm k]
    refine ⟨?_, ?_⟩
    · change k < q.cap - (q.bytes ++ data.take q.free).length
      rw [List.length_append]
      omega
    · have hfar (t : ℕ) (ht : t < (data.take q.free).length) :
          wrap r.iBufByteSize (r.iToBuf + t) ≠
            wrap r.iBufByteSize (r.iToBuf + (k + min data.length q.free)) := fun hw => by
        have := wrap_inj (by omega) (by omega) hw
        omega
      have hplace_lt : wrap r.iBufByteSize (r.iToBuf + (k + min data.length q.free)) <
          r.iBufByteSize := wrap_lt (by omega)
      have hold := RingBuffer.put_old (r := r.ring q.bytes.length) h.ok.in_lt hplace_lt hfar
      rw [← hb]
      refine Eq.trans ?_ ((congrArg (fun x => RingBuffer.pcBuffer x _) hring).trans hold)
      rw [heq]
      exact congrArg _ hplace

theorem Represents.rngBufGet_eq (h : r.Represents q) (n : ℕ) :
    r.rngBufGet n =
      ({ r with iFromBuf := wrap r.iBufByteSize (r.iFromBuf + min n q.bytes.length) },
        contents r.iBufByteSize r.iFromBuf (min n q.bytes.length) r.pcBuf) := by
  have hlen := h.len
  have hsize := h.size
  have hbounds := h.bounds
  have hdist := h.dist
  unfold rngBufGet
  dsimp only
  split_ifs with hahead hend
  · have hgot : min n (r.iToBuf - r.iFromBuf) = min n q.bytes.length := by omega
    rw [hgot, RingBuffer.copyOut_eq r.iBufByteSize (by omega), wrap_of_lt (by omega)]
  · have hgot : min n (r.iBufByteSize - r.iFromBuf) = r.iBufByteSize - r.iFromBuf := by omega
    have hall : min n q.bytes.length = r.iBufByteSize - r.iFromBuf +
        min (n - (r.iBufByteSize - r.iFromBuf)) r.iToBuf := by omega
    have hturn : wrap r.iBufByteSize (r.iFromBuf + (r.iBufByteSize - r.iFromBuf)) = 0 := by
      rw [Nat.add_sub_cancel' hbounds.1.le, wrap_self]
    have hfrom : wrap r.iBufByteSize (r.iFromBuf + min n q.bytes.length) =
        min (n - (r.iBufByteSize - r.iFromBuf)) r.iToBuf := by
      rw [hall]
      unfold wrap
      split_ifs <;> omega
    rw [hfrom, hall, contents_add hbounds.1 (by omega), hturn, hgot,
      RingBuffer.copyOut_eq r.iBufByteSize (by omega),
      RingBuffer.copyOut_eq r.iBufByteSize (by omega)]
  · have hgot : min n (r.iBufByteSize - r.iFromBuf) = min n q.bytes.length := by omega
    rw [hgot, RingBuffer.copyOut_eq r.iBufByteSize (by omega), wrap_of_lt (by omega)]

theorem Represents.get (h : r.Represents q) (n : ℕ) :
    (r.rngBufGet n).1.Represents { q with bytes := q.bytes.drop n } ∧
      (r.rngBufGet n).2 = q.bytes.take n := by
  have hlen := h.len
  have hsize := h.size
  obtain ⟨hfrom, hto, hplace⟩ := h.bounds
  have hcut : contents r.iBufByteSize r.iFromBuf (min n q.bytes.length) r.pcBuf ++
      contents r.iBufByteSize (wrap r.iBufByteSize (r.iFromBuf + min n q.bytes.length))
        (q.bytes.drop n).length r.pcBuf = q.bytes.take n ++ q.bytes.drop n := by
    have hsum : min n q.bytes.length + (q.bytes.drop n).length = q.bytes.length := by
      rw [List.length_drop]
      omega
    rw [← contents_add hfrom (by omega), hsum, List.take_append_drop]
    exact h.bytes
  obtain ⟨htake, hdrop⟩ := List.append_inj hcut (by rw [contents_length, List.length_take])
  rw [h.rngBufGet_eq]
  refine ⟨⟨hsize, ?_, ⟨wrap_lt (by omega), ?_, ?_⟩, hdrop, fun k b hk => ?_⟩, htake⟩
  · change (q.bytes.drop n).length ≤ q.cap
    rw [List.length_drop]
    omega
  · change (q.bytes.drop n).length ≤ r.iBufByteSize
    rw [List.length_drop]
    omega
  · change r.iToBuf = (wrap r.iBufByteSize (r.iFromBuf + min n q.bytes.length) +
      (q.bytes.drop n).length) % r.iBufByteSize
    have hw : wrap r.iBufByteSize (r.iFromBuf + min n q.bytes.length) < r.iBufByteSize :=
      wrap_lt (by omega)
    rw [List.length_drop, ← wrap_eq_mod (by omega), wrap_add_wrap hfrom (by omega), hplace]
    congr 2
    omega
  · obtain ⟨hlt, hb⟩ := h.ahead k b hk
    refine ⟨?_, hb⟩
    change k < q.cap - (q.bytes.drop n).length
    have hfree : q.free = q.cap - q.bytes.length := rfl
    rw [List.length_drop]
    omega

theorem Represents.flush (h : r.Represents q) :
    r.rngFlush.Represents { q with bytes := [], ahead := fun _ => none } where
  size := h.size
  len := Nat.zero_le _
  ok := ⟨by change 0 < r.iBufByteSize; rw [h.size]; omega, Nat.zero_le _, (Nat.zero_mod _).symm⟩
  bytes := rfl
  ahead _ _ hk := absurd hk nofun

/-- Where the sum has a value, the place is `iOffset` bytes ahead of the end. -/
theorem aheadPlace_eq (hint : r.iToBuf + iOffset < 2 ^ 31) :
    r.aheadPlace iOffset = some (wrap r.iBufByteSize (r.iToBuf + iOffset)) := by
  rw [aheadPlace, if_pos hint]
  unfold wrap
  split_ifs
  · omega
  · rfl
  · rfl
  · omega

/-- The bytes of the queue and those ahead lie apart. -/
theorem Represents.place_ahead (h : r.Represents q) {k : ℕ} (hk : q.bytes.length + k ≤ q.cap) :
    wrap r.iBufByteSize (r.iToBuf + k) = wrap r.iBufByteSize (r.iFromBuf + (q.bytes.length + k)) := by
  obtain ⟨hfrom, -, hplace⟩ := h.bounds
  have hsize := h.size
  rw [hplace, wrap_add_wrap hfrom (by omega)]

theorem Represents.putAhead (h : r.Represents q) {c : β} {k : ℕ} (hk : k < q.free) :
    ({ r with pcBuf := update r.pcBuf (wrap r.iBufByteSize (r.iToBuf + k)) c } :
      VxRing β).Represents { q with ahead := update q.ahead k (some c) } := by
  have hlen := h.len
  have hsize := h.size
  have hfree : q.free = q.cap - q.bytes.length := rfl
  have hfar (t : ℕ) (ht : t < q.bytes.length) :
      wrap r.iBufByteSize (r.iFromBuf + t) ≠ wrap r.iBufByteSize (r.iToBuf + k) := fun heq => by
    rw [h.place_ahead (by omega)] at heq
    have := wrap_inj (by omega) (by omega) heq
    omega
  refine ⟨hsize, hlen, ⟨h.ok.out_lt, h.ok.msg_le, h.ok.dist⟩, ?_, fun j b hj => ?_⟩
  · exact (contents_congr fun t ht => update_of_ne (hfar t ht) _ _).trans h.bytes
  · dsimp only at hj ⊢
    rcases eq_or_ne j k with rfl | hne
    · rw [update_self, Option.some.injEq] at hj
      rw [update_self]
      exact ⟨hk, hj⟩
    · rw [update_of_ne hne] at hj
      obtain ⟨hlt, hb⟩ := h.ahead j b hj
      refine ⟨hlt, ?_⟩
      rw [update_of_ne, hb]
      exact fun heq => hne (wrap_inj (by omega) (by omega) heq)

theorem Represents.moveAhead (h : r.Represents q) (hn : n ≤ q.free)
    (hsome : ∀ k < n, (q.ahead k).isSome) :
    ({ r with iToBuf := wrap r.iBufByteSize (r.iToBuf + n) } : VxRing β).Represents
      (q.moveAhead n) := by
  have hlen := h.len
  have hsize := h.size
  have hfree : q.free = q.cap - q.bytes.length := rfl
  obtain ⟨hfrom, hto, hplace⟩ := h.bounds
  have hnew : contents r.iBufByteSize r.iToBuf n r.pcBuf = (List.range n).filterMap q.ahead := by
    refine (List.filterMap_eq_map_iff_forall_eq_some.mpr fun k hk => ?_).symm
    obtain ⟨b, hb⟩ := Option.isSome_iff_exists.mp (hsome k (List.mem_range.mp hk))
    rw [hb, (h.ahead k b hb).2]
  have hlength : (q.bytes ++ (List.range n).filterMap q.ahead).length = q.bytes.length + n := by
    rw [List.length_append, ← hnew, contents_length]
  have hend : wrap r.iBufByteSize (r.iToBuf + n) =
      wrap r.iBufByteSize (r.iFromBuf + (q.bytes.length + n)) := h.place_ahead (by omega)
  refine ⟨hsize, ?_, ⟨hfrom, ?_, ?_⟩, ?_, fun k b hk => ?_⟩
  · change (q.bytes ++ (List.range n).filterMap q.ahead).length ≤ q.cap
    omega
  · change (q.bytes ++ (List.range n).filterMap q.ahead).length ≤ r.iBufByteSize
    omega
  · change wrap r.iBufByteSize (r.iToBuf + n) =
      (r.iFromBuf + (q.bytes ++ (List.range n).filterMap q.ahead).length) % r.iBufByteSize
    rw [hend, hlength, wrap_eq_mod (by omega)]
  · change contents r.iBufByteSize r.iFromBuf (q.bytes ++ (List.range n).filterMap q.ahead).length
      r.pcBuf = q.bytes ++ (List.range n).filterMap q.ahead
    rw [hlength, contents_add hfrom (by omega), ← hplace, hnew]
    exact congrArg (· ++ _) h.bytes
  · obtain ⟨hlt, hb⟩ := h.ahead (k + n) b hk
    refine ⟨?_, ?_⟩
    · change k < q.cap - (q.bytes ++ (List.range n).filterMap q.ahead).length
      omega
    · change r.pcBuf (wrap r.iBufByteSize (wrap r.iBufByteSize (r.iToBuf + n) + k)) = b
      rw [wrap_add_wrap hto (by omega), Nat.add_comm n, hb]

/-! ## Runs -/

theorem Represents.create {cap : ℕ} {pcBuf : ℕ → β} (h : rngCreate cap pcBuf = some r) :
    r.Represents ⟨cap, [], fun _ => none⟩ := by
  unfold rngCreate at h
  split_ifs at h
  cases h
  refine ⟨rfl, Nat.zero_le _, ⟨Nat.succ_pos _, Nat.zero_le _, ?_⟩, rfl, fun _ _ hk => absurd hk nofun⟩
  exact (Nat.zero_mod _).symm

/-- The ring refines the queue wherever the sums have a value. -/
theorem step_refines : RefinesWhere (VxRing.step (β := β)) ByteFifo.step
    (fun q => q.Admits) (fun r => r.StepOk) Represents := by
  intro r q op h hadm
  cases op with
  | put data =>
    obtain ⟨hrep, hret⟩ := h.put data
    exact ⟨fun _ => ⟨_, by rw [VxRing.step, hret]; rfl, hrep⟩, fun hnot => absurd trivial hnot⟩
  | get n =>
    obtain ⟨hrep, hret⟩ := h.get n
    exact ⟨fun _ => ⟨_, by rw [VxRing.step, hret]; rfl, hrep⟩, fun hnot => absurd trivial hnot⟩
  | flush => exact ⟨fun _ => ⟨_, rfl, h.flush⟩, fun hnot => absurd trivial hnot⟩
  | putAhead c k =>
    refine ⟨fun hint => ⟨_, ?_, h.putAhead hadm⟩, fun hnot => ?_⟩
    · rw [VxRing.step, rngPutAhead, aheadPlace_eq hint]
      rfl
    · have hnone : r.aheadPlace k = none := if_neg hnot
      rw [VxRing.step, rngPutAhead, hnone]
      rfl
  | moveAhead n =>
    refine ⟨fun hint => ⟨_, ?_, h.moveAhead hadm.1 hadm.2⟩, fun hnot => ?_⟩
    · rw [VxRing.step, rngMoveAhead, aheadPlace_eq hint]
      rfl
    · have hnone : r.aheadPlace n = none := if_neg hnot
      rw [VxRing.step, rngMoveAhead, hnone]
      rfl

/-- A ring of any size answers as a bounded queue of bytes does, and its queries agree with the queue,
exactly if no sum of an index and an offset is too large for an `INT`. -/
theorem rng_fifo_iff {cap : ℕ} {pcBuf : ℕ → β} {ops : List (RngOp β)}
    (hcreate : rngCreate cap pcBuf = some r)
    (hadm : Admits ByteFifo.step (fun q => q.Admits) ⟨cap, [], fun _ => none⟩ ops) :
    (∃ r', tries VxRing.step r ops =
        some (r', (answers ByteFifo.step ⟨cap, [], fun _ => none⟩ ops).2) ∧
      r'.Agrees (answers ByteFifo.step ⟨cap, [], fun _ => none⟩ ops).1) ↔
        Along (fun r op => (r.step op).map Prod.fst) StepOk r ops := by
  have hrep := Represents.create hcreate
  constructor
  · rintro ⟨r', htries, -⟩
    exact step_refines.along hrep hadm htries
  · intro hall
    obtain ⟨r', htries, hrep'⟩ := step_refines.tries hrep hadm hall
    exact ⟨r', htries, hrep'.agrees⟩

/-- Four bytes, with one put that goes past the end and one byte that is stored ahead. -/
theorem rng_fifo_four : ∃ r : VxRing ℕ, tries VxRing.step ⟨0, 0, 5, fun _ => 0⟩
    [.put [1, 2, 3], .get 2, .put [4, 5, 6, 7], .get 1, .putAhead 9 0, .moveAhead 1, .get 10] =
      some (r, [.put 3, .get [1, 2], .put 3, .get [3], .none, .none, .get [4, 5, 6, 9]]) := by
  have hcreate : rngCreate 4 (fun _ => 0) = some (⟨0, 0, 5, fun _ => 0⟩ : VxRing ℕ) := rfl
  have hadm : Admits ByteFifo.step (fun q => q.Admits) ⟨4, [], fun _ => none⟩
      [.put [1, 2, 3], .get 2, .put [4, 5, 6, 7], .get 1, .putAhead 9 0, .moveAhead 1, .get 10] := by
    decide
  obtain ⟨r, htries, -⟩ := (rng_fifo_iff hcreate hadm).mpr (by decide)
  exact ⟨r, htries⟩

/-- In the largest ring, a byte is stored ahead as far as there is room. -/
theorem not_rng_fifo : ¬ ∀ (cap : ℕ) (pcBuf : ℕ → ℕ) (r : VxRing ℕ) (ops : List (RngOp ℕ)),
    rngCreate cap pcBuf = some r →
    Admits ByteFifo.step (fun q => q.Admits) ⟨cap, [], fun _ => none⟩ ops →
    ∃ r', tries VxRing.step r ops =
        some (r', (answers ByteFifo.step ⟨cap, [], fun _ => none⟩ ops).2) ∧
      r'.Agrees (answers ByteFifo.step ⟨cap, [], fun _ => none⟩ ops).1 := by
  intro h
  have hcreate : rngCreate (2 ^ 31 - 2) (fun _ => 0) =
      some (⟨0, 0, 2 ^ 31 - 2 + 1, fun _ => 0⟩ : VxRing ℕ) := if_pos (by decide)
  obtain ⟨r', htries, -⟩ := h _ _ _ [.put [1, 2, 3], .get 3, .putAhead 7 (2 ^ 31 - 3)] hcreate
    (by decide +kernel)
  have hnone : (tries VxRing.step (⟨0, 0, 2 ^ 31 - 2 + 1, fun _ => 0⟩ : VxRing ℕ)
      [.put [1, 2, 3], .get 3, .putAhead 7 (2 ^ 31 - 3)]).isNone = true := by decide +kernel
  rw [htries] at hnone
  cases hnone

end VxRing

end SylixOS.Device
