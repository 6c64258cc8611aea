import Mathlib.Order.Nat
import SylixOS.Lib.RingQueue

/-! # The ring buffer of a stream pipe

Bytes are copied into the buffer and out of it, in two parts when they go past its end.
-/

namespace SylixOS.Pipe
open Lib.RingQueue

/-- `LW_RING_BUFFER`, with pointers as places in the buffer. -/
structure RingBuffer (β : Type*) where
  pcBuffer : ℕ → β
  pcInPtr : ℕ
  pcOutPtr : ℕ
  stTotalBytes : ℕ
  stMsgBytes : ℕ

variable {β : Type*}

/-- `lib_memcpy` from the place `a` of the buffer. -/
def copyOut (pcBuffer : ℕ → β) (a stNBytes : ℕ) : List β :=
  (List.range stNBytes).map fun t => pcBuffer (a + t)

/-- `lib_memcpy` to the place `a` of the buffer. -/
def copyIn (pcBuffer : ℕ → β) (a : ℕ) (data : List β) : ℕ → β := fun i =>
  if a ≤ i then data.getD (i - a) (pcBuffer i) else pcBuffer i

namespace RingBuffer
variable (r : RingBuffer β)

/-- The copy out of the buffer in `_SpipeRead`. -/
def get (stNBytes : ℕ) : List β × RingBuffer β :=
  let stLen := r.stTotalBytes - r.pcOutPtr
  let stMsgBytes := r.stMsgBytes - stNBytes
  if stLen < stNBytes then
    (copyOut r.pcBuffer r.pcOutPtr stLen ++ copyOut r.pcBuffer 0 (stNBytes - stLen),
      { r with stMsgBytes, pcOutPtr := stNBytes - stLen })
  else if stNBytes < stLen then
    (copyOut r.pcBuffer r.pcOutPtr stNBytes,
      { r with stMsgBytes, pcOutPtr := r.pcOutPtr + stNBytes })
  else (copyOut r.pcBuffer r.pcOutPtr stNBytes, { r with stMsgBytes, pcOutPtr := 0 })

/-- The copy into the buffer in `_SpipeWrite`. -/
def put (data : List β) : RingBuffer β :=
  let stLen := r.stTotalBytes - r.pcInPtr
  let stMsgBytes := r.stMsgBytes + data.length
  if stLen < data.length then
    { r with
      pcBuffer := copyIn (copyIn r.pcBuffer r.pcInPtr (data.take stLen)) 0 (data.drop stLen)
      stMsgBytes
      pcInPtr := data.length - stLen }
  else if data.length < stLen then
    { r with
      pcBuffer := copyIn r.pcBuffer r.pcInPtr data
      stMsgBytes
      pcInPtr := r.pcInPtr + data.length }
  else { r with pcBuffer := copyIn r.pcBuffer r.pcInPtr data, stMsgBytes, pcInPtr := 0 }

/-- `FIOFLUSH`. -/
def flush : RingBuffer β := { r with pcInPtr := 0, pcOutPtr := 0, stMsgBytes := 0 }

/-- The bytes that can be read. -/
def bytes : List β := contents r.stTotalBytes r.pcOutPtr r.stMsgBytes r.pcBuffer

/-- There are not more bytes than fit, and they end where the next ones are put. -/
structure Ok : Prop where
  out_lt : r.pcOutPtr < r.stTotalBytes
  msg_le : r.stMsgBytes ≤ r.stTotalBytes
  dist : r.pcInPtr = (r.pcOutPtr + r.stMsgBytes) % r.stTotalBytes

variable {r} {n : ℕ} {data : List β} {pcBuffer : ℕ → β} {a i : ℕ}

@[simp] theorem bytes_length : r.bytes.length = r.stMsgBytes := contents_length

theorem Ok.total_pos (hr : r.Ok) : 0 < r.stTotalBytes := Nat.zero_lt_of_lt hr.out_lt

theorem Ok.in_eq (hr : r.Ok) : r.pcInPtr = wrap r.stTotalBytes (r.pcOutPtr + r.stMsgBytes) := by
  have := hr.out_lt
  have := hr.msg_le
  rw [wrap_eq_mod (by omega)]
  exact hr.dist

theorem Ok.in_lt (hr : r.Ok) : r.pcInPtr < r.stTotalBytes :=
  hr.dist ▸ Nat.mod_lt _ hr.total_pos

@[simp] theorem get_stMsgBytes : (r.get n).2.stMsgBytes = r.stMsgBytes - n := by
  unfold get
  dsimp only
  split_ifs <;> rfl

@[simp] theorem put_stMsgBytes : (r.put data).stMsgBytes = r.stMsgBytes + data.length := by
  unfold put
  dsimp only
  split_ifs <;> rfl

@[simp] theorem get_stTotalBytes : (r.get n).2.stTotalBytes = r.stTotalBytes := by
  unfold get
  dsimp only
  split_ifs <;> rfl

@[simp] theorem put_stTotalBytes : (r.put data).stTotalBytes = r.stTotalBytes := by
  unfold put
  dsimp only
  split_ifs <;> rfl

/-! ## Copies -/

theorem copyIn_of_lt (h : i < a) : copyIn pcBuffer a data i = pcBuffer i := if_neg (by omega)

theorem copyIn_of_ge (h : a + data.length ≤ i) : copyIn pcBuffer a data i = pcBuffer i := by
  rw [copyIn, if_pos (by omega), List.getD_eq_default _ _ (by omega)]

theorem copyIn_add (h : i < data.length) : copyIn pcBuffer a data (a + i) = data[i] := by
  rw [copyIn, if_pos (by omega), Nat.add_sub_cancel_left, List.getD_eq_getElem _ _ h]

/-- A copy that does not go past the end. -/
theorem copyOut_eq (total : ℕ) (h : a + n ≤ total) :
    copyOut pcBuffer a n = contents total a n pcBuffer := (contents_straight h).symm

/-- What a read copies, and where the next one begins. -/
theorem Ok.get_eq (hr : r.Ok) (hn : n ≤ r.stMsgBytes) :
    r.get n = (contents r.stTotalBytes r.pcOutPtr n r.pcBuffer,
      { r with
        stMsgBytes := r.stMsgBytes - n, pcOutPtr := wrap r.stTotalBytes (r.pcOutPtr + n) }) := by
  have hout := hr.out_lt
  have hmsg := hr.msg_le
  have hnext : wrap r.stTotalBytes (r.pcOutPtr + n) =
      if r.stTotalBytes - r.pcOutPtr < n then n - (r.stTotalBytes - r.pcOutPtr)
      else if n < r.stTotalBytes - r.pcOutPtr then r.pcOutPtr + n else 0 := by
    unfold wrap
    split_ifs <;> omega
  unfold RingBuffer.get
  dsimp only
  rw [hnext]
  split_ifs with h₁ h₂
  · -- The copy goes past the end.
    have hend : wrap r.stTotalBytes (r.pcOutPtr + (r.stTotalBytes - r.pcOutPtr)) = 0 := by
      rw [Nat.add_sub_cancel' hout.le, wrap_self]
    have hadd := contents_add (c := r.pcBuffer) hout
      (by omega : (r.stTotalBytes - r.pcOutPtr) + (n - (r.stTotalBytes - r.pcOutPtr)) ≤ _)
    rw [Nat.add_sub_cancel' h₁.le, hend] at hadd
    rw [hadd, copyOut_eq r.stTotalBytes (by omega), copyOut_eq r.stTotalBytes (by omega)]
  · rw [copyOut_eq r.stTotalBytes (by omega)]
  · rw [copyOut_eq r.stTotalBytes (by omega)]

/-- A read copies the first bytes and leaves the others. -/
theorem Ok.get (hr : r.Ok) (hn : n ≤ r.stMsgBytes) :
    (r.get n).2.Ok ∧ r.bytes = (r.get n).1 ++ (r.get n).2.bytes := by
  have hout := hr.out_lt
  have hmsg := hr.msg_le
  have hw : wrap r.stTotalBytes (r.pcOutPtr + n) < r.stTotalBytes := wrap_lt (by omega)
  rw [hr.get_eq hn]
  refine ⟨⟨hw, by dsimp only; omega, ?_⟩, ?_⟩
  · dsimp only
    rw [← wrap_eq_mod (by omega), wrap_add_wrap hout (by omega), Nat.add_sub_cancel' hn, hr.in_eq]
  · have hsplit := contents_add (c := r.pcBuffer) hout (by omega : n + (r.stMsgBytes - n) ≤ _)
    rw [Nat.add_sub_cancel' hn] at hsplit
    exact hsplit

theorem copyIn_nil : copyIn pcBuffer a [] = pcBuffer := by
  funext i
  simp [copyIn]

/-- The buffer after a write, as if it always went past the end. -/
theorem put_eq (hin : r.pcInPtr < r.stTotalBytes) (data : List β) :
    r.put data = { r with
      pcBuffer := copyIn (copyIn r.pcBuffer r.pcInPtr (data.take (r.stTotalBytes - r.pcInPtr))) 0
        (data.drop (r.stTotalBytes - r.pcInPtr))
      stMsgBytes := r.stMsgBytes + data.length
      pcInPtr := wrap r.stTotalBytes (r.pcInPtr + data.length) } := by
  have hnext : wrap r.stTotalBytes (r.pcInPtr + data.length) =
      if r.stTotalBytes - r.pcInPtr < data.length then data.length - (r.stTotalBytes - r.pcInPtr)
      else if data.length < r.stTotalBytes - r.pcInPtr then r.pcInPtr + data.length else 0 := by
    unfold wrap
    split_ifs <;> omega
  unfold put
  dsimp only
  rw [hnext]
  split_ifs with h₁ h₂
  · rfl
  · rw [List.take_of_length_le (by omega), List.drop_of_length_le (by omega), copyIn_nil]
  · rw [List.take_of_length_le (by omega), List.drop_of_length_le (by omega), copyIn_nil]

/-- One byte is put. -/
theorem put_one (hin : r.pcInPtr < r.stTotalBytes) (x : β) :
    r.put [x] = { r with
      pcBuffer := Function.update r.pcBuffer r.pcInPtr x
      stMsgBytes := r.stMsgBytes + 1
      pcInPtr := wrap r.stTotalBytes (r.pcInPtr + 1) } := by
  have hcopy : copyIn r.pcBuffer r.pcInPtr [x] = Function.update r.pcBuffer r.pcInPtr x := by
    funext i
    rcases lt_trichotomy i r.pcInPtr with hlt | rfl | hgt
    · rw [copyIn_of_lt hlt, Function.update_of_ne (by omega)]
    · rw [Function.update_self]
      exact copyIn_add (i := 0) (by simp)
    · rw [copyIn_of_ge (by rw [List.length_singleton]; omega), Function.update_of_ne (by omega)]
  rw [put_eq hin, List.take_of_length_le (by simp; omega),
    List.drop_of_length_le (by simp; omega), copyIn_nil, hcopy]
  rfl

/-- The bytes of a write are found from the place on that it was at. -/
theorem put_new (hin : r.pcInPtr < r.stTotalBytes) (hn : data.length ≤ r.stTotalBytes)
    (hi : i < data.length) :
    (r.put data).pcBuffer (wrap r.stTotalBytes (r.pcInPtr + i)) = data[i] := by
  rw [put_eq hin data]
  dsimp only
  rcases Nat.lt_or_ge (r.pcInPtr + i) r.stTotalBytes with hlt | hge
  · rw [wrap_of_lt hlt, copyIn_of_ge (by rw [List.length_drop]; omega),
      copyIn_add (by rw [List.length_take]; omega), List.getElem_take]
  · have hw : wrap r.stTotalBytes (r.pcInPtr + i) = 0 + (i - (r.stTotalBytes - r.pcInPtr)) := by
      unfold wrap
      split_ifs <;> omega
    rw [hw, copyIn_add (by rw [List.length_drop]; omega), List.getElem_drop]
    congr 1
    omega

theorem put_old (hin : r.pcInPtr < r.stTotalBytes) (hi : i < r.stTotalBytes)
    (hne : ∀ t < data.length, wrap r.stTotalBytes (r.pcInPtr + t) ≠ i) :
    (r.put data).pcBuffer i = r.pcBuffer i := by
  rw [put_eq hin data]
  dsimp only
  rcases Nat.lt_or_ge i r.pcInPtr with hlt | hge
  · have hfar : data.length - (r.stTotalBytes - r.pcInPtr) ≤ i := by
      by_contra hc
      refine hne (i + (r.stTotalBytes - r.pcInPtr)) (by omega) ?_
      unfold wrap
      split_ifs <;> omega
    rw [copyIn_of_ge (by rw [List.length_drop]; omega), copyIn_of_lt hlt]
  · have hfar : r.pcInPtr + data.length ≤ i := by
      by_contra hc
      refine hne (i - r.pcInPtr) (by omega) ?_
      rw [Nat.add_sub_cancel' hge, wrap_of_lt hi]
    rw [copyIn_of_ge (by rw [List.length_drop]; omega),
      copyIn_of_ge (by rw [List.length_take]; omega)]

/-- A write copies its bytes behind the others. -/
theorem Ok.put (hr : r.Ok) (hn : data.length ≤ r.stTotalBytes - r.stMsgBytes) :
    (r.put data).Ok ∧ (r.put data).bytes = r.bytes ++ data := by
  have hout := hr.out_lt
  have hmsg := hr.msg_le
  have hin := hr.in_eq
  have hlt := hr.in_lt
  have hle : data.length ≤ r.stTotalBytes := by omega
  have hold (t : ℕ) (ht : t < r.stMsgBytes) :
      (r.put data).pcBuffer (wrap r.stTotalBytes (r.pcOutPtr + t)) =
        r.pcBuffer (wrap r.stTotalBytes (r.pcOutPtr + t)) := by
    refine put_old hlt (wrap_lt (by omega)) fun j hj heq => ?_
    rw [hin, wrap_add_wrap hout (by omega)] at heq
    have := wrap_inj (by omega) (by omega) heq
    omega
  have hnew (t : ℕ) (ht : t < data.length) :
      (r.put data).pcBuffer
        (wrap r.stTotalBytes (wrap r.stTotalBytes (r.pcOutPtr + r.stMsgBytes) + t)) = data[t] := by
    rw [← hin]
    exact put_new hlt hle ht
  have happ := contents_append hout (by omega) hold hnew
  have heq := put_eq hlt data
  refine ⟨⟨?_, ?_, ?_⟩, ?_⟩
  · rw [heq]
    exact hout
  · rw [heq]
    dsimp only
    omega
  · rw [heq]
    dsimp only
    rw [hin, wrap_add_wrap hout (by omega), wrap_eq_mod (by omega)]
  · refine Eq.trans ?_ happ
    rw [bytes, put_stTotalBytes, put_stMsgBytes, show (r.put data).pcOutPtr = r.pcOutPtr by rw [heq]]

theorem Ok.flush (hr : r.Ok) : r.flush.Ok where
  out_lt := hr.total_pos
  msg_le := Nat.zero_le _
  dist := (Nat.zero_mod _).symm

@[simp] theorem bytes_flush : r.flush.bytes = [] := rfl

end RingBuffer

end SylixOS.Pipe
