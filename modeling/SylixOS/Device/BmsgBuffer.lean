import Mathlib
import SylixOS.Pipe.RingBuffer

/-! # The buffer of a block message node

A message lies in the ring with two bytes before it, which say how long it is.
-/

namespace SylixOS.Device
open Lib.RingQueue Pipe

/-- `LW_BMSG`, with pointers as places in the buffer. -/
structure Bmsg where
  pucBuffer : ℕ → UInt8
  stSize : ℕ
  stLeft : ℕ
  pucPut : ℕ
  pucGet : ℕ

/-- `LW_BMSG_PREFIX_LEN`. -/
def prefixLen : ℕ := 2

/-- `LW_BMSG_MIN_SIZE`. -/
def minSize : ℕ := 64

/-- `_bmsgCreate`, with what the memory holds. -/
def bmsgCreate (stSize : ℕ) (pucBuffer : ℕ → UInt8) : Option Bmsg :=
  if stSize < minSize then none
  else some { pucBuffer, stSize, stLeft := stSize, pucPut := 0, pucGet := 0 }

/-- The two bytes before a message. -/
def sizePrefix (stSize : ℕ) : List UInt8 := [UInt8.ofNat (stSize >>> 8), UInt8.ofNat (stSize &&& 0xff)]

/-- A message as it lies in the ring. -/
def encode (data : List UInt8) : List UInt8 := sizePrefix data.length ++ data

namespace Bmsg
variable (b : Bmsg)

/-- `LW_BMSG_ADJUST_PUT` and `LW_BMSG_ADJUST_GET`. -/
def adjust (p : ℕ) : ℕ := if b.stSize ≤ p then 0 else p

/-- `_bmsgPut`, with what it returns. -/
def bmsgPut (data : List UInt8) : Bmsg × ℕ :=
  let stSize := data.length
  let stSave := stSize + prefixLen
  if 65535 ≤ stSave then
    (b, 0)
  else if b.stLeft < stSave then
    (b, 0)
  else
    let buf₁ := Function.update b.pucBuffer b.pucPut (UInt8.ofNat (stSize >>> 8))
    let put₁ := b.adjust (b.pucPut + 1)
    let buf₂ := Function.update buf₁ put₁ (UInt8.ofNat (stSize &&& 0xff))
    let put₂ := b.adjust (put₁ + 1)
    let stLen := b.stSize - put₂
    let stLeft := b.stLeft - stSave
    if stSize ≤ stLen then
      ({ b with
          pucBuffer := copyIn buf₂ put₂ data
          pucPut := if stSize < stLen then put₂ + stSize else 0
          stLeft },
        stSize)
    else
      ({ b with
          pucBuffer := copyIn (copyIn buf₂ put₂ (data.take stLen)) 0 (data.drop stLen)
          pucPut := stSize - stLen
          stLeft },
        stSize)

/-- The length before the next message. -/
def nextSize : ℕ :=
  let ucHigh := b.pucBuffer b.pucGet
  let ucLow := if b.stSize ≤ b.pucGet + 1 then b.pucBuffer 0 else b.pucBuffer (b.pucGet + 1)
  (ucHigh.toNat <<< 8) + ucLow.toNat

/-- `_bmsgNBytesNext`. -/
def bmsgNBytesNext : ℕ := if b.stSize = b.stLeft then 0 else b.nextSize

/-- `_bmsgGet`, with the message, which is empty when there is none; it fails when the receiver's buffer is
too small. -/
def bmsgGet (stBufferSize : ℕ) : Bmsg × Option (List UInt8) :=
  if b.stSize - b.stLeft = 0 then
    (b, some [])
  else
    let stSize := b.nextSize
    if stBufferSize < stSize then
      (b, none)
    else
      let get₂ := b.adjust (b.adjust (b.pucGet + 1) + 1)
      let stLen := b.stSize - get₂
      let stLeft := b.stLeft + (stSize + prefixLen)
      if stSize ≤ stLen then
        ({ b with pucGet := if stSize < stLen then get₂ + stSize else 0, stLeft },
          some (copyOut b.pucBuffer get₂ stSize))
      else
        ({ b with pucGet := stSize - stLen, stLeft },
          some (copyOut b.pucBuffer get₂ stLen ++ copyOut b.pucBuffer 0 (stSize - stLen)))

/-- `_bmsgFlush`. -/
def bmsgFlush : Bmsg := { b with stLeft := b.stSize, pucPut := 0, pucGet := 0 }

/-- `_bmsgFreeByte`. -/
def bmsgFreeByte : ℕ := if b.stLeft ≤ prefixLen then 0 else b.stLeft - prefixLen

/-- `_bmsgNBytes`. -/
def bmsgNBytes : ℕ := b.stSize - b.stLeft

/-! ## The ring -/

/-- The same bytes as in a ring that counts those it holds. -/
def ring : RingBuffer UInt8 :=
  { pcBuffer := b.pucBuffer, pcInPtr := b.pucPut, pcOutPtr := b.pucGet, stTotalBytes := b.stSize,
    stMsgBytes := b.stSize - b.stLeft }

/-- The buffer holds these messages. -/
structure Holds (msgs : List (List UInt8)) : Prop where
  ok : b.ring.Ok
  left : b.stLeft ≤ b.stSize
  bytes : b.ring.bytes = msgs.flatMap encode
  sizes : ∀ m ∈ msgs, 0 < m.length ∧ m.length < 65536

variable {b} {msgs : List (List UInt8)} {m data : List UInt8} {n : ℕ}

theorem prefix_size (hn : n < 65536) :
    ((UInt8.ofNat (n >>> 8)).toNat <<< 8) + (UInt8.ofNat (n &&& 0xff)).toNat = n := by
  have hlow : n &&& 0xff = n % 256 := Nat.and_two_pow_sub_one_eq_mod n 8
  rw [hlow, Nat.shiftRight_eq_div_pow, Nat.shiftLeft_eq, UInt8.toNat_ofNat', UInt8.toNat_ofNat']
  omega

@[simp] theorem encode_length : (encode m).length = m.length + prefixLen := by
  simp [encode, sizePrefix, prefixLen]

theorem adjust_eq {p : ℕ} (hp : p ≤ b.stSize) : b.adjust p = wrap b.stSize p := by
  unfold adjust wrap
  split_ifs <;> omega

theorem Holds.flush (h : b.Holds msgs) : b.bmsgFlush.Holds [] where
  ok := by
    have hflush := h.ok.flush
    have heq : b.bmsgFlush.ring = b.ring.flush := by
      simp [bmsgFlush, ring, RingBuffer.flush]
    exact heq ▸ hflush
  left := le_rfl
  bytes := by simp [bmsgFlush, ring, RingBuffer.bytes, contents]
  sizes := nofun

theorem holds_create {size : ℕ} {buf : ℕ → UInt8} (h : bmsgCreate size buf = some b) :
    b.Holds [] ∧ b.stSize = size ∧ b.stLeft = size := by
  unfold bmsgCreate at h
  split_ifs at h with hsize
  obtain rfl := Option.some.inj h
  have hpos : 0 < size := by simp only [minSize] at hsize; omega
  refine ⟨⟨⟨hpos, ?_, ?_⟩, le_rfl, ?_, nofun⟩, rfl, rfl⟩
  · simp [ring]
  · simp [ring]
  · simp [ring, RingBuffer.bytes, contents]

/-- The buffer has what the messages and their lengths need. -/
theorem Holds.used (h : b.Holds msgs) :
    b.stSize - b.stLeft = (msgs.map fun m => m.length + prefixLen).sum := by
  have hlen := congrArg List.length h.bytes
  rw [RingBuffer.bytes_length, List.length_flatMap] at hlen
  simpa [ring] using hlen

theorem Holds.empty_iff (h : b.Holds msgs) : b.stSize - b.stLeft = 0 ↔ msgs = [] := by
  rw [h.used]
  cases msgs with
  | nil => simp
  | cons m msgs =>
    simp only [List.map_cons, List.sum_cons, prefixLen, reduceCtorEq, iff_false]
    omega

/-- A message that fits is put behind the others. -/
theorem Holds.put (h : b.Holds msgs) (hpos : 0 < data.length) (hsize : data.length + prefixLen < 65535)
    (hfit : data.length + prefixLen ≤ b.stLeft) :
    (b.bmsgPut data).2 = data.length ∧ (b.bmsgPut data).1.Holds (msgs ++ [data]) ∧
      (b.bmsgPut data).1.stLeft = b.stLeft - (data.length + prefixLen) ∧
      (b.bmsgPut data).1.stSize = b.stSize := by
  have hin : b.pucPut < b.stSize := h.ok.in_lt
  have hleft := h.left
  let r₁ := b.ring.put [UInt8.ofNat (data.length >>> 8)]
  let r₂ := r₁.put [UInt8.ofNat (data.length &&& 0xff)]
  have hp₁ : b.adjust (b.pucPut + 1) = wrap b.stSize (b.pucPut + 1) := adjust_eq (by omega)
  have hlt₁ : wrap b.stSize (b.pucPut + 1) < b.stSize := wrap_lt (by omega)
  have hp₂ : b.adjust (wrap b.stSize (b.pucPut + 1) + 1) =
      wrap b.stSize (wrap b.stSize (b.pucPut + 1) + 1) := adjust_eq (by omega)
  have hlt₂ : wrap b.stSize (wrap b.stSize (b.pucPut + 1) + 1) < b.stSize := wrap_lt (by omega)
  have hr₁ : r₁ = _ := RingBuffer.put_one (r := b.ring) hin _
  have hr₂ : r₂ = _ := RingBuffer.put_one (r := r₁) (by rw [hr₁]; exact hlt₁) _
  rw [hr₁] at hr₂
  dsimp only [ring] at hr₂
  obtain ⟨hok₁, hbytes₁⟩ : r₁.Ok ∧ r₁.bytes = b.ring.bytes ++ _ :=
    h.ok.put (by simp only [ring, prefixLen] at *; simp; omega)
  obtain ⟨hok₂, hbytes₂⟩ : r₂.Ok ∧ r₂.bytes = r₁.bytes ++ _ :=
    hok₁.put (by rw [hr₁]; simp only [ring, prefixLen] at *; simp; omega)
  obtain ⟨hok₃, hbytes₃⟩ : (r₂.put data).Ok ∧ (r₂.put data).bytes = r₂.bytes ++ data := hok₂.put
    (by rw [hr₂]; simp only [prefixLen] at *; omega)
  have hput : (b.bmsgPut data).1.ring = r₂.put data ∧ (b.bmsgPut data).2 = data.length ∧
      (b.bmsgPut data).1.stLeft = b.stLeft - (data.length + prefixLen) ∧
      (b.bmsgPut data).1.stSize = b.stSize := by
    have hused : b.stSize - (b.stLeft - (data.length + prefixLen)) =
        b.stSize - b.stLeft + 1 + 1 + data.length := by
      simp only [prefixLen] at *
      omega
    unfold bmsgPut RingBuffer.put
    dsimp only
    rw [if_neg (by omega), if_neg (by omega), hp₁, hp₂, hr₂]
    dsimp only
    split_ifs with h₁ h₂ h₃
    all_goals first
      | omega
      | exact ⟨by simp only [ring, hused], rfl, rfl, rfl⟩
  refine ⟨hput.2.1, ⟨hput.1 ▸ hok₃, ?_, ?_, ?_⟩, hput.2.2⟩
  · rw [hput.2.2.1, hput.2.2.2]
    omega
  · rw [hput.1, hbytes₃, hbytes₂, hbytes₁, h.bytes]
    simp [encode, sizePrefix]
  · intro m hm
    rcases List.mem_append.mp hm with hm | hm
    · exact h.sizes m hm
    · obtain rfl := List.mem_singleton.mp hm
      exact ⟨hpos, by omega⟩

/-- What lies at the head of the ring. -/
theorem Holds.head (h : b.Holds (m :: msgs)) :
    b.nextSize = m.length ∧ b.bmsgNBytesNext = m.length ∧ b.stSize - b.stLeft ≠ 0 := by
  have hused := h.used
  have hout : b.pucGet < b.stSize := h.ok.out_lt
  simp only [List.map_cons, List.sum_cons, prefixLen] at hused
  have hbytes := h.bytes
  obtain ⟨k, hk⟩ : ∃ k, b.stSize - b.stLeft = k + 1 + 1 := ⟨b.stSize - b.stLeft - 2, by omega⟩
  have hw : wrap b.stSize (b.pucGet + 1) < b.stSize := wrap_lt (by omega)
  have hcells : b.ring.bytes = b.pucBuffer b.pucGet :: b.pucBuffer (wrap b.stSize (b.pucGet + 1)) ::
      contents b.stSize (wrap b.stSize (wrap b.stSize (b.pucGet + 1) + 1)) k b.pucBuffer := by
    unfold RingBuffer.bytes
    change contents b.stSize b.pucGet (b.stSize - b.stLeft) b.pucBuffer = _
    rw [hk, contents_pop hout (by omega), contents_pop hw (by omega)]
  rw [hcells, List.flatMap_cons, encode, sizePrefix] at hbytes
  simp only [List.cons_append, List.cons.injEq] at hbytes
  obtain ⟨hhigh, hlow, -⟩ := hbytes
  have hnext : b.nextSize = m.length := by
    unfold nextSize
    have hplace : (if b.stSize ≤ b.pucGet + 1 then b.pucBuffer 0 else b.pucBuffer (b.pucGet + 1)) =
        b.pucBuffer (wrap b.stSize (b.pucGet + 1)) := by
      rw [← adjust_eq (by omega), adjust]
      split_ifs <;> rfl
    dsimp only
    rw [hplace, hhigh, hlow]
    exact prefix_size (h.sizes m (List.mem_cons_self ..)).2
  refine ⟨hnext, ?_, by omega⟩
  unfold bmsgNBytesNext
  rw [if_neg (by omega), hnext]

/-- The first message is taken out. -/
theorem Holds.get (h : b.Holds (m :: msgs)) (hn : m.length ≤ n) :
    (b.bmsgGet n).2 = some m ∧ (b.bmsgGet n).1.Holds msgs ∧
      (b.bmsgGet n).1.stLeft = b.stLeft + (m.length + prefixLen) ∧
      (b.bmsgGet n).1.stSize = b.stSize := by
  obtain ⟨hnext, -, hne⟩ := h.head
  have hout : b.pucGet < b.stSize := h.ok.out_lt
  have hleft := h.left
  have hused := h.used
  simp only [List.map_cons, List.sum_cons, prefixLen] at hused
  have hp₁ : b.adjust (b.pucGet + 1) = wrap b.stSize (b.pucGet + 1) := adjust_eq (by omega)
  have hlt₁ : wrap b.stSize (b.pucGet + 1) < b.stSize := wrap_lt (by omega)
  have hp₂ : b.adjust (wrap b.stSize (b.pucGet + 1) + 1) = wrap b.stSize (b.pucGet + 2) := by
    rw [adjust_eq (by omega), wrap_add_wrap hout (by omega)]
  -- The two bytes of the length, and then the message.
  obtain ⟨hok₁, hbytes₁⟩ := h.ok.get (n := 2) (by simp only [ring]; omega)
  have hr₁ := h.ok.get_eq (n := 2) (by simp only [ring]; omega)
  dsimp only [ring] at hr₁
  obtain ⟨hok₂, hbytes₂⟩ := hok₁.get (n := m.length)
    (by rw [RingBuffer.get_stMsgBytes]; simp only [ring]; omega)
  have hget : (b.bmsgGet n).1.ring = ((b.ring.get 2).2.get m.length).2 ∧
      (b.bmsgGet n).2 = some ((b.ring.get 2).2.get m.length).1 ∧
      (b.bmsgGet n).1.stLeft = b.stLeft + (m.length + prefixLen) ∧
      (b.bmsgGet n).1.stSize = b.stSize := by
    have hmsg : b.stSize - (b.stLeft + (m.length + prefixLen)) = b.stSize - b.stLeft - 2 - m.length := by
      simp only [prefixLen]
      omega
    unfold bmsgGet
    rw [if_neg hne, hnext, if_neg (by omega), hp₁, hp₂]
    dsimp only [ring]
    rw [hr₁]
    unfold RingBuffer.get
    dsimp only
    split_ifs
    all_goals first
      | omega
      | exact ⟨by simp only [hmsg], rfl, rfl, rfl⟩
  have hall : encode m ++ msgs.flatMap encode = (b.ring.get 2).1 ++
      (((b.ring.get 2).2.get m.length).1 ++ ((b.ring.get 2).2.get m.length).2.bytes) := by
    rw [← hbytes₂, ← hbytes₁, h.bytes, List.flatMap_cons]
  have hlen₁ : (b.ring.get 2).1.length = 2 := by
    have := congrArg List.length hbytes₁
    simp only [List.length_append, RingBuffer.bytes_length, RingBuffer.get_stMsgBytes, ring] at this ⊢
    omega
  have hlen₂ : ((b.ring.get 2).2.get m.length).1.length = m.length := by
    have := congrArg List.length hbytes₂
    simp only [List.length_append, RingBuffer.bytes_length, RingBuffer.get_stMsgBytes, ring] at this ⊢
    omega
  rw [encode, List.append_assoc] at hall
  obtain ⟨-, hall⟩ := List.append_inj hall (by rw [hlen₁]; rfl)
  obtain ⟨hm, hrest⟩ := List.append_inj hall hlen₂.symm
  refine ⟨hget.2.1.trans (congrArg some hm.symm), ⟨hget.1 ▸ hok₂, ?_, ?_, ?_⟩, hget.2.2⟩
  · rw [hget.2.2.1, hget.2.2.2]
    simp only [prefixLen]
    omega
  · rw [hget.1]
    exact hrest.symm
  · exact fun m' hm' => h.sizes m' (List.mem_cons_of_mem _ hm')

theorem Holds.next_nil (h : b.Holds []) : b.bmsgNBytesNext = 0 := by
  have hzero := h.empty_iff.mpr rfl
  have hleft := h.left
  exact if_pos (by omega)

end Bmsg

end SylixOS.Device
