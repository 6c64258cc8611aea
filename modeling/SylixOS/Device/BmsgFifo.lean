import SylixOS.Device.BmsgBuffer
import SylixOS.Lib.Answers

/-! # A block message ring is a queue of messages

Messages are put, taken out and flushed in any order. The ring answers as a queue of byte strings does
that has two bytes of its size taken for each of them.
-/

namespace SylixOS.Device
open Lib

inductive BmsgOp where
  | put (data : List UInt8)
  | get (stBufferSize : ℕ)
  | flush

/-- What a call returned: the size that was put, or the message that was taken out, unless the
receiver's buffer was too small. -/
inductive BmsgRet where
  | put (stSize : ℕ)
  | get (msg : Option (List UInt8))
  | flush
  deriving DecidableEq

/-- A message has from one byte to the most that `_bmsgPut` takes. -/
def BmsgOp.Admitted : BmsgOp → Prop
  | .put data => 0 < data.length ∧ data.length + prefixLen < 65535
  | _ => True

instance : ∀ op : BmsgOp, Decidable op.Admitted
  | .put _ => inferInstanceAs (Decidable (_ ∧ _))
  | .get _ => .isTrue trivial
  | .flush => .isTrue trivial

/-- One call. -/
def Bmsg.step (b : Bmsg) : BmsgOp → Bmsg × BmsgRet
  | .put data => ((b.bmsgPut data).1, .put (b.bmsgPut data).2)
  | .get stBufferSize => ((b.bmsgGet stBufferSize).1, .get (b.bmsgGet stBufferSize).2)
  | .flush => (b.bmsgFlush, .flush)

/-- A queue of byte strings with a bound on their encoded length. -/
structure MsgFifo where
  size : ℕ
  msgs : List (List UInt8)

namespace MsgFifo
variable (q : MsgFifo)

/-- What the stored messages need. -/
def used : ℕ := (q.msgs.map fun m => m.length + prefixLen).sum

/-- The length of the oldest message. -/
def nextLength : ℕ := (q.msgs.head?.map List.length).getD 0

/-- A message is stored if there is room for it. -/
def put (data : List UInt8) : MsgFifo × ℕ :=
  if q.used + (data.length + prefixLen) ≤ q.size then
    ({ q with msgs := q.msgs ++ [data] }, data.length)
  else (q, 0)

/-- The oldest message is taken out if it is not too long. -/
def get (n : ℕ) : MsgFifo × Option (List UInt8) :=
  match q.msgs with
  | [] => (q, some [])
  | m :: msgs => if m.length ≤ n then ({ q with msgs }, some m) else (q, none)

def step : BmsgOp → MsgFifo × BmsgRet
  | .put data => ((q.put data).1, .put (q.put data).2)
  | .get n => ((q.get n).1, .get (q.get n).2)
  | .flush => ({ q with msgs := [] }, .flush)

theorem step_size (op : BmsgOp) : (q.step op).1.size = q.size := by
  rcases op with data | n | _
  · simp only [step, put]
    split_ifs <;> rfl
  · simp only [step, get]
    split
    · rfl
    · split_ifs <;> rfl
  · rfl

end MsgFifo

namespace Bmsg
variable {b b' : Bmsg} {q : MsgFifo} {msgs : List (List UInt8)} {m data : List UInt8} {n stSize : ℕ}
  {pucBuffer : ℕ → UInt8} {ops : List BmsgOp}

/-- The buffer holds the messages of the queue. -/
structure Represents (b : Bmsg) (q : MsgFifo) : Prop where
  size : b.stSize = q.size
  holds : b.Holds q.msgs

theorem Represents.left (h : b.Represents q) : b.stLeft + q.used = q.size := by
  have hused := h.holds.used
  have hleft := h.holds.left
  rw [← h.size, MsgFifo.used]
  omega

/-- A message for which there is no room changes nothing. -/
theorem put_full (hn : b.stLeft < data.length + prefixLen) : b.bmsgPut data = (b, 0) := by
  unfold bmsgPut
  dsimp only
  split_ifs <;> rfl

theorem Represents.put (h : b.Represents q) (hpos : 0 < data.length)
    (hsize : data.length + prefixLen < 65535) :
    (b.bmsgPut data).1.Represents (q.put data).1 ∧ (b.bmsgPut data).2 = (q.put data).2 := by
  have hleft := h.left
  unfold MsgFifo.put
  split_ifs with hroom
  · obtain ⟨hret, hholds, -, hsame⟩ := h.holds.put hpos hsize (by omega)
    exact ⟨⟨hsame.trans h.size, hholds⟩, hret⟩
  · rw [put_full (by omega)]
    exact ⟨h, rfl⟩

/-- A receiver whose buffer is too small changes nothing. -/
theorem get_none (hnone : (b.bmsgGet n).2 = none) : (b.bmsgGet n).1 = b := by
  unfold bmsgGet at hnone ⊢
  dsimp only at hnone ⊢
  split_ifs at hnone ⊢
  rfl

theorem Represents.get (h : b.Represents q) :
    (b.bmsgGet n).1.Represents (q.get n).1 ∧ (b.bmsgGet n).2 = (q.get n).2 := by
  obtain ⟨size, msgs⟩ := q
  cases msgs with
  | nil =>
    have hget : b.bmsgGet n = (b, some []) := by
      rw [bmsgGet, if_pos (h.holds.empty_iff.mpr rfl)]
    rw [hget]
    exact ⟨h, rfl⟩
  | cons m msgs =>
    simp only [MsgFifo.get]
    split_ifs with hn
    · obtain ⟨hret, hholds, -, hsame⟩ := h.holds.get hn
      exact ⟨⟨hsame.trans h.size, hholds⟩, hret⟩
    · obtain ⟨hnext, -, hne⟩ := h.holds.head
      have hget : b.bmsgGet n = (b, none) := by
        rw [bmsgGet, if_neg hne]
        dsimp only
        rw [hnext, if_pos (by omega)]
      rw [hget]
      exact ⟨h, rfl⟩

theorem Represents.next (h : b.Represents q) : b.bmsgNBytesNext = q.nextLength := by
  obtain ⟨size, msgs⟩ := q
  cases msgs with
  | nil => exact h.holds.next_nil
  | cons m msgs => exact h.holds.head.2.1

/-- The ring refines the queue. -/
theorem step_refines :
    Refines Bmsg.step MsgFifo.step (fun _ op => op.Admitted) Represents := by
  rintro b q (data | n | _) h hadm
  · obtain ⟨hrep, hret⟩ := h.put hadm.1 hadm.2
    exact ⟨hrep, congrArg BmsgRet.put hret⟩
  · obtain ⟨hrep, hret⟩ := h.get (n := n)
    exact ⟨hrep, congrArg BmsgRet.get hret⟩
  · exact ⟨⟨h.size, h.holds.flush⟩, rfl⟩

/-- A ring of any size that `_bmsgCreate` takes answers as the queue does after any calls; its peek is
the length of the oldest message, what is left is the size without the encoded messages, and a failed
get changes nothing. -/
theorem bmsg_fifo (hcreate : bmsgCreate stSize pucBuffer = some b) (hadm : ∀ op ∈ ops, op.Admitted) :
    (answers Bmsg.step b ops).2 = (answers MsgFifo.step ⟨stSize, []⟩ ops).2 ∧
      (answers Bmsg.step b ops).1.bmsgNBytesNext =
        (answers MsgFifo.step ⟨stSize, []⟩ ops).1.nextLength ∧
      (answers Bmsg.step b ops).1.stLeft + (answers MsgFifo.step ⟨stSize, []⟩ ops).1.used = stSize ∧
      ∀ n, ((answers Bmsg.step b ops).1.bmsgGet n).2 = none →
        ((answers Bmsg.step b ops).1.bmsgGet n).1 = (answers Bmsg.step b ops).1 := by
  obtain ⟨hholds, hsize, -⟩ := holds_create hcreate
  obtain ⟨hrep, hret⟩ := step_refines.answers (t := ⟨stSize, []⟩) ⟨hsize, hholds⟩
    (.of_forall fun _ op hop => hadm op hop)
  have hbound : (answers MsgFifo.step ⟨stSize, []⟩ ops).1.size = stSize :=
    answers_invariant (P := fun q : MsgFifo => q.size = stSize)
      (fun q op hq => (q.step_size op).trans hq) rfl
  exact ⟨hret, hrep.next, hrep.left.trans hbound, fun n => get_none⟩

/-- A message of 60 bytes leaves two bytes, which are the length of the next one once it is gone. -/
theorem bmsg_fifo_wrap : (answers Bmsg.step
    { pucBuffer := fun _ => 0, stSize := 64, stLeft := 64, pucPut := 0, pucGet := 0 }
      [.put (List.replicate 60 1), .put [2], .get 59, .get 60, .put [3, 4, 5], .get 10]).2 =
    [.put 60, .put 0, .get none, .get (some (List.replicate 60 1)), .put 3,
      .get (some [3, 4, 5])] := by
  have hcreate : bmsgCreate 64 (fun _ => 0) = some _ := rfl
  exact (bmsg_fifo hcreate (by decide)).1.trans (by decide)

end Bmsg

end SylixOS.Device
