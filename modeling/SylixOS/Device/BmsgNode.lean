import SylixOS.Device.BmsgBuffer
import SylixOS.Lib.Reach
import SylixOS.Lib.Token

/-! # Block message nodes

Threads read and write whole messages. A thread takes the token of its side first and then looks at the
buffer under the lock of the device; it gives a token back when there is still something for its side.
-/

namespace SylixOS.Device
open Lib

/-- What a thread has called and not come back from. -/
inductive BmsgCall where
  | idle
  | read (phase : Phase) (stMaxBytes : ℕ) (nonblock : Bool)
  /-- A reader with too small a buffer has left the lock and gives the token back. -/
  | repost
  | write (phase : Phase) (data : List UInt8) (nonblock : Bool)

/-- How an opening goes: it is refused under the lock, there is no memory for the file, or it is done. -/
inductive BmsgOpen where
  | refused
  | noMemory
  | opened

/-- `bmsg_param`. -/
structure BmsgParam where
  totalSize : ℕ
  atomicSize : ℕ
  force : Bool

/-- `LW_BMSG_INODE`, with `BMSGD_ulMutex` as it is between locked sections and with what threads do. The
code does not keep the messages that ought to be stored, those that are gone and whether they were read,
those that reads returned, and the writes with what they returned, if it was not an error. -/
structure BmsgNode where
  pbmsg : Option Bmsg
  stAtSize : ℕ
  iOpenNum : ℕ
  ulReadLock : Token
  ulWriteLock : Token
  ulMutex : Option ℕ
  calls : ℕ → BmsgCall
  msgs : List (List UInt8)
  gone : List (Bool × List UInt8)
  got : List (List UInt8)
  writes : List (List UInt8 × Option ℕ)

inductive BmsgEvent where
  | read (i stMaxBytes : ℕ) (nonblock : Bool)
  | write (i : ℕ) (data : List UInt8) (nonblock : Bool)
  /-- A thread that is in a call goes on; `k` and `k'` choose whom its posts wake. -/
  | go (i k k' : ℕ)
  /-- A wait ends by its timeout. -/
  | timeout (i : ℕ)
  | flush (i k : ℕ)
  /-- A configuration, with the memory that the heap gave. -/
  | set (i : ℕ) (param : BmsgParam) (pucBuffer : Option (ℕ → UInt8)) (k : ℕ)
  | openFile (i : ℕ) (r : BmsgOpen)

namespace BmsgCall

/-- Where a thread is as a reader. -/
def reader : BmsgCall → Phase
  | .read phase _ _ => phase
  | .repost => .ready
  | _ => .away

/-- Where a thread is as a writer. -/
def writer : BmsgCall → Phase
  | .write phase _ _ => phase
  | _ => .away

/-- A thread that waited is given the semaphore. -/
def woken : BmsgCall → BmsgCall
  | .read _ stMaxBytes nonblock => .read .ready stMaxBytes nonblock
  | .write _ data nonblock => .write .ready data nonblock
  | c => c

end BmsgCall

namespace BmsgNode
variable (s : BmsgNode)

def setCall (i : ℕ) (c : BmsgCall) : BmsgNode := { s with calls := Function.update s.calls i c }

def wake : Option ℕ → BmsgNode
  | none => s
  | some i => s.setCall i (s.calls i).woken

/-- `BMSG_FILE_POST_READ`. -/
def postRead (k : ℕ) : BmsgNode :=
  { s.wake (s.ulReadLock.post k).2 with ulReadLock := (s.ulReadLock.post k).1 }

/-- `BMSG_FILE_POST_WRITE`. -/
def postWrite (k : ℕ) : BmsgNode :=
  { s.wake (s.ulWriteLock.post k).2 with ulWriteLock := (s.ulWriteLock.post k).1 }

/-- Can `BMSG_DEV_LOCK` be had? -/
def canLock (i : ℕ) : Bool := s.ulMutex.all (· = i)

/-- A write comes back without having stored anything. -/
def refuse (i : ℕ) (data : List UInt8) : BmsgNode :=
  { s.setCall i .idle with writes := s.writes ++ [(data, none)] }

/-! ## Reads -/

/-- `_bmsgRead`, up to its loop. -/
def readStart (i stMaxBytes : ℕ) (nonblock : Bool) : BmsgNode :=
  if stMaxBytes = 0 ∨ s.pbmsg.isNone then s
  else s.setCall i (.read .pend stMaxBytes nonblock)

/-- `BMSG_FILE_PEND_READ`. -/
def readPend (i stMaxBytes : ℕ) (nonblock : Bool) : BmsgNode :=
  if nonblock ∧ s.ulReadLock.counter = false then s.setCall i .idle
  else
    { s.setCall i (.read (s.ulReadLock.pend i).2 stMaxBytes nonblock) with
      ulReadLock := (s.ulReadLock.pend i).1 }

/-- `_bmsgGet` in a read. -/
def readTake (i stMaxBytes : ℕ) (b : Bmsg) : BmsgNode :=
  { s.setCall i .idle with
    pbmsg := some (b.bmsgGet stMaxBytes).1
    msgs := s.msgs.drop 1
    gone := s.gone ++ (s.msgs.take 1).map (true, ·)
    got := s.got ++ (b.bmsgGet stMaxBytes).2.toList }

/-- The posts at the end of a read that has left this buffer. -/
def readNotify (b : Bmsg) (k k' : ℕ) : BmsgNode :=
  let s : BmsgNode := if b.bmsgNBytes ≠ 0 then s.postRead k else s
  if s.stAtSize ≤ b.bmsgFreeByte then s.postWrite k' else s

/-- The locked section of `_bmsgRead`. -/
def readSection (i stMaxBytes : ℕ) (nonblock : Bool) (b : Bmsg) (k k' : ℕ) : BmsgNode :=
  let stMsgLen := b.bmsgNBytesNext
  if stMaxBytes < stMsgLen then s.setCall i .repost
  else if stMsgLen ≠ 0 then (s.readTake i stMaxBytes b).readNotify (b.bmsgGet stMaxBytes).1 k k'
  else s.setCall i (.read .pend stMaxBytes nonblock)

/-! ## Writes -/

/-- `_bmsgWrite`, up to its loop. -/
def writeStart (i : ℕ) (data : List UInt8) (nonblock : Bool) : BmsgNode :=
  if data = [] then s
  else if s.pbmsg.isNone then s.refuse i data
  else if s.stAtSize < data.length then s.refuse i data
  else s.setCall i (.write .pend data nonblock)

/-- `BMSG_FILE_PEND_WRITE`. -/
def writePend (i : ℕ) (data : List UInt8) (nonblock : Bool) : BmsgNode :=
  if nonblock ∧ s.ulWriteLock.counter = false then s.refuse i data
  else
    { s.setCall i (.write (s.ulWriteLock.pend i).2 data nonblock) with
      ulWriteLock := (s.ulWriteLock.pend i).1 }

/-- `_bmsgPut` in a write, which returns what it returns. -/
def writePut (i : ℕ) (data : List UInt8) (b : Bmsg) : BmsgNode :=
  let sstRet := (b.bmsgPut data).2
  { s.setCall i .idle with
    pbmsg := some (b.bmsgPut data).1
    msgs := if sstRet = 0 then s.msgs else s.msgs ++ [data]
    writes := s.writes ++ [(data, some sstRet)] }

/-- The posts at the end of a write that has left this buffer. -/
def writeNotify (b : Bmsg) (k k' : ℕ) : BmsgNode :=
  let s : BmsgNode := if s.stAtSize ≤ b.bmsgFreeByte then s.postWrite k else s
  s.postRead k'

/-- The locked section of `_bmsgWrite`. -/
def writeSection (i : ℕ) (data : List UInt8) (nonblock : Bool) (b : Bmsg) (k k' : ℕ) : BmsgNode :=
  if data.length ≤ b.bmsgFreeByte then
    (s.writePut i data b).writeNotify (b.bmsgPut data).1 k k'
  else s.setCall i (.write .pend data nonblock)

/-! ## Other calls -/

/-- A buffer without messages takes the place of the old one. -/
def renew (b : Bmsg) (stAtSize k : ℕ) : BmsgNode :=
  let s : BmsgNode :=
    { s with
      pbmsg := some b, stAtSize, ulReadLock := s.ulReadLock.clear
      msgs := [], gone := s.gone ++ s.msgs.map (false, ·) }
  s.postWrite k

/-- `_bmsgSetInode`. -/
def bmsgSetInode (param : BmsgParam) (pucBuffer : Option (ℕ → UInt8)) (k : ℕ) : BmsgNode :=
  if param.totalSize < 16 ∨ param.atomicSize = 0 ∨ param.totalSize - 2 < param.atomicSize then s
  else if 65535 < param.atomicSize then s
  else if s.pbmsg.isSome ∧ param.force = false then s
  else
    match pucBuffer.bind (bmsgCreate param.totalSize) with
    | none => s
    | some b => s.renew b param.atomicSize k

/-- `_bmsgFlushInode`. -/
def bmsgFlushInode (k : ℕ) : BmsgNode :=
  match s.pbmsg with
  | none => s
  | some b => s.renew b.bmsgFlush s.stAtSize k

/-- `_bmsgOpen` of the node, which does not give the lock back when there is no memory for the file. -/
def bmsgOpen (i : ℕ) : BmsgOpen → BmsgNode
  | .refused => s
  | .noMemory => { s with ulMutex := some i }
  | .opened => { s with iOpenNum := s.iOpenNum + 1 }

/-- The next step of a thread that is in a call and does not wait. -/
def go (i k k' : ℕ) : Option BmsgNode :=
  match s.calls i with
  | .read .pend stMaxBytes nonblock => some (s.readPend i stMaxBytes nonblock)
  | .read .ready stMaxBytes nonblock =>
    if s.canLock i then s.pbmsg.map fun b => s.readSection i stMaxBytes nonblock b k k' else none
  | .repost => some ((s.setCall i .idle).postRead k)
  | .write .pend data nonblock => some (s.writePend i data nonblock)
  | .write .ready data nonblock =>
    if s.canLock i then s.pbmsg.map fun b => s.writeSection i data nonblock b k k' else none
  | _ => none

/-- One step. -/
def step : BmsgEvent → Option BmsgNode
  | .read i stMaxBytes nonblock =>
    match s.calls i with
    | .idle => some (s.readStart i stMaxBytes nonblock)
    | _ => none
  | .write i data nonblock =>
    match s.calls i with
    | .idle => some (s.writeStart i data nonblock)
    | _ => none
  | .go i k k' => s.go i k k'
  | .timeout i =>
    match s.calls i with
    | .read .wait _ _ => some { s.setCall i .idle with ulReadLock := s.ulReadLock.leave i }
    | .write .wait data _ => some { s.refuse i data with ulWriteLock := s.ulWriteLock.leave i }
    | _ => none
  | .flush i k =>
    match s.calls i with
    | .idle => if s.canLock i then some (s.bmsgFlushInode k) else none
    | _ => none
  | .set i param pucBuffer k =>
    match s.calls i with
    | .idle => if s.canLock i then some (s.bmsgSetInode param pucBuffer k) else none
    | _ => none
  | .openFile i r =>
    match s.calls i with
    | .idle => if s.canLock i then some (s.bmsgOpen i r) else none
    | _ => none

/-- An opening has memory for the file, a write does not come to 65533 bytes, and a writer that finds no
room where there is room for a message of the atomic size does not take the only token with it. -/
def StepOk : BmsgEvent → Prop
  | .openFile _ r => r ≠ .noMemory
  | .go i _ _ => ∀ data nonblock b, s.calls i = .write .ready data nonblock → s.pbmsg = some b →
      (data.length ≤ b.bmsgFreeByte → data.length < 65533) ∧
      (b.bmsgFreeByte < data.length → s.stAtSize ≤ b.bmsgFreeByte →
        s.ulWriteLock.counter = true ∨ ∃ j ≠ i, (s.calls j).writer = .ready)
  | _ => True

/-- `_bmsgCreateInode`. -/
structure Init : Prop where
  pbmsg : s.pbmsg = none
  ulReadLock : s.ulReadLock = ⟨false, []⟩
  ulWriteLock : s.ulWriteLock = ⟨false, []⟩
  ulMutex : s.ulMutex = none
  calls : ∀ i, s.calls i = .idle
  msgs : s.msgs = []
  gone : s.gone = []
  got : s.got = []
  writes : s.writes = []

/-- No thread that is in a call can go on. -/
def Quiet : Prop := ∀ i k k', s.go i k k' = none

structure Safe : Prop where
  /-- A write that is no error returns the length of its message. -/
  writes : ∀ w ∈ s.writes, ∀ n, w.2 = some n → n = w.1.length
  /-- The messages of these writes are gone or stored, in order. -/
  order : (s.writes.filter fun w => w.2.isSome).map Prod.fst = s.gone.map Prod.snd ++ s.msgs
  /-- Reads have returned those that are gone and were not dropped. -/
  got : s.got = (s.gone.filter Prod.fst).map Prod.snd
  /-- The buffer has the stored messages. -/
  buffer : ∀ b, s.pbmsg = some b → b.Holds s.msgs
  started : ∀ i, s.calls i ≠ .idle → s.pbmsg.isSome
  lock : s.ulMutex = none
  /-- When all threads wait, there is nothing for them. -/
  readers : s.Quiet → ∀ i, (s.calls i).reader = .wait → s.msgs = []
  writers : s.Quiet → ∀ i, (s.calls i).writer = .wait → ∀ b, s.pbmsg = some b →
    b.bmsgFreeByte < s.stAtSize

end BmsgNode

end SylixOS.Device
