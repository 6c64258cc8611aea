import SylixOS.Lib.Cut
import SylixOS.Lib.Reach
import SylixOS.Lib.Store
import Mathlib.Data.List.Perm.Basic
import Mathlib.Data.List.Range

/-! # The write pipeline of the disk cache

The disk cache hands its writes to a queue of messages, which a group of threads takes to the device.
Each message has a buffer of a partition, and the buffers in use are counted by a semaphore. The cache,
which has one caller at a time, does not let two writes of one sector wait in the queue: before it reads
or queues sectors that a message covers, it waits until every buffer but its own has come back.
-/

namespace SylixOS.Disk
open Lib Store

/-- `LW_DISKCACHE_WPMSG`, with the number of the write, which the code does not keep. -/
structure WpMsg where
  id : ℕ
  bWriting : Bool
  pvBuffer : ℕ
  ulStartSector : ℕ
  ulNSector : ℕ
  seq : ℕ
  deriving DecidableEq

/-- The sectors of a message. -/
def WpMsg.Covers (m : WpMsg) (s : ℕ) : Prop :=
  m.ulStartSector ≤ s ∧ s < m.ulStartSector + m.ulNSector

instance (m : WpMsg) (s : ℕ) : Decidable (m.Covers s) := inferInstanceAs (Decidable (_ ∧ _))

/-- Where a thread of the pipeline is: waiting for a message, let go from waiting, writing the buffer of
a message to the device, about to take the lock after that, about to put the buffer back, to count it,
and to wake up who waits for it. -/
inductive WpThread where
  | wait
  | woken
  | write (id : ℕ)
  | done (id : ℕ)
  | put (pvFree : ℕ)
  | notify
  | signal
  deriving DecidableEq

/-- What the cache wants of the pipeline. -/
inductive WpCall where
  | write (pvBuffer ulStartSector ulNSector : ℕ)
  | read (ulStartSector ulNSector : ℕ)
  | sync

/-- Where the cache is: holding no buffer, holding one, in the loop of `__diskCacheWpSync` or waiting
there, about to do what it wants, and about to tell the threads of a message. -/
inductive WpClient where
  | idle
  | hold (pvBuffer : ℕ)
  | check (ulGetCnt : ℕ) (call : WpCall)
  | wait (ulGetCnt : ℕ) (call : WpCall)
  | act (call : WpCall)
  | signal

/-- `LW_DISKCACHE_WP` with its threads, the cache and the device. `msgs` begins at `DISKCWP_plineTail`,
with the message that was queued last. The code does not keep what the device held at first, the number
of writes, the last write of each sector, the messages that have reached the device, those that it has
refused in every try, what was read and should have been, and what had reached the device at the end of
each wait. -/
structure WritePipeline (α : Type*) where
  msgs : List WpMsg
  plineHead : Option ℕ
  plineFree : List ℕ
  part : List ℕ
  hCounter : ℕ
  hQueue : ℕ
  hSync : Bool
  mem : ℕ → ℕ → α
  bParallel : Bool
  iMsgCount : ℕ
  threads : List WpThread
  client : WpClient
  dev : ℕ → α
  init : ℕ → α
  accepted : ℕ
  last : ℕ → Option (ℕ × α)
  reached : List WpMsg
  dropped : List ℕ
  got : List (α × Option α)
  synced : List (ℕ × List ℕ)

inductive WpEvent (α : Type*) where
  /-- `__diskCacheWpGetBuffer` for a write. -/
  | getBuffer
  /-- The buffer is filled, and `__diskCacheWpWrite` looks for an overlap. -/
  | write (ulStartSector : ℕ) (data : List α)
  /-- `__diskCacheWpRead` looks for an overlap. -/
  | read (ulStartSector ulNSector : ℕ)
  /-- `__diskCacheWpSteal`. -/
  | steal (ulSectorNo : ℕ)
  /-- `__diskCacheWpSync` is called. -/
  | sync
  /-- It looks at the free buffers. -/
  | check
  /-- It is let go from waiting. -/
  | wake
  /-- The cache goes on after it. -/
  | act
  /-- `__diskCacheWpWrite` posts the queue. -/
  | post
  /-- A thread takes the queue's semaphore. -/
  | take (i : ℕ)
  /-- It looks for a message. -/
  | pick (i : ℕ)
  /-- The device has written the buffer, or has refused that in every try. -/
  | perform (i : ℕ) (ok : Bool) (junk : List α)
  /-- The thread frees the message. -/
  | finish (i : ℕ)
  /-- It puts the buffer back. -/
  | put (i : ℕ)
  /-- It counts the buffer. -/
  | notify (i : ℕ)
  /-- It wakes up who waits. -/
  | signal (i : ℕ)

namespace WpThread

/-- The message that a thread writes. -/
def msg : WpThread → Option ℕ
  | .write id => some id
  | .done id => some id
  | _ => none

/-- The buffer that a thread is about to put back. -/
def buffer : WpThread → Option ℕ
  | .put pvFree => some pvFree
  | _ => none

/-- A thread that has freed a message and will wake up who waits. -/
def leaving : WpThread → Bool
  | .put _ => true
  | .notify => true
  | .signal => true
  | _ => false

end WpThread

/-- The sectors that the cache is to write or to read. -/
def WpCall.Covers : WpCall → ℕ → Prop
  | .write _ ulStartSector ulNSector, s => ulStartSector ≤ s ∧ s < ulStartSector + ulNSector
  | .read ulStartSector ulNSector, s => ulStartSector ≤ s ∧ s < ulStartSector + ulNSector
  | .sync, _ => False

/-- The buffers that the cache holds. -/
def WpCall.buffers : WpCall → List ℕ
  | .write pvBuffer _ _ => [pvBuffer]
  | _ => []

def WpClient.buffers : WpClient → List ℕ
  | .hold pvBuffer => [pvBuffer]
  | .check _ call => call.buffers
  | .wait _ call => call.buffers
  | .act call => call.buffers
  | _ => []

/-- The messages that the cache has queued and not told of. -/
def WpClient.signals : WpClient → ℕ
  | .signal => 1
  | _ => 0

namespace WritePipeline
variable {α : Type*} (s : WritePipeline α)

/-- A disk cache whose threads share the device holds the lock while it is written. -/
def LockFree : Prop := s.bParallel ∨ ∀ t ∈ s.threads, t.msg = none

instance : Decidable s.LockFree := inferInstanceAs (Decidable (_ ∨ _))

/-- `__diskCacheWpOverlap`. -/
def overlap (ulStartSector ulNSector : ℕ) : Bool :=
  s.msgs.any fun m =>
    ulStartSector < m.ulStartSector + m.ulNSector ∧
      m.ulStartSector ≤ ulStartSector + ulNSector - 1

/-- What a read of a sector is to find, unless the device has refused its last write. -/
def expected (sector : ℕ) : Option α :=
  match s.last sector with
  | none => some (s.init sector)
  | some (seq, v) => if seq ∈ s.dropped then none else some v

/-- The first message from the head on that no thread writes is marked. -/
def pickMsg : List WpMsg → Option (ℕ × List WpMsg)
  | [] => none
  | m :: l =>
    match pickMsg l with
    | some (id, l') => some (id, m :: l')
    | none => if m.bWriting then none else some (m.id, { m with bWriting := true } :: l)

/-- A thread looks for a message from `DISKCWP_plineHead` back to the tail. -/
def pickFrom (plineHead : Option ℕ) (msgs : List WpMsg) : Option (ℕ × List WpMsg) :=
  match plineHead with
  | none => none
  | some head =>
    match cut WpMsg.id head msgs with
    | none => none
    | some (l, m, r) => (pickMsg (l ++ [m])).map fun (id, l') => (id, l' ++ r)

/-- A message is queued. -/
def queue (pvBuffer ulStartSector ulNSector id : ℕ) (plineFree : List ℕ) : WritePipeline α :=
  { s with
    msgs := ⟨id, false, pvBuffer, ulStartSector, ulNSector, s.accepted⟩ :: s.msgs
    plineHead := if s.plineHead = none then some id else s.plineHead
    plineFree
    client := .signal
    accepted := s.accepted + 1
    last := fun sector =>
      if ulStartSector ≤ sector ∧ sector < ulStartSector + ulNSector then
        some (s.accepted, s.mem pvBuffer (sector - ulStartSector))
      else s.last sector }

/-- The device is read. -/
def readDev (ulStartSector ulNSector : ℕ) : WritePipeline α :=
  { s with
    client := .idle
    got := s.got ++ (List.range ulNSector).map fun i =>
      (s.dev (ulStartSector + i), s.expected (ulStartSector + i)) }

/-- The cache goes on with what it wants. -/
def proceed : WpCall → Option (WritePipeline α)
  | .write pvBuffer ulStartSector ulNSector =>
    match s.plineFree with
    | [] => none
    | id :: plineFree =>
      if s.LockFree then some (s.queue pvBuffer ulStartSector ulNSector id plineFree) else none
  | .read ulStartSector ulNSector =>
    if s.LockFree then some (s.readDev ulStartSector ulNSector) else none
  | .sync => some { s with client := .idle }

/-- `__diskCacheWpSteal`. -/
def wpSteal (ulSectorNo : ℕ) : WritePipeline α :=
  match s.plineHead, s.msgs.find? fun m => m.Covers ulSectorNo with
  | some _, some m =>
    { s with
      got := s.got ++
        [(s.mem m.pvBuffer (ulSectorNo - m.ulStartSector), (s.last ulSectorNo).map Prod.snd)] }
  | _, _ => s

/-- The device has written a message, or holds anything after it has refused to. -/
def performed (i : ℕ) (m : WpMsg) (ok : Bool) (junk : List α) : WritePipeline α :=
  { s with
    threads := s.threads.set i (.done m.id)
    dev := overlay s.dev m.ulStartSector
      (if ok then slice (s.mem m.pvBuffer) 0 m.ulNSector else junk.take m.ulNSector)
    reached := s.reached ++ [m]
    dropped := if ok then s.dropped else s.dropped ++ [m.seq] }

/-- A message leaves the queue. -/
def finished (i : ℕ) (l : List WpMsg) (m : WpMsg) (r : List WpMsg) : WritePipeline α :=
  { s with
    msgs := l ++ r
    plineHead :=
      if l ++ r = [] then none
      else if s.plineHead = some m.id then l.getLast?.map WpMsg.id
      else s.plineHead
    plineFree := s.plineFree ++ [m.id]
    threads := s.threads.set i (.put m.pvBuffer) }

/-- A step of the thread `i`. -/
def threadStep (i : ℕ) : WpEvent α → Option (WritePipeline α)
  | .take _ =>
    if s.threads[i]? = some .wait ∧ 0 < s.hQueue then
      some { s with threads := s.threads.set i .woken, hQueue := s.hQueue - 1 }
    else none
  | .pick _ =>
    if s.threads[i]? = some .woken ∧ s.LockFree then
      match pickFrom s.plineHead s.msgs with
      | none => some { s with threads := s.threads.set i .wait }
      | some (id, msgs) => some { s with threads := s.threads.set i (.write id), msgs }
    else none
  | .perform _ ok junk =>
    match s.threads[i]? with
    | some (.write id) =>
      (s.msgs.find? fun m => m.id = id).map fun m => s.performed i m ok junk
    | _ => none
  | .finish _ =>
    match s.threads[i]? with
    | some (.done id) => (cut WpMsg.id id s.msgs).map fun (l, m, r) => s.finished i l m r
    | _ => none
  | .put _ =>
    match s.threads[i]? with
    | some (.put pvFree) =>
      some { s with threads := s.threads.set i .notify, part := pvFree :: s.part }
    | _ => none
  | .notify _ =>
    if s.threads[i]? = some .notify then
      some { s with
        threads := s.threads.set i .signal
        hCounter := min (s.hCounter + 1) s.iMsgCount }
    else none
  | .signal _ =>
    if s.threads[i]? = some .signal then
      some { s with threads := s.threads.set i .wait, hSync := true }
    else none
  | _ => none

/-- One step. -/
def step : WpEvent α → Option (WritePipeline α)
  | .getBuffer =>
    match s.client, s.part with
    | .idle, pvBuffer :: part =>
      if 0 < s.hCounter then
        some { s with part, hCounter := s.hCounter - 1, client := .hold pvBuffer }
      else none
    | _, _ => none
  | .write ulStartSector data =>
    match s.client with
    | .hold pvBuffer =>
      if data ≠ [] ∧ s.LockFree then
        let call := WpCall.write pvBuffer ulStartSector data.length
        some { s with
          mem := Function.update s.mem pvBuffer (overlay (s.mem pvBuffer) 0 data)
          client := if s.overlap ulStartSector data.length then .check 1 call else .act call }
      else none
    | _ => none
  | .read ulStartSector ulNSector =>
    match s.client with
    | .idle =>
      if 0 < ulNSector ∧ s.LockFree then
        let call := WpCall.read ulStartSector ulNSector
        some { s with
          client := if s.overlap ulStartSector ulNSector then .check 0 call else .act call }
      else none
    | _ => none
  | .steal ulSectorNo =>
    match s.client with
    | .idle => if s.LockFree then some (s.wpSteal ulSectorNo) else none
    | _ => none
  | .sync =>
    match s.client with
    | .idle => some { s with client := .check 0 .sync }
    | _ => none
  | .check =>
    match s.client with
    | .check ulGetCnt call =>
      if s.iMsgCount ≤ s.part.length + ulGetCnt then
        some { s with
          hSync := true
          client := .act call
          synced := s.synced ++ [(s.accepted, s.reached.map WpMsg.seq)] }
      else some { s with client := .wait ulGetCnt call }
    | _ => none
  | .wake =>
    match s.client with
    | .wait ulGetCnt call =>
      if s.hSync then some { s with hSync := false, client := .check ulGetCnt call } else none
    | _ => none
  | .act =>
    match s.client with
    | .act call => s.proceed call
    | _ => none
  | .post =>
    match s.client with
    | .signal =>
      some { s with hQueue := min (s.hQueue + 1) s.iMsgCount, client := .idle }
    | _ => none
  | .take i => s.threadStep i (.take i)
  | .pick i => s.threadStep i (.pick i)
  | .perform i ok junk => s.threadStep i (.perform i ok junk)
  | .finish i => s.threadStep i (.finish i)
  | .put i => s.threadStep i (.put i)
  | .notify i => s.threadStep i (.notify i)
  | .signal i => s.threadStep i (.signal i)

/-- `__diskCacheWpCreate`. -/
def wpCreate (mem : ℕ → ℕ → α) (dev : ℕ → α) (bParallel : Bool) (iPipeline iMsgCount : ℕ) :
    WritePipeline α where
  msgs := []
  plineHead := none
  plineFree := List.range iMsgCount
  part := List.range iMsgCount
  hCounter := iMsgCount
  hQueue := 0
  hSync := false
  mem
  bParallel
  iMsgCount
  threads := List.replicate iPipeline .wait
  client := .idle
  dev
  init := dev
  accepted := 0
  last := fun _ => none
  reached := []
  dropped := []
  got := []
  synced := []

def Init (s : WritePipeline α) : Prop :=
  ∃ mem dev bParallel iPipeline iMsgCount, s = wpCreate mem dev bParallel iPipeline iMsgCount

/-- What the pipeline keeps. Writes of one sector reach the device in the order in which they were
queued, each read and each steal finds what was last written, each buffer and each message is in one
place, and a wait ends only after every write before it. -/
structure Safe (s : WritePipeline α) : Prop where
  order : s.reached.Pairwise fun a b => ∀ sector, a.Covers sector → b.Covers sector → a.seq < b.seq
  got : ∀ g ∈ s.got, ∀ v, g.2 = some v → g.1 = v
  buffers : (s.part ++ s.client.buffers ++ s.msgs.map WpMsg.pvBuffer ++
    s.threads.filterMap WpThread.buffer).Perm (List.range s.iMsgCount)
  nodes : (s.msgs.map WpMsg.id ++ s.plineFree).Perm (List.range s.iMsgCount)
  writing : (s.threads.filterMap WpThread.msg).Perm ((s.msgs.filter WpMsg.bWriting).map WpMsg.id)
  synced : ∀ p ∈ s.synced, ∀ seq < p.1, seq ∈ p.2
  counter : s.hCounter ≤ s.part.length
  room : ∀ pvBuffer ulStartSector ulNSector,
    s.client = .act (.write pvBuffer ulStartSector ulNSector) → s.plineFree ≠ []
  signals : (∃ m ∈ s.msgs, m.bWriting = false) →
    0 < s.hQueue ∨ WpThread.woken ∈ s.threads ∨ 0 < s.client.signals
  waits : ∀ ulGetCnt call, s.client = .wait ulGetCnt call → s.hSync = false →
    s.msgs ≠ [] ∨ s.threads.any WpThread.leaving

end WritePipeline

end SylixOS.Disk
