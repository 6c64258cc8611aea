import Mathlib
import SylixOS.Lib.Reach
import SylixOS.Lib.Token
import SylixOS.Pipe.RingBuffer

/-! # Stream pipes

Threads read from a pipe and write to it in sections under its lock, and wait between them for the
semaphore of their side. A long write is done in several sections. A flush posts the semaphore of the
writers after it has left the lock.
-/

namespace SylixOS.Pipe
open Lib

/-- `PIPE_BUF` and `LW_CFG_SPIPE_MULTI_EN`. -/
structure SpipeConf where
  pipeBuf : ℕ
  pipeBuf_pos : 0 < pipeBuf
  multiEn : Bool

inductive SpipeMode where
  | rdonly
  | wronly
  | rdwr
  deriving DecidableEq

/-- What a thread has called and not come back from. A read or a write begins `away` from the loop; a
write has its whole buffer and what is left of it. -/
inductive SpipeCall (β : Type*) where
  | idle
  | read (phase : Phase) (stMaxBytes : ℕ) (nonblock nosig : Bool)
  | write (phase : Phase) (whole left : List β) (nonblock : Bool)
  /-- A flush has left the lock. -/
  | flush

/-- `LW_SPIPE_DEV`, with what threads do. The code does not keep the sections of writes (the whole
buffer and what was stored), the bytes that are gone and whether they were read, and the bytes that reads
returned. -/
structure SpipeDev (β : Type*) where
  ring : RingBuffer β
  hReadLock : Token
  hWriteLock : Token
  uiReadCnt : ℕ
  uiWriteCnt : ℕ
  calls : ℕ → SpipeCall β
  sections : List (List β × List β)
  gone : List (Bool × β)
  got : List β

inductive SpipeEvent (β : Type*) where
  | read (i stMaxBytes : ℕ) (nonblock nosig : Bool)
  | write (i : ℕ) (data : List β) (nonblock : Bool)
  | flush (i : ℕ)
  /-- A thread that is in a call goes on; `k` and `k'` choose whom its posts wake. -/
  | go (i k k' : ℕ)
  /-- A wait ends by its timeout. -/
  | timeout (i : ℕ)
  | openFile (mode : SpipeMode)
  | closeFile (mode : SpipeMode) (k k' : ℕ)

variable {β : Type*}

namespace SpipeCall

/-- Where a thread is as a reader. -/
def reader : SpipeCall β → Phase
  | .read phase _ _ _ => phase
  | _ => .away

/-- Where a thread is as a writer. -/
def writer : SpipeCall β → Phase
  | .write phase _ _ _ => phase
  | _ => .away

/-- A thread that waited is given the semaphore. -/
def woken : SpipeCall β → SpipeCall β
  | .read _ stMaxBytes nonblock nosig => .read .ready stMaxBytes nonblock nosig
  | .write _ whole left nonblock => .write .ready whole left nonblock
  | c => c

end SpipeCall

namespace SpipeDev
variable (g : SpipeConf) (s : SpipeDev β)

/-- `__spipe_can_read`. -/
def canRead : Bool := decide (s.ring.stMsgBytes ≠ 0)

/-- `__spipe_can_write`. -/
def canWrite : Bool := decide (g.pipeBuf ≤ s.ring.stTotalBytes - s.ring.stMsgBytes)

def setCall (i : ℕ) (c : SpipeCall β) : SpipeDev β :=
  { s with calls := Function.update s.calls i c }

def wake (w : Option ℕ) : SpipeDev β :=
  { s with
    calls :=
      match w with
      | none => s.calls
      | some i => Function.update s.calls i (s.calls i).woken }

theorem wake_some (i : ℕ) : s.wake (some i) = s.setCall i (s.calls i).woken := rfl

/-- `API_SemaphoreBPost` of `SPIPEDEV_hReadLock`. -/
def postRead (k : ℕ) : SpipeDev β :=
  { s.wake (s.hReadLock.post k).2 with hReadLock := (s.hReadLock.post k).1 }

/-- `API_SemaphoreBPost` of `SPIPEDEV_hWriteLock`. -/
def postWrite (k : ℕ) : SpipeDev β :=
  { s.wake (s.hWriteLock.post k).2 with hWriteLock := (s.hWriteLock.post k).1 }

/-- The checks of `_SpipeRead` before its loop. -/
def readStart (i stMaxBytes : ℕ) (nonblock nosig : Bool) : SpipeDev β :=
  if s.uiWriteCnt = 0 ∧ s.ring.stMsgBytes = 0 ∧ nosig = false then s.setCall i .idle
  else s.setCall i (.read .ready stMaxBytes nonblock nosig)

/-- `_SpipeRead` takes bytes out of the buffer, and will return them. -/
def readTake (i stMaxBytes : ℕ) : SpipeDev β :=
  let stNBytes := min stMaxBytes s.ring.stMsgBytes
  let (data, ring) := s.ring.get stNBytes
  { s.setCall i .idle with ring, gone := s.gone ++ data.map (true, ·), got := s.got ++ data }

/-- The posts at the end of `_SpipeRead`. -/
def readNotify (bOrgWriteEn : Bool) (k k' : ℕ) : SpipeDev β :=
  let s : SpipeDev β := if s.canWrite g ∧ bOrgWriteEn = false then s.postWrite k else s
  if g.multiEn ∧ s.canRead then s.postRead k' else s

/-- `API_SemaphoreBClear` of `SPIPEDEV_hReadLock`. -/
def clearRead : SpipeDev β :=
  if g.multiEn then { s with hReadLock := s.hReadLock.clear } else s

/-- A section of `_SpipeRead`. -/
def readSection (i stMaxBytes : ℕ) (nonblock nosig : Bool) (k k' : ℕ) : SpipeDev β :=
  if s.canRead then (s.readTake i stMaxBytes).readNotify g (s.canWrite g) k k'
  else if s.uiWriteCnt = 0 then (s.clearRead g).setCall i .idle
  else (s.clearRead g).setCall i (.read .pend stMaxBytes nonblock nosig)

/-- The wait of `_SpipeRead`. -/
def readPend (i stMaxBytes : ℕ) (nonblock nosig : Bool) : SpipeDev β :=
  if nonblock ∧ s.hReadLock.counter = false then s.setCall i .idle
  else
    { s.setCall i (.read (s.hReadLock.pend i).2 stMaxBytes nonblock nosig) with
      hReadLock := (s.hReadLock.pend i).1 }

/-- `__continue_write`. -/
def continueWrite (i : ℕ) (whole left : List β) (nonblock : Bool) : SpipeDev β :=
  if s.uiReadCnt = 0 then s.setCall i .idle
  else s.setCall i (.write .ready whole left nonblock)

/-- `_SpipeWrite` puts bytes into the buffer, and goes on with those that are left. -/
def writePut (i : ℕ) (whole left : List β) (nonblock : Bool) : SpipeDev β :=
  let stNBytesToWrite := min left.length (s.ring.stTotalBytes - s.ring.stMsgBytes)
  let data := left.take stNBytesToWrite
  let left' := left.drop stNBytesToWrite
  { s.setCall i (if left' = [] then .idle else .write .away whole left' nonblock) with
    ring := s.ring.put data, sections := s.sections ++ [(whole, data)] }

/-- The posts at the end of a section of `_SpipeWrite`. -/
def writeNotify (bOrgReadEn : Bool) (k k' : ℕ) : SpipeDev β :=
  let s : SpipeDev β := if s.canRead ∧ bOrgReadEn = false then s.postRead k else s
  if g.multiEn ∧ s.canWrite g then s.postWrite k' else s

/-- `API_SemaphoreBClear` of `SPIPEDEV_hWriteLock`. -/
def clearWrite : SpipeDev β :=
  if g.multiEn then { s with hWriteLock := s.hWriteLock.clear } else s

/-- A section of `_SpipeWrite`. -/
def writeSection (i : ℕ) (whole left : List β) (nonblock : Bool) (k k' : ℕ) : SpipeDev β :=
  if s.uiReadCnt = 0 then s.setCall i .idle
  else if min left.length g.pipeBuf ≤ s.ring.stTotalBytes - s.ring.stMsgBytes then
    (s.writePut i whole left nonblock).writeNotify g s.canRead k k'
  else (s.clearWrite g).setCall i (.write .pend whole left nonblock)

/-- The wait of `_SpipeWrite`. -/
def writePend (i : ℕ) (whole left : List β) (nonblock : Bool) : SpipeDev β :=
  if nonblock ∧ s.hWriteLock.counter = false then s.setCall i .idle
  else
    { s.setCall i (.write (s.hWriteLock.pend i).2 whole left nonblock) with
      hWriteLock := (s.hWriteLock.pend i).1 }

/-- `FIOFLUSH`, up to its post. -/
def flush (i : ℕ) : SpipeDev β :=
  { s.setCall i .flush with
    ring := s.ring.flush, gone := s.gone ++ s.ring.bytes.map (false, ·) }

/-- `LW_SPIPE_INC_CNT`. -/
def incCnt : SpipeMode → SpipeDev β
  | .rdonly => { s with uiReadCnt := s.uiReadCnt + 1 }
  | .wronly => { s with uiWriteCnt := s.uiWriteCnt + 1 }
  | .rdwr => { s with uiReadCnt := s.uiReadCnt + 1, uiWriteCnt := s.uiWriteCnt + 1 }

/-- `LW_SPIPE_DEC_CNT`, of a file that is open. -/
def decCnt : SpipeMode → Option (SpipeDev β)
  | .rdonly =>
    if s.uiReadCnt = 0 then none else some { s with uiReadCnt := s.uiReadCnt - 1 }
  | .wronly =>
    if s.uiWriteCnt = 0 then none else some { s with uiWriteCnt := s.uiWriteCnt - 1 }
  | .rdwr =>
    if s.uiReadCnt = 0 ∨ s.uiWriteCnt = 0 then none
    else some { s with uiReadCnt := s.uiReadCnt - 1, uiWriteCnt := s.uiWriteCnt - 1 }

/-- `_SpipeClose`, when a count has been taken down. -/
def closed (k k' : ℕ) : SpipeDev β :=
  let s : SpipeDev β := if s.uiWriteCnt = 0 then s.postRead k else s
  if s.uiReadCnt = 0 then s.postWrite k' else s

/-- The next step of a thread that is in a call and does not wait. -/
def go (i k k' : ℕ) : Option (SpipeDev β) :=
  match s.calls i with
  | .read .away stMaxBytes nonblock nosig => some (s.readStart i stMaxBytes nonblock nosig)
  | .read .ready stMaxBytes nonblock nosig =>
    some (s.readSection g i stMaxBytes nonblock nosig k k')
  | .read .pend stMaxBytes nonblock nosig => some (s.readPend i stMaxBytes nonblock nosig)
  | .write .away whole left nonblock => some (s.continueWrite i whole left nonblock)
  | .write .ready whole left nonblock => some (s.writeSection g i whole left nonblock k k')
  | .write .pend whole left nonblock => some (s.writePend i whole left nonblock)
  | .flush => some ((s.setCall i .idle).postWrite k)
  | _ => none

/-- One step. -/
def step : SpipeEvent β → Option (SpipeDev β)
  | .read i stMaxBytes nonblock nosig =>
    match s.calls i with
    | .idle =>
      if stMaxBytes = 0 then none else some (s.setCall i (.read .away stMaxBytes nonblock nosig))
    | _ => none
  | .write i data nonblock =>
    match s.calls i with
    | .idle => if data = [] then none else some (s.setCall i (.write .away data data nonblock))
    | _ => none
  | .flush i =>
    match s.calls i with
    | .idle => some (s.flush i)
    | _ => none
  | .go i k k' => s.go g i k k'
  | .timeout i =>
    match s.calls i with
    | .read .wait _ _ _ => some { s.setCall i .idle with hReadLock := s.hReadLock.leave i }
    | .write .wait _ _ _ => some { s.setCall i .idle with hWriteLock := s.hWriteLock.leave i }
    | _ => none
  | .openFile mode => some (s.incCnt mode)
  | .closeFile mode k k' => (s.decCnt mode).map fun s => s.closed k k'

/-- `API_SpipeDevCreate`. -/
structure Init (s : SpipeDev β) : Prop where
  size : g.pipeBuf ≤ s.ring.stTotalBytes
  ring : s.ring.pcInPtr = 0 ∧ s.ring.pcOutPtr = 0 ∧ s.ring.stMsgBytes = 0
  hReadLock : s.hReadLock = ⟨false, []⟩
  hWriteLock : s.hWriteLock = ⟨false, []⟩
  cnt : s.uiReadCnt = 0 ∧ s.uiWriteCnt = 0
  calls : ∀ i, s.calls i = .idle
  sections : s.sections = []
  gone : s.gone = []
  got : s.got = []

/-- The bytes that were stored are gone or can be read, in order; those that reads returned are those
that are gone and were not flushed; a write of at most `PIPE_BUF` bytes is stored in one section; and the
ring is right. -/
structure Safe (s : SpipeDev β) : Prop where
  order : s.sections.flatMap Prod.snd = s.gone.map Prod.snd ++ s.ring.bytes
  got : s.got = (s.gone.filter Prod.fst).map Prod.snd
  atomic : ∀ w ∈ s.sections, w.1.length ≤ g.pipeBuf → w.2 = w.1
  ring : s.ring.Ok

end SpipeDev

/-! ## Bytes -/

namespace SpipeCall

/-- The whole buffer of a write and what is left of it. -/
def rest : SpipeCall β → Option (List β × List β)
  | .write _ whole left _ => some (whole, left)
  | _ => none

@[simp] theorem woken_rest (c : SpipeCall β) : c.woken.rest = c.rest := by cases c <;> rfl

end SpipeCall

namespace SpipeDev
variable {g : SpipeConf} {s s' : SpipeDev β}

/-- What `Safe` rests on: a short write has not stored anything. -/
structure Inv (g : SpipeConf) (s : SpipeDev β) : Prop where
  safe : s.Safe g
  size : g.pipeBuf ≤ s.ring.stTotalBytes
  whole : ∀ i w, (s.calls i).rest = some w → w.1.length ≤ g.pipeBuf → w.2 = w.1

theorem Init.inv (h : s.Init g) : s.Inv g where
  safe := by
    obtain ⟨h₁, h₂, h₃⟩ := h.ring
    have hpos := g.pipeBuf_pos
    have hsize := h.size
    refine ⟨?_, ?_, ?_, ?_⟩
    · rw [h.sections, h.gone, RingBuffer.bytes, h₃]
      rfl
    · rw [h.got, h.gone]
      rfl
    · simp [h.sections]
    · exact ⟨by omega, by omega, by rw [h₁, h₂, h₃]; exact (Nat.zero_mod _).symm⟩
  size := h.size
  whole i w hw := by
    rw [h.calls] at hw
    cases hw

section Frame
variable (hs : s.Inv g)
include hs

/-- Semaphores and counts are not looked at, nor is where a thread is. -/
theorem Inv.congr (hring : s'.ring = s.ring) (hsections : s'.sections = s.sections)
    (hgone : s'.gone = s.gone) (hgot : s'.got = s.got)
    (hcalls : ∀ i w, (s'.calls i).rest = some w → (s.calls i).rest = some w) : s'.Inv g where
  safe :=
    ⟨by rw [hsections, hgone, hring]; exact hs.safe.order, by rw [hgot, hgone]; exact hs.safe.got,
      by rw [hsections]; exact hs.safe.atomic, by rw [hring]; exact hs.safe.ring⟩
  size := by rw [hring]; exact hs.size
  whole i w hw := hs.whole i w (hcalls i w hw)

theorem Inv.setCall (i : ℕ) {c : SpipeCall β}
    (hc : ∀ w, c.rest = some w → w.1.length ≤ g.pipeBuf → w.2 = w.1) : (s.setCall i c).Inv g where
  safe := ⟨hs.safe.order, hs.safe.got, hs.safe.atomic, hs.safe.ring⟩
  size := hs.size
  whole j w hw := by
    rcases eq_or_ne j i with rfl | hne
    · simp only [SpipeDev.setCall, Function.update_self] at hw
      exact hc w hw
    · simp only [SpipeDev.setCall, Function.update_of_ne hne] at hw
      exact hs.whole j w hw

/-- A thread that is not in a write, or stays in its own. -/
theorem Inv.goOn (i : ℕ) {c : SpipeCall β} (hc : c.rest = none ∨ c.rest = (s.calls i).rest) :
    (s.setCall i c).Inv g := by
  refine hs.setCall i fun w hw => ?_
  rcases hc with hc | hc
  · rw [hc] at hw
    cases hw
  · exact hs.whole i w (hc ▸ hw)

theorem Inv.wake (w : Option ℕ) : (s.wake w).Inv g := by
  cases w with
  | none => exact hs
  | some i => exact hs.goOn i (.inr (SpipeCall.woken_rest _))

theorem Inv.postRead (k : ℕ) : (s.postRead k).Inv g :=
  (hs.wake (s.hReadLock.post k).2).congr rfl rfl rfl rfl fun _ _ h => h

theorem Inv.postWrite (k : ℕ) : (s.postWrite k).Inv g :=
  (hs.wake (s.hWriteLock.post k).2).congr rfl rfl rfl rfl fun _ _ h => h

end Frame

section Sections
variable {i : ℕ}

theorem Inv.clearRead (hs : s.Inv g) : (s.clearRead g).Inv g := by
  unfold SpipeDev.clearRead
  split_ifs
  · exact hs.congr rfl rfl rfl rfl fun _ _ h => h
  · exact hs

theorem Inv.clearWrite (hs : s.Inv g) : (s.clearWrite g).Inv g := by
  unfold SpipeDev.clearWrite
  split_ifs
  · exact hs.congr rfl rfl rfl rfl fun _ _ h => h
  · exact hs

@[simp] theorem clearRead_calls : (s.clearRead g).calls = s.calls := by
  unfold SpipeDev.clearRead
  split_ifs <;> rfl

@[simp] theorem clearWrite_calls : (s.clearWrite g).calls = s.calls := by
  unfold SpipeDev.clearWrite
  split_ifs <;> rfl

theorem Inv.readNotify (hs : s.Inv g) (bOrgWriteEn : Bool) (k k' : ℕ) :
    (s.readNotify g bOrgWriteEn k k').Inv g := by
  unfold SpipeDev.readNotify
  dsimp only
  have hpost : Inv g (if s.canWrite g ∧ bOrgWriteEn = false then s.postWrite k else s) := by
    split_ifs
    · exact hs.postWrite k
    · exact hs
  by_cases h : g.multiEn = true ∧
      (if s.canWrite g ∧ bOrgWriteEn = false then s.postWrite k else s).canRead = true
  · rw [if_pos h]
    exact hpost.postRead k'
  · rw [if_neg h]
    exact hpost

theorem Inv.writeNotify (hs : s.Inv g) (bOrgReadEn : Bool) (k k' : ℕ) :
    (s.writeNotify g bOrgReadEn k k').Inv g := by
  unfold SpipeDev.writeNotify
  dsimp only
  have hpost : Inv g (if s.canRead ∧ bOrgReadEn = false then s.postRead k else s) := by
    split_ifs
    · exact hs.postRead k
    · exact hs
  by_cases h : g.multiEn = true ∧
      (if s.canRead ∧ bOrgReadEn = false then s.postRead k else s).canWrite g = true
  · rw [if_pos h]
    exact hpost.postWrite k'
  · rw [if_neg h]
    exact hpost

theorem Inv.readTake (hs : s.Inv g) (n : ℕ) : (s.readTake i n).Inv g := by
  obtain ⟨hok, hbytes⟩ := hs.safe.ring.get (Nat.min_le_right n s.ring.stMsgBytes)
  refine ⟨⟨?_, ?_, hs.safe.atomic, hok⟩, ?_, ?_⟩
  · dsimp only [SpipeDev.readTake, SpipeDev.setCall]
    rw [hs.safe.order, hbytes]
    simp [Function.comp_def]
  · dsimp only [SpipeDev.readTake, SpipeDev.setCall]
    rw [hs.safe.got]
    simp [Function.comp_def, List.filter_eq_self.mpr]
  · dsimp only [SpipeDev.readTake]
    rw [RingBuffer.get_stTotalBytes]
    exact hs.size
  · exact (hs.goOn i (.inl rfl)).whole

/-- A section that stores all or `PIPE_BUF` bytes. -/
theorem Inv.writePut {whole left : List β} (hs : s.Inv g)
    (hwhole : whole.length ≤ g.pipeBuf → left = whole) (nonblock : Bool)
    (hfree : min left.length g.pipeBuf ≤ s.ring.stTotalBytes - s.ring.stMsgBytes) :
    (s.writePut i whole left nonblock).Inv g := by
  have hlen : (left.take (min left.length (s.ring.stTotalBytes - s.ring.stMsgBytes))).length ≤
      s.ring.stTotalBytes - s.ring.stMsgBytes := by
    rw [List.length_take]
    omega
  obtain ⟨hok, hbytes⟩ := hs.safe.ring.put hlen
  have hall (h : whole.length ≤ g.pipeBuf) :
      min left.length (s.ring.stTotalBytes - s.ring.stMsgBytes) = left.length := by
    rw [hwhole h] at hfree ⊢
    omega
  refine ⟨⟨?_, hs.safe.got, ?_, hok⟩, ?_, ?_⟩
  · dsimp only [SpipeDev.writePut, SpipeDev.setCall]
    rw [hbytes, List.flatMap_append, hs.safe.order, List.append_assoc]
    simp
  · intro w hw h
    rcases List.mem_append.mp hw with hw | hw
    · exact hs.safe.atomic w hw h
    · obtain rfl := List.mem_singleton.mp hw
      dsimp only
      rw [hall h, List.take_length, hwhole h]
  · dsimp only [SpipeDev.writePut]
    rw [RingBuffer.put_stTotalBytes]
    exact hs.size
  · refine (hs.setCall i fun w hw h => ?_).whole
    split_ifs at hw with hleft
    · cases hw
    · cases hw
      rw [hall h, List.drop_length] at hleft
      exact absurd rfl hleft

theorem Inv.flush (hs : s.Inv g) : (s.flush i).Inv g := by
  refine ⟨⟨?_, ?_, hs.safe.atomic, hs.safe.ring.flush⟩, hs.size, (hs.goOn i (.inl rfl)).whole⟩
  · dsimp only [SpipeDev.flush, SpipeDev.setCall]
    rw [hs.safe.order]
    simp [Function.comp_def]
  · dsimp only [SpipeDev.flush, SpipeDev.setCall]
    rw [hs.safe.got]
    simp [List.filter_map, Function.comp_def]

end Sections

section Steps
variable {i k k' : ℕ}

theorem Inv.go (hs : s.Inv g) (h : s.go g i k k' = some s') : s'.Inv g := by
  unfold SpipeDev.go at h
  split at h
  case h_1 => -- Before the loop of a read.
    cases h
    unfold SpipeDev.readStart
    split_ifs
    · exact hs.goOn i (.inl rfl)
    · exact hs.goOn i (.inl rfl)
  case h_2 =>
    cases h
    unfold SpipeDev.readSection
    split_ifs
    · exact (hs.readTake _).readNotify ..
    · exact hs.clearRead.goOn i (.inl rfl)
    · exact hs.clearRead.goOn i (.inl rfl)
  case h_3 =>
    cases h
    unfold SpipeDev.readPend
    split_ifs
    · exact hs.goOn i (.inl rfl)
    · exact (hs.goOn i (.inl rfl)).congr rfl rfl rfl rfl fun _ _ h => h
  case h_4 whole left nonblock hc => -- Before the loop of a write.
    cases h
    unfold SpipeDev.continueWrite
    split_ifs
    · exact hs.goOn i (.inl rfl)
    · exact hs.goOn i (.inr (by rw [hc]; rfl))
  case h_5 whole left nonblock hc =>
    cases h
    have hwhole := hs.whole i (whole, left) (by rw [hc]; rfl)
    unfold SpipeDev.writeSection
    split_ifs with hcnt hfree
    · exact hs.goOn i (.inl rfl)
    · exact (hs.writePut hwhole nonblock hfree).writeNotify ..
    · exact hs.clearWrite.goOn i (.inr (by rw [clearWrite_calls, hc]; rfl))
  case h_6 whole left nonblock hc =>
    cases h
    unfold SpipeDev.writePend
    split_ifs
    · exact hs.goOn i (.inl rfl)
    · exact (hs.goOn i (.inr (by rw [hc]; rfl))).congr rfl rfl rfl rfl fun _ _ h => h
  case h_7 =>
    cases h
    exact (hs.goOn i (.inl rfl)).postWrite k
  case h_8 => cases h

theorem Inv.closed (hs : s.Inv g) : (s.closed k k').Inv g := by
  unfold SpipeDev.closed
  dsimp only
  have hpost : Inv g (if s.uiWriteCnt = 0 then s.postRead k else s) := by
    split_ifs
    · exact hs.postRead k
    · exact hs
  by_cases h : (if s.uiWriteCnt = 0 then s.postRead k else s).uiReadCnt = 0
  · rw [if_pos h]
    exact hpost.postWrite k'
  · rw [if_neg h]
    exact hpost

theorem Inv.incCnt (hs : s.Inv g) (mode : SpipeMode) : (s.incCnt mode).Inv g := by
  cases mode <;> exact hs.congr rfl rfl rfl rfl fun _ _ h => h

theorem Inv.decCnt {mode : SpipeMode} (hs : s.Inv g) (h : s.decCnt mode = some s') : s'.Inv g := by
  cases mode <;> unfold SpipeDev.decCnt at h <;> split_ifs at h <;> cases h <;>
    exact hs.congr rfl rfl rfl rfl fun _ _ h => h

theorem Inv.step {e : SpipeEvent β} (hs : s.Inv g) (h : s.step g e = some s') : s'.Inv g := by
  cases e with
  | read i n nonblock nosig =>
    simp only [SpipeDev.step] at h
    split at h
    · split_ifs at h
      cases h
      exact hs.goOn i (.inl rfl)
    · cases h
  | write i data nonblock =>
    simp only [SpipeDev.step] at h
    split at h
    · split_ifs at h
      cases h
      refine hs.setCall i fun w hw _ => ?_
      cases hw
      rfl
    · cases h
  | flush i =>
    simp only [SpipeDev.step] at h
    split at h
    · cases h
      exact hs.flush
    · cases h
  | go i k k' => exact hs.go h
  | timeout i =>
    simp only [SpipeDev.step] at h
    split at h
    · cases h
      exact (hs.goOn i (.inl rfl)).congr rfl rfl rfl rfl fun _ _ h => h
    · cases h
      exact (hs.goOn i (.inl rfl)).congr rfl rfl rfl rfl fun _ _ h => h
    · cases h
  | openFile mode =>
    cases h
    exact hs.incCnt mode
  | closeFile mode k k' =>
    simp only [SpipeDev.step, Option.map_eq_some_iff] at h
    obtain ⟨s₁, h₁, rfl⟩ := h
    exact (hs.decCnt h₁).closed

end Steps

/-- In every run the bytes that reads return are those that were stored and not flushed, in order, a
short write is stored in one piece, and the ring is right. -/
theorem spipe_safe (h : Reach (fun s : SpipeDev β => s.step g) (fun _ _ => True) (Init g) s) :
    s.Safe g :=
  (h.invariant (fun _ => Init.inv) fun _ _ _ hs _ hstep => hs.step hstep).safe

/-- `API_SpipeDevCreate`, with `z` in the buffer. -/
def spipeDevCreate (z : β) (stBufferByteSize : ℕ) : SpipeDev β where
  ring := ⟨fun _ => z, 0, 0, stBufferByteSize, 0⟩
  hReadLock := ⟨false, []⟩
  hWriteLock := ⟨false, []⟩
  uiReadCnt := 0
  uiWriteCnt := 0
  calls _ := .idle
  sections := []
  gone := []
  got := []

theorem spipeDevCreate_init {z : β} {stBufferByteSize : ℕ} (h : g.pipeBuf ≤ stBufferByteSize) :
    (spipeDevCreate z stBufferByteSize).Init g := by
  refine ⟨h, ⟨rfl, rfl, rfl⟩, rfl, rfl, ⟨rfl, rfl⟩, fun _ => rfl, rfl, rfl, rfl⟩

/-- Two bytes are written at once. -/
def twoBytes : SpipeConf := ⟨2, Nat.two_pos, true⟩

/-- Five bytes are written in two sections, three of them are read and two are flushed. -/
theorem spipe_safe_five : ∃ s : SpipeDev ℕ, s.got = [1, 2, 3] ∧
    s.sections.map Prod.snd = [[1, 2, 3], [4, 5]] ∧ s.ring.bytes = [] ∧ s.Safe twoBytes := by
  have hruns : runs (fun s : SpipeDev ℕ => s.step twoBytes) (spipeDevCreate 0 3)
      [.openFile .rdwr, .write 0 [1, 2, 3, 4, 5] false, .go 0 0 0, .go 0 0 0, .read 1 2 false false,
        .go 1 0 0, .go 1 0 0, .go 0 0 0, .go 0 0 0, .read 1 1 false false, .go 1 0 0, .go 1 0 0,
        .flush 2] = some _ := rfl
  exact ⟨_, rfl, rfl, rfl,
    spipe_safe ((Reach.start (spipeDevCreate_init (by decide))).of_runs hruns)⟩

end SpipeDev

end SylixOS.Pipe
