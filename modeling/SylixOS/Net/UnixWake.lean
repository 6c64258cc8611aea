import SylixOS.Lib.Token
import SylixOS.Net.UnixRights

/-! # Threads that wait on local sockets

Each of two connected sockets has a semaphore for those that receive on it and one for those that
send to it from the other socket, with `LW_CFG_NET_UNIX_MULTI_EN`. A call is done in sections under one
lock, and leaves the lock before it waits. Shutting down and closing post some of the four semaphores,
and closing deletes two of them in the end. The memory of a closed socket is taken to stay as it is while
threads are in calls on it.
-/

namespace SylixOS.Net
open Lib

inductive SemKind where
  /-- `UNIX_hCanRead`. -/
  | canRead
  /-- `UNIX_hCanWrite`. -/
  | canWrite
  deriving DecidableEq

structure UnixSem where
  side : Bool
  kind : SemKind
  deriving DecidableEq

/-- What waiting needs of `AF_UNIX_T`: the bits of `UNIX_iShutDFlag`, whether the status is
`__AF_UNIX_STATUS_ESTAB` and whether there is a `UNIX_pafunxPeer`. -/
structure WakeSock (β : Type*) extends ExSock β where
  shutR : Bool
  shutW : Bool
  estab : Bool
  peer : Bool
  nonblock : Bool

/-- What `unix_close` does next. -/
inductive CloseStage where
  | delete
  | canRead
  | canWrite
  deriving DecidableEq

/-- What a thread has called and not come back from. A send has what is left of its bytes. -/
inductive WakeCall (β : Type*) where
  | idle
  | recv (phase : Phase) (side : Bool) (len : ℕ) (flags : UnixFlags) (b : CtlBuf)
  | send (phase : Phase) (side : Bool) (pcSendMem : List β) (ex : Option (List Cmsg × ℕ))
    (dontwait : Bool)
  | close (side : Bool) (stage : CloseStage)

structure WakePair (β : Type*) where
  sock : Bool → WakeSock β
  sem : UnixSem → Token
  /-- The semaphores that are not deleted. -/
  alive : UnixSem → Bool
  pid : ℕ → ℕ
  calls : ℕ → WakeCall β

inductive ShutHow where
  | rd
  | wr
  | rdwr
  deriving DecidableEq

/-- What the rest of the system does in a section: the references that can be taken, the memory that
there is, the descriptors that are made, and whom the posts wake. -/
structure WakeChoice where
  flight : List ℤ → Bool
  alloc : ℕ → Bool
  dup : ℕ → ℤ
  post : ℕ → ℕ

inductive WakeEvent (β : Type*) where
  | recv (i : ℕ) (side : Bool) (len : ℕ) (flags : UnixFlags) (pvMsgEx : Bool) (uiLenEx : Option ℕ)
  | send (i : ℕ) (side : Bool) (data : List β) (ex : Option (List Cmsg × ℕ)) (dontwait : Bool)
  | close (i : ℕ) (side : Bool) (o : WakeChoice)
  | shutdown (side : Bool) (how : ShutHow) (o : WakeChoice)
  /-- A thread that is in a call goes on. -/
  | go (i : ℕ) (o : WakeChoice)
  /-- A wait ends by its timeout. -/
  | timeout (i : ℕ)

variable {β : Type*}

namespace WakeCall

/-- Where a thread is, as one that waits for a semaphore. -/
def phase (σ : UnixSem) : WakeCall β → Phase
  | .recv p side _ _ _ => if σ = ⟨side, .canRead⟩ then p else .away
  | .send p side _ _ _ => if σ = ⟨!side, .canWrite⟩ then p else .away
  | _ => .away

/-- A thread that waited is given the semaphore. -/
def woken : WakeCall β → WakeCall β
  | .recv _ side len flags b => .recv .ready side len flags b
  | .send _ side pcSendMem ex dontwait => .send .ready side pcSendMem ex dontwait
  | c => c

end WakeCall

namespace WakePair
variable (word : ℕ) (g : UnixConf) (s : WakePair β)

def setCall (i : ℕ) (c : WakeCall β) : WakePair β :=
  { s with calls := Function.update s.calls i c }

def setSock (x : Bool) (k : WakeSock β) : WakePair β :=
  { s with sock := Function.update s.sock x k }

def setMsgs (x : Bool) (k : ExSock β) : WakePair β := s.setSock x { s.sock x with toExSock := k }

/-! ## Semaphores -/

def wake (w : Option ℕ) : WakePair β :=
  { s with
    calls :=
      match w with
      | none => s.calls
      | some i => Function.update s.calls i (s.calls i).woken }

/-- `API_SemaphoreBPost`. -/
def post (σ : UnixSem) (k : ℕ) : WakePair β :=
  if s.alive σ then
    { s.wake ((s.sem σ).post k).2 with sem := Function.update s.sem σ ((s.sem σ).post k).1 }
  else s

/-- `API_SemaphoreBClear`. -/
def clear (σ : UnixSem) : WakePair β :=
  { s with sem := Function.update s.sem σ (s.sem σ).clear }

/-- `API_SemaphoreBPend`, which fails when the semaphore is deleted. -/
def pend (i : ℕ) (σ : UnixSem) (c : Phase → WakeCall β) : WakePair β :=
  if s.alive σ then
    { s.setCall i (c ((s.sem σ).pend i).2) with
      sem := Function.update s.sem σ ((s.sem σ).pend i).1 }
  else s.setCall i .idle

/-- `API_SemaphoreBDelete`, after which those that waited return an error. -/
def semDelete (σ : UnixSem) : WakePair β :=
  { s with
    alive := Function.update s.alive σ false
    sem := Function.update s.sem σ ⟨false, []⟩
    calls := fun i => if (s.calls i).phase σ = .wait then .idle else s.calls i }

/-- `__unixUpdateReader`. -/
def updateReader (x : Bool) (k : ℕ) : WakePair β := s.post ⟨x, .canRead⟩ k

/-- `__unixUpdateWriter`. -/
def updateWriter (x : Bool) (k : ℕ) : WakePair β :=
  if (s.sock x).canWrite g then s.post ⟨x, .canWrite⟩ k else s

/-- `__unixUpdateExcept`. -/
def updateExcept (x : Bool) (k k' : ℕ) : WakePair β :=
  (s.post ⟨x, .canRead⟩ k).post ⟨x, .canWrite⟩ k'

/-! ## Calls -/

/-- No flags. -/
def noFlags : UnixFlags := ⟨false, false, false⟩

/-- The end of a receive that has got bytes. -/
def recvNotify (side update : Bool) (o : WakeChoice) : WakePair β :=
  let s : WakePair β := if update then s.updateWriter g side (o.post 0) else s
  if (s.sock side).canRead noFlags 0 then s.post ⟨side, .canRead⟩ (o.post 1) else s

/-- A section of `unix_recvfrom2`. -/
def recvfrom2 (i : ℕ) (side : Bool) (len : ℕ) (flags : UnixFlags) (b : CtlBuf) (o : WakeChoice) :
    WakePair β :=
  let x := s.sock side
  if x.estab = false then s.setCall i .idle
  else if x.canRead flags len then
    let (data, _, x') := ExSock.recvMore o.dup (s.pid i) flags len x.toExSock len b
    ((s.setMsgs side x').setCall i .idle).recvNotify g side (!x.canWrite g && !data.isEmpty) o
  else
    let s : WakePair β := if x.canRead noFlags 0 then s.clear ⟨side, .canRead⟩ else s
    if x.shutR ∨ x.peer = false then s.setCall i .idle
    else if x.nonblock ∨ flags.dontwait then s.setCall i .idle
    else s.setCall i (.recv .pend side len flags b)

/-- A section of `unix_sendto2`. -/
def sendto2 (i : ℕ) (side : Bool) (pcSendMem : List β) (ex : Option (List Cmsg × ℕ)) (dontwait : Bool)
    (o : WakeChoice) : WakePair β :=
  let x := s.sock side
  if x.shutW ∨ x.estab = false ∨ x.peer = false then s.setCall i .idle
  else
    let (n, failed, recver) := (s.sock !side).toExSock.trySend word g o.flight o.alloc (s.pid i)
      pcSendMem.length pcSendMem ex
    let s := s.setMsgs (!side) recver
    if pcSendMem.length ≤ n ∨ failed then
      let s := s.setCall i .idle
      let s : WakePair β := if n ≠ 0 then s.updateReader (!side) (o.post 0) else s
      if recver.canWrite g then s.post ⟨!side, .canWrite⟩ (o.post 1) else s
    else
      let s := s.clear ⟨!side, .canWrite⟩
      let s : WakePair β := if n ≠ 0 then s.updateReader (!side) (o.post 0) else s
      s.setCall i (if x.nonblock ∨ dontwait then .idle
        else .send .pend side (pcSendMem.drop n) (if n = 0 then ex else none) dontwait)

/-- `__unixShutdownR`. -/
def shutdownR (x : Bool) (o : WakeChoice) : WakePair β :=
  if (s.sock x).shutR then s
  else
    let s := s.setSock x { s.sock x with shutR := true }
    let s : WakePair β :=
      if (s.sock x).peer then
        (s.setSock (!x) { s.sock (!x) with shutW := true }).updateWriter g (!x) (o.post 0)
      else s
    (s.setMsgs x (s.sock x).deleteAllMsg).updateReader x (o.post 1)

/-- `__unixShutdownW`. -/
def shutdownW (x : Bool) (o : WakeChoice) : WakePair β :=
  if (s.sock x).shutW then s
  else
    let s := s.setSock x { s.sock x with shutW := true }
    let s : WakePair β :=
      if (s.sock x).peer then
        (s.setSock (!x) { s.sock (!x) with shutR := true }).updateReader (!x) (o.post 2)
      else s
    s.updateWriter g x (o.post 3)

/-- `unix_shutdown`. -/
def shutdown (x : Bool) (how : ShutHow) (o : WakeChoice) : WakePair β :=
  match how with
  | .rd => s.shutdownR g x o
  | .wr => s.shutdownW g x o
  | .rdwr => (s.shutdownR g x o).shutdownW g x o

/-- `unix_close`, up to `__unixDelete`. -/
def close (i : ℕ) (x : Bool) (o : WakeChoice) : WakePair β :=
  let s := s.setCall i (.close x .delete)
  let s : WakePair β :=
    if (s.sock x).peer then
      (s.setSock (!x) { s.sock (!x) with peer := false }).updateExcept (!x) (o.post 0) (o.post 1)
    else s
  (s.setSock x { s.sock x with estab := false, peer := false }).updateExcept x (o.post 2) (o.post 3)

/-- The section of `__unixDelete`. -/
def delete (i : ℕ) (x : Bool) : WakePair β :=
  let s := (s.setCall i (.close x .canRead)).setMsgs x (s.sock x).deleteAllMsg
  s.setSock (!x) { s.sock (!x) with peer := false }

/-- The next step of a thread that is in a call and does not wait. -/
def go (i : ℕ) (o : WakeChoice) : Option (WakePair β) :=
  match s.calls i with
  | .recv .ready side len flags b => some (s.recvfrom2 g i side len flags b o)
  | .recv .pend side len flags b =>
    some (s.pend i ⟨side, .canRead⟩ fun p => .recv p side len flags b)
  | .send .ready side pcSendMem ex dontwait => some (s.sendto2 word g i side pcSendMem ex dontwait o)
  | .send .pend side pcSendMem ex dontwait =>
    some (s.pend i ⟨!side, .canWrite⟩ fun p => .send p side pcSendMem ex dontwait)
  | .close x .delete => some (s.delete i x)
  | .close x .canRead => some ((s.setCall i (.close x .canWrite)).semDelete ⟨x, .canRead⟩)
  | .close x .canWrite => some ((s.setCall i .idle).semDelete ⟨x, .canWrite⟩)
  | _ => none

/-- One step. A socket that is not closed can be called on. -/
def step : WakeEvent β → Option (WakePair β)
  | .recv i side len flags pvMsgEx uiLenEx =>
    match s.calls i with
    | .idle =>
      if (s.sock side).estab = false ∨ len = 0 ∨ (flags.peek ∧ flags.waitall) then none
      else some (s.setCall i (.recv .ready side len flags (RightsHost.ctlBuf pvMsgEx uiLenEx)))
    | _ => none
  | .send i side data ex dontwait =>
    match s.calls i with
    | .idle =>
      if (s.sock side).estab = false ∨ data = [] then none
      else some (s.setCall i (.send .ready side data ex dontwait))
    | _ => none
  | .close i x o =>
    match s.calls i with
    | .idle => if (s.sock x).estab then some (s.close i x o) else none
    | _ => none
  | .shutdown x how o => if (s.sock x).estab then some (s.shutdown g x how o) else none
  | .go i o => s.go word g i o
  | .timeout i =>
    match s.calls i with
    | .recv .wait side _ _ _ =>
      some { s.setCall i .idle with
        sem := Function.update s.sem ⟨side, .canRead⟩ ((s.sem ⟨side, .canRead⟩).leave i) }
    | .send .wait side _ _ _ =>
      some { s.setCall i .idle with
        sem := Function.update s.sem ⟨!side, .canWrite⟩ ((s.sem ⟨!side, .canWrite⟩).leave i) }
    | _ => none

/-- Two connected sockets, and no thread in a call on them. -/
structure Init (s : WakePair β) : Prop where
  iType : ∀ x, (s.sock x).iType ≠ .dgram
  estab : ∀ x, (s.sock x).estab = true
  peer : ∀ x, (s.sock x).peer = true
  waiters : ∀ σ, (s.sem σ).waiters = []
  alive : ∀ σ, s.alive σ = true
  calls : ∀ i, s.calls i = .idle

/-- No thread that is in a call can go on. -/
def Quiet (s : WakePair β) : Prop := ∀ i o, s.go word g i o = none

/-- When all threads wait, those that receive wait for bytes and those that send for room, on sockets
that are not shut down for it and have a peer. -/
structure NotLost (s : WakePair β) : Prop where
  readers : s.Quiet word g → ∀ i side len flags b, s.calls i = .recv .wait side len flags b →
    (s.sock side).msgs = [] ∧ (s.sock side).shutR = false ∧ (s.sock side).peer = true
  writers : s.Quiet word g → ∀ i side data ex dontwait, s.calls i = .send .wait side data ex dontwait →
    (s.sock !side).canWrite g = false ∧ (s.sock side).shutW = false ∧ (s.sock side).peer = true

/-! ## When threads are missed -/

/-- Where a thread is, as one that waits for a semaphore. -/
def phase (σ : UnixSem) (i : ℕ) : Phase := (s.calls i).phase σ

/-- A close is going to delete a semaphore. -/
def Closing (σ : UnixSem) : Prop :=
  ∃ i stage, s.calls i = .close σ.side stage ∧ (stage = .canWrite → σ.kind = .canWrite)

/-- A thread that is about to wait or waits for a semaphore will be called, or the semaphore will be
deleted. -/
def Covered (σ : UnixSem) : Prop :=
  s.alive σ = false ∨ s.Closing σ ∨ (s.sem σ).Covers (s.phase σ)

/-- The thread `i` is not missed: the semaphore has a token or will be deleted, another thread will
look, or none is about to wait or waits for it. -/
def NotMissed (σ : UnixSem) (i : ℕ) : Prop :=
  s.alive σ = false ∨ s.Closing σ ∨ (s.sem σ).counter = true ∨ (∃ j ≠ i, s.phase σ j = .ready) ∨
    ∀ j ≠ i, s.phase σ j ≠ .pend ∧ s.phase σ j ≠ .wait

end WakePair

namespace ExSock

def unreadLength (k : ExSock β) : ℕ := (k.msgs.map fun m => m.unread.length).sum

/-- A receive leaves no message. -/
def TakesAll (k : ExSock β) (flags : UnixFlags) (len : ℕ) : Prop :=
  k.msgs = [] ∨
    flags.peek = false ∧ k.unreadLength ≤ len ∧ (k.iType = .stream ∨ k.msgs.length ≤ 1)

end ExSock

namespace WakeSock

/-- Nothing more can come in. -/
def DownR (k : WakeSock β) : Prop := k.shutR = true ∨ k.estab = false ∨ k.peer = false

/-- Nothing more can be sent. -/
def DownW (k : WakeSock β) : Prop := k.shutW = true ∨ k.estab = false ∨ k.peer = false

end WakeSock

namespace WakePair

/-- A receive that is for all of its bytes finds all of them or none. No thread is missed that finds
nothing more to come in and leaves no message, or finds that nothing more can be sent. And where sending
is shut down, the threads that are about to wait for room or wait for it have been called already. -/
def StepOk (s : WakePair β) : WakeEvent β → Prop
  | .go i _ =>
    (∀ side len flags b, s.calls i = .recv .ready side len flags b →
      (flags.waitall = true → (s.sock side).msgs ≠ [] → len ≤ (s.sock side).stTotal) ∧
      ((s.sock side).DownR → (s.sock side).estab = false ∨ (s.sock side).TakesAll flags len →
        s.NotMissed ⟨side, .canRead⟩ i)) ∧
    (∀ side data ex dontwait, s.calls i = .send .ready side data ex dontwait → (s.sock side).DownW →
      s.NotMissed ⟨!side, .canWrite⟩ i)
  | .shutdown x how _ =>
    (how ≠ .wr → (s.sock x).shutR = false → s.Covered ⟨x, .canWrite⟩) ∧
    (how ≠ .rd → (s.sock x).shutW = false → s.Covered ⟨!x, .canWrite⟩)
  | _ => True

end WakePair
end SylixOS.Net
