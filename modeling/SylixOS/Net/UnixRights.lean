import Mathlib.Data.Int.Notation
import SylixOS.Net.UnixStream

/-! # Descriptors passed over local sockets

A message may carry control data, of which the descriptors are the ones that count here: a reference is
taken for each of them when the message is queued, and given back when the receiver has its own descriptor
for the file, or when the message goes away without that. The file tables themselves count as they should.
-/

namespace SylixOS.Net
open Lib

inductive SockType where
  | stream
  | dgram
  | seqpacket
  deriving DecidableEq

/-- `struct cmsghdr` with its data: descriptors of `SCM_RIGHTS`, credentials, or what else there may be. -/
inductive Cmsg where
  | rights (fds : List ℤ)
  | cred (len : ℕ)
  | other (len : ℕ)
  deriving DecidableEq

/-- `sizeof (struct cmsghdr)`. -/
def cmsghdrSize : ℕ := 12

namespace Cmsg

def dataLen : Cmsg → ℕ
  | rights fds => 4 * fds.length
  | cred len | other len => len

def fds : Cmsg → List ℤ
  | rights fds => fds
  | _ => []

/-- `ALIGN_H`, for words of a size. -/
def alignH (word n : ℕ) : ℕ := (n + word - 1) / word * word

/-- `CMSG_LEN`. -/
def cmsgLen (word n : ℕ) : ℕ := alignH word cmsghdrSize + n

/-- Where the last of some control data ends that begins at `off`. -/
def ctlEnd (word : ℕ) : ℕ → List Cmsg → ℕ
  | _, [] => 0
  | off, c :: cs =>
    max (off + cmsgLen word c.dataLen) (ctlEnd word (off + alignH word (cmsgLen word c.dataLen)) cs)

/-- The descriptors that are in the first `n` bytes. -/
def visible (word n : ℕ) : ℕ → List Cmsg → List ℤ
  | _, [] => []
  | off, c :: cs =>
    c.fds.take ((n - (off + cmsgLen word 0)) / 4) ++
      visible word n (off + alignH word (cmsgLen word c.dataLen)) cs

/-- All descriptors of control data. -/
def allFds (cs : List Cmsg) : List ℤ := cs.flatMap fds

end Cmsg

/-- `AF_UNIX_NEX`; control data shorter than a header is not queued. -/
structure UnixNex where
  cmsgs : List Cmsg
  uiLenEx : ℕ
  pid : ℕ
  bNeedUnProc : Bool
  bValid : Bool
  hdr : cmsghdrSize ≤ uiLenEx

/-- `AF_UNIX_N`. -/
structure ExMsg (β : Type*) extends UnixMsg β where
  punie : Option UnixNex

/-- References to descriptors of processes. -/
abbrev Refs := ℕ → ℤ → ℤ

namespace Refs

/-- `vprocIoFileRefIncArryByPid` and `vprocIoFileRefDecArryByPid` under `__unix_flight` and
`__unix_unflight`, which leave the descriptors of the kernel alone. -/
def add (r : Refs) (pid : ℕ) (fds : List ℤ) (n : ℤ) : Refs := fun p fd =>
  r p fd + if pid ≠ 0 ∧ p = pid then n * fds.count fd else 0

end Refs

/-- What sending and receiving need of `AF_UNIX_T`. The code does not keep the references that have been
taken for the socket's messages and not been given back. -/
structure ExSock (β : Type*) where
  iType : SockType
  iPassCred : Bool
  msgs : List (ExMsg β)
  stTotal : ℕ
  stMaxBufSize : ℕ
  refs : Refs

/-- `*puiLenEx` and the bytes behind `pvMsgEx` in a receive. The code does not keep what was returned for
the descriptors of the messages, and how much was copied each time. -/
structure CtlBuf where
  pvMsgEx : Bool
  uiLenEx : Option ℕ
  mem : List Cmsg
  dups : List ℤ
  copies : List ℕ

variable {β : Type*}

namespace UnixNex

/-- The references of a message that have not been given back. -/
def held (punie : Option UnixNex) : Refs := fun p fd =>
  match punie with
  | none => 0
  | some ex => if ex.bNeedUnProc ∧ ex.pid ≠ 0 ∧ p = ex.pid then (Cmsg.allFds ex.cmsgs).count fd else 0

/-- The first loop of `__unix_smsg_proc`, from a length on. -/
def smsgCheck (word uiLenEx : ℕ) (iPassCred : Bool) : ℕ → List Cmsg → Bool
  | _, [] => true
  | uiTotalLen, c :: cs =>
    let uiTotalLen := uiTotalLen + Cmsg.cmsgLen word c.dataLen
    if uiLenEx < uiTotalLen then false
    else
      match c with
      | .cred _ => iPassCred && smsgCheck word uiLenEx iPassCred uiTotalLen cs
      | _ => smsgCheck word uiLenEx iPassCred uiTotalLen cs

/-- The second loop of `__unix_smsg_proc`: `iFlightCnt`, whether all arrays could be taken references of,
and the references. -/
def smsgFlight (flight : List ℤ → Bool) : List Cmsg → ℕ × Bool × List ℤ
  | [] => (0, true, [])
  | .rights fds :: cs =>
    if flight fds then
      let (n, ok, taken) := smsgFlight flight cs
      (n + 1, ok, fds ++ taken)
    else (0, false, [])
  | _ :: cs => smsgFlight flight cs

/-- The loop at `__unix_flight_error`: what is given back. -/
def smsgUnflight : ℕ → List Cmsg → List ℤ
  | 0, _ | _, [] => []
  | n + 1, .rights fds :: cs => fds ++ smsgUnflight n cs
  | n + 1, _ :: cs => smsgUnflight (n + 1) cs

/-- `__unix_dup`, of the k-th descriptor in the receive, by the process `cur`. -/
def unixDup (dup : ℕ → ℤ) (pid cur k : ℕ) : ℤ := if pid = 0 ∨ cur = 0 then -1 else dup k

/-- `__unix_rmsg_proc`, for the k-th descriptor and what follows. -/
def rmsgProc (dup : ℕ → ℤ) (pid cur : ℕ) : ℕ → List Cmsg → List Cmsg
  | _, [] => []
  | k, .rights fds :: cs =>
    .rights ((List.range fds.length).map fun j => unixDup dup pid cur (k + j)) ::
      rmsgProc dup pid cur (k + fds.length) cs
  | k, c :: cs => c :: rmsgProc dup pid cur k cs

end UnixNex

namespace ExSock
variable (word : ℕ) (g : UnixConf)

/-- `__unixCanWrite`. -/
def canWrite (recver : ExSock β) : Bool :=
  decide (g.pipeBuf ≤ recver.stMaxBufSize - recver.stTotal)

theorem canWrite_pos {g : UnixConf} {recver : ExSock β} (h : recver.canWrite g = true) :
    0 < recver.stMaxBufSize := by
  have hpos := g.pipeBuf_pos
  simp only [canWrite, decide_eq_true_eq] at h
  omega

/-- What `__unixSendtoMsg` sends at most. -/
def sendMax (recver : ExSock β) : ℕ := if recver.iType = .stream then g.pipeBuf else recver.stMaxBufSize

theorem sendMax_pos {g : UnixConf} {recver : ExSock β} (h : recver.canWrite g = true) :
    0 < recver.sendMax g := by
  unfold sendMax
  split_ifs
  · exact g.pipeBuf_pos
  · exact canWrite_pos h

/-- A message is queued. -/
def enqueue (recver : ExSock β) (pvMsg : List β) (h : pvMsg ≠ []) (hmax : 0 < recver.sendMax g)
    (punie : Option UnixNex) (refs : Refs) : ExSock β :=
  { recver with
    msgs := recver.msgs ++ [{
      pcMsg := pvMsg.take (recver.sendMax g)
      stOffset := 0
      left := by
        rw [List.length_take]
        exact Nat.lt_min.mpr ⟨hmax, List.length_pos_iff.mpr h⟩
      punie }]
    stTotal := recver.stTotal + min pvMsg.length (recver.sendMax g)
    refs }

/-- `__unixSendtoMsg`, when there is memory: whether it succeeds, and the socket after it. -/
def sendtoMsg (flight : List ℤ → Bool) (pid : ℕ) (recver : ExSock β) (pvMsg : List β) (h : pvMsg ≠ [])
    (hmax : 0 < recver.sendMax g) (ex : Option (List Cmsg × ℕ)) : Bool × ExSock β :=
  match ex with
  | none => (true, recver.enqueue g pvMsg h hmax none recver.refs)
  | some (cmsgs, uiLenEx) =>
    if hdr : cmsghdrSize ≤ uiLenEx then
      if UnixNex.smsgCheck word uiLenEx recver.iPassCred 0 cmsgs then
        let (iFlightCnt, ok, taken) := UnixNex.smsgFlight (fun fds => pid = 0 || flight fds) cmsgs
        let refs := recver.refs.add pid taken 1
        if ok then
          (true, recver.enqueue g pvMsg h hmax
            (some { cmsgs, uiLenEx, pid, bNeedUnProc := true, bValid := true, hdr }) refs)
        else
          (false, { recver with refs := refs.add pid (UnixNex.smsgUnflight iFlightCnt cmsgs) (-1) })
      else (false, recver)
    else (false, recver)

/-- The loop at `__try_send`: the number of bytes sent, whether a send failed, and the socket after it. -/
def trySend (flight : List ℤ → Bool) (alloc : ℕ → Bool) (pid : ℕ) :
    ℕ → ExSock β → List β → Option (List Cmsg × ℕ) → ℕ × Bool × ExSock β
  | 0, recver, _, _ => (0, false, recver)
  | fuel + 1, recver, data, ex =>
    if h : data ≠ [] then
      if hw : recver.canWrite g then
        if alloc data.length then
          let (ok, recver') := recver.sendtoMsg word g flight pid data h (sendMax_pos hw) ex
          if ok then
            let sstWriteNum := min data.length (recver.sendMax g)
            let (sstTotal, failed, recver'') :=
              trySend flight alloc pid fuel recver' (data.drop sstWriteNum) none
            (sstWriteNum + sstTotal, failed, recver'')
          else (0, true, recver')
        else (0, true, recver)
      else (0, false, recver)
    else (0, false, recver)

/-- The control data in `__unixRecvfromMsg`, in a thread of the process `cur`: the buffer, the message's
control data and the references after it. -/
def recvCtl (dup : ℕ → ℤ) (cur : ℕ) (b : CtlBuf) (punie : Option UnixNex) (refs : Refs) :
    CtlBuf × Option UnixNex × Refs :=
  match b.uiLenEx with
  | none => (b, punie, refs)
  | some n =>
    if b.pvMsgEx ∧ n ≠ 0 then
      match punie with
      | none => ({ b with uiLenEx := some 0 }, punie, refs)
      | some ex =>
        if ex.bValid then
          let n' := min n ex.uiLenEx
          if ex.bNeedUnProc then
            let cmsgs := UnixNex.rmsgProc dup ex.pid cur b.dups.length ex.cmsgs
            ({ b with uiLenEx := some n', mem := cmsgs, dups := b.dups ++ Cmsg.allFds cmsgs
                      copies := b.copies ++ [n'] },
              some { ex with cmsgs, bNeedUnProc := false },
              if cur = 0 then refs else refs.add ex.pid (Cmsg.allFds ex.cmsgs) (-1))
          else ({ b with uiLenEx := some n', mem := ex.cmsgs, copies := b.copies ++ [n'] }, punie, refs)
        else ({ b with uiLenEx := some 0 }, punie, refs)
    else ({ b with uiLenEx := some 0 }, punie, refs)

/-- `__unixDeleteMsg`: the references after it. -/
def deleteMsg (punie : Option UnixNex) (refs : Refs) : Refs :=
  match punie with
  | none => refs
  | some ex => if ex.bNeedUnProc then refs.add ex.pid (Cmsg.allFds ex.cmsgs) (-1) else refs

/-- `__unixRecvfromMsg`. -/
def recvfromMsg (dup : ℕ → ℤ) (cur : ℕ) (recver : ExSock β) (stLen : ℕ) (peek : Bool) (b : CtlBuf) :
    List β × CtlBuf × ExSock β :=
  match recver.msgs with
  | [] => ([], b, recver)
  | m :: msgs =>
    let (b', punie, refs) := recvCtl dup cur b m.punie recver.refs
    let stMsgLen := m.pcMsg.length - m.stOffset
    let data := m.unread.take stLen
    if peek then (data, b', { recver with msgs := { m with punie } :: msgs, refs })
    else if h : stMsgLen ≤ stLen ∨ recver.iType = .dgram then
      (data, b', { recver with
        msgs, stTotal := recver.stTotal - stMsgLen, refs := deleteMsg punie refs })
    else
      (data, b', { recver with
        msgs :=
          { m with
            stOffset := m.stOffset + stLen, left := by omega
            punie := punie.map fun ex => { ex with bValid := false } } :: msgs
        stTotal := recver.stTotal - stLen, refs })

/-- The loop at `__recv_more`. -/
def recvMore (dup : ℕ → ℤ) (cur : ℕ) (flags : UnixFlags) :
    ℕ → ExSock β → ℕ → CtlBuf → List β × CtlBuf × ExSock β
  | 0, recver, _, b => ([], b, recver)
  | fuel + 1, recver, len, b =>
    let (data, b', recver') := recvfromMsg dup cur recver len flags.peek b
    if recver.iType = .stream ∧ data.length < len ∧ (flags.waitall ∨ recver'.msgs ≠ []) then
      let (more, b'', recver'') := recvMore dup cur flags fuel recver' (len - data.length) b'
      (data ++ more, b'', recver'')
    else (data, b', recver')

/-- `__unixCanRead`. -/
def canRead (k : ExSock β) (flags : UnixFlags) (stLen : ℕ) : Bool :=
  !k.msgs.isEmpty && (!flags.waitall || decide (stLen ≤ k.stTotal))

/-- `__unixDeleteAllMsg`. -/
def deleteAllMsg (k : ExSock β) : ExSock β :=
  { k with msgs := [], stTotal := 0, refs := k.msgs.foldl (fun refs m => deleteMsg m.punie refs) k.refs }

end ExSock

/-- What a thread has called and not come back from: a send with the bytes and the control data that are
left, or a receive. -/
inductive RightsCall (β : Type*) where
  | idle
  | send (data : List β) (ex : Option (List Cmsg × ℕ))
  | recv (x len : ℕ) (flags : UnixFlags) (pvMsgEx : Bool) (uiLenEx : Option ℕ)

/-- The sockets, the threads and the processes that they belong to, the kernel being process 0. The code
does not keep what receives have returned: a number and a buffer for control data. -/
structure RightsHost (β : Type*) where
  sock : ℕ → ExSock β
  pid : ℕ → ℕ
  calls : ℕ → RightsCall β
  received : List (ℤ × CtlBuf)

inductive RightsEvent (β : Type*) where
  | send (i : ℕ) (data : List β) (ex : Option (List Cmsg × ℕ))
  | recv (i x len : ℕ) (flags : UnixFlags) (pvMsgEx : Bool) (uiLenEx : Option ℕ)
  /-- A section of a send to a socket; which arrays references can be taken of, and whether there is memory
  for the next message when so many bytes are left. -/
  | sendLocked (i recver : ℕ) (flight : List ℤ → Bool) (alloc : ℕ → Bool)
  /-- A section of a receive, and what `vprocIoFileDupFrom` returns. -/
  | recvLocked (i : ℕ) (dup : ℕ → ℤ)
  /-- A call comes back with what it has: it may not wait or has waited for too long, or there is no
  connection to wait for. -/
  | leave (i : ℕ)
  /-- A socket is shut down or closed. -/
  | deleteAllMsg (x : ℕ)
  | setsockopt (x : ℕ) (iPassCred : Bool) (stMaxBufSize : ℕ)

namespace RightsHost
variable (word : ℕ) (g : UnixConf) (s : RightsHost β)

/-- A section of `unix_sendto2`. -/
def sendto2 (i recver : ℕ) (data : List β) (ex : Option (List Cmsg × ℕ)) (flight : List ℤ → Bool)
    (alloc : ℕ → Bool) : RightsHost β :=
  let (n, failed, k) := (s.sock recver).trySend word g flight alloc (s.pid i) data.length data ex
  { s with
    sock := Function.update s.sock recver k
    calls := Function.update s.calls i
      (if data.length ≤ n ∨ failed then .idle
      else .send (data.drop n) (if n = 0 then ex else none)) }

/-- A section of `unix_recvfrom2` that can receive. -/
def recvfrom2 (i x len : ℕ) (flags : UnixFlags) (b : CtlBuf) (dup : ℕ → ℤ) : RightsHost β :=
  let (data, b', k) := ExSock.recvMore dup (s.pid i) flags len (s.sock x) len b
  { s with
    sock := Function.update s.sock x k
    calls := Function.update s.calls i .idle
    received := (data.length, b') :: s.received }

/-- The buffer that a receive begins with. -/
def ctlBuf (pvMsgEx : Bool) (uiLenEx : Option ℕ) : CtlBuf := ⟨pvMsgEx, uiLenEx, [], [], []⟩

/-- One step. -/
def step : RightsEvent β → Option (RightsHost β)
  | .send i data ex =>
    match s.calls i with
    | .idle =>
      if data = [] then none else some { s with calls := Function.update s.calls i (.send data ex) }
    | _ => none
  | .recv i x len flags pvMsgEx uiLenEx =>
    match s.calls i with
    | .idle =>
      if len = 0 ∨ (flags.peek ∧ flags.waitall) then none
      else some { s with calls := Function.update s.calls i (.recv x len flags pvMsgEx uiLenEx) }
    | _ => none
  | .sendLocked i recver flight alloc =>
    match s.calls i with
    | .send data ex => some (s.sendto2 word g i recver data ex flight alloc)
    | _ => none
  | .recvLocked i dup =>
    match s.calls i with
    | .recv x len flags pvMsgEx uiLenEx =>
      if (s.sock x).canRead flags len then
        some (s.recvfrom2 i x len flags (ctlBuf pvMsgEx uiLenEx) dup)
      else none
    | _ => none
  | .leave i =>
    match s.calls i with
    | .idle => none
    | .send .. => some { s with calls := Function.update s.calls i .idle }
    | .recv _ _ _ pvMsgEx uiLenEx =>
      some { s with
        calls := Function.update s.calls i .idle
        received := (0, ctlBuf pvMsgEx uiLenEx) :: s.received }
  | .deleteAllMsg x => some { s with sock := Function.update s.sock x (s.sock x).deleteAllMsg }
  | .setsockopt x iPassCred stMaxBufSize =>
    some { s with sock := Function.update s.sock x { s.sock x with iPassCred, stMaxBufSize } }

/-- No messages, no references and nothing received. -/
structure Init (s : RightsHost β) : Prop where
  msgs : ∀ x, (s.sock x).msgs = []
  refs : ∀ x p fd, (s.sock x).refs p fd = 0
  calls : ∀ i, s.calls i = .idle
  received : s.received = []

end RightsHost

namespace ExSock

/-- The references are those of the messages, each as long as it has not been given back. -/
def Held (k : ExSock β) : Prop :=
  ∀ p fd, k.refs p fd = (k.msgs.map fun m => UnixNex.held m.punie p fd).sum

end ExSock

namespace CtlBuf

/-- The length that is returned is that of the control data that was copied, if any was, and the descriptors
that were made for the process are in it. -/
def Reported (word : ℕ) (b : CtlBuf) : Prop :=
  match b.uiLenEx with
  | none => b.dups = [] ∧ b.copies = []
  | some n => (∀ fd ∈ b.dups, 0 ≤ fd → fd ∈ Cmsg.visible word n 0 b.mem) ∧ (∀ c ∈ b.copies, n = c) ∧
      (b.copies = [] → n = 0)

end CtlBuf

namespace RightsHost

/-- The references held are those of the queued messages, and a receive that has got bytes reports what it
made descriptors for. -/
structure Safe (word : ℕ) (s : RightsHost β) : Prop where
  refs : ∀ x, (s.sock x).Held
  received : ∀ r ∈ s.received, 0 < r.1 → r.2.Reported word

/-- A receive with room for control data, of a first message that has some to deliver, does not go on to a
second message; and if it is the first to get it, it has room for all of it and is not the kernel's, unless
there are no descriptors of another process in it. -/
def StepOk (word : ℕ) (s : RightsHost β) : RightsEvent β → Prop
  | .recvLocked i _ => ∀ x len flags n, s.calls i = .recv x len flags true (some n) → n ≠ 0 →
      ∀ m ∈ (s.sock x).msgs.head?, ∀ ex ∈ m.punie, ex.bValid = true →
        (ex.bNeedUnProc = true → (s.pid i ≠ 0 ∨ ex.pid = 0 ∨ Cmsg.allFds ex.cmsgs = []) ∧
          Cmsg.ctlEnd word 0 ex.cmsgs ≤ min n ex.uiLenEx) ∧
        (flags.peek = true ∨ (s.sock x).iType ≠ .stream ∨ len ≤ m.unread.length ∨
          (s.sock x).msgs.tail = [])
  | _ => True

end RightsHost
end SylixOS.Net
