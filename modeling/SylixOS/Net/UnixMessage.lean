import SylixOS.Net.UnixConnect
import SylixOS.Net.UnixStream

/-! # Sockets of one machine that keep messages apart

A datagram or a sequenced packet socket has the queue of a stream socket, but a send leaves what it is
given in one message, as long as that is not more than the receiver may hold. A receive takes the first
message: all of it off a datagram socket, and what there is room for off a sequenced packet socket.
-/

namespace SylixOS.Net
open Lib Function

inductive MsgType where
  | dgram
  | seqpacket
  deriving DecidableEq

/-- What sending and receiving need of `AF_UNIX_T`. -/
structure MsgSock (β : Type*) where
  iType : MsgType
  iStatus : UnixStatus
  shutR : Bool
  shutW : Bool
  pafunxPeer : Option ℕ
  unixq : UnixQueue β
  stMaxBufSize : ℕ
  nonblock : Bool

/-- A call of `unix_sendto2`, with the bytes that it was given and how many have been sent. The code does
not keep the messages that it has queued, and how much the receiver could hold when the first was. -/
structure MsgSend (β : Type*) where
  x : ℕ
  data : List β
  sstTotal : ℕ
  bHaveTo : Bool
  dontwait : Bool
  msgs : List (List β)
  room : Option ℕ

/-- A call of `unix_recvfrom2`; `msgFlags` says whether it is to return flags. -/
structure MsgRecv where
  x : ℕ
  len : ℕ
  flags : UnixFlags
  msgFlags : Bool

inductive MsgCall (β : Type*) where
  | idle
  | send (c : MsgSend β)
  | recv (c : MsgRecv)

/-- A send that has come to its end. -/
structure MsgSent (β : Type*) where
  data : List β
  ret : ℤ
  msgs : List (List β)
  room : Option ℕ

/-- A receive that has come to its end: what it returned, what of the first message could be read, the
messages that were taken out of the queue and what can be read of the first message that stays. -/
structure MsgReceived (β : Type*) where
  iType : MsgType
  len : ℕ
  peek : Bool
  msgFlags : Bool
  ret : ℤ
  got : List β
  trunc : Bool
  eor : Bool
  first : List β
  taken : List (List β)
  rest : List β

/-- The sockets and the threads. The code does not keep what has been sent and received. -/
structure MsgHost (β : Type*) where
  sock : ℕ → MsgSock β
  calls : ℕ → MsgCall β
  sent : List (MsgSent β)
  received : List (MsgReceived β)

inductive MsgEvent (β : Type*) where
  | send (i x : ℕ) (data : List β) (haveTo dontwait : Bool)
  | recv (i x len : ℕ) (flags : UnixFlags) (msgFlags : Bool)
  /-- A section under the lock; the arguments are the socket that `__unixFind` finds, and whether there is
  memory for the next message when so many bytes are left. -/
  | locked (i : ℕ) (find : Option ℕ) (alloc : ℕ → Bool)
  /-- A wait ends by its timeout. -/
  | timeout (i : ℕ)
  /-- Something else is done to a socket: it is connected, shut down or set. -/
  | control (x : ℕ) (iStatus : UnixStatus) (shutR shutW : Bool) (pafunxPeer : Option ℕ) (stMaxBufSize : ℕ)
    (nonblock : Bool)
  /-- `__unixDeleteAllMsg`. -/
  | deleteAllMsg (x : ℕ)

variable {β : Type*}

/-- The bytes of the messages. -/
def UnixQueue.contents (q : UnixQueue β) : List (List β) := q.msgs.map UnixMsg.pcMsg

namespace MsgSock
variable (g : UnixConf)

/-- `__unixCanWrite`. -/
def canWrite (recver : MsgSock β) : Bool :=
  decide (recver.iStatus ≠ .listen ∧ g.pipeBuf ≤ recver.stMaxBufSize - recver.unixq.stTotal)

theorem canWrite_pos {g : UnixConf} {recver : MsgSock β} (h : recver.canWrite g = true) :
    0 < recver.stMaxBufSize := by
  have hpos := g.pipeBuf_pos
  simp only [canWrite, decide_eq_true_eq] at h
  omega

/-- `__unixSendtoMsg`, when there is memory. -/
def sendtoMsg (recver : MsgSock β) (pvMsg : List β) (h : pvMsg ≠ []) (hsize : 0 < recver.stMaxBufSize) :
    MsgSock β :=
  { recver with
    unixq :=
      { msgs := recver.unixq.msgs ++ [{
          pcMsg := pvMsg.take recver.stMaxBufSize
          stOffset := 0
          left := by
            rw [List.length_take]
            exact Nat.lt_min.mpr ⟨hsize, List.length_pos_iff.mpr h⟩ }]
        stTotal := recver.unixq.stTotal + min pvMsg.length recver.stMaxBufSize } }

/-- The loop at `__try_send`, each round of which but the last sends a byte: the number of bytes sent,
whether there was no memory, and the socket after it. -/
def trySend (alloc : ℕ → Bool) : ℕ → MsgSock β → List β → ℕ × Bool × MsgSock β
  | 0, recver, _ => (0, false, recver)
  | fuel + 1, recver, data =>
    if h : data ≠ [] then
      if hw : recver.canWrite g then
        if alloc data.length then
          let sstWriteNum := min data.length recver.stMaxBufSize
          let (sstTotal, failed, recver') :=
            trySend alloc fuel (recver.sendtoMsg data h (canWrite_pos hw)) (data.drop sstWriteNum)
          (sstWriteNum + sstTotal, failed, recver')
        else (0, true, recver)
      else (0, false, recver)
    else (0, false, recver)

theorem left_add {recver : MsgSock β} {m : UnixMsg β} {stLen : ℕ}
    (h : ¬(m.pcMsg.length - m.stOffset ≤ stLen ∨ recver.iType = .dgram)) :
    m.stOffset + stLen < m.pcMsg.length := by omega

/-- `__unixRecvfromMsg`: the bytes, whether it sets `MSG_TRUNC` and `MSG_EOR`, and the queue after it. -/
def recvfromMsg (recver : MsgSock β) (stLen : ℕ) (peek msgFlags : Bool) :
    List β × Bool × Bool × UnixQueue β :=
  match recver.unixq.msgs with
  | [] => ([], false, false, recver.unixq)
  | m :: msgs =>
    let stMsgLen := m.pcMsg.length - m.stOffset
    let trunc := decide (stLen ≤ stMsgLen ∧ recver.iType = .dgram ∧ msgFlags = true)
    let eor := decide (stMsgLen < stLen ∧ msgFlags = true)
    let data := m.unread.take stLen
    if peek then (data, trunc, eor, recver.unixq)
    else if h : stMsgLen ≤ stLen ∨ recver.iType = .dgram then
      (data, trunc, eor, { msgs, stTotal := recver.unixq.stTotal - stMsgLen })
    else
      (data, trunc, eor,
        { msgs := { m with stOffset := m.stOffset + stLen, left := left_add h } :: msgs
          stTotal := recver.unixq.stTotal - stLen })

end MsgSock

namespace MsgHost
variable (s : MsgHost β)

/-- A send returns. -/
def sendEnd (i : ℕ) (c : MsgSend β) (ret : ℤ) : MsgHost β :=
  { s with calls := update s.calls i .idle, sent := ⟨c.data, ret, c.msgs, c.room⟩ :: s.sent }

/-- A receive that has got nothing returns. -/
def recvEnd (i : ℕ) (c : MsgRecv) (ret : ℤ) : MsgHost β :=
  { s with
    calls := update s.calls i .idle
    received := {
      iType := (s.sock c.x).iType, len := c.len, peek := c.flags.peek, msgFlags := c.msgFlags, ret
      got := [], trunc := false, eor := false, first := [], taken := [], rest := [] } :: s.received }

/-- The sends of a section of `unix_sendto2`, to a receiver that there is. -/
def sendTo (g : UnixConf) (i : ℕ) (c : MsgSend β) (recver : ℕ) (alloc : ℕ → Bool) : MsgHost β :=
  let r := s.sock recver
  let left := c.data.drop c.sstTotal
  let (n, failed, r') := r.trySend g alloc left.length left
  let c := { c with
    sstTotal := c.sstTotal + n
    msgs := c.msgs ++ r'.unixq.contents.drop r.unixq.msgs.length
    room := if n = 0 then c.room else c.room.or (some r.stMaxBufSize) }
  let s' := { s with sock := update s.sock recver r' }
  if c.data.length ≤ c.sstTotal ∨ failed ∨ (s.sock c.x).nonblock ∨ c.dontwait then
    s'.sendEnd i c c.sstTotal
  else { s' with calls := update s.calls i (.send c) }

/-- A section of `unix_sendto2`. -/
def sendto2 (g : UnixConf) (i : ℕ) (c : MsgSend β) (find : Option ℕ) (alloc : ℕ → Bool) : MsgHost β :=
  let k := s.sock c.x
  if k.iType = .seqpacket ∧ k.shutW then s.sendEnd i c c.sstTotal
  else if k.iType = .seqpacket ∧ k.iStatus ≠ .estab then s.sendEnd i c (-1)
  else
    match if c.bHaveTo then find else k.pafunxPeer with
    | none => s.sendEnd i c c.sstTotal
    | some recver => s.sendTo g i c recver alloc

/-- A section of `unix_recvfrom2`. -/
def recvfrom2 (i : ℕ) (c : MsgRecv) : MsgHost β :=
  let k := s.sock c.x
  if k.iType = .seqpacket ∧ k.iStatus ≠ .estab then s.recvEnd i c (-1)
  else if k.unixq.canRead c.flags c.len then
    let (data, trunc, eor, q) := k.recvfromMsg c.len c.flags.peek c.msgFlags
    { s with
      sock := update s.sock c.x { k with unixq := q }
      calls := update s.calls i .idle
      received := {
        iType := k.iType, len := c.len, peek := c.flags.peek, msgFlags := c.msgFlags, ret := data.length
        got := data, trunc, eor
        first := (k.unixq.msgs.head?.map UnixMsg.unread).getD []
        taken := k.unixq.contents.take (k.unixq.msgs.length - q.msgs.length)
        rest := (q.msgs.head?.map UnixMsg.unread).getD [] } :: s.received }
  else if k.iType = .seqpacket ∧ k.shutR then s.recvEnd i c 0
  else if k.iType = .seqpacket ∧ k.pafunxPeer = none then s.recvEnd i c (-1)
  else if k.nonblock ∨ c.flags.dontwait then s.recvEnd i c 0
  else s

/-- One step. -/
def step (g : UnixConf) : MsgEvent β → Option (MsgHost β)
  | .send i x data haveTo dontwait =>
    match s.calls i with
    | .idle =>
      let c : MsgSend β := {
        x, data, sstTotal := 0, dontwait, msgs := [], room := none
        bHaveTo := haveTo && (s.sock x).iType = .dgram }
      if data = [] then some (s.sendEnd i c (-1))
      else some { s with calls := update s.calls i (.send c) }
    | _ => none
  | .recv i x len flags msgFlags =>
    match s.calls i with
    | .idle =>
      if len = 0 ∨ (flags.peek ∧ flags.waitall) then some (s.recvEnd i ⟨x, len, flags, msgFlags⟩ (-1))
      else some { s with calls := update s.calls i (.recv ⟨x, len, flags, msgFlags⟩) }
    | _ => none
  | .locked i find alloc =>
    match s.calls i with
    | .idle => none
    | .send c => some (s.sendto2 g i c find alloc)
    | .recv c => some (s.recvfrom2 i c)
  | .timeout i =>
    match s.calls i with
    | .idle => none
    | .send c => some (s.sendEnd i c c.sstTotal)
    | .recv c => some (s.recvEnd i c 0)
  | .control x iStatus shutR shutW pafunxPeer stMaxBufSize nonblock =>
    some { s with
      sock := update s.sock x
        { s.sock x with iStatus, shutR, shutW, pafunxPeer, stMaxBufSize, nonblock } }
  | .deleteAllMsg x =>
    some { s with sock := update s.sock x { s.sock x with unixq := ⟨[], 0⟩ } }

/-- Sockets with no messages, and nothing sent or received. -/
structure Init (s : MsgHost β) : Prop where
  unixq : ∀ x, (s.sock x).unixq = ⟨[], 0⟩
  calls : ∀ i, s.calls i = .idle
  sent : s.sent = []
  received : s.received = []

end MsgHost

/-- All bytes were queued in one message, or none were. -/
def MsgSent.Whole (r : MsgSent β) : Prop :=
  (r.ret = r.data.length ∧ r.msgs = [r.data]) ∨ (r.ret ≤ 0 ∧ r.msgs = [])

/-- Whatever was received, a message was taken out whole, the first bytes of it that there was room for
were returned, and `MSG_TRUNC` says that there was not room for all. -/
def MsgReceived.Whole (r : MsgReceived β) : Prop :=
  r.peek = false → 0 < r.ret →
    ∃ m, r.taken = [m] ∧ r.got = m.take r.len ∧ (r.msgFlags = true → (r.trunc = true ↔ r.len < m.length))

/-- What a receive does by the type of its socket: it takes a datagram whole, and `MSG_TRUNC` says that
there was room for less, unless there was room for just as much; it takes of a sequenced packet what there
is room for, and the rest stays for the next receive. -/
def MsgReceived.ByType (r : MsgReceived β) : Prop :=
  (r.peek = true ∨ r.ret ≤ 0 → r.taken = []) ∧
  (r.peek = false → 0 < r.ret → r.got = r.first.take r.len ∧
    match r.iType with
    | .dgram => r.taken = [r.first] ∧
        (r.msgFlags = true → r.len ≠ r.first.length → (r.trunc = true ↔ r.len < r.first.length))
    | .seqpacket => r.trunc = false ∧
        if r.first.length ≤ r.len then ∃ m, r.taken = [m] ∧ r.first <:+ m
        else r.taken = [] ∧ r.rest = r.first.drop r.len)

namespace MsgSock
variable {g : UnixConf} {alloc : ℕ → Bool} {fuel : ℕ} {r : MsgSock β} {data : List β}

/-- The bytes sent are none only if the receiver stays as it is. -/
theorem trySend_zero (h : (r.trySend g alloc fuel data).1 = 0) :
    (r.trySend g alloc fuel data).2.2 = r := by
  cases fuel with
  | zero => rfl
  | succ fuel =>
    unfold trySend at h ⊢
    split_ifs at h ⊢ with hne hw ha
    · have hpos := canWrite_pos hw
      have hlen := List.length_pos_iff.mpr hne
      dsimp only at h
      omega
    all_goals rfl

/-- Bytes that the receiver may hold are sent in one message, or not. -/
theorem trySend_whole (alloc : ℕ → Bool) (hne : data ≠ []) (hfuel : data.length ≤ fuel)
    (hsize : data.length ≤ r.stMaxBufSize) :
    (r.trySend g alloc fuel data).1 = 0 ∨ (r.trySend g alloc fuel data).1 = data.length ∧
      (r.trySend g alloc fuel data).2.2.unixq.contents = r.unixq.contents ++ [data] := by
  have hlen := List.length_pos_iff.mpr hne
  cases fuel with
  | zero => omega
  | succ fuel =>
    unfold trySend
    split_ifs with hw ha
    · have hdrop : data.drop (min data.length r.stMaxBufSize) = [] := by
        rw [min_eq_left hsize, List.drop_length]
      have hrest : ∀ r' : MsgSock β, r'.trySend g alloc fuel [] = (0, false, r') := by
        intro r'
        cases fuel <;> simp [trySend]
      simp only [hdrop, hrest]
      refine .inr ⟨by omega, ?_⟩
      simp [sendtoMsg, UnixQueue.contents, List.take_of_length_le hsize]
    all_goals exact .inl rfl

theorem trySend_iType : (r.trySend g alloc fuel data).2.2.iType = r.iType := by
  induction fuel generalizing r data with
  | zero => rfl
  | succ fuel ih =>
    unfold trySend
    split_ifs
    · exact ih
    all_goals rfl

/-- New messages have not been received from. -/
theorem trySend_offset (h : ∀ m ∈ r.unixq.msgs, m.stOffset = 0) :
    ∀ m ∈ (r.trySend g alloc fuel data).2.2.unixq.msgs, m.stOffset = 0 := by
  induction fuel generalizing r data with
  | zero => exact h
  | succ fuel ih =>
    unfold trySend
    split_ifs
    · refine ih fun m hm => ?_
      simp only [sendtoMsg, List.mem_append, List.mem_singleton] at hm
      rcases hm with hm | rfl
      · exact h m hm
      · rfl
    all_goals exact h

section Recv
variable {m : UnixMsg β} {msgs : List (UnixMsg β)} (stLen : ℕ) (msgFlags : Bool)

theorem recvfromMsg_peek (hm : r.unixq.msgs = m :: msgs) :
    (r.recvfromMsg stLen true msgFlags).2.2.2 = r.unixq := by
  simp only [recvfromMsg, hm, if_true]

theorem recvfromMsg_data (hm : r.unixq.msgs = m :: msgs) (peek : Bool) :
    (r.recvfromMsg stLen peek msgFlags).1 = m.unread.take stLen ∧
      (r.recvfromMsg stLen peek msgFlags).2.1 =
        decide (stLen ≤ m.unread.length ∧ r.iType = .dgram ∧ msgFlags = true) := by
  simp only [recvfromMsg, hm, UnixMsg.unread_length]
  split_ifs <;> exact ⟨rfl, rfl⟩

/-- A message that there is room for, or a datagram, is taken out. -/
theorem recvfromMsg_all (hm : r.unixq.msgs = m :: msgs) (h : m.unread.length ≤ stLen ∨ r.iType = .dgram) :
    (r.recvfromMsg stLen false msgFlags).2.2.2.msgs = msgs := by
  rw [UnixMsg.unread_length] at h
  simp only [recvfromMsg, hm, Bool.false_eq_true, if_false, dif_pos h]

/-- Of another one the rest stays. -/
theorem recvfromMsg_part (hm : r.unixq.msgs = m :: msgs)
    (h : ¬ (m.unread.length ≤ stLen ∨ r.iType = .dgram)) :
    ∃ m', m'.unread = m.unread.drop stLen ∧
      (r.recvfromMsg stLen false msgFlags).2.2.2.msgs = m' :: msgs := by
  rw [UnixMsg.unread_length] at h
  refine ⟨{ m with stOffset := m.stOffset + stLen, left := by omega }, ?_, ?_⟩
  · simp [UnixMsg.unread]
  · simp only [recvfromMsg, hm, Bool.false_eq_true, if_false, dif_neg h]

theorem recvfromMsg_offset {peek : Bool} (hd : r.iType = .dgram)
    (h : ∀ m ∈ r.unixq.msgs, m.stOffset = 0) :
    ∀ m ∈ (r.recvfromMsg stLen peek msgFlags).2.2.2.msgs, m.stOffset = 0 := by
  cases hm : r.unixq.msgs with
  | nil => simp [recvfromMsg, hm]
  | cons m msgs =>
    cases peek with
    | true =>
      rw [recvfromMsg_peek stLen msgFlags hm]
      exact h
    | false =>
      rw [recvfromMsg_all stLen msgFlags hm (.inr hd)]
      exact fun m' hm' => h m' (hm ▸ List.mem_cons_of_mem _ hm')

end Recv

end MsgSock

namespace MsgHost
variable {g : UnixConf} {s s' : MsgHost β}

/-- Every send of no more than the receiver can hold is queued in one message or not at all, and every
receive does as its socket's type says. -/
structure Safe (s : MsgHost β) : Prop where
  sent : ∀ r ∈ s.sent, (∀ room ∈ r.room, r.data.length ≤ room) → r.Whole
  received : ∀ r ∈ s.received, r.ByType

/-- A send that has not come to its end has queued nothing, or is of more than the receiver could hold. -/
def Pending (c : MsgSend β) : Prop :=
  c.data ≠ [] ∧ (c.room = none → c.sstTotal = 0 ∧ c.msgs = []) ∧ ∀ room ∈ c.room, room < c.data.length

structure Kept (s : MsgHost β) : Prop extends Safe s where
  pending : ∀ i c, s.calls i = .send c → Pending c
  len : ∀ i c, s.calls i = .recv c → 0 < c.len
  offset : ∀ x, (s.sock x).iType = .dgram → ∀ m ∈ (s.sock x).unixq.msgs, m.stOffset = 0

theorem Init.kept (h : s.Init) : s.Kept where
  sent r hr := by simp [h.sent] at hr
  received r hr := by simp [h.received] at hr
  pending i c hc := by simp [h.calls] at hc
  len i c hc := by simp [h.calls] at hc
  offset x _ m hm := by simp [h.unixq] at hm

/-- A thread goes on, and nothing is sent or received. -/
theorem Kept.goto {i : ℕ} {c : MsgCall β} (h : s.Kept) (hc : ∀ c', c = .send c' → Pending c')
    (hlen : ∀ c', c = .recv c' → 0 < c'.len) :
    Kept { s with calls := update s.calls i c } where
  sent := h.sent
  received := h.received
  pending j c' hj := by
    by_cases hji : j = i
    · subst hji
      simp only [update_self] at hj
      exact hc c' hj
    · simp only [update_of_ne hji] at hj
      exact h.pending j c' hj
  len j c' hj := by
    by_cases hji : j = i
    · subst hji
      simp only [update_self] at hj
      exact hlen c' hj
    · simp only [update_of_ne hji] at hj
      exact h.len j c' hj
  offset := h.offset

theorem Kept.toIdle {i : ℕ} (h : s.Kept) : Kept { s with calls := update s.calls i .idle } :=
  h.goto (fun _ hc => by cases hc) fun _ hc => by cases hc

/-- A socket changes. -/
theorem Kept.setSock {x : ℕ} {k : MsgSock β} (h : s.Kept)
    (hk : k.iType = .dgram → ∀ m ∈ k.unixq.msgs, m.stOffset = 0) :
    Kept { s with sock := update s.sock x k } where
  sent := h.sent
  received := h.received
  pending := h.pending
  len := h.len
  offset y := by
    by_cases hy : y = x
    · subst hy
      simp only [update_self]
      exact hk
    · simp only [update_of_ne hy]
      exact h.offset y

theorem Kept.sendEnd {i : ℕ} {c : MsgSend β} {ret : ℤ} (h : s.Kept)
    (hc : (∀ room ∈ c.room, c.data.length ≤ room) → MsgSent.Whole ⟨c.data, ret, c.msgs, c.room⟩) :
    (s.sendEnd i c ret).Kept where
  sent r hr := by
    rcases List.mem_cons.mp hr with rfl | hr
    · exact hc
    · exact h.sent r hr
  received := h.received
  pending := (h.toIdle (i := i)).pending
  len := (h.toIdle (i := i)).len
  offset := h.offset

theorem Kept.recvEnd {i : ℕ} {c : MsgRecv} {ret : ℤ} (h : s.Kept) (hret : ret ≤ 0) :
    (s.recvEnd i c ret).Kept where
  sent := h.sent
  received r hr := by
    rcases List.mem_cons.mp hr with rfl | hr
    · exact ⟨fun _ => rfl, fun _ hpos => absurd hret (by dsimp only at hpos; omega)⟩
    · exact h.received r hr
  pending := (h.toIdle (i := i)).pending
  len := (h.toIdle (i := i)).len
  offset := h.offset

/-- A send that comes to its end while nothing more is queued. -/
theorem Pending.whole {c : MsgSend β} {ret : ℤ} (h : Pending c) (hret : ret ≤ c.sstTotal)
    (hroom : ∀ room ∈ c.room, c.data.length ≤ room) : MsgSent.Whole ⟨c.data, ret, c.msgs, c.room⟩ := by
  cases hr : c.room with
  | none =>
    obtain ⟨htotal, hmsgs⟩ := h.2.1 hr
    rw [htotal] at hret
    exact .inr ⟨by simpa using hret, hmsgs⟩
  | some room =>
    have hlt := h.2.2 room (by rw [hr]; rfl)
    have hle := hroom room (by rw [hr]; rfl)
    omega

theorem Kept.sendTo {i recver : ℕ} {c : MsgSend β} {alloc : ℕ → Bool} (h : s.Kept) (hc : Pending c) :
    (s.sendTo g i c recver alloc).Kept := by
  obtain ⟨hne, hnone, hroom⟩ := hc
  unfold MsgHost.sendTo
  set r := s.sock recver with hr
  set left := c.data.drop c.sstTotal with hleft
  set n := (r.trySend g alloc left.length left).1 with hn
  set r' := (r.trySend g alloc left.length left).2.2 with hr'
  have hk := h.setSock (x := recver) (k := r') fun hd =>
    MsgSock.trySend_offset (h.offset recver (MsgSock.trySend_iType (r := r) ▸ hd))
  -- What the call has come to.
  set c' : MsgSend β := { c with
    sstTotal := c.sstTotal + n
    msgs := c.msgs ++ r'.unixq.contents.drop r.unixq.msgs.length
    room := if n = 0 then c.room else c.room.or (some r.stMaxBufSize) } with hc'
  have hzero : n = 0 → c' = c := by
    intro hz
    have : r' = r := MsgSock.trySend_zero hz
    have hdrop : r.unixq.contents.drop r.unixq.msgs.length = [] := by
      simp [UnixQueue.contents]
    simp [hc', hz, this, hdrop]
  -- A send that the receiver can hold is queued in one message, and has come to its end.
  have hone : n ≠ 0 → c.room = none → c.data.length ≤ r.stMaxBufSize →
      n = c.data.length ∧ c'.msgs = [c.data] ∧ c'.sstTotal = c.data.length := by
    intro hz hrn hle
    obtain ⟨htotal, hmsgs⟩ := hnone hrn
    have hl : left = c.data := by rw [hleft, htotal, List.drop_zero]
    rw [← hl] at hne hle
    obtain hz' | ⟨hlen, hcont⟩ := MsgSock.trySend_whole (g := g) alloc hne le_rfl hle
    · exact absurd hz' hz
    · rw [hl] at hlen hcont
      have hnlen : n = c.data.length := by rw [hn, hl]; exact hlen
      refine ⟨hnlen, ?_, ?_⟩
      · have hdrop : (r.unixq.contents ++ [c.data]).drop r.unixq.msgs.length = [c.data] := by
          simp [UnixQueue.contents]
        simp only [hc', hmsgs, List.nil_append, hr', hl, hcont, hdrop]
      · simp only [hc', htotal, Nat.zero_add, hnlen]
  have hwhole : (∀ room ∈ c'.room, c'.data.length ≤ room) →
      MsgSent.Whole ⟨c'.data, c'.sstTotal, c'.msgs, c'.room⟩ := by
    intro hfits
    by_cases hz : n = 0
    · rw [hzero hz] at hfits ⊢
      exact Pending.whole ⟨hne, hnone, hroom⟩ (Int.le_refl _) hfits
    · cases hrn : c.room with
      | none =>
        have hle := hfits r.stMaxBufSize (by simp [hc', hz, hrn])
        obtain ⟨_, hmsgs, htotal⟩ := hone hz hrn hle
        exact .inl ⟨by rw [htotal], hmsgs⟩
      | some room =>
        have hle := hfits room (by simp [hc', hz, hrn])
        have hlt := hroom room (by rw [hrn]; rfl)
        simp only [hc'] at hle
        omega
  change Kept (if c'.data.length ≤ c'.sstTotal ∨ (r.trySend g alloc left.length left).2.1 = true ∨
      (s.sock c.x).nonblock = true ∨ c.dontwait = true then
    MsgHost.sendEnd { s with sock := update s.sock recver r' } i c' c'.sstTotal
    else
      { s with
        sock := update s.sock recver r'
        calls := update s.calls i (.send c') })
  split_ifs with hend
  · exact hk.sendEnd hwhole
  · refine hk.goto (fun c'' hc'' => ?_) fun _ hc => by cases hc
    obtain rfl : c' = c'' := by
      injection hc''
    by_cases hz : n = 0
    · rw [hzero hz]
      exact ⟨hne, hnone, hroom⟩
    · refine ⟨hne, fun hrn => ?_, fun room hmem => ?_⟩
      · simp [hc', hz] at hrn
      · cases hrn : c.room with
        | none =>
          have hsize : r.stMaxBufSize = room := by simpa [hc', hz, hrn] using hmem
          by_contra hle
          rw [not_lt, ← hsize] at hle
          obtain ⟨_, _, htotal⟩ := hone hz hrn hle
          exact hend (.inl htotal.ge)
        | some room' =>
          have hsize : room' = room := by simpa [hc', hz, hrn] using hmem
          exact hsize ▸ hroom room' (by rw [hrn]; rfl)

theorem Kept.sendto2 {i : ℕ} {c : MsgSend β} {find : Option ℕ} {alloc : ℕ → Bool} (h : s.Kept)
    (hc : Pending c) : (s.sendto2 g i c find alloc).Kept := by
  unfold MsgHost.sendto2
  dsimp only
  by_cases hshut : (s.sock c.x).iType = .seqpacket ∧ (s.sock c.x).shutW = true
  · rw [if_pos hshut]
    exact h.sendEnd (hc.whole (Int.le_refl _))
  · rw [if_neg hshut]
    by_cases hestab : (s.sock c.x).iType = .seqpacket ∧ (s.sock c.x).iStatus ≠ .estab
    · rw [if_pos hestab]
      exact h.sendEnd (hc.whole (by omega))
    · rw [if_neg hestab]
      split
      · exact h.sendEnd (hc.whole (Int.le_refl _))
      · exact h.sendTo hc

/-- A receive that gets the first message, or the first bytes of it. -/
theorem recvfromMsg_byType {k : MsgSock β} {m : UnixMsg β} {msgs : List (UnixMsg β)} {len : ℕ}
    {peek msgFlags trunc eor : Bool} {data : List β} {q : UnixQueue β} (hm : k.unixq.msgs = m :: msgs)
    (hoffset : k.iType = .dgram → ∀ m ∈ k.unixq.msgs, m.stOffset = 0) (hlen : 0 < len)
    (hr : k.recvfromMsg len peek msgFlags = (data, trunc, eor, q)) :
    MsgReceived.ByType {
      iType := k.iType, len, peek, msgFlags, ret := data.length, got := data, trunc, eor
      first := (k.unixq.msgs.head?.map UnixMsg.unread).getD []
      taken := k.unixq.contents.take (k.unixq.msgs.length - q.msgs.length)
      rest := (q.msgs.head?.map UnixMsg.unread).getD [] } := by
  obtain ⟨hdata, htrunc⟩ := MsgSock.recvfromMsg_data len msgFlags hm peek
  rw [hr] at hdata htrunc
  dsimp only at hdata htrunc
  have hfirst : (k.unixq.msgs.head?.map UnixMsg.unread).getD [] = m.unread := by
    rw [hm]
    rfl
  have hcont : k.unixq.contents = m.pcMsg :: msgs.map UnixMsg.pcMsg := by
    rw [UnixQueue.contents, hm]
    rfl
  rw [hfirst]
  cases peek with
  | true =>
    have hq := MsgSock.recvfromMsg_peek len msgFlags hm
    rw [hr] at hq
    dsimp only at hq
    refine ⟨fun _ => ?_, fun hp => by cases hp⟩
    simp [hq]
  | false =>
    have hpos : 0 < data.length := by
      have := m.left
      rw [hdata, List.length_take, UnixMsg.unread_length]
      omega
    refine ⟨fun hret => ?_, fun _ _ => ⟨hdata, ?_⟩⟩
    · rcases hret with hp | hret
      · cases hp
      · dsimp only at hret
        omega
    · dsimp only
      split
      · rename_i hd
        have hall := MsgSock.recvfromMsg_all len msgFlags hm (.inr hd)
        rw [hr] at hall
        dsimp only at hall
        refine ⟨?_, fun hf hne => ?_⟩
        · have hwhole := hoffset hd m (hm ▸ List.mem_cons_self)
          rw [hall, hcont, hm]
          simp [UnixMsg.unread, hwhole]
        · rw [htrunc]
          simp only [hd, hf, and_true, decide_eq_true_eq]
          omega
      · rename_i hd
        have hnd : k.iType ≠ .dgram := by
          rw [hd]
          decide
        refine ⟨by rw [htrunc]; simp [hnd], ?_⟩
        split_ifs with hle
        · have hall := MsgSock.recvfromMsg_all len msgFlags hm (.inl hle)
          rw [hr] at hall
          dsimp only at hall
          refine ⟨m.pcMsg, ?_, List.drop_suffix ..⟩
          rw [hall, hcont, hm]
          simp
        · obtain ⟨m', hm', hpart⟩ := MsgSock.recvfromMsg_part len msgFlags hm
            (not_or.mpr ⟨hle, hnd⟩)
          rw [hr] at hpart
          dsimp only at hpart
          rw [hpart, hm]
          simp [hm']

theorem Kept.recvfrom2 {i : ℕ} {c : MsgRecv} (h : s.Kept) (hlen : 0 < c.len) :
    (s.recvfrom2 i c).Kept := by
  unfold MsgHost.recvfrom2
  by_cases hestab : (s.sock c.x).iType = .seqpacket ∧ (s.sock c.x).iStatus ≠ .estab
  · simp only [if_pos hestab]
    exact h.recvEnd (by omega)
  · simp only [if_neg hestab]
    by_cases hcan : (s.sock c.x).unixq.canRead c.flags c.len = true
    · simp only [if_pos hcan]
      have hne : (s.sock c.x).unixq.msgs ≠ [] := by
        intro hnil
        simp [UnixQueue.canRead, hnil] at hcan
      obtain ⟨m, msgs, hm⟩ := List.exists_cons_of_ne_nil hne
      have hk := (h.toIdle (i := i)).setSock (x := c.x)
        (k := { s.sock c.x with
          unixq := ((s.sock c.x).recvfromMsg c.len c.flags.peek c.msgFlags).2.2.2 })
        fun hd => MsgSock.recvfromMsg_offset c.len c.msgFlags hd (h.offset c.x hd)
      refine ⟨⟨h.sent, fun r hr => ?_⟩, hk.pending, hk.len, hk.offset⟩
      rcases List.mem_cons.mp hr with rfl | hr
      · exact recvfromMsg_byType hm (h.offset c.x) hlen rfl
      · exact h.received r hr
    · simp only [if_neg hcan]
      split_ifs
      · exact h.recvEnd (Int.le_refl 0)
      · exact h.recvEnd (by omega)
      · exact h.recvEnd (Int.le_refl 0)
      · exact h

theorem Kept.step {e : MsgEvent β} (h : s.Kept) (hs : s.step g e = some s') : s'.Kept := by
  cases e with
  | send i x data haveTo dontwait =>
    simp only [MsgHost.step] at hs
    split at hs
    · split_ifs at hs with hne
      · cases hs
        exact h.sendEnd fun _ => .inr ⟨by simp, rfl⟩
      · cases hs
        refine h.goto (fun c hc => ?_) fun _ hc => by cases hc
        cases hc
        exact ⟨hne, fun _ => ⟨rfl, rfl⟩, by simp⟩
    · cases hs
  | recv i x len flags msgFlags =>
    simp only [MsgHost.step] at hs
    split at hs
    · split_ifs at hs with hne
      · cases hs
        exact h.recvEnd (by omega)
      · cases hs
        refine h.goto (fun _ hc => by cases hc) fun c hc => ?_
        cases hc
        rw [not_or] at hne
        exact Nat.pos_of_ne_zero hne.1
    · cases hs
  | locked i find alloc =>
    simp only [MsgHost.step] at hs
    split at hs
    · cases hs
    · rename_i c hc
      cases hs
      exact h.sendto2 (h.pending i c hc)
    · rename_i c hc
      cases hs
      exact h.recvfrom2 (h.len i c hc)
  | timeout i =>
    simp only [MsgHost.step] at hs
    split at hs
    · cases hs
    · rename_i c hc
      cases hs
      exact h.sendEnd ((h.pending i c hc).whole (Int.le_refl _))
    · cases hs
      exact h.recvEnd (Int.le_refl 0)
  | control x iStatus shutR shutW peer size nonblock =>
    cases hs
    exact h.setSock (h.offset x)
  | deleteAllMsg x =>
    cases hs
    exact h.setSock fun _ m hm => by cases hm

/-- In every run, a send of no more bytes than the receiver can hold is queued in one message or not at
all, a receive off a datagram socket takes one message whole, and a receive off a sequenced packet socket
takes of one message what there is room for. -/
theorem unixMessage_safe (h : Reach (fun s : MsgHost β => s.step g) (fun _ _ => True) Init s) : s.Safe :=
  (h.invariant (fun _ => Init.kept) fun _ _ _ hs _ hstep => hs.step hstep).toSafe

/-- Two connected sockets of a type, 0 and 1, with room for four bytes. -/
def pair (iType : MsgType) : MsgHost ℕ where
  sock x := ⟨iType, .estab, false, false, some (1 - x), ⟨[], 0⟩, 4, false⟩
  calls _ := .idle
  sent := []
  received := []

theorem pair_init (iType : MsgType) : (pair iType).Init := by
  constructor <;> intros <;> rfl

/-- A datagram of three bytes is received with room for two. -/
theorem unixMessage_safe_three : ∃ s : MsgHost ℕ,
    s.received.map (fun r => (r.got, r.taken, r.trunc)) = [([1, 2], [[1, 2, 3]], true)] ∧ s.Safe := by
  have hruns : runs (fun s : MsgHost ℕ => s.step UnixPair.twoBytes) (pair .dgram)
      [.send 0 0 [1, 2, 3] false false, .locked 0 none fun _ => true,
        .recv 1 1 2 ⟨false, false, false⟩ true, .locked 1 none fun _ => true] = some _ := rfl
  exact ⟨_, by decide, unixMessage_safe ((Reach.start (pair_init .dgram)).of_runs hruns)⟩

/-- A sequenced packet is not taken out by a receive that has room for a part of it. -/
theorem unixMessage_seqpacket : ∃ s : MsgHost ℕ,
    Reach (fun s : MsgHost ℕ => s.step UnixPair.twoBytes) (fun _ _ => True) Init s ∧
    ∃ r ∈ s.received, ¬ r.Whole := by
  have hruns : runs (fun s : MsgHost ℕ => s.step UnixPair.twoBytes) (pair .seqpacket)
      [.send 0 0 [1, 2, 3] false false, .locked 0 none fun _ => true,
        .recv 1 1 2 ⟨false, false, false⟩ true, .locked 1 none fun _ => true] = some _ := rfl
  refine ⟨_, (Reach.start (pair_init .seqpacket)).of_runs hruns, _, List.mem_cons_self, fun hw => ?_⟩
  obtain ⟨m, hm, -⟩ := hw rfl (by decide)
  have hnil : ([] : List (List ℕ)) = [m] := hm
  cases hnil

end MsgHost
end SylixOS.Net
