import Mathlib
import SylixOS.Lib.Reach

/-! # Stream sockets of one machine

Two connected stream sockets have a queue of messages each, in which the other socket's sends are
received. A send cuts its bytes into messages, and a receive takes as many messages as it has room for,
the last of which it may leave in the middle. Threads send and receive in sections under one lock. A
thread that waits outside of it may go on at any time.
-/

namespace SylixOS.Net
open Lib Function

/-- `__AF_UNIX_PIPE_BUF`. -/
structure UnixConf where
  pipeBuf : ℕ
  pipeBuf_pos : 0 < pipeBuf

/-- `AF_UNIX_N`: a message that has not been received to its end. -/
structure UnixMsg (β : Type*) where
  pcMsg : List β
  stOffset : ℕ
  left : stOffset < pcMsg.length

/-- `AF_UNIX_Q`, from `UNIQ_pmonoHeader` on. -/
structure UnixQueue (β : Type*) where
  msgs : List (UnixMsg β)
  stTotal : ℕ

/-- What a socket of the pair needs of `AF_UNIX_T`. -/
structure UnixSock (β : Type*) where
  unixq : UnixQueue β
  stMaxBufSize : ℕ
  nonblock : Bool

/-- The flags of a receive. -/
structure UnixFlags where
  peek : Bool
  waitall : Bool
  dontwait : Bool
  deriving DecidableEq

/-- What a thread has called and not come back from. -/
inductive UnixCall (β : Type*) where
  | idle
  | send (side : Bool) (pcSendMem : List β) (dontwait : Bool)
  | recv (side : Bool) (len : ℕ) (flags : UnixFlags)

/-- The pair, with what threads do. The code does not keep the bytes that were queued for a side, those
that were received, and for each peek what it got and what could be read before and after it. -/
structure UnixPair (β : Type*) where
  sock : Bool → UnixSock β
  calls : ℕ → UnixCall β
  queued : Bool → List β
  got : Bool → List β
  peeked : List (List β × List β × List β)

inductive UnixEvent (β : Type*) where
  | send (i : ℕ) (side : Bool) (data : List β) (dontwait : Bool)
  | recv (i : ℕ) (side : Bool) (len : ℕ) (flags : UnixFlags)
  /-- A section under the lock; the argument says whether there is memory for the next message when so
  many bytes are left. -/
  | locked (i : ℕ) (alloc : ℕ → Bool)
  /-- A wait ends by its timeout. -/
  | timeout (i : ℕ)
  | setBufSize (side : Bool) (stMaxBufSize : ℕ)

variable {β : Type*}

namespace UnixMsg

/-- The bytes of a message that have not been received. -/
def unread (m : UnixMsg β) : List β := m.pcMsg.drop m.stOffset

@[simp] theorem unread_length (m : UnixMsg β) : m.unread.length = m.pcMsg.length - m.stOffset :=
  List.length_drop

end UnixMsg

namespace UnixQueue

/-- The bytes that have not been received. -/
def unread (q : UnixQueue β) : List β := q.msgs.flatMap UnixMsg.unread

/-- `__unixCanRead`. -/
def canRead (q : UnixQueue β) (flags : UnixFlags) (stLen : ℕ) : Bool :=
  !q.msgs.isEmpty && (!flags.waitall || decide (stLen ≤ q.stTotal))

/-- `__unixSendtoMsg`, when there is memory. -/
def sendtoMsg (g : UnixConf) (q : UnixQueue β) (pvMsg : List β) (h : pvMsg ≠ []) : UnixQueue β where
  msgs := q.msgs ++ [{
    pcMsg := pvMsg.take g.pipeBuf
    stOffset := 0
    left := by
      rw [List.length_take]
      exact Nat.lt_min.mpr ⟨g.pipeBuf_pos, List.length_pos_iff.mpr h⟩ }]
  stTotal := q.stTotal + min pvMsg.length g.pipeBuf

/-- `__unixRecvfromMsg`. -/
def recvfromMsg (q : UnixQueue β) (stLen : ℕ) (peek : Bool) : List β × UnixQueue β :=
  match q.msgs with
  | [] => ([], q)
  | m :: msgs =>
    let stMsgLen := m.pcMsg.length - m.stOffset
    let data := m.unread.take stLen
    if peek then (data, q)
    else if h : stMsgLen ≤ stLen then (data, { msgs, stTotal := q.stTotal - stMsgLen })
    else
      (data,
        { msgs := { m with stOffset := m.stOffset + stLen, left := by omega } :: msgs
          stTotal := q.stTotal - stLen })

/-- The loop at `__recv_more`, each round of which but the last receives a byte. -/
def recvMore (flags : UnixFlags) : ℕ → UnixQueue β → ℕ → List β × UnixQueue β
  | 0, q, _ => ([], q)
  | fuel + 1, q, len =>
    let (data, q') := q.recvfromMsg len flags.peek
    if data.length < len ∧ (flags.waitall ∨ q'.msgs ≠ []) then
      let (more, q'') := recvMore flags fuel q' (len - data.length)
      (data ++ more, q'')
    else (data, q')

end UnixQueue

namespace UnixSock

/-- `__unixCanWrite`. -/
def canWrite (g : UnixConf) (recver : UnixSock β) : Bool :=
  decide (g.pipeBuf ≤ recver.stMaxBufSize - recver.unixq.stTotal)

/-- The loop at `__try_send`, each round of which but the last sends a byte: the number of bytes sent,
whether there was no memory, and the socket after it. -/
def trySend (g : UnixConf) (alloc : ℕ → Bool) : ℕ → UnixSock β → List β → ℕ × Bool × UnixSock β
  | 0, recver, _ => (0, false, recver)
  | fuel + 1, recver, data =>
    if h : data ≠ [] then
      if recver.canWrite g then
        if alloc data.length then
          let sstWriteNum := min data.length g.pipeBuf
          let (sstTotal, failed, recver') :=
            trySend g alloc fuel { recver with unixq := recver.unixq.sendtoMsg g data h }
              (data.drop sstWriteNum)
          (sstWriteNum + sstTotal, failed, recver')
        else (0, true, recver)
      else (0, false, recver)
    else (0, false, recver)

end UnixSock

namespace UnixPair
variable (g : UnixConf) (s : UnixPair β)

/-- A section of `unix_sendto2`. -/
def sendto2 (i : ℕ) (side : Bool) (pcSendMem : List β) (dontwait : Bool) (alloc : ℕ → Bool) :
    UnixPair β :=
  let (sstTotal, failed, recver) := (s.sock !side).trySend g alloc pcSendMem.length pcSendMem
  let left := pcSendMem.drop sstTotal
  { s with
    sock := update s.sock (!side) recver
    queued := update s.queued (!side) (s.queued (!side) ++ pcSendMem.take sstTotal)
    calls := update s.calls i
      (if left = [] ∨ failed ∨ (s.sock side).nonblock ∨ dontwait then .idle
      else .send side left dontwait) }

/-- A section of `unix_recvfrom2`. -/
def recvfrom2 (i : ℕ) (side : Bool) (len : ℕ) (flags : UnixFlags) : UnixPair β :=
  let q := (s.sock side).unixq
  if q.canRead flags len then
    let (data, q') := q.recvMore flags len len
    { s with
      sock := update s.sock side { s.sock side with unixq := q' }
      calls := update s.calls i .idle
      got :=
        if flags.peek then s.got else update s.got side (s.got side ++ data)
      peeked :=
        if flags.peek then s.peeked ++ [(data, q.unread, q'.unread)] else s.peeked }
  else if (s.sock side).nonblock ∨ flags.dontwait then
    { s with calls := update s.calls i .idle }
  else s

/-- One step. -/
def step : UnixEvent β → Option (UnixPair β)
  | .send i side data dontwait =>
    match s.calls i with
    | .idle =>
      if data = [] then none
      else some { s with calls := update s.calls i (.send side data dontwait) }
    | _ => none
  | .recv i side len flags =>
    match s.calls i with
    | .idle =>
      if len = 0 ∨ (flags.peek ∧ flags.waitall) then none
      else some { s with calls := update s.calls i (.recv side len flags) }
    | _ => none
  | .locked i alloc =>
    match s.calls i with
    | .idle => none
    | .send side pcSendMem dontwait => some (s.sendto2 g i side pcSendMem dontwait alloc)
    | .recv side len flags => some (s.recvfrom2 i side len flags)
  | .timeout i => some { s with calls := update s.calls i .idle }
  | .setBufSize side stMaxBufSize =>
    some { s with sock := update s.sock side { s.sock side with stMaxBufSize } }

/-- Two sockets that have just been connected. -/
structure Init (s : UnixPair β) : Prop where
  unixq : ∀ side, (s.sock side).unixq = ⟨[], 0⟩
  calls : ∀ i, s.calls i = .idle
  queued : ∀ side, s.queued side = []
  got : ∀ side, s.got side = []
  peeked : s.peeked = []

/-- What was queued for a side has been received or can be read, in order, and is counted; a peek gets
the first bytes that can be read, and leaves them. -/
structure Safe (s : UnixPair β) : Prop where
  order : ∀ side, s.queued side = s.got side ++ (s.sock side).unixq.unread
  total : ∀ side, (s.sock side).unixq.stTotal = (s.sock side).unixq.unread.length
  peeked : ∀ p ∈ s.peeked, p.1 <+: p.2.1 ∧ p.2.2 = p.2.1

/-- No peek has room for more than the first message. -/
def StepOk (s : UnixPair β) : UnixEvent β → Prop
  | .locked i _ => ∀ side len flags, s.calls i = .recv side len flags → flags.peek = true →
      ∀ m ∈ (s.sock side).unixq.msgs.head?, len ≤ m.pcMsg.length - m.stOffset
  | _ => True

end UnixPair

/-! ## Messages and bytes -/

namespace UnixQueue

@[simp] theorem unread_nil (n : ℕ) : (UnixQueue.mk ([] : List (UnixMsg β)) n).unread = [] := rfl

theorem unread_cons (m : UnixMsg β) (msgs : List (UnixMsg β)) (n : ℕ) :
    (UnixQueue.mk (m :: msgs) n).unread = m.unread ++ (UnixQueue.mk msgs n).unread := rfl

/-- The counter is not looked at. -/
theorem unread_total (msgs : List (UnixMsg β)) (n n' : ℕ) :
    (UnixQueue.mk msgs n).unread = (UnixQueue.mk msgs n').unread := rfl

/-- The counter is right. -/
def Counted (q : UnixQueue β) : Prop := q.stTotal = q.unread.length

section Send
variable {g : UnixConf} {q : UnixQueue β} {pvMsg : List β} (h : pvMsg ≠ [])

@[simp] theorem sendtoMsg_unread :
    (q.sendtoMsg g pvMsg h).unread = q.unread ++ pvMsg.take g.pipeBuf := by
  simp [sendtoMsg, unread, UnixMsg.unread]

theorem Counted.sendtoMsg (hq : q.Counted) : (q.sendtoMsg g pvMsg h).Counted := by
  rw [Counted, sendtoMsg_unread, List.length_append, ← hq, List.length_take, Nat.min_comm]
  rfl

end Send

section Recv
variable {m : UnixMsg β} (msgs : List (UnixMsg β)) (n : ℕ) {len : ℕ}

/-- A message that is received to its end is taken out. -/
theorem recvfromMsg_all (h : m.unread.length ≤ len) :
    (UnixQueue.mk (m :: msgs) n).recvfromMsg len false =
      (m.unread, ⟨msgs, n - m.unread.length⟩) := by
  rw [UnixMsg.unread_length] at h
  simp [recvfromMsg, h, List.take_of_length_le]

/-- A message that there is no room for stays, without its first bytes. -/
theorem recvfromMsg_part (h : len < m.unread.length) :
    ∃ m', (UnixQueue.mk (m :: msgs) n).recvfromMsg len false =
      (m.unread.take len, ⟨m' :: msgs, n - len⟩) ∧ m'.unread = m.unread.drop len := by
  rw [UnixMsg.unread_length] at h
  have hlt : m.stOffset + len < m.pcMsg.length := by omega
  refine ⟨{ m with stOffset := m.stOffset + len, left := hlt }, ?_, ?_⟩
  · simp only [recvfromMsg, Bool.false_eq_true, if_false, dif_neg h.not_ge]
  · simp [UnixMsg.unread]

end Recv

/-- A receive gets the first bytes that can be read, as many as it has room for, and leaves the
others. -/
theorem recvMore_eq {flags : UnixFlags} (hpeek : flags.peek = false) {fuel : ℕ} :
    ∀ {q : UnixQueue β} {len : ℕ}, len ≤ fuel → q.Counted → q.msgs ≠ [] →
      (flags.waitall = true → len ≤ q.stTotal) →
      (q.recvMore flags fuel len).1 = q.unread.take len ∧
        (q.recvMore flags fuel len).2.unread = q.unread.drop len ∧
        (q.recvMore flags fuel len).2.Counted := by
  induction fuel with
  | zero =>
    intro q len hfuel hq _ _
    obtain rfl : len = 0 := by omega
    exact ⟨rfl, rfl, hq⟩
  | succ fuel ih =>
    rintro ⟨msgs, n⟩ len hfuel hq hne hwait
    cases msgs with
    | nil => exact absurd rfl hne
    | cons m msgs =>
      have hpos : 0 < m.unread.length := by
        have := m.left
        rw [UnixMsg.unread_length]
        omega
      simp only [Counted, unread_cons, List.length_append] at hq
      rcases Nat.lt_or_ge len m.unread.length with hlt | hge
      · -- The message has more bytes than there is room for.
        obtain ⟨m', hm, hm'⟩ := recvfromMsg_part msgs n hlt
        have hlen : (m.unread.take len).length = len := List.length_take_of_le hlt.le
        have hr : recvMore flags (fuel + 1) ⟨m :: msgs, n⟩ len =
            (m.unread.take len, ⟨m' :: msgs, n - len⟩) := by
          simp only [recvMore, hpeek, hm, hlen, Nat.lt_irrefl, false_and, if_false]
        refine ⟨?_, ?_, ?_⟩
        · rw [hr, unread_cons, List.take_append_of_le_length hlt.le]
        · rw [hr, unread_cons, unread_cons, List.drop_append_of_le_length hlt.le, hm']
          rfl
        · rw [hr, Counted, unread_cons, List.length_append, hm', List.length_drop]
          have := unread_total msgs n (n - len)
          rw [← this]
          dsimp only
          omega
      · have hm := recvfromMsg_all msgs n hge
        have hq' : (UnixQueue.mk msgs (n - m.unread.length)).Counted := by
          rw [Counted, unread_total msgs _ n]
          dsimp only
          omega
        by_cases hmore : m.unread.length < len ∧ (flags.waitall = true ∨ msgs ≠ [])
        · -- There is room for more, and there is more to receive.
          have hne' : msgs ≠ [] := by
            rintro rfl
            have hw := hwait (hmore.2.resolve_right (by simp))
            simp only [unread_nil, List.length_nil] at hq
            dsimp only at hw
            omega
          have hlen : len - m.unread.length ≤ fuel := by omega
          have ⟨h₁, h₂, h₃⟩ := ih hlen hq' hne' (fun hw => Nat.sub_le_sub_right (hwait hw) _)
          have hr : recvMore flags (fuel + 1) ⟨m :: msgs, n⟩ len =
              (m.unread ++ (recvMore flags fuel ⟨msgs, n - m.unread.length⟩
                (len - m.unread.length)).1,
                (recvMore flags fuel ⟨msgs, n - m.unread.length⟩ (len - m.unread.length)).2) := by
            simp only [recvMore, hpeek, hm, if_pos hmore]
          refine ⟨?_, ?_, ?_⟩
          · rw [hr, unread_cons, List.take_append, List.take_of_length_le hge, h₁]
            rfl
          · rw [hr, unread_cons, List.drop_append, List.drop_of_length_le hge, h₂]
            rfl
          · rw [hr]
            exact h₃
        · have hr : recvMore flags (fuel + 1) ⟨m :: msgs, n⟩ len =
              (m.unread, ⟨msgs, n - m.unread.length⟩) := by
            simp only [recvMore, hpeek, hm, if_neg hmore]
          have hend : len = m.unread.length ∨ msgs = [] := by
            by_contra hc
            rw [not_or] at hc
            exact hmore ⟨by omega, .inr hc.2⟩
          refine ⟨?_, ?_, hr ▸ hq'⟩
          · rw [hr, unread_cons]
            rcases hend with rfl | rfl
            · rw [List.take_append_of_le_length le_rfl, List.take_length]
            · rw [unread_nil, List.append_nil, List.take_of_length_le hge]
          · rw [hr, unread_cons]
            rcases hend with rfl | rfl
            · rw [List.drop_append_of_le_length le_rfl, List.drop_length]
              rfl
            · rw [unread_nil, unread_nil, List.append_nil, List.drop_of_length_le hge]

/-- A peek into the first message gets the first bytes that can be read, and leaves them. -/
theorem recvMore_peek {flags : UnixFlags} (hpeek : flags.peek = true) (fuel : ℕ)
    {len : ℕ} {q : UnixQueue β} (hne : q.msgs ≠ [])
    (hlen : ∀ m ∈ q.msgs.head?, len ≤ m.pcMsg.length - m.stOffset) :
    (q.recvMore flags fuel len).1 <+: q.unread ∧ (q.recvMore flags fuel len).2 = q := by
  cases fuel with
  | zero => exact ⟨List.nil_prefix, rfl⟩
  | succ fuel =>
    obtain ⟨msgs, n⟩ := q
    cases msgs with
    | nil => exact absurd rfl hne
    | cons m msgs =>
      have hle : len ≤ m.unread.length := by
        rw [UnixMsg.unread_length]
        exact hlen m rfl
      have hr : recvMore flags (fuel + 1) ⟨m :: msgs, n⟩ len =
          (m.unread.take len, ⟨m :: msgs, n⟩) := by
        simp [recvMore, hpeek, recvfromMsg, List.length_take_of_le hle]
      rw [hr]
      exact ⟨(List.take_prefix ..).trans (List.prefix_append ..), rfl⟩

end UnixQueue

namespace UnixSock
variable {g : UnixConf} {alloc : ℕ → Bool} {fuel : ℕ} {r : UnixSock β} {data : List β}

/-- What is sent goes behind what can be read. -/
theorem trySend_unread :
    (r.trySend g alloc fuel data).2.2.unixq.unread =
      r.unixq.unread ++ data.take (r.trySend g alloc fuel data).1 := by
  induction fuel generalizing r data with
  | zero => simp [trySend]
  | succ fuel ih =>
    unfold trySend
    split_ifs with h hw ha
    · dsimp only
      rw [ih, UnixQueue.sendtoMsg_unread, List.append_assoc, List.take_add, Nat.min_comm]
      congr 2
      rw [List.take_eq_take_min]
    all_goals simp

theorem trySend_counted (hr : r.unixq.Counted) :
    (r.trySend g alloc fuel data).2.2.unixq.Counted := by
  induction fuel generalizing r data with
  | zero => exact hr
  | succ fuel ih =>
    unfold trySend
    split_ifs with h hw ha
    · exact ih (hr.sendtoMsg h)
    all_goals exact hr

end UnixSock

/-! ## Runs -/

namespace UnixPair
variable {g : UnixConf} {s s' : UnixPair β}

theorem Init.safe (h : s.Init) : s.Safe where
  order side := by rw [h.queued, h.got, h.unixq]; rfl
  total side := by rw [h.unixq]; rfl
  peeked p hp := by simp [h.peeked] at hp

/-- What the queue of a side was, when nothing else of the pair is looked at. -/
theorem Safe.congr (hs : s.Safe) (hsock : ∀ side, (s'.sock side).unixq = (s.sock side).unixq)
    (hqueued : s'.queued = s.queued) (hgot : s'.got = s.got) (hpeeked : s'.peeked = s.peeked) :
    s'.Safe where
  order side := by rw [hqueued, hgot, hsock]; exact hs.order side
  total side := by rw [hsock]; exact hs.total side
  peeked := by rw [hpeeked]; exact hs.peeked

theorem Safe.sendto2 (hs : s.Safe) (i : ℕ) (side : Bool) (pcSendMem : List β) (dontwait : Bool)
    (alloc : ℕ → Bool) : (s.sendto2 g i side pcSendMem dontwait alloc).Safe where
  order side' := by
    by_cases h : side' = !side
    · subst h
      simp [UnixPair.sendto2, UnixSock.trySend_unread, hs.order]
    · simp only [UnixPair.sendto2, update_of_ne h]
      exact hs.order side'
  total side' := by
    by_cases h : side' = !side
    · subst h
      simp only [UnixPair.sendto2, update_self]
      exact UnixSock.trySend_counted (hs.total _)
    · simp only [UnixPair.sendto2, update_of_ne h]
      exact hs.total side'
  peeked := hs.peeked

/-- What a section of `unix_recvfrom2` that cannot receive does. -/
theorem Safe.recvfrom2_wait {i : ℕ} {side : Bool} {len : ℕ} {flags : UnixFlags} (hs : s.Safe)
    (hcan : (s.sock side).unixq.canRead flags len = false) :
    (s.recvfrom2 i side len flags).Safe := by
  simp only [UnixPair.recvfrom2, hcan, Bool.false_eq_true, if_false]
  split_ifs with hnb
  · exact hs.congr (fun _ => rfl) rfl rfl rfl
  · exact hs

theorem Safe.recvfrom2_peek {i : ℕ} {side : Bool} {len : ℕ} {flags : UnixFlags} (hs : s.Safe)
    (hcan : (s.sock side).unixq.canRead flags len = true) (hpeek : flags.peek = true)
    (hq : ((s.sock side).unixq.recvMore flags len len).2 = (s.sock side).unixq)
    (hpre : ((s.sock side).unixq.recvMore flags len len).1 <+: (s.sock side).unixq.unread) :
    (s.recvfrom2 i side len flags).Safe := by
  simp only [UnixPair.recvfrom2, hcan, hpeek, hq, if_true]
  refine ⟨fun side' => ?_, fun side' => ?_, ?_⟩
  · rw [update_eq_self]
    exact hs.order side'
  · rw [update_eq_self]
    exact hs.total side'
  · intro p hp
    rw [List.mem_append, List.mem_singleton] at hp
    rcases hp with hp | rfl
    · exact hs.peeked p hp
    · exact ⟨hpre, rfl⟩

theorem Safe.recvfrom2_take {i : ℕ} {side : Bool} {len : ℕ} {flags : UnixFlags} (hs : s.Safe)
    (hcan : (s.sock side).unixq.canRead flags len = true) (hpeek : flags.peek = false)
    (hq : (s.sock side).unixq.unread = ((s.sock side).unixq.recvMore flags len len).1 ++
      ((s.sock side).unixq.recvMore flags len len).2.unread)
    (hcount : ((s.sock side).unixq.recvMore flags len len).2.Counted) :
    (s.recvfrom2 i side len flags).Safe := by
  simp only [UnixPair.recvfrom2, hcan, hpeek, Bool.false_eq_true, if_true, if_false]
  refine ⟨fun side' => ?_, fun side' => ?_, hs.peeked⟩
  · by_cases h : side' = side
    · subst h
      simp only [update_self]
      rw [List.append_assoc, ← hq]
      exact hs.order side'
    · simp only [update_of_ne h]
      exact hs.order side'
  · by_cases h : side' = side
    · subst h
      simp only [update_self]
      exact hcount
    · simp only [update_of_ne h]
      exact hs.total side'

theorem Safe.recvfrom2 (hs : s.Safe) (i : ℕ) (side : Bool) (len : ℕ) (flags : UnixFlags)
    (hok : flags.peek = true → ∀ m ∈ (s.sock side).unixq.msgs.head?,
      len ≤ m.pcMsg.length - m.stOffset) : (s.recvfrom2 i side len flags).Safe := by
  cases hcan : (s.sock side).unixq.canRead flags len with
  | false => exact hs.recvfrom2_wait hcan
  | true =>
    have hne : (s.sock side).unixq.msgs ≠ [] := by
      rintro h
      simp [UnixQueue.canRead, h] at hcan
    have hwait : flags.waitall = true → len ≤ (s.sock side).unixq.stTotal := by
      intro h
      simpa [UnixQueue.canRead, h, hne] using hcan
    cases hpeek : flags.peek with
    | true =>
      have ⟨hpre, hq⟩ := UnixQueue.recvMore_peek hpeek len hne (hok hpeek)
      exact hs.recvfrom2_peek hcan hpeek hq hpre
    | false =>
      have ⟨hdata, hq, hcount⟩ := UnixQueue.recvMore_eq hpeek (Nat.le_refl len)
        (hs.total side) hne hwait
      refine hs.recvfrom2_take hcan hpeek ?_ hcount
      rw [hdata, hq, List.take_append_drop]

theorem Safe.step {e : UnixEvent β} (hs : s.Safe) (hok : s.StepOk e)
    (h : s.step g e = some s') : s'.Safe := by
  cases e with
  | send i side data dontwait =>
    simp only [UnixPair.step] at h
    split at h
    · split_ifs at h with hne
      cases h
      exact hs.congr (fun _ => rfl) rfl rfl rfl
    · cases h
  | recv i side len flags =>
    simp only [UnixPair.step] at h
    split at h
    · split_ifs at h with hne
      cases h
      exact hs.congr (fun _ => rfl) rfl rfl rfl
    · cases h
  | locked i alloc =>
    simp only [UnixPair.step] at h
    split at h
    · cases h
    · cases h
      exact hs.sendto2 ..
    · rename_i hc
      cases h
      exact hs.recvfrom2 _ _ _ _ (hok _ _ _ hc)
  | timeout i =>
    cases h
    exact hs.congr (fun _ => rfl) rfl rfl rfl
  | setBufSize side size =>
    cases h
    refine hs.congr (fun side' => ?_) rfl rfl rfl
    by_cases hside : side' = side
    · subst hside
      simp
    · simp [update_of_ne hside]

/-- In a run in which no peek has room for more than the first message, all that is queued is received
once and in order, a peek gets the first bytes that can be read and leaves them, and the counter is
right. -/
theorem unixStream_safe (h : Reach (fun s : UnixPair β => s.step g) StepOk Init s) : s.Safe :=
  h.invariant (fun _ => Init.safe) fun _ _ _ hs hok hstep => hs.step hok hstep

/-- Two sockets with room for four bytes. -/
def connected (β : Type*) : UnixPair β where
  sock _ := ⟨⟨[], 0⟩, 4, false⟩
  calls _ := .idle
  queued _ := []
  got _ := []
  peeked := []

theorem connected_init : (connected β).Init := by
  constructor <;> intros <;> rfl

/-- Messages of up to two bytes. -/
def twoBytes : UnixConf := ⟨2, Nat.two_pos⟩

/-- Three bytes are sent as two messages, the first byte is peeked at, and all are received. -/
theorem unixStream_safe_three : ∃ s : UnixPair ℕ, s.got false = [1, 2, 3] ∧
    s.peeked = [([1], [1, 2, 3], [1, 2, 3])] ∧ s.Safe := by
  have h : Reach (fun s : UnixPair ℕ => s.step twoBytes) StepOk Init _ :=
    ((((((Reach.start connected_init).extend (.send 0 true [1, 2, 3] false) trivial rfl).extend
      (.locked 0 fun _ => true) (by rintro _ _ _ ⟨⟩) rfl).extend
      (.recv 1 false 1 ⟨true, false, false⟩) trivial rfl).extend
      (.locked 1 fun _ => true) (by rintro _ _ _ ⟨⟩ _ _ ⟨⟩; decide) rfl).extend
      (.recv 1 false 3 ⟨false, true, false⟩) trivial rfl).extend
      (.locked 1 fun _ => true) (by rintro _ _ _ ⟨⟩ ⟨⟩) rfl
  exact ⟨_, rfl, rfl, unixStream_safe h⟩

/-- A peek with room for more than the only message gets its bytes twice. -/
theorem unixStream_peek_twice : ∃ s : UnixPair ℕ,
    Reach (fun s : UnixPair ℕ => s.step twoBytes) (fun _ _ => True) Init s ∧
    s.peeked = [([1, 2, 1, 2], [1, 2], [1, 2])] ∧ ¬ s.Safe := by
  have hruns : runs (fun s : UnixPair ℕ => s.step twoBytes) (connected ℕ)
      [.send 0 true [1, 2] false, .locked 0 fun _ => true, .recv 1 false 4 ⟨true, false, false⟩,
        .locked 1 fun _ => true] = some _ := rfl
  refine ⟨_, (Reach.start connected_init).of_runs hruns, rfl, fun hs => ?_⟩
  have := (hs.peeked _ (List.mem_singleton.mpr rfl)).1.length_le
  exact absurd this (by decide)

end UnixPair

end SylixOS.Net
