import Mathlib.Data.Int.Notation
import Mathlib.Data.List.Nodup
import Mathlib.Logic.Function.Basic
import SylixOS.Lib.Reach

/-! # Connections of local sockets

A socket that listens keeps the sockets that ask for a connection on a ring. `unix_accept` takes the first
one of them and connects it to a socket of its own, for which it leaves the lock and comes back. A thread
that waits on a semaphore may go on at any time.
-/

namespace SylixOS.Net
open Lib

inductive UnixType where
  | stream
  | seqpacket
  deriving DecidableEq

/-- `__AF_UNIX_STATUS_*`. -/
inductive UnixStatus where
  | none
  | listen
  | connect
  | estab
  deriving DecidableEq

/-- What connecting needs of `AF_UNIX_T`, with the ring from its first entry on, and no name for an empty
`UNIX_cFile`. -/
structure AfUnix (ν : Type*) where
  iType : UnixType
  iStatus : UnixStatus
  pafunxPeer : Option ℕ
  pringConnect : List ℕ
  iConnNum : ℤ
  iBacklog : ℤ
  nonblock : Bool
  cFile : Option ν

/-- Where a thread is in a call. -/
inductive ConnCall (ν : Type*) where
  | idle
  /-- The status has been looked at, the lock is next. -/
  | listen (x : ℕ) (backlog : ℤ)
  | connect (x : ℕ) (cPath : ν)
  /-- The request is on the ring. -/
  | connWait (x : ℕ)
  /-- The lock is next, before the ring is looked at. -/
  | accept (x : ℕ)
  /-- There is somebody on the ring, and the lock has been left. -/
  | acceptCreate (x : ℕ)
  | acceptTake (x pafunixNew : ℕ)
  /-- The ring was empty in the end. -/
  | acceptDelete (x pafunixNew : ℕ)
  /-- There was no memory for a socket. -/
  | acceptRefuse (x : ℕ)
  | close (x : ℕ)
  /-- `__unixDelete` is next. -/
  | closeDelete (x : ℕ)

/-- The control blocks, those that are linked in `_G_plineAfUnix`, those that have a descriptor, and the
threads. -/
structure UnixHost (ν : Type*) where
  block : ℕ → AfUnix ν
  plineAfUnix : List ℕ
  fd : ℕ → Bool
  calls : ℕ → ConnCall ν

inductive ConnEvent (ν : Type*) where
  | socket (x : ℕ) (iType : UnixType)
  | bind (x : ℕ) (cPath : ν)
  | nonblock (x : ℕ) (on : Bool)
  | socketpair (x y : ℕ)
  | listen (i x : ℕ) (backlog : ℤ)
  | connect (i x : ℕ) (cPath : ν)
  | accept (i x : ℕ)
  | close (i x : ℕ)
  /-- The next section of thread `i`; the argument is where a new control block is, if there is memory. -/
  | locked (i : ℕ) (memory : Option ℕ)

variable {ν : Type*}

namespace ConnCall

/-- The socket is one of those that the call works on. -/
def Uses (x : ℕ) : ConnCall ν → Prop
  | idle => False
  | listen y _ | connect y _ | connWait y | accept y | acceptCreate y | acceptRefuse y | close y
  | closeDelete y => y = x
  | acceptTake y new | acceptDelete y new => y = x ∨ new = x

end ConnCall

namespace AfUnix

/-- `__unixCreate`. -/
def create (iType : UnixType) : AfUnix ν where
  iType
  iStatus := .none
  pafunxPeer := none
  pringConnect := []
  iConnNum := 0
  iBacklog := 1
  nonblock := false
  cFile := none

variable (m : ℕ → AfUnix ν)

/-- `__unixConnect`. -/
def connect (x acce : ℕ) : ℕ → AfUnix ν :=
  let m := Function.update m x { m x with iStatus := .connect, pafunxPeer := some acce }
  Function.update m acce
    { m acce with pringConnect := (m acce).pringConnect ++ [x], iConnNum := (m acce).iConnNum + 1 }

/-- `__unixUnconnect`. -/
def unconnect (conn : ℕ) : ℕ → AfUnix ν :=
  let peer := (m conn).pafunxPeer
  let m := Function.update m conn { m conn with iStatus := .none }
  match peer with
  | none => m
  | some acce =>
    let m := Function.update m acce
      { m acce with pringConnect := (m acce).pringConnect.erase conn
                    iConnNum := (m acce).iConnNum - 1 }
    Function.update m conn { m conn with pafunxPeer := none }

/-- `__unixAccept`, and what `unix_accept` does with the socket it gets. -/
def accept (x pafunixNew conn : ℕ) : ℕ → AfUnix ν :=
  let m := Function.update m x
    { m x with pringConnect := (m x).pringConnect.erase conn, iConnNum := (m x).iConnNum - 1 }
  let m := Function.update m conn { m conn with iStatus := .estab, pafunxPeer := some pafunixNew }
  Function.update m pafunixNew
    { m pafunixNew with iStatus := .estab, pafunxPeer := some conn, cFile := (m x).cFile }

/-- A request is refused. -/
def refuse (conn : ℕ) : ℕ → AfUnix ν :=
  Function.update m conn { m conn with iStatus := .none, pafunxPeer := none }

/-- `__unixRefuseAll`. -/
def refuseAll (x : ℕ) : ℕ → AfUnix ν :=
  let m := (m x).pringConnect.foldl refuse m
  Function.update m x { m x with pringConnect := [], iConnNum := 0 }

/-- The last part of the first section of `unix_close`. -/
def disconnect (x : ℕ) : ℕ → AfUnix ν :=
  let m := match (m x).pafunxPeer with
    | none => m
    | some peer => Function.update m peer { m peer with pafunxPeer := none }
  Function.update m x { m x with iStatus := .none, pafunxPeer := none }

/-- The first section of `unix_close`. -/
def close (x : ℕ) : ℕ → AfUnix ν :=
  match (m x).iStatus with
  | .connect => disconnect (unconnect m x) x
  | .listen => disconnect (refuseAll m x) x
  | _ => disconnect m x

/-- `unix_connect2`. -/
def connect2 (x y : ℕ) : ℕ → AfUnix ν :=
  let m := Function.update m x { m x with iStatus := .estab, pafunxPeer := some y }
  Function.update m y { m y with iStatus := .estab, pafunxPeer := some x }

/-- A socket is on a ring if its status is `CONNECT` and the ring is its peer's, who listens; the counters
are the lengths of the rings; connected sockets are each other's peers, or have none; no peer has been
deleted. -/
structure Linked (live : List ℕ) (m : ℕ → AfUnix ν) : Prop where
  ring : ∀ l ∈ live, ∀ c, c ∈ (m l).pringConnect ↔
    c ∈ live ∧ (m c).iStatus = .connect ∧ (m c).pafunxPeer = some l
  connect : ∀ c ∈ live, (m c).iStatus = .connect →
    ∃ l ∈ live, (m c).pafunxPeer = some l ∧ (m l).iStatus = .listen
  nodup : ∀ l ∈ live, (m l).pringConnect.Nodup
  connNum : ∀ l ∈ live, (m l).iConnNum = (m l).pringConnect.length
  estab : ∀ c ∈ live, ∀ d, (m c).iStatus = .estab → (m c).pafunxPeer = some d →
    (m d).iStatus = .estab ∧ (m d).pafunxPeer = some c
  peer : ∀ c ∈ live, ∀ d, (m c).pafunxPeer = some d →
    d ∈ live ∧ ((m c).iStatus = .connect ∨ (m c).iStatus = .estab)

end AfUnix

namespace UnixHost
variable (s : UnixHost ν)

/-- `__unixFind` for a socket that listens. -/
def find [DecidableEq ν] (cPath : ν) (iType : UnixType) : Option ℕ :=
  s.plineAfUnix.find? fun y =>
    (s.block y).iType = iType ∧ (s.block y).cFile = some cPath ∧ (s.block y).iStatus = .listen

/-- `__unixDelete`. -/
def delete (x : ℕ) : UnixHost ν where
  block y :=
    if y ∈ s.plineAfUnix ∧ (s.block y).pafunxPeer = some x then { s.block y with pafunxPeer := none }
    else s.block y
  plineAfUnix := s.plineAfUnix.filter (· ≠ x)
  fd := s.fd
  calls := s.calls

/-- A thread comes to another place. -/
def goto (i : ℕ) (c : ConnCall ν) : UnixHost ν := { s with calls := Function.update s.calls i c }

/-- The rest of a round of `unix_accept` that has found nobody. -/
def acceptAgain (i x : ℕ) : UnixHost ν :=
  s.goto i (if (s.block x).nonblock then .idle else .accept x)

/-- The next section of a thread. -/
def locked [DecidableEq ν] (i : ℕ) (memory : Option ℕ) : Option (UnixHost ν) :=
  match s.calls i with
  | .idle => none
  | .listen x backlog =>
    if (s.block x).cFile = none then some (s.goto i .idle)
    else
      let b := { s.block x with iBacklog := if backlog < 0 then 1 else backlog, iStatus := .listen }
      some { s.goto i .idle with block := Function.update s.block x b }
  | .connect x cPath =>
    if (s.block x).iStatus ≠ .none then some (s.goto i .idle)
    else
      match s.find cPath (s.block x).iType with
      | none => some (s.goto i .idle)
      | some acce =>
        if (s.block acce).iStatus ≠ .listen ∨ (s.block acce).iBacklog < (s.block acce).iConnNum then
          some (s.goto i .idle)
        else
          some { s.goto i (if (s.block x).nonblock then .idle else .connWait x) with
            block := AfUnix.connect s.block x acce }
  | .connWait x =>
    if (s.block x).iStatus = .connect then
      some { s.goto i .idle with block := AfUnix.unconnect s.block x }
    else some (s.goto i .idle)
  | .accept x =>
    if (s.block x).pringConnect ≠ [] then some (s.goto i (.acceptCreate x))
    else some (s.acceptAgain i x)
  | .acceptCreate x =>
    match memory with
    | none => some (s.goto i (.acceptRefuse x))
    | some new =>
      if new ∈ s.plineAfUnix then none
      else
        some { s.goto i (.acceptTake x new) with
          block := Function.update s.block new (.create (s.block x).iType)
          plineAfUnix := new :: s.plineAfUnix }
  | .acceptTake x new =>
    match (s.block x).pringConnect with
    | [] => some (s.goto i (.acceptDelete x new))
    | conn :: _ =>
      some { s.goto i .idle with
        block := AfUnix.accept s.block x new conn
        fd := Function.update s.fd new true }
  | .acceptDelete x new => some ((s.delete new).acceptAgain i x)
  | .acceptRefuse x => some { s.goto i .idle with block := AfUnix.refuseAll s.block x }
  | .close x => some { s.goto i (.closeDelete x) with block := AfUnix.close s.block x }
  | .closeDelete x => some ((s.delete x).goto i .idle)

/-- A thread that is in no call makes one on a socket it has a descriptor for. -/
def call (i x : ℕ) (c : ConnCall ν) : Option (UnixHost ν) :=
  match s.calls i with
  | .idle => if s.fd x then some (s.goto i c) else none
  | _ => none

/-- One step. -/
def step [DecidableEq ν] : ConnEvent ν → Option (UnixHost ν)
  | .socket x iType =>
    if x ∈ s.plineAfUnix then none
    else
      some { s with
        block := Function.update s.block x (.create iType)
        plineAfUnix := x :: s.plineAfUnix
        fd := Function.update s.fd x true }
  | .bind x cPath =>
    if s.fd x then
      match s.find cPath (s.block x).iType with
      | none => some { s with block := Function.update s.block x { s.block x with cFile := some cPath } }
      | some _ => some s
    else none
  | .nonblock x on =>
    if s.fd x then some { s with block := Function.update s.block x { s.block x with nonblock := on } }
    else none
  | .socketpair x y =>
    if s.fd x ∧ s.fd y ∧ x ≠ y then some { s with block := AfUnix.connect2 s.block x y } else none
  | .listen i x backlog =>
    s.call i x (if (s.block x).iStatus = .none then .listen x backlog else .idle)
  | .connect i x cPath => s.call i x (.connect x cPath)
  | .accept i x => s.call i x (if (s.block x).iStatus = .listen then .accept x else .idle)
  | .close i x => (s.call i x (.close x)).map fun s => { s with fd := Function.update s.fd x false }
  | .locked i memory => s.locked i memory

/-- No sockets. -/
structure Init (s : UnixHost ν) : Prop where
  plineAfUnix : s.plineAfUnix = []
  fd : ∀ x, s.fd x = false
  calls : ∀ i, s.calls i = .idle

/-- `unix_listen` finds the status that it had looked at before it took the lock, no socket is closed that
another thread is in a call on, and `socketpair` connects two sockets that nothing has been done with. -/
def StepOk (s : UnixHost ν) : ConnEvent ν → Prop
  | .close _ x => ∀ j, ¬ (s.calls j).Uses x
  | .locked i _ => ∀ x backlog, s.calls i = .listen x backlog → (s.block x).iStatus = .none
  | .socketpair x y => (s.block x).iStatus = .none ∧ (s.block y).iStatus = .none
  | _ => True

end UnixHost
end SylixOS.Net
