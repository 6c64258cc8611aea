import SylixOS.Net.UnixConnect

/-! # Addresses of local sockets

`unix_bind` refuses a path that another socket of the type has. Among the sockets that connect it looks
only for one that listens, because a socket that `unix_accept` has created has the path of the one that
listens. For datagrams there is no such socket, and it looks for any one that has the path.
-/

namespace SylixOS.Net
open Lib

variable {ν : Type*}

namespace UnixHost
variable (s : UnixHost ν)

/-- The locked section of `unix_bind`, and whether it succeeds; otherwise the error is `EADDRINUSE`. -/
def bind [DecidableEq ν] (x : ℕ) (cPath : ν) : UnixHost ν × Bool :=
  match s.find cPath (s.block x).iType with
  | none =>
    ({ s with block := Function.update s.block x { s.block x with cFile := some cPath } }, true)
  | some _ => (s, false)

theorem step_bind [DecidableEq ν] (x : ℕ) (cPath : ν) :
    s.step (.bind x cPath) = if s.fd x then some (s.bind x cPath).1 else none := by
  simp only [step, bind]
  cases s.find cPath (s.block x).iType <;> rfl

/-- The locked section of `unix_close` that takes a socket out of its connection is still to come. -/
def Open (x : ℕ) : Prop := s.fd x = true ∨ ∃ i, s.calls i = .close x

/-- The socket listens on a path. -/
def Listens (x : ℕ) (iType : UnixType) (cPath : ν) : Prop :=
  x ∈ s.plineAfUnix ∧ (s.block x).iType = iType ∧ (s.block x).cFile = some cPath ∧
    (s.block x).iStatus = .listen

end UnixHost

/-! ## Datagram sockets

`__unixFind` compares the type, so that these sockets and the others do not meet.
-/

/-- What addresses need of an `AF_UNIX_T` of type `SOCK_DGRAM`. -/
structure DgramSock (ν : Type*) where
  cFile : Option ν
  pafunxPeer : Option ℕ

/-- The control blocks, those that are linked in `_G_plineAfUnix`, and those that have a descriptor. -/
structure DgramHost (ν : Type*) where
  block : ℕ → DgramSock ν
  plineAfUnix : List ℕ
  fd : ℕ → Bool

inductive DgramEvent (ν : Type*) where
  | socket (x : ℕ)
  | bind (x : ℕ) (cPath : ν)
  /-- `EOPNOTSUPP`. -/
  | listen (x : ℕ)
  /-- `EOPNOTSUPP`. -/
  | accept (x : ℕ)
  | connect (x : ℕ) (cPath : ν)
  | socketpair (x y : ℕ)
  | close (x : ℕ)
  /-- `__unixDelete`, the last part of `unix_close`. -/
  | closeDelete (x : ℕ)

namespace DgramHost
variable (s : DgramHost ν)

/-- `__unixFind` for this type. -/
def find [DecidableEq ν] (cPath : ν) : Option ℕ :=
  s.plineAfUnix.find? fun y => (s.block y).cFile = some cPath

/-- The locked section of `unix_bind`, and whether it succeeds; otherwise the error is `EADDRINUSE`. -/
def bind [DecidableEq ν] (x : ℕ) (cPath : ν) : DgramHost ν × Bool :=
  match s.find cPath with
  | none =>
    ({ s with block := Function.update s.block x { s.block x with cFile := some cPath } }, true)
  | some _ => (s, false)

/-- `unix_connect`. -/
def connect [DecidableEq ν] (x : ℕ) (cPath : ν) : DgramHost ν :=
  match s.find cPath with
  | none => s
  | some acce =>
    { s with block := Function.update s.block x { s.block x with pafunxPeer := some acce } }

/-- `unix_connect2`. -/
def connect2 (x y : ℕ) : DgramHost ν :=
  let block := Function.update s.block x { s.block x with pafunxPeer := some y }
  { s with block := Function.update block y { block y with pafunxPeer := some x } }

/-- `__unixDelete`. -/
def delete (x : ℕ) : DgramHost ν where
  block y :=
    if y ∈ s.plineAfUnix ∧ (s.block y).pafunxPeer = some x then { s.block y with pafunxPeer := none }
    else s.block y
  plineAfUnix := s.plineAfUnix.filter (· ≠ x)
  fd := s.fd

/-- The socket that `unix_sendto2` sends to. -/
def receiver [DecidableEq ν] (x : ℕ) : Option ν → Option ℕ
  | some cPath => s.find cPath
  | none => (s.block x).pafunxPeer

/-- One step. -/
def step [DecidableEq ν] : DgramEvent ν → Option (DgramHost ν)
  | .socket x =>
    if x ∈ s.plineAfUnix then none
    else
      some {
        block := Function.update s.block x { cFile := none, pafunxPeer := none }
        plineAfUnix := x :: s.plineAfUnix
        fd := Function.update s.fd x true }
  | .bind x cPath => if s.fd x then some (s.bind x cPath).1 else none
  | .listen x | .accept x => if s.fd x then some s else none
  | .connect x cPath => if s.fd x then some (s.connect x cPath) else none
  | .socketpair x y => if s.fd x ∧ s.fd y then some (s.connect2 x y) else none
  | .close x => if s.fd x then some { s with fd := Function.update s.fd x false } else none
  | .closeDelete x => if x ∈ s.plineAfUnix ∧ s.fd x = false then some (s.delete x) else none

/-- The socket has the path. -/
def Bound (x : ℕ) (cPath : ν) : Prop := x ∈ s.plineAfUnix ∧ (s.block x).cFile = some cPath

end DgramHost

/-! ## All sockets -/

/-- The sockets, and which of those that connect have been created by `unix_accept`. -/
structure AddrHost (ν : Type*) where
  host : UnixHost ν
  accepted : ℕ → Bool
  dgram : DgramHost ν

inductive AddrEvent (ν : Type*) where
  | conn (e : ConnEvent ν)
  | dgram (e : DgramEvent ν)

namespace AddrHost
variable (s : AddrHost ν)

/-- Which sockets have been created by `unix_accept` after a step. -/
def created : ConnEvent ν → ℕ → Bool
  | .socket x _ => Function.update s.accepted x false
  | .locked i (some new) =>
    match s.host.calls i with
    | .acceptCreate _ => Function.update s.accepted new true
    | _ => s.accepted
  | _ => s.accepted

/-- One step. -/
def step [DecidableEq ν] : AddrEvent ν → Option (AddrHost ν)
  | .conn e => (s.host.step e).map fun host => { s with host, accepted := s.created e }
  | .dgram e => (s.dgram.step e).map fun dgram => { s with dgram }

/-- No sockets. -/
structure Init (s : AddrHost ν) : Prop where
  host : s.host.Init
  plineAfUnix : s.dgram.plineAfUnix = []
  fd : ∀ x, s.dgram.fd x = false

/-- An open socket that `unix_accept` has not created has the path. -/
def Bound (x : ℕ) (iType : UnixType) (cPath : ν) : Prop :=
  s.host.Open x ∧ s.accepted x = false ∧ (s.host.block x).iType = iType ∧
    (s.host.block x).cFile = some cPath

/-- A socket is bound to a path only where every other socket that is bound to it listens, no socket is
closed that another thread is in a call on, and none is deleted that is on a ring. -/
def StepOk : AddrEvent ν → Prop
  | .conn (.bind x cPath) =>
    ∀ y, y ≠ x → s.Bound y (s.host.block x).iType cPath → (s.host.block y).iStatus = .listen
  | .conn (.close _ x) => ∀ j, ¬ (s.host.calls j).Uses x
  | .conn (.locked i _) =>
    ∀ x, s.host.calls i = .closeDelete x → ∀ l ∈ s.host.plineAfUnix, x ∉ (s.host.block l).pringConnect
  | _ => True

/-- A path leads to at most one socket of a type, and a connection or a datagram goes to this one. -/
structure Addressed [DecidableEq ν] (s : AddrHost ν) : Prop where
  bound : ∀ x y t p, s.Bound x t p → s.Bound y t p → x = y
  listens : ∀ x t p, s.host.Listens x t p → s.Bound x t p
  listen : ∀ x y t p, s.host.Listens x t p → s.host.Listens y t p → x = y
  connect : ∀ x t p, s.host.find p t = some x ↔ s.host.Listens x t p
  dgram : ∀ x y p, s.dgram.Bound x p → s.dgram.Bound y p → x = y
  bindDgram : ∀ x y p, y ≠ x → s.dgram.Bound y p → s.dgram.bind x p = (s.dgram, false)
  sendto : ∀ x y p, s.dgram.receiver x (some p) = some y ↔ s.dgram.Bound y p

end AddrHost
end SylixOS.Net
