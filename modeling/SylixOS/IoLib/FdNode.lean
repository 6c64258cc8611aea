import SylixOS.IoLib.FdLockf

/-! # The requests on a file node

`__fdLockfAdvLock` runs its work on the list inside `FDNODE_ulSem`. A request that is blocked and
may wait leaves the section, pends on the semaphore of its own node and enters a section again when
it has been posted. A thread can be deleted on the way, and the last close of the file deletes all
entries and the file node.
-/

namespace SylixOS.IoLib

/-- `l_whence`. -/
inductive Whence where
  | set | cur | end_ | other
  deriving DecidableEq, Repr

/-- `struct flock`. -/
structure Flock where
  l_type : LockType
  l_whence : Whence
  l_start : ℤ
  l_len : ℤ
  l_pid : ℤ
  deriving DecidableEq, Repr

inductive Errno where
  | inval | nolck | again | deadlk | badf | deleted
  deriving DecidableEq, Repr

/-- How a section of a request ends. -/
inductive Res where
  | ok
  | waits
  | error (e : Errno)
  deriving DecidableEq, Repr

/-- The operations of `__fdLockfAdvLock`, `F_SETLK`, `F_UNLCK` and `F_GETLK`. -/
inductive LockOp where
  | setlk | unlck | getlk
  deriving DecidableEq, Repr

/-- Where a thread stands whose request has waited. -/
inductive Phase where
  /-- in the pend on its own semaphore, with its cleanup information set -/
  | waiting
  /-- after the pend, outside of the section, with no cleanup information -/
  | resumed (err : Bool)
  /-- the thread was deleted after its pend, and nobody knows its nodes -/
  | lost
  deriving DecidableEq, Repr

/-- A request that has not returned: its node and its spare, and `FDLOCK_pfdlockNext` of the node,
which points to the entry that blocks it. -/
structure Call where
  lock : FdLockf
  spare : Option ℕ
  blocker : Option ℕ
  posted : Bool
  phase : Phase
  deriving DecidableEq, Repr

/-- What a waiter sees of a walk: it is unblocked and posted, or another node blocks it. -/
def Call.settle (w : Walk) (addr : ℕ) (c : Call) : Call :=
  if c.lock.addr ∈ w.woken then { c with blocker := none, posted := true }
  else if c.lock.addr ∈ w.moved then { c with blocker := some addr }
  else c

/-- A file node. `made` counts the lock nodes created, and a new node gets this number as its
address and as its semaphore. `freed` lists the semaphores deleted. `log` lists the requests granted,
with their types, and those cleared, the last one first. -/
structure FdNode where
  head : List FdLockf
  blockQ : List ℕ
  gone : Bool
  calls : List Call
  made : ℕ
  freed : List ℕ
  log : List (FdLockf × Option LockType)
  deriving DecidableEq, Repr

/-- What the last request says that covers the byte for the process. -/
def lastType (log : List (FdLockf × Option LockType)) (p x : ℤ) : Option LockType :=
  (log.find? fun g => decide (g.1.pid = p ∧ g.1.covers x)).bind Prod.snd

namespace FdNode

def start : FdNode := ⟨[], [], false, [], 0, [], []⟩

/-- `__fdLockfFindBlock`. -/
def findBlock (s : FdNode) (pid : ℤ) : Option Call :=
  (s.blockQ.filterMap fun a => s.calls.find? fun c => c.lock.addr = a).find? fun c =>
    c.lock.pid = pid

/-- The entry at an address. -/
def entry (s : FdNode) (a : ℕ) : Option FdLockf := s.head.find? fun e => e.addr = a

def MAXDEPTH : ℕ := 50

/-- The loop of `__fdLockfIsDeadLock`, which takes the process of the proposed entry on. -/
def deadWalk (s : FdNode) (waiter : ℤ) : ℕ → ℤ → Bool
  | 0, _ => true
  | n + 1, prop =>
    match s.findBlock prop with
    | none => false
    | some c =>
      match c.blocker.bind s.entry with
      | none => false
      | some w => if w.pid = waiter then true else deadWalk s waiter n w.pid

/-- `__fdLockfIsDeadLock`. -/
def isDeadLock (s : FdNode) (waiter prop : FdLockf) : Bool := s.deadWalk waiter.pid MAXDEPTH prop.pid

/-- The outcome of a walk of the request at the address. -/
def settle (s : FdNode) (addr : ℕ) (w : Walk) : FdNode :=
  { s with head := w.list
           blockQ := (s.blockQ.filter fun a => a ∉ w.woken ∧ a ∉ w.moved) ++ w.moved
           calls := s.calls.map (Call.settle w addr)
           freed := s.freed ++ w.freed }

/-- `__fdLockfDelete` of nodes that are in no list. -/
def drop (s : FdNode) (nodes : List ℕ) : FdNode := { s with freed := s.freed ++ nodes }

/-- `__fdLockfBlock` and the way out of the section. -/
def block (s : FdNode) (lock blk : FdLockf) (spare : Option ℕ) : FdNode :=
  { s with head := s.head.map fun e =>
             if e.addr = blk.addr then { e with blockHd := e.blockHd ++ [lock.addr] } else e
           blockQ := s.blockQ ++ [lock.addr]
           calls := s.calls ++ [⟨lock, spare, some blk.addr, false, .waiting⟩] }

/-- `__fdLockfUnblock` of a waiter that is not posted. -/
def unblock (s : FdNode) (a blk : ℕ) : FdNode :=
  { s with head := s.head.map fun e =>
             if e.addr = blk then { e with blockHd := e.blockHd.filter (· ≠ a) } else e
           blockQ := s.blockQ.filter (· ≠ a) }

/-- The request is on record as granted, or its range as cleared. -/
def record (s : FdNode) (lock : FdLockf) (r : Option LockType) : FdNode :=
  { s with log := (lock, r) :: s.log }

/-- `__fdLockfSetLock` up to the place where it waits or returns, and the delete of the spare. -/
def setLock (s : FdNode) (lock : FdLockf) (spare : Option ℕ) : Option (FdNode × Res) :=
  (getBlock lock (s.head.length + 1) s.head).bind fun
    | some blk =>
      if lock.usFlags.wait = false then
        some (s.drop (lock.ulBlock :: spare.toList), .error .again)
      else if lock.usFlags.posix ∧ blk.usFlags.posix ∧ s.isDeadLock lock blk then
        some (s.drop (lock.ulBlock :: spare.toList), .error .deadlk)
      else if lock.usFlags.flock ∧ lock.usType = .wrlck then
        -- The shared locks that the process holds go before it sleeps.
        (clearLock lock none s.head).map fun w =>
          (((s.settle lock.addr w).record lock none).block lock blk spare, .waits)
      else some (s.block lock blk spare, .waits)
    | none =>
      (linkLock lock spare s.head).map fun w =>
        (((s.settle lock.addr w).record lock (some lock.usType)).drop w.spare.toList, .ok)

/-- Where the range of a request starts, and where it ends. -/
def convert (fl : Flock) (oftSize : ℤ) : Option (ℤ × ℤ) :=
  let oftStart := match fl.l_whence with
    | .set | .cur => some (off fl.l_start)
    | .end_ => some (off (oftSize + fl.l_start))
    | .other => none
  oftStart.bind fun start =>
    if start < 0 then none
    else some (start, if fl.l_len = 0 then -1 else off (start + fl.l_len - 1))

/-- The lock node that a request fills in. -/
def request (n : ℕ) (pid : ℤ) (fl : Flock) (oftSize : ℤ) (iFlags : LockFlags) : Option FdLockf :=
  (convert fl oftSize).map fun (start, stop) =>
    ⟨n, n, start, stop, fl.l_type, iFlags, pid, []⟩

/-- `__fdLockfGetLock`: what it writes into the request. -/
def getLock (fl : Flock) : Option FdLockf → Flock
  | some blk =>
    { l_type := blk.usType
      l_whence := .set
      l_start := blk.oftStart
      l_len := if blk.oftEnd = -1 then 0 else off (blk.oftEnd - blk.oftStart + 1)
      l_pid := if blk.usFlags.posix then blk.pid else -1 }
  | none => { fl with l_type := .unlck }

/-- `__fdLockfAdvLock`. `mem` says whether there is memory for the nodes. A lock and an unlock create
the spare first, as none of the lock types has the bit of `F_FLOCK`. -/
def advLock (s : FdNode) (pid cur : ℤ) (iOp : LockOp) (fl : Flock) (oftSize : ℤ)
    (iFlags : LockFlags) (mem : Bool) : Option (FdNode × Res × Flock) :=
  let pid := if pid < 0 then cur else pid
  let spare := if iOp = .getlk then none else some s.made
  let n := s.made + spare.toList.length
  let made := { s with made := n + 1 }
  match request n pid fl oftSize iFlags with
  | none => some (s, .error .inval, fl)
  | some lock =>
    if mem = false then some (s, .error .nolck, fl)
    else if s.head = [] ∧ iOp ≠ .setlk then
      some (made.drop (n :: spare.toList), .ok, { fl with l_type := .unlck })
    else
      match iOp with
      | .setlk => (made.setLock lock spare).map fun (s', res) => (s', res, fl)
      | .unlck =>
        (clearLock lock spare s.head).map fun w =>
          (((made.settle n w).record lock none).drop (n :: w.spare.toList), .ok, fl)
      | .getlk =>
        (getBlock lock (s.head.length + 1) s.head).map fun blk =>
          (made.drop [n], .ok, getLock fl blk)

/-- `FIOGETLK`, `FIOSETLK` and `FIOSETLKW`. -/
inductive LockCmd where
  | getlk | setlk | setlkw
  deriving DecidableEq, Repr

/-- What `_FdLockfIoctl` hands to `__fdLockfAdvLock`. -/
def ioctlArgs (cmd : LockCmd) (fl : Flock) (oftPtr : ℤ) : LockOp × Flock × LockFlags :=
  let fl := if fl.l_whence = .cur then { fl with l_start := off (fl.l_start + oftPtr) } else fl
  (if cmd = .getlk then .getlk else if fl.l_type = .unlck then .unlck else .setlk, fl,
    ⟨cmd = .setlkw, false, true, false⟩)

/-- What `_FdLockfProc` hands to `__fdLockfAdvLock`: the whole file. -/
def procArgs (iType : LockType) (nb : Bool) (pid : ℤ) : LockOp × Flock × LockFlags :=
  (if iType = .unlck then .unlck else .setlk, ⟨iType, .set, 0, 0, pid⟩, ⟨!nb, true, false, false⟩)

/-- The pend on the semaphore of the node returns: it was deleted, or it has been posted. -/
def resume (s : FdNode) (i : ℕ) : Option FdNode :=
  s.calls[i]?.bind fun c =>
    if c.phase = .waiting then
      if c.lock.ulBlock ∈ s.freed then
        some { s with calls := s.calls.set i { c with phase := .resumed true } }
      else if c.posted then
        some { s with calls := s.calls.set i { c with posted := false, phase := .resumed false } }
      else none
    else none

/-- A request that has waited enters the section again. -/
def again (s : FdNode) (i : ℕ) : Option (FdNode × Res) :=
  s.calls[i]?.bind fun c =>
    let s' := { s with calls := s.calls.eraseIdx i }
    let nodes := c.lock.ulBlock :: c.spare.toList
    match c.phase with
    | .resumed err =>
      if s.gone ∨ c.lock.usFlags.abort then some (s'.drop nodes, .error .badf)
      else
        -- Something else than an unblock may have ended the pend.
        let s' := match c.blocker with
          | some blk => s'.unblock c.lock.addr blk
          | none => s'
        if err then some (s'.drop nodes, .error .deleted) else s'.setLock c.lock c.spare
    | _ => none

/-- `__fdLockfCleanupHook` of a thread whose request has not returned. -/
def kill (s : FdNode) (i : ℕ) : Option FdNode :=
  s.calls[i]?.bind fun c =>
    match c.phase with
    | .waiting =>
      let s' := { s with calls := s.calls.eraseIdx i }
      let s' := match c.blocker with
        | some blk => if s.gone then s' else s'.unblock c.lock.addr blk
        | none => s'
      some (s'.drop (c.lock.ulBlock :: c.spare.toList))
    | .resumed _ => some { s with calls := s.calls.set i { c with phase := .lost } }
    | .lost => none

/-- `__fdLockAbortAdvLocks` at a waiter of an entry: the flag is set, and the waiters of the waiter
are woken. -/
def abort (blocked : List ℕ) (c : Call) : Call :=
  if c.lock.addr ∈ blocked then
    { c with lock := { c.lock with usFlags := { c.lock.usFlags with abort := true }, blockHd := [] } }
  else c

/-- `_FdLockfClearFdNode` at the last close, and the end of the file node. -/
def clearFdNode (s : FdNode) : FdNode :=
  let blocked := s.head.flatMap FdLockf.blockHd
  let woken := (s.calls.filter fun c => c.lock.addr ∈ blocked).flatMap fun c => c.lock.blockHd
  { s with head := []
           blockQ := s.blockQ.filter fun a => a ∉ woken
           gone := true
           calls := (s.calls.map (Call.settle ⟨[], woken, [], [], none⟩ 0)).map (abort blocked)
           freed := s.freed ++ s.head.map FdLockf.ulBlock
           log := [] }

/-- The sections of all threads. A request is counted by its place among those that wait. -/
inductive Op where
  | ioctl (cur : ℤ) (cmd : LockCmd) (fl : Flock) (oftPtr oftSize : ℤ) (mem : Bool)
  | proc (pid cur : ℤ) (iType : LockType) (nb : Bool) (oftSize : ℤ) (mem : Bool)
  | resume (i : ℕ)
  | again (i : ℕ)
  | kill (i : ℕ)
  | clearFdNode
  deriving DecidableEq, Repr

/-- One section. No result means that it cannot begin, or that it does not end. A request and the
close of a file need the file node. -/
def step (s : FdNode) : Op → Option FdNode
  | .ioctl cur cmd fl oftPtr oftSize mem =>
    let (iOp, fl, iFlags) := ioctlArgs cmd fl oftPtr
    if s.gone then none else (s.advLock (-1) cur iOp fl oftSize iFlags mem).map fun r => r.1
  | .proc pid cur iType nb oftSize mem =>
    let (iOp, fl, iFlags) := procArgs iType nb pid
    if s.gone then none else (s.advLock pid cur iOp fl oftSize iFlags mem).map fun r => r.1
  | .resume i => s.resume i
  | .again i => (s.again i).map fun r => r.1
  | .kill i => s.kill i
  | .clearFdNode => if s.gone then none else some s.clearFdNode

end FdNode

end SylixOS.IoLib
