import Mathlib

/-! # The record locks of a file

A file node keeps one list of lock nodes for all processes. An entry covers the bytes from its
start to its end, and an end of -1 stands for the end of the file. A request is a lock node too:
it walks along the list, and at every overlap with an entry of its own process it splits, trims,
deletes or converts that entry. Requests of other processes wait at the entry that blocks them.
Offsets are 64-bit and wrap around.
-/

namespace SylixOS.IoLib

/-- The type of a lock or of a request, `F_RDLCK`, `F_WRLCK` or `F_UNLCK`. -/
inductive LockType where
  | rdlck | wrlck | unlck
  deriving DecidableEq, Repr

/-- `FDLOCK_usFlags`: `F_WAIT`, `F_FLOCK`, `F_POSIX` and `F_ABORT`. -/
structure LockFlags where
  wait : Bool
  flock : Bool
  posix : Bool
  abort : Bool
  deriving DecidableEq, Repr

/-- `LW_FD_LOCKF`. A node is known by its address, and the waiters that it blocks by theirs. Where
a node stands in the list gives `FDLOCK_pfdlockNext`. -/
structure FdLockf where
  addr : ℕ
  ulBlock : ℕ
  oftStart : ℤ
  oftEnd : ℤ
  usType : LockType
  usFlags : LockFlags
  pid : ℤ
  blockHd : List ℕ
  deriving DecidableEq, Repr

/-- The byte stands in the range of the node. -/
def FdLockf.covers (e : FdLockf) (x : ℤ) : Prop := e.oftStart ≤ x ∧ (e.oftEnd = -1 ∨ x ≤ e.oftEnd)

instance (e : FdLockf) (x : ℤ) : Decidable (e.covers x) := inferInstanceAs (Decidable (_ ∧ _))

/-- The value of an `off_t`: 64 bits, with a sign. -/
def off (x : ℤ) : ℤ := x.bmod (2 ^ 64)

/-- The largest offset. -/
def offMax : ℤ := 2 ^ 63 - 1

/-- Whose entries `__fdLockfFindOverlap` looks at. -/
inductive Whose where
  | self | others
  deriving DecidableEq, Repr

/-- The six results of `__fdLockfFindOverlap`. -/
inductive Overlap where
  /-- 0: no overlap -/
  | no
  /-- 1: overlap == lock -/
  | same
  /-- 2: overlap contains lock -/
  | contains
  /-- 3: lock contains overlap -/
  | contained
  /-- 4: overlap starts before lock -/
  | startsBefore
  /-- 5: overlap ends after lock -/
  | endsAfter
  deriving DecidableEq, Repr

/-- Entries of the other kind of process are stepped over. -/
def skips (lock : FdLockf) (iType : Whose) (e : FdLockf) : Prop :=
  (iType = .self ∧ e.pid ≠ lock.pid) ∨ (iType = .others ∧ e.pid = lock.pid)

/-- Case 0 of the overlap test. -/
def apart (lock e : FdLockf) : Prop :=
  (e.oftEnd ≠ -1 ∧ lock.oftStart > e.oftEnd) ∨ (lock.oftEnd ≠ -1 ∧ e.oftStart > lock.oftEnd)

instance (lock : FdLockf) (iType : Whose) (e : FdLockf) : Decidable (skips lock iType e) :=
  inferInstanceAs (Decidable (_ ∨ _))

instance (lock e : FdLockf) : Decidable (apart lock e) := inferInstanceAs (Decidable (_ ∨ _))

/-- Cases 1 to 5, tested in this order. With none of them the loop comes round at the same entry
again. -/
def overlapCase (lock e : FdLockf) : Option Overlap :=
  if e.oftStart = lock.oftStart ∧ e.oftEnd = lock.oftEnd then some .same
  else if e.oftStart ≤ lock.oftStart ∧ lock.oftEnd ≠ -1 ∧
      (e.oftEnd ≥ lock.oftEnd ∨ e.oftEnd = -1) then some .contains
  else if lock.oftStart ≤ e.oftStart ∧
      (lock.oftEnd = -1 ∨ (e.oftEnd ≠ -1 ∧ lock.oftEnd ≥ e.oftEnd)) then some .contained
  else if e.oftStart < lock.oftStart ∧ (e.oftEnd ≥ lock.oftStart ∨ e.oftEnd = -1) then
    some .startsBefore
  else if e.oftStart > lock.oftStart ∧ lock.oftEnd ≠ -1 ∧
      (e.oftEnd > lock.oftEnd ∨ e.oftEnd = -1) then some .endsAfter
  else none

/-- `__fdLockfFindOverlap` from an entry on: what the walk passes, the case, and the list from the
overlap on. No result means that the walk makes no progress. -/
def findOverlap (lock : FdLockf) (iType : Whose) :
    List FdLockf → Option (List FdLockf × Overlap × List FdLockf)
  | [] => some ([], .no, [])
  | e :: l =>
    if skips lock iType e then
      (findOverlap lock iType l).map fun (pre, c, rest) => (e :: pre, c, rest)
    else if apart lock e then
      -- Only a search among the own entries, which are in order, may end here.
      if iType = .self ∧ lock.oftEnd ≠ -1 ∧ e.oftStart > lock.oftEnd then some ([], .no, e :: l)
      else (findOverlap lock iType l).map fun (pre, c, rest) => (e :: pre, c, rest)
    else (overlapCase lock e).map fun c => ([], c, e :: l)

/-- `__fdLockfGetBlock`: the first entry of another process that keeps the lock from being
granted. -/
def getBlock (lock : FdLockf) : ℕ → List FdLockf → Option (Option FdLockf)
  | 0, _ => none
  | fuel + 1, l =>
    match findOverlap lock .others l with
    | some (_, .no, _) => some none
    | some (_, _, ov :: post) =>
      if lock.usType = .wrlck ∨ ov.usType = .wrlck then some (some ov)
      else getBlock lock fuel post
    | _ => none

/-- What a walk of a request along the list leaves behind. -/
structure Walk where
  /-- the list from the place on where the walk began -/
  list : List FdLockf
  /-- the waiters taken off an entry and posted -/
  woken : List ℕ
  /-- the waiters handed over to the request -/
  moved : List ℕ
  /-- the semaphores of the nodes deleted -/
  freed : List ℕ
  /-- `*ppfdlockfSpare` -/
  spare : Option ℕ
  deriving DecidableEq, Repr

namespace Walk

def stop (spare : Option ℕ) (list : List FdLockf) : Walk := ⟨list, [], [], [], spare⟩

/-- Entries stand in front of what the walk leaves. -/
def ahead (pre : List FdLockf) (w : Walk) : Walk := { w with list := pre ++ w.list }

/-- `__fdLockfWakeup`. -/
def wake (ov : FdLockf) (w : Walk) : Walk := { w with woken := ov.blockHd ++ w.woken }

/-- The waiters of an entry are blocked by the request instead. -/
def move (ov : FdLockf) (w : Walk) : Walk := { w with moved := ov.blockHd ++ w.moved }

/-- `__fdLockfDelete`. -/
def free (e : FdLockf) (w : Walk) : Walk := { w with freed := e.ulBlock :: w.freed }

/-- The request itself is linked in, with the waiters that it takes over. -/
def link (lock : FdLockf) (w : Walk) : Walk :=
  { w with list := { lock with blockHd := lock.blockHd ++ w.moved } :: w.list }

def linkIf (need : Bool) (lock : FdLockf) (w : Walk) : Walk := if need then w.link lock else w

end Walk

/-- `__fdLockfSplit` of an entry that starts before the lock: the entry, and what stands behind the
lock. The last part of an entry that ends after the lock is a copy of the whole node, in the memory
of the spare. -/
def split (ov lock : FdLockf) (spare : Option ℕ) (post : List FdLockf) :
    Option (FdLockf × List FdLockf × Option ℕ) :=
  if ov.oftEnd = lock.oftEnd then
    some ({ ov with oftEnd := off (lock.oftStart - 1) }, post, spare)
  else
    spare.map fun n =>
      ({ ov with oftEnd := off (lock.oftStart - 1) },
        { ov with addr := n, oftStart := off (lock.oftEnd + 1), blockHd := [] } :: post, none)

/-- What `__fdLockfClearLock` does at an overlap. Its waiters are woken in every case. `next` is the
rest of the walk, for the cases that go on. -/
def clearCase (unlock : FdLockf) (spare : Option ℕ) (next : List FdLockf → Option Walk) :
    Overlap → List FdLockf → Option Walk
  | .no, rest => some (.stop spare rest)
  | .same, ov :: post => some (((Walk.stop spare post).free ov).wake ov)
  | .contains, ov :: post =>
    if ov.oftStart = unlock.oftStart then
      some ((Walk.stop spare
        ({ ov with oftStart := off (unlock.oftEnd + 1), blockHd := [] } :: post)).wake ov)
    else
      (split { ov with blockHd := [] } unlock spare post).map fun (ov', tail, spare) =>
        (Walk.stop spare (ov' :: tail)).wake ov
  | .contained, ov :: post => (next post).map fun w => (w.free ov).wake ov
  | .startsBefore, ov :: post =>
    (next post).map fun w =>
      (w.ahead [{ ov with oftEnd := off (unlock.oftStart - 1), blockHd := [] }]).wake ov
  | .endsAfter, ov :: post =>
    some ((Walk.stop spare
      ({ ov with oftStart := off (unlock.oftEnd + 1), blockHd := [] } :: post)).wake ov)
  | _, [] => none

/-- The loop of `__fdLockfClearLock`. -/
def clearLoop (unlock : FdLockf) (spare : Option ℕ) : ℕ → List FdLockf → Option Walk
  | 0, _ => none
  | fuel + 1, l =>
    (findOverlap unlock .self l).bind fun (pre, c, rest) =>
      (clearCase unlock spare (clearLoop unlock spare fuel) c rest).map (.ahead pre)

/-- `__fdLockfClearLock`. -/
def clearLock (unlock : FdLockf) (spare : Option ℕ) (l : List FdLockf) : Option Walk :=
  clearLoop unlock spare (l.length + 1) l

/-- A lock is made weaker, so that others may be able to get theirs. -/
def downgrades (lock ov : FdLockf) : Prop := lock.usType = .rdlck ∧ ov.usType = .wrlck

instance (lock ov : FdLockf) : Decidable (downgrades lock ov) := inferInstanceAs (Decidable (_ ∧ _))

/-- What `__fdLockfSetLock` does at an overlap with a lock that nothing blocks. `need` is
`iNeedToLink`. A lock that stands in the list already is never linked in again or deleted: where
the code would do so the links are no list any more, and there is no result. -/
def setCase (lock : FdLockf) (spare : Option ℕ) (next : List FdLockf → Option Walk) (need : Bool) :
    Overlap → List FdLockf → Option Walk
  | .no, rest => some ((Walk.stop spare rest).linkIf need lock)
  | .same, ov :: post =>
    if need then
      if downgrades lock ov then
        some (((Walk.stop spare
          ({ ov with usType := lock.usType, blockHd := [] } :: post)).free lock).wake ov)
      else some ((Walk.stop spare ({ ov with usType := lock.usType } :: post)).free lock)
    else none
  | .contains, ov :: post =>
    if need then
      if ov.usType = lock.usType then some ((Walk.stop spare (ov :: post)).free lock)
      else if ov.oftStart = lock.oftStart then
        some (((Walk.stop spare
          ({ ov with oftStart := off (lock.oftEnd + 1), blockHd := [] } :: post)).link lock).wake ov)
      else
        (split { ov with blockHd := [] } lock spare post).map fun (ov', tail, spare) =>
          (((Walk.stop spare tail).link lock).ahead [ov']).wake ov
    else none
  | .contained, ov :: post =>
    -- The lock takes over the waiters, unless the downgrade may let them in.
    (next post).map fun w =>
      ((if downgrades lock ov then w.wake ov else w.move ov).linkIf need lock).free ov
  | .startsBefore, ov :: post =>
    if need then
      (next post).map fun w =>
        ((w.link lock).ahead
          [{ ov with oftEnd := off (lock.oftStart - 1), blockHd := [] }]).wake ov
    else none
  | .endsAfter, ov :: post =>
    some (((Walk.stop spare
      ({ ov with oftStart := off (lock.oftEnd + 1), blockHd := [] } :: post)).linkIf need
        lock).wake ov)
  | _, [] => none

/-- The second loop of `__fdLockfSetLock`. -/
def setLoop (lock : FdLockf) (spare : Option ℕ) : ℕ → Bool → List FdLockf → Option Walk
  | 0, _, _ => none
  | fuel + 1, need, l =>
    (findOverlap lock .self l).bind fun (pre, c, rest) =>
      (setCase lock spare (setLoop lock spare fuel false) need c rest).map (.ahead pre)

/-- What `__fdLockfSetLock` does with a lock that nothing blocks. -/
def linkLock (lock : FdLockf) (spare : Option ℕ) (l : List FdLockf) : Option Walk :=
  setLoop lock spare (l.length + 1) true l

end SylixOS.IoLib
