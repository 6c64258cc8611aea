import Mathlib.Tactic.Common

/-! # Runs that go wrong

A run of C code that indexes a buffer can leave the buffer, and a loop or a recursion can have no end.
-/

namespace SylixOS.Lib

/-- Why a run does not come to its end. -/
inductive Fault
  /-- An element outside its buffer is read or written. -/
  | range
  /-- The run has not ended within its fuel. -/
  | fuel
  deriving DecidableEq, Repr

variable {α β : Type}

theorem ok_bind (a : α) (f : α → Except Fault β) : (Except.ok a >>= f) = f a := rfl

theorem error_bind (e : Fault) (f : α → Except Fault β) : (Except.error e >>= f) = .error e := rfl

end SylixOS.Lib
