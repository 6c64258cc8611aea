import Mathlib
import SylixOS.Shell.TtinyString

/-! # The parser of `if` statements

The parser goes through the text once. It keeps the operands of the condition that it is in, and runs
the text behind the first `then` or `else` that it is to run, up to the next place where a keyword can
be read. -/

namespace SylixOS.Shell

/-- `__tshellCheck`. -/
def tshellCheck (firstCmd second : Text) : Bool := second.isPrefixOf firstCmd

def kwIf : Text := ['i', 'f']

def kwThen : Text := ['t', 'h', 'e', 'n']

def kwElif : Text := ['e', 'l', 'i', 'f']

def kwElse : Text := ['e', 'l', 's', 'e']

def kwFi : Text := ['f', 'i']

/-- A keyword can be read somewhere in a text. -/
def containsKeyword (kw : Text) : Text → Bool
  | [] => kw.isEmpty
  | c :: t => tshellCheck (c :: t) kw || containsKeyword kw t

/-- What the parser comes to: no `if` statement, an error in one, a text to run, or a comparison that
does not end. -/
inductive IfResult where
  | pass
  | error
  | exec (execCmd : Text)
  | hang
  deriving DecidableEq

/-- `status`, but for 4. -/
inductive IfStatus where
  /-- No `[` yet. -/
  | bracket
  /-- No `]` yet. -/
  | operands
  /-- No `then` yet. -/
  | thenNext
  /-- No `elif` or `else` yet. -/
  | skipping
  deriving DecidableEq

/-- `leftMeet` and `rightMeet`. -/
inductive Meet where
  | no
  | yes
  | done
  deriving DecidableEq

structure IfState where
  status : IfStatus
  left : Text
  leftMeet : Meet
  right : Text
  rightMeet : Meet
  judge : Option Ordering
  string : Bool

namespace IfState

def start : IfState := ⟨.bracket, [], .no, [], .no, none, false⟩

/-- The first characters decide, and the loop does not go on when they are the same. -/
def compareString : Text → Text → Option Ordering
  | l :: _, r :: _ => if l = r then none else if l < r then some .lt else some .gt
  | _ :: _, [] => some .gt
  | [], _ :: _ => some .lt
  | [], [] => some .eq

/-- A number of 32 bits. -/
def number (t : Text) : ℤ :=
  t.foldl (fun n c => (n * 10 + ((c.toNat : ℤ) - '0'.toNat)).bmod (2 ^ 32)) 0

def compareNumber (l r : Text) : Ordering :=
  if number l = number r then .eq else if number r < number l then .gt else .lt

/-- A `[` or `[[`. -/
def openBracket (s : IfState) (cmd : Text) : IfState × Text :=
  if s.status = .bracket ∧ tshellCheck cmd ['['] then
    if tshellCheck cmd ['[', '['] then ({ s with status := .operands, string := true }, cmd.drop 2)
    else ({ s with status := .operands }, cmd.drop 1)
  else (s, cmd)

/-- What the condition says, when it is complete. -/
def answer (s : IfState) : Option Ordering :=
  if s.string then compareString s.left s.right else some (compareNumber s.left s.right)

/-- A `]` or `]]`. -/
def closeBracket (s : IfState) (cmd : Text) : Except IfResult (IfState × Text) :=
  if s.status = .operands ∧ tshellCheck cmd [']'] then
    if s.string ∧ tshellCheck cmd [']', ']'] = false then .error .error
    else if s.leftMeet ≠ .done ∨ s.rightMeet ≠ .done ∨ s.judge = none then .error .error
    else
      match s.answer with
      | none => .error .hang
      | some answer =>
        .ok ({ s with
          status := if s.judge = some answer then .thenNext else .skipping
          leftMeet := .no, rightMeet := .no, judge := none, string := false },
          (if s.string then cmd.drop 1 else cmd).drop 2)
  else .ok (s, cmd)

/-- The text that is run, which ends where a keyword can be read. -/
def branchText : Text → Text
  | [] => []
  | c :: t =>
    if tshellCheck (c :: t) kwFi || tshellCheck (c :: t) kwElif || tshellCheck (c :: t) kwElse then []
    else c :: branchText t

/-- The keywords behind a condition. -/
def keyword (s : IfState) (cmd : Text) : Except IfResult (IfState × Text) :=
  if s.status = .thenNext ∧ tshellCheck cmd kwThen then .error (.exec (branchText (cmd.drop 4)))
  else if s.status = .skipping ∧ tshellCheck cmd kwElif then
    .ok ({ s with status := .bracket, left := [], right := [] }, cmd.drop 4)
  else if s.status = .skipping ∧ tshellCheck cmd kwElse then
    .error (.exec (branchText (cmd.drop 4)))
  else .ok (s, cmd)

/-- A character of the left operand. -/
def leftChar (s : IfState) (c : Char) : IfState :=
  match s.leftMeet with
  | .yes =>
    if c = ' ' then { s with leftMeet := .done }
    else if c = '"' then s
    else { s with left := s.left ++ [c] }
  | _ =>
    if c = ' ' ∨ c = '"' then s
    else { s with leftMeet := .yes, left := s.left ++ [c] }

/-- A character of the right operand. -/
def rightChar (s : IfState) (c : Char) : IfState :=
  match s.rightMeet with
  | .no =>
    if c = ' ' ∨ c = '"' then s
    else { s with rightMeet := .yes, right := s.right ++ [c] }
  | .yes =>
    if c = ' ' then { s with rightMeet := .done }
    else if c = '"' then s
    else { s with right := s.right ++ [c] }
  | .done => s

/-- A comparison, or something else that is passed over. -/
def judgeOf (cmd : Text) : Option Ordering :=
  if tshellCheck cmd ['=', '='] then some .eq
  else if tshellCheck cmd ['<', ' '] then some .lt
  else if tshellCheck cmd ['>', ' '] then some .gt
  else none

/-- A character of a condition. -/
def operand (s : IfState) (cmd : Text) : IfState × Text :=
  match cmd with
  | [] => (s, [])
  | c :: t =>
    if s.judge ≠ none then (s.rightChar c, c :: t)
    else if s.leftMeet ≠ .done then (s.leftChar c, c :: t)
    else
      match judgeOf (c :: t) with
      | none => (s, c :: t)
      | some o => ({ s with judge := some o }, t)

/-- One round of the loop. -/
def round (s : IfState) (cmd : Text) : Except IfResult (IfState × Text) := do
  let (s, cmd) := s.openBracket cmd
  let (s, cmd) ← s.closeBracket cmd
  let (s, cmd) ← s.keyword cmd
  let (s, cmd) := if s.status = .operands then s.operand cmd else (s, cmd)
  .ok (s, cmd.drop 1)

/-- The loop, each round of which takes a character. -/
def loop : ℕ → IfState → Text → IfResult
  | 0, _, _ => .pass
  | fuel + 1, s, cmd =>
    if cmd = [] then .pass
    else
      match s.round cmd with
      | .error r => r
      | .ok (s, cmd) => loop fuel s cmd

end IfState

/-- `_tshellIfElse`. -/
def tshellIfElse (cmd : Text) : IfResult :=
  let cmd := cmd.dropWhile (· = ' ')
  if kwFi.isSuffixOf cmd then
    if tshellCheck cmd kwIf then IfState.loop cmd.length .start (cmd.drop 2) else .pass
  else if containsKeyword kwThen cmd then .error
  else .pass

end SylixOS.Shell
