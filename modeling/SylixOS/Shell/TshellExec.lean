import SylixOS.Shell.IfElse

/-! # Running a command line

A command line is split at its first operator, and both parts are command lines again. A pipe writes
the output of its first part to a file, which it appends to the first command of its second part. What
is left without an operator is a simple command. -/

namespace SylixOS.Shell

/-- A shell with a state: the variables, and what it does with a converted text that has no operator.
-/
structure Tshell (σ : Type*) where
  vars : σ → ShellVars
  run : σ → Text → ℤ × σ

/-- `/etc/.log`. -/
def logFile : Text := ['/', 'e', 't', 'c', '/', '.', 'l', 'o', 'g']

/-- The first operator of a command line, with what is before it and behind it. -/
inductive CmdSplit where
  | none
  | or (first second : Text)
  | and (first second : Text)
  | seq (first second : Text)
  /-- A `|`, or `|&` when standard error is meant, too. -/
  | pipe (err : Bool) (first second : Text)
  deriving DecidableEq

/-- The loop of `__tshellExec` over a command line, with `index1 = 1` behind a `|` and `index2 = 1`
behind a `&`. -/
def scan (index1 index2 : Bool) (firstCmd : Text) : Text → CmdSplit
  | [] => .none
  | c :: t =>
    if c = '|' then
      if index1 then .or firstCmd.dropLast t
      else scan true false (firstCmd ++ [c]) t
    else if index1 then
      if c = '&' then .pipe true firstCmd.dropLast t else .pipe false firstCmd.dropLast (c :: t)
    else if c = '&' then
      if index2 then .and firstCmd.dropLast t
      else scan false true (firstCmd ++ [c]) t
    else if c = ';' then .seq firstCmd t
    else scan false false (firstCmd ++ [c]) t

/-- What the first command of a pipe is run as. -/
def pipeFirst (err : Bool) (firstCmd : Text) : Text :=
  if err then firstCmd ++ '1' :: '>' :: logFile ++ ' ' :: '2' :: '>' :: logFile
  else firstCmd ++ '>' :: logFile

/-- An operator begins. -/
def isOperator (t : Text) : Bool :=
  tshellCheck t ['&', '&'] || tshellCheck t ['|'] || tshellCheck t [';']

/-- What the rest of a pipe is run as. -/
def pipeSecond : Text → Text
  | [] => ' ' :: logFile
  | c :: t => if isOperator (c :: t) then ' ' :: logFile ++ ' ' :: c :: t else c :: pipeSecond t

/-- `rm /etc/.log`. -/
def rmCmd : Text := ['r', 'm', ' '] ++ logFile

namespace Tshell
variable {σ : Type*} (sh : Tshell σ)

/-- The result, the state and the simple commands that have been run, each as it was typed. -/
abbrev Done (σ : Type*) := ℤ × σ × List Text

/-- A simple command has come to an error before it was run. -/
def failed (st : σ) (pcCmd : Text) (error : ℤ) : Done σ :=
  (error, st, if scan false false [] pcCmd = .none then [pcCmd] else [])

/-- `__tshellExec`, with a bound on the depth of its calls. -/
def exec : ℕ → σ → Text → Option (Done σ)
  | 0, _, _ => none
  | fuel + 1, st, pcCommandExec =>
    let pcCmd := pcCommandExec.dropWhile isWhite
    if pcCmd = [] ∨ pcCmd.head? = some '#' then some (0, st, [])
    else if maxCommandLen - 1 < pcCmd.length then some (failed st pcCmd (-TshellError.eparam.code))
    else
      match strConvertVar (sh.vars st) pcCmd with
      | .error e => some (failed st pcCmd (-e.code))
      | .ok cCommandBuffer =>
        match tshellIfElse cCommandBuffer with
        | .error => some (failed st pcCmd (-2200))
        | .exec execCmd => exec fuel st execCmd
        | .hang => none
        | .pass =>
          match scan false false [] pcCmd with
          | .none =>
            let (r, st) := sh.run st cCommandBuffer
            some (r, st, [pcCmd])
          | .seq first second => do
            let (error1, st, cmds1) ← exec fuel st first
            let (error2, st, cmds2) ← exec fuel st second
            some (min error1 error2, st, cmds1 ++ cmds2)
          | .and first second => do
            let (r, st, cmds) ← exec fuel st first
            if 0 ≤ r then
              let (r, st, cmds') ← exec fuel st second
              some (r, st, cmds ++ cmds')
            else some (r, st, cmds)
          | .or first second => do
            let (r, st, cmds) ← exec fuel st first
            if r < 0 then
              let (r, st, cmds') ← exec fuel st second
              some (r, st, cmds ++ cmds')
            else some (r, st, cmds)
          | .pipe err first second => do
            let (r, st, cmds) ← exec fuel st (pipeFirst err first)
            if r < 0 ∧ err = false then
              let (_, st, cmds') ← exec fuel st rmCmd
              some (r, st, cmds ++ cmds')
            else
              let (r, st, cmds') ← exec fuel st (pipeSecond second)
              let (_, st, cmds'') ← exec fuel st rmCmd
              some (r, st, cmds ++ cmds' ++ cmds'')

end Tshell
end SylixOS.Shell
