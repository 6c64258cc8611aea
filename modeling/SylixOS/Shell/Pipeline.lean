import SylixOS.Shell.CommandList
import SylixOS.Shell.TshellWrapper

/-! # Pipelines

Each command of a pipeline is meant to get all that the command before it has written. The code lets
the first command write to a file, and makes a pipeline of the rest, with this file as a parameter of
its first command. So a command in the middle has the same file to read and to write, and it is emptied
before the command begins. -/

namespace SylixOS.Shell

/-- A pipeline as it is typed. -/
def pipeText (c : Text) : List Text → Text
  | [] => c
  | d :: rest => c ++ '|' :: pipeText d rest

namespace Commands
variable {σ : Type*} (sh : Commands σ)

/-- A command of a pipeline: no operators and redirections, and neither empty nor a comment. -/
structure PipeCmd (c : Text) : Prop where
  bar : '|' ∉ c
  semicolon : ';' ∉ c
  amp : '&' ∉ c
  nonempty : c.dropWhile isWhite ≠ []
  comment : (c.dropWhile isWhite).head? ≠ some '#'
  plain : sh.Plain c

/-- The commands of a pipeline are run one after the other, each with the output of the one before it
in the file that is its last parameter: the runs, and the output of the last command. -/
def pipeline (st : σ) (input : Text) (appended : List Text) (c : Text) :
    List Text → Option (List Run × Text)
  | [] =>
    match sh.reads st c with
    | none => none
    | some words =>
      let argv := words ++ appended
      let (output, _) := sh.perform st false (some input) argv
      some ([⟨argv, some input, output, .terminal⟩], output)
  | d :: rest =>
    match sh.reads st c with
    | none => none
    | some words =>
      let argv := words ++ appended
      let (output, _, _, st) := sh.perform st true (some input) argv
      match pipeline st output [logFile] d rest with
      | none => none
      | some (runs, last) => some (⟨argv, some input, output, .log⟩ :: runs, last)

/-- A world comes from another by these runs, which write this on the terminal, and by the removal of
the file of each pipe. -/
def Follows (w w' : World σ) (runs : List Run) (last : Text) (pipes : ℕ) : Prop :=
  w'.screen = w.screen ++ last ∧
    ∃ removals : List Run, removals.length = pipes ∧ w'.runs = w.runs ++ runs ++ removals

/-- What the code makes of a command of a pipeline behind the first. -/
def stageText (d : Text) : List Text → Text
  | [] => d ++ ' ' :: logFile
  | _ :: _ => d ++ ' ' :: logFile ++ [' ']

/-- The parser does not take what is left of a pipeline for an `if` statement. -/
def NoIfs (text : Text) : List Text → Prop
  | [] => True
  | d :: rest => sh.shell.IfFree (pipeText text (d :: rest)) ∧ NoIfs (stageText d rest) rest

/-- A command that writes to the file of the pipe, which is empty when it begins. -/
def staged (w : World σ) (argv : List Text) : ℤ × World σ :=
  sh.call { w with log := some [] } ⟨.terminal, .log, .terminal, true⟩ argv

/-- The texts of a pipeline pass the checks and are read as the words of the commands, with the file of
the pipe behind them, no command but the last two has an output, and none but the last fails. -/
def Fits (w : World σ) (input : Text) (appended : List Text) (c text : Text) : List Text → Prop
  | [] =>
    ∃ words, sh.reads w.state c = some words ∧ sh.shell.Passes w text ∧
      sh.reads w.state text = some (words ++ appended) ∧ w.log = some input
  | d :: rest =>
    ∃ words, sh.reads w.state c = some words ∧ sh.shell.Passes w (pipeText text (d :: rest)) ∧
      sh.shell.Passes w (text ++ redirLog) ∧
      (∃ p, sh.reads w.state (text ++ redirLog) = some (words ++ appended ++ [p ++ redirLog]) ∧
        (outOpt p).1 = true) ∧
      sh.canOpen w.state logFile = true ∧ input = [] ∧
      let (r, w') := sh.staged w (words ++ appended)
      let (output, _) := sh.perform w.state true (some []) (words ++ appended)
      0 ≤ r ∧ Fits w' output [logFile] d (stageText d rest) rest

/-! ## The texts of a pipeline -/

variable {sh : Commands σ} {st : σ} {w w' : World σ} {c d t text u : Text} {rest : List Text}

theorem not_isOperator {x : Char} (hx : x ≠ '|' ∧ x ≠ ';' ∧ x ≠ '&') (t : Text) :
    isOperator (x :: t) = false := by
  simp [isOperator, tshellCheck, List.isPrefixOf, hx.1.symm, hx.2.1.symm, hx.2.2.symm]

namespace PipeCmd

theorem chars (hc : sh.PipeCmd c) {x : Char} (hx : x ∈ c) : x ≠ '|' ∧ x ≠ ';' ∧ x ≠ '&' :=
  ⟨fun h => hc.bar (h ▸ hx), fun h => hc.semicolon (h ▸ hx), fun h => hc.amp (h ▸ hx)⟩

theorem simpleCmd (hc : sh.PipeCmd c) : SimpleCmd c where
  bar := hc.bar
  semicolon := hc.semicolon
  amp h := hc.amp (h.subset List.mem_cons_self)
  nonempty := hc.nonempty
  comment := hc.comment

theorem ne_nil (hc : sh.PipeCmd c) : c ≠ [] := hc.simpleCmd.ne_nil

theorem strip (hc : sh.PipeCmd c) : sh.PipeCmd (c.dropWhile isWhite) where
  bar := hc.simpleCmd.strip.bar
  semicolon := hc.simpleCmd.strip.semicolon
  amp h := hc.amp ((List.dropWhile_sublist _).mem h)
  nonempty := hc.simpleCmd.strip.nonempty
  comment := hc.simpleCmd.strip.comment
  plain st b hb := by
    rw [List.dropWhile_idempotent] at hb
    exact hc.plain st b hb

/-- A text behind a command that begins with a separator. -/
theorem append {x : Char} (hc : sh.PipeCmd c) (hx : isSeparator x = true) (hbracket : x ≠ '\x7d')
    (hu : '$' ∉ u) (hchars : '|' ∉ x :: u ∧ ';' ∉ x :: u ∧ '&' ∉ x :: u)
    (hplain : NoRedir (x :: u)) : sh.PipeCmd (c ++ x :: u) where
  bar := by
    rw [List.mem_append, not_or]
    exact ⟨hc.bar, hchars.1⟩
  semicolon := by
    rw [List.mem_append, not_or]
    exact ⟨hc.semicolon, hchars.2.1⟩
  amp := by
    rw [List.mem_append, not_or]
    exact ⟨hc.amp, hchars.2.2⟩
  nonempty := by
    rw [hc.simpleCmd.dropWhile_append]
    exact List.append_ne_nil_of_left_ne_nil hc.nonempty _
  comment := by
    rw [hc.simpleCmd.dropWhile_append, List.head?_append_of_ne_nil _ hc.nonempty]
    exact hc.comment
  plain st b hb := by
    rw [hc.simpleCmd.dropWhile_append] at hb
    obtain ⟨b₀, hb₀, rfl⟩ := strConvertVar_append hx hbracket hu hb
    have hplain₀ := hc.plain st b₀ hb₀
    unfold NoRedir
    rw [List.mem_append, List.mem_append, not_or, not_or]
    exact ⟨⟨hplain₀.1, hplain.1⟩, hplain₀.2, hplain.2⟩

theorem stageText (hd : sh.PipeCmd d) (rest : List Text) : sh.PipeCmd (stageText d rest) := by
  cases rest with
  | nil =>
    exact hd.append (by decide) (by decide) (by decide) (by decide) ⟨by decide, by decide⟩
  | cons e rest =>
    unfold Commands.stageText
    rw [List.append_assoc]
    exact hd.append (by decide) (by decide) (by decide) (by decide) ⟨by decide, by decide⟩

/-- Where a pipeline is split. -/
theorem scan_pipe (hc : sh.PipeCmd c) {x : Char} (hx : x ≠ '|' ∧ x ≠ ';' ∧ x ≠ '&') (t : Text) :
    scan false false [] (c ++ '|' :: x :: t) = .pipe false c (x :: t) := by
  rw [scan_append (i := false) [] _ hc.bar hc.semicolon hc.simpleCmd.amp, scan, if_pos rfl,
    if_neg Bool.false_ne_true, scan, if_neg hx.1, if_pos rfl, if_neg hx.2.2, List.nil_append,
    List.dropLast_concat]

end PipeCmd

theorem pipeText_cons (hd : sh.PipeCmd d) (rest : List Text) :
    ∃ x t, (x ≠ '|' ∧ x ≠ ';' ∧ x ≠ '&') ∧ pipeText d rest = x :: t := by
  cases d with
  | nil => exact absurd rfl hd.ne_nil
  | cons x d =>
    refine ⟨x, ?_⟩
    cases rest with
    | nil => exact ⟨d, hd.chars List.mem_cons_self, rfl⟩
    | cons e rest => exact ⟨_, hd.chars List.mem_cons_self, rfl⟩

/-- The file is the last parameter of the first command of what is left. -/
theorem pipeSecond_pipeText (hd : sh.PipeCmd d) (rest : List Text) :
    pipeSecond (pipeText d rest) = pipeText (stageText d rest) rest := by
  have h : ∀ d' : Text, (∀ x ∈ d', x ≠ '|' ∧ x ≠ ';' ∧ x ≠ '&') →
      pipeSecond (pipeText d' rest) = pipeText (stageText d' rest) rest := by
    intro d' hd'
    induction d' with
    | nil => cases rest <;> rfl
    | cons x d' ih =>
      rw [List.forall_mem_cons] at hd'
      have hx := not_isOperator hd'.1
      cases rest with
      | nil =>
        change (if isOperator (x :: d') then _ else x :: pipeSecond d') = _
        rw [hx, if_neg Bool.false_ne_true]
        exact congrArg (x :: ·) (ih hd'.2)
      | cons e rest =>
        change (if isOperator (x :: (d' ++ '|' :: pipeText e rest)) then _ else
          x :: pipeSecond (d' ++ '|' :: pipeText e rest)) = _
        rw [hx, if_neg Bool.false_ne_true]
        exact congrArg (x :: ·) (ih hd'.2)
  exact h d fun x hx => hd.chars hx

/-- A text that does not end with `fi` is not an `if` statement. -/
theorem tshellIfElse_getLast {x : Char} (hx : x ≠ 'i') (hblank : x ≠ ' ') (ht : t.getLast? = some x) :
    tshellIfElse t = .pass ∨ tshellIfElse t = .error := by
  have hlast : (t.dropWhile (· = ' ')).getLast? = some x := by
    have hne : t.dropWhile (· = ' ') ≠ [] := by
      intro h
      have := List.dropWhile_eq_nil_iff.mp h x (List.mem_of_getLast? ht)
      exact hblank (of_decide_eq_true this)
    rw [← ht]
    conv_rhs => rw [← List.takeWhile_append_dropWhile (p := (· = ' ')) (l := t)]
    rw [List.getLast?_append_of_ne_nil _ hne]
  have hfi : kwFi.isSuffixOf (t.dropWhile (· = ' ')) = false := by
    rw [← Bool.not_eq_true, List.isSuffixOf_iff_suffix]
    rintro ⟨y, hy⟩
    rw [← hy, List.getLast?_append_of_ne_nil _ (by decide)] at hlast
    exact hx (Option.some.inj hlast).symm
  unfold tshellIfElse
  dsimp only
  rw [hfi, if_neg Bool.false_ne_true]
  split_ifs
  · exact .inr rfl
  · exact .inl rfl

/-- A text behind a command keeps it from being an `if` statement. -/
theorem PipeCmd.ifFree {x y : Char} (hc : sh.PipeCmd c) (hx : isSeparator x = true)
    (hbracket : x ≠ '\x7d') (hu : '$' ∉ u) (hlast : (x :: u).getLast? = some y) (hy : y ≠ 'i')
    (hblank : y ≠ ' ') :
    sh.shell.IfFree (c ++ x :: u) := by
  intro w r hr
  rw [hc.simpleCmd.dropWhile_append] at hr
  obtain ⟨-, b, hb, hif⟩ := Tshell.checked_ok hr
  obtain ⟨b₀, _, rfl⟩ := strConvertVar_append hx hbracket hu hb
  rw [← hif]
  refine tshellIfElse_getLast hy hblank ?_
  rw [List.getLast?_append_of_ne_nil _ (List.cons_ne_nil _ _), hlast]

theorem PipeCmd.simpleCmd_redirLog (hc : sh.PipeCmd c) : SimpleCmd (c ++ redirLog) where
  bar := by
    have hbar : '|' ∉ redirLog := by decide
    rw [List.mem_append, not_or]
    exact ⟨hc.bar, hbar⟩
  semicolon := by
    have hsemicolon : ';' ∉ redirLog := by decide
    rw [List.mem_append, not_or]
    exact ⟨hc.semicolon, hsemicolon⟩
  amp h := by
    have hamp : '&' ∉ redirLog := by decide
    rcases List.mem_append.mp (h.subset List.mem_cons_self) with h | h
    · exact hc.amp h
    · exact hamp h
  nonempty := by
    rw [hc.simpleCmd.dropWhile_append]
    exact List.append_ne_nil_of_left_ne_nil hc.nonempty _
  comment := by
    rw [hc.simpleCmd.dropWhile_append, List.head?_append_of_ne_nil _ hc.nonempty]
    exact hc.comment

theorem PipeCmd.ifFree_redirLog (hc : sh.PipeCmd c) : sh.shell.IfFree (c ++ redirLog) :=
  hc.ifFree (by decide) (by decide) (by decide) (by decide : _ = some 'g') (by decide) (by decide)

theorem PipeCmd.ifFree_stageText (hd : sh.PipeCmd d) (h : rest = []) :
    sh.shell.IfFree (Commands.stageText d rest) := by
  subst h
  exact hd.ifFree (by decide) (by decide) (by decide) (by decide : _ = some 'g') (by decide)
    (by decide)

/-- What the code makes of a pipeline. -/
def piped (sh : Commands σ) (w : World σ) (text : Text) : List Text → ℤ × World σ
  | [] => sh.shell.command w text
  | d :: rest =>
    match sh.shell.checked w ((pipeText text (d :: rest)).dropWhile isWhite) with
    | .error e => (e, w)
    | .ok .pass =>
      let (r, w) := sh.shell.command w (text ++ redirLog)
      if r < 0 then (r, (sh.shell.command w rmCmd).2)
      else
        let (r, w) := piped sh w (stageText d rest) rest
        (r, (sh.shell.command w rmCmd).2)
    | .ok _ => (-2200, w)

theorem rmCmd_simpleCmd : SimpleCmd rmCmd :=
  ⟨by decide, by decide, by decide, by decide, by decide⟩

theorem strConvertVar_rmCmd (v : ShellVars) : strConvertVar v rmCmd = .ok rmCmd :=
  strConvertVar_self v (by decide) (by decide)

theorem rmCmd_passes : sh.shell.Passes w rmCmd := by
  have hdrop : rmCmd.dropWhile isWhite = rmCmd := rfl
  unfold Tshell.Passes Tshell.checked
  rw [hdrop, if_neg (by decide), strConvertVar_rmCmd]
  rfl

theorem rmCmd_ifFree : sh.shell.IfFree rmCmd := by
  intro w r hr
  exact .inl (Except.ok.inj (hr.symm.trans rmCmd_passes))

theorem exec_rmCmd (sh : Commands σ) (fuel : ℕ) (w : World σ) : ∃ r cmds,
    sh.shell.exec (fuel + 1) w rmCmd = some (r, (sh.shell.command w rmCmd).2, cmds) :=
  ⟨_, _, Tshell.exec_command rmCmd_simpleCmd rmCmd_ifFree fuel⟩

section Split
variable {fuel : ℕ} {first second : Text} (hne : t.dropWhile isWhite ≠ [])
  (hcomment : (t.dropWhile isWhite).head? ≠ some '#') (hpass : sh.shell.Passes w t)
  (hscan : scan false false [] (t.dropWhile isWhite) = .pipe false first second)
  {r : ℤ} {w₁ : World σ} {cmds : List Text}
  (hfirst : sh.shell.exec (fuel + 1) w (pipeFirst false first) = some (r, w₁, cmds))
include hne hcomment hpass hscan hfirst

/-- A pipeline ends with a command that fails. -/
theorem exec_pipe_fails (hr : r < 0) :
    ∃ cmds', sh.shell.exec (fuel + 2) w t = some (r, (sh.shell.command w₁ rmCmd).2, cmds') := by
  obtain ⟨rrm, cmdsrm, hrm⟩ := sh.exec_rmCmd fuel w₁
  unfold Tshell.exec
  dsimp only
  obtain ⟨hlen, cCommandBuffer, hconvert, hif⟩ := Tshell.checked_ok hpass
  rw [if_neg (not_or.mpr ⟨hne, hcomment⟩), if_neg hlen, hconvert]
  dsimp only
  rw [hif, hscan]
  simp [hfirst, hr, hrm]

theorem exec_pipe_runs (hr : ¬ r < 0) {r₂ : ℤ} {w₂ : World σ} {cmds₂ : List Text}
    (hsecond : sh.shell.exec (fuel + 1) w₁ (pipeSecond second) = some (r₂, w₂, cmds₂)) :
    ∃ cmds', sh.shell.exec (fuel + 2) w t = some (r₂, (sh.shell.command w₂ rmCmd).2, cmds') := by
  obtain ⟨rrm, cmdsrm, hrm⟩ := sh.exec_rmCmd fuel w₂
  unfold Tshell.exec
  dsimp only
  obtain ⟨hlen, cCommandBuffer, hconvert, hif⟩ := Tshell.checked_ok hpass
  rw [if_neg (not_or.mpr ⟨hne, hcomment⟩), if_neg hlen, hconvert]
  dsimp only
  rw [hif, hscan]
  simp [hfirst, hr, hsecond, hrm]

end Split

/-- The code takes a pipeline apart at its first `|`. -/
theorem exec_pipeText (htext : sh.PipeCmd text) (hrest : ∀ d ∈ rest, sh.PipeCmd d)
    (hlast : rest = [] → sh.shell.IfFree text) (hif : sh.NoIfs text rest) {fuel : ℕ}
    (hfuel : rest.length < fuel) :
    ∃ cmds, sh.shell.exec fuel w (pipeText text rest) =
      some ((sh.piped w text rest).1, (sh.piped w text rest).2, cmds) := by
  induction rest generalizing text w fuel with
  | nil =>
    obtain ⟨fuel, rfl⟩ := Nat.exists_eq_add_of_lt hfuel
    exact ⟨_, Tshell.exec_command htext.simpleCmd (hlast rfl) _⟩
  | cons d rest ih =>
    rw [List.forall_mem_cons] at hrest
    rw [List.length_cons] at hfuel
    obtain ⟨fuel, rfl⟩ : ∃ n, fuel = n + 2 := ⟨fuel - 2, by omega⟩
    obtain ⟨x, u, hx, hd⟩ := pipeText_cons hrest.1 rest
    have hdrop : (pipeText text (d :: rest)).dropWhile isWhite =
        text.dropWhile isWhite ++ '|' :: pipeText d rest := htext.simpleCmd.dropWhile_append _
    have hne : (pipeText text (d :: rest)).dropWhile isWhite ≠ [] := by
      rw [hdrop]
      exact List.append_ne_nil_of_left_ne_nil htext.nonempty _
    have hcomment : ((pipeText text (d :: rest)).dropWhile isWhite).head? ≠ some '#' := by
      rw [hdrop, List.head?_append_of_ne_nil _ htext.nonempty]
      exact htext.comment
    unfold piped
    cases hcheck : sh.shell.checked w ((pipeText text (d :: rest)).dropWhile isWhite) with
    | error e => exact ⟨_, Tshell.exec_error hne hcomment hcheck⟩
    | ok r =>
      rcases hif.1 w r hcheck with rfl | rfl
      · have hscan : scan false false [] ((pipeText text (d :: rest)).dropWhile isWhite) =
            .pipe false (text.dropWhile isWhite) (pipeText d rest) := by
          rw [hdrop, hd]
          exact htext.strip.scan_pipe hx u
        have hfirst : sh.shell.exec (fuel + 1) w (pipeFirst false (text.dropWhile isWhite)) =
            some ((sh.shell.command w (text ++ redirLog)).1, (sh.shell.command w (text ++ redirLog)).2,
              [text.dropWhile isWhite ++ redirLog]) := by
          have hcmd : (text ++ redirLog).dropWhile isWhite = text.dropWhile isWhite ++ redirLog :=
            htext.simpleCmd.dropWhile_append _
          have h : sh.shell.exec (fuel + 1) w ((text ++ redirLog).dropWhile isWhite) = _ :=
            Tshell.exec_command htext.simpleCmd_redirLog.strip htext.ifFree_redirLog.strip fuel
          rw [Tshell.command_strip, List.dropWhile_idempotent, hcmd] at h
          exact h
        dsimp only
        by_cases hr : (sh.shell.command w (text ++ redirLog)).1 < 0
        · rw [if_pos hr]
          exact exec_pipe_fails hne hcomment hcheck hscan hfirst hr
        · rw [if_neg hr]
          obtain ⟨cmds, hsecond⟩ := ih (w := (sh.shell.command w (text ++ redirLog)).2)
            (hrest.1.stageText rest) hrest.2 hrest.1.ifFree_stageText hif.2
            (show rest.length < fuel + 1 by omega)
          rw [← pipeSecond_pipeText hrest.1] at hsecond
          exact exec_pipe_runs hne hcomment hcheck hscan hfirst hr hsecond
      · exact ⟨_, Tshell.exec_ifError hne hcomment hcheck⟩

/-! ## What the commands of a pipeline do -/

theorem simple_call {b kw : Text} {ps : List Text} {std : Std}
    (hread : sh.readCmd w.state (strFormat false false false (strDelCRLF b)) = some (kw, ps))
    (hredirs : sh.redirs w .terminal ps = (w', some std)) :
    sh.simple w b = sh.call w' std (kw :: ps.takeWhile (isRedir · = false)) := by
  unfold simple wrapper
  dsimp only
  rw [hread]
  dsimp only
  rw [hredirs]

theorem command_simple {b : Text} (hpass : sh.shell.Passes w t)
    (hconvert : strConvertVar (sh.vars w.state) (t.dropWhile isWhite) = .ok b) :
    sh.shell.command w t = sh.simple w b := by
  unfold Tshell.command
  rw [hpass]
  dsimp only [shell]
  rw [hconvert]

/-- A text that passes the checks and is read as the words of a command. -/
theorem command_call {kw : Text} {ps : List Text} {std : Std} (hpass : sh.shell.Passes w t)
    (hreads : sh.reads w.state t = some (kw :: ps))
    (hredirs : sh.redirs w .terminal ps = (w', some std)) :
    sh.shell.command w t = sh.call w' std (kw :: ps.takeWhile (isRedir · = false)) := by
  unfold reads at hreads
  cases hconvert : strConvertVar (sh.vars w.state) (t.dropWhile isWhite) with
  | error e =>
    rw [hconvert] at hreads
    cases hreads
  | ok b =>
    rw [hconvert] at hreads
    obtain ⟨⟨kw', ps'⟩, hread, h⟩ := Option.map_eq_some_iff.mp hreads
    cases h
    rw [command_simple hpass hconvert]
    exact simple_call hread hredirs

/-- Nothing is run on the way from a world to another. -/
def Quiet (w w' : World σ) : Prop := w'.runs = w.runs ∧ w'.screen = w.screen

theorem simple_quiet (sh : Commands σ) (w : World σ) (b : Text) : Quiet w (sh.simple w b).2 ∨
    ∃ kw ps w' std, sh.readCmd w.state (strFormat false false false (strDelCRLF b)) = some (kw, ps) ∧
      sh.redirs w .terminal ps = (w', some std) := by
  unfold simple
  dsimp only
  cases hread : sh.readCmd w.state (strFormat false false false (strDelCRLF b)) with
  | none =>
    left
    dsimp only
    split_ifs <;> exact ⟨rfl, rfl⟩
  | some x =>
    obtain ⟨kw, ps⟩ := x
    dsimp only
    unfold wrapper
    cases hredirs : sh.redirs w .terminal ps with
    | mk w' o =>
      cases o with
      | none => exact .inl (redirs_runs hredirs)
      | some std => exact .inr ⟨kw, ps, w', std, rfl, hredirs⟩

/-- A text is run as a command when it passes the checks and is read as one, and its redirections can
be processed. -/
theorem command_quiet (sh : Commands σ) (w : World σ) (t : Text) : Quiet w (sh.shell.command w t).2 ∨
    ∃ kw ps w' std, sh.shell.Passes w t ∧ sh.reads w.state t = some (kw :: ps) ∧
      sh.redirs w .terminal ps = (w', some std) := by
  by_cases hpass : sh.shell.Passes w t
  · cases hconvert : strConvertVar (sh.vars w.state) (t.dropWhile isWhite) with
    | error e =>
      left
      unfold Tshell.command
      rw [hpass]
      dsimp only [shell]
      rw [hconvert]
      exact ⟨rfl, rfl⟩
    | ok b =>
      rw [command_simple hpass hconvert]
      refine (sh.simple_quiet w b).imp_right ?_
      rintro ⟨kw, ps, w', std, hread, hredirs⟩
      refine ⟨kw, ps, w', std, hpass, ?_, hredirs⟩
      unfold reads
      rw [hconvert]
      dsimp only
      rw [hread]
      rfl
  · left
    unfold Tshell.command
    unfold Tshell.Passes at hpass
    split
    · exact ⟨rfl, rfl⟩
    · next h => exact absurd h hpass
    · exact ⟨rfl, rfl⟩

theorem reads_rmCmd (st : σ) : sh.reads st rmCmd = some [kwRm, logFile] := by
  have hdrop : rmCmd.dropWhile isWhite = rmCmd := rfl
  have hformat : strFormat false false false (strDelCRLF rmCmd) = rmCmd := by decide
  have hkeyword : strKeyword rmCmd = some (kwRm, some logFile) := by decide
  unfold reads
  rw [hdrop, strConvertVar_rmCmd]
  dsimp only
  rw [hformat]
  unfold readCmd
  rw [hkeyword]
  dsimp only
  rw [sh.checkFile_rm]
  rfl

/-- The removal of the file is a run that writes nothing. -/
theorem command_rmCmd (sh : Commands σ) (w : World σ) :
    ∃ x, (sh.shell.command w rmCmd).2.runs = w.runs ++ [x] ∧
    (sh.shell.command w rmCmd).2.screen = w.screen := by
  have hlog : ∀ u ∈ [logFile], NoRedir u := by
    rw [List.forall_mem_singleton]
    exact ⟨by decide, by decide⟩
  have hrm : ∀ log, fsCmdRm false log [kwRm, logFile] = some (unlinkLog log) := fun _ => rfl
  rw [command_call rmCmd_passes (reads_rmCmd _) (redirs_noRedir hlog), takeWhile_noRedir hlog,
    call_runs, call_screen, if_pos (show Std.terminal.stdOut = .terminal from rfl)]
  refine ⟨_, rfl, ?_⟩
  unfold perform
  rw [show Std.terminal.logBusy = false from rfl, hrm]
  exact List.append_nil _

theorem reads_cons {words : List Text} (h : sh.reads st t = some words) :
    ∃ kw ps, words = kw :: ps := by
  unfold reads at h
  split at h
  · cases h
  · obtain ⟨x, _, rfl⟩ := Option.map_eq_some_iff.mp h
    exact ⟨x.1, x.2, rfl⟩

/-- The last command of a pipeline writes on the terminal. -/
theorem command_last {argv : List Text} (hpass : sh.shell.Passes w t)
    (hreads : sh.reads w.state t = some argv) (hargv : ∀ u ∈ argv, NoRedir u) :
    sh.shell.command w t = sh.call w .terminal argv := by
  obtain ⟨kw, ps, rfl⟩ := reads_cons hreads
  rw [List.forall_mem_cons] at hargv
  rw [command_call hpass hreads (redirs_noRedir hargv.2), takeWhile_noRedir hargv.2]

/-- The other commands write to the file. -/
theorem command_staged {argv : List Text} {p : Text} (hpass : sh.shell.Passes w t)
    (hreads : sh.reads w.state t = some (argv ++ [p ++ redirLog])) (hne : argv ≠ [])
    (hargv : ∀ u ∈ argv, NoRedir u) (hp : NoRedir p) (hout : (outOpt p).1 = true)
    (hopen : sh.canOpen w.state logFile = true) : sh.shell.command w t = sh.staged w argv := by
  obtain ⟨kw, ps, rfl⟩ := List.exists_cons_of_ne_nil hne
  rw [List.forall_mem_cons] at hargv
  have hredirs : sh.redirs w .terminal (ps ++ [p ++ redirLog]) = ({ w with log := some [] },
      some (setOut { Std.terminal with logBusy := true } (outOpt p) .log)) := by
    rw [redirs_append hargv.2, redirs_redirLog hp, if_pos hopen]
  rw [List.cons_append] at hreads
  rw [command_call hpass hreads hredirs, takeWhile_redirLog hargv.2]
  exact call_congr _ _ _ (if_pos hout) rfl

theorem noRedir_redirLog {argv : List Text} {p : Text} (htext : sh.PipeCmd text)
    (hreads : sh.reads w.state (text ++ redirLog) = some (argv ++ [p ++ redirLog])) : NoRedir p := by
  obtain ⟨us, p', hwords, _, hp'⟩ := reads_redirLog htext.plain htext.nonempty hreads
  obtain ⟨_, hlast⟩ := List.append_inj' hwords rfl
  rw [List.append_cancel_right (List.cons.inj hlast).1]
  exact hp'

/-- And they do so only in this way. -/
theorem command_redirLog (htext : sh.PipeCmd text) :
    Quiet w (sh.shell.command w (text ++ redirLog)).2 ∨
      (∃ kw, sh.shell.command w (text ++ redirLog) = sh.call w .terminal [kw]) ∨
      ∃ argv p, sh.shell.Passes w (text ++ redirLog) ∧
        sh.reads w.state (text ++ redirLog) = some (argv ++ [p ++ redirLog]) ∧
        sh.canOpen w.state logFile = true ∧
        sh.shell.command w (text ++ redirLog) = sh.call { w with log := some [] }
          (setOut { Std.terminal with logBusy := true } (outOpt p) .log) argv := by
  refine (sh.command_quiet w (text ++ redirLog)).imp_right ?_
  rintro ⟨kw, ps, w', std, hpass, hreads, hredirs⟩
  obtain ⟨us, p, hwords, hus, hp⟩ := reads_redirLog htext.plain htext.nonempty hreads
  cases us with
  | nil =>
    obtain ⟨rfl, rfl⟩ := List.cons.inj hwords
    cases hredirs
    exact .inl ⟨_, command_call hpass hreads rfl⟩
  | cons kw' us =>
    rw [List.cons_append] at hwords
    obtain ⟨rfl, rfl⟩ := List.cons.inj hwords
    rw [List.forall_mem_cons] at hus
    have h := hredirs
    rw [redirs_append hus.2, redirs_redirLog hp] at h
    by_cases hopen : sh.canOpen w.state logFile = true
    · rw [if_pos hopen] at h
      cases h
      refine .inr ⟨kw :: us, p, hpass, hreads, hopen, ?_⟩
      rw [command_call hpass hreads hredirs, takeWhile_redirLog hus.2]
    · rw [if_neg hopen] at h
      cases h

/-- A text runs at most one command. -/
theorem command_runs (sh : Commands σ) (w : World σ) (t : Text) :
    ∃ xs : List Run, (sh.shell.command w t).2.runs = w.runs ++ xs ∧ xs.length ≤ 1 := by
  rcases sh.command_quiet w t with hquiet | ⟨kw, ps, w', std, hpass, hreads, hredirs⟩
  · exact ⟨[], by rw [hquiet.1, List.append_nil], Nat.zero_le 1⟩
  · rw [command_call hpass hreads hredirs, call_runs, (redirs_runs hredirs).1]
    exact ⟨_, rfl, Nat.le_refl 1⟩

/-- And a pipeline at most one for each command, and one for the file of each pipe. -/
theorem piped_runs (sh : Commands σ) (w : World σ) (text : Text) (rest : List Text) :
    ∃ xs : List Run, (sh.piped w text rest).2.runs = w.runs ++ xs ∧
      xs.length ≤ 2 * rest.length + 1 := by
  induction rest generalizing w text with
  | nil => exact sh.command_runs w text
  | cons d rest ih =>
    have hnone : ∃ xs : List Run, w.runs = w.runs ++ xs ∧ xs.length ≤ 2 * (d :: rest).length + 1 :=
      ⟨[], (List.append_nil _).symm, Nat.zero_le _⟩
    unfold piped
    split
    · exact hnone
    · obtain ⟨xs, hxs, hlen⟩ := sh.command_runs w (text ++ redirLog)
      dsimp only
      split_ifs with hr
      · obtain ⟨x, hx, _⟩ := sh.command_rmCmd (sh.shell.command w (text ++ redirLog)).2
        refine ⟨xs ++ [x], ?_, ?_⟩
        · rw [hx, hxs, List.append_assoc]
        · rw [List.length_append, List.length_singleton, List.length_cons]
          omega
      · obtain ⟨ys, hys, hlen'⟩ := ih (sh.shell.command w (text ++ redirLog)).2 (stageText d rest)
        obtain ⟨x, hx, _⟩ := sh.command_rmCmd
          (sh.piped (sh.shell.command w (text ++ redirLog)).2 (stageText d rest) rest).2
        refine ⟨xs ++ ys ++ [x], ?_, ?_⟩
        · rw [hx, hys, hxs, List.append_assoc, List.append_assoc, List.append_assoc]
        · rw [List.length_append, List.length_append, List.length_singleton, List.length_cons]
          omega
    · exact hnone

/-! ## Runs of a pipeline -/

section Follows
variable {w₁ w₂ w₃ : World σ} {e x : Run} {runs : List Run} {last : Text} {k : ℕ}

theorem Follows.cons (hruns₁ : w₁.runs = w.runs ++ [e]) (hscreen₁ : w₁.screen = w.screen)
    (h : Follows w₁ w₂ runs last k) (hruns₃ : w₃.runs = w₂.runs ++ [x])
    (hscreen₃ : w₃.screen = w₂.screen) : Follows w w₃ (e :: runs) last (k + 1) := by
  obtain ⟨hscreen, removals, hlen, hruns⟩ := h
  refine ⟨?_, removals ++ [x], ?_, ?_⟩
  · rw [hscreen₃, hscreen, hscreen₁]
  · rw [List.length_append, hlen, List.length_singleton]
  · rw [hruns₃, hruns, hruns₁]
    simp

theorem Follows.not_refl : ¬ Follows w w (e :: runs) last k := by
  rintro ⟨_, removals, _, hruns⟩
  rw [List.append_assoc, List.self_eq_append_right] at hruns
  cases hruns

/-- As many runs as there have to be cannot come in another way. -/
theorem Follows.of_cons {xs ys : List Run} (h : Follows w w₃ (e :: runs) last (k + 1))
    (hlen : runs.length = k + 1) (hruns₁ : w₁.runs = w.runs ++ xs) (hxs : xs.length ≤ 1)
    (hruns₂ : w₂.runs = w₁.runs ++ ys) (hys : ys.length ≤ 2 * k + 1)
    (hruns₃ : w₃.runs = w₂.runs ++ [x]) (hscreen₁ : xs = [e] → w₁.screen = w.screen)
    (hscreen₃ : w₃.screen = w₂.screen) :
    xs = [e] ∧ Follows w₁ w₂ runs last k := by
  obtain ⟨hscreen, removals, hremovals, hruns⟩ := h
  rw [hruns₃, hruns₂, hruns₁] at hruns
  have hruns : xs ++ (ys ++ [x]) = [e] ++ (runs ++ removals) := by
    simpa [List.append_assoc] using hruns
  have hcount := congrArg List.length hruns
  simp only [List.length_append, List.length_singleton, hlen, hremovals] at hcount
  obtain ⟨rfl, hrest⟩ := List.append_inj hruns (by rw [List.length_singleton]; omega)
  refine ⟨rfl, ?_, removals.dropLast, ?_, ?_⟩
  · rw [← hscreen₃, hscreen, hscreen₁ rfl]
  · rw [List.length_dropLast, hremovals, Nat.add_sub_cancel]
  · have hne : removals ≠ [] := List.ne_nil_of_length_eq_add_one hremovals
    have hys : ys = runs ++ removals.dropLast := by
      rw [← List.dropLast_append_of_ne_nil hne, ← hrest, List.dropLast_concat]
    rw [hruns₂, hys, List.append_assoc]

end Follows

theorem pipeline_length {input last : Text} {appended : List Text} {runs : List Run}
    (h : sh.pipeline st input appended c rest = some (runs, last)) :
    runs.length = rest.length + 1 := by
  induction rest generalizing st input appended c runs with
  | nil =>
    unfold pipeline at h
    split at h
    · cases h
    · cases h
      rfl
  | cons d rest ih =>
    unfold pipeline at h
    split at h
    · cases h
    · dsimp only at h
      split at h
      · cases h
      · next h' =>
        cases h
        rw [List.length_cons, ih h', List.length_cons]

section Staged
variable (w : World σ) (argv : List Text)

theorem staged_runs : (sh.staged w argv).2.runs =
    w.runs ++ [⟨argv, some [], (sh.perform w.state true (some []) argv).1, .log⟩] := call_runs ..

theorem staged_screen : (sh.staged w argv).2.screen = w.screen :=
  (call_screen ..).trans (if_neg (by decide))

theorem staged_state :
    (sh.staged w argv).2.state = (sh.perform w.state true (some []) argv).2.2.2 :=
  call_state _ _ _ fun _ h => nomatch h

end Staged

section Last
variable {input : Text} {appended : List Text}

/-- The last command of a pipeline. -/
theorem pipeline_nil (htext : sh.PipeCmd text) (hc : sh.PipeCmd c) (happ : ∀ u ∈ appended, NoRedir u) :
    (∃ runs last, sh.pipeline w.state input appended c [] = some (runs, last) ∧
      Follows w (sh.piped w text []).2 runs last 0) ↔ sh.Fits w input appended c text [] := by
  unfold pipeline piped Fits
  cases hreads : sh.reads w.state c with
  | none =>
    constructor
    · rintro ⟨_, _, h, _⟩
      cases h
    · rintro ⟨_, h, _⟩
      cases h
  | some words =>
    have hwords : ∀ u ∈ words ++ appended, NoRedir u := by
      intro u hu
      rcases List.mem_append.mp hu with hu | hu
      · exact reads_noRedir hc.plain hreads u hu
      · exact happ u hu
    constructor
    · rintro ⟨runs, last, h, hscreen, removals, hremovals, hruns⟩
      cases h
      rw [List.length_eq_zero_iff.mp hremovals, List.append_nil] at hruns
      rcases sh.command_quiet w text with hquiet | ⟨kw, ps, w', std, hpass, hreads', _⟩
      · rw [hquiet.1, List.self_eq_append_right] at hruns
        cases hruns
      · have hplain := reads_noRedir htext.plain hreads'
        rw [command_last hpass hreads' hplain, call_runs, List.append_cancel_left_eq] at hruns
        obtain ⟨hargv, hinput, _, _⟩ := Run.mk.inj (List.cons.inj hruns).1
        exact ⟨words, rfl, hpass, hargv ▸ hreads', hinput⟩
    · rintro ⟨_, h, hpass, hreads', hlog⟩
      cases h
      refine ⟨_, _, rfl, ?_, [], rfl, ?_⟩
      · rw [command_last hpass hreads' hwords, call_screen,
          if_pos (show Std.terminal.stdOut = .terminal from rfl), hlog]
        rfl
      · rw [command_last hpass hreads' hwords, call_runs, hlog, List.append_nil]
        rfl

end Last

/-- A command that is not the last leaves this behind only when the pipeline goes on as it should. -/
theorem command_eq_staged {argv : List Text} {input output : Text} (htext : sh.PipeCmd text)
    (hruns : (sh.shell.command w (text ++ redirLog)).2.runs =
      w.runs ++ [⟨argv, some input, output, .log⟩]) :
    sh.shell.Passes w (text ++ redirLog) ∧
      (∃ p, sh.reads w.state (text ++ redirLog) = some (argv ++ [p ++ redirLog]) ∧
        (outOpt p).1 = true) ∧
      sh.canOpen w.state logFile = true ∧ input = [] ∧
      sh.shell.command w (text ++ redirLog) = sh.staged w argv := by
  rcases command_redirLog (w := w) htext with
    hquiet | ⟨kw, hcall⟩ | ⟨argv', p, hpass, hreads, hopen, hcall⟩
  · rw [hquiet.1, List.self_eq_append_right] at hruns
    cases hruns
  · rw [hcall, call_runs, List.append_cancel_left_eq] at hruns
    cases (Run.mk.inj (List.cons.inj hruns).1).2.2.2
  · rw [hcall, call_runs, List.append_cancel_left_eq] at hruns
    obtain ⟨rfl, hinput, _, hsink⟩ := Run.mk.inj (List.cons.inj hruns).1
    have hout : (outOpt p).1 = true := by
      by_contra hout
      rw [setOut, if_neg hout] at hsink
      cases hsink
    refine ⟨hpass, ⟨p, hreads, hout⟩, hopen, (Option.some.inj hinput).symm, ?_⟩
    rw [hcall]
    exact call_congr _ _ _ (if_pos hout) rfl

/-- The code runs a pipeline as it should exactly when the pipeline fits. -/
theorem pipeline_iff_fits {input : Text} {appended : List Text} (htext : sh.PipeCmd text)
    (hc : sh.PipeCmd c) (happ : ∀ u ∈ appended, NoRedir u) (hrest : ∀ d ∈ rest, sh.PipeCmd d) :
    (∃ runs last, sh.pipeline w.state input appended c rest = some (runs, last) ∧
      Follows w (sh.piped w text rest).2 runs last rest.length) ↔
      sh.Fits w input appended c text rest := by
  induction rest generalizing w text c input appended with
  | nil => exact pipeline_nil htext hc happ
  | cons d rest ih =>
    rw [List.forall_mem_cons] at hrest
    have hlog : ∀ u ∈ [logFile], NoRedir u := by
      rw [List.forall_mem_singleton]
      exact ⟨by decide, by decide⟩
    unfold pipeline Fits
    cases hreads : sh.reads w.state c with
    | none =>
      constructor
      · rintro ⟨_, _, h, _⟩
        cases h
      · rintro ⟨_, h, _⟩
        cases h
    | some words =>
      have hargv : ∀ u ∈ words ++ appended, NoRedir u := by
        intro u hu
        rcases List.mem_append.mp hu with hu | hu
        · exact reads_noRedir hc.plain hreads u hu
        · exact happ u hu
      have hne : words ++ appended ≠ [] := by
        obtain ⟨kw, ps, rfl⟩ := reads_cons hreads
        exact List.cons_ne_nil _ _
      dsimp only
      constructor
      · rintro ⟨runs, last, hpipe, hfollows⟩
        split at hpipe
        · cases hpipe
        · next runs' last' hpipe' =>
          cases hpipe
          unfold piped at hfollows
          split at hfollows
          · exact absurd hfollows Follows.not_refl
          · next hlevel =>
            obtain ⟨xs, hxs, hxslen⟩ := sh.command_runs w (text ++ redirLog)
            have hscreen : ∀ output, xs = [⟨words ++ appended, some input, output, .log⟩] →
                (sh.shell.command w (text ++ redirLog)).2.screen = w.screen := by
              rintro _ rfl
              rw [(command_eq_staged htext hxs).2.2.2.2]
              exact staged_screen ..
            dsimp only at hfollows
            split_ifs at hfollows with hr
            · obtain ⟨x, hx, hxscreen⟩ := sh.command_rmCmd (sh.shell.command w (text ++ redirLog)).2
              obtain ⟨_, hstops⟩ := hfollows.of_cons (pipeline_length hpipe') hxs hxslen
                (List.append_nil _).symm (Nat.zero_le _) hx (hscreen _) hxscreen
              obtain ⟨e, runs', rfl⟩ := List.exists_cons_of_ne_nil
                (List.ne_nil_of_length_eq_add_one (pipeline_length hpipe'))
              exact absurd hstops Follows.not_refl
            · obtain ⟨ys, hys, hyslen⟩ :=
                sh.piped_runs (sh.shell.command w (text ++ redirLog)).2 (stageText d rest) rest
              obtain ⟨x, hx, hxscreen⟩ := sh.command_rmCmd
                (sh.piped (sh.shell.command w (text ++ redirLog)).2 (stageText d rest) rest).2
              obtain ⟨rfl, hgoes⟩ := hfollows.of_cons (pipeline_length hpipe') hxs hxslen
                hys hyslen hx (hscreen _) hxscreen
              obtain ⟨hpass, hp, hopen, rfl, hcmd⟩ := command_eq_staged htext hxs
              rw [hcmd] at hgoes hr
              rw [← staged_state] at hpipe'
              refine ⟨words, rfl, hlevel, hpass, hp, hopen, rfl, Int.not_lt.mp hr, ?_⟩
              exact (ih (hrest.1.stageText rest) hrest.1 hlog hrest.2).mp ⟨_, _, hpipe', hgoes⟩
          · exact absurd hfollows Follows.not_refl
      · rintro ⟨_, hwords, hlevel, hpass, ⟨p, hreads', hout⟩, hopen, rfl, hr, hfits⟩
        cases hwords
        have hp : NoRedir p := noRedir_redirLog htext hreads'
        have hcmd := command_staged hpass hreads' hne hargv hp hout hopen
        obtain ⟨runs, last, hpipe, hfollows⟩ :=
          (ih (hrest.1.stageText rest) hrest.1 hlog hrest.2).mpr hfits
        rw [staged_state] at hpipe
        refine ⟨_, last, by rw [hpipe], ?_⟩
        unfold piped
        rw [show sh.shell.checked w _ = _ from hlevel, hcmd]
        dsimp only
        rw [if_neg (Int.not_lt.mpr hr)]
        obtain ⟨x, hruns, hscreen⟩ := sh.command_rmCmd (sh.piped (sh.staged w (words ++ appended)).2
          (stageText d rest) rest).2
        exact hfollows.cons (staged_runs ..) (staged_screen ..) hruns hscreen

/-- A pipeline is run as it should: each command begins with all the output of the one before it in the
file, the output of the last is on the terminal, and then the file is removed for each pipe. -/
def Piped (sh : Commands σ) (w : World σ) (c : Text) (rest : List Text) : Prop :=
  ∃ runs last, sh.pipeline w.state [] [] c rest = some (runs, last) ∧
    ∃ n, ∀ fuel, n ≤ fuel → ∃ r w' cmds,
      sh.shell.exec fuel w (pipeText c rest) = some (r, w', cmds) ∧ Follows w w' runs last rest.length

section Main
variable (hc : sh.PipeCmd c) (hrest : ∀ e ∈ d :: rest, sh.PipeCmd e) (hif : sh.NoIfs c (d :: rest))
include hc hrest hif

theorem piped_iff : sh.Piped w c (d :: rest) ↔ ∃ runs last,
    sh.pipeline w.state [] [] c (d :: rest) = some (runs, last) ∧
      Follows w (sh.piped w c (d :: rest)).2 runs last (d :: rest).length := by
  unfold Piped
  refine exists_congr fun runs => exists_congr fun last => and_congr_right fun _ => ?_
  have hexec : ∀ fuel, (d :: rest).length < fuel → ∃ cmds,
      sh.shell.exec fuel w (pipeText c (d :: rest)) =
        some ((sh.piped w c (d :: rest)).1, (sh.piped w c (d :: rest)).2, cmds) := fun fuel hfuel =>
    exec_pipeText hc hrest (fun h => nomatch h) hif hfuel
  constructor
  · rintro ⟨n, h⟩
    obtain ⟨r, w', cmds, hrun, hfollows⟩ := h (max n ((d :: rest).length + 1)) (le_max_left ..)
    obtain ⟨cmds', hrun'⟩ := hexec (max n ((d :: rest).length + 1))
      (le_max_right n ((d :: rest).length + 1))
    rw [hrun] at hrun'
    cases hrun'
    exact hfollows
  · intro hfollows
    refine ⟨(d :: rest).length + 1, fun fuel hfuel => ?_⟩
    obtain ⟨cmds, hrun⟩ := hexec fuel hfuel
    exact ⟨_, _, cmds, hrun, hfollows⟩

end Main

/-! ## Two pipelines -/

/-- A shell without variables in which each command writes `x`. -/
def writesX : Commands Unit where
  vars _ := ⟨fun _ => [], 0⟩
  checkFile _ _ := false
  keywordFind _ _ := true
  varDefine _ _ := (0, ())
  canOpen _ _ := true
  opened _ _ _ := ()
  write _ _ _ := ()
  command _ _ _ := (['x'], 0, ())
  checkFile_rm _ := rfl

theorem writesX_pipeCmd {c : Text} (hchars : '|' ∉ c ∧ ';' ∉ c ∧ '&' ∉ c)
    (hne : c.dropWhile isWhite ≠ []) (hcomment : (c.dropWhile isWhite).head? ≠ some '#')
    (hdollar : '$' ∉ c.dropWhile isWhite) (hlen : (c.dropWhile isWhite).length ≤ maxCommandLen)
    (hplain : '<' ∉ c.dropWhile isWhite ∧ '>' ∉ c.dropWhile isWhite) : writesX.PipeCmd c where
  bar := hchars.1
  semicolon := hchars.2.1
  amp := hchars.2.2
  nonempty := hne
  comment := hcomment
  plain st b hb := by
    rw [strConvertVar_self _ hdollar hlen] at hb
    cases hb
    exact hplain

theorem writesX_ifFree {t : Text} (h : ∀ w, writesX.shell.Passes w t) : writesX.shell.IfFree t := by
  intro w r hr
  exact .inl (Except.ok.inj (hr.symm.trans (h w)))

end Commands
end SylixOS.Shell
