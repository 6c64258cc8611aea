import SylixOS.Shell.TshellExec

/-! # Simple commands

A simple command is split in a keyword and parameters. The parameters from the first redirection on are
not passed to the command, and its standard output goes to the file that was opened last for it. Of the
files, that of the pipes is kept apart, since all depends on what is in it and when. -/

namespace SylixOS.Shell

/-- `rm`. -/
def kwRm : Text := ['r', 'm']

/-- `exec`. -/
def kwExec : Text := ['e', 'x', 'e', 'c']

/-- `LW_CFG_SHELL_MAX_PARAMNUM`. -/
def maxParamNum : ℕ := 64

/-- How a file is opened for a redirection. -/
inductive OpenFlag where
  | trunc
  | append
  | keep
  deriving DecidableEq

/-- What a standard descriptor stands for. -/
inductive Sink where
  | terminal
  /-- `/etc/.log`. -/
  | log
  | file (pcFile : Text)
  deriving DecidableEq

/-- The standard descriptors, and whether `/etc/.log` is open. -/
structure Std where
  stdIn : Sink
  stdOut : Sink
  stdErr : Sink
  logBusy : Bool
  deriving DecidableEq

def Std.terminal : Std := ⟨.terminal, .terminal, .terminal, false⟩

/-- What the shell calls: the variables, `__tshellCheckFile` for a keyword that is not reserved,
`__tshellKeywordFind`, `__tshellVarDefine`, `open` and writes to files, and the commands. A command
gets its parameters and what is in `/etc/.log`, and has an output and a result. -/
structure Commands (σ : Type*) where
  vars : σ → ShellVars
  checkFile : σ → Text → Bool
  keywordFind : σ → Text → Bool
  varDefine : σ → Text → ℤ × σ
  canOpen : σ → Text → Bool
  opened : σ → Text → OpenFlag → σ
  write : σ → Text → Text → σ
  command : σ → List Text → Option Text → Text × ℤ × σ
  /-- No file comes before the shell's own `rm`. -/
  checkFile_rm : ∀ st, checkFile st kwRm = false

/-- A command that was run: what was in `/etc/.log` when it began, what it has written, and where to.
-/
structure Run where
  argv : List Text
  input : Option Text
  output : Text
  sink : Sink
  deriving DecidableEq

structure World (σ : Type*) where
  state : σ
  /-- What is in `/etc/.log`, when there is this file. -/
  log : Option Text
  /-- What is written on the terminal. -/
  screen : Text
  runs : List Run

/-- `unlink` of `/etc/.log`. -/
def unlinkLog (log : Option Text) : ℤ × Option Text := (if log.isSome then 0 else -1, none)

/-- `__tshellFsCmdRm` for `/etc/.log`. -/
def fsCmdRm (logBusy : Bool) (log : Option Text) : List Text → Option (ℤ × Option Text)
  | [kw, pcFile] =>
    if kw = kwRm ∧ pcFile = logFile then some (if logBusy then (-1, log) else unlinkLog log) else none
  | kw :: opt :: pcFile :: _ =>
    if kw = kwRm ∧ opt = ['-', 'f'] ∧ pcFile = logFile then some (unlinkLog log) else none
  | _ => none

namespace Commands
variable {σ : Type*} (sh : Commands σ)

/-- A command is run: its output, its result, what is in `/etc/.log` but for the output, and the state.
-/
def perform (st : σ) (logBusy : Bool) (log : Option Text) (argv : List Text) :
    Text × ℤ × Option Text × σ :=
  match fsCmdRm logBusy log argv with
  | some (r, log) => ([], r, log, st)
  | none =>
    let (output, r, st) := sh.command st argv log
    (output, r, log, st)

/-- A command is run with its standard descriptors. -/
def call (w : World σ) (std : Std) (argv : List Text) : ℤ × World σ :=
  let (output, r, log, st) := sh.perform w.state std.logBusy w.log argv
  let w : World σ :=
    { w with state := st, log := log, runs := w.runs ++ [⟨argv, w.log, output, std.stdOut⟩] }
  match std.stdOut with
  | .terminal => (r, { w with screen := w.screen ++ output })
  | .log => (r, { w with log := log.map (· ++ output) })
  | .file pcFile => (r, { w with state := sh.write st pcFile output })

/-- A file is opened. -/
def openFile (w : World σ) (std : Std) (pcFile : Text) (iFlag : OpenFlag) :
    Option (World σ × Std × Sink) :=
  if sh.canOpen w.state pcFile = false then none
  else if pcFile = logFile then
    some ({ w with log := if iFlag = .trunc then some [] else some (w.log.getD []) },
      { std with logBusy := true }, .log)
  else some ({ w with state := sh.opened w.state pcFile iFlag }, std, .file pcFile)

/-- A parameter is a redirection. -/
def isRedir (pcString : Text) : Bool := pcString.contains '<' || pcString.contains '>'

/-- `STD_OUT` and `STD_ERR` of `iOutOpt`, from what is before the `>`. -/
def outOpt (pcString : Text) : Bool × Bool :=
  match pcString with
  | '&' :: _ => (true, true)
  | '2' :: _ => (false, true)
  | _ => (true, false)

def setOut (std : Std) (iOutOpt : Bool × Bool) (sink : Sink) : Std :=
  { std with
    stdOut := if iOutOpt.1 then sink else std.stdOut
    stdErr := if iOutOpt.2 then sink else std.stdErr }

/-- The descriptor that a redirection names instead of a file. -/
def stdGet (std : Std) : Text → Option Sink
  | ['0'] => some std.stdIn
  | ['1'] => some std.stdOut
  | ['2'] => some std.stdErr
  | _ => none

/-- `__tshellRedir` at the `<` or `>` of a parameter. -/
def redir (w : World σ) (std : Std) (pcString : Text) : Option (World σ × Std) :=
  let c := if pcString.contains '<' then '<' else '>'
  let pcRedir := (pcString.dropWhile (· ≠ c)).drop 1
  let append := pcRedir.head? = some c
  let pcFile := if append then pcRedir.drop 1 else pcRedir
  let pcFile := if pcFile.head? = some '&' then pcFile.drop 1 else pcFile
  if pcFile = [] then none
  else if c = '>' then
    let iOutOpt := outOpt (pcString.takeWhile (· ≠ c))
    match stdGet std pcFile with
    | some sink => some (w, setOut std iOutOpt sink)
    | none =>
      match sh.openFile w std pcFile (if append then .append else .trunc) with
      | none => none
      | some (w, std, sink) => some (w, setOut std iOutOpt sink)
  else
    match sh.openFile w std pcFile (if append then .append else .keep) with
    | none => none
    | some (w, std, sink) => some (w, { std with stdIn := sink })

/-- The redirections of a command, up to one that cannot be processed. -/
def redirs (w : World σ) (std : Std) : List Text → World σ × Option Std
  | [] => (w, some std)
  | pcString :: params =>
    if isRedir pcString then
      match sh.redir w std pcString with
      | none => (w, none)
      | some (w, std) => redirs w std params
    else redirs w std params

/-- `__tshellWrapper`. -/
def wrapper (w : World σ) (keyword : Text) (params : List Text) : ℤ × World σ :=
  match sh.redirs w .terminal params with
  | (w, none) => (-1, w)
  | (w, some std) => sh.call w std (keyword :: params.takeWhile (isRedir · = false))

/-- The parameters, of which the last is left as it is when there are too many. -/
def paramList : ℕ → Text → List Text
  | 0, pcParam => [pcParam]
  | n + 1, pcParam =>
    match strGetToken false false pcParam with
    | (token, none) => [strDelTransChar false token]
    | (token, some next) => strDelTransChar false token :: paramList n next

def params : Option Text → List Text
  | none => []
  | some pcParam => paramList (maxParamNum - 1) pcParam

/-- The keyword of a command that there is, and its parameters. A file is run by `exec`. -/
def readCmd (st : σ) (cCommandBuffer : Text) : Option (Text × List Text) :=
  match strKeyword cCommandBuffer with
  | none => none
  | some (cKeyword, pcParam) =>
    if sh.checkFile st cKeyword then some (kwExec, params (some cCommandBuffer))
    else if cKeyword = kwRm || sh.keywordFind st cKeyword then some (cKeyword, params pcParam)
    else none

/-- The end of `__tshellExec`, for a command that is not run in the background. -/
def simple (w : World σ) (cCommand : Text) : ℤ × World σ :=
  let cCommandBuffer := strFormat false false false (strDelCRLF cCommand)
  match sh.readCmd w.state cCommandBuffer with
  | some (cKeyword, params) => sh.wrapper w cKeyword params
  | none =>
    let (ulError, st) := sh.varDefine w.state cCommandBuffer
    if strKeyword cCommandBuffer = none then (-ulError, { w with state := st })
    else (if ulError = 0 then 0 else -90008, { w with state := st })

/-- The shell with these commands. -/
def shell : Tshell (World σ) where
  vars w := sh.vars w.state
  run := sh.simple

/-- The words that a text is read as. -/
def reads (st : σ) (t : Text) : Option (List Text) :=
  match strConvertVar (sh.vars st) (t.dropWhile isWhite) with
  | .error _ => none
  | .ok b => (sh.readCmd st (strFormat false false false (strDelCRLF b))).map fun x => x.1 :: x.2

/-! ## Words with a redirection behind them -/

/-- Neither `<` nor `>` is in a text. -/
def NoRedir (t : Text) : Prop := '<' ∉ t ∧ '>' ∉ t

theorem isRedir_eq_false {t : Text} : isRedir t = false ↔ NoRedir t := by
  simp [isRedir, NoRedir]

theorem NoRedir.of_mem {t u : Text} (ht : NoRedir t) (h : ∀ c ∈ u, c ∈ t ∨ c = '\r' ∨ c = '\n') :
    NoRedir u := by
  constructor
  · intro hc
    rcases h _ hc with h | h | h
    · exact ht.1 h
    · cases h
    · cases h
  · intro hc
    rcases h _ hc with h | h | h
    · exact ht.2 h
    · cases h
    · cases h

theorem NoRedir.of_subset {t u : Text} (ht : NoRedir t) (h : u ⊆ t) : NoRedir u :=
  ht.of_mem fun _ hc => .inl (h hc)

theorem NoRedir.behind {t u : Text} {c : Char} (ht : NoRedir (t ++ c :: u)) : NoRedir u :=
  ht.of_subset (List.Subset.trans (List.subset_cons_self ..) (List.subset_append_right ..))

theorem NoRedir.strDelTransChar {t : Text} (ht : NoRedir t) : NoRedir (strDelTransChar false t) :=
  ht.of_mem fun _ hc => strDelTransChar_mem hc

/-- `>/etc/.log`. -/
def redirLog : Text := '>' :: logFile

theorem bare_logFile : Bare logFile := by decide

theorem bare_redirLog : Bare redirLog := by decide

/-- A blank is not in the redirection. -/
theorem append_redirLog_eq {x token next : Text} (h : x ++ redirLog = token ++ ' ' :: next) :
    ∃ y, next = y ++ redirLog ∧ x = token ++ ' ' :: y := by
  rcases List.append_eq_append_iff.mp h with ⟨u, rfl, hu⟩ | ⟨u, rfl, hu⟩
  · have hblank : ' ' ∈ redirLog := hu ▸ List.mem_append_right u List.mem_cons_self
    exact absurd rfl (bare_redirLog ' ' hblank).1
  · cases u with
    | nil => cases hu
    | cons c u =>
      rw [List.cons_append, List.cons.injEq] at hu
      exact ⟨u, hu.2, by rw [hu.1]⟩

theorem paramList_noRedir {n : ℕ} {x : Text} (hx : NoRedir x) : ∀ u ∈ paramList n x, NoRedir u := by
  induction n generalizing x with
  | zero =>
    intro u hu
    rw [List.mem_singleton.mp hu]
    exact hx
  | succ n ih =>
    unfold paramList
    have hspec := strGetToken_spec false false x
    generalize strGetToken false false x = r at hspec ⊢
    rcases r with ⟨token, _ | next⟩
    · have hspec : x = token := hspec
      intro u hu
      rw [List.mem_singleton.mp hu, ← hspec]
      exact hx.strDelTransChar
    · have hspec : x = token ++ ' ' :: next := hspec
      rw [hspec] at hx
      intro u hu
      rcases List.mem_cons.mp hu with rfl | hu
      · exact (hx.of_subset (List.subset_append_left ..)).strDelTransChar
      · exact ih hx.behind u hu

/-- The redirection is the end of the last parameter. -/
theorem paramList_redirLog (n : ℕ) {x : Text} (hx : NoRedir x) :
    ∃ us p, paramList n (x ++ redirLog) = us ++ [p ++ redirLog] ∧ (∀ u ∈ us, NoRedir u) ∧
      NoRedir p := by
  induction n generalizing x with
  | zero => exact ⟨[], x, rfl, (fun _ h => nomatch h), hx⟩
  | succ n ih =>
    unfold paramList
    have hspec := strGetToken_spec false false (x ++ redirLog)
    generalize strGetToken false false (x ++ redirLog) = r at hspec ⊢
    rcases r with ⟨token, _ | next⟩
    · have hspec : x ++ redirLog = token := hspec
      refine ⟨[], SylixOS.Shell.strDelTransChar false x, ?_, (fun _ h => nomatch h),
        hx.strDelTransChar⟩
      rw [← hspec]
      exact congrArg (fun u => [u]) (strDelTransChar_append bare_logFile)
    · obtain ⟨y, rfl, rfl⟩ := append_redirLog_eq hspec
      obtain ⟨us, p, hparams, hus, hp⟩ := ih hx.behind
      refine ⟨SylixOS.Shell.strDelTransChar false token :: us, p, ?_, ?_, hp⟩
      · dsimp only
        rw [hparams, List.cons_append]
      · rw [List.forall_mem_cons]
        exact ⟨(hx.of_subset (List.subset_append_left ..)).strDelTransChar, hus⟩

variable {sh : Commands σ} {st : σ}

theorem readCmd_noRedir {x kw : Text} {ps : List Text} (hx : NoRedir x)
    (h : sh.readCmd st x = some (kw, ps)) : ∀ u ∈ kw :: ps, NoRedir u := by
  unfold readCmd strKeyword at h
  split_ifs at h with hlen
  dsimp only at h
  have hkw : NoRedir (x.takeWhile (· ≠ ' ')) := hx.of_subset (List.takeWhile_subset _)
  rw [List.forall_mem_cons]
  split_ifs at h
  · cases h
    exact ⟨⟨by decide, by decide⟩, paramList_noRedir hx⟩
  · cases h
    refine ⟨hkw, ?_⟩
    cases hparam : x.dropWhile (· ≠ ' ') with
    | nil => exact fun _ h => nomatch h
    | cons c pcParam =>
      refine paramList_noRedir (hx.of_subset ?_)
      exact List.Subset.trans (List.subset_cons_self ..) (hparam ▸ List.dropWhile_subset _)

/-- The redirection is the end of the last word. -/
theorem readCmd_redirLog {x kw : Text} {ps : List Text} (hx : NoRedir x)
    (h : sh.readCmd st (x ++ redirLog) = some (kw, ps)) :
    ∃ us p, kw :: ps = us ++ [p ++ redirLog] ∧ (∀ u ∈ us, NoRedir u) ∧ NoRedir p := by
  unfold readCmd strKeyword at h
  split_ifs at h with hlen
  dsimp only at h
  split_ifs at h
  · cases h
    obtain ⟨us, p, hparams, hus, hp⟩ := paramList_redirLog (maxParamNum - 1) hx
    refine ⟨kwExec :: us, p, ?_, ?_, hp⟩
    · exact congrArg (kwExec :: ·) hparams
    · rw [List.forall_mem_cons]
      exact ⟨⟨by decide, by decide⟩, hus⟩
  · cases h
    have hsplit := List.takeWhile_append_dropWhile (p := (· ≠ ' ')) (l := x ++ redirLog)
    have hhead := List.head?_dropWhile_not (· ≠ ' ') (x ++ redirLog)
    generalize (x ++ redirLog).takeWhile (· ≠ ' ') = kw at hsplit ⊢
    generalize (x ++ redirLog).dropWhile (· ≠ ' ') = rest at hsplit hhead ⊢
    cases rest with
    | nil =>
      rw [List.append_nil] at hsplit
      exact ⟨[], x, by rw [hsplit]; rfl, (fun _ h => nomatch h), hx⟩
    | cons c next =>
      obtain rfl : c = ' ' := by simpa using hhead
      obtain ⟨y, rfl, rfl⟩ := append_redirLog_eq hsplit.symm
      obtain ⟨us, p, hparams, hus, hp⟩ := paramList_redirLog (maxParamNum - 1) hx.behind
      refine ⟨kw :: us, p, congrArg (kw :: ·) hparams, ?_, hp⟩
      rw [List.forall_mem_cons]
      exact ⟨hx.of_subset (List.subset_append_left ..), hus⟩

/-- Whatever a text is converted to, it has no redirection in it. -/
def Plain (sh : Commands σ) (t : Text) : Prop :=
  ∀ st b, strConvertVar (sh.vars st) (t.dropWhile isWhite) = .ok b → NoRedir b

theorem strFormat_noRedir {b : Text} (hb : NoRedir b) :
    NoRedir (strFormat false false false (strDelCRLF b)) :=
  hb.of_subset (List.Subset.trans strFormat_sublist.subset (List.rdropWhile_prefix _ _).subset)

theorem reads_noRedir {t : Text} {ws : List Text} (ht : sh.Plain t) (h : sh.reads st t = some ws) :
    ∀ u ∈ ws, NoRedir u := by
  unfold reads at h
  cases hconvert : strConvertVar (sh.vars st) (t.dropWhile isWhite) with
  | error e =>
    rw [hconvert] at h
    cases h
  | ok b =>
    rw [hconvert] at h
    obtain ⟨⟨kw, ps⟩, hread, rfl⟩ := Option.map_eq_some_iff.mp h
    exact readCmd_noRedir (strFormat_noRedir (ht st b hconvert)) hread

theorem strDelCRLF_redirLog (b : Text) : strDelCRLF (b ++ redirLog) = b ++ redirLog := by
  have hlast : b ++ redirLog = b ++ redirLog.dropLast ++ ['g'] := by
    rw [List.append_assoc]
    rfl
  unfold strDelCRLF
  rw [hlast]
  exact List.rdropWhile_concat_neg _ _ _ (by decide)

/-- The redirection behind a command is the end of its last word. -/
theorem reads_redirLog {t : Text} {ws : List Text} (ht : sh.Plain t)
    (hne : t.dropWhile isWhite ≠ []) (h : sh.reads st (t ++ redirLog) = some ws) :
    ∃ us p, ws = us ++ [p ++ redirLog] ∧ (∀ u ∈ us, NoRedir u) ∧ NoRedir p := by
  unfold reads at h
  rw [List.dropWhile_append, if_neg (by rwa [List.isEmpty_iff])] at h
  cases hconvert : strConvertVar (sh.vars st) (t.dropWhile isWhite ++ redirLog) with
  | error e =>
    rw [hconvert] at h
    cases h
  | ok b =>
    rw [hconvert] at h
    obtain ⟨b, hb, rfl⟩ := strConvertVar_append (by decide) (by decide) (by decide) hconvert
    obtain ⟨⟨kw, ps⟩, hread, rfl⟩ := Option.map_eq_some_iff.mp h
    change sh.readCmd st (strFormat false false false (strDelCRLF (b ++ redirLog))) = _ at hread
    rw [strDelCRLF_redirLog, strFormat_append bare_redirLog] at hread
    exact readCmd_redirLog ((ht st b hb).of_subset strFormat_sublist.subset) hread

/-! ## What a simple command does -/

variable {w w' : World σ} {std std' : Std}

theorem redirs_noRedir {ps : List Text} (hps : ∀ u ∈ ps, NoRedir u) :
    sh.redirs w std ps = (w, some std) := by
  induction ps with
  | nil => rfl
  | cons u ps ih =>
    rw [List.forall_mem_cons] at hps
    unfold redirs
    rw [isRedir_eq_false.mpr hps.1]
    exact ih hps.2

theorem redirs_append {ps : List Text} (hps : ∀ u ∈ ps, NoRedir u) (u : Text) :
    sh.redirs w std (ps ++ [u]) = sh.redirs w std [u] := by
  induction ps with
  | nil => rfl
  | cons x ps ih =>
    rw [List.forall_mem_cons] at hps
    rw [List.cons_append, redirs, isRedir_eq_false.mpr hps.1]
    exact ih hps.2

theorem isRedir_redirLog (p : Text) : isRedir (p ++ redirLog) = true := by
  simp [isRedir, redirLog]

/-- The redirection opens `/etc/.log`. -/
theorem redir_redirLog {p : Text} (hp : NoRedir p) :
    sh.redir w std (p ++ redirLog) =
      match sh.openFile w std logFile .trunc with
      | none => none
      | some (w, std, sink) => some (w, setOut std (outOpt p) sink) := by
  have hless : (p ++ redirLog).contains '<' = false := by
    have hlog : '<' ∉ redirLog := by decide
    rw [← Bool.not_eq_true, List.contains_iff_mem, List.mem_append, not_or]
    exact ⟨hp.1, hlog⟩
  have hpos : ∀ c ∈ p, decide (c ≠ '>') = true := fun c hc =>
    decide_eq_true fun h => hp.2 (h ▸ hc)
  have hdrop : (p ++ redirLog).dropWhile (· ≠ '>') = redirLog := List.dropWhile_append_of_pos hpos
  have htake : (p ++ redirLog).takeWhile (· ≠ '>') = p :=
    (List.takeWhile_append_of_pos hpos).trans (List.append_nil p)
  have happend : ¬ logFile.head? = some '>' := by decide
  have hamp : ¬ logFile.head? = some '&' := by decide
  have hfile : redirLog.drop 1 = logFile := rfl
  have hne : logFile ≠ [] := by decide
  have hstd : stdGet std logFile = none := rfl
  unfold redir
  simp only [hless, Bool.false_eq_true, if_false, hdrop, htake, happend, hamp, hfile, hne, hstd,
    if_true]

/-- And `/etc/.log` is the standard output unless a 2 is before it. -/
theorem redirs_redirLog {p : Text} (hp : NoRedir p) :
    sh.redirs w .terminal [p ++ redirLog] =
      if sh.canOpen w.state logFile then
        ({ w with log := some [] },
          some (setOut { Std.terminal with logBusy := true } (outOpt p) .log))
      else (w, none) := by
  unfold redirs
  rw [if_pos (isRedir_redirLog p), redir_redirLog hp]
  unfold openFile
  cases sh.canOpen w.state logFile
  · rfl
  · rfl

theorem takeWhile_noRedir {ps : List Text} (hps : ∀ u ∈ ps, NoRedir u) :
    ps.takeWhile (isRedir · = false) = ps := by
  rw [List.takeWhile_eq_self_iff]
  intro u hu
  rw [decide_eq_true_eq]
  exact isRedir_eq_false.mpr (hps u hu)

theorem takeWhile_redirLog {ps : List Text} (hps : ∀ u ∈ ps, NoRedir u) (p : Text) :
    (ps ++ [p ++ redirLog]).takeWhile (isRedir · = false) = ps := by
  have hpos : ∀ u ∈ ps, decide (isRedir u = false) = true := fun u hu =>
    decide_eq_true (isRedir_eq_false.mpr (hps u hu))
  rw [List.takeWhile_append_of_pos hpos, List.takeWhile_cons_of_neg, List.append_nil]
  rw [isRedir_redirLog]
  decide

theorem openFile_runs {pcFile : Text} {iFlag : OpenFlag} {sink : Sink}
    (h : sh.openFile w std pcFile iFlag = some (w', std', sink)) :
    w'.runs = w.runs ∧ w'.screen = w.screen := by
  unfold openFile at h
  split_ifs at h
  all_goals
    cases h
    exact ⟨rfl, rfl⟩

theorem redir_runs {u : Text} (h : sh.redir w std u = some (w', std')) :
    w'.runs = w.runs ∧ w'.screen = w.screen := by
  unfold redir at h
  dsimp only at h
  split_ifs at h
  all_goals
    repeat' split at h
    all_goals grind [openFile_runs]

/-- Redirections do not run anything. -/
theorem redirs_runs {ps : List Text} {o : Option Std} (h : sh.redirs w std ps = (w', o)) :
    w'.runs = w.runs ∧ w'.screen = w.screen := by
  induction ps generalizing w std with
  | nil =>
    cases h
    exact ⟨rfl, rfl⟩
  | cons u ps ih =>
    unfold redirs at h
    split_ifs at h
    · cases hredir : sh.redir w std u with
      | none =>
        rw [hredir] at h
        cases h
        exact ⟨rfl, rfl⟩
      | some x =>
        obtain ⟨w₁, std₁⟩ := x
        rw [hredir] at h
        obtain ⟨hruns, hscreen⟩ := redir_runs hredir
        obtain ⟨hruns', hscreen'⟩ := ih h
        exact ⟨hruns'.trans hruns, hscreen'.trans hscreen⟩
    · exact ih h

section Call
variable (w : World σ) (std : Std) (argv : List Text)

/-- A command that is run is the last run of the world after it. -/
theorem call_runs : (sh.call w std argv).2.runs =
    w.runs ++ [⟨argv, w.log, (sh.perform w.state std.logBusy w.log argv).1, std.stdOut⟩] := by
  unfold call
  dsimp only
  cases std.stdOut <;> rfl

theorem call_screen : (sh.call w std argv).2.screen =
    if std.stdOut = .terminal then w.screen ++ (sh.perform w.state std.logBusy w.log argv).1
    else w.screen := by
  unfold call
  dsimp only
  cases std.stdOut <;> rfl

theorem call_state (hout : ∀ pcFile, std.stdOut ≠ .file pcFile) :
    (sh.call w std argv).2.state = (sh.perform w.state std.logBusy w.log argv).2.2.2 := by
  unfold call
  dsimp only
  cases h : std.stdOut with
  | terminal => rfl
  | log => rfl
  | file pcFile => exact absurd h (hout pcFile)

/-- Standard error makes no difference. -/
theorem call_congr {std' : Std} (hout : std'.stdOut = std.stdOut)
    (hbusy : std'.logBusy = std.logBusy) :
    sh.call w std' argv = sh.call w std argv := by
  unfold call
  rw [hout, hbusy]

end Call

end Commands
end SylixOS.Shell
