import Mathlib.Data.List.Induction
import SylixOS.Shell.CommandList
import SylixOS.Shell.TshellWrapper

/-! # Quotation marks

Parameters are quoted to be read as they are: a `\` before each `\` and `"` in them, and quotation marks
around them. The blanks between them are brought down to one, the text is cut at blanks that are not in
quotation marks, and the escape characters are left away. The keyword is cut off at the first blank,
whatever quotation marks are in it. A command line is split at its operators before all this, and
quotation marks are not looked at for it. -/

namespace SylixOS.Shell

/-- The marks for an escape character and for quotation marks, behind a character. -/
def quoteStep (marks : Bool × Bool) (c : Char) : Bool × Bool :=
  let trans := if c = '\\' then !marks.1 else marks.1
  (if c = '\\' then trans else false, if c = '"' ∧ trans = false then !marks.2 else marks.2)

/-- The marks at the end of a text. -/
def quoteMarks (t : Text) : Bool × Bool := t.foldl quoteStep (false, false)

/-- A text with `\` before each `\` and `"`. -/
def escape (t : Text) : Text := t.flatMap fun c => if c = '\\' ∨ c = '"' then ['\\', c] else [c]

def quoteArg (t : Text) : Text := '"' :: escape t ++ ['"']

/-- Quoted parameters, each with one blank before it and as many more as are told. -/
def argsText : List (ℕ × Text) → Text
  | [] => []
  | (n, arg) :: args => List.replicate (n + 1) ' ' ++ quoteArg arg ++ argsText args

/-- The keyword and the parameters of a text. -/
def readArgs (t : Text) : Option (Text × List Text) :=
  (strKeyword (strFormat false false false t)).map fun x => (x.1, Commands.params x.2)

/-! ## The passes over a quoted text -/

section Passes
variable {t u : Text} {trans quote startSpace : Bool}

theorem strFormat_cons (c : Char) (t : Text) :
    strFormat trans quote startSpace (c :: t) =
      if c = ' ' ∧ quote = false then
        (if startSpace then [] else [c]) ++ strFormat false quote true t
      else
        c :: strFormat (quoteStep (trans, quote) c).1 (quoteStep (trans, quote) c).2 false t := by
  rw [strFormat]
  by_cases hblank : c = ' '
  · subst hblank
    cases quote <;> cases startSpace <;> simp [quoteStep]
  · cases trans <;> by_cases hescape : c = '\\' <;> by_cases hmark : c = '"' <;>
      simp [quoteStep, hblank, hescape, hmark]

/-- A word is not changed. -/
theorem strFormat_word (ht : ' ' ∉ t) (u : Text) :
    strFormat trans quote false (t ++ u) =
      t ++ strFormat (t.foldl quoteStep (trans, quote)).1 (t.foldl quoteStep (trans, quote)).2 false
        u := by
  induction t generalizing trans quote with
  | nil => rfl
  | cons c t ih =>
    rw [List.mem_cons, not_or] at ht
    rw [List.cons_append, strFormat_cons, if_neg (fun h => ht.1 h.1.symm), ih ht.2]
    rfl

theorem strFormat_blanks (n : ℕ) (t : Text) :
    strFormat false false true (List.replicate n ' ' ++ t) = strFormat false false true t := by
  induction n with
  | zero => rfl
  | succ n ih =>
    rw [List.replicate_succ, List.cons_append, strFormat_cons, if_pos ⟨rfl, rfl⟩]
    exact ih

theorem escape_cons (c : Char) (t : Text) :
    escape (c :: t) = (if c = '\\' ∨ c = '"' then ['\\', c] else [c]) ++ escape t := rfl

/-- In quotation marks all is left as it is, up to their end. -/
theorem strFormat_escape (t u : Text) :
    strFormat false true startSpace (escape t ++ '"' :: u) =
      escape t ++ '"' :: strFormat false false false u := by
  induction t generalizing startSpace with
  | nil => rfl
  | cons c t ih =>
    rw [escape_cons]
    by_cases hescape : c = '\\'
    · subst hescape
      exact congrArg (fun t => '\\' :: '\\' :: t) ih
    · by_cases hmark : c = '"'
      · subst hmark
        exact congrArg (fun t => '\\' :: '"' :: t) ih
      · rw [if_neg (not_or.mpr ⟨hescape, hmark⟩), List.singleton_append, List.cons_append, strFormat_cons,
          if_neg (fun h => Bool.noConfusion h.2)]
        simp [quoteStep, hescape, hmark, ih]

theorem strFormat_quoteArg (t u : Text) :
    strFormat false false startSpace (quoteArg t ++ u) =
      quoteArg t ++ strFormat false false false u := by
  have h : strFormat false true false (escape t ++ '"' :: u) = _ := strFormat_escape t u
  simp [quoteArg, strFormat_cons, quoteStep, h]

theorem strGetToken_escape (t u : Text) :
    strGetToken false true (escape t ++ '"' :: u) =
      (escape t ++ '"' :: (strGetToken false false u).1, (strGetToken false false u).2) := by
  induction t with
  | nil => rfl
  | cons c t ih =>
    rw [escape_cons]
    by_cases hescape : c = '\\'
    · subst hescape
      simp [strGetToken, ih]
    · by_cases hmark : c = '"'
      · subst hmark
        simp [strGetToken, ih]
      · simp [strGetToken, hescape, hmark, ih]

/-- A quoted parameter is taken up to its end. -/
theorem strGetToken_quoteArg (t : Text) :
    strGetToken false false (quoteArg t) = (quoteArg t, none) ∧
      ∀ u, strGetToken false false (quoteArg t ++ ' ' :: u) = (quoteArg t, some u) := by
  refine ⟨?_, fun u => ?_⟩
  · have h := strGetToken_escape t []
    simp [quoteArg, strGetToken, h]
  · have h := strGetToken_escape t (' ' :: u)
    simp [quoteArg, strGetToken, h]

theorem strDelTransChar_quoteArg (t : Text) : strDelTransChar false (quoteArg t) = t := by
  have h : strDelTransChar false (escape t ++ ['"']) = t := by
    induction t with
    | nil => rfl
    | cons c t ih =>
      rw [escape_cons]
      by_cases hescape : c = '\\'
      · subst hescape
        simp [strDelTransChar, ih]
      · by_cases hmark : c = '"'
        · subst hmark
          simp [strDelTransChar, ih]
        · simp [strDelTransChar, hescape, hmark, ih]
  exact h

end Passes

/-! ## Reading back quoted parameters -/

/-- The parameters with single blanks. -/
def single (args : List (ℕ × Text)) : List (ℕ × Text) := args.map fun x => (0, x.2)

theorem strFormat_argsText (trans : Bool) (args : List (ℕ × Text)) :
    strFormat trans false false (argsText args) = argsText (single args) := by
  induction args generalizing trans with
  | nil => rfl
  | cons x args ih =>
    obtain ⟨n, arg⟩ := x
    rw [argsText, List.replicate_succ, List.cons_append, List.cons_append, strFormat_cons,
      if_pos ⟨rfl, rfl⟩, List.append_assoc, strFormat_blanks, strFormat_quoteArg, ih]
    rfl

theorem paramList_argsText (arg : Text) {args : List (ℕ × Text)} {n : ℕ} (hn : args.length < n) :
    Commands.paramList n (quoteArg arg ++ argsText (single args)) = arg :: args.map Prod.snd := by
  induction args generalizing arg n with
  | nil =>
    obtain ⟨n, rfl⟩ := Nat.exists_eq_add_one.mpr hn
    change Commands.paramList (n + 1) (quoteArg arg ++ []) = [arg]
    rw [List.append_nil, Commands.paramList, (strGetToken_quoteArg arg).1]
    exact congrArg (fun t => [t]) (strDelTransChar_quoteArg arg)
  | cons x args ih =>
    obtain ⟨n, rfl⟩ := Nat.exists_eq_add_one.mpr (Nat.zero_lt_of_lt hn)
    change Commands.paramList (n + 1)
      (quoteArg arg ++ ' ' :: (quoteArg x.2 ++ argsText (single args))) = _
    rw [Commands.paramList, (strGetToken_quoteArg arg).2]
    dsimp only
    rw [strDelTransChar_quoteArg, ih x.2 (Nat.lt_of_succ_lt_succ hn)]
    rfl

/-- A keyword is cut off before the parameters. -/
theorem strKeyword_append {kw : Text} (hblank : ' ' ∉ kw) (hlen : kw.length < maxKeywordLen) :
    strKeyword kw = some (kw, none) ∧ ∀ t, strKeyword (kw ++ ' ' :: t) = some (kw, some t) := by
  have hword : ∀ c ∈ kw, decide (c ≠ ' ') = true := by
    intro c hc
    rw [decide_eq_true_eq]
    rintro rfl
    exact hblank hc
  refine ⟨?_, fun t => ?_⟩
  · have htake : kw.takeWhile (· ≠ ' ') = kw := List.takeWhile_eq_self_iff.mpr hword
    have hdrop : kw.dropWhile (· ≠ ' ') = [] := List.dropWhile_eq_nil_iff.mpr hword
    rw [strKeyword, htake, hdrop, if_neg (Nat.not_le_of_lt hlen)]
  · have htake : (kw ++ ' ' :: t).takeWhile (· ≠ ' ') = kw := by
      rw [List.takeWhile_append_of_pos hword]
      simp
    have hdrop : (kw ++ ' ' :: t).dropWhile (· ≠ ' ') = ' ' :: t := by
      rw [List.dropWhile_append_of_pos hword]
      simp
    rw [strKeyword, htake, hdrop, if_neg (Nat.not_le_of_lt hlen)]

/-- What is read when the quotation marks of the keyword are paired. -/
theorem readArgs_argsText {kw : Text} (hblank : ' ' ∉ kw) (hlen : kw.length < maxKeywordLen)
    (hpaired : (quoteMarks kw).2 = false) {args : List (ℕ × Text)} (hargs : args.length < maxParamNum) :
    readArgs (kw ++ argsText args) = some (kw, args.map Prod.snd) := by
  have hformat : strFormat false false false (kw ++ argsText args) = kw ++ argsText (single args) := by
    rw [strFormat_word hblank]
    change kw ++ strFormat (quoteMarks kw).1 (quoteMarks kw).2 false (argsText args) = _
    rw [hpaired, strFormat_argsText]
  unfold readArgs
  rw [hformat]
  cases args with
  | nil =>
    change (strKeyword (kw ++ [])).map _ = _
    rw [List.append_nil, (strKeyword_append hblank hlen).1]
    rfl
  | cons x args =>
    change (strKeyword (kw ++ ' ' :: (quoteArg x.2 ++ argsText (single args)))).map _ = _
    rw [(strKeyword_append hblank hlen).2]
    have hparams : Commands.paramList (maxParamNum - 1) (quoteArg x.2 ++ argsText (single args)) =
        x.2 :: args.map Prod.snd := by
      refine paramList_argsText x.2 ?_
      rw [List.length_cons] at hargs
      omega
    exact congrArg (fun params => some (kw, params)) hparams

/-- Behind an open quotation mark two blanks before a parameter make a parameter more. -/
theorem readArgs_open {kw : Text} (hblank : ' ' ∉ kw) (hlen : kw.length < maxKeywordLen)
    (hopen : (quoteMarks kw).2 = true) :
    readArgs (kw ++ argsText [(1, [])]) = some (kw, [[], []]) := by
  have hformat : strFormat false false false (kw ++ argsText [(1, [])]) =
      kw ++ argsText [(1, [])] := by
    rw [strFormat_word hblank]
    change kw ++ strFormat (quoteMarks kw).1 (quoteMarks kw).2 false _ = _
    rw [hopen]
    cases (quoteMarks kw).1 <;> rfl
  unfold readArgs
  rw [hformat]
  change (strKeyword (kw ++ ' ' :: [' ', '"', '"'])).map _ = _
  rw [(strKeyword_append hblank hlen).2]
  rfl

/-- All quoted parameters are read back, whatever blanks are between them, exactly when the quotation
marks in the keyword are paired. -/
theorem readArgs_iff {kw : Text} (hblank : ' ' ∉ kw) (hlen : kw.length < maxKeywordLen) :
    (∀ args : List (ℕ × Text), args.length < maxParamNum →
      readArgs (kw ++ argsText args) = some (kw, args.map Prod.snd)) ↔ (quoteMarks kw).2 = false := by
  refine ⟨fun h => ?_, fun h args hargs => readArgs_argsText hblank hlen h hargs⟩
  by_contra hopen
  rw [Bool.not_eq_false] at hopen
  have hread := h [(1, [])] (by decide)
  rw [readArgs_open hblank hlen hopen] at hread
  cases hread

/-- `echo` and the parameters `a  "b\`, an empty one and `r n`. -/
theorem readArgs_iff_echo :
    readArgs (['e', 'c', 'h', 'o'] ++
      argsText [(0, ['a', ' ', ' ', '"', 'b', '\\']), (2, []), (1, ['r', ' ', 'n'])]) =
    some (['e', 'c', 'h', 'o'], [['a', ' ', ' ', '"', 'b', '\\'], [], ['r', ' ', 'n']]) :=
  (readArgs_iff (by decide : ' ' ∉ ['e', 'c', 'h', 'o']) (by decide)).2 (by decide) _ (by decide)

/-- With the keyword `a"`, the two blanks in the parameter `x  y` become one. -/
theorem not_readArgs_open : ¬ ∀ (kw : Text) (args : List (ℕ × Text)), ' ' ∉ kw →
    kw.length < maxKeywordLen → args.length < maxParamNum →
    readArgs (kw ++ argsText args) = some (kw, args.map Prod.snd) := by
  intro h
  have hread := h ['a', '"'] [(0, ['x', ' ', ' ', 'y'])] (by decide) (by decide) (by decide)
  have hcollapse : readArgs (['a', '"'] ++ argsText [(0, ['x', ' ', ' ', 'y'])]) =
      some (['a', '"'], [['x', ' ', 'y']]) := by decide +kernel
  rw [hcollapse] at hread
  exact absurd hread (by decide)

/-! ## Operators in quotation marks -/

/-- Each operator character is in quotation marks or directly behind an escape character. -/
def Guarded (marks : Bool × Bool) : Text → Prop
  | [] => True
  | c :: t =>
    (c = ';' ∨ c = '|' ∨ c = '&' → marks.1 = true ∨ marks.2 = true) ∧ Guarded (quoteStep marks c) t

/-- There is no `;` and no `&&`, and a `|` is at most the last character. -/
structure NoOperator (t : Text) : Prop where
  semicolon : ';' ∉ t
  amp : ¬ ['&', '&'] <:+: t
  bar : '|' ∉ t.dropLast

theorem scan_bar_cons (index2 : Bool) (firstCmd : Text) (c : Char) (t : Text) :
    scan true index2 firstCmd (c :: t) =
      if c = '|' then .or firstCmd.dropLast t
      else if c = '&' then .pipe true firstCmd.dropLast t
      else .pipe false firstCmd.dropLast (c :: t) := by
  rw [scan, if_pos rfl, if_pos rfl]

/-- Behind a `|` a text is always split. -/
theorem scan_bar_eq_none {index2 : Bool} {firstCmd t : Text} :
    scan true index2 firstCmd t = .none ↔ t = [] := by
  cases t with
  | nil => exact ⟨fun _ => rfl, fun _ => rfl⟩
  | cons c t =>
    rw [scan_bar_cons]
    split_ifs <;> simp

theorem amp_infix_cons {c : Char} {t : Text} :
    ['&', '&'] <:+: c :: t ↔ (c = '&' ∧ t.head? = some '&') ∨ ['&', '&'] <:+: t := by
  rw [List.infix_cons_iff, List.cons_prefix_cons, List.singleton_prefix_iff_head?_eq_some, eq_comm]

theorem noOperator_cons {c : Char} {t : Text} : NoOperator (c :: t) ↔
    c ≠ ';' ∧ (c = '&' → t.head? ≠ some '&') ∧ (c = '|' → t = []) ∧ NoOperator t := by
  have hlast : '|' ∈ (c :: t).dropLast ↔ t ≠ [] ∧ ('|' = c ∨ '|' ∈ t.dropLast) := by
    cases t <;> simp
  constructor
  · rintro ⟨hsemi, hamp, hbar⟩
    rw [List.mem_cons, not_or] at hsemi
    rw [amp_infix_cons, not_or, not_and] at hamp
    rw [hlast, not_and_or, not_or] at hbar
    refine ⟨Ne.symm hsemi.1, hamp.1, fun hc => ?_, hsemi.2, hamp.2, ?_⟩
    · by_contra hne
      exact (hbar.resolve_left fun h => h hne).1 hc.symm
    · by_cases hne : t = []
      · subst hne
        exact List.not_mem_nil
      · exact (hbar.resolve_left fun h => h hne).2
  · rintro ⟨hsemi, hamp, hbar, ht⟩
    refine ⟨?_, ?_, ?_⟩
    · rw [List.mem_cons, not_or]
      exact ⟨Ne.symm hsemi, ht.semicolon⟩
    · rw [amp_infix_cons, not_or, not_and]
      exact ⟨hamp, ht.amp⟩
    · rw [hlast]
      rintro ⟨hne, hc | hmem⟩
      · exact hne (hbar hc.symm)
      · exact ht.bar hmem

theorem scan_eq_none {index2 : Bool} {firstCmd t : Text} :
    scan false index2 firstCmd t = .none ↔ NoOperator (if index2 then '&' :: t else t) := by
  induction t generalizing index2 firstCmd with
  | nil =>
    refine ⟨fun _ => ?_, fun _ => rfl⟩
    cases index2 <;> exact ⟨by decide, by decide, by decide⟩
  | cons c t ih =>
    have hamp : NoOperator ('&' :: c :: t) ↔ c ≠ '&' ∧ NoOperator (c :: t) := by
      rw [noOperator_cons]
      simp
    have hindex : NoOperator (if index2 then '&' :: c :: t else c :: t) ↔
        ¬ (index2 = true ∧ c = '&') ∧ NoOperator (c :: t) := by
      cases index2 <;> simp [hamp]
    rw [hindex, noOperator_cons, scan]
    by_cases hbar : c = '|'
    · subst hbar
      rw [if_pos rfl, if_neg (by decide), scan_bar_eq_none]
      constructor
      · rintro rfl
        exact ⟨by simp, by decide, by simp, fun _ => rfl, by decide, by decide, by decide⟩
      · exact fun h => h.2.2.2.1 rfl
    · rw [if_neg hbar, if_neg (by decide)]
      by_cases hand : c = '&'
      · subst hand
        rw [if_pos rfl]
        cases index2 with
        | true => simp
        | false =>
          rw [if_neg (by decide), ih, if_pos rfl, noOperator_cons]
          simp
      · rw [if_neg hand]
        by_cases hsemi : c = ';'
        · rw [if_pos hsemi]
          simp [hsemi]
        · rw [if_neg hsemi, ih, if_neg (by decide)]
          simp [hbar, hand, hsemi]

/-- `__TTINY_SHELL_BG_JOIN` and `__TTINY_SHELL_BG_ASYNC`. -/
def isBg (c : Char) : Bool := c = '^' || c = '&'

/-- `__tshellPreTreatedBg`: the text that the keyword is taken from, which has no background signs at its
end, and whether it is to be run in the background with or without waiting for it. -/
def preTreatedBg (cCommand : Text) : Text × Bool × Bool :=
  match strFormat false false false (strDelCRLF cCommand) with
  | [] => ([], false, false)
  | c :: t =>
    (c :: t.rdropWhile isBg, (c :: t).getLast? = some '^', (c :: t).getLast? = some '&')

/-- The last character of a text is not taken for a background sign. -/
def KeepsEnd (cCommand : Text) : Prop :=
  ∀ c ∈ (strFormat false false false (strDelCRLF cCommand)).tail.getLast?, isBg c = false

theorem preTreatedBg_eq_format {b : Text} :
    (preTreatedBg b).1 = strFormat false false false (strDelCRLF b) ↔ KeepsEnd b := by
  unfold preTreatedBg KeepsEnd
  cases strFormat false false false (strDelCRLF b) with
  | nil => simp
  | cons c t =>
    rw [List.cons.injEq, List.rdropWhile_eq_self_iff]
    cases t using List.reverseRecOn <;> simp

namespace Tshell
variable {σ : Type*} (sh : Tshell σ) {st : σ} {t : Text}

/-- One call of `__tshellExec`, which calls itself for no part of the text, hands the whole text to the
keyword. -/
def RunsWhole (st : σ) (t : Text) : Prop :=
  ∃ b, strConvertVar (sh.vars st) (t.dropWhile isWhite) = .ok b ∧
    (∀ run : σ → Text → ℤ × σ, { sh with run := run }.exec 1 st t =
      some ((run st b).1, (run st b).2, [t.dropWhile isWhite])) ∧
    (preTreatedBg b).1 = strFormat false false false (strDelCRLF b)

/-- A text that is not empty, a comment or an `if` statement comes to where it is split. -/
structure ComesToSplit (st : σ) (t : Text) : Prop where
  nonempty : t.dropWhile isWhite ≠ []
  comment : (t.dropWhile isWhite).head? ≠ some '#'
  passes : sh.Passes st t

theorem runsWhole_iff :
    sh.RunsWhole st t ↔ sh.ComesToSplit st t ∧ NoOperator (t.dropWhile isWhite) ∧
      ∀ b, strConvertVar (sh.vars st) (t.dropWhile isWhite) = .ok b → KeepsEnd b := by
  constructor
  · rintro ⟨b, hconvert, hrun, hend⟩
    have h := hrun fun _ _ => (1, st)
    unfold exec at h
    dsimp only at h
    by_cases hskip : t.dropWhile isWhite = [] ∨ (t.dropWhile isWhite).head? = some '#'
    · rw [if_pos hskip] at h
      cases h
    rw [if_neg hskip] at h
    by_cases hlen : maxCommandLen - 1 < (t.dropWhile isWhite).length
    · rw [if_pos hlen] at h
      cases h
    rw [if_neg hlen, hconvert] at h
    dsimp only at h
    rw [not_or] at hskip
    cases hif : tshellIfElse b with
    | error =>
      rw [hif] at h
      cases h
    | exec x =>
      rw [hif] at h
      cases h
    | hang =>
      rw [hif] at h
      cases h
    | pass =>
      rw [hif] at h
      dsimp only at h
      have hpass : sh.Passes st t := by
        unfold Passes checked
        rw [if_neg hlen, hconvert]
        exact congrArg Except.ok hif
      have hnone : scan false false [] (t.dropWhile isWhite) = .none := by
        cases hscan : scan false false [] (t.dropWhile isWhite) with
        | none => rfl
        | _ =>
          rw [hscan] at h
          cases h
      refine ⟨⟨hskip.1, hskip.2, hpass⟩, scan_eq_none.mp hnone, fun b' hb' => ?_⟩
      rw [hconvert] at hb'
      cases hb'
      exact preTreatedBg_eq_format.mp hend
  · rintro ⟨⟨hne, hcomment, hpass⟩, hop, hend⟩
    have hscan : scan false false [] (t.dropWhile isWhite) = .none := scan_eq_none.mpr hop
    cases hconvert : strConvertVar (sh.vars st) (t.dropWhile isWhite) with
    | error e =>
      obtain ⟨-, b, hb, -⟩ := checked_ok hpass
      cases hconvert.symm.trans hb
    | ok b =>
      refine ⟨b, hconvert, fun run => ?_, preTreatedBg_eq_format.mpr (hend b hconvert)⟩
      have hexec : { sh with run := run }.exec 1 st t = _ := exec_none hne hcomment hpass hscan
      have hchecked : { sh with run := run }.checked st (t.dropWhile isWhite) = .ok .pass := hpass
      have hcommand : { sh with run := run }.command st t = run st b := by
        unfold command
        rw [hchecked]
        dsimp only
        rw [hconvert]
      rw [hexec, hcommand]

/-- A command with all its operators in quotation marks or behind escape characters is run as a whole
exactly when it has none, but for a `|` at its end or single `&` inside, and no background sign. -/
theorem guarded_runsWhole_iff :
    (Guarded (false, false) t → sh.RunsWhole st t) ↔
      (Guarded (false, false) t → sh.ComesToSplit st t ∧ NoOperator (t.dropWhile isWhite) ∧
        ∀ b, strConvertVar (sh.vars st) (t.dropWhile isWhite) = .ok b → KeepsEnd b) :=
  imp_congr_right fun _ => sh.runsWhole_iff

/-- `e "a;b"` is run as `e "a` and `b"`. -/
theorem not_runsWhole_guarded :
    Guarded (false, false) ['e', ' ', '"', 'a', ';', 'b', '"'] ∧
      onlyFails.ComesToSplit () ['e', ' ', '"', 'a', ';', 'b', '"'] ∧
      ¬ onlyFails.RunsWhole () ['e', ' ', '"', 'a', ';', 'b', '"'] ∧
      onlyFails.exec 2 () ['e', ' ', '"', 'a', ';', 'b', '"'] =
        some (0, (), [['e', ' ', '"', 'a'], ['b', '"']]) := by
  refine ⟨by simp [Guarded, quoteStep], ⟨by decide, by decide, rfl⟩, ?_, by decide⟩
  rw [runsWhole_iff]
  exact fun h => h.2.1.semicolon (by decide)

end Tshell
end SylixOS.Shell
