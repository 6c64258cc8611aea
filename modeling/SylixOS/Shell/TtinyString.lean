import Mathlib.Data.Int.Notation
import Mathlib.Data.List.DropRight
import Mathlib.Tactic.Common

/-! # Texts of shell commands

A command line is a list of characters without the end mark. Before a command is looked at, the
variables in it are replaced by their values. -/

namespace SylixOS.Shell

abbrev Text := List Char

/-- `LW_CFG_SHELL_MAX_COMMANDLEN`. -/
def maxCommandLen : ℕ := 512

/-- `LW_CFG_SHELL_MAX_VARNAMELEN`. -/
def maxVarNameLen : ℕ := 64

/-- `ERROR_TSHELL_EPARAM` and `ERROR_TSHELL_EVAR`. -/
inductive TshellError where
  | eparam
  | evar
  deriving DecidableEq

def TshellError.code : TshellError → ℤ
  | eparam => 90000
  | evar => 90003

/-- `__TTINY_SHELL_CMD_ISWHITE`. -/
def isWhite (c : Char) : Bool := c = ' ' || c = '\t' || c = '\r' || c = '\n'

/-- `__tshellIsSeparator`. -/
def isSeparator (c : Char) : Bool :=
  ['+', '-', '*', '/', '%', '!', '&', '|', '~', '^', '(', ')', '<', '>', '=', ',', ';', ':', ' ', '"',
    '\\', '\x7d', '\r', '\n', '\t'].contains c

/-- `__tshellVarGetRt`, which has no characters for a variable that there is not, and
`__TTINY_SHELL_GET_ERROR`. -/
structure ShellVars where
  varGetRt : Text → Text
  getError : ℤ

/-- What `__tshellStrConvertVar` has so far: the converted text, the name of the variable that it is
in, the marks, and the bracket that it is passing over. -/
structure ConvertVar where
  cmdOut : Text
  valName : Option Text
  transCharMarks : Bool
  quotationMarks : Bool
  skip : Option Char

namespace ConvertVar

/-- The value of a variable, in quotation marks but for the last error. -/
def value (v : ShellVars) (valName : Text) : Except TshellError Text :=
  if valName = [] then .error .evar
  else if valName = ['?'] then .ok (toString v.getError).toList
  else if v.varGetRt valName = [] then .error .evar
  else .ok ('"' :: v.varGetRt valName ++ ['"'])

def emit (s : ConvertVar) (varValue : Text) : Except TshellError ConvertVar :=
  if maxCommandLen ≤ varValue.length + s.cmdOut.length then .error .eparam
  else .ok { s with cmdOut := s.cmdOut ++ varValue }

/-- A character that is not part of a name. -/
def plain (s : ConvertVar) (c : Char) : Except TshellError ConvertVar :=
  let trans := if c = '\\' then !s.transCharMarks else s.transCharMarks
  let quote := if c = '"' ∧ trans = false then !s.quotationMarks else s.quotationMarks
  let s := { s with transCharMarks := if c = '\\' then trans else false, quotationMarks := quote }
  if c = '$' ∧ quote = false then .ok { s with valName := some [], skip := some '\x7b' }
  else if s.cmdOut.length < maxCommandLen then .ok { s with cmdOut := s.cmdOut ++ [c] }
  else .error .eparam

/-- A character while there is a name, other than `$`. The character that ends the name is looked at a
second time, unless it is a bracket. -/
def named (v : ShellVars) (s : ConvertVar) (valName : Text) (c : Char) :
    Except TshellError ConvertVar := do
  let trans := if c = '\\' then !s.transCharMarks else s.transCharMarks
  let quote := if c = '"' ∧ trans = false then !s.quotationMarks else s.quotationMarks
  let s := { s with transCharMarks := if c = '\\' then trans else false, quotationMarks := quote }
  if isSeparator c = false then
    if maxVarNameLen ≤ valName.length + 1 then .error .evar
    else .ok { s with valName := some (valName ++ [c]) }
  else
    let varValue ← value v valName
    let s ← emit { s with valName := none } varValue
    if c = '\x7d' then .ok { s with skip := some '\x7d' } else s.plain c

def step (v : ShellVars) (s : ConvertVar) (c : Char) : Except TshellError ConvertVar :=
  if s.skip = some c then .ok s
  else
    let s := { s with skip := none }
    match s.valName with
    | none => s.plain c
    | some valName => if c = '$' then s.plain c else s.named v valName c

def start : ConvertVar := ⟨[], none, false, false, none⟩

end ConvertVar

/-- `__tshellStrConvertVar`. -/
def strConvertVar (v : ShellVars) (pcCmd : Text) : Except TshellError Text := do
  let s ← pcCmd.foldlM (ConvertVar.step v) .start
  match s.valName with
  | none => .ok s.cmdOut
  | some valName =>
    let varValue ← ConvertVar.value v valName
    let s ← s.emit varValue
    .ok s.cmdOut

/-- `LW_CFG_SHELL_MAX_KEYWORDLEN`. -/
def maxKeywordLen : ℕ := 64

/-- `__tshellStrDelCRLF`. -/
def strDelCRLF (pcCmd : Text) : Text := pcCmd.rdropWhile fun c => c = '\r' || c = '\n' || c = ' '

/-- `__tshellStrFormat`, which leaves one blank of several that are not in quotation marks. -/
def strFormat (trans quote startSpace : Bool) : Text → Text
  | [] => []
  | c :: pcCommand =>
    let trans := if c = '\\' then !trans else trans
    let next := if c = '\\' then trans else false
    if c = '"' ∧ trans = false then c :: strFormat next (!quote) false pcCommand
    else if c ≠ ' ' ∨ quote then c :: strFormat next quote false pcCommand
    else if startSpace then strFormat next quote true pcCommand
    else c :: strFormat next quote true pcCommand

/-- `__tshellStrKeyword`: the keyword, which must not be too long, and what is behind the blank after
it. -/
def strKeyword (pcCmd : Text) : Option (Text × Option Text) :=
  if maxKeywordLen ≤ (pcCmd.takeWhile (· ≠ ' ')).length then none
  else some (pcCmd.takeWhile (· ≠ ' '),
    match pcCmd.dropWhile (· ≠ ' ') with
    | [] => none
    | _ :: pcParam => some pcParam)

/-- `__tshellStrGetToken`: a parameter up to a blank that is not in quotation marks, and what is behind
this blank. -/
def strGetToken (trans quote : Bool) : Text → Text × Option Text
  | [] => ([], none)
  | c :: pcCommand =>
    let trans := if c = '\\' then !trans else trans
    let quote := if c = '"' ∧ trans = false then !quote else quote
    if c = ' ' ∧ quote = false then ([], some pcCommand)
    else
      let (token, next) := strGetToken (if c = '\\' then trans else false) quote pcCommand
      (c :: token, next)

/-- `__tshellStrDelTransChar`. -/
def strDelTransChar (trans : Bool) : Text → Text
  | [] => []
  | c :: pcCommand =>
    if c = '\\' then
      if trans then c :: strDelTransChar false pcCommand else strDelTransChar true pcCommand
    else if c = '"' ∧ trans = false then strDelTransChar false pcCommand
    else if c = 'r' ∧ trans then '\r' :: strDelTransChar false pcCommand
    else if c = 'n' ∧ trans then '\n' :: strDelTransChar false pcCommand
    else c :: strDelTransChar false pcCommand

/-! ## Texts without variables -/

namespace ConvertVar
variable {v : ShellVars} {s : ConvertVar} {t : Text}

/-- Without a `$` each character is copied. -/
theorem step_copy {c : Char} (hname : s.valName = none) (hskip : s.skip = none) (hc : c ≠ '$')
    (hlen : s.cmdOut.length < maxCommandLen) :
    ∃ s', step v s c = .ok s' ∧ s'.valName = none ∧ s'.skip = none ∧ s'.cmdOut = s.cmdOut ++ [c] := by
  simp [step, hname, hskip, plain, hc, hlen]

theorem foldlM_copy (hname : s.valName = none) (hskip : s.skip = none) (ht : '$' ∉ t)
    (hlen : s.cmdOut.length + t.length ≤ maxCommandLen) :
    ∃ s', t.foldlM (step v) s = .ok s' ∧ s'.valName = none ∧ s'.cmdOut = s.cmdOut ++ t := by
  induction t generalizing s with
  | nil => exact ⟨s, rfl, hname, (List.append_nil _).symm⟩
  | cons c t ih =>
    rw [List.mem_cons, not_or] at ht
    rw [List.length_cons] at hlen
    obtain ⟨s₁, hstep, hname₁, hskip₁, hout₁⟩ :=
      step_copy (v := v) hname hskip (Ne.symm ht.1) (by omega)
    obtain ⟨s₂, hfold, hname₂, hout₂⟩ := ih hname₁ hskip₁ ht.2 (by
      rw [hout₁, List.length_append, List.length_singleton]
      omega)
    refine ⟨s₂, ?_, hname₂, ?_⟩
    · rw [List.foldlM_cons, hstep]
      exact hfold
    · rw [hout₂, hout₁, List.append_assoc]
      rfl

end ConvertVar

/-- A text without variables is converted to itself. -/
theorem strConvertVar_self (v : ShellVars) {t : Text} (ht : '$' ∉ t)
    (hlen : t.length ≤ maxCommandLen) :
    strConvertVar v t = .ok t := by
  obtain ⟨s, hfold, hname, hout⟩ := ConvertVar.foldlM_copy (v := v) (s := .start) rfl rfl ht
    (by simpa [ConvertVar.start] using hlen)
  unfold strConvertVar
  rw [hfold]
  change (match s.valName with | none => _ | some _ => _) = _
  rw [hname, hout]
  rfl

/-! ## Texts with something behind them -/

namespace ConvertVar
variable {v : ShellVars} {s s' : ConvertVar} {c : Char} {t : Text}

/-- Only brackets are passed over. -/
def SkipOk (s : ConvertVar) : Prop := s.skip = none ∨ s.skip = some '\x7b' ∨ s.skip = some '\x7d'

theorem plain_cases (h : s.plain c = .ok s') :
    (c = '$' ∧ s'.skip = some '\x7b') ∨
      (s'.valName = s.valName ∧ s'.skip = s.skip ∧ s'.cmdOut = s.cmdOut ++ [c]) := by
  unfold plain at h
  dsimp only at h
  generalize (if c = '\\' then !s.transCharMarks else s.transCharMarks) = trans at h
  generalize (if c = '"' ∧ trans = false then !s.quotationMarks else s.quotationMarks) = quote at h
  by_cases hdollar : c = '$' ∧ quote = false
  · rw [if_pos hdollar] at h
    cases h
    exact .inl ⟨hdollar.1, rfl⟩
  · rw [if_neg hdollar] at h
    by_cases hlen : s.cmdOut.length < maxCommandLen
    · rw [if_pos hlen] at h
      cases h
      exact .inr ⟨rfl, rfl, rfl⟩
    · rw [if_neg hlen] at h
      cases h

theorem plain_copy (hc : c ≠ '$') (h : s.plain c = .ok s') :
    s'.valName = s.valName ∧ s'.skip = s.skip ∧ s'.cmdOut = s.cmdOut ++ [c] :=
  (plain_cases h).resolve_left fun h => hc h.1

theorem plain_skipOk (hs : s.SkipOk) (h : s.plain c = .ok s') : s'.SkipOk := by
  rcases plain_cases h with ⟨_, hskip⟩ | ⟨_, hskip, _⟩
  · exact .inr (.inl hskip)
  · unfold SkipOk
    rw [hskip]
    exact hs

/-- A character either belongs to the name, or ends it. -/
theorem named_cases {valName : Text} (h : named v s valName c = .ok s') :
    (isSeparator c = false ∧ s'.skip = s.skip) ∨
      ∃ varValue, value v valName = .ok varValue ∧ varValue.length + s.cmdOut.length < maxCommandLen ∧
        ((c = '\x7d' ∧ s'.skip = some '\x7d') ∨
          ∃ s₁ : ConvertVar, s₁.valName = none ∧ s₁.skip = s.skip ∧
            s₁.cmdOut = s.cmdOut ++ varValue ∧ s₁.plain c = .ok s') := by
  unfold named at h
  dsimp only at h
  generalize (if c = '\\' then !s.transCharMarks else s.transCharMarks) = trans at h
  generalize (if c = '"' ∧ trans = false then !s.quotationMarks else s.quotationMarks) = quote at h
  by_cases hsep : isSeparator c = false
  · rw [if_pos hsep] at h
    by_cases hlen : maxVarNameLen ≤ valName.length + 1
    · rw [if_pos hlen] at h
      cases h
    · rw [if_neg hlen] at h
      cases h
      exact .inl ⟨hsep, rfl⟩
  · rw [if_neg hsep] at h
    cases hvalue : value v valName with
    | error e =>
      rw [hvalue] at h
      cases h
    | ok varValue =>
      rw [hvalue] at h
      change (emit _ varValue >>= _) = _ at h
      unfold emit at h
      by_cases hlen : maxCommandLen ≤ varValue.length + s.cmdOut.length
      · rw [if_pos hlen] at h
        cases h
      · rw [if_neg hlen] at h
        refine .inr ⟨varValue, rfl, Nat.lt_of_not_le hlen, ?_⟩
        change (if c = '\x7d' then _ else _) = _ at h
        by_cases hc : c = '\x7d'
        · rw [if_pos hc] at h
          cases h
          exact .inl ⟨hc, rfl⟩
        · rw [if_neg hc] at h
          refine .inr ⟨_, ?_, ?_, ?_, h⟩ <;> rfl

theorem step_skipOk (hs : s.SkipOk) (h : step v s c = .ok s') : s'.SkipOk := by
  unfold step at h
  by_cases hskip : s.skip = some c
  · rw [if_pos hskip] at h
    cases h
    exact hs
  · rw [if_neg hskip] at h
    dsimp only at h
    split at h
    · exact plain_skipOk (.inl rfl) h
    · split_ifs at h with hc
      · exact plain_skipOk (.inl rfl) h
      · rcases named_cases h with ⟨_, hskip'⟩ | ⟨_, _, _, ⟨_, hskip'⟩ | ⟨s₁, _, hskip', _, hplain⟩⟩
        · exact .inl hskip'
        · exact .inr (.inr hskip')
        · exact plain_skipOk (.inl hskip') hplain

theorem foldlM_skipOk (hs : s.SkipOk) (h : t.foldlM (step v) s = .ok s') : s'.SkipOk := by
  induction t generalizing s with
  | nil =>
    cases h
    exact hs
  | cons c t ih =>
    rw [List.foldlM_cons] at h
    cases hstep : step v s c with
    | error e =>
      rw [hstep] at h
      cases h
    | ok s₁ =>
      rw [hstep] at h
      exact ih (step_skipOk hs hstep) h

/-- What comes out of a text without variables, when it can be converted. -/
theorem foldlM_ok (hname : s.valName = none) (hskip : s.skip = none) (ht : '$' ∉ t)
    (h : t.foldlM (step v) s = .ok s') : s'.valName = none ∧ s'.cmdOut = s.cmdOut ++ t := by
  induction t generalizing s with
  | nil =>
    cases h
    exact ⟨hname, (List.append_nil _).symm⟩
  | cons c t ih =>
    rw [List.mem_cons, not_or] at ht
    rw [List.foldlM_cons] at h
    cases hstep : step v s c with
    | error e =>
      rw [hstep] at h
      cases h
    | ok s₁ =>
      rw [hstep] at h
      unfold step at hstep
      rw [if_neg (by rw [hskip]; exact Option.some_ne_none c ∘ Eq.symm), hname] at hstep
      obtain ⟨hname₁, hskip₁, hout₁⟩ := plain_copy (Ne.symm ht.1) hstep
      obtain ⟨hname', hout'⟩ := ih hname₁ hskip₁ ht.2 h
      refine ⟨hname', ?_⟩
      rw [hout', hout₁, List.append_assoc]
      rfl

end ConvertVar

/-- What is converted before a separator. -/
theorem ConvertVar.step_separator {v : ShellVars} {s s' : ConvertVar} {c : Char} (hs : s.SkipOk)
    (hc : isSeparator c = true) (hbracket : c ≠ '\x7d') (h : step v s c = .ok s') :
    ∃ b, s'.valName = none ∧ s'.skip = none ∧ s'.cmdOut = b ++ [c] ∧
      match s.valName with
      | none => b = s.cmdOut
      | some valName => ∃ varValue, value v valName = .ok varValue ∧
          varValue.length + s.cmdOut.length < maxCommandLen ∧ b = s.cmdOut ++ varValue := by
  have hdollar : c ≠ '$' := by
    rintro rfl
    cases hc
  have hskip : s.skip ≠ some c := by
    rintro hskip
    unfold SkipOk at hs
    rw [hskip] at hs
    rcases hs with hs | hs | hs
    · cases hs
    · cases hs
      cases hc
    · exact hbracket (Option.some.inj hs)
  unfold step at h
  rw [if_neg hskip] at h
  dsimp only at h
  cases hname : s.valName with
  | none =>
    rw [hname] at h
    obtain ⟨hname', hskip', hout⟩ := plain_copy hdollar h
    exact ⟨s.cmdOut, hname', hskip', hout, rfl⟩
  | some valName =>
    rw [hname] at h
    dsimp only at h
    rw [if_neg hdollar] at h
    rcases named_cases h with
      ⟨hsep, _⟩ | ⟨varValue, hvalue, hlen, ⟨hc', _⟩ | ⟨s₁, hname₁, hskip₁, hout₁, h⟩⟩
    · rw [hc] at hsep
      cases hsep
    · exact absurd hc' hbracket
    · obtain ⟨hname', hskip', hout⟩ := plain_copy hdollar h
      exact ⟨s₁.cmdOut, hname'.trans hname₁, hskip'.trans hskip₁, hout, varValue, hvalue, hlen, hout₁⟩

/-- A text without variables behind a separator is left as it is, whatever is before it. -/
theorem strConvertVar_append {v : ShellVars} {t b : Text} {c : Char} {u : Text}
    (hc : isSeparator c = true) (hbracket : c ≠ '\x7d') (hu : '$' ∉ u)
    (h : strConvertVar v (t ++ c :: u) = .ok b) :
    ∃ b₀, strConvertVar v t = .ok b₀ ∧ b = b₀ ++ c :: u := by
  unfold strConvertVar at h ⊢
  rw [List.foldlM_append] at h
  cases hfold : t.foldlM (ConvertVar.step v) .start with
  | error e =>
    rw [hfold] at h
    cases h
  | ok s =>
    rw [hfold] at h
    change (do let s ← (c :: u).foldlM (ConvertVar.step v) s; _) = _ at h
    rw [List.foldlM_cons] at h
    cases hstep : ConvertVar.step v s c with
    | error e =>
      rw [hstep] at h
      cases h
    | ok s₁ =>
      rw [hstep] at h
      change (do let s ← u.foldlM (ConvertVar.step v) s₁; _) = _ at h
      cases hfold' : u.foldlM (ConvertVar.step v) s₁ with
      | error e =>
        rw [hfold'] at h
        cases h
      | ok s₂ =>
        rw [hfold'] at h
        obtain ⟨b₀, hname₁, hskip₁, hout₁, hb₀⟩ :=
          ConvertVar.step_separator (ConvertVar.foldlM_skipOk (.inl rfl) hfold) hc hbracket hstep
        obtain ⟨hname₂, hout₂⟩ := ConvertVar.foldlM_ok hname₁ hskip₁ hu hfold'
        refine ⟨b₀, ?_, ?_⟩
        · change (match s.valName with | none => _ | some _ => _) = _
          cases hname : s.valName with
          | none =>
            rw [hname] at hb₀
            rw [hb₀]
          | some valName =>
            rw [hname] at hb₀
            obtain ⟨varValue, hvalue, hlen, hb₀⟩ := hb₀
            dsimp only
            rw [hvalue, hb₀]
            change (do let s ← s.emit varValue; _) = _
            unfold ConvertVar.emit
            rw [if_neg (Nat.not_le_of_lt hlen)]
            rfl
        · change (match s₂.valName with | none => _ | some _ => _) = _ at h
          rw [hname₂, hout₂, hout₁, List.append_assoc] at h
          exact (Except.ok.inj h).symm

section Words
variable {t u : Text} {trans quote startSpace : Bool}

/-- A text has no blank, quotation mark or escape character. -/
def Bare (u : Text) : Prop := ∀ c ∈ u, c ≠ ' ' ∧ c ≠ '"' ∧ c ≠ '\\'

instance : Decidable (Bare u) := List.decidableBAll (fun c => c ≠ ' ' ∧ c ≠ '"' ∧ c ≠ '\\') u

theorem strFormat_sublist : (strFormat trans quote startSpace t).Sublist t := by
  induction t generalizing trans quote startSpace with
  | nil => exact List.Sublist.refl _
  | cons c t ih =>
    unfold strFormat
    dsimp only
    split_ifs
    all_goals first
      | exact ih.cons_cons c
      | exact ih.cons c

theorem strFormat_bare (hu : Bare u) : strFormat trans quote startSpace u = u := by
  induction u generalizing trans quote startSpace with
  | nil => rfl
  | cons c u ih =>
    obtain ⟨⟨hblank, hquote, hescape⟩, hu⟩ := List.forall_mem_cons.mp hu
    simp [strFormat, hblank, hquote, hescape, ih hu]

theorem strFormat_append (hu : Bare u) :
    strFormat trans quote startSpace (t ++ u) = strFormat trans quote startSpace t ++ u := by
  induction t generalizing trans quote startSpace with
  | nil => exact strFormat_bare hu
  | cons c t ih =>
    rw [List.cons_append]
    unfold strFormat
    dsimp only
    split_ifs <;> simp [ih]

/-- A parameter is all that is left, or ends at a blank. -/
theorem strGetToken_spec (trans quote : Bool) (t : Text) : match strGetToken trans quote t with
    | (token, none) => t = token
    | (token, some next) => t = token ++ ' ' :: next := by
  induction t generalizing trans quote with
  | nil => rfl
  | cons c t ih =>
    unfold strGetToken
    dsimp only
    generalize (if c = '\\' then !trans else trans) = trans'
    generalize (if c = '"' ∧ trans' = false then !quote else quote) = quote'
    by_cases hc : c = ' ' ∧ quote' = false
    · rw [if_pos hc, hc.1]
      rfl
    · rw [if_neg hc]
      have h : match strGetToken (if c = '\\' then trans' else false) quote' t with
        | (token, none) => t = token
        | (token, some next) => t = token ++ ' ' :: next := ih ..
      generalize strGetToken (if c = '\\' then trans' else false) quote' t = r at h ⊢
      rcases r with ⟨token, _ | next⟩
      · exact congrArg (c :: ·) h
      · exact congrArg (c :: ·) h

theorem strDelTransChar_mem {c : Char} (h : c ∈ strDelTransChar trans t) :
    c ∈ t ∨ c = '\r' ∨ c = '\n' := by
  induction t generalizing trans with
  | nil => cases h
  | cons x t ih =>
    unfold strDelTransChar at h
    split_ifs at h
    all_goals grind

theorem strDelTransChar_bare (hu : Bare u) : strDelTransChar false u = u := by
  induction u with
  | nil => rfl
  | cons c u ih =>
    obtain ⟨⟨_, hquote, hescape⟩, hu⟩ := List.forall_mem_cons.mp hu
    simp [strDelTransChar, hquote, hescape, ih hu]

/-- An escape character makes no difference to a `>`. -/
theorem strDelTransChar_append (hu : Bare u) :
    strDelTransChar trans (t ++ '>' :: u) = strDelTransChar trans t ++ '>' :: u := by
  induction t generalizing trans with
  | nil => simp [strDelTransChar, strDelTransChar_bare hu]
  | cons c t ih =>
    rw [List.cons_append]
    unfold strDelTransChar
    split_ifs <;> simp [ih]

end Words

end SylixOS.Shell
