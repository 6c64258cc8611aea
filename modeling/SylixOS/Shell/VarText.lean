import SylixOS.Shell.TtinyString

/-! # What a command is after its variables are replaced

A command is a sequence of characters and of variables. A variable is replaced by its value in quotation
marks, so that the value is one parameter.
-/

namespace SylixOS.Shell

/-- A piece of a command: a character, or a variable, in brackets or not. The right bracket may be
missing. -/
inductive Piece
  | char (c : Char)
  | var (left : Bool) (name : Text) (right : Bool)
  deriving DecidableEq, Repr

/-- The characters of a piece. -/
def Piece.text : Piece → Text
  | .char c => [c]
  | .var left name right =>
    '$' :: (if left then ['\x7b'] else []) ++ name ++ (if right then ['\x7d'] else [])

/-- The command itself. -/
def Piece.command (ps : List Piece) : Text := ps.flatMap Piece.text

/-- What comes instead of a variable: nothing if the name is too long, or if there is no value. -/
def Piece.value (v : ShellVars) (name : Text) : Option Text :=
  if maxVarNameLen ≤ name.length then none
  else if name = [] then none
  else if name = ['?'] then some (toString v.getError).toList
  else if v.varGetRt name = [] then none
  else some ('"' :: v.varGetRt name ++ ['"'])

/-- The command with the values, behind what is written already. -/
def Piece.converted (v : ShellVars) : Text → List Piece → Except TshellError Text
  | cmdOut, [] => .ok cmdOut
  | cmdOut, .char c :: ps =>
    if cmdOut.length < maxCommandLen then converted v (cmdOut ++ [c]) ps else .error .eparam
  | cmdOut, .var _ name _ :: ps =>
    match Piece.value v name with
    | none => .error .evar
    | some varValue =>
      if varValue.length + cmdOut.length < maxCommandLen then converted v (cmdOut ++ varValue) ps
      else .error .eparam

/-- A character is escaped if there is an odd number of escape characters in front of it. -/
def nextTrans (mark : Bool) (c : Char) : Bool := if c = '\\' then !mark else false

/-- The number of quotation marks that are not escaped is odd. -/
def nextQuote (mark quote : Bool) (c : Char) : Bool := if c = '"' ∧ mark = false then !quote else quote

/-- What ends a name without a right bracket: neither a quotation mark nor an escape character. -/
def EndsName (r : Text) : Prop := ∀ c ∈ r.head?, isSeparator c ∧ c ≠ '"' ∧ c ≠ '\\' ∧ c ≠ '\x7d'

/-- The variables of the command are where it has a dollar sign outside quotation marks. No name ends at
another dollar sign, at a quotation mark or at an escape character, and there is no bracket too much. -/
def Piece.Proper : Bool → Bool → List Piece → Prop
  | _, _, [] => True
  | mark, quote, .char c :: ps =>
    (c = '$' → quote = true) ∧ Proper (nextTrans mark c) (nextQuote mark quote c) ps
  | _, quote, .var left name right :: ps =>
    quote = false ∧ (∀ c ∈ name, isSeparator c = false ∧ c ≠ '$') ∧ name.head? ≠ some '\x7b' ∧
      (if right then left = true ∧ (command ps).head? ≠ some '\x7d' else EndsName (command ps)) ∧
      Proper false false ps

instance : ∀ r, Decidable (EndsName r)
  | [] => isTrue nofun
  | c :: _ => decidable_of_iff (isSeparator c ∧ c ≠ '"' ∧ c ≠ '\\' ∧ c ≠ '\x7d')
    ⟨fun h _ hc => Option.some.inj hc ▸ h, fun h => h c rfl⟩

instance Piece.decidableProper : ∀ mark quote ps, Decidable (Piece.Proper mark quote ps)
  | _, _, [] => inferInstanceAs (Decidable True)
  | mark, quote, .char c :: ps =>
    have := decidableProper (nextTrans mark c) (nextQuote mark quote c) ps
    inferInstanceAs (Decidable ((_ → _) ∧ Piece.Proper _ _ ps))
  | _, quote, .var _ name _ :: ps =>
    have := decidableProper false false ps
    have : Decidable (∀ c ∈ name, isSeparator c = false ∧ c ≠ '$') := List.decidableBAll _ name
    inferInstanceAs (Decidable (quote = false ∧ (∀ c ∈ name, _) ∧ _ ∧ _ ∧ Piece.Proper _ _ ps))

namespace ConvertVar
variable {v : ShellVars} {s : ConvertVar} {c : Char} {r name cmdOut : Text} {mark quote : Bool}

/-- What becomes of the rest of a command. -/
def finish (v : ShellVars) (s : ConvertVar) (r : Text) : Except TshellError Text := do
  let s ← r.foldlM (step v) s
  match s.valName with
  | none => .ok s.cmdOut
  | some valName =>
    let varValue ← value v valName
    let s ← s.emit varValue
    .ok s.cmdOut

theorem finish_cons : finish v s (c :: r) = (step v s c >>= fun s => finish v s r) := by
  rw [finish, List.foldlM_cons, bind_assoc]
  rfl

/-- Between two pieces. -/
def settled (cmdOut : Text) (mark quote : Bool) : ConvertVar := ⟨cmdOut, none, mark, quote, none⟩

/-- In a name. -/
def naming (cmdOut name : Text) (skip : Option Char) : ConvertVar :=
  ⟨cmdOut, some name, false, false, skip⟩

theorem step_char (hc : c = '$' → quote = true) : step v (settled cmdOut mark quote) c =
    if cmdOut.length < maxCommandLen then
      .ok (settled (cmdOut ++ [c]) (nextTrans mark c) (nextQuote mark quote c))
    else .error .eparam := by
  have hquote : (if c = '"' ∧ (if c = '\\' then !mark else mark) = false then !quote else quote) =
      nextQuote mark quote c := by
    rw [nextQuote]
    by_cases hmark : c = '"'
    · rw [hmark]
      rfl
    · rw [if_neg fun h => hmark h.1, if_neg fun h => hmark h.1]
  have hmark : (if c = '\\' then if c = '\\' then !mark else mark else false) = nextTrans mark c := by
    rw [nextTrans]
    split_ifs <;> rfl
  have hdollar : ¬ (c = '$' ∧ nextQuote mark quote c = false) := by
    rintro ⟨rfl, h⟩
    rw [nextQuote, if_neg fun heq => absurd heq.1 (by decide), hc rfl] at h
    cases h
  rw [step, if_neg (by exact Option.some_ne_none c ∘ Eq.symm)]
  dsimp only [settled]
  rw [plain]
  dsimp only
  rw [hquote, hmark, if_neg hdollar]

theorem step_dollar : step v (settled cmdOut mark false) '$' = .ok (naming cmdOut [] (some '\x7b')) := rfl

/-- In a name, a character that is neither a quotation mark nor an escape character. -/
theorem step_naming {skip : Option Char} (hskip : skip ≠ some c) (hc : c ≠ '$') (hquote : c ≠ '"')
    (hmark : c ≠ '\\') : step v (naming cmdOut name skip) c =
      if isSeparator c = false then
        if maxVarNameLen ≤ name.length + 1 then .error .evar
        else .ok (naming cmdOut (name ++ [c]) none)
      else (do
        let varValue ← value v name
        let s ← (settled cmdOut false false).emit varValue
        if c = '\x7d' then .ok { s with skip := some '\x7d' } else s.plain c) := by
  rw [step, if_neg (by exact hskip)]
  dsimp only [naming]
  rw [if_neg hc, named]
  dsimp only
  rw [if_neg hmark, if_neg hmark]
  simp only [hquote, false_and, if_false]
  rfl

theorem step_name {skip : Option Char} (hskip : skip ≠ some c) (hsep : isSeparator c = false)
    (hc : c ≠ '$') : step v (naming cmdOut name skip) c =
      if maxVarNameLen ≤ name.length + 1 then .error .evar
      else .ok (naming cmdOut (name ++ [c]) none) := by
  rw [step_naming hskip hc, if_pos hsep]
  · rintro rfl
    cases hsep
  · rintro rfl
    cases hsep

/-- The characters of a name, in front of what is left. -/
theorem finish_name (hname : ∀ c ∈ name, isSeparator c = false ∧ c ≠ '$') (n : Text)
    (hn : n.length < maxVarNameLen) : finish v (naming cmdOut n none) (name ++ r) =
      if maxVarNameLen ≤ (n ++ name).length then .error .evar
      else finish v (naming cmdOut (n ++ name) none) r := by
  induction name generalizing n with
  | nil => rw [List.append_nil, if_neg hn.not_ge, List.nil_append]
  | cons c name ih =>
    obtain ⟨⟨hsep, hc⟩, hname⟩ := List.forall_mem_cons.mp hname
    have hlen : (n ++ c :: name).length = n.length + 1 + name.length := by
      rw [List.length_append, List.length_cons]
      omega
    rw [List.cons_append, finish_cons, step_name (Option.some_ne_none c).symm hsep hc]
    by_cases hlong : maxVarNameLen ≤ n.length + 1
    · rw [if_pos hlong, if_pos (by omega)]
      rfl
    · rw [if_neg hlong, List.append_cons n c name, ← ih hname (n ++ [c]) (by simpa using hlong)]
      rfl

/-- What `converted` does with a value. -/
def put (v : ShellVars) (cmdOut name : Text) (rest : Text → Except TshellError Text) :
    Except TshellError Text :=
  match Piece.value v name with
  | none => .error .evar
  | some varValue =>
    if varValue.length + cmdOut.length < maxCommandLen then rest (cmdOut ++ varValue)
    else .error .eparam

/-- The value of a name that is not too long is written. -/
theorem put_eq (hname : ¬ maxVarNameLen ≤ name.length) (rest : ConvertVar → Except TshellError Text) :
    (do
      let varValue ← value v name
      let s ← (settled cmdOut false false).emit varValue
      rest s) = put v cmdOut name fun cmdOut => rest (settled cmdOut false false) := by
  rw [put, Piece.value, if_neg hname, value]
  have hemit (varValue : Text) : ((settled cmdOut false false).emit varValue >>= rest) =
      if varValue.length + cmdOut.length < maxCommandLen then
        rest (settled (cmdOut ++ varValue) false false)
      else .error .eparam := by
    rw [emit]
    by_cases hlen : varValue.length + cmdOut.length < maxCommandLen
    · rw [if_neg (by exact hlen.not_ge), if_pos hlen]
      rfl
    · rw [if_pos (by exact Nat.le_of_not_lt hlen), if_neg hlen]
      rfl
  split_ifs
  · rfl
  · exact hemit _
  · rfl
  · exact hemit _

/-- A name that ends without a right bracket. -/
theorem finish_ends (hname : ¬ maxVarNameLen ≤ name.length) {skip : Option Char} (hr : EndsName r)
    (hskip : ∀ c ∈ r.head?, skip ≠ some c) : finish v (naming cmdOut name skip) r =
      put v cmdOut name fun cmdOut => finish v (settled cmdOut false false) r := by
  cases r with
  | nil =>
    have hemit (varValue : Text) : ((naming cmdOut name skip).emit varValue >>= fun s => .ok s.cmdOut) =
        ((settled cmdOut false false).emit varValue >>= fun s => .ok s.cmdOut) := by
      change (if _ then _ else _) >>= _ = (if _ then _ else _) >>= _
      by_cases hlen : maxCommandLen ≤ varValue.length + cmdOut.length
      · rw [if_pos (by exact hlen), if_pos (by exact hlen)]
      · rw [if_neg (by exact hlen), if_neg (by exact hlen)]
        rfl
    refine Eq.trans ?_ (put_eq hname fun s => .ok s.cmdOut)
    exact congrArg (value v name >>= ·) (funext hemit)
  | cons c r =>
    obtain ⟨hsep, hquote, hmark, hbracket⟩ := hr c rfl
    have hdollar : c ≠ '$' := by
      rintro rfl
      cases hsep
    have hsettled (cmdOut : Text) : step v (settled cmdOut false false) c =
        (settled cmdOut false false).plain c := if_neg (Option.some_ne_none c).symm
    simp only [finish_cons, hsettled]
    rw [step_naming (hskip c rfl) hdollar hquote hmark, if_neg (by rw [hsep]; decide), bind_assoc]
    simp only [bind_assoc, if_neg hbracket]
    exact put_eq hname fun s => s.plain c >>= fun s => finish v s r

/-- A name that ends at its right bracket. -/
theorem finish_right (hname : ¬ maxVarNameLen ≤ name.length) {skip : Option Char}
    (hskip : skip ≠ some '\x7d') (hr : r.head? ≠ some '\x7d') :
    finish v (naming cmdOut name skip) ('\x7d' :: r) =
      put v cmdOut name fun cmdOut => finish v (settled cmdOut false false) r := by
  have hpass (cmdOut : Text) : finish v { settled cmdOut false false with skip := some '\x7d' } r =
      finish v (settled cmdOut false false) r := by
    cases r with
    | nil => rfl
    | cons c r =>
      rw [finish_cons, finish_cons, step, if_neg (by exact fun h => hr h.symm)]
      rfl
  rw [finish_cons, step_naming hskip (by decide) (by decide) (by decide), if_neg (by decide), bind_assoc]
  simp only [bind_assoc, if_true]
  refine (put_eq hname fun s => finish v { s with skip := some '\x7d' } r).trans ?_
  exact congrArg (put v cmdOut name) (funext hpass)

/-- A name that ends, with its right bracket or without. -/
theorem finish_end (hname : ¬ maxVarNameLen ≤ name.length) {skip : Option Char}
    (hskip : skip = none ∨ skip = some '\x7b') {left right : Bool}
    (hr : if right then left = true ∧ r.head? ≠ some '\x7d' else EndsName r) :
    finish v (naming cmdOut name skip) ((if right then ['\x7d'] else []) ++ r) =
      put v cmdOut name fun cmdOut => finish v (settled cmdOut false false) r := by
  have hbracket : skip ≠ some '\x7d' := by
    rcases hskip with rfl | rfl
    · exact nofun
    · decide
  cases right with
  | true => exact finish_right hname hbracket hr.2
  | false =>
    refine finish_ends hname hr fun c hc => ?_
    rcases hskip with rfl | rfl
    · exact (Option.some_ne_none c).symm
    · rintro h
      obtain rfl := Option.some.inj h
      exact absurd (hr _ hc).1 (by decide)

/-- A variable, in front of what is left. -/
theorem finish_var {left right : Bool} (hname : ∀ c ∈ name, isSeparator c = false ∧ c ≠ '$')
    (hhead : name.head? ≠ some '\x7b')
    (hr : if right then left = true ∧ r.head? ≠ some '\x7d' else EndsName r) :
    finish v (settled cmdOut mark false) ((Piece.var left name right).text ++ r) =
      put v cmdOut name fun cmdOut => finish v (settled cmdOut false false) r := by
  have hleft : finish v (settled cmdOut mark false) ((Piece.var left name right).text ++ r) =
      finish v (naming cmdOut [] (some '\x7b')) (name ++ ((if right then ['\x7d'] else []) ++ r)) := by
    rw [Piece.text, List.append_assoc, List.cons_append, List.cons_append, List.append_assoc,
      finish_cons, step_dollar]
    cases left with
    | true => exact finish_cons
    | false => rfl
  rw [hleft]
  cases name with
  | nil => exact finish_end (by decide) (.inr rfl) hr
  | cons c name =>
    obtain ⟨⟨hsep, hc⟩, hrest⟩ := List.forall_mem_cons.mp hname
    have hfirst : some '\x7b' ≠ some c := fun h => hhead h.symm
    rw [List.cons_append, finish_cons, step_name hfirst hsep hc, if_neg (by decide)]
    refine (finish_name hrest [c] (show 1 < maxVarNameLen by decide)).trans ?_
    by_cases hlong : maxVarNameLen ≤ (c :: name).length
    · rw [if_pos (by exact hlong), put, Piece.value, if_pos hlong]
    · rw [if_neg (by exact hlong)]
      exact finish_end hlong (.inl rfl) hr

/-- A command is converted piece by piece. -/
theorem finish_command (ps : List Piece) (h : Piece.Proper mark quote ps) :
    finish v (settled cmdOut mark quote) (Piece.command ps) = Piece.converted v cmdOut ps := by
  induction ps generalizing cmdOut mark quote with
  | nil => rfl
  | cons p ps ih =>
    cases p with
    | char c =>
      obtain ⟨hc, hps⟩ := h
      change finish v _ (c :: Piece.command ps) = _
      rw [finish_cons, step_char hc, Piece.converted]
      split_ifs
      · exact ih hps
      · rfl
    | var left name right =>
      obtain ⟨rfl, hname, hhead, hend, hps⟩ := h
      change finish v _ ((Piece.var left name right).text ++ Piece.command ps) = _
      rw [finish_var hname hhead hend, Piece.converted, put]
      simp only [ih hps]

end ConvertVar

/-- The variables of a command are replaced by their values, and nothing else is changed. -/
theorem strConvertVar_converted (v : ShellVars) (ps : List Piece) (h : Piece.Proper false false ps) :
    strConvertVar v (Piece.command ps) = Piece.converted v [] ps :=
  ConvertVar.finish_command ps h

/-- One variable, `A`. -/
def varA : ShellVars := ⟨fun name => if name = ['A'] then ['x'] else [], 0⟩

/-- A variable, and in quotation marks what would be one elsewhere. -/
def piecesA : List Piece :=
  [.var false ['A'] false, .char ' ', .char '"', .char '$', .char 'A', .char '"']

theorem strConvertVar_converted_piecesA :
    strConvertVar varA (Piece.command piecesA) = Piece.converted varA [] piecesA :=
  strConvertVar_converted varA piecesA (by decide)

/-- The value is written in quotation marks. -/
theorem strConvertVar_quoted : strConvertVar varA ['$', 'A'] = .ok ['"', 'x', '"'] ∧
    strConvertVar varA ['$', 'A'] ≠ .ok ['x'] := by
  have hquoted : strConvertVar varA ['$', 'A'] = .ok ['"', 'x', '"'] := rfl
  refine ⟨hquoted, fun h => ?_⟩
  have heq := Except.ok.inj (hquoted.symm.trans h)
  exact absurd heq (by decide)

end SylixOS.Shell
