import SylixOS.Shell.CommandList

/-! # `if` statements

An `if` statement is meant to run the command of the first branch whose comparison holds. The parser
reads keywords wherever their characters are, so a command in which they occur is cut off or taken for
another branch. It compares strings by their first characters only, and does not know how to do
nothing. -/

namespace SylixOS.Shell

/-- A word of a comparison, which may be in quotation marks. -/
structure Operand where
  value : Text
  quoted : Bool

/-- A comparison, of strings or of numbers. -/
structure Comparison where
  string : Bool
  left : Operand
  op : Ordering
  right : Operand

/-- The branches of an `if` statement and the command behind its `else`. -/
structure IfStatement where
  first : Comparison × Text
  elifs : List (Comparison × Text)
  otherwise : Option Text

def Operand.text (o : Operand) : Text := if o.quoted then '"' :: o.value ++ ['"'] else o.value

def opText : Ordering → Text
  | .eq => ['=', '=']
  | .lt => ['<']
  | .gt => ['>']

/-- `[ L op R ]`, or `[[ L op R ]]` for strings. -/
def Comparison.text (c : Comparison) : Text :=
  (if c.string then ['[', '['] else ['[']) ++ ' ' :: c.left.text ++ ' ' :: opText c.op ++
    ' ' :: c.right.text ++ ' ' :: (if c.string then [']', ']'] else [']'])

/-- A command with its `;`, between the keywords around it. -/
def bodyText (command : Text) : Text := ' ' :: command ++ [';', ' ']

/-- What is behind `if` or `elif`, up to the next keyword but `then`. -/
def clauseText (c : Comparison) (command : Text) : Text :=
  ' ' :: c.text ++ ';' :: ' ' :: kwThen ++ bodyText command

/-- What is behind a branch. -/
def behindText (otherwise : Option Text) : List (Comparison × Text) → Text
  | [] =>
    match otherwise with
    | none => kwFi
    | some command => kwElse ++ bodyText command ++ kwFi
  | (c, command) :: elifs => kwElif ++ clauseText c command ++ behindText otherwise elifs

def IfStatement.text (s : IfStatement) : Text :=
  kwIf ++ clauseText s.first.1 s.first.2 ++ behindText s.otherwise s.elifs

/-- A number in decimal digits. -/
def digitsValue (t : Text) : Option ℕ :=
  if t ≠ [] ∧ t.all Char.isDigit then some (t.foldl (fun n c => n * 10 + (c.toNat - '0'.toNat)) 0)
  else none

/-- A number that may have a sign. -/
def intValue : Text → Option ℤ
  | '-' :: t => (digitsValue t).map fun n => -n
  | t => (digitsValue t).map fun n => n

/-- A comparison holds. -/
def Comparison.holds (c : Comparison) : Bool :=
  if c.string then
    (if c.left.value = c.right.value then .eq
      else if c.left.value < c.right.value then .lt else .gt) = c.op
  else
    match intValue c.left.value, intValue c.right.value with
    | some l, some r => compare l r = c.op
    | _, _ => false

/-- What the code makes of it, unless it does not come to an end. -/
def Comparison.answered (c : Comparison) : Option Bool :=
  if c.string then (IfState.compareString c.left.value c.right.value).map (· = c.op)
  else some (IfState.compareNumber c.left.value c.right.value = c.op)

theorem Comparison.answered_eq {c : Comparison} : c.answered =
    (if c.string then IfState.compareString c.left.value c.right.value
      else some (IfState.compareNumber c.left.value c.right.value)).map
        (fun o => decide (o = c.op)) := by
  unfold Comparison.answered
  split_ifs <;> rfl

/-- The command of the first branch whose comparison holds, or that behind `else`. -/
def chosen (holds : Comparison → Option Bool) (otherwise : Option Text) :
    List (Comparison × Text) → Option Text
  | [] => otherwise.map bodyText
  | (c, command) :: branches =>
    match holds c with
    | none => none
    | some true => some (bodyText command)
    | some false => chosen holds otherwise branches

namespace IfStatement

def branches (s : IfStatement) : List (Comparison × Text) := s.first :: s.elifs

/-- The text that is to be run, which is empty when there is none. -/
def expected (s : IfStatement) : Text :=
  (chosen (fun c => some c.holds) s.otherwise s.branches).getD []

end IfStatement

/-- A word that the parser can read. -/
def Operand.Plain (o : Operand) : Prop :=
  o.value ≠ [] ∧ ' ' ∉ o.value ∧ ']' ∉ o.value ∧ '"' ∉ o.value

/-- The parser can read the comparisons that it comes to, and finds no keyword in a command that it
passes over. -/
def Readable : List (Comparison × Text) → Prop
  | [] => True
  | (c, command) :: branches =>
    c.left.Plain ∧ c.right.Plain ∧
      (c.answered = some false → containsKeyword kwElif (bodyText command) = false ∧
        containsKeyword kwElse (bodyText command) = false ∧ Readable branches)

namespace Tshell
variable {σ : Type*} (sh : Tshell σ)

/-- An `if` statement is done as it should be: the parser runs exactly the text of the branch, and
nothing is done but this. -/
def DoesIf (st : σ) (t : Text) (s : IfStatement) : Prop :=
  tshellIfElse s.text = .exec s.expected ∧
    ∀ fuel, sh.exec (fuel + 1) st t = sh.exec fuel st s.expected

/-- The text is not a comment or too long, and the branch that the code comes to has the right text, up
to a keyword in it. -/
def IfFits (t : Text) (s : IfStatement) : Prop :=
  (t.dropWhile isWhite).head? ≠ some '#' ∧ (t.dropWhile isWhite).length ≤ maxCommandLen - 1 ∧
    ∃ text, chosen Comparison.answered s.otherwise s.branches = some text ∧
      chosen (fun c => some c.holds) s.otherwise s.branches = some (IfState.branchText text)

end Tshell

/-! ## Keywords -/

section Keywords
variable {kw x rest : Text}

/-- A blank keeps a keyword from going on behind it. -/
theorem tshellCheck_append (hkw : ' ' ∉ kw) (hx : x.getLast? = some ' ') :
    tshellCheck (x ++ rest) kw = tshellCheck x kw := by
  unfold tshellCheck
  rw [Bool.eq_iff_iff, List.isPrefixOf_iff_prefix, List.isPrefixOf_iff_prefix]
  constructor
  · intro h
    rcases List.prefix_or_prefix_of_prefix h (List.prefix_append x rest) with h' | h'
    · exact h'
    · exact absurd (h'.subset (List.mem_of_getLast? hx)) hkw
  · intro h
    exact h.trans (List.prefix_append x rest)

/-- The text behind `then` ends where it does without what is behind it, when this begins with a
keyword. -/
theorem branchText_append (hx : x = [] ∨ x.getLast? = some ' ')
    (hrest : IfState.branchText rest = []) :
    IfState.branchText (x ++ rest) = IfState.branchText x := by
  induction x with
  | nil => exact hrest
  | cons a x ih =>
    have hlast : (a :: x).getLast? = some ' ' := hx.resolve_left (List.cons_ne_nil _ _)
    have hx' : x = [] ∨ x.getLast? = some ' ' := by
      cases x with
      | nil => exact .inl rfl
      | cons b x => exact .inr (by rwa [List.getLast?_cons_cons] at hlast)
    have hcheck : ∀ kw, ' ' ∉ kw → tshellCheck (a :: (x ++ rest)) kw = tshellCheck (a :: x) kw :=
      fun kw hkw => tshellCheck_append hkw hlast
    rw [List.cons_append]
    unfold IfState.branchText
    rw [hcheck kwFi (by decide), hcheck kwElif (by decide), hcheck kwElse (by decide), ih hx']

theorem bodyText_getLast (command : Text) : (bodyText command).getLast? = some ' ' := by
  unfold bodyText
  rw [List.getLast?_append_of_ne_nil _ (List.cons_ne_nil _ _)]
  rfl

theorem branchText_bodyText_ne_nil (command : Text) : IfState.branchText (bodyText command) ≠ [] :=
  List.cons_ne_nil _ _

end Keywords

/-! ## The loop of the parser -/

namespace IfState
variable {s s₁ s₂ : IfState} {cmd cmd₁ cmd₂ t : Text}

/-- The loop comes from a place to another. -/
def Goes (s : IfState) (cmd : Text) (s' : IfState) (cmd' : Text) : Prop :=
  ∀ fuel, cmd.length ≤ fuel → ∃ fuel', cmd'.length ≤ fuel' ∧ loop fuel s cmd = loop fuel' s' cmd'

theorem Goes.refl : Goes s cmd s cmd := fun fuel hfuel => ⟨fuel, hfuel, rfl⟩

theorem Goes.trans (h : Goes s cmd s₁ cmd₁) (h' : Goes s₁ cmd₁ s₂ cmd₂) : Goes s cmd s₂ cmd₂ := by
  intro fuel hfuel
  obtain ⟨fuel₁, hfuel₁, hloop₁⟩ := h fuel hfuel
  obtain ⟨fuel₂, hfuel₂, hloop₂⟩ := h' fuel₁ hfuel₁
  exact ⟨fuel₂, hfuel₂, hloop₁.trans hloop₂⟩

theorem Goes.of_round (h : s.round cmd = .ok (s₁, cmd₁)) (hlen : cmd₁.length < cmd.length) :
    Goes s cmd s₁ cmd₁ := by
  intro fuel hfuel
  cases fuel with
  | zero => exact absurd hfuel (by omega)
  | succ fuel =>
    refine ⟨fuel, by omega, ?_⟩
    have hne : cmd ≠ [] := List.ne_nil_of_length_pos (by omega)
    rw [loop, if_neg hne, h]

theorem loop_error {r : IfResult} {fuel : ℕ} (hne : cmd ≠ []) (hfuel : cmd.length ≤ fuel)
    (h : s.round cmd = .error r) : loop fuel s cmd = r := by
  have hpos := List.length_pos_iff.mpr hne
  cases fuel with
  | zero => exact absurd hfuel (by omega)
  | succ fuel => rw [loop, if_neg hne, h]

/-- A round in a comparison. -/
theorem round_operands {c : Char} (hs : s.status = .operands) (hc : c ≠ ']') :
    s.round (c :: t) = .ok ((s.operand (c :: t)).1, (s.operand (c :: t)).2.drop 1) := by
  have hclose : tshellCheck (c :: t) [']'] = false := by
    simp [tshellCheck, List.isPrefixOf, Ne.symm hc]
  have hopen : s.openBracket (c :: t) = (s, c :: t) := by
    simp [openBracket, hs]
  have hnoclose : s.closeBracket (c :: t) = .ok (s, c :: t) := by
    simp [closeBracket, hclose]
  have hkeyword : s.keyword (c :: t) = .ok (s, c :: t) := by
    simp [keyword, hs]
  unfold round
  simp [hopen, hnoclose, hkeyword, hs, Bind.bind, Except.bind]

/-- A round while a command is passed over. -/
theorem round_skipping {c : Char} (hs : s.status = .skipping)
    (hkw : ∀ kw ∈ [kwElif, kwElse], tshellCheck (c :: t) kw = false) :
    s.round (c :: t) = .ok (s, t) := by
  have hopen : s.openBracket (c :: t) = (s, c :: t) := by
    simp [openBracket, hs]
  have hclose : s.closeBracket (c :: t) = .ok (s, c :: t) := by
    simp [closeBracket, hs]
  have hkeyword : s.keyword (c :: t) = .ok (s, c :: t) := by
    simp [keyword, hs, hkw kwElif, hkw kwElse]
  unfold round
  simp [hopen, hclose, hkeyword, hs, Bind.bind, Except.bind]

/-! ## The parser in a comparison -/

/-- The characters of an operand that are kept. -/
def kept (t : Text) : Text := t.filter (· ≠ '"')

theorem operand_kept {o : Operand} (ho : o.Plain) :
    kept o.text = o.value ∧ ' ' ∉ o.text ∧ ']' ∉ o.text := by
  obtain ⟨_, hblank, hclose, hquote⟩ := ho
  have hvalue : o.value.filter (· ≠ '"') = o.value :=
    List.filter_eq_self.mpr fun c hc => decide_eq_true fun h => hquote (h ▸ hc)
  unfold Operand.text kept
  cases o.quoted <;> simp_all

theorem kept_append (t u : Text) : kept (t ++ u) = kept t ++ kept u := List.filter_append ..

/-- A character of an operand, of which this has been read. -/
def readChar (m : Meet) (x : Text) (c : Char) : Meet × Text :=
  match m with
  | .yes => if c = ' ' then (.done, x) else if c = '"' then (m, x) else (m, x ++ [c])
  | _ => if c = ' ' ∨ c = '"' then (m, x) else (.yes, x ++ [c])

/-- The states in which the parser reads an operand. -/
def ReadsOperand (put : Meet → Text → IfState) : Prop :=
  ∀ m x c t, m ≠ .done → c ≠ ']' →
    (put m x).round (c :: t) = .ok (put (readChar m x c).1 (readChar m x c).2, t)

theorem left_reads (r : Text) (b : Bool) :
    ReadsOperand fun m x => ⟨.operands, x, m, r, .no, none, b⟩ := by
  intro m x c t hm hc
  rw [round_operands rfl hc]
  cases m with
  | no => by_cases h : c = ' ' ∨ c = '"' <;> simp [operand, leftChar, readChar, h]
  | yes =>
    by_cases hblank : c = ' '
    · simp [operand, leftChar, readChar, hblank]
    · by_cases hquote : c = '"' <;> simp [operand, leftChar, readChar, hblank, hquote]
  | done => exact absurd rfl hm

theorem right_reads (l : Text) (j : Ordering) (b : Bool) :
    ReadsOperand fun m x => ⟨.operands, l, .done, x, m, some j, b⟩ := by
  intro m x c t hm hc
  rw [round_operands rfl hc]
  cases m with
  | no => by_cases h : c = ' ' ∨ c = '"' <;> simp [operand, rightChar, readChar, h]
  | yes =>
    by_cases hblank : c = ' '
    · simp [operand, rightChar, readChar, hblank]
    · by_cases hquote : c = '"' <;> simp [operand, rightChar, readChar, hblank, hquote]
  | done => exact absurd rfl hm

section Operands
variable {put : Meet → Text → IfState} (hput : ReadsOperand put) {x y : Text} (hblank : ' ' ∉ y)
  (hclose : ']' ∉ y)
include hput

/-- A blank before an operand makes no difference. -/
theorem ReadsOperand.blank : Goes (put .no x) (' ' :: t) (put .no x) t :=
  Goes.of_round (hput .no x ' ' t (by decide) (by decide)) (Nat.lt_succ_self _)

include hblank hclose

/-- An operand that has begun goes on to the next blank. -/
theorem ReadsOperand.goes_on : Goes (put .yes x) (y ++ ' ' :: t) (put .done (x ++ kept y)) t := by
  induction y generalizing x with
  | nil =>
    rw [show kept [] = [] from rfl, List.append_nil]
    exact Goes.of_round (hput .yes x ' ' t (by decide) (by decide)) (Nat.lt_succ_self _)
  | cons c y ih =>
    rw [List.mem_cons, not_or] at hblank hclose
    have hround := hput .yes x c (y ++ ' ' :: t) (by decide) (Ne.symm hclose.1)
    have hchar : readChar .yes x c = (.yes, x ++ kept [c]) := by
      by_cases hc : c = '"' <;> simp [readChar, kept, Ne.symm hblank.1, hc]
    rw [hchar] at hround
    refine (Goes.of_round hround (Nat.lt_succ_self _)).trans ?_
    have hrest := ih (x := x ++ kept [c]) hblank.2 hclose.2
    rw [List.append_assoc, ← kept_append] at hrest
    exact hrest

/-- It begins with its first character that is kept. -/
theorem ReadsOperand.goes (hne : kept y ≠ []) :
    Goes (put .no x) (y ++ ' ' :: t) (put .done (x ++ kept y)) t := by
  induction y with
  | nil => exact absurd rfl hne
  | cons c y ih =>
    rw [List.mem_cons, not_or] at hblank hclose
    have hround := hput .no x c (y ++ ' ' :: t) (by decide) (Ne.symm hclose.1)
    by_cases hc : c = '"'
    · have hkept : kept (c :: y) = kept y := by
        simp [kept, hc]
      rw [show readChar .no x c = (.no, x) by simp [readChar, hc]] at hround
      rw [hkept] at hne ⊢
      exact (Goes.of_round hround (Nat.lt_succ_self _)).trans (ih hblank.2 hclose.2 hne)
    · have hkept : x ++ kept (c :: y) = x ++ [c] ++ kept y := by
        simp [kept, hc]
      rw [show readChar .no x c = (.yes, x ++ [c]) by simp [readChar, hc, Ne.symm hblank.1]] at hround
      rw [hkept]
      exact (Goes.of_round hround (Nat.lt_succ_self _)).trans (hput.goes_on hblank.2 hclose.2)

end Operands

section Comparison
variable {l r : Text} {j : Ordering} {b : Bool}

/-- The comparison and the blank behind it. -/
theorem op_goes : Goes ⟨.operands, l, .done, r, .no, none, b⟩ (opText j ++ ' ' :: t)
    ⟨.operands, l, .done, r, .no, some j, b⟩ t := by
  have hlen : t.length < (' ' :: ' ' :: t).length := Nat.lt_of_succ_lt (Nat.lt_succ_self _)
  cases j with
  | eq =>
    have heq : Goes ⟨.operands, l, .done, r, .no, none, b⟩ ('=' :: '=' :: ' ' :: t)
        ⟨.operands, l, .done, r, .no, some .eq, b⟩ (' ' :: t) :=
      Goes.of_round ((round_operands rfl (by decide)).trans rfl)
        (Nat.lt_of_succ_lt (Nat.lt_succ_self _))
    exact heq.trans (right_reads l .eq b).blank
  | lt => exact Goes.of_round ((round_operands rfl (by decide)).trans rfl) hlen
  | gt => exact Goes.of_round ((round_operands rfl (by decide)).trans rfl) hlen

/-- The parser is behind a comparison. -/
def after (l r : Text) (holds : Bool) : IfState :=
  ⟨if holds then .thenNext else .skipping, l, .no, r, .no, none, false⟩

/-- The end of a comparison. -/
theorem round_close :
    round ⟨.operands, l, .done, r, .done, some j, b⟩
        ((if b then [']', ']'] else [']']) ++ ';' :: ' ' :: t) =
      match (if b then compareString l r else some (compareNumber l r)) with
      | none => .error .hang
      | some answer => .ok (after l r (answer = j), t) := by
  have hclose : closeBracket ⟨.operands, l, .done, r, .done, some j, b⟩
      ((if b then [']', ']'] else [']']) ++ ';' :: ' ' :: t) =
      match (if b then compareString l r else some (compareNumber l r)) with
      | none => .error .hang
      | some answer => .ok (after l r (answer = j), ' ' :: t) := by
    cases b with
    | true =>
      change (match compareString l r with | none => _ | some _ => _) = _
      cases compareString l r with
      | none => rfl
      | some answer =>
        by_cases h : answer = j
        · simp [after, h]
        · simp [after, h, Ne.symm h]
    | false =>
      by_cases h : compareNumber l r = j
      · simp [closeBracket, tshellCheck, List.isPrefixOf, answer, after, h]
      · simp [closeBracket, tshellCheck, List.isPrefixOf, answer, after, h, Ne.symm h]
  have hopen : openBracket ⟨.operands, l, .done, r, .done, some j, b⟩
      ((if b then [']', ']'] else [']']) ++ ';' :: ' ' :: t) =
      (⟨.operands, l, .done, r, .done, some j, b⟩,
        (if b then [']', ']'] else [']']) ++ ';' :: ' ' :: t) := by
    simp [openBracket]
  unfold round
  rw [hopen]
  dsimp only
  rw [hclose]
  cases (if b then compareString l r else some (compareNumber l r)) with
  | none => rfl
  | some answer =>
    dsimp only
    cases decide (answer = j) <;> rfl

end Comparison

/-- The parser reads a comparison up to its end. -/
theorem comparison_goes {c : Comparison} (hleft : c.left.Plain) (hright : c.right.Plain) :
    Goes start (c.text ++ t)
      ⟨.operands, c.left.value, .done, c.right.value, .done, some c.op, c.string⟩
      ((if c.string then [']', ']'] else [']']) ++ t) := by
  obtain ⟨hkept, hblank, hclose⟩ := operand_kept hleft
  obtain ⟨hkept', hblank', hclose'⟩ := operand_kept hright
  have htext : c.text ++ t = (if c.string then ['[', '['] else ['[']) ++ ' ' :: (c.left.text ++ ' ' ::
      (opText c.op ++ ' ' :: (c.right.text ++ ' ' ::
        ((if c.string then [']', ']'] else [']']) ++ t)))) := by
    simp [Comparison.text]
  have hopen : ∀ u, Goes start ((if c.string then ['[', '['] else ['[']) ++ ' ' :: u)
      ⟨.operands, [], .no, [], .no, none, c.string⟩ u := by
    intro u
    cases c.string with
    | true => exact Goes.of_round rfl (show u.length < u.length + 3 by omega)
    | false => exact Goes.of_round rfl (show u.length < u.length + 2 by omega)
  have hreadleft := (left_reads [] c.string).goes (x := []) (t := opText c.op ++ ' ' ::
    (c.right.text ++ ' ' :: ((if c.string then [']', ']'] else [']']) ++ t))) hblank hclose
    (hkept ▸ hleft.1)
  have hreadright := (right_reads c.left.value c.op c.string).goes (x := [])
    (t := (if c.string then [']', ']'] else [']']) ++ t) hblank' hclose' (hkept' ▸ hright.1)
  rw [hkept, List.nil_append] at hreadleft
  rw [hkept', List.nil_append] at hreadright
  rw [htext]
  exact (hopen _).trans (hreadleft.trans (op_goes.trans hreadright))

/-- What the parser finds at a comparison, before a `;`. -/
theorem loop_comparison {c : Comparison} (hleft : c.left.Plain) (hright : c.right.Plain) {fuel : ℕ}
    (hfuel : (c.text ++ ';' :: ' ' :: t).length ≤ fuel) :
    ∃ fuel', t.length ≤ fuel' ∧ loop fuel start (c.text ++ ';' :: ' ' :: t) =
      match c.answered with
      | none => .hang
      | some holds => loop fuel' (after c.left.value c.right.value holds) t := by
  obtain ⟨fuel₁, hfuel₁, hloop₁⟩ := comparison_goes hleft hright fuel hfuel
  rw [hloop₁]
  have hround := round_close (t := t) (l := c.left.value) (r := c.right.value) (j := c.op)
    (b := c.string)
  rw [Comparison.answered_eq]
  cases hanswer : (if c.string then compareString c.left.value c.right.value
      else some (compareNumber c.left.value c.right.value)) with
  | none =>
    rw [hanswer] at hround
    refine ⟨t.length, Nat.le_refl _, loop_error ?_ hfuel₁ hround⟩
    cases c.string <;> exact List.cons_ne_nil _ _
  | some answer =>
    rw [hanswer] at hround
    refine Goes.of_round hround ?_ fuel₁ hfuel₁
    cases c.string <;> simp <;> omega

/-- A command that is passed over. -/
theorem skip_goes {l r x rest : Text} (hx : x = [] ∨ x.getLast? = some ' ')
    (helif : containsKeyword kwElif x = false) (helse : containsKeyword kwElse x = false) :
    Goes (after l r false) (x ++ rest) (after l r false) rest := by
  induction x with
  | nil => exact Goes.refl
  | cons c x ih =>
    have hlast : (c :: x).getLast? = some ' ' := hx.resolve_left (List.cons_ne_nil _ _)
    have hx' : x = [] ∨ x.getLast? = some ' ' := by
      cases x with
      | nil => exact .inl rfl
      | cons d x => exact .inr (by rwa [List.getLast?_cons_cons] at hlast)
    unfold containsKeyword at helif helse
    rw [Bool.or_eq_false_iff] at helif helse
    have hround : round (after l r false) (c :: (x ++ rest)) = .ok (after l r false, x ++ rest) := by
      refine round_skipping rfl fun kw hkw => ?_
      rcases List.mem_pair.mp hkw with rfl | rfl
      · exact (tshellCheck_append (by decide) hlast).trans helif.1
      · exact (tshellCheck_append (by decide) hlast).trans helse.1
    exact (Goes.of_round hround (Nat.lt_succ_self _)).trans (ih hx' helif.2 helse.2)

/-! ## The parser on an `if` statement -/

/-- What the parser comes to. -/
def result (otherwise : Option Text) : List (Comparison × Text) → IfResult
  | [] =>
    match otherwise with
    | none => .pass
    | some command => .exec (branchText (bodyText command))
  | (c, command) :: branches =>
    match c.answered with
    | none => .hang
    | some true => .exec (branchText (bodyText command))
    | some false => result otherwise branches

theorem clauseText_append (c : Comparison) (command rest : Text) :
    clauseText c command ++ rest =
      ' ' :: (c.text ++ ';' :: ' ' :: (kwThen ++ bodyText command ++ rest)) := by
  simp [clauseText]

theorem behindText_cons (otherwise : Option Text) (c : Comparison) (command : Text)
    (elifs : List (Comparison × Text)) : behindText otherwise ((c, command) :: elifs) =
      kwElif ++ ' ' :: (c.text ++ ';' :: ' ' :: (kwThen ++ bodyText command ++
        behindText otherwise elifs)) := by
  rw [behindText, List.append_assoc, clauseText_append]

theorem kwFi_suffix (otherwise : Option Text) (elifs : List (Comparison × Text)) :
    kwFi <:+ behindText otherwise elifs := by
  induction elifs with
  | nil =>
    cases otherwise with
    | none => exact List.suffix_refl _
    | some command => exact List.suffix_append _ _
  | cons x elifs ih => exact ih.trans (List.suffix_append _ _)

theorem branchText_behindText (otherwise : Option Text) (elifs : List (Comparison × Text)) :
    branchText (behindText otherwise elifs) = [] := by
  cases elifs with
  | nil => cases otherwise <;> rfl
  | cons x elifs => rfl

/-- The parser at a comparison, with what is to be found behind its branch. -/
theorem loop_clause {c : Comparison} {command rest : Text} {branches : List (Comparison × Text)}
    {otherwise : Option Text} (hrest : branchText rest = [])
    (hread : Readable ((c, command) :: branches))
    (ih : ∀ l r fuel, Readable branches → rest.length ≤ fuel →
      loop fuel (after l r false) rest = result otherwise branches)
    {fuel : ℕ} (hfuel : (c.text ++ ';' :: ' ' :: (kwThen ++ bodyText command ++ rest)).length ≤ fuel) :
    loop fuel start (c.text ++ ';' :: ' ' :: (kwThen ++ bodyText command ++ rest)) =
      result otherwise ((c, command) :: branches) := by
  obtain ⟨hleft, hright, hskip⟩ := hread
  obtain ⟨fuel', hfuel', hloop⟩ := loop_comparison hleft hright hfuel
  rw [hloop]
  unfold result
  cases hanswer : c.answered with
  | none => rfl
  | some holds =>
    cases holds with
    | true =>
      rw [List.append_assoc] at hfuel' ⊢
      have hbranch : branchText (bodyText command ++ rest) = branchText (bodyText command) :=
        branchText_append (.inr (bodyText_getLast command)) hrest
      rw [← hbranch]
      exact loop_error (List.cons_ne_nil _ _) hfuel' rfl
    | false =>
      obtain ⟨helif, helse, hread⟩ := hskip hanswer
      obtain ⟨fuel₂, hfuel₂, hloop₂⟩ := skip_goes (l := c.left.value) (r := c.right.value)
        (x := kwThen ++ bodyText command) (.inr (bodyText_getLast command)) helif helse fuel' hfuel'
      dsimp only
      rw [hloop₂]
      exact ih _ _ _ hread hfuel₂

theorem loop_behind {otherwise : Option Text} {elifs : List (Comparison × Text)} {l r : Text}
    (hread : Readable elifs) {fuel : ℕ} (hfuel : (behindText otherwise elifs).length ≤ fuel) :
    loop fuel (after l r false) (behindText otherwise elifs) = result otherwise elifs := by
  induction elifs generalizing l r fuel with
  | nil =>
    cases otherwise with
    | none =>
      obtain ⟨fuel, rfl⟩ := Nat.exists_eq_add_of_le hfuel
      change loop (2 + fuel) _ _ = _
      rw [Nat.add_comm]
      cases fuel <;> rfl
    | some command =>
      have hbranch : branchText (bodyText command ++ kwFi) = branchText (bodyText command) :=
        branchText_append (.inr (bodyText_getLast command)) rfl
      unfold result
      dsimp only
      rw [← hbranch]
      exact loop_error (List.cons_ne_nil _ _) hfuel rfl
  | cons x elifs ih =>
    obtain ⟨c, command⟩ := x
    have hround : ∀ u, Goes (after l r false) (kwElif ++ ' ' :: u) start u := fun u =>
      Goes.of_round rfl (show u.length < u.length + 5 by omega)
    rw [behindText_cons] at hfuel ⊢
    obtain ⟨fuel', hfuel', hloop⟩ := hround _ fuel hfuel
    rw [hloop]
    exact loop_clause (branchText_behindText ..) hread
      (fun _ _ _ hread' hfuel'' => ih hread' hfuel'') hfuel'

end IfState

/-- The parser comes to the branch that its comparisons choose. -/
theorem tshellIfElse_text {s : IfStatement} (hread : Readable s.branches) :
    tshellIfElse s.text = IfState.result s.otherwise s.branches := by
  obtain ⟨⟨c, command⟩, elifs, otherwise⟩ := s
  have hsuffix : kwFi.isSuffixOf (IfStatement.text ⟨(c, command), elifs, otherwise⟩) = true :=
    List.isSuffixOf_iff_suffix.mpr
      ((IfState.kwFi_suffix otherwise elifs).trans (List.suffix_append _ _))
  have htext : IfStatement.text ⟨(c, command), elifs, otherwise⟩ =
      kwIf ++ ' ' :: (c.text ++ ';' :: ' ' ::
        (kwThen ++ bodyText command ++ behindText otherwise elifs)) := by
    rw [IfStatement.text, List.append_assoc, IfState.clauseText_append]
  have hblank : ∀ u, IfState.Goes .start (' ' :: u) .start u := fun u =>
    IfState.Goes.of_round rfl (Nat.lt_succ_self _)
  rw [htext] at hsuffix ⊢
  unfold tshellIfElse
  change (if kwFi.isSuffixOf (kwIf ++ ' ' :: (c.text ++ ';' :: ' ' :: (kwThen ++ bodyText command ++
    behindText otherwise elifs))) then IfState.loop _ .start (' ' :: (c.text ++ ';' :: ' ' ::
      (kwThen ++ bodyText command ++ behindText otherwise elifs))) else _) = _
  rw [hsuffix, if_pos rfl]
  obtain ⟨fuel, hfuel, hloop⟩ := hblank (c.text ++ ';' :: ' ' :: (kwThen ++ bodyText command ++
    behindText otherwise elifs)) _ (Nat.le_add_right _ 2)
  refine hloop.trans ?_
  exact IfState.loop_clause (IfState.branchText_behindText ..) hread
    (fun _ _ _ hread' hfuel' => IfState.loop_behind hread' hfuel') hfuel

/-- A text that is chosen has a blank before the command. -/
theorem branchText_chosen {holds : Comparison → Option Bool} {otherwise : Option Text}
    {branches : List (Comparison × Text)} {text : Text}
    (h : chosen holds otherwise branches = some text) : IfState.branchText text ≠ [] := by
  induction branches with
  | nil =>
    obtain ⟨command, _, rfl⟩ := Option.map_eq_some_iff.mp h
    exact branchText_bodyText_ne_nil command
  | cons x branches ih =>
    obtain ⟨c, command⟩ := x
    unfold chosen at h
    split at h
    · cases h
    · cases h
      exact branchText_bodyText_ne_nil command
    · exact ih h

/-- The parser runs a text when its comparisons choose one. -/
theorem chosen_cases {s : IfStatement} {x : Text} :
    IfState.result s.otherwise s.branches = .exec x ↔
      ∃ text, chosen Comparison.answered s.otherwise s.branches = some text ∧
        IfState.branchText text = x := by
  induction s.branches with
  | nil =>
    unfold IfState.result chosen
    cases s.otherwise <;> simp
  | cons y branches ih =>
    obtain ⟨c, command⟩ := y
    unfold IfState.result chosen
    cases c.answered with
    | none => simp
    | some holds =>
      cases holds with
      | true => simp
      | false => exact ih

namespace Tshell
variable {σ : Type*} {sh : Tshell σ} {st : σ} {t b x : Text}

theorem exec_if (hne : t.dropWhile isWhite ≠ []) (hcomment : (t.dropWhile isWhite).head? ≠ some '#')
    (hlen : (t.dropWhile isWhite).length ≤ maxCommandLen - 1)
    (hconvert : strConvertVar (sh.vars st) (t.dropWhile isWhite) = .ok b)
    (hif : tshellIfElse b = .exec x) (fuel : ℕ) : sh.exec (fuel + 1) st t = sh.exec fuel st x := by
  rw [exec]
  dsimp only
  rw [if_neg (not_or.mpr ⟨hne, hcomment⟩), if_neg (Nat.not_lt_of_le hlen), hconvert]
  dsimp only
  rw [hif]

/-- `if [ 1 < 2 ]; then a; else b; fi`. -/
def lessStatement : IfStatement where
  first := (⟨false, ⟨['1'], false⟩, .lt, ⟨['2'], false⟩⟩, ['a'])
  elifs := []
  otherwise := some ['b']

/-- `if [ 1 == 2 ]; then a; fi`. -/
def equalStatement : IfStatement where
  first := (⟨false, ⟨['1'], false⟩, .eq, ⟨['2'], false⟩⟩, ['a'])
  elifs := []
  otherwise := none

end Tshell
end SylixOS.Shell
