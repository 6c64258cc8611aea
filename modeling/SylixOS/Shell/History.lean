import SylixOS.Shell.CommandList

/-! # What becomes of the line in the buffer

The shell reads a line to a buffer, runs the buffer, and then records what is in the buffer. A list is
split in place: the end mark of the first command is written over the operator, and stays there. -/

namespace SylixOS.Shell

/-- `PX_EOS`. -/
def pxEos : Char := '\x00'

/-- `__tshellAfterExecution`: what is inserted into the trie of the history. -/
def tshellAfterExecution (pcBuffer : Text) (stSize : ℕ) (returnValue : ℤ) : Option Text :=
  if returnValue = 0 then some (pcBuffer.take stSize) else none

namespace Tshell
variable {σ : Type*} (sh : Tshell σ)

/-- `__tshellExec` with what it leaves in the memory of the text that it is called with. -/
def execIn : ℕ → σ → Text → Option (Done σ × Text)
  | 0, _, _ => none
  | fuel + 1, st, pcCommandExec =>
    let blanks := pcCommandExec.takeWhile isWhite
    let pcCmd := pcCommandExec.dropWhile isWhite
    if pcCmd = [] ∨ pcCmd.head? = some '#' then some ((0, st, []), pcCommandExec)
    else if maxCommandLen - 1 < pcCmd.length then
      some (failed st pcCmd (-TshellError.eparam.code), pcCommandExec)
    else
      match strConvertVar (sh.vars st) pcCmd with
      | .error e => some (failed st pcCmd (-e.code), pcCommandExec)
      | .ok cCommandBuffer =>
        match tshellIfElse cCommandBuffer with
        | .error => some (failed st pcCmd (-2200), pcCommandExec)
        | .exec execCmd => do
          let (done, _) ← execIn fuel st execCmd
          some (done, pcCommandExec)
        | .hang => none
        | .pass =>
          match scan false false [] pcCmd with
          | .none =>
            let (r, st) := sh.run st cCommandBuffer
            some ((r, st, [pcCmd]), pcCommandExec)
          | .seq first second => do
            let ((error1, st, cmds1), firstMem) ← execIn fuel st first
            let ((error2, st, cmds2), secondMem) ← execIn fuel st second
            some ((min error1 error2, st, cmds1 ++ cmds2), blanks ++ firstMem ++ pxEos :: secondMem)
          | .and first second => do
            let ((r, st, cmds), firstMem) ← execIn fuel st first
            if 0 ≤ r then
              let ((r, st, cmds'), secondMem) ← execIn fuel st second
              some ((r, st, cmds ++ cmds'), blanks ++ firstMem ++ pxEos :: '&' :: secondMem)
            else some ((r, st, cmds), blanks ++ firstMem ++ pxEos :: '&' :: second)
          | .or first second => do
            let ((r, st, cmds), firstMem) ← execIn fuel st first
            if r < 0 then
              let ((r, st, cmds'), secondMem) ← execIn fuel st second
              some ((r, st, cmds ++ cmds'), blanks ++ firstMem ++ pxEos :: '|' :: secondMem)
            else some ((r, st, cmds), blanks ++ firstMem ++ pxEos :: '|' :: second)
          | .pipe err first second => do
            -- both commands are copied to arrays of their own
            let ((r, st, cmds), _) ← execIn fuel st (pipeFirst err first)
            if r < 0 ∧ err = false then
              let ((_, st, cmds'), _) ← execIn fuel st rmCmd
              some ((r, st, cmds ++ cmds'), pcCommandExec)
            else
              let ((r, st, cmds'), _) ← execIn fuel st (pipeSecond second)
              let ((_, st, cmds''), _) ← execIn fuel st rmCmd
              some ((r, st, cmds ++ cmds' ++ cmds''), pcCommandExec)

/-- A round of `__tshellThread` with a line in its buffer: what is in the buffer afterwards, and what
was recorded. -/
def threadRound (fuel : ℕ) (st : σ) (cRecvBuffer : Text) : Option (Text × Option Text) :=
  (sh.execIn fuel st cRecvBuffer).map fun (done, buffer) =>
    (buffer, tshellAfterExecution buffer cRecvBuffer.length done.1)

/-- The code comes to an operator of a list in the text, before it comes to a pipe. -/
def Splits (st : σ) (t : Text) : Prop :=
  (t.dropWhile isWhite).head? ≠ some '#' ∧ sh.Passes st t ∧
    ∃ (op : ListOp) (first second : Text),
      scan false false [] (t.dropWhile isWhite) = op.split first second

variable {sh} {st : σ} {t : Text} {fuel : ℕ}

/-! ## The memory -/

/-- What is in the memory of a text that was split at an operator. -/
def splitMem (t : Text) (op : ListOp) (firstMem secondMem : Text) : Text :=
  t.takeWhile isWhite ++ (firstMem ++ pxEos :: (op.text.drop 1 ++ secondMem))

/-- The memory stays as it is, or the text is split and both parts of it are as running them has left
them. -/
theorem execIn_cases {done : Done σ} {mem : Text} (h : sh.execIn (fuel + 1) st t = some (done, mem)) :
    (mem = t ∧ ¬ sh.Splits st t) ∨
      sh.Splits st t ∧ ∃ (op : ListOp) (first second firstMem secondMem : Text),
        scan false false [] (t.dropWhile isWhite) = op.split first second ∧
        mem = splitMem t op firstMem secondMem ∧
        (∃ done₁, sh.execIn fuel st first = some (done₁, firstMem)) ∧
        (secondMem = second ∨
          ∃ st₁ done₂, sh.execIn fuel st₁ second = some (done₂, secondMem)) := by
  unfold execIn at h
  dsimp only at h
  split_ifs at h with hblank hlen
  · cases h
    refine .inl ⟨rfl, ?_⟩
    rintro ⟨hcomment, -, op, first, second, hscan⟩
    rw [hblank.resolve_right hcomment] at hscan
    cases op <;> cases hscan
  · cases h
    refine .inl ⟨rfl, fun hs => ?_⟩
    have hpass := hs.2.1
    rw [Passes, checked, if_pos hlen] at hpass
    cases hpass
  have hcomment : (t.dropWhile isWhite).head? ≠ some '#' := fun h => hblank (.inr h)
  have hchecked : sh.checked st (t.dropWhile isWhite) =
      match strConvertVar (sh.vars st) (t.dropWhile isWhite) with
      | .error e => .error (-e.code)
      | .ok cCommandBuffer => .ok (tshellIfElse cCommandBuffer) := by
    unfold checked
    exact if_neg hlen
  unfold Splits Passes
  rw [hchecked]
  cases hconvert : strConvertVar (sh.vars st) (t.dropWhile isWhite) with
  | error e =>
    rw [hconvert] at h
    cases h
    exact .inl ⟨rfl, fun hs => by cases hs.2.1⟩
  | ok cCommandBuffer =>
    rw [hconvert] at h
    dsimp only at h ⊢
    cases hif : tshellIfElse cCommandBuffer with
    | error =>
      rw [hif] at h
      cases h
      exact .inl ⟨rfl, fun hs => by cases hs.2.1⟩
    | hang =>
      rw [hif] at h
      cases h
    | exec execCmd =>
      rw [hif] at h
      dsimp only at h
      obtain ⟨_, _, h⟩ := Option.bind_eq_some_iff.mp h
      cases h
      exact .inl ⟨rfl, fun hs => by cases hs.2.1⟩
    | pass =>
      rw [hif] at h
      dsimp only at h
      cases hscan : scan false false [] (t.dropWhile isWhite) with
      | none =>
        rw [hscan] at h
        cases h
        refine .inl ⟨rfl, ?_⟩
        rintro ⟨-, -, op, first, second, hop⟩
        cases op <;> cases hop
      | seq first second =>
        rw [hscan] at h
        obtain ⟨⟨⟨r, st₁, cmds⟩, m₁⟩, h₁, h⟩ := Option.bind_eq_some_iff.mp h
        obtain ⟨⟨⟨r₂, st₂, cmds₂⟩, m₂⟩, h₂, h⟩ := Option.bind_eq_some_iff.mp h
        cases h
        refine .inr ⟨⟨hcomment, rfl, .seq, first, second, rfl⟩, .seq, first, second, m₁, m₂, rfl, ?_,
          ⟨_, h₁⟩, .inr ⟨_, _, h₂⟩⟩
        simp [splitMem, ListOp.text]
      | and first second =>
        rw [hscan] at h
        obtain ⟨⟨⟨r, st₁, cmds⟩, m₁⟩, h₁, h⟩ := Option.bind_eq_some_iff.mp h
        dsimp only at h
        split_ifs at h with hr
        · obtain ⟨⟨⟨r₂, st₂, cmds₂⟩, m₂⟩, h₂, h⟩ := Option.bind_eq_some_iff.mp h
          cases h
          refine .inr ⟨⟨hcomment, rfl, .and, first, second, rfl⟩, .and, first, second, m₁, m₂, rfl,
            ?_, ⟨_, h₁⟩, .inr ⟨_, _, h₂⟩⟩
          simp [splitMem, ListOp.text]
        · cases h
          refine .inr ⟨⟨hcomment, rfl, .and, first, second, rfl⟩, .and, first, second, m₁, second,
            rfl, ?_, ⟨_, h₁⟩, .inl rfl⟩
          simp [splitMem, ListOp.text]
      | or first second =>
        rw [hscan] at h
        obtain ⟨⟨⟨r, st₁, cmds⟩, m₁⟩, h₁, h⟩ := Option.bind_eq_some_iff.mp h
        dsimp only at h
        split_ifs at h with hr
        · obtain ⟨⟨⟨r₂, st₂, cmds₂⟩, m₂⟩, h₂, h⟩ := Option.bind_eq_some_iff.mp h
          cases h
          refine .inr ⟨⟨hcomment, rfl, .or, first, second, rfl⟩, .or, first, second, m₁, m₂, rfl, ?_,
            ⟨_, h₁⟩, .inr ⟨_, _, h₂⟩⟩
          simp [splitMem, ListOp.text]
        · cases h
          refine .inr ⟨⟨hcomment, rfl, .or, first, second, rfl⟩, .or, first, second, m₁, second, rfl,
            ?_, ⟨_, h₁⟩, .inl rfl⟩
          simp [splitMem, ListOp.text]
      | pipe err first second =>
        rw [hscan] at h
        refine .inl ⟨?_, ?_⟩
        · obtain ⟨⟨⟨r, st₁, cmds⟩, m₁⟩, h₁, h⟩ := Option.bind_eq_some_iff.mp h
          dsimp only at h
          split_ifs at h with hr
          · obtain ⟨_, _, h⟩ := Option.bind_eq_some_iff.mp h
            cases h
            rfl
          · obtain ⟨_, _, h⟩ := Option.bind_eq_some_iff.mp h
            obtain ⟨_, _, h⟩ := Option.bind_eq_some_iff.mp h
            cases h
            rfl
        · rintro ⟨-, -, op, first, second, hop⟩
          cases op <;> cases hop

/-- Nothing is lost when a text is split. -/
theorem scan_split {i₁ i₂ : Bool} {acc t : Text} {op : ListOp} {first second : Text}
    (h₁ : i₁ = true → acc = acc.dropLast ++ ['|']) (h₂ : i₂ = true → acc = acc.dropLast ++ ['&'])
    (h : scan i₁ i₂ acc t = op.split first second) :
    acc ++ t = first ++ (op.text ++ second) := by
  induction t generalizing i₁ i₂ acc with
  | nil => cases op <;> cases h
  | cons c t ih =>
    have hnext {i₁ i₂ : Bool} (h₁ : i₁ = true → c = '|') (h₂ : i₂ = true → c = '&')
        (h : scan i₁ i₂ (acc ++ [c]) t = op.split first second) :
        acc ++ c :: t = first ++ (op.text ++ second) := by
      rw [List.append_cons]
      refine ih (fun hi => ?_) (fun hi => ?_) h
      · rw [List.dropLast_concat, h₁ hi]
      · rw [List.dropLast_concat, h₂ hi]
    rw [scan] at h
    split_ifs at h with hbar hi₁ hi₁ hamp hamp hi₂ hsemi
    · cases op <;> cases h
      conv_lhs => rw [h₁ hi₁, hbar]
      simp [ListOp.text]
    · exact hnext (fun _ => hbar) (fun hi => by cases hi) h
    · cases op <;> cases h
    · cases op <;> cases h
    · cases op <;> cases h
      conv_lhs => rw [h₂ hi₂, hamp]
      simp [ListOp.text]
    · exact hnext (fun hi => by cases hi) (fun _ => hamp) h
    · cases op <;> cases h
      rw [hsemi]
      rfl
    · exact hnext (fun hi => by cases hi) (fun hi => by cases hi) h

theorem execIn_length {done : Done σ} {mem : Text} (h : sh.execIn fuel st t = some (done, mem)) :
    mem.length = t.length := by
  induction fuel generalizing st t done mem with
  | zero => cases h
  | succ fuel ih =>
    rcases execIn_cases h with ⟨rfl, -⟩ |
      ⟨-, op, first, second, m₁, m₂, hscan, rfl, ⟨_, h₁⟩, h₂⟩
    · rfl
    · have hlen₁ := ih h₁
      have hlen₂ : m₂.length = second.length := by
        rcases h₂ with rfl | ⟨_, _, h₂⟩
        · rfl
        · exact ih h₂
      have ht := congrArg List.length (scan_split (by simp) (by simp) hscan)
      rw [← List.takeWhile_append_dropWhile (p := isWhite) (l := t), splitMem]
      simp only [List.length_append, List.length_cons] at ht ⊢
      cases op <;> simp [ListOp.text] at ht ⊢ <;> omega

/-- The text in memory is what it was unless it was split. -/
theorem execIn_mem_iff {done : Done σ} {mem : Text} (h : sh.execIn fuel st t = some (done, mem)) :
    mem = t ↔ ¬ sh.Splits st t := by
  cases fuel with
  | zero => cases h
  | succ fuel =>
    rcases execIn_cases h with ⟨rfl, hs⟩ |
      ⟨hs, op, first, second, m₁, m₂, hscan, rfl, ⟨_, h₁⟩, -⟩
    · exact iff_of_true rfl hs
    · refine iff_of_false (fun heq => ?_) (not_not.mpr hs)
      -- the end mark is where the operator was
      have ht : t.dropWhile isWhite = _ := scan_split (by simp) (by simp) hscan
      have hsame := List.takeWhile_append_dropWhile (p := isWhite) (l := t)
      rw [ht] at hsame
      have htail := List.append_cancel_left (heq.trans hsame.symm)
      have hmark := (List.append_inj htail (execIn_length h₁)).2
      cases op <;> cases hmark

/-- A shell without variables in which every command succeeds. -/
def onlySucceeds : Tshell Unit where
  vars := fun _ => ⟨fun _ => [], 0⟩
  run := fun st _ => (0, st)

end Tshell
end SylixOS.Shell
