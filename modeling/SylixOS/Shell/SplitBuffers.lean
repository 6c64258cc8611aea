import Mathlib.Logic.Relation
import SylixOS.Shell.History
import SylixOS.Shell.Quoted

/-! # The arrays of the splitter

The loop over a command line copies it to the array `firstCmd`, and the rest of a pipe to `secondCmd`.
The arrays have some characters more than the line, for the texts that are put in. For a `|&` this is not
enough when the line ends behind it, or one character later. -/

namespace SylixOS.Shell

/-- A character is written behind those that are in an array of a size. -/
def put (size : ℕ) (cmd : Text) (c : Char) : Option Text :=
  if cmd.length < size then some (cmd ++ [c]) else none

def putAll (size : ℕ) (cmd t : Text) : Option Text := t.foldlM (put size) cmd

theorem putAll_eq {size : ℕ} {cmd t : Text} (hcmd : cmd.length ≤ size) :
    putAll size cmd t = if cmd.length + t.length ≤ size then some (cmd ++ t) else none := by
  induction t generalizing cmd with
  | nil =>
    rw [List.append_nil, List.length_nil, Nat.add_zero, if_pos hcmd]
    rfl
  | cons c t ih =>
    change (put size cmd c >>= fun cmd => putAll size cmd t) = _
    unfold put
    by_cases hlen : cmd.length < size
    · have hnext : (cmd ++ [c]).length ≤ size := by
        rw [List.length_append, List.length_singleton]
        exact hlen
      rw [if_pos hlen]
      change putAll size (cmd ++ [c]) t = _
      rw [ih hnext, List.append_assoc, List.length_append, List.length_singleton, List.length_cons,
        Nat.add_assoc, Nat.add_comm 1]
      rfl
    · rw [if_neg hlen, List.length_cons, if_neg (by omega)]
      rfl

/-- The loop of `__tshellExec` with the array `firstCmd`: it has no result when it writes behind the
array. At a pipe the `|` is replaced, and the redirection is put behind it with an end mark. -/
def scanIn (size : ℕ) (index1 index2 : Bool) (firstCmd : Text) : Text → Option CmdSplit
  | [] => some .none
  | c :: t =>
    if c = '|' then
      if index1 then some (.or firstCmd.dropLast t)
      else do
        let firstCmd ← put size firstCmd c
        scanIn size true false firstCmd t
    else if index1 then
      if c = '&' then do
        let _ ← putAll size (firstCmd.dropLast ++ ['1'])
          ('>' :: logFile ++ ' ' :: '2' :: '>' :: logFile ++ [pxEos])
        some (.pipe true firstCmd.dropLast t)
      else do
        let _ ← putAll size (firstCmd.dropLast ++ ['>']) (logFile ++ [pxEos])
        some (.pipe false firstCmd.dropLast (c :: t))
    else if c = '&' then
      if index2 then some (.and firstCmd.dropLast t)
      else do
        let firstCmd ← put size firstCmd c
        scanIn size false true firstCmd t
    else if c = ';' then some (.seq firstCmd t)
    else do
      let firstCmd ← put size firstCmd c
      scanIn size false false firstCmd t

/-- The loop over the rest of a pipe with the array `secondCmd`, which `/etc/.log` is not yet in as long
as there is `pass`. -/
def secondIn (size : ℕ) (pass : Bool) (secondCmd : Text) : Text → Option Text
  | [] => putAll size secondCmd (if pass then ' ' :: logFile ++ [pxEos] else [pxEos])
  | c :: t => do
    let secondCmd ←
      putAll size secondCmd (if isOperator (c :: t) && pass then ' ' :: logFile ++ [' '] else [])
    let secondCmd ← put size secondCmd c
    secondIn size (pass && !isOperator (c :: t)) secondCmd t

/-- How a command line is split, unless something is written behind an array. -/
def splitIn (pcCmd : Text) : Option CmdSplit := do
  let split ← scanIn (pcCmd.length + 20) false false [] pcCmd
  match split with
  | .pipe _ _ second =>
    let _ ← secondIn (pcCmd.length + 15) true [] second
    some split
  | _ => some split

/-! ## What fits -/

/-- Nothing is written behind the end of a second command. -/
theorem secondIn_spec {size : ℕ} {pass : Bool} {secondCmd t : Text}
    (hsize : secondCmd.length + t.length + (if pass then 12 else 1) ≤ size) :
    secondIn size pass secondCmd t =
      some (secondCmd ++ (if pass then pipeSecond t else t) ++ [pxEos]) := by
  induction t generalizing pass secondCmd with
  | nil =>
    rw [secondIn, putAll_eq (by omega)]
    cases pass with
    | true =>
      rw [if_pos rfl] at hsize
      rw [if_pos rfl, if_pos rfl, if_pos (by simpa [logFile] using Nat.le_of_succ_le hsize)]
      simp [pipeSecond]
    | false =>
      rw [if_neg Bool.false_ne_true, if_neg Bool.false_ne_true, if_pos (by simpa using hsize)]
      simp
  | cons c t ih =>
    rw [List.length_cons] at hsize
    have hput : ∀ {cmd : Text} {pass : Bool}, cmd.length + (t.length + 1) + (if pass then 12 else 1) ≤
        size → (do let cmd ← put size cmd c; secondIn size pass cmd t) =
          some (cmd ++ [c] ++ (if pass then pipeSecond t else t) ++ [pxEos]) := by
      intro cmd pass hcmd
      have hlen : cmd.length < size := by
        split_ifs at hcmd <;> omega
      unfold put
      rw [if_pos hlen]
      refine ih ?_
      rw [List.length_append, List.length_singleton]
      omega
    rw [secondIn, putAll_eq (by omega)]
    cases hop : isOperator (c :: t) with
    | true =>
      cases pass with
      | true =>
        rw [if_pos rfl] at hsize
        have hlog : (' ' :: logFile ++ [' ']).length = 11 := rfl
        rw [Bool.and_self, if_pos rfl, hlog, if_pos (by omega)]
        have hnext := @hput (secondCmd ++ (' ' :: logFile ++ [' '])) false (by
          rw [List.length_append, hlog, if_neg Bool.false_ne_true]
          omega)
        refine hnext.trans ?_
        rw [if_neg Bool.false_ne_true, if_pos rfl, pipeSecond, if_pos hop]
        simp
      | false =>
        rw [Bool.and_false, if_neg Bool.false_ne_true, List.append_nil, if_pos (by simp; omega)]
        refine (@hput secondCmd false hsize).trans ?_
        simp
    | false =>
      rw [Bool.false_and, if_neg Bool.false_ne_true, List.append_nil, if_pos (by simp; omega),
        Bool.not_false, Bool.and_true]
      refine (hput hsize).trans ?_
      cases pass with
      | true => simp [pipeSecond, hop]
      | false => simp

/-- What is written to the array of the first command fits in, unless the line ends behind a `|&` or one
character later. -/
theorem scanIn_eq {size : ℕ} {index1 index2 : Bool} {firstCmd t : Text}
    (hsize : size = firstCmd.length + t.length + 20) (hbar : index1 = true → firstCmd ≠ []) :
    scanIn size index1 index2 firstCmd t =
      match scan index1 index2 firstCmd t with
      | .pipe true first second => if 2 ≤ second.length then some (.pipe true first second) else none
      | split => some split := by
  induction t generalizing index1 index2 firstCmd with
  | nil => rfl
  | cons c t ih =>
    rw [List.length_cons] at hsize
    have hput : ∀ {i₁ i₂ : Bool}, (do let cmd ← put size firstCmd c; scanIn size i₁ i₂ cmd t) =
        match scan i₁ i₂ (firstCmd ++ [c]) t with
        | .pipe true first second => if 2 ≤ second.length then some (.pipe true first second) else none
        | split => some split := by
      intro i₁ i₂
      unfold put
      rw [if_pos (by omega)]
      refine ih ?_ fun _ => by simp
      rw [List.length_append, List.length_singleton]
      omega
    rw [scanIn, scan]
    by_cases hc : c = '|'
    · rw [if_pos hc, if_pos hc]
      cases index1 with
      | true => rfl
      | false => exact hput
    · rw [if_neg hc, if_neg hc]
      cases index1 with
      | true =>
        have hlast : ∀ x : Char, (firstCmd.dropLast ++ [x]).length = firstCmd.length := by
          intro x
          have hpos := List.length_pos_iff.mpr (hbar rfl)
          rw [List.length_append, List.length_dropLast, List.length_singleton]
          omega
        rw [if_pos rfl, if_pos rfl]
        by_cases hand : c = '&'
        · rw [if_pos hand, if_pos hand, putAll_eq (by rw [hlast]; omega), hlast]
          have hlen : ('>' :: logFile ++ ' ' :: '2' :: '>' :: logFile ++ [pxEos]).length = 23 := rfl
          rw [hlen]
          dsimp only
          by_cases ht : 2 ≤ t.length
          · rw [if_pos ht, if_pos (by omega)]
            rfl
          · rw [if_neg ht, if_neg (by omega)]
            rfl
        · rw [if_neg hand, if_neg hand, putAll_eq (by rw [hlast]; omega), hlast]
          have hlen : (logFile ++ [pxEos]).length = 10 := rfl
          rw [hlen, if_pos (by omega)]
          rfl
      | false =>
        rw [if_neg Bool.false_ne_true, if_neg Bool.false_ne_true]
        by_cases hand : c = '&'
        · rw [if_pos hand, if_pos hand]
          cases index2 with
          | true => rfl
          | false => exact hput
        · rw [if_neg hand, if_neg hand]
          by_cases hsemi : c = ';'
          · rw [if_pos hsemi, if_pos hsemi]
          · rw [if_neg hsemi, if_neg hsemi]
            exact hput

/-! ## The first operator is a `|&` -/

/-- The first operator of a command line is a `|&`, with a text behind it. -/
def PipesErr (pcCmd second : Text) : Prop :=
  ∃ first, pcCmd = first ++ '|' :: '&' :: second ∧ '|' ∉ first ∧ ';' ∉ first ∧
    ¬ ['&', '&'] <:+: first

theorem scan_pipe_length {index1 index2 err : Bool} {firstCmd t first second : Text}
    (h : scan index1 index2 firstCmd t = .pipe err first second) : second.length ≤ t.length := by
  induction t generalizing index1 index2 firstCmd with
  | nil => cases h
  | cons c t ih =>
    rw [scan] at h
    split_ifs at h
    all_goals first
      | cases h
        simp
      | exact Nat.le_succ_of_le (ih h)

theorem scan_pipe_true {index2 : Bool} {firstCmd t first second : Text}
    (h : scan false index2 firstCmd t = .pipe true first second) :
    ∃ p, t = p ++ '|' :: '&' :: second ∧ '|' ∉ p ∧ ';' ∉ p ∧
      ¬ ['&', '&'] <:+: if index2 then '&' :: p else p := by
  induction t generalizing index2 firstCmd with
  | nil => cases h
  | cons c t ih =>
    rw [scan] at h
    by_cases hbar : c = '|'
    · rw [if_pos hbar, if_neg Bool.false_ne_true] at h
      cases t with
      | nil => cases h
      | cons x t =>
        rw [scan_bar_cons] at h
        split_ifs at h with _ hx
        · cases h
          refine ⟨[], by rw [hbar, hx]; rfl, List.not_mem_nil, List.not_mem_nil, ?_⟩
          cases index2 <;> decide
        · cases h
    · rw [if_neg hbar, if_neg Bool.false_ne_true] at h
      by_cases hand : c = '&'
      · subst hand
        rw [if_pos rfl] at h
        cases index2 with
        | true => cases h
        | false =>
          rw [if_neg Bool.false_ne_true] at h
          obtain ⟨p, rfl, hp, hp', hamp⟩ := ih h
          rw [if_pos rfl] at hamp
          exact ⟨'&' :: p, rfl, by simp [hp], by simp [hp'], hamp⟩
      · rw [if_neg hand] at h
        by_cases hsemi : c = ';'
        · rw [if_pos hsemi] at h
          cases h
        · rw [if_neg hsemi] at h
          obtain ⟨p, rfl, hp, hp', hamp⟩ := ih h
          refine ⟨c :: p, rfl, by simp [hp, Ne.symm hbar], by simp [hp', Ne.symm hsemi], ?_⟩
          have hcons : ¬ ['&', '&'] <:+: c :: p := by
            rw [amp_infix_cons]
            simpa [hand] using hamp
          cases index2 with
          | true => simpa [amp_infix_cons, hand] using hamp
          | false => exact hcons

theorem pipesErr_iff {pcCmd second : Text} :
    PipesErr pcCmd second ↔ ∃ first, scan false false [] pcCmd = .pipe true first second := by
  constructor
  · rintro ⟨first, rfl, hbar, hsemi, hamp⟩
    refine ⟨first, ?_⟩
    have happend := scan_append (i := false) [] ('|' :: '&' :: second) hbar hsemi hamp
    rw [happend, scan, if_pos rfl, if_neg Bool.false_ne_true, scan_bar_cons, if_neg (by decide),
      if_pos rfl, List.dropLast_concat, List.nil_append]
  · rintro ⟨first, h⟩
    obtain ⟨p, hp, hbar, hsemi, hamp⟩ := scan_pipe_true h
    exact ⟨p, hp, hbar, hsemi, hamp⟩

/-- A command line is split within the arrays exactly when its first operator is no `|&` with less than
two characters behind it. -/
theorem splitIn_iff {pcCmd : Text} : splitIn pcCmd = some (scan false false [] pcCmd) ↔
    ∀ second, PipesErr pcCmd second → 2 ≤ second.length := by
  have hscan := @scanIn_eq (pcCmd.length + 20) false false [] pcCmd (by simp) nofun
  simp only [pipesErr_iff]
  unfold splitIn
  rw [hscan]
  cases hsplit : scan false false [] pcCmd with
  | pipe err first second =>
    have hsecond := @secondIn_spec (pcCmd.length + 15) true [] second (by
      have h := scan_pipe_length hsplit
      rw [List.length_nil, if_pos rfl]
      omega)
    cases err with
    | false =>
      refine iff_of_true ?_ nofun
      dsimp only
      change (do let _ ← secondIn (pcCmd.length + 15) true [] second; some _) = _
      rw [hsecond]
      rfl
    | true =>
      dsimp only
      by_cases hfit : 2 ≤ second.length
      · rw [if_pos hfit]
        refine iff_of_true ?_ ?_
        · change (do let _ ← secondIn (pcCmd.length + 15) true [] second; some _) = _
          rw [hsecond]
          rfl
        · rintro _ ⟨_, h⟩
          cases h
          exact hfit
      · rw [if_neg hfit]
        exact iff_of_false nofun fun h => hfit (h second ⟨first, rfl⟩)
  | _ => exact iff_of_true rfl nofun

/-! ## All calls for a command line -/

/-- What `__tshellExec` is called with first for a split. -/
def CmdSplit.firstText : CmdSplit → Option Text
  | none => .none
  | or first _ => some first
  | and first _ => some first
  | seq first _ => some first
  | pipe err first _ => some (pipeFirst err first)

/-- What it is called with for the rest, and whether it is after a result of the first call. -/
def CmdSplit.secondText (r : ℤ) : CmdSplit → Option Text
  | none => .none
  | or _ second => if r < 0 then some second else .none
  | and _ second => if 0 ≤ r then some second else .none
  | seq _ second => some second
  | pipe err _ second => if r < 0 ∧ err = false then .none else some (pipeSecond second)

def CmdSplit.isPipe : CmdSplit → Bool
  | pipe .. => true
  | _ => false

namespace Tshell
variable {σ : Type*} (sh : Tshell σ)

/-- A call of `__tshellExec` calls itself with a text. -/
inductive CallsNext : σ × Text → σ × Text → Prop
  /-- For the branch of an `if` statement. -/
  | branch {st : σ} {t execCmd : Text} (hne : t.dropWhile isWhite ≠ [])
      (hcomment : (t.dropWhile isWhite).head? ≠ some '#')
      (hif : sh.checked st (t.dropWhile isWhite) = .ok (.exec execCmd)) :
      CallsNext (st, t) (st, execCmd)
  | first {st : σ} {t first : Text} (hsplit : sh.ComesToSplit st t)
      (hfirst : (scan false false [] (t.dropWhile isWhite)).firstText = some first) :
      CallsNext (st, t) (st, first)
  | second {st st₁ : σ} {t first second : Text} {fuel : ℕ} {r : ℤ} {cmds : List Text}
      (hsplit : sh.ComesToSplit st t)
      (hfirst : (scan false false [] (t.dropWhile isWhite)).firstText = some first)
      (hexec : sh.exec fuel st first = some (r, st₁, cmds))
      (hsecond : (scan false false [] (t.dropWhile isWhite)).secondText r = some second) :
      CallsNext (st, t) (st₁, second)
  /-- `/etc/.log` is removed at the end of a pipe, in whatever state. -/
  | rm {st st₁ : σ} {t : Text} (hsplit : sh.ComesToSplit st t)
      (hpipe : (scan false false [] (t.dropWhile isWhite)).isPipe = true) :
      CallsNext (st, t) (st₁, rmCmd)

/-- Whenever a call for a command line, at any depth, comes to split its text, it writes within the
arrays. -/
def SplitsInArrays (st : σ) (t : Text) : Prop :=
  ∀ st' t', Relation.ReflTransGen sh.CallsNext (st, t) (st', t') → sh.ComesToSplit st' t' →
    splitIn (t'.dropWhile isWhite) = some (scan false false [] (t'.dropWhile isWhite))

end Tshell
end SylixOS.Shell
