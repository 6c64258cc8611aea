import Mathlib.Data.List.DropRight
import SylixOS.Shell.TshellExec

/-! # Lists of commands

A list of simple commands is meant to be run from left to right, with the result so far deciding about
the command behind an operator. The code splits a list at its first operator, so that an operator
decides about all that is behind it; and it checks all that is left of a list before it runs the first
command of it. -/

namespace SylixOS.Shell

inductive ListOp where
  | seq
  | and
  | or
  deriving DecidableEq

namespace ListOp

def text : ListOp → Text
  | seq => [';']
  | and => ['&', '&']
  | or => ['|', '|']

/-- The command behind an operator is to be run after a result. -/
def runs (r : ℤ) : ListOp → Bool
  | seq => true
  | and => 0 ≤ r
  | or => r < 0

/-- Only the operator that keeps a command from being run does so. -/
theorem runs_of_ne {r : ℤ} {op op' : ListOp} (hruns : ¬ op.runs r = true) (hne : op' ≠ op) :
    op'.runs r = true := by
  cases op <;> cases op' <;> simp_all [runs]

end ListOp

/-- A list of commands as it is typed. -/
def listText (c : Text) : List (ListOp × Text) → Text
  | [] => c
  | (op, d) :: rest => c ++ op.text ++ listText d rest

/-- A command without operators, which is not empty or a comment. -/
structure SimpleCmd (c : Text) : Prop where
  bar : '|' ∉ c
  semicolon : ';' ∉ c
  amp : ¬ ['&', '&'] <:+: c
  nonempty : c.dropWhile isWhite ≠ []
  comment : (c.dropWhile isWhite).head? ≠ some '#'

/-- A list of simple commands, in which an operator `&&` can be told from the `&` of a command. -/
def SimpleList (c : Text) : List (ListOp × Text) → Prop
  | [] => SimpleCmd c
  | (op, d) :: rest =>
    SimpleCmd c ∧ (op = .and → c.getLast? ≠ some '&' ∧ d.head? ≠ some '&') ∧ SimpleList d rest

namespace Tshell
variable {σ : Type*} (sh : Tshell σ)

/-- What `__tshellExec` makes of a text before it splits it. -/
def checked (st : σ) (t : Text) : Except ℤ IfResult :=
  if maxCommandLen - 1 < t.length then .error (-TshellError.eparam.code)
  else
    match strConvertVar (sh.vars st) t with
    | .error e => .error (-e.code)
    | .ok cCommandBuffer => .ok (tshellIfElse cCommandBuffer)

/-- The text passes the checks: it is not too long, its variables have values, and the parser of `if`
statements finds no error in it. -/
def Passes (st : σ) (t : Text) : Prop := sh.checked st (t.dropWhile isWhite) = .ok .pass

/-- The parser of `if` statements does not take a text for one. -/
def IfFree (t : Text) : Prop :=
  ∀ st r, sh.checked st (t.dropWhile isWhite) = .ok r → r = .pass ∨ r = .error

/-- Nor any command or end of a list. -/
def NoIf (c : Text) : List (ListOp × Text) → Prop
  | [] => sh.IfFree c
  | (op, d) :: rest => sh.IfFree c ∧ sh.IfFree (listText c ((op, d) :: rest)) ∧ NoIf d rest

/-- A simple command by itself. -/
def command (st : σ) (c : Text) : ℤ × σ :=
  match sh.checked st (c.dropWhile isWhite) with
  | .error e => (e, st)
  | .ok .pass =>
    match strConvertVar (sh.vars st) (c.dropWhile isWhite) with
    | .error _ => (0, st)
    | .ok cCommandBuffer => sh.run st cCommandBuffer
  | .ok _ => (-2200, st)

/-- What is left of a list is run from left to right, after a result. -/
def listRest (st : σ) (r : ℤ) : List (ListOp × Text) → σ × List Text
  | [] => (st, [])
  | (op, d) :: rest =>
    if op.runs r then
      let (r, st) := sh.command st d
      let (st, cmds) := listRest st r rest
      (st, d.dropWhile isWhite :: cmds)
    else listRest st r rest

/-- A list is run from left to right: the state after it, and the commands that were run. -/
def list (st : σ) (c : Text) (rest : List (ListOp × Text)) : σ × List Text :=
  let (r, st) := sh.command st c
  let (st, cmds) := sh.listRest st r rest
  (st, c.dropWhile isWhite :: cmds)

/-- All that is left of the list passes the checks whenever the code comes to it, and where an operator
keeps the code from running the rest, there are only operators of this kind in it. -/
def Keeps (st : σ) (c : Text) : List (ListOp × Text) → Prop
  | [] => True
  | (op, d) :: rest =>
    sh.Passes st (listText c ((op, d) :: rest)) ∧
      if op.runs (sh.command st c).1 then Keeps (sh.command st c).2 d rest else ∀ x ∈ rest, x.1 = op

end Tshell

/-! ## Where a list is split -/

/-- How the code splits a text at an operator. -/
def ListOp.split (first second : Text) : ListOp → CmdSplit
  | .seq => .seq first second
  | .and => .and first second
  | .or => .or first second

/-- The commands of a list are gone over. -/
theorem scan_append {c : Text} {i : Bool} (acc t : Text) (hbar : '|' ∉ c) (hsemi : ';' ∉ c)
    (hamp : ¬ ['&', '&'] <:+: if i then '&' :: c else c) :
    scan false i acc (c ++ t) =
      scan false (c.getLast?.elim i (· = '&')) (acc ++ c) t := by
  induction c generalizing i acc with
  | nil => simp
  | cons x c ih =>
    rw [List.mem_cons, not_or] at hbar hsemi
    have hi : x = '&' → i = false := by
      rintro rfl
      by_contra hi
      refine hamp ?_
      rw [Bool.not_eq_false] at hi
      rw [hi]
      exact ⟨[], c, rfl⟩
    have hrest : ¬ ['&', '&'] <:+: x :: c := by
      refine fun h => hamp (h.trans ?_)
      split_ifs
      · exact List.infix_cons List.infix_rfl
      · exact List.infix_rfl
    have hlast : (x :: c).getLast?.elim i (· = '&') =
        c.getLast?.elim (decide (x = '&')) (· = '&') := by
      rw [List.getLast?_cons]
      cases c.getLast? <;> rfl
    rw [hlast, List.cons_append]
    by_cases hx : x = '&'
    · subst hx
      rw [hi rfl, scan, if_neg (by decide), if_neg (by decide), if_pos rfl, if_neg (by decide),
        ih _ hbar.2 hsemi.2 (by simpa using hrest), List.append_assoc]
      rfl
    · rw [scan, if_neg (Ne.symm hbar.1), if_neg (by decide), if_neg hx, if_neg (Ne.symm hsemi.1),
        ih _ hbar.2 hsemi.2 (by simpa using fun h => hrest (List.infix_cons h)), List.append_assoc]
      simp [hx]

theorem listText_cons (c : Text) (op : ListOp) (d : Text) (rest : List (ListOp × Text)) :
    listText c ((op, d) :: rest) = c ++ (op.text ++ listText d rest) := List.append_assoc ..

namespace SimpleCmd
variable {c : Text} (hc : SimpleCmd c)
include hc

theorem ne_nil : c ≠ [] := by
  rintro rfl
  exact hc.nonempty rfl

/-- Only the blanks before a command are left away. -/
theorem dropWhile_append (t : Text) : (c ++ t).dropWhile isWhite = c.dropWhile isWhite ++ t := by
  rw [List.dropWhile_append, if_neg]
  rw [List.isEmpty_iff]
  exact hc.nonempty

theorem strip : SimpleCmd (c.dropWhile isWhite) where
  bar h := hc.bar ((List.dropWhile_sublist _).mem h)
  semicolon h := hc.semicolon ((List.dropWhile_sublist _).mem h)
  amp h := hc.amp (h.trans (List.dropWhile_suffix _).isInfix)
  nonempty := by
    rw [List.dropWhile_idempotent]
    exact hc.nonempty
  comment := by
    rw [List.dropWhile_idempotent]
    exact hc.comment

theorem getLast?_strip : (c.dropWhile isWhite).getLast? = c.getLast? := by
  conv_rhs => rw [← List.takeWhile_append_dropWhile (p := isWhite) (l := c)]
  rw [List.getLast?_append_of_ne_nil _ hc.nonempty]

theorem scan_none : scan false false [] c = .none := by
  have h := scan_append (i := false) [] [] hc.bar hc.semicolon hc.amp
  rw [List.append_nil] at h
  rw [h]
  rfl

/-- The first operator of a list is that behind its first command. -/
theorem scan_op {op : ListOp} (t : Text) (hand : op = .and → c.getLast? ≠ some '&') :
    scan false false [] (c ++ (op.text ++ t)) = op.split c t := by
  rw [scan_append (i := false) [] _ hc.bar hc.semicolon hc.amp, List.nil_append]
  cases op with
  | seq => rfl
  | or => simp [ListOp.text, ListOp.split, scan]
  | and =>
    have hlast : c.getLast?.elim false (· = '&') = false := by
      have := hand rfl
      cases h : c.getLast? with
      | none => rfl
      | some x =>
        rw [h] at this
        simpa using this
    rw [hlast]
    simp [ListOp.text, ListOp.split, scan]

end SimpleCmd

namespace Tshell
variable {σ : Type*} {sh : Tshell σ} {st : σ} {c : Text} {rest : List (ListOp × Text)}

theorem checked_ok {t : Text} {r : IfResult} (h : sh.checked st t = .ok r) :
    ¬ maxCommandLen - 1 < t.length ∧
      ∃ cCommandBuffer, strConvertVar (sh.vars st) t = .ok cCommandBuffer ∧
        tshellIfElse cCommandBuffer = r := by
  unfold checked at h
  split_ifs at h with hlen
  cases hconvert : strConvertVar (sh.vars st) t with
  | error e =>
    rw [hconvert] at h
    cases h
  | ok cCommandBuffer =>
    rw [hconvert] at h
    exact ⟨hlen, cCommandBuffer, rfl, Except.ok.inj h⟩

section Checks
variable {t : Text} {fuel : ℕ} (hne : t.dropWhile isWhite ≠ [])
  (hcomment : (t.dropWhile isWhite).head? ≠ some '#')
include hne hcomment

/-- A text that does not pass the checks. -/
theorem exec_error {e : ℤ} (h : sh.checked st (t.dropWhile isWhite) = .error e) :
    sh.exec (fuel + 1) st t = some (failed st (t.dropWhile isWhite) e) := by
  unfold exec
  dsimp only
  rw [if_neg (not_or.mpr ⟨hne, hcomment⟩)]
  unfold checked at h
  split_ifs at h ⊢ with hlen
  · cases h
    rfl
  · cases hconvert : strConvertVar (sh.vars st) (t.dropWhile isWhite) with
    | error e =>
      rw [hconvert] at h
      cases h
      rfl
    | ok cCommandBuffer =>
      rw [hconvert] at h
      cases h

/-- A text that is an `if` statement with an error. -/
theorem exec_ifError (h : sh.checked st (t.dropWhile isWhite) = .ok .error) :
    sh.exec (fuel + 1) st t = some (failed st (t.dropWhile isWhite) (-2200)) := by
  unfold exec
  dsimp only
  obtain ⟨hlen, cCommandBuffer, hconvert, hif⟩ := checked_ok h
  rw [if_neg (not_or.mpr ⟨hne, hcomment⟩), if_neg hlen, hconvert]
  dsimp only
  rw [hif]

/-- A text that passes the checks and has no operator is run. -/
theorem exec_none (h : sh.Passes st t) (hscan : scan false false [] (t.dropWhile isWhite) = .none) :
    sh.exec (fuel + 1) st t =
      some ((sh.command st t).1, (sh.command st t).2, [t.dropWhile isWhite]) := by
  unfold command
  rw [h]
  unfold exec
  dsimp only
  obtain ⟨hlen, cCommandBuffer, hconvert, hif⟩ := checked_ok h
  rw [if_neg (not_or.mpr ⟨hne, hcomment⟩), if_neg hlen, hconvert]
  dsimp only
  rw [hif, hscan]

section Split
variable {op : ListOp} {first second : Text} (h : sh.Passes st t)
  (hscan : scan false false [] (t.dropWhile isWhite) = op.split first second)
  {r : ℤ} {st₁ : σ} {cmds : List Text} (hfirst : sh.exec fuel st first = some (r, st₁, cmds))
include h hscan hfirst

/-- A list is not gone on with when its operator says so. -/
theorem exec_skips (hruns : op.runs r = false) :
    sh.exec (fuel + 1) st t = some (r, st₁, cmds) := by
  unfold exec
  dsimp only
  obtain ⟨hlen, cCommandBuffer, hconvert, hif⟩ := checked_ok h
  rw [if_neg (not_or.mpr ⟨hne, hcomment⟩), if_neg hlen, hconvert]
  dsimp only
  rw [hif, hscan]
  cases op with
  | seq => cases hruns
  | and =>
    have hr : ¬ 0 ≤ r := of_decide_eq_false hruns
    simp [ListOp.split, hfirst, hr]
  | or =>
    have hr : ¬ r < 0 := of_decide_eq_false hruns
    simp [ListOp.split, hfirst, hr]

theorem exec_runs (hruns : op.runs r = true) {r₂ : ℤ} {st₂ : σ} {cmds₂ : List Text}
    (hsecond : sh.exec fuel st₁ second = some (r₂, st₂, cmds₂)) :
    ∃ r', sh.exec (fuel + 1) st t = some (r', st₂, cmds ++ cmds₂) := by
  unfold exec
  dsimp only
  obtain ⟨hlen, cCommandBuffer, hconvert, hif⟩ := checked_ok h
  rw [if_neg (not_or.mpr ⟨hne, hcomment⟩), if_neg hlen, hconvert]
  dsimp only
  rw [hif, hscan]
  cases op with
  | seq => exact ⟨min r r₂, by simp [ListOp.split, hfirst, hsecond]⟩
  | and =>
    have hr : 0 ≤ r := of_decide_eq_true hruns
    exact ⟨r₂, by simp [ListOp.split, hfirst, hsecond, hr]⟩
  | or =>
    have hr : r < 0 := of_decide_eq_true hruns
    exact ⟨r₂, by simp [ListOp.split, hfirst, hsecond, hr]⟩

end Split
end Checks

/-- Blanks before a command make no difference to it. -/
theorem command_strip (c : Text) : sh.command st (c.dropWhile isWhite) = sh.command st c := by
  unfold command
  rw [List.dropWhile_idempotent]

theorem IfFree.strip (hif : sh.IfFree c) : sh.IfFree (c.dropWhile isWhite) := by
  unfold IfFree
  rw [List.dropWhile_idempotent]
  exact hif

/-- A simple command is run by itself. -/
theorem exec_command (hc : SimpleCmd c) (hif : sh.IfFree c) (fuel : ℕ) :
    sh.exec (fuel + 1) st c =
      some ((sh.command st c).1, (sh.command st c).2, [c.dropWhile isWhite]) := by
  cases h : sh.checked st (c.dropWhile isWhite) with
  | error e =>
    rw [exec_error hc.nonempty hc.comment h]
    simp [failed, hc.strip.scan_none, command, h]
  | ok r =>
    rcases hif st r h with rfl | rfl
    · exact exec_none hc.nonempty hc.comment h hc.strip.scan_none
    · rw [exec_ifError hc.nonempty hc.comment h]
      simp [failed, hc.strip.scan_none, command, h]

/-- What the code makes of a list: the state after it, and the commands that were run. -/
def split (sh : Tshell σ) (st : σ) (c : Text) : List (ListOp × Text) → σ × List Text
  | [] => ((sh.command st c).2, [c.dropWhile isWhite])
  | (op, d) :: rest =>
    match sh.checked st ((listText c ((op, d) :: rest)).dropWhile isWhite) with
    | .ok .pass =>
      if op.runs (sh.command st c).1 then
        let (st', cmds) := split sh (sh.command st c).2 d rest
        (st', c.dropWhile isWhite :: cmds)
      else ((sh.command st c).2, [c.dropWhile isWhite])
    | _ => (st, [])

/-- Nothing of a list is run when all of it does not pass the checks. -/
theorem failed_split {t : Text} {op : ListOp} {first second : Text}
    (hscan : scan false false [] t = op.split first second) (e : ℤ) : failed st t e = (e, st, []) := by
  unfold failed
  rw [hscan]
  cases op <;> rfl

/-- A list is split at its first operator. -/
theorem exec_listText (hl : SimpleList c rest) (hif : sh.NoIf c rest) {fuel : ℕ}
    (hfuel : rest.length < fuel) :
    ∃ r, sh.exec fuel st (listText c rest) = some (r, sh.split st c rest) := by
  induction rest generalizing st c fuel with
  | nil =>
    obtain ⟨fuel, rfl⟩ := Nat.exists_eq_add_of_lt hfuel
    exact ⟨_, exec_command hl hif _⟩
  | cons x rest ih =>
    obtain ⟨op, d⟩ := x
    obtain ⟨hc, hand, hl⟩ := hl
    obtain ⟨hif, hiftext, hifrest⟩ := hif
    obtain ⟨n, rfl⟩ := Nat.exists_eq_add_of_lt hfuel
    have hlen : rest.length < rest.length + 1 + n := by omega
    have hdrop : (listText c ((op, d) :: rest)).dropWhile isWhite =
        c.dropWhile isWhite ++ (op.text ++ listText d rest) := by
      rw [listText_cons, hc.dropWhile_append]
    have hne : (listText c ((op, d) :: rest)).dropWhile isWhite ≠ [] := by
      rw [hdrop]
      exact List.append_ne_nil_of_left_ne_nil hc.nonempty _
    have hcomment : ((listText c ((op, d) :: rest)).dropWhile isWhite).head? ≠ some '#' := by
      rw [hdrop, List.head?_append_of_ne_nil _ hc.nonempty]
      exact hc.comment
    have hscan : scan false false [] ((listText c ((op, d) :: rest)).dropWhile isWhite) =
        op.split (c.dropWhile isWhite) (listText d rest) := by
      rw [hdrop]
      exact hc.strip.scan_op _ fun hop => hc.getLast?_strip ▸ (hand hop).1
    unfold split
    cases hcheck : sh.checked st ((listText c ((op, d) :: rest)).dropWhile isWhite) with
    | error e =>
      refine ⟨e, ?_⟩
      rw [exec_error hne hcomment hcheck, failed_split hscan]
    | ok r =>
      rcases hiftext st r hcheck with rfl | rfl
      · have hfirst : sh.exec (rest.length + 1 + n) st (c.dropWhile isWhite) =
            some ((sh.command st c).1, (sh.command st c).2, [c.dropWhile isWhite]) := by
          rw [Nat.add_right_comm, exec_command hc.strip hif.strip, command_strip,
            List.dropWhile_idempotent]
        dsimp only
        by_cases hruns : op.runs (sh.command st c).1 = true
        · obtain ⟨r₂, hsecond⟩ : ∃ r₂, sh.exec (rest.length + 1 + n) (sh.command st c).2
              (listText d rest) = some (r₂, sh.split (sh.command st c).2 d rest) :=
            ih hl hifrest hlen
          rw [if_pos hruns]
          exact exec_runs hne hcomment hcheck hscan hfirst hruns hsecond
        · rw [if_neg hruns]
          exact ⟨_, exec_skips hne hcomment hcheck hscan hfirst (Bool.not_eq_true _ ▸ hruns)⟩
      · refine ⟨-2200, ?_⟩
        rw [exec_ifError hne hcomment hcheck, failed_split hscan]

/-! ## Lists that are run from left to right -/

theorem list_runs {op : ListOp} {d : Text} (hruns : op.runs (sh.command st c).1 = true) :
    sh.list st c ((op, d) :: rest) =
      ((sh.list (sh.command st c).2 d rest).1,
        c.dropWhile isWhite :: (sh.list (sh.command st c).2 d rest).2) := by
  unfold list
  dsimp only
  rw [listRest, if_pos hruns]

theorem list_skips {op : ListOp} {d : Text} (hruns : ¬ op.runs (sh.command st c).1 = true) :
    sh.list st c ((op, d) :: rest) =
      ((sh.listRest (sh.command st c).2 (sh.command st c).1 rest).1,
        c.dropWhile isWhite :: (sh.listRest (sh.command st c).2 (sh.command st c).1 rest).2) := by
  unfold list
  dsimp only
  rw [listRest, if_neg hruns]

/-- After a result that keeps the code from running what is behind an operator, nothing more is run
exactly when there is no other operator. -/
theorem listRest_skips {op : ListOp} {r : ℤ} (hruns : ¬ op.runs r = true) :
    sh.listRest st r rest = (st, []) ↔ ∀ x ∈ rest, x.1 = op := by
  induction rest with
  | nil => simp [listRest]
  | cons x rest ih =>
    obtain ⟨op', d⟩ := x
    rw [List.forall_mem_cons]
    by_cases hop : op' = op
    · subst hop
      rw [listRest, if_neg hruns, ih]
      simp
    · have hruns' : op'.runs r = true := ListOp.runs_of_ne hruns hop
      rw [listRest, if_pos hruns']
      simp [hop]

theorem split_failed {op : ListOp} {d : Text} (hpass : ¬ sh.Passes st (listText c ((op, d) :: rest))) :
    sh.split st c ((op, d) :: rest) = (st, []) := by
  unfold split
  split
  · next hcheck => exact absurd hcheck hpass
  · rfl

/-- The code runs a list from left to right exactly when all that is left of it passes the checks, and
no other operator is behind one that keeps it from going on. -/
theorem split_eq_list : sh.split st c rest = sh.list st c rest ↔ sh.Keeps st c rest := by
  induction rest generalizing st c with
  | nil => simp [split, list, listRest, Keeps]
  | cons x rest ih =>
    obtain ⟨op, d⟩ := x
    by_cases hpass : sh.Passes st (listText c ((op, d) :: rest))
    · have hcheck : sh.checked st ((listText c ((op, d) :: rest)).dropWhile isWhite) = .ok .pass :=
        hpass
      unfold split Keeps
      rw [hcheck, and_iff_right hpass]
      dsimp only
      by_cases hruns : op.runs (sh.command st c).1 = true
      · rw [if_pos hruns, if_pos hruns, list_runs hruns, ← ih]
        simp [Prod.ext_iff]
      · rw [if_neg hruns, if_neg hruns, list_skips hruns, ← listRest_skips hruns]
        constructor
        · intro h
          obtain ⟨hst, hcmds⟩ := Prod.mk.inj h
          exact Prod.ext hst.symm (List.cons.inj hcmds).2.symm
        · intro h
          rw [h]
    · rw [split_failed hpass]
      constructor
      · intro h
        cases (Prod.mk.inj h).2
      · intro h
        exact absurd h.1 hpass

/-- What the code comes to, when its calls may go as deep as they need to. -/
theorem exec_iff_split (hl : SimpleList c rest) (hif : sh.NoIf c rest) {done : σ × List Text} :
    (∃ n, ∀ fuel, n ≤ fuel → ∃ r, sh.exec fuel st (listText c rest) = some (r, done)) ↔
      sh.split st c rest = done := by
  constructor
  · rintro ⟨n, h⟩
    obtain ⟨r, hdone⟩ := h (max n (rest.length + 1)) (le_max_left ..)
    obtain ⟨r', hsplit⟩ : ∃ r', sh.exec (max n (rest.length + 1)) st (listText c rest) =
        some (r', sh.split st c rest) := exec_listText hl hif (le_max_right n (rest.length + 1))
    rw [hdone] at hsplit
    exact (Prod.mk.inj (Option.some.inj hsplit)).2.symm
  · intro h
    refine ⟨rest.length + 1, fun fuel hfuel => ?_⟩
    rw [← h]
    exact exec_listText hl hif hfuel

/-- The code runs exactly the commands that a list runs from left to right when the list keeps to this
order. -/
theorem commandList_iff (hl : SimpleList c rest) (hif : sh.NoIf c rest) :
    (∃ n, ∀ fuel, n ≤ fuel → ∃ r, sh.exec fuel st (listText c rest) = some (r, sh.list st c rest)) ↔
      sh.Keeps st c rest := (exec_iff_split hl hif).trans split_eq_list

/-! ## Two lists -/

/-- A shell without variables in which `f` is the only command that fails. -/
def onlyFails : Tshell Unit where
  vars _ := ⟨fun _ => [], 0⟩
  run st cCommand := (if cCommand = ['f'] then -1 else 0, st)

theorem onlyFails_ifFree {t : Text} (h : onlyFails.Passes () t) : onlyFails.IfFree t := by
  intro st r hr
  exact .inl (Except.ok.inj (hr.symm.trans h))

/-- `f || a; b` is run from left to right. -/
theorem commandList_iff_or :
    ∃ n, ∀ fuel, n ≤ fuel → ∃ r, onlyFails.exec fuel ()
      (listText ['f'] [(.or, ['a']), (.seq, ['b'])]) = some (r, (), [['f'], ['a'], ['b']]) := by
  have hlist : SimpleList ['f'] [(.or, ['a']), (.seq, ['b'])] :=
    ⟨⟨by decide, by decide, by decide, by decide, by decide⟩, by decide,
      ⟨by decide, by decide, by decide, by decide, by decide⟩, by decide,
      ⟨by decide, by decide, by decide, by decide, by decide⟩⟩
  have hif : onlyFails.NoIf ['f'] [(.or, ['a']), (.seq, ['b'])] :=
    ⟨onlyFails_ifFree rfl, onlyFails_ifFree rfl, onlyFails_ifFree rfl, onlyFails_ifFree rfl,
      onlyFails_ifFree rfl⟩
  exact (commandList_iff hlist hif).2 ⟨rfl, rfl, trivial⟩

/-- `a || f; b` does not come to `b`. -/
theorem commandList_seq :
    SimpleList ['a'] [(.or, ['f']), (.seq, ['b'])] ∧
      onlyFails.NoIf ['a'] [(.or, ['f']), (.seq, ['b'])] ∧
      onlyFails.list () ['a'] [(.or, ['f']), (.seq, ['b'])] = ((), [['a'], ['b']]) ∧
      ¬ ∃ n, ∀ fuel, n ≤ fuel → ∃ r, onlyFails.exec fuel ()
        (listText ['a'] [(.or, ['f']), (.seq, ['b'])]) = some (r, (), [['a'], ['b']]) := by
  have hlist : SimpleList ['a'] [(.or, ['f']), (.seq, ['b'])] :=
    ⟨⟨by decide, by decide, by decide, by decide, by decide⟩, by decide,
      ⟨by decide, by decide, by decide, by decide, by decide⟩, by decide,
      ⟨by decide, by decide, by decide, by decide, by decide⟩⟩
  have hif : onlyFails.NoIf ['a'] [(.or, ['f']), (.seq, ['b'])] :=
    ⟨onlyFails_ifFree rfl, onlyFails_ifFree rfl, onlyFails_ifFree rfl, onlyFails_ifFree rfl,
      onlyFails_ifFree rfl⟩
  refine ⟨hlist, hif, rfl, ?_⟩
  rw [exec_iff_split hlist hif]
  decide

end Tshell
end SylixOS.Shell
