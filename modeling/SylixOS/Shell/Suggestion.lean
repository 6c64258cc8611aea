import SylixOS.Lib.Reach
import SylixOS.Shell.InputLine
import SylixOS.Shell.TtinyString
import SylixOS.Tree.TrieSearch

/-! # The suggestion behind the line

While a line is read, the shell shows what the trie of the history has behind it, and the right arrow at
the end of the line takes that over, one character at a time. Only some keys look the suggestion up; the
others leave it as it is. -/

namespace SylixOS.Shell
open Lib Tree TrieNode

/-- What the reader of lines keeps. -/
structure Readline where
  line : InputLine Byte
  /-- `_lastMatch`, a string of C. -/
  lastMatch : Option (List Byte)
  historyTrieRoot : TrieNode
  /-- `SIHC_pringHeader`: the lines that were read, the latest one first. -/
  saved : List (List Byte)
  /-- `pvCookie`: where in them the last line was got. -/
  cookie : Option ℕ
  /-- No variable of the code: the line that was looked up last, with the characters that have been taken
  over since, and what is left of the answer of the trie. -/
  found : List Byte × List Byte

/-- A key, with what the rest of the system makes of it. Control-D leaves the shell. -/
inductive Key where
  | left
  | up
  | right
  | down
  | home
  | delete
  | fin
  /-- There is nothing to match, or the keywords and the files make this of the line. -/
  | tab (completed : Option (List Byte))
  | backspace
  | char (c : Byte)
  /-- The line ends, which it also does when it is full. A command that is executed leaves a trie. -/
  | lf (executed : Option TrieNode)

/-- `__INPUT_SAVE_MAX`. -/
def inputSaveMax : ℕ := 20

/-- `__tshellHistorySave`. -/
def tshellHistorySave (w : List Byte) (saved : List (List Byte)) : List (List Byte) :=
  if w = [] then saved else (w :: saved.erase w).take inputSaveMax

namespace Readline

/-- `__tshellPrintHistorySuggestion`. No result means that the search leaves the nodes. -/
def printHistorySuggestion (s : Readline) : Option Readline :=
  if 0 < s.line.chars.length ∧ s.line.AtEnd then
    (trieSearch s.line.chars s.historyTrieRoot).map fun
      | some r => { s with lastMatch := some (r.takeWhile (· ≠ 0)), found := (s.line.chars, r) }
      | none => { s with lastMatch := none }
  else some s

/-- `__tshellHistoryGet`, and the line with what was got. -/
def historyGet (next : Bool) (s : Readline) : Readline :=
  let i := match s.cookie with
    | none => 0
    | some i => if next then (i + 1) % s.saved.length else (i + s.saved.length - 1) % s.saved.length
  match s.saved[i]? with
  | none => s
  | some w => { s with line := .ending (w.take (maxCommandLen - 1)), cookie := some i }

/-- `__tshellCharRight`. -/
def charRight (s : Readline) : Readline :=
  if s.line.AtEnd then
    match s.lastMatch with
    | some (c :: rest) =>
      { s with
        line := .ending (s.line.chars ++ [c])
        lastMatch := some rest
        found := (s.found.1 ++ [c], s.found.2.tail) }
    | _ => s
  else { s with line := s.line.right }

/-- `__tshellCharBackspace`. -/
def charBackspace (s : Readline) : Option Readline :=
  let t := { s with line := s.line.backspace }
  if 0 < s.line.cursor ∧ s.line.AtEnd then t.printHistorySuggestion else some t

/-- `__tshellCharTab`. -/
def charTab (s : Readline) : Option (List Byte) → Option Readline
  | none => some { s with line := .ending s.line.chars }
  | some w => { s with line := .ending w }.printHistorySuggestion

/-- The line has ended; `__tshellBeforeExecution` drops the suggestion if there is a command. -/
def finish (s : Readline) (executed : Option TrieNode) : Readline :=
  let t := { s with
    line := .ending []
    saved := tshellHistorySave (s.line.chars.takeWhile (· ≠ 0)) s.saved
    cookie := none }
  match executed with
  | none => t
  | some root => { t with lastMatch := none, historyTrieRoot := root }

/-- A round of the loop of `__tshellReadline`. -/
def key (s : Readline) : Key → Option Readline
  | .left => some { s with line := s.line.left }
  | .up => some (s.historyGet true)
  | .right => some s.charRight
  | .down => some (s.historyGet false)
  | .home => some { s with line := s.line.home }
  | .delete => some { s with line := s.line.delete }
  | .fin => some { s with line := .ending s.line.chars }
  | .tab completed => s.charTab completed
  | .backspace => s.charBackspace
  | .char c => { s with line := s.line.insert c }.printHistorySuggestion
  | .lf executed => some (s.finish executed)

/-- A line that is full only ends. -/
def step (s : Readline) (k : Key) : Option Readline :=
  match k with
  | .lf _ => s.key k
  | _ => if s.line.chars.length < maxCommandLen then s.key k else none

/-- There is something left of the suggestion. -/
def Suggests (s : Readline) : Prop := ∃ c rest, s.lastMatch = some (c :: rest)

/-- The right arrow takes a character over. -/
def TakesOver (s : Readline) : Prop := s.line.AtEnd ∧ s.Suggests

/-- The line together with the suggestion is a recorded command. -/
def Recorded (s : Readline) : Prop :=
  ∃ rest, s.lastMatch = some rest ∧ (s.historyTrieRoot.at (s.line.chars ++ rest)).isEnd = true

/-- The line is the one that was looked up last, with the characters taken over since. -/
def Current (s : Readline) : Prop := s.found.1 = s.line.chars

/-- There is no suggestion yet. -/
def Start (s : Readline) : Prop := s.lastMatch = none

/-- While something is suggested, the key does not change the line without looking it up. -/
def Keeps (s : Readline) (k : Key) : Prop :=
  s.Suggests →
    match k with
    | .up | .down => s.saved = []
    | .delete | .char _ => s.line.AtEnd
    | .backspace => s.line.cursor = 0 ∨ s.line.AtEnd ∧ 1 < s.line.chars.length
    | .lf executed => executed.isSome ∨ s.line.chars = []
    | .tab (some w) => w ≠ []
    | _ => True

/-! ## What a key does to the suggestion -/

/-- It stays, it is dropped, it is looked up, or a character is taken over. -/
inductive Effect (s : Readline) (k : Key) (s' : Readline) : Prop where
  | stays (hmatch : s'.lastMatch = s.lastMatch) (hfound : s'.found = s.found)
      (hroot : s'.historyTrieRoot = s.historyTrieRoot)
      (hkeeps : s.Keeps k → s.Suggests → s'.line.chars = s.line.chars)
  | dropped (hmatch : s'.lastMatch = none)
  | lookedUp (r : List Byte) (hmatch : s'.lastMatch = some (r.takeWhile (· ≠ 0)))
      (hsearch : trieSearch s'.line.chars s'.historyTrieRoot = some (some r))
      (hfound : s'.found = (s'.line.chars, r))
  | takenOver (c : Byte) (rest : List Byte) (hmatch : s.lastMatch = some (c :: rest))
      (hmatch' : s'.lastMatch = some rest) (hroot : s'.historyTrieRoot = s.historyTrieRoot)
      (hline : s'.line.chars = s.line.chars ++ [c])
      (hfound : s'.found = (s.found.1 ++ [c], s.found.2.tail))

variable {s s' : Readline} {k : Key} {l : InputLine Byte} {c : Byte} {rest : List Byte}

theorem Effect.refl : Effect s k s := .stays rfl rfl rfl fun _ _ => rfl

theorem printHistorySuggestion_effect
    (h : ({ s with line := l } : Readline).printHistorySuggestion = some s')
    (hkeeps : s.Keeps k → s.Suggests → (0 < l.chars.length ∧ l.AtEnd) ∨ l.chars = s.line.chars) :
    Effect s k s' := by
  unfold printHistorySuggestion at h
  split_ifs at h with hlook
  · obtain ⟨r, hr, rfl⟩ := Option.map_eq_some_iff.mp h
    cases r with
    | none => exact .dropped rfl
    | some r => exact .lookedUp r rfl hr rfl
  · cases h
    exact .stays rfl rfl rfl fun hk hs => (hkeeps hk hs).resolve_left hlook

theorem charRight_takesOver (hend : s.line.AtEnd) (hmatch : s.lastMatch = some (c :: rest)) :
    s.charRight = { s with
      line := .ending (s.line.chars ++ [c])
      lastMatch := some rest
      found := (s.found.1 ++ [c], s.found.2.tail) } := by
  unfold charRight
  rw [if_pos hend, hmatch]

theorem charRight_effect : Effect s .right s.charRight := by
  by_cases hend : s.line.AtEnd
  · rcases hmatch : s.lastMatch with _ | _ | ⟨c, rest⟩
    · have heq : s.charRight = s := by
        unfold charRight
        rw [if_pos hend, hmatch]
      rw [heq]
      exact .refl
    · have heq : s.charRight = s := by
        unfold charRight
        rw [if_pos hend, hmatch]
      rw [heq]
      exact .refl
    · rw [charRight_takesOver hend hmatch]
      exact .takenOver c rest hmatch rfl rfl rfl rfl
  · unfold charRight
    rw [if_neg hend]
    refine .stays rfl rfl rfl fun _ _ => ?_
    change s.line.right.chars = _
    unfold InputLine.right
    split_ifs <;> rfl

theorem historyGet_effect {next : Bool} (hkeeps : s.Keeps k → s.Suggests → s.saved = []) :
    Effect s k (s.historyGet next) := by
  unfold historyGet
  dsimp only
  split
  · exact .refl
  · rename_i w hw
    refine .stays rfl rfl rfl fun hk hs => ?_
    rw [hkeeps hk hs] at hw
    cases hw

theorem charBackspace_effect (h : s.charBackspace = some s') : Effect s .backspace s' := by
  unfold charBackspace at h
  split_ifs at h with hlook
  · refine printHistorySuggestion_effect h fun hk hs => ?_
    have hback := InputLine.backspace_atEnd hlook.2 hlook.1
    rcases hk hs with hzero | ⟨-, hlen⟩
    · omega
    · exact .inl ⟨by omega, hback.2⟩
  · cases h
    refine .stays rfl rfl rfl fun hk hs => ?_
    rcases hk hs with hzero | ⟨hend, hlen⟩
    · exact congrArg InputLine.chars (if_pos hzero)
    · exact absurd ⟨(Nat.zero_lt_of_lt hlen).trans_eq hend.symm, hend⟩ hlook

theorem finish_effect {executed : Option TrieNode} : Effect s (.lf executed) (s.finish executed) := by
  cases executed with
  | none =>
    refine .stays rfl rfl rfl fun hk hs => ?_
    exact ((hk hs).resolve_left Bool.false_ne_true).symm
  | some root => exact .dropped rfl

theorem key_effect (h : s.key k = some s') : Effect s k s' := by
  cases k with
  | left =>
    cases h
    exact .stays rfl rfl rfl fun _ _ => rfl
  | up =>
    cases h
    exact historyGet_effect fun hk hs => hk hs
  | right =>
    cases h
    exact charRight_effect
  | down =>
    cases h
    exact historyGet_effect fun hk hs => hk hs
  | home =>
    cases h
    exact .stays rfl rfl rfl fun _ _ => rfl
  | delete =>
    cases h
    exact .stays rfl rfl rfl fun hk hs => InputLine.delete_atEnd (hk hs)
  | fin =>
    cases h
    exact .stays rfl rfl rfl fun _ _ => rfl
  | tab completed =>
    cases completed with
    | none =>
      cases h
      exact .stays rfl rfl rfl fun _ _ => rfl
    | some w =>
      exact printHistorySuggestion_effect h fun hk hs =>
        .inl ⟨List.length_pos_iff.mpr (hk hs), rfl⟩
  | backspace => exact charBackspace_effect h
  | char c =>
    refine printHistorySuggestion_effect h fun hk hs => .inl ?_
    have hend := InputLine.insert_atEnd (c := c) (hk hs)
    exact ⟨(Nat.succ_pos _).trans_eq hend, hend⟩
  | lf executed =>
    cases h
    exact finish_effect

theorem step_effect (h : s.step k = some s') : Effect s k s' := by
  cases k with
  | lf executed => exact key_effect h
  | _ =>
    unfold step at h
    dsimp only at h
    split_ifs at h
    exact key_effect h

/-! ## What is remembered in a run -/

/-- The suggestion is the answer of the trie up to its first zero byte, and the search goes on with it
behind the line that was looked up. -/
def Remembers (s : Readline) : Prop := ∀ x, s.lastMatch = some x →
  x = s.found.2.takeWhile (· ≠ 0) ∧ mostUsed (s.historyTrieRoot.at s.found.1) = some s.found.2

theorem Remembers.effect (h : s.Remembers) (heff : Effect s k s') : s'.Remembers := by
  intro x hx
  cases heff with
  | stays hmatch hfound hroot _ =>
    rw [hfound, hroot]
    exact h x (hmatch.symm.trans hx)
  | dropped hmatch => exact absurd (hmatch.symm.trans hx) nofun
  | lookedUp r hmatch hsearch hfound =>
    rw [hfound]
    exact ⟨Option.some.inj (hx.symm.trans hmatch), mostUsed_of_trieSearch hsearch⟩
  | takenOver c rest hmatch hmatch' hroot _ hfound =>
    cases hx.symm.trans hmatch'
    obtain ⟨hcut, hmost⟩ := h _ hmatch
    rcases hanswer : s.found.2 with _ | ⟨d, answer⟩
    · rw [hanswer] at hcut
      cases hcut
    rw [hanswer, List.takeWhile_cons] at hcut
    split_ifs at hcut
    obtain ⟨rfl, hrest⟩ := List.cons.inj hcut
    rw [hfound, hroot, hanswer]
    refine ⟨hrest, ?_⟩
    dsimp only
    rw [at_append]
    rw [hanswer] at hmost
    exact mostUsed_cons hmost

theorem remembers_of_reach {ok : Readline → Key → Prop} (h : Reach step ok Start s) : s.Remembers :=
  h.invariant (fun _ hs _ hx => absurd (hs.symm.trans hx) nofun)
    fun _ _ _ hs _ hstep => hs.effect (step_effect hstep)

/-- If no key changes the line beside a suggestion, the line stays the one that was looked up. -/
theorem current_of_keeps (h : Reach step Keeps Start s) : s.Suggests → s.Current := by
  induction h with
  | start hs =>
    rintro ⟨c, rest, hmatch⟩
    exact absurd (hs.symm.trans hmatch) nofun
  | @step s s' k _ hok hstep hcurrent =>
    rintro ⟨c, rest, hrest⟩
    cases step_effect hstep with
    | stays hmatch hfound hroot hkeeps =>
      have hs : s.Suggests := ⟨c, rest, hmatch.symm.trans hrest⟩
      exact (congrArg Prod.fst hfound).trans ((hcurrent hs).trans (hkeeps hok hs).symm)
    | dropped hmatch => exact absurd (hmatch.symm.trans hrest) nofun
    | lookedUp r hmatch hsearch hfound => exact congrArg Prod.fst hfound
    | takenOver d rest' hmatch hmatch' hroot hline hfound =>
      have hs := hcurrent ⟨d, rest', hmatch⟩
      exact (congrArg Prod.fst hfound).trans ((congrArg (· ++ [d]) hs).trans hline.symm)

/-- When the right arrow takes a character over and the line is the one that was looked up, the two
together are a recorded command exactly if the answer of the trie has no zero byte. -/
theorem takenOver_recorded_iff (h : Reach step (fun _ _ => True) Start s) (htakes : s.TakesOver)
    (hcurrent : s.Current) : s.charRight.Recorded ↔ 0 ∉ s.found.2 := by
  obtain ⟨hend, c, rest, hmatch⟩ := htakes
  obtain ⟨hcut, hmost⟩ := remembers_of_reach h _ hmatch
  have hnode : mostUsed (s.historyTrieRoot.at (s.line.chars ++ c :: rest)) =
      some (s.found.2.dropWhile (· ≠ 0)) := by
    rw [at_append, hcut]
    refine mostUsed_append ?_
    rw [List.takeWhile_append_dropWhile, ← hcurrent]
    exact hmost
  have hrecorded : s.charRight.Recorded ↔
      (s.historyTrieRoot.at (s.line.chars ++ c :: rest)).isEnd = true := by
    rw [charRight_takesOver hend hmatch]
    simp [Recorded, InputLine.ending]
  rw [hrecorded, isEnd_iff_of_mostUsed hnode, List.dropWhile_eq_nil_iff]
  constructor
  · intro hall hzero
    exact absurd (hall 0 hzero) (by decide)
  · intro hzero x hx
    exact decide_eq_true fun heq => hzero (heq ▸ hx)

/-- The trie after `ls`. -/
def lsTrie : TrieNode :=
  valid false 1 1 (some 108) (Function.update (fun _ => invalid) 108
    (valid false 1 1 (some 115) (Function.update (fun _ => invalid) 115
      (valid true 1 0 none fun _ => invalid))))

example : trieInsert [108, 115] trieGetRoot = some lsTrie := rfl

/-- An empty line, with that trie. -/
def lsStart : Readline := ⟨.ending [], none, lsTrie, [], none, ([], [])⟩

/-- The line `l`, and `s` is suggested. -/
def typedL : Readline := ⟨.ending [108], some [115], lsTrie, [], none, ([108], [115])⟩

theorem reach_typedL : Reach step (fun _ _ => True) Start typedL :=
  (Reach.start rfl : Reach step _ Start lsStart).extend (.char 108) trivial rfl

theorem current_of_keeps_typedL : typedL.Current := by
  have h : Reach step Keeps Start lsStart := .start rfl
  exact current_of_keeps (h.extend (.char 108) nofun rfl) ⟨115, [], rfl⟩

theorem typedL_recorded : typedL.charRight.Recorded :=
  (takenOver_recorded_iff reach_typedL ⟨rfl, 115, [], rfl⟩ rfl).mpr (by decide)

/-- When the `l` is erased, the suggestion stays, and the right arrow makes `s` of the empty line. -/
theorem erased_not_recorded :
    ∃ s, Reach step (fun _ _ => True) Start s ∧ s.TakesOver ∧ ¬ s.charRight.Recorded := by
  refine ⟨_, reach_typedL.extend .backspace trivial rfl, ⟨rfl, 115, [], rfl⟩, ?_⟩
  rintro ⟨rest, hrest, hend⟩
  cases hrest
  exact Bool.false_ne_true hend

end Readline

end SylixOS.Shell
