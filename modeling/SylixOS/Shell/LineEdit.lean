import SylixOS.Lib.Reach
import SylixOS.Shell.Completion
import SylixOS.Shell.Continuation
import SylixOS.Shell.InputLine

/-! # The buffer of the line editor

The reader of lines keeps the line in a buffer, with its length and the cursor as numbers beside it.
Most keys move bytes of the buffer; the saved lines and what Tab completes are copied to it as strings.
-/

namespace SylixOS.Shell
open Lib Lib.Store

/-! ## The keys -/

/-- The keys, without Control-D, which leaves the shell. The right arrow comes with the next character
of the suggestion, if there is one. -/
inductive EditKey where
  | left
  | up
  | right (lastMatch : Option Char)
  | down
  | home
  | delete
  | fin
  | tab
  | backspace
  | char (c : Char)
  | lf
  deriving DecidableEq

namespace RecvBuffer
variable (b : RecvBuffer)

/-- `lib_memcpy` inside of the buffer, also when the places overlap. -/
def memcpy (dest src n : ℕ) : Option RecvBuffer :=
  if src + n ≤ maxCommandLen + 1 then b.write dest ((b.chars.drop src).take n) else none

/-- `lib_strcpy` to the buffer. -/
def strcpy (t : Text) : Option RecvBuffer := b.write 0 (t ++ [pxEos])

/-- `lib_strlcpy` to the buffer. -/
def strlcpy (t : Text) (n : ℕ) : Option RecvBuffer := b.write 0 (t.take (n - 1) ++ [pxEos])

/-- `lib_strlen` of the buffer. -/
def strlen : ℕ := (cString b.chars).val.length

/-- `lib_strlcat` to the buffer. -/
def strlcat (t : Text) (n : ℕ) : Option RecvBuffer :=
  if n ≤ b.strlen then some b else b.write b.strlen (t.take (n - b.strlen - 1) ++ [pxEos])

end RecvBuffer

/-- `__SHELL_INPUT_CTX`. -/
structure InputCtx where
  cInputBuffer : RecvBuffer
  uiCursor : ℕ
  uiTotalLen : ℕ

/-- Where the saved lines are looked at: `__tshellHistoryGet`. -/
def EditEnv.historyPlace (env : EditEnv) (next : Bool) : Option ℕ → ℕ
  | none => 0
  | some i =>
    if next then (i + 1) % env.saved.length else (i + env.saved.length - 1) % env.saved.length

namespace InputCtx
variable (s : InputCtx)

/-- `__tshellCharRight`. -/
def charRight (lastMatch : Option Char) : Option InputCtx :=
  if s.uiCursor < s.uiTotalLen then some { s with uiCursor := s.uiCursor + 1 }
  else
    match lastMatch with
    | none => some s
    | some c => do
      let b ← s.cInputBuffer.write s.uiTotalLen [c]
      some ⟨b, s.uiCursor + 1, s.uiTotalLen + 1⟩

/-- `__tshellCharUp` and `__tshellCharDown` with a saved line. -/
def charHistory : Option CString → Option InputCtx
  | none => some s
  | some saved => do
    let b ← s.cInputBuffer.strlcpy saved.val maxCommandLen
    some ⟨b, b.strlen, b.strlen⟩

/-- `__tshellCharBackspace`. -/
def charBackspace : Option InputCtx :=
  if s.uiCursor = 0 then some s
  else if s.uiCursor = s.uiTotalLen then some ⟨s.cInputBuffer, s.uiCursor - 1, s.uiTotalLen - 1⟩
  else if s.uiCursor < s.uiTotalLen then do
    let b ← s.cInputBuffer.memcpy (s.uiCursor - 1) s.uiCursor (s.uiTotalLen - s.uiCursor)
    let b ← b.write (s.uiTotalLen - 1) [' ']
    some ⟨b, s.uiCursor - 1, s.uiTotalLen - 1⟩
  else some s

/-- `__tshellCharDelete`. -/
def charDelete : Option InputCtx :=
  if s.uiCursor < s.uiTotalLen then do
    let b ← s.cInputBuffer.memcpy s.uiCursor (s.uiCursor + 1) (s.uiTotalLen - s.uiCursor)
    let b ← b.write (s.uiTotalLen - 1) [' ']
    some ⟨b, s.uiCursor, s.uiTotalLen - 1⟩
  else some s

/-- `__tshellCharInster`. -/
def charInster (c : Char) : Option InputCtx :=
  if s.uiCursor = s.uiTotalLen then do
    let b ← s.cInputBuffer.write s.uiCursor [c]
    some ⟨b, s.uiCursor + 1, s.uiTotalLen + 1⟩
  else if s.uiCursor < s.uiTotalLen then do
    let b ← s.cInputBuffer.memcpy (s.uiCursor + 1) s.uiCursor (s.uiTotalLen - s.uiCursor)
    let b ← b.write s.uiCursor [c]
    some ⟨b, s.uiCursor + 1, s.uiTotalLen + 1⟩
  else some s

/-- The end of `__tshellKeywordMatch`. -/
def keywordMatch (keywords : List Keyword) (pcKeyword : Text) : Option InputCtx :=
  let currentLen := pcKeyword.length
  let m := Shell.keywordMatch keywords pcKeyword
  if m.numMatch = 1 then do
    let tail := m.firstKeyword.drop currentLen
    let b ← s.cInputBuffer.strlcat tail maxCommandLen
    some ⟨b, s.uiTotalLen + tail.length, s.uiTotalLen + tail.length⟩
  else if 1 < m.numMatch ∧ currentLen < m.minSimilar then do
    let b ← s.cInputBuffer.strcpy m.minSimilarKeyword
    let b ← b.write m.minSimilar [pxEos]
    some ⟨b, m.minSimilar, m.minSimilar⟩
  else some s

/-- The end of `__tshellFileMatch`. -/
def fileMatch (dirents : List Dirent) (pcFileName : Text) : Option InputCtx :=
  let stFileNameLen := pcFileName.length
  let m := Shell.fileMatch dirents pcFileName
  if 1 < m.uiMath then
    if stFileNameLen < m.stMinSimilar then do
      let tail := (m.direntcMatch.take m.stMinSimilar).drop stFileNameLen
      let b ← s.cInputBuffer.strlcat tail maxCommandLen
      some ⟨b, b.strlen, b.strlen⟩
    else some s
  else if m.uiMath = 1 then do
    let tail := (printed m.direntcMatch m.isDir).drop stFileNameLen
    let b ← s.cInputBuffer.strlcat tail maxCommandLen
    some ⟨b, s.uiTotalLen + tail.length, s.uiTotalLen + tail.length⟩
  else some s

/-- `__tshellCharTab`. -/
def charTab (env : EditEnv) : Option InputCtx := do
  let b ← s.cInputBuffer.write s.uiTotalLen [pxEos]
  let s : InputCtx := ⟨b, max s.uiCursor s.uiTotalLen, s.uiTotalLen⟩
  match env.lastWord (cString b.chars).val with
  | none => some s
  | some (.keyword pcKeyword) => s.keywordMatch env.keywords pcKeyword
  | some (.file pcFileName dirents) => s.fileMatch dirents pcFileName

/-- What a key does to the buffer. No result means that something is done outside of it. -/
def key (env : EditEnv) (cookie : Option ℕ) : EditKey → Option InputCtx
  | .left => some { s with uiCursor := s.uiCursor - 1 }
  | .up => s.charHistory env.saved[env.historyPlace true cookie]?
  | .right lastMatch => s.charRight lastMatch
  | .down => s.charHistory env.saved[env.historyPlace false cookie]?
  | .home => some { s with uiCursor := 0 }
  | .delete => s.charDelete
  | .fin => some (if s.uiCursor < s.uiTotalLen then { s with uiCursor := s.uiTotalLen } else s)
  | .tab => s.charTab env
  | .backspace => s.charBackspace
  | .char c => s.charInster c
  | .lf => some s

end InputCtx

/-! ## The ideal editor -/

namespace InputLine
variable (l : InputLine Char)

/-- The saved line takes the place of the line. -/
def history : Option CString → InputLine Char
  | none => l
  | some saved => .ending saved.val

/-- The line with what Tab completes. -/
def tab (env : EditEnv) : InputLine Char :=
  .ending (l.chars ++ (env.lastWord (cString l.chars).val).elim [] (Word.rest env.keywords))

def key (env : EditEnv) (cookie : Option ℕ) : EditKey → InputLine Char
  | .left => l.left
  | .up => l.history env.saved[env.historyPlace true cookie]?
  | .right lastMatch => if l.AtEnd then .ending (l.chars ++ lastMatch.toList) else l.right
  | .down => l.history env.saved[env.historyPlace false cookie]?
  | .home => l.home
  | .delete => l.delete
  | .fin => .ending l.chars
  | .tab => l.tab env
  | .backspace => l.backspace
  | .char c => l.insert c
  | .lf => l

end InputLine

/-- A line that is read, with the ideal editor beside it, and `pvCookie`. -/
structure Editing where
  ctx : InputCtx
  ideal : InputLine Char
  cookie : Option ℕ
  reading : Bool

namespace Editing

/-- The place of the saved line that is got. -/
def nextCookie (env : EditEnv) (cookie : Option ℕ) : EditKey → Option ℕ
  | .up => if env.saved = [] then cookie else some (env.historyPlace true cookie)
  | .down => if env.saved = [] then cookie else some (env.historyPlace false cookie)
  | _ => cookie

/-- A round of the loop of `__tshellReadline`, which ends with the line or when it is full. -/
def step (env : EditEnv) (s : Editing) (k : EditKey) : Option Editing :=
  if s.reading then do
    let ctx ← s.ctx.key env s.cookie k
    let ideal := s.ideal.key env s.cookie k
    let cookie := nextCookie env s.cookie k
    if k = .lf ∨ maxCommandLen ≤ ctx.uiTotalLen then do
      let b ← ctx.cInputBuffer.write ctx.uiTotalLen [pxEos]
      some ⟨{ ctx with cInputBuffer := b }, ideal, cookie, false⟩
    else some ⟨ctx, ideal, cookie, true⟩
  else none

/-- Nothing is read yet. -/
def Start (s : Editing) : Prop :=
  s.ctx.uiCursor = 0 ∧ s.ctx.uiTotalLen = 0 ∧ s.ideal = .ending [] ∧ s.cookie = none ∧ s.reading

end Editing

/-! ## What is in the buffer -/

namespace RecvBuffer
variable {b : RecvBuffer} {a x r d : Text}

theorem write_eq (hb : b.chars = a ++ x ++ r) (hd : x.length = d.length) :
    ∃ b', b.write a.length d = some b' ∧ b'.chars = a ++ d ++ r := by
  have hfits : a.length + d.length ≤ maxCommandLen + 1 := by
    have hsize := b.size
    rw [hb, List.length_append, List.length_append] at hsize
    omega
  refine ⟨_, dif_pos hfits, ?_⟩
  change splice b.chars a.length d = _
  rw [hb, splice_append hd]

theorem memcpy_eq {a' y r' : Text} (hsrc : b.chars = a ++ y ++ r) (hdest : b.chars = a' ++ x ++ r')
    (hx : x.length = y.length) :
    ∃ b', b.memcpy a'.length a.length y.length = some b' ∧ b'.chars = a' ++ y ++ r' := by
  have hfits : a.length + y.length ≤ maxCommandLen + 1 := by
    have hsize := b.size
    rw [hsrc, List.length_append, List.length_append] at hsize
    omega
  unfold memcpy
  rw [if_pos hfits]
  have hread : (b.chars.drop a.length).take y.length = y := by
    rw [hsrc, List.append_assoc, List.drop_left, List.take_left]
  rw [hread]
  exact write_eq hdest hx

theorem strlen_eq (hb : b.chars = a ++ pxEos :: r) (ha : pxEos ∉ a) : b.strlen = a.length := by
  unfold strlen
  rw [hb, cString_append, cString_self ha]

/-- A string is written to the start of the buffer. -/
theorem write_zero (hd : d.length < maxCommandLen + 1) :
    ∃ b' r', b.write 0 (d ++ [pxEos]) = some b' ∧ b'.chars = d ++ pxEos :: r' := by
  have hsplit : b.chars = [] ++ b.chars.take (d.length + 1) ++ b.chars.drop (d.length + 1) :=
    (List.take_append_drop ..).symm
  have hlen : (b.chars.take (d.length + 1)).length = (d ++ [pxEos]).length := by
    rw [List.length_take_of_le (by rw [b.size]; omega), List.length_append]
    rfl
  obtain ⟨b', hwrite, hb'⟩ := write_eq hsplit hlen
  exact ⟨b', _, hwrite, by rw [hb', List.nil_append, List.append_assoc]; rfl⟩

/-- A string is written behind the string in the buffer, as far as there is room. -/
theorem strlcat_eq (hb : b.chars = a ++ pxEos :: r) (ha : pxEos ∉ a) (hlen : a.length < maxCommandLen)
    (tail : Text) : ∃ b' r', b.strlcat tail maxCommandLen = some b' ∧
      b'.chars = a ++ tail.take (maxCommandLen - 1 - a.length) ++ pxEos :: r' := by
  have hroom : maxCommandLen - a.length - 1 = maxCommandLen - 1 - a.length := Nat.sub_right_comm ..
  unfold strlcat
  rw [strlen_eq hb ha, if_neg (Nat.not_le.mpr hlen), hroom]
  generalize hd : tail.take (maxCommandLen - 1 - a.length) = d
  have hdlen : d.length ≤ maxCommandLen - 1 - a.length := hd ▸ List.length_take_le ..
  have hsplit : b.chars =
      a ++ (pxEos :: r).take (d.length + 1) ++ (pxEos :: r).drop (d.length + 1) := by
    rw [List.append_assoc, List.take_append_drop]
    exact hb
  have hx : ((pxEos :: r).take (d.length + 1)).length = (d ++ [pxEos]).length := by
    have hsize := b.size
    rw [hb, List.length_append] at hsize
    rw [List.length_take_of_le (by omega), List.length_append]
    rfl
  obtain ⟨b', hwrite, hb'⟩ := write_eq hsplit hx
  exact ⟨b', _, hwrite, by rw [hb', ← List.append_assoc a, List.append_assoc (a ++ d)]; rfl⟩

end RecvBuffer

/-- The buffer has the text of the ideal editor, and the cursor is where that has it. -/
structure Agrees (s : InputCtx) (l : InputLine Char) : Prop where
  cursor_le : s.uiCursor ≤ s.uiTotalLen
  total_le : s.uiTotalLen ≤ maxCommandLen
  text : s.cInputBuffer.chars.take s.uiTotalLen = l.chars
  cursor : s.uiCursor = l.cursor

namespace Agrees
variable {s : InputCtx} {l : InputLine Char} {r : Text}

theorem of_buffer (hb : s.cInputBuffer.chars = l.chars ++ r) (htotal : s.uiTotalLen = l.chars.length)
    (hcursor : s.uiCursor = l.cursor) (hle : l.chars.length ≤ maxCommandLen) : Agrees s l where
  cursor_le := by rw [htotal, hcursor]; exact l.le
  total_le := htotal ▸ hle
  text := by rw [htotal, hb, List.take_left]
  cursor := hcursor

theorem total (h : Agrees s l) : s.uiTotalLen = l.chars.length := by
  rw [← h.text, List.length_take_of_le]
  rw [s.cInputBuffer.size]
  exact Nat.le_succ_of_le h.total_le

theorem buffer (h : Agrees s l) : ∃ r, s.cInputBuffer.chars = l.chars ++ r :=
  ⟨s.cInputBuffer.chars.drop s.uiTotalLen, by rw [← h.text, List.take_append_drop]⟩

/-- Behind a line that is not full, there are two more places. -/
theorem room (h : Agrees s l) (hlt : s.uiTotalLen < maxCommandLen) :
    ∃ x y r, s.cInputBuffer.chars = l.chars ++ x :: y :: r := by
  obtain ⟨r, hr⟩ := h.buffer
  have hsize := s.cInputBuffer.size
  rw [hr, List.length_append, ← h.total] at hsize
  match r with
  | x :: y :: r => exact ⟨x, y, r, hr⟩
  | [] | [_] => simp only [List.length_cons, List.length_nil] at hsize; omega

theorem moved (h : Agrees s l) {n : ℕ} {l' : InputLine Char} (hchars : l'.chars = l.chars)
    (hcursor : n = l'.cursor) : Agrees { s with uiCursor := n } l' := by
  obtain ⟨r, hr⟩ := h.buffer
  refine of_buffer (r := r) (by rw [hchars]; exact hr) (by rw [hchars]; exact h.total) hcursor ?_
  rw [hchars, ← h.total]
  exact h.total_le

end Agrees

/-! ## The keys that move bytes -/

section Keys
variable {s : InputCtx} {l : InputLine Char} (h : Agrees s l) (hlt : s.uiTotalLen < maxCommandLen)
include h hlt

/-- A character behind the line. -/
theorem write_behind (c : Char) : ∃ b, s.cInputBuffer.write s.uiTotalLen [c] = some b ∧
    Agrees ⟨b, s.uiTotalLen + 1, s.uiTotalLen + 1⟩ (.ending (l.chars ++ [c])) := by
  obtain ⟨x, y, r, hr⟩ := h.room hlt
  have hsplit : s.cInputBuffer.chars = l.chars ++ [x] ++ y :: r := by
    rw [hr, List.append_assoc]
    rfl
  obtain ⟨b, hwrite, hb⟩ := RecvBuffer.write_eq hsplit (d := [c]) rfl
  rw [← h.total] at hwrite
  have hlen : (l.chars ++ [c]).length = s.uiTotalLen + 1 := by
    rw [List.length_append, h.total]
    rfl
  exact ⟨b, hwrite, .of_buffer hb hlen.symm hlen.symm (hlen.trans_le hlt)⟩

theorem charRight_agrees (lastMatch : Option Char) : ∃ s', s.charRight lastMatch = some s' ∧
    Agrees s' (if l.AtEnd then .ending (l.chars ++ lastMatch.toList) else l.right) := by
  unfold InputCtx.charRight
  by_cases hend : l.AtEnd
  · have hcursor : s.uiCursor = s.uiTotalLen := by rw [h.cursor, h.total]; exact hend
    rw [if_pos hend, if_neg (by omega)]
    cases lastMatch with
    | none =>
      refine ⟨s, rfl, ?_⟩
      rw [Option.toList_none, List.append_nil]
      exact h.moved rfl (hcursor.trans h.total)
    | some c =>
      obtain ⟨b, hwrite, hb⟩ := write_behind h hlt c
      refine ⟨⟨b, s.uiCursor + 1, s.uiTotalLen + 1⟩, ?_, ?_⟩
      · simp [hwrite]
      · rw [hcursor]
        exact hb
  · have hcursor : s.uiCursor < s.uiTotalLen := by
      refine Nat.lt_of_le_of_ne h.cursor_le fun heq => hend ?_
      rw [h.cursor, h.total] at heq
      exact heq
    have hline : l.cursor < l.chars.length := by
      rw [← h.cursor, ← h.total]
      exact hcursor
    rw [if_neg hend, if_pos hcursor]
    refine ⟨_, rfl, h.moved ?_ ?_⟩
    · unfold InputLine.right
      rw [dif_pos hline]
    · unfold InputLine.right
      rw [dif_pos hline, h.cursor]

theorem charInster_agrees (c : Char) : ∃ s', s.charInster c = some s' ∧ Agrees s' (l.insert c) := by
  unfold InputCtx.charInster
  by_cases hend : s.uiCursor = s.uiTotalLen
  · obtain ⟨b, hwrite, hb⟩ := write_behind h hlt c
    have hline : l.AtEnd := by
      rw [h.cursor, h.total] at hend
      exact hend
    rw [if_pos hend, InputLine.insert_eq_ending hline, hend]
    exact ⟨_, by simp [hwrite], hb⟩
  · have hcursor := Nat.lt_of_le_of_ne h.cursor_le hend
    obtain ⟨a, y, ys, hchars, ha⟩ := l.exists_at_cursor (by rw [← h.cursor, ← h.total]; exact hcursor)
    obtain ⟨x, w, r, hr⟩ := h.room hlt
    have htotal := h.total
    rw [hchars] at hr htotal
    rw [List.length_append, List.length_cons] at htotal
    -- The rest of the line goes one place on, over the next byte of the buffer.
    have hdest : s.cInputBuffer.chars = (a ++ [y]) ++ (ys ++ [x]) ++ w :: r := by
      rw [hr]
      simp
    obtain ⟨b₁, hcopy, hb₁⟩ := RecvBuffer.memcpy_eq hr hdest (by simp)
    have hsplit : b₁.chars = a ++ [y] ++ (y :: ys ++ w :: r) := by rw [hb₁]; simp
    obtain ⟨b₂, hwrite, hb₂⟩ := RecvBuffer.write_eq hsplit (d := [c]) rfl
    rw [List.length_append, List.length_singleton, List.length_cons] at hcopy
    have hn : s.uiTotalLen - s.uiCursor = ys.length + 1 := by rw [h.cursor, ← ha]; omega
    refine ⟨⟨b₂, s.uiCursor + 1, s.uiTotalLen + 1⟩, ?_, ?_⟩
    · rw [if_neg hend, if_pos hcursor, hn, h.cursor, ← ha, hcopy]
      dsimp only [Option.bind_eq_bind, Option.bind_some]
      rw [hwrite]
      rfl
    · have hnew : (l.insert c).chars = a ++ c :: y :: ys := InputLine.insert_chars hchars ha
      have hlen : (l.insert c).chars.length = s.uiTotalLen + 1 := by
        rw [hnew, List.length_append, List.length_cons, List.length_cons, htotal]
        omega
      refine .of_buffer (r := w :: r) ?_ hlen.symm (congrArg (· + 1) h.cursor) (hlen.trans_le hlt)
      rw [hb₂, hnew]
      simp

omit hlt in
theorem charBackspace_agrees : ∃ s', s.charBackspace = some s' ∧ Agrees s' l.backspace := by
  unfold InputCtx.charBackspace
  by_cases hzero : s.uiCursor = 0
  · refine ⟨s, if_pos hzero, ?_⟩
    have hline : l.backspace = l := if_pos (h.cursor.symm.trans hzero)
    rw [hline]
    exact h
  obtain ⟨a, z, b, hchars, ha⟩ := l.exists_before_cursor (by rw [← h.cursor]; omega)
  obtain ⟨hback, hcur⟩ := InputLine.backspace_chars hchars ha
  obtain ⟨r, hr⟩ := h.buffer
  have htotal := h.total
  rw [hchars] at hr htotal
  rw [List.length_append, List.length_cons] at htotal
  have hle := h.total_le
  have hcursor := h.cursor
  have hlen : l.backspace.chars.length = s.uiTotalLen - 1 := by
    rw [hback, List.length_append]
    omega
  rw [if_neg hzero]
  by_cases hend : s.uiCursor = s.uiTotalLen
  · obtain rfl : b = [] := List.length_eq_zero_iff.mp (by omega)
    refine ⟨_, if_pos hend, .of_buffer (r := z :: r) ?_ hlen.symm ?_ (by omega)⟩
    · rw [hback, List.append_nil]
      exact hr.trans (List.append_assoc ..)
    · change s.uiCursor - 1 = _
      omega
  · have hlt' := Nat.lt_of_le_of_ne h.cursor_le hend
    -- The last byte of the line stays where it was until it is overwritten.
    obtain ⟨x, w, hzb⟩ : ∃ x w, z :: b = x ++ [w] :=
      ⟨_, _, (List.dropLast_append_getLast (List.cons_ne_nil z b)).symm⟩
    have hx : x.length = b.length := by
      have hl := congrArg List.length hzb
      rw [List.length_append, List.length_cons] at hl
      exact (Nat.succ.inj hl).symm
    have hsrc : s.cInputBuffer.chars = (a ++ [z]) ++ b ++ r := by rw [hr]; simp
    have hdest : s.cInputBuffer.chars = a ++ x ++ w :: r := by rw [hr, hzb]; simp
    obtain ⟨b₁, hcopy, hb₁⟩ := RecvBuffer.memcpy_eq hsrc hdest hx
    have hsplit : b₁.chars = (a ++ b) ++ [w] ++ r := by rw [hb₁]; simp
    obtain ⟨b₂, hwrite, hb₂⟩ := RecvBuffer.write_eq hsplit (d := [' ']) rfl
    rw [List.length_append, List.length_singleton] at hcopy
    rw [List.length_append] at hwrite
    have h₁ : s.uiCursor - 1 = a.length := by omega
    have h₂ : s.uiCursor = a.length + 1 := by omega
    have h₃ : s.uiTotalLen - s.uiCursor = b.length := by omega
    have h₄ : s.uiTotalLen - 1 = a.length + b.length := by omega
    refine ⟨⟨b₂, s.uiCursor - 1, s.uiTotalLen - 1⟩, ?_, ?_⟩
    · rw [if_neg hend, if_pos hlt', h₃, h₁, h₂, hcopy]
      dsimp only [Option.bind_eq_bind, Option.bind_some]
      rw [h₄, hwrite]
      rfl
    · refine .of_buffer (r := [' '] ++ r) ?_ hlen.symm (h₁.trans hcur.symm) (by omega)
      rw [hb₂, hback, List.append_assoc]

theorem charDelete_agrees : ∃ s', s.charDelete = some s' ∧ Agrees s' l.delete := by
  unfold InputCtx.charDelete
  by_cases hcursor : s.uiCursor < s.uiTotalLen
  · obtain ⟨a, z, b, hchars, ha⟩ := l.exists_at_cursor (by rw [← h.cursor, ← h.total]; exact hcursor)
    have hdel := InputLine.delete_chars hchars ha
    obtain ⟨x, w, r, hr⟩ := h.room hlt
    have htotal := h.total
    rw [hchars] at hr htotal
    rw [List.length_append, List.length_cons] at htotal
    have hcur := h.cursor
    -- One byte from behind the line comes with the rest, and is overwritten.
    have hsrc : s.cInputBuffer.chars = (a ++ [z]) ++ (b ++ [x]) ++ w :: r := by rw [hr]; simp
    obtain ⟨b₁, hcopy, hb₁⟩ := RecvBuffer.memcpy_eq hsrc hr (by simp)
    have hsplit : b₁.chars = (a ++ b) ++ [x] ++ (x :: w :: r) := by rw [hb₁]; simp
    obtain ⟨b₂, hwrite, hb₂⟩ := RecvBuffer.write_eq hsplit (d := [' ']) rfl
    simp only [List.length_append, List.length_singleton] at hcopy
    rw [List.length_append] at hwrite
    have h₁ : s.uiCursor = a.length := by omega
    have h₂ : s.uiTotalLen - s.uiCursor = b.length + 1 := by omega
    have h₃ : s.uiTotalLen - 1 = a.length + b.length := by omega
    have hlen : l.delete.chars.length = s.uiTotalLen - 1 := by
      rw [hdel, List.length_append]
      omega
    refine ⟨⟨b₂, s.uiCursor, s.uiTotalLen - 1⟩, ?_, ?_⟩
    · rw [if_pos hcursor, h₂, h₁, hcopy]
      dsimp only [Option.bind_eq_bind, Option.bind_some]
      rw [h₃, hwrite]
      rfl
    · refine .of_buffer (r := [' '] ++ (x :: w :: r)) ?_ hlen.symm h.cursor (by omega)
      rw [hb₂, hdel, List.append_assoc]
  · rw [if_neg hcursor]
    have hend : l.AtEnd := by
      have hle := h.cursor_le
      have hcur := h.cursor
      have htotal := h.total
      change l.cursor = l.chars.length
      omega
    exact ⟨s, rfl, h.moved (InputLine.delete_atEnd hend) h.cursor⟩

end Keys

/-! ## The keys that copy strings -/

/-- A text fits behind the line: there is nothing to write, or the line has no end mark and there is
room for the text and an end mark. -/
def Appends (line rest : Text) : Prop :=
  rest = [] ∨ pxEos ∉ line ∧ line.length + rest.length < maxCommandLen

/-- The completed word fits. The common part of several keywords takes the place of the whole line. -/
def Word.Fits (keywords : List Keyword) (line : Text) (word : Word) : Prop :=
  match word with
  | .keyword pcKeyword =>
    if 1 < (matchingKeywords keywords pcKeyword).length ∧ word.rest keywords ≠ [] then line = pcKeyword
    else Appends line (word.rest keywords)
  | .file .. => Appends line (word.rest keywords)

section Strings
variable {s : InputCtx} {l : InputLine Char} (h : Agrees s l) (hlt : s.uiTotalLen < maxCommandLen)
include h

/-- A saved line takes the place of the line if it is not as long as the buffer can hold. -/
theorem charHistory_agrees_iff (saved : Option CString) :
    (∃ s', s.charHistory saved = some s' ∧ Agrees s' (l.history saved)) ↔
      ∀ w ∈ saved, w.val.length < maxCommandLen := by
  cases saved with
  | none => exact iff_of_true ⟨s, rfl, h⟩ nofun
  | some w =>
    have htake : (w.val.take (maxCommandLen - 1)).length < maxCommandLen + 1 := by
      rw [List.length_take]
      omega
    obtain ⟨b, r, hwrite, hb⟩ := RecvBuffer.write_zero (b := s.cInputBuffer) htake
    have hplain : pxEos ∉ w.val.take (maxCommandLen - 1) := fun hmem => w.2 (List.mem_of_mem_take hmem)
    have hlen := RecvBuffer.strlen_eq hb hplain
    have hget : s.charHistory (some w) = some ⟨b, b.strlen, b.strlen⟩ := by
      unfold InputCtx.charHistory RecvBuffer.strlcpy
      dsimp only
      rw [hwrite]
      rfl
    have hall : (∀ x ∈ some w, x.val.length < maxCommandLen) ↔ w.val.length < maxCommandLen := by simp
    rw [hall, hget]
    constructor
    · rintro ⟨s', hs', hagrees⟩
      cases hs'
      have htotal := hagrees.total
      change b.strlen = w.val.length at htotal
      rw [hlen, List.length_take] at htotal
      have hpos : 0 < maxCommandLen := by decide
      omega
    · intro hw
      have hself : w.val.take (maxCommandLen - 1) = w.val := List.take_of_length_le (by omega)
      rw [hself] at hb hlen
      exact ⟨_, rfl, .of_buffer hb hlen hlen (Nat.le_of_lt hw)⟩

end Strings

namespace RecvBuffer
variable {b : RecvBuffer} {a r : Text}

theorem strlcat_nil (hb : b.chars = a ++ pxEos :: r) (ha : pxEos ∉ a)
    (hlen : a.length < maxCommandLen) : b.strlcat [] maxCommandLen = some b := by
  have hsplit : b.chars = a ++ [pxEos] ++ r := by rw [hb, List.append_assoc]; rfl
  obtain ⟨⟨chars, size⟩, hwrite, hb'⟩ := write_eq hsplit (d := [pxEos]) rfl
  unfold strlcat
  rw [strlen_eq hb ha, if_neg (Nat.not_le.mpr hlen), List.take_nil, List.nil_append, hwrite]
  cases b
  cases hb'.trans hsplit.symm
  rfl

end RecvBuffer

section Tab
variable {s : InputCtx} {l : InputLine Char} {r tail : Text}
  (hb : s.cInputBuffer.chars = l.chars ++ pxEos :: r) (htotal : s.uiTotalLen = l.chars.length)
  (hlt : s.uiTotalLen < maxCommandLen)
include hb htotal hlt

/-- What is written behind a line is there if the line has no end mark and there is room. -/
theorem strlcat_agrees_iff (htail : pxEos ∉ tail) (hne : tail ≠ []) (n : RecvBuffer → ℕ)
    (hn : ∀ b, n b = s.uiTotalLen + tail.length ∨ n b = b.strlen) :
    (∃ b, s.cInputBuffer.strlcat tail maxCommandLen = some b ∧
      Agrees ⟨b, n b, n b⟩ (.ending (l.chars ++ tail))) ↔
      pxEos ∉ l.chars ∧ l.chars.length + tail.length < maxCommandLen := by
  rw [htotal] at hlt
  rcases cString_split l.chars with ⟨-, hplain⟩ | ⟨u, hu⟩
  · obtain ⟨b, r', hcat, hb'⟩ := RecvBuffer.strlcat_eq hb hplain hlt tail
    rw [and_iff_right hplain, hcat]
    constructor
    · rintro ⟨_, hsome, hagrees⟩
      cases hsome
      by_contra hge
      have hlen := hagrees.total
      have hle := hagrees.total_le
      have htext := hagrees.text
      change n b = (l.chars ++ tail).length at hlen
      change n b ≤ maxCommandLen at hle
      change b.chars.take (n b) = l.chars ++ tail at htext
      rw [List.length_append] at hlen
      -- The last byte of the text is the end mark.
      have hmem : pxEos ∈ b.chars.take (n b) := by
        have hpos : 0 < maxCommandLen := by decide
        have hfront :
            (l.chars ++ tail.take (maxCommandLen - 1 - l.chars.length)).length + 1 = n b := by
          rw [List.length_append, List.length_take]
          omega
        rw [hb', ← hfront, List.take_length_add_append]
        exact List.mem_append_right _ List.mem_cons_self
      rw [htext] at hmem
      exact (List.mem_append.mp hmem).elim hplain htail
    · intro hfits
      have hself : tail.take (maxCommandLen - 1 - l.chars.length) = tail :=
        List.take_of_length_le (by omega)
      rw [hself] at hb'
      have hlen : n b = (l.chars ++ tail).length := by
        rcases hn b with h | h
        · rw [h, htotal, List.length_append]
        · rw [h, RecvBuffer.strlen_eq hb' fun hmem => (List.mem_append.mp hmem).elim hplain htail]
      refine ⟨b, rfl, .of_buffer hb' hlen hlen ?_⟩
      change (l.chars ++ tail).length ≤ _
      rw [List.length_append]
      exact Nat.le_of_lt hfits
  · -- The line has an end mark, and the text is written over it.
    refine iff_of_false ?_ fun h => h.1 (hu ▸ List.mem_append_right _ List.mem_cons_self)
    rintro ⟨b, hcat, hagrees⟩
    have hplain := (cString l.chars).2
    generalize (cString l.chars).val = t at hu hplain
    have hbt : s.cInputBuffer.chars = t ++ pxEos :: (u ++ pxEos :: r) := by
      rw [hb, hu, List.append_assoc]
      rfl
    have hlen : t.length + 1 ≤ l.chars.length := by
      rw [hu, List.length_append]
      exact Nat.add_le_add_left (Nat.succ_le_succ (Nat.zero_le _)) _
    obtain ⟨b', r', hcat', hb'⟩ := RecvBuffer.strlcat_eq hbt hplain (by omega) tail
    cases hcat.symm.trans hcat'
    obtain ⟨d, tl, rfl⟩ := List.exists_cons_of_ne_nil hne
    obtain ⟨k, hk⟩ : ∃ k, maxCommandLen - 1 - t.length = k + 1 :=
      ⟨maxCommandLen - 1 - t.length - 1, by omega⟩
    have htotal' := hagrees.total
    have htext := congrArg (·[t.length]?) hagrees.text
    change n b = (l.chars ++ d :: tl).length at htotal'
    change (b.chars.take (n b))[t.length]? = (l.chars ++ d :: tl)[t.length]? at htext
    rw [List.length_append] at htotal'
    rw [List.getElem?_take_of_lt (by omega), hb', hk, hu] at htext
    have hd : d = pxEos := by simpa using htext
    exact htail (hd ▸ List.mem_cons_self)

/-- With a length that is counted, nothing may be written, too. -/
theorem strlcat_counted_iff (htail : pxEos ∉ tail) :
    (∃ s', (do
        let b ← s.cInputBuffer.strlcat tail maxCommandLen
        some (⟨b, s.uiTotalLen + tail.length, s.uiTotalLen + tail.length⟩ : InputCtx)) = some s' ∧
      Agrees s' (.ending (l.chars ++ tail))) ↔ Appends l.chars tail := by
  by_cases hne : tail = []
  · subst hne
    refine iff_of_true ?_ (.inl rfl)
    have hcat : s.cInputBuffer.strlcat [] maxCommandLen = some s.cInputBuffer := by
      rcases cString_split l.chars with ⟨-, hplain⟩ | ⟨u, hu⟩
      · exact RecvBuffer.strlcat_nil hb hplain (htotal ▸ hlt)
      · have hlen : (cString l.chars).val.length ≤ l.chars.length :=
          (List.takeWhile_sublist _).length_le
        refine RecvBuffer.strlcat_nil (r := u ++ pxEos :: r) ?_ (cString l.chars).2 (by omega)
        rw [hb]
        conv_lhs => rw [hu]
        rw [List.append_assoc]
        rfl
    rw [hcat]
    refine ⟨_, rfl, ?_⟩
    have hlen : s.uiTotalLen = (l.chars ++ []).length := by rw [htotal, List.append_nil]
    refine .of_buffer (r := pxEos :: r) ?_ hlen hlen (hlen ▸ Nat.le_of_lt hlt)
    rw [hb]
    exact congrArg (· ++ pxEos :: r) (List.append_nil _).symm
  · rw [Appends, or_iff_right hne,
      ← strlcat_agrees_iff hb htotal hlt htail hne (fun _ => s.uiTotalLen + tail.length)
        fun _ => .inl rfl]
    cases s.cInputBuffer.strlcat tail maxCommandLen with
    | none => exact iff_of_false nofun nofun
    | some b => simp

omit hlt in
theorem same_agrees (hcur : s.uiCursor = s.uiTotalLen) (hle : s.uiTotalLen ≤ maxCommandLen) :
    Agrees s (.ending (l.chars ++ [])) := by
  rw [List.append_nil]
  exact .of_buffer hb htotal (hcur.trans htotal) (htotal ▸ hle)

omit hb htotal hlt in
/-- The common part of the keywords takes the place of the line. -/
theorem strcpy_agrees_iff {keyword : Text} {minSimilar currentLen : ℕ}
    (hle : minSimilar ≤ keyword.length) (hshort : keyword.length ≤ maxCommandLen) :
    (∃ s', (do
        let b ← s.cInputBuffer.strcpy keyword
        let b ← b.write minSimilar [pxEos]
        some (⟨b, minSimilar, minSimilar⟩ : InputCtx)) = some s' ∧
      Agrees s' (.ending (l.chars ++ (keyword.take minSimilar).drop currentLen))) ↔
      l.chars = (keyword.take minSimilar).take currentLen := by
  obtain ⟨b, r', hcpy, hb⟩ := RecvBuffer.write_zero (b := s.cInputBuffer) (Nat.lt_succ_of_le hshort)
  obtain ⟨x, rr, hx⟩ : ∃ x rr, keyword.drop minSimilar ++ pxEos :: r' = x :: rr :=
    List.exists_cons_of_ne_nil (by simp)
  have hsplit : b.chars = keyword.take minSimilar ++ [x] ++ rr := by
    rw [hb, List.append_assoc, List.singleton_append, ← hx, ← List.append_assoc, List.take_append_drop]
  obtain ⟨b₂, hwrite, hb₂⟩ := RecvBuffer.write_eq hsplit (d := [pxEos]) rfl
  have hlen : (keyword.take minSimilar).length = minSimilar := List.length_take_of_le hle
  rw [hlen] at hwrite
  have hget : (do
      let b ← s.cInputBuffer.strcpy keyword
      let b ← b.write minSimilar [pxEos]
      some (⟨b, minSimilar, minSimilar⟩ : InputCtx)) = some ⟨b₂, minSimilar, minSimilar⟩ := by
    unfold RecvBuffer.strcpy
    rw [hcpy]
    dsimp only [Option.bind_eq_bind, Option.bind_some]
    rw [hwrite]
    rfl
  rw [hget]
  constructor
  · rintro ⟨_, hsome, hagrees⟩
    cases hsome
    have htext := hagrees.text
    change b₂.chars.take minSimilar = l.chars ++ _ at htext
    rw [hb₂, List.append_assoc, List.take_left' hlen] at htext
    refine (List.append_left_inj ((keyword.take minSimilar).drop currentLen)).mp ?_
    rw [List.take_append_drop]
    exact htext.symm
  · intro hline
    have htext : l.chars ++ (keyword.take minSimilar).drop currentLen = keyword.take minSimilar := by
      rw [hline, List.take_append_drop]
    rw [htext]
    rw [List.append_assoc] at hb₂
    exact ⟨_, rfl, .of_buffer hb₂ hlen.symm hlen.symm ((Nat.le_of_eq hlen).trans (hle.trans hshort))⟩

theorem keywordMatch_agrees_iff (hcur : s.uiCursor = s.uiTotalLen) (keywords : List Keyword)
    (pcKeyword : Text) : (∃ s', s.keywordMatch keywords pcKeyword = some s' ∧
      Agrees s' (.ending (l.chars ++ (Word.keyword pcKeyword).rest keywords))) ↔
      (Word.keyword pcKeyword).Fits keywords l.chars := by
  have hm := keywordMatch_spec keywords pcKeyword
  unfold InputCtx.keywordMatch
  rw [Word.Fits]
  dsimp only
  generalize Shell.keywordMatch keywords pcKeyword = m at hm
  have hnum := hm.numMatch
  by_cases hone : m.numMatch = 1
  · obtain ⟨k, hk⟩ := List.length_eq_one_iff.mp (hnum.symm.trans hone)
    have hrest : (Word.keyword pcKeyword).rest keywords = m.firstKeyword.drop pcKeyword.length := by
      rw [Word.rest, hm.first, hk]
      rfl
    have hplain : pxEos ∉ m.firstKeyword.drop pcKeyword.length := by
      refine fun hmem => (matchingKeywords_spec (hk ▸ List.mem_singleton_self k)).2 ?_
      rw [hm.first, hk] at hmem
      exact List.mem_of_mem_drop hmem
    rw [if_pos hone, if_neg (by omega), hrest]
    exact strlcat_counted_iff hb htotal hlt hplain
  rw [if_neg hone]
  by_cases hmany : 1 < m.numMatch ∧ pcKeyword.length < m.minSimilar
  · have hrest : (Word.keyword pcKeyword).rest keywords =
        (m.minSimilarKeyword.take m.minSimilar).drop pcKeyword.length := by
      rw [Word.rest, hm.common]
    have hne : (Word.keyword pcKeyword).rest keywords ≠ [] := fun hnil => by
      rw [hrest, List.drop_eq_nil_iff, List.length_take_of_le hm.le] at hnil
      omega
    have hword : (m.minSimilarKeyword.take m.minSimilar).take pcKeyword.length = pcKeyword := by
      rw [hm.common]
      refine (List.prefix_iff_eq_take.mp (prefix_commonPrefix ?_ fun t ht => ?_)).symm
      · intro hnil
        rw [hnum, hnil] at hmany
        exact absurd hmany.1 (by decide)
      · exact (matchingKeywords_spec ht).1
    rw [if_pos hmany, if_pos ⟨by omega, hne⟩, hrest,
      strcpy_agrees_iff hm.le (hm.short.trans (by decide)), hword]
  · have hnil : (Word.keyword pcKeyword).rest keywords = [] := by
      by_cases hzero : m.numMatch = 0
      · rw [Word.rest, List.length_eq_zero_iff.mp (hnum.symm.trans hzero)]
        exact List.drop_nil
      · rw [Word.rest, ← hm.common]
        refine List.drop_eq_nil_of_le ((List.length_take_le ..).trans ?_)
        omega
    rw [if_neg hmany, if_neg fun h => h.2 hnil, hnil]
    exact iff_of_true ⟨s, rfl, same_agrees hb htotal hcur (Nat.le_of_lt hlt)⟩ (.inl rfl)

theorem fileMatch_agrees_iff (hcur : s.uiCursor = s.uiTotalLen) (keywords : List Keyword)
    (dirents : List Dirent) (pcFileName : Text) :
    (∃ s', s.fileMatch dirents pcFileName = some s' ∧
      Agrees s' (.ending (l.chars ++ (Word.file pcFileName dirents).rest keywords))) ↔
      (Word.file pcFileName dirents).Fits keywords l.chars := by
  have hm := fileMatch_spec dirents pcFileName
  have hsame : ∃ s', some s = some s' ∧ Agrees s' (.ending (l.chars ++ [])) :=
    ⟨s, rfl, same_agrees hb htotal hcur (Nat.le_of_lt hlt)⟩
  unfold InputCtx.fileMatch Word.Fits
  dsimp only
  generalize Shell.fileMatch dirents pcFileName = m at hm
  have hmath := hm.uiMath
  match hds : matchingFiles dirents pcFileName with
  | [] =>
    have hrest : (Word.file pcFileName dirents).rest keywords = [] := by
      rw [Word.rest, hds]
      exact List.drop_nil
    rw [hds] at hmath
    rw [hmath, hrest]
    exact iff_of_true hsame (.inl rfl)
  | [d] =>
    have hrest : (Word.file pcFileName dirents).rest keywords =
        (printed m.direntcMatch m.isDir).drop pcFileName.length := by
      rw [Word.rest, hds, (hm.single d hds).1, (hm.single d hds).2]
    rw [hds] at hmath
    rw [hmath, hrest]
    refine strlcat_counted_iff hb htotal hlt fun hmem => ?_
    refine printed_plain d.plain d.isDir ?_
    rw [← (hm.single d hds).1, ← (hm.single d hds).2]
    exact List.mem_of_mem_drop hmem
  | d :: e :: ds =>
    have hrest : (Word.file pcFileName dirents).rest keywords =
        (m.direntcMatch.take m.stMinSimilar).drop pcFileName.length := by
      rw [Word.rest, hm.common, hds]
    rw [hds] at hmath
    rw [if_pos (by rw [hmath]; simp), hrest]
    have hlen : (m.direntcMatch.take m.stMinSimilar).length = m.stMinSimilar :=
      List.length_take_of_le hm.le
    by_cases hless : pcFileName.length < m.stMinSimilar
    · have hne : (m.direntcMatch.take m.stMinSimilar).drop pcFileName.length ≠ [] := fun hnil => by
        have hle := List.drop_eq_nil_iff.mp hnil
        omega
      have htail : pxEos ∉ (m.direntcMatch.take m.stMinSimilar).drop pcFileName.length := by
        intro hmem
        rw [hm.common] at hmem
        refine commonPrefix_plain (fun t ht => ?_) (List.mem_of_mem_drop hmem)
        obtain ⟨dirent, -, rfl⟩ := List.mem_map.mp ht
        exact dirent.plain
      rw [if_pos hless, Appends, or_iff_right hne,
        ← strlcat_agrees_iff hb htotal hlt htail hne RecvBuffer.strlen fun _ => .inr rfl]
      cases s.cInputBuffer.strlcat ((m.direntcMatch.take m.stMinSimilar).drop pcFileName.length)
        maxCommandLen with
      | none => exact iff_of_false nofun nofun
      | some b => simp
    · have hnil : (m.direntcMatch.take m.stMinSimilar).drop pcFileName.length = [] :=
        List.drop_eq_nil_of_le (by omega)
      rw [if_neg hless, hnil]
      exact iff_of_true hsame (.inl rfl)

end Tab

/-- Tab does what it should exactly if the completed word fits. -/
theorem charTab_agrees_iff {s : InputCtx} {l : InputLine Char} (h : Agrees s l)
    (hlt : s.uiTotalLen < maxCommandLen) (env : EditEnv) :
    (∃ s', s.charTab env = some s' ∧ Agrees s' (l.tab env)) ↔
      ∀ word ∈ env.lastWord (cString l.chars).val, word.Fits env.keywords l.chars := by
  obtain ⟨b, hwrite, hagrees⟩ := write_behind h hlt pxEos
  obtain ⟨r, hb⟩ := hagrees.buffer
  have hb : b.chars = l.chars ++ pxEos :: r := hb.trans (List.append_assoc ..)
  unfold InputCtx.charTab InputLine.tab
  rw [hwrite, Nat.max_eq_right h.cursor_le]
  dsimp only [Option.bind_eq_bind, Option.bind_some]
  rw [hb, cString_append]
  cases hword : env.lastWord (cString l.chars).val with
  | none =>
    refine iff_of_true ⟨_, rfl, ?_⟩ nofun
    exact same_agrees (s := ⟨b, s.uiTotalLen, s.uiTotalLen⟩) hb h.total rfl h.total_le
  | some word =>
    have hall : (∀ x ∈ some word, x.Fits env.keywords l.chars) ↔ word.Fits env.keywords l.chars := by
      simp
    rw [hall]
    cases word with
    | keyword pcKeyword =>
      exact keywordMatch_agrees_iff (s := ⟨b, s.uiTotalLen, s.uiTotalLen⟩) hb h.total hlt rfl _ _
    | file pcFileName dirents =>
      exact fileMatch_agrees_iff (s := ⟨b, s.uiTotalLen, s.uiTotalLen⟩) hb h.total hlt rfl _ _ _

/-! ## Every run -/

/-- A saved line that is got is shorter than the buffer can hold, and the word that Tab completes
fits. -/
def Editing.StepOk (env : EditEnv) (s : Editing) : EditKey → Prop
  | .up => ∀ w ∈ env.saved[env.historyPlace true s.cookie]?, w.val.length < maxCommandLen
  | .down => ∀ w ∈ env.saved[env.historyPlace false s.cookie]?, w.val.length < maxCommandLen
  | .tab => ∀ word ∈ env.lastWord (cString s.ideal.chars).val, word.Fits env.keywords s.ideal.chars
  | _ => True

namespace Editing
variable {env : EditEnv} {s s' : Editing} {k : EditKey}

theorem key_agrees_iff (h : Agrees s.ctx s.ideal) (hlt : s.ctx.uiTotalLen < maxCommandLen) :
    (∃ ctx, s.ctx.key env s.cookie k = some ctx ∧ Agrees ctx (s.ideal.key env s.cookie k)) ↔
      s.StepOk env k := by
  cases k with
  | left => exact iff_of_true ⟨_, rfl, h.moved rfl (congrArg (· - 1) h.cursor)⟩ trivial
  | up => exact charHistory_agrees_iff h _
  | right lastMatch => exact iff_of_true (charRight_agrees h hlt lastMatch) trivial
  | down => exact charHistory_agrees_iff h _
  | home => exact iff_of_true ⟨_, rfl, h.moved rfl rfl⟩ trivial
  | delete => exact iff_of_true (charDelete_agrees h hlt) trivial
  | fin =>
    refine iff_of_true ⟨_, rfl, ?_⟩ trivial
    have hcursor :
        (if s.ctx.uiCursor < s.ctx.uiTotalLen then { s.ctx with uiCursor := s.ctx.uiTotalLen }
          else s.ctx) = { s.ctx with uiCursor := s.ctx.uiTotalLen } := by
      split_ifs with hend
      · rfl
      · have heq : s.ctx.uiCursor = s.ctx.uiTotalLen :=
          Nat.le_antisymm h.cursor_le (Nat.le_of_not_lt hend)
        rw [← heq]
    rw [hcursor]
    exact h.moved rfl h.total
  | tab => exact charTab_agrees_iff h hlt env
  | backspace => exact iff_of_true (charBackspace_agrees h) trivial
  | char c => exact iff_of_true (charInster_agrees h hlt c) trivial
  | lf => exact iff_of_true ⟨_, rfl, h⟩ trivial

/-- The end mark behind the line is written, if it is in the buffer, and changes nothing in front of
it. -/
theorem write_end {b b' : RecvBuffer} {n : ℕ} (h : b.write n [pxEos] = some b') :
    n ≤ maxCommandLen ∧ b'.chars.take n = b.chars.take n := by
  unfold RecvBuffer.write at h
  split_ifs at h with hfits
  cases h
  have hn : n ≤ maxCommandLen := Nat.le_of_succ_le_succ hfits
  refine ⟨hn, ?_⟩
  have hlen : (b.chars.take n).length = n := List.length_take_of_le (by rw [b.size]; omega)
  change (splice b.chars n [pxEos]).take n = _
  rw [splice, List.append_assoc, List.take_left' hlen]

theorem step_agrees_iff (h : Agrees s.ctx s.ideal) (hread : s.reading = true)
    (hlt : s.ctx.uiTotalLen < maxCommandLen) :
    (∃ s', step env s k = some s' ∧ Agrees s'.ctx s'.ideal) ↔ s.StepOk env k := by
  rw [← key_agrees_iff h hlt]
  unfold step
  rw [if_pos hread]
  cases hkey : s.ctx.key env s.cookie k with
  | none => exact iff_of_false nofun nofun
  | some ctx =>
    dsimp only [Option.bind_eq_bind, Option.bind_some]
    have hctx : (∃ c, some ctx = some c ∧ Agrees c (s.ideal.key env s.cookie k)) ↔
        Agrees ctx (s.ideal.key env s.cookie k) := by simp
    rw [hctx]
    split_ifs with hends
    · constructor
      · rintro ⟨s', hs', hagrees⟩
        obtain ⟨b, hwrite, hs'⟩ := Option.bind_eq_some_iff.mp hs'
        cases hs'
        exact ⟨hagrees.cursor_le, hagrees.total_le, (write_end hwrite).2.symm.trans hagrees.text,
          hagrees.cursor⟩
      · intro hagrees
        have hfits : ctx.uiTotalLen + [pxEos].length ≤ maxCommandLen + 1 :=
          Nat.succ_le_succ hagrees.total_le
        obtain ⟨b, hwrite⟩ := Option.isSome_iff_exists.mp
          (RecvBuffer.write_isSome (b := ctx.cInputBuffer).mpr hfits)
        refine ⟨_, by rw [hwrite]; rfl, hagrees.cursor_le, hagrees.total_le, ?_, hagrees.cursor⟩
        exact (write_end hwrite).2.trans hagrees.text
    · simp

/-- What every run keeps. -/
structure Ok (s : Editing) : Prop where
  agrees : Agrees s.ctx s.ideal
  room : s.reading = true → s.ctx.uiTotalLen < maxCommandLen

theorem Start.ok (h : s.Start) : s.Ok := by
  obtain ⟨hcursor, htotal, hideal, -, -⟩ := h
  refine ⟨?_, fun _ => by rw [htotal]; decide⟩
  rw [hideal]
  refine .of_buffer (r := s.ctx.cInputBuffer.chars) rfl htotal hcursor (Nat.zero_le _)

theorem Ok.step (h : s.Ok) (hok : s.StepOk env k) (hs : step env s k = some s') : s'.Ok := by
  have hread : s.reading = true := by
    by_contra hread
    unfold Editing.step at hs
    rw [if_neg hread] at hs
    cases hs
  obtain ⟨s'', hs'', hagrees⟩ := (step_agrees_iff h.agrees hread (h.room hread)).mpr hok
  cases hs.symm.trans hs''
  refine ⟨hagrees, fun hread' => ?_⟩
  unfold Editing.step at hs
  rw [if_pos hread] at hs
  obtain ⟨ctx, -, hs⟩ := Option.bind_eq_some_iff.mp hs
  dsimp only at hs
  split_ifs at hs with hends
  · obtain ⟨b, -, hs⟩ := Option.bind_eq_some_iff.mp hs
    cases hs
    cases hread'
  · cases hs
    exact Nat.lt_of_not_le fun hge => hends (.inr hge)

/-- The buffer has the text of the ideal editor in all runs that keep to the condition, and there it
goes on having it exactly with the keys that meet the condition. -/
theorem lineEdit_agrees (h : Reach (step env) (fun s k => s.StepOk env k) Start s) :
    Agrees s.ctx s.ideal ∧ (s.reading = true → ∀ k,
      (∃ s', step env s k = some s' ∧ Agrees s'.ctx s'.ideal) ↔ s.StepOk env k) := by
  have hs : s.Ok := h.invariant (fun _ hs => hs.ok) fun _ _ _ hs hok hstep => hs.step hok hstep
  exact ⟨hs.agrees, fun hread k => step_agrees_iff hs.agrees hread (hs.room hread)⟩

/-- An empty line, in a buffer of end marks. -/
def blank : Editing :=
  ⟨⟨⟨List.replicate (maxCommandLen + 1) pxEos, Thread.emptyBuffer.size⟩, 0, 0⟩, .ending [], none, true⟩

/-- There is the keyword `echo`. -/
def echoEnv : EditEnv :=
  ⟨⟨fun _ => [], 0⟩, [⟨['e', 'c', 'h', 'o'], by decide, by decide⟩], fun _ => none, []⟩

theorem lineEdit_agrees_echo :
    ∃ s : Editing, s.ideal.chars = ['e', 'c', 'h', 'o'] ∧ Agrees s.ctx s.ideal := by
  have h₀ : Reach (step echoEnv) (fun s k => s.StepOk echoEnv k) Start blank :=
    .start ⟨rfl, rfl, rfl, rfl, rfl⟩
  have h₁ := h₀.extend (.char 'e') trivial rfl
  have h₂ := h₁.extend .tab (fun word hword => by
    cases (hword : some (Word.keyword ['e']) = some word)
    exact (.inr ⟨by decide, by decide⟩ : Appends ['e'] ['c', 'h', 'o'])) rfl
  exact ⟨_, rfl, (lineEdit_agrees h₂).1⟩

/-- A saved line of 511 characters ends with a blank and `b`, and there is the file `bcd`. -/
def fullEnv : EditEnv :=
  ⟨⟨fun _ => [], 0⟩, [], fun _ => some [⟨['b', 'c', 'd'], false, by decide, by decide⟩],
    [⟨List.replicate 509 'x' ++ [' ', 'b'], by decide +kernel⟩]⟩

/-- When the file is completed behind the saved line, the length becomes 513, and the end mark is
written behind the buffer. -/
theorem lineEdit_outside : ∃ s : Editing, Reach (step fullEnv) (fun _ _ => True) Start s ∧
    s.reading = true ∧ step fullEnv s .tab = none := by
  have hup : (runs (step fullEnv) blank [.up]).isSome = true := by decide +kernel
  obtain ⟨s, hs⟩ := Option.isSome_iff_exists.mp hup
  have htab : ((runs (step fullEnv) blank [.up]).bind (step fullEnv · .tab)).isNone = true := by
    decide +kernel
  have hread : (runs (step fullEnv) blank [.up]).all (·.reading) = true := by decide +kernel
  rw [hs] at htab hread
  refine ⟨s, ?_, hread, Option.isNone_iff_eq_none.mp htab⟩
  exact (Reach.start ⟨rfl, rfl, rfl, rfl, rfl⟩).of_runs hs

end Editing

end SylixOS.Shell
