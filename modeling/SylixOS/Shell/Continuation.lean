import SylixOS.Lib.Store
import SylixOS.Shell.History

/-! # Lines that are continued

The thread of the shell reads lines to one buffer, behind what it has when the last line ended with a
`\`. It counts what the reader reports; but the reader copies only what there is room for, and reports
the length of the line. -/

namespace SylixOS.Shell
open Lib.Store

/-- `cRecvBuffer`. -/
structure RecvBuffer where
  chars : Text
  size : chars.length = maxCommandLen + 1

namespace RecvBuffer

/-- Characters are written from a place on. -/
def write (b : RecvBuffer) (p : ℕ) (d : Text) : Option RecvBuffer :=
  if h : p + d.length ≤ maxCommandLen + 1 then
    some ⟨splice b.chars p d, (splice_length _ _ _ (h.trans_eq b.size.symm)).trans b.size⟩
  else none

/-- `cRecvBuffer[n - 1]`. -/
def before (b : RecvBuffer) (n : ℕ) : Option Char := if n = 0 then none else b.chars[n - 1]?

/-- An end mark is written there. -/
def endBefore (b : RecvBuffer) (n : ℕ) : RecvBuffer :=
  ⟨b.chars.set (n - 1) pxEos, (List.length_set ..).trans b.size⟩

/-- The text up to the end mark, which must be in the buffer. -/
def text (b : RecvBuffer) : Option Text :=
  if pxEos ∈ b.chars then some (b.chars.takeWhile (· ≠ pxEos)) else none

end RecvBuffer

/-- The buffer and `iTotalNum` when a line is read: there is room for a character and an end mark. -/
structure Thread where
  recvBuffer : RecvBuffer
  totalNum : ℕ
  room : totalNum + 2 ≤ maxCommandLen

/-- Without a line that is continued. -/
def Thread.ready (b : RecvBuffer) : Thread := ⟨b, 0, by decide⟩

/-- What is read. -/
inductive Input where
  /-- There are these characters for `read`. -/
  | read (chars : Text)
  /-- `__tshellReadline` has a line and reports a length. -/
  | readline (line : Text) (readNum : ℕ)

/-- The buffer after reading, and `iReadNum`. `read` takes what there is room for, and `lib_strlcpy`
also needs room for its end mark. -/
def Thread.receive (s : Thread) : Input → Option (RecvBuffer × ℕ)
  | .read chars => do
    let x := chars.take (maxCommandLen - s.totalNum)
    let b ← s.recvBuffer.write s.totalNum x
    some (b, x.length)
  | .readline line readNum => do
    let b ← s.recvBuffer.write s.totalNum
      (line.take (maxCommandLen - s.totalNum - 1) ++ [pxEos])
    some (b, readNum)

/-- A line end is taken off. -/
def lineEnd (b : RecvBuffer) (totalNum : ℕ) : Option (RecvBuffer × ℕ) := do
  let c ← b.before totalNum
  if c = '\n' then
    let b := b.endBefore totalNum
    let totalNum := totalNum - 1
    let c ← b.before totalNum
    if c = '\r' then some (b.endBefore totalNum, totalNum - 1) else some (b, totalNum)
  else some (b, totalNum)

/-- `__TTINY_SHELL_FORCE_ABORT`. -/
def forceAbort : Text :=
  ['\x60', '$', '\x7b', '@', '_', 'f', 'o', 'r', 'c', 'e', '_', '\x82', '\x93', '\xa4', '\xe0', '_', 'a',
    'b', 'o', 'r', 't', '_', '@', '\x7d', '$', '\x60']

/-- The command is executed, if there is one, which leaves something in its place; or the shell is left.
-/
def execute (left : Text → Text) (b : RecvBuffer) (totalNum : ℕ) : Option (Option Thread) :=
  if totalNum = 0 then some (some (.ready b))
  else do
    let cmd ← b.text
    if containsKeyword forceAbort cmd then some none
    else do
      let b ← b.write 0 ((left cmd).take cmd.length)
      some (some (.ready b))

/-- A line that ends with a `\` is continued, unless there is no room left. -/
def continueOr (left : Text → Text) (b : RecvBuffer) (totalNum : ℕ) : Option (Option Thread) := do
  let c ← b.before totalNum
  if c = '\\' then
    if h : totalNum - 1 + 2 ≤ maxCommandLen then some (some ⟨b, totalNum - 1, h⟩)
    else some (some (.ready b))
  else execute left b totalNum

/-- A round of the loop of `__tshellThread`, which has no result when something is done outside of the
buffer. -/
def Thread.round (left : Text → Text) (s : Thread) (input : Input) : Option (Option Thread) := do
  let (b, readNum) ← s.receive input
  if readNum = 0 then execute left b s.totalNum
  else do
    let (b, totalNum) ← lineEnd b (s.totalNum + readNum)
    continueOr left b totalNum

namespace Thread
variable (left : Text → Text)

/-- In a round nothing is done outside of the buffer, and the length is not above its bound. -/
def InBounds (s : Thread) (input : Input) : Prop :=
  (s.round left input).isSome ∧ ∀ x ∈ s.receive input, s.totalNum + x.2 ≤ maxCommandLen

/-- What is read does not bring the length above its bound; it is not only a line end; and when there is
a command to execute, there is an end mark for it. -/
def Fits (s : Thread) (input : Input) : Prop :=
  ∀ b readNum, s.receive input = some (b, readNum) →
    if readNum = 0 then s.totalNum = 0 ∨ pxEos ∈ b.chars
    else
      let w := b.chars.take (s.totalNum + readNum)
      s.totalNum + readNum ≤ maxCommandLen ∧ w ≠ ['\n'] ∧ w ≠ ['\r', '\n'] ∧
        (w.getLast? = some '\n' ∨ w.getLast? = some '\\' ∨ pxEos ∈ b.chars)

end Thread

/-! ## One round -/

namespace RecvBuffer
variable {b : RecvBuffer} {n p : ℕ} {d : Text}

theorem write_isSome : (b.write p d).isSome ↔ p + d.length ≤ maxCommandLen + 1 := by
  unfold write
  split_ifs with h <;> simp [h]

theorem before_eq (hn : n ≤ maxCommandLen + 1) : b.before n = (b.chars.take n).getLast? := by
  unfold before
  rw [List.getLast?_take]
  split_ifs with h
  · rfl
  · rw [List.getElem?_eq_getElem (by rw [b.size]; omega), Option.some_or]

theorem take_endBefore : (b.endBefore n).chars.take (n - 1) = b.chars.take (n - 1) :=
  List.take_set_of_le (Nat.le_refl _)

theorem mem_endBefore (hpos : 0 < n) (hn : n ≤ maxCommandLen + 1) : pxEos ∈ (b.endBefore n).chars := by
  have hlt : n - 1 < b.chars.length := by
    rw [b.size]
    omega
  exact List.mem_set hlt pxEos

theorem getLast?_take (hpos : 0 < n) (hn : n ≤ maxCommandLen + 1) :
    ∃ c, (b.chars.take n).getLast? = some c := by
  refine List.getLast?_isSome.mpr ?_ |> Option.isSome_iff_exists.mp
  rw [← List.length_pos_iff, List.length_take, b.size]
  omega

end RecvBuffer

variable {left : Text → Text} {b : RecvBuffer} {n : ℕ}

theorem execute_isSome : (execute left b n).isSome ↔ n = 0 ∨ pxEos ∈ b.chars := by
  unfold execute RecvBuffer.text
  by_cases hn : n = 0
  · simp [hn]
  · by_cases hmem : pxEos ∈ b.chars
    · have hlen : 0 + ((left (b.chars.takeWhile (· ≠ pxEos))).take
          (b.chars.takeWhile (· ≠ pxEos)).length).length ≤ maxCommandLen + 1 := by
        have htake : (b.chars.takeWhile (· ≠ pxEos)).length ≤ b.chars.length :=
          (List.takeWhile_sublist _).length_le
        rw [b.size] at htake
        rw [Nat.zero_add, List.length_take]
        exact (Nat.min_le_left ..).trans htake
      obtain ⟨b', hb'⟩ := Option.isSome_iff_exists.mp (RecvBuffer.write_isSome.mpr hlen)
      refine iff_of_true ?_ (.inr hmem)
      rw [if_neg hn, if_pos hmem]
      dsimp only [Option.bind_eq_bind, Option.bind_some]
      split_ifs
      · rfl
      · rw [hb']
        rfl
    · simp [hn, hmem]

theorem continueOr_isSome (hn : n ≤ maxCommandLen + 1) : (continueOr left b n).isSome ↔
    n ≠ 0 ∧ ((b.chars.take n).getLast? = some '\\' ∨ pxEos ∈ b.chars) := by
  unfold continueOr
  rw [RecvBuffer.before_eq hn]
  rcases Nat.eq_zero_or_pos n with rfl | hpos
  · simp
  · obtain ⟨c, hc⟩ := b.getLast?_take hpos hn
    rw [hc]
    dsimp only [Option.bind_eq_bind, Option.bind_some]
    by_cases hescape : c = '\\'
    · rw [if_pos hescape]
      refine iff_of_true ?_ ⟨hpos.ne', .inl (congrArg some hescape)⟩
      split_ifs <;> rfl
    · rw [if_neg hescape, execute_isSome, or_iff_right hpos.ne', Option.some.injEq, or_iff_right hescape,
        and_iff_right hpos.ne']

/-- What is left of a line when its end is taken off. -/
theorem lineEnd_spec (hpos : 0 < n) (hn : n ≤ maxCommandLen) :
    match lineEnd b n with
    | none => b.chars.take n = ['\n']
    | some (b', m) => m ≤ n ∧ b.chars.take n ≠ ['\n'] ∧ (m = 0 ↔ b.chars.take n = ['\r', '\n']) ∧
        ((b' = b ∧ m = n ∧ (b.chars.take n).getLast? ≠ some '\n') ∨
          ((b.chars.take n).getLast? = some '\n' ∧ pxEos ∈ b'.chars)) := by
  have hlen : ∀ m, m ≤ n → (b.chars.take m).length = m := by
    intro m hm
    rw [List.length_take, b.size]
    omega
  obtain ⟨c, hc⟩ := b.getLast?_take hpos (by omega)
  unfold lineEnd
  rw [RecvBuffer.before_eq (by omega), hc]
  dsimp only [Option.bind_eq_bind, Option.bind_some]
  by_cases hline : c = '\n'
  · subst hline
    have hw : b.chars.take n = b.chars.take (n - 1) ++ ['\n'] := by
      obtain ⟨w, hw⟩ := List.getLast?_eq_some_iff.mp hc
      rw [← List.dropLast_take (by rw [b.size]; omega), hw, List.dropLast_concat]
    rw [if_pos rfl, RecvBuffer.before_eq (by omega), RecvBuffer.take_endBefore]
    rcases Nat.eq_zero_or_pos (n - 1) with hn' | hpos'
    · rw [hn'] at hw ⊢
      exact hw
    · obtain ⟨c', hc'⟩ := b.getLast?_take hpos' (by omega)
      rw [hc']
      dsimp only [Option.bind_some]
      have hne : b.chars.take n ≠ ['\n'] := by
        intro h
        have h := congrArg List.length h
        rw [hlen n le_rfl, List.length_singleton] at h
        omega
      by_cases hreturn : c' = '\r'
      · subst hreturn
        rw [if_pos rfl]
        refine ⟨by omega, hne, ⟨fun hm => ?_, fun h => ?_⟩, .inr ⟨rfl,
          RecvBuffer.mem_endBefore hpos' (by omega)⟩⟩
        · have hone : n - 1 = 1 := by omega
          rw [hw]
          obtain ⟨w, hw'⟩ := List.getLast?_eq_some_iff.mp hc'
          have hlen' := hlen (n - 1) (Nat.sub_le ..)
          rw [hw', List.length_append, hone, List.length_singleton] at hlen'
          rw [hw', List.length_eq_zero_iff.mp (Nat.succ.inj hlen')]
          rfl
        · have h := congrArg List.length h
          rw [hlen n le_rfl] at h
          rw [h]
          rfl
      · rw [if_neg hreturn]
        refine ⟨by omega, hne, iff_of_false hpos'.ne' fun h => ?_, .inr ⟨rfl,
          RecvBuffer.mem_endBefore hpos (by omega)⟩⟩
        rw [hw] at h
        have h : b.chars.take (n - 1) = ['\r'] := (List.append_left_inj ['\n']).mp h
        rw [h] at hc'
        exact hreturn (Option.some.inj hc').symm
  · rw [if_neg hline]
    have hlast : (b.chars.take n).getLast? ≠ some '\n' := by
      rw [hc]
      exact fun h => hline (Option.some.inj h)
    refine ⟨le_rfl, fun h => hlast (by rw [h]; rfl), iff_of_false hpos.ne' fun h => hlast (by rw [h]; rfl),
      .inl ⟨rfl, rfl, fun h => hline (Option.some.inj h)⟩⟩

namespace Thread
variable {s : Thread} {input : Input}

theorem receive_isSome (s : Thread) (input : Input) : (s.receive input).isSome := by
  have hroom := s.room
  have hwrite : ∀ d : Text, d.length ≤ maxCommandLen - s.totalNum →
      ∃ b, s.recvBuffer.write s.totalNum d = some b := by
    intro d hd
    exact Option.isSome_iff_exists.mp (RecvBuffer.write_isSome.mpr (by omega))
  cases input with
  | read chars =>
    obtain ⟨b, hb⟩ := hwrite _ (List.length_take_le (maxCommandLen - s.totalNum) chars)
    unfold receive
    dsimp only
    rw [hb]
    rfl
  | readline line readNum =>
    have hlen := List.length_take_le (maxCommandLen - s.totalNum - 1) line
    obtain ⟨b, hb⟩ := hwrite (line.take (maxCommandLen - s.totalNum - 1) ++ [pxEos]) (by
      rw [List.length_append, List.length_singleton]
      omega)
    unfold receive
    dsimp only
    rw [hb]
    rfl

/-- A round is as it should be exactly when what is read fits. -/
theorem inBounds_iff : s.InBounds left input ↔ s.Fits input := by
  obtain ⟨⟨b, readNum⟩, hreceive⟩ := Option.isSome_iff_exists.mp (s.receive_isSome input)
  have hroom := s.room
  unfold InBounds Fits round
  rw [hreceive]
  dsimp only [Option.bind_eq_bind, Option.bind_some]
  simp only [Option.some.injEq, Option.mem_def, forall_eq', Prod.mk.injEq, and_imp]
  refine Iff.trans ?_ ⟨fun h _ _ hb hnum => hb ▸ hnum ▸ h, fun h => h b readNum rfl rfl⟩
  by_cases hnum : readNum = 0
  · rw [if_pos hnum, if_pos hnum, execute_isSome, and_iff_left]
    omega
  rw [if_neg hnum, if_neg hnum, and_comm]
  refine and_congr_right fun hbound => ?_
  have hpos : 0 < s.totalNum + readNum := by omega
  generalize s.totalNum + readNum = n at hbound hpos
  have hspec := lineEnd_spec (b := b) hpos hbound
  cases hline : lineEnd b n with
  | none =>
    rw [hline] at hspec
    exact iff_of_false nofun fun h => h.1 hspec
  | some r =>
    obtain ⟨b', m⟩ := r
    rw [hline] at hspec
    obtain ⟨hm, hne, hzero, hcase⟩ := hspec
    rw [Option.bind_some, continueOr_isSome (by omega), Ne, hzero, and_iff_right hne]
    refine and_congr_right fun _ => ?_
    rcases hcase with ⟨rfl, rfl, hlast⟩ | ⟨hlast, hmem⟩
    · rw [or_iff_right (a := _ = some '\n') hlast]
    · exact iff_of_true (.inr hmem) (.inl hlast)

end Thread

/-! ## All rounds -/

namespace Thread
variable (left : Text → Text)

/-- All rounds of a run are in bounds, up to its end or to where the shell is left. -/
def RunInBounds : Thread → List Input → Prop
  | _, [] => True
  | s, input :: inputs =>
    s.InBounds left input ∧ ∀ s', s.round left input = some (some s') → RunInBounds s' inputs

/-- All that is read in a run fits. -/
def RunFits : Thread → List Input → Prop
  | _, [] => True
  | s, input :: inputs =>
    s.Fits input ∧ ∀ s', s.round left input = some (some s') → RunFits s' inputs

/-- Whatever is read, all rounds are in bounds exactly when all of it fits. -/
theorem runInBounds_iff (s : Thread) (inputs : List Input) :
    s.RunInBounds left inputs ↔ s.RunFits left inputs := by
  induction inputs generalizing s with
  | nil => exact Iff.rfl
  | cons input inputs ih =>
    unfold RunInBounds RunFits
    rw [inBounds_iff]
    exact and_congr_right fun _ => forall_congr' fun s' => imp_congr_right fun _ => ih s'

/-- A buffer of end marks. -/
def emptyBuffer : RecvBuffer := ⟨List.replicate (maxCommandLen + 1) pxEos, List.length_replicate⟩

/-- A line of 300 characters that is continued, and one more of this length; and without echo, a line
that is empty. -/
theorem not_runInBounds_long :
    ¬ (ready emptyBuffer).RunInBounds id
        [.readline (List.replicate 299 'a' ++ ['\\']) 300, .readline (List.replicate 300 'a') 300] ∧
      ¬ (ready emptyBuffer).RunInBounds id [.read ['\n']] := by
  constructor
  · rintro ⟨-, hrun⟩
    have hfirst : ((ready emptyBuffer).round id
        (.readline (List.replicate 299 'a' ++ ['\\']) 300)).map (fun o => o.map totalNum) =
          some (some 299) := by decide +kernel
    obtain ⟨o, hround, ho⟩ := Option.map_eq_some_iff.mp hfirst
    obtain ⟨s, rfl, hs⟩ := Option.map_eq_some_iff.mp ho
    obtain ⟨hbounds, -⟩ := hrun s hround
    obtain ⟨⟨b, readNum⟩, hreceive⟩ := Option.isSome_iff_exists.mp
      (s.receive_isSome (.readline (List.replicate 300 'a') 300))
    have hnum : readNum = 300 := by
      obtain ⟨_, _, h⟩ := Option.bind_eq_some_iff.mp hreceive
      cases h
      rfl
    have hlong : s.totalNum + readNum ≤ 512 := hbounds.2 _ hreceive
    omega
  · rintro ⟨⟨hround, -⟩, -⟩
    exact absurd hround (by decide +kernel)

end Thread
end SylixOS.Shell
