import Mathlib
import SylixOS.Lib.PushPop

/-! # Condensing a path

`_PathCondense` passes over a path once and writes the names that it keeps into the same buffer. The
divider in front of a name is written before it is known whether the name is kept, and dots are only
counted until another character shows that they are part of a name.
-/

namespace SylixOS.IoLib
open Lib

abbrev Path := List Char

/-- `__LW_PATH_IS_DIVIDER`. -/
def pathIsDivider (c : Char) : Bool := c = '/' || c = '\\'

/-- The value of an `INT`. -/
def int (x : ℤ) : ℤ := x.bmod (2 ^ 32)

/-- The variables of `_PathCondense`: the buffer without the end mark, and the pointers into it. -/
structure Condense where
  pcPathName : Path
  pcNode : ℕ
  pcTemp : ℕ
  bCheakDot : Bool
  bNotInc : Bool
  iDotNum : ℤ
  deriving DecidableEq, Repr

/-- `__LW_PATH_PUTBACK`. -/
def pathPutback (pcPathName : Path) (pcRoot : ℕ) : ℕ → ℕ
  | 0 => 0
  | pcPtr + 1 =>
    if pcPtr + 1 = pcRoot then pcPtr + 1
    else if pcPathName[pcPtr]?.any pathIsDivider then pcPtr
    else pathPutback pcPathName pcRoot pcPtr

/-- The dots that have been counted are written. -/
def putDots (pcPathName : Path) (pcNode : ℕ) : ℕ → Path
  | 0 => pcPathName
  | n + 1 => (putDots pcPathName pcNode n).set (pcNode + n) '.'

namespace Condense

/-- A divider. -/
def divider (pcTail : ℕ) (s : Condense) : Condense :=
  let pcPathName := s.pcPathName.set s.pcTemp '/'
  if 1 < s.iDotNum then
    { s with
      pcPathName
      pcNode := pathPutback pcPathName pcTail s.pcNode
      pcTemp := s.pcTemp + 1
      bCheakDot := true
      iDotNum := 0 }
  else if s.iDotNum = 1 then
    { s with
      pcPathName
      pcTemp := s.pcTemp + 1
      bCheakDot := true
      iDotNum := 0 }
  else
    { s with
      pcPathName := pcPathName.set s.pcNode '/'
      pcTemp := s.pcTemp + 1
      bCheakDot := true
      bNotInc := true
      iDotNum := 0 }

/-- Another character, which is read again from the buffer after the dots before it are written. -/
def other (s : Condense) : Condense :=
  let pcNode := if s.bNotInc then s.pcNode + 1 else s.pcNode
  let dots := if s.bCheakDot then s.iDotNum.toNat else 0
  let pcPathName := putDots s.pcPathName pcNode dots
  { pcPathName := pcPathName.set (pcNode + dots) (pcPathName.getD s.pcTemp '\x00')
    pcNode := pcNode + dots + 1
    pcTemp := s.pcTemp + 1
    bCheakDot := false
    bNotInc := false
    iDotNum := if s.bCheakDot then 0 else s.iDotNum }

/-- One character. -/
def step (pcTail : ℕ) (s : Condense) (c : Char) : Condense :=
  if pathIsDivider c then s.divider pcTail
  else if c = '.' && s.bCheakDot then { s with iDotNum := int (s.iDotNum + 1), pcTemp := s.pcTemp + 1 }
  else s.other

/-- The loop, up to the end mark. -/
def scan (pcTail : ℕ) : ℕ → Condense → Condense
  | 0, s => s
  | n + 1, s =>
    match s.pcPathName[s.pcTemp]? with
    | none => s
    | some c => scan pcTail n (s.step pcTail c)

/-- What follows the loop. -/
def finish (pcTail : ℕ) (s : Condense) : Path :=
  let pcNode :=
    if s.bCheakDot && 1 < s.iDotNum then pathPutback s.pcPathName pcTail s.pcNode else s.pcNode
  let pcNode := if s.bNotInc then pcNode + 1 else pcNode
  if 1 < pcNode - pcTail ∧ s.pcPathName[pcNode - 1]?.any pathIsDivider then
    s.pcPathName.take (pcNode - 1)
  else s.pcPathName.take pcNode

end Condense

/-- `_PathCondense`, where `iosDevFind` finds the tail of a path that does not begin at the root. -/
def pathCondense (iosDevFind : Path → ℕ) (pcPathName : Path) : Path :=
  match pcPathName with
  | [] => []
  | c :: _ =>
    let pcTail := if c = '/' then 0 else iosDevFind pcPathName
    (Condense.scan pcTail pcPathName.length ⟨pcPathName, pcTail, pcTail, true, false, 0⟩).finish pcTail

/-! ## The normal form -/

/-- The names between the dividers, some of them empty. -/
def names (p : Path) : List Path := p.splitOnP pathIsDivider

/-- What a name does to the names before it. -/
def nameMove (name : Path) : Move Path :=
  if name = [] ∨ name = ['.'] then .skip else if name = ['.', '.'] then .pop else .push name

/-- The names of the normal form. -/
def normalNames (names : List Path) : List Path := Move.run nameMove names

/-- Each name behind a divider; the root has none. -/
def joinNames (names : List Path) : Path :=
  if names = [] then ['/'] else names.flatMap ('/' :: ·)

/-- The lexical normal form of a path. -/
def normalPath (p : Path) : Path := joinNames (normalNames (names p))

/-- A name of three or more dots. -/
def OnlyDots (name : Path) : Prop := 3 ≤ name.length ∧ ∀ c ∈ name, c = '.'

/-- The dots at the start of a name. -/
def leadingDots (name : Path) : ℕ := (name.takeWhile (· = '.')).length

/-! ## The names that the pass keeps -/

/-- The number of the dots at the start as it is counted. -/
def countedDots (name : Path) : ℤ := int (leadingDots name)

/-- A name as it is written back. -/
def written (name : Path) : Path :=
  List.replicate (countedDots name).toNat '.' ++ name.dropWhile (· = '.')

/-- What the pass makes of a name. -/
def passMove (name : Path) : Move Path :=
  if name.dropWhile (· = '.') = [] then if 1 < countedDots name then .pop else .skip
  else .push (written name)

theorem replicate_leadingDots (name : Path) :
    List.replicate (leadingDots name) '.' ++ name.dropWhile (· = '.') = name := by
  have hdots : name.takeWhile (· = '.') = List.replicate (leadingDots name) '.' := by
    refine List.eq_replicate_iff.mpr ⟨rfl, fun c hc => ?_⟩
    simpa using List.mem_takeWhile_imp hc
  rw [← hdots]
  exact List.takeWhile_append_dropWhile

theorem int_of {n : ℕ} (h : n < 2 ^ 31) : int n = n := Int.bmod_eq_of_le (by omega) (by omega)

theorem int_lt (x : ℤ) : int x < 2 ^ 31 := by
  have := Int.bmod_lt (x := x) (m := 2 ^ 32) (by decide)
  rw [int]
  omega

/-- A name is written back as it was, but for very many dots. -/
theorem written_eq_iff (name : Path) : written name = name ↔ leadingDots name < 2 ^ 31 := by
  have hlt := int_lt (leadingDots name)
  constructor
  · intro h
    have hlen := congrArg List.length h
    have hname := congrArg List.length (replicate_leadingDots name)
    rw [written, countedDots] at hlen
    simp only [List.length_append, List.length_replicate] at hlen hname
    omega
  · intro h
    rw [written, countedDots, int_of h, Int.toNat_natCast]
    exact replicate_leadingDots name

theorem dropWhile_eq_nil_iff (name : Path) :
    name.dropWhile (· = '.') = [] ↔ ∀ c ∈ name, c = '.' := by
  rw [List.dropWhile_eq_nil_iff]
  simp

theorem dots_eq_replicate {name : Path} (h : ∀ c ∈ name, c = '.') :
    name = List.replicate name.length '.' ∧ leadingDots name = name.length := by
  have hrep := replicate_leadingDots name
  rw [(dropWhile_eq_nil_iff name).mpr h, List.append_nil] at hrep
  have hlen := congrArg List.length hrep
  rw [List.length_replicate] at hlen
  exact ⟨by rw [← hlen]; exact hrep.symm, hlen⟩

/-- A name that is not dots only, or at most two of them, is read as it should be. -/
theorem passMove_agrees (name : Path) (h : ¬OnlyDots name) :
    passMove name = (nameMove name).map written := by
  by_cases hdots : ∀ c ∈ name, c = '.'
  · have hlen : name.length < 3 := by
      by_contra hge
      exact h ⟨by omega, hdots⟩
    obtain ⟨hrep, -⟩ := dots_eq_replicate hdots
    obtain hlen | hlen | hlen : name.length = 0 ∨ name.length = 1 ∨ name.length = 2 := by omega
    all_goals
      rw [hlen] at hrep
      rw [hrep]
      decide
  · have hne : ∀ n, name ≠ List.replicate n '.' := by
      rintro n rfl
      exact hdots fun c hc => (List.mem_replicate.mp hc).2
    have hone : ¬(name = [] ∨ name = ['.']) := by
      rintro (rfl | rfl)
      · exact hne 0 rfl
      · exact hne 1 rfl
    rw [passMove, if_neg fun hnil => hdots ((dropWhile_eq_nil_iff name).mp hnil), nameMove, if_neg hone,
      if_neg (by exact hne 2), Move.map]

/-- Three or more dots are taken for two, or for one if they are very many. -/
theorem passMove_lost (name : Path) (h : OnlyDots name) :
    (∃ a, nameMove name = .push a) ∧ (passMove name = .skip ∨ passMove name = .pop) := by
  obtain ⟨hlen, hdots⟩ := h
  constructor
  · refine ⟨name, ?_⟩
    rw [nameMove, if_neg, if_neg]
    · rintro rfl
      simp at hlen
    · rintro (rfl | rfl) <;> simp at hlen
  · rw [passMove, if_pos ((dropWhile_eq_nil_iff name).mpr hdots)]
    split_ifs
    · exact .inr rfl
    · exact .inl rfl

/-! ## One character after the other -/

/-- What the pass is at: the names that are kept, with the dots behind the last divider, or with the name
behind it as far as it goes. -/
inductive Passing where
  | sep (kept : List Path) (dots : ℕ)
  | name (kept : List Path) (cur : Path)

namespace Passing

def step (t : Passing) (c : Char) : Passing :=
  match t with
  | .sep kept dots =>
    if pathIsDivider c then .sep (if 1 < int dots then kept.dropLast else kept) 0
    else if c = '.' then .sep kept (dots + 1)
    else .name kept (List.replicate (int dots).toNat '.' ++ [c])
  | .name kept cur => if pathIsDivider c then .sep (kept ++ [cur]) 0 else .name kept (cur ++ [c])

/-- The names that are kept, if the path ends here. -/
def names : Passing → List Path
  | .sep kept dots => if 1 < int dots then kept.dropLast else kept
  | .name kept cur => kept ++ [cur]

theorem foldl_dots (kept : List Path) (n : ℕ) :
    (List.replicate n '.').foldl step (.sep kept 0) = .sep kept n := by
  induction n with
  | zero => rfl
  | succ n ih =>
    rw [List.replicate_succ', List.foldl_append, ih]
    rfl

theorem foldl_name (kept : List Path) (cur name : Path) (h : ∀ c ∈ name, pathIsDivider c = false) :
    name.foldl step (.name kept cur) = .name kept (cur ++ name) := by
  induction name generalizing cur with
  | nil => simp
  | cons c name ih =>
    have hc := h c (by simp)
    rw [List.foldl_cons, step, hc, if_neg Bool.false_ne_true, ih _ fun d hd => h d (by simp [hd])]
    simp

/-- A name does to the names before it what is made of it. -/
theorem names_foldl_name (kept : List Path) (name : Path) (h : ∀ c ∈ name, pathIsDivider c = false) :
    (name.foldl step (.sep kept 0)).names = (passMove name).act kept := by
  have hname := replicate_leadingDots name
  rw [passMove]
  split_ifs with hnil hpop
  · rw [hnil, List.append_nil] at hname
    rw [← hname, foldl_dots, names, if_pos (by exact hpop)]
    rfl
  · rw [hnil, List.append_nil] at hname
    rw [← hname, foldl_dots, names, if_neg (by exact hpop)]
    rfl
  · obtain ⟨c, rest, hrest⟩ := List.exists_cons_of_ne_nil hnil
    have hdot : c ≠ '.' := by
      have hhead := List.head_dropWhile_not (p := (· = '.')) (l := name) (by exact hnil)
      simp only [hrest, List.head_cons] at hhead
      simpa using hhead
    have hmem : ∀ d ∈ c :: rest, pathIsDivider d = false := fun d hd =>
      h d ((List.dropWhile_sublist _).subset (hrest ▸ hd))
    rw [← hname, List.foldl_append, foldl_dots, hrest, List.foldl_cons, step, hmem c (by simp),
      if_neg Bool.false_ne_true, if_neg hdot, foldl_name _ _ _ fun d hd => hmem d (by simp [hd]), names,
      ← hrest, hname, written, hrest, Move.act]
    simp [countedDots]

/-- A divider ends a name. -/
theorem step_divider (t : Passing) {c : Char} (h : pathIsDivider c = true) : t.step c = .sep t.names 0 := by
  cases t with
  | sep kept dots => rw [step, if_pos h, names]
  | name kept cur => rw [step, if_pos h, names]

theorem step_sep (kept : List Path) (dots : ℕ) {c : Char} (h : pathIsDivider c = false) :
    (Passing.sep kept dots).step c = if c = '.' then .sep kept (dots + 1)
      else .name kept (List.replicate (int dots).toNat '.' ++ [c]) := by
  rw [step, h, if_neg Bool.false_ne_true]

theorem step_name (kept : List Path) (cur : Path) {c : Char} (h : pathIsDivider c = false) :
    (Passing.name kept cur).step c = .name kept (cur ++ [c]) := by
  rw [step, h, if_neg Bool.false_ne_true]

/-- What is kept of a path. -/
theorem names_foldl (kept : List Path) (cs : Path) :
    (cs.foldl step (.sep kept 0)).names =
      (IoLib.names cs).foldl (fun kept name => (passMove name).act kept) kept := by
  induction hn : cs.length using Nat.strongRecOn generalizing kept cs with
  | ind n ih =>
    by_cases hdiv : ∃ c ∈ cs, pathIsDivider c = true
    · obtain ⟨name, c, rest, hname, hc, rfl⟩ : ∃ name c rest, (∀ d ∈ name, pathIsDivider d = false) ∧
          pathIsDivider c = true ∧ cs = name ++ c :: rest := by
        obtain ⟨c, hmem, hc⟩ := hdiv
        have hne : cs.dropWhile (fun d => !pathIsDivider d) ≠ [] := by
          rw [Ne, List.dropWhile_eq_nil_iff]
          intro hall
          have := hall c hmem
          rw [hc] at this
          cases this
        obtain ⟨d, rest, hrest⟩ := List.exists_cons_of_ne_nil hne
        refine ⟨cs.takeWhile fun d => !pathIsDivider d, d, rest, fun e he => ?_, ?_, ?_⟩
        · simpa using List.mem_takeWhile_imp he
        · have hhead := List.head_dropWhile_not (p := fun d => !pathIsDivider d) (l := cs) (by exact hne)
          simp only [hrest, List.head_cons] at hhead
          simpa using hhead
        · rw [← hrest]
          exact List.takeWhile_append_dropWhile.symm
      rw [IoLib.names, List.splitOnP_append_cons_of_forall_mem hname c hc, List.foldl_append,
        List.foldl_cons, step_divider _ hc, names_foldl_name kept name hname, List.foldl_cons]
      refine ih rest.length ?_ _ rest rfl
      rw [← hn, List.length_append, List.length_cons]
      omega
    · have hname : ∀ c ∈ cs, pathIsDivider c = false := fun c hc =>
        Bool.eq_false_iff.mpr fun h => hdiv ⟨c, hc, h⟩
      rw [IoLib.names, List.splitOnP_eq_singleton hname, names_foldl_name kept cs hname]
      rfl

end Passing

/-! ## The buffer -/

section Buffer
variable {buf w rest : Path} {c : Char} {i n temp : ℕ}

/-- What is written stays behind the pointer. -/
theorem prefix_set (h : w <+: buf) (hle : w.length ≤ i) : w <+: buf.set i c := by
  obtain ⟨t, rfl⟩ := h
  rw [List.set_append_right i c hle]
  exact List.prefix_append w _

theorem prefix_set_length (h : w <+: buf) (hlt : w.length < buf.length) :
    w ++ [c] <+: buf.set w.length c := by
  obtain ⟨t, rfl⟩ := h
  cases t with
  | nil => simp at hlt
  | cons d t =>
    rw [List.set_append_right _ c le_rfl, Nat.sub_self, List.set_cons_zero]
    exact ⟨t, by simp⟩

theorem putDots_length (buf : Path) (i n : ℕ) : (putDots buf i n).length = buf.length := by
  induction n with
  | zero => rfl
  | succ n ih => rw [putDots, List.length_set, ih]

theorem prefix_putDots (h : w <+: buf) (hle : w.length + n ≤ buf.length) :
    w ++ List.replicate n '.' <+: putDots buf w.length n := by
  induction n with
  | zero => simpa [putDots] using h
  | succ n ih =>
    have hlen : (w ++ List.replicate n '.').length = w.length + n := by simp
    have hput := prefix_set_length (c := '.') (ih (by omega)) (by rw [hlen, putDots_length]; omega)
    rw [hlen, List.append_assoc, ← List.replicate_succ'] at hput
    exact hput

theorem drop_putDots (hle : i + n ≤ temp) : (putDots buf i n).drop temp = buf.drop temp := by
  induction n with
  | zero => rfl
  | succ n ih => rw [putDots, List.drop_set_of_lt (by omega), ih (by omega)]

theorem drop_succ_of (h : buf.drop temp = c :: rest) :
    buf.drop (temp + 1) = rest ∧ temp < buf.length ∧ buf[temp]? = some c := by
  have hlt : temp < buf.length := by
    by_contra hge
    rw [List.drop_eq_nil_of_le (not_lt.mp hge)] at h
    cases h
  refine ⟨?_, hlt, ?_⟩
  · rw [← List.tail_drop, h, List.tail_cons]
  · have hget := (List.getElem?_drop : (buf.drop temp)[0]? = buf[temp + 0]?)
    rw [h] at hget
    exact hget.symm

/-- Dots and the character behind them are written at the end of what is written. -/
theorem put_other (h : w <+: buf) (hrest : buf.drop temp = c :: rest) (hle : w.length + n ≤ temp) :
    let dots := putDots buf w.length n
    let buf' := dots.set (w.length + n) (dots.getD temp '\x00')
    w ++ (List.replicate n '.' ++ [c]) <+: buf' ∧ buf'.drop (temp + 1) = rest ∧
      buf'.length = buf.length := by
  have hdrop : (putDots buf w.length n).drop temp = c :: rest := by rw [drop_putDots hle, hrest]
  obtain ⟨htail, hlt, hget⟩ := drop_succ_of hdrop
  have hlen : (w ++ List.replicate n '.').length = w.length + n := by simp
  have hput := prefix_set_length (c := c) (prefix_putDots (n := n) h ?_) (by rw [hlen]; omega)
  · dsimp only
    rw [List.getD_eq_getElem?_getD, hget, Option.getD_some, List.length_set, putDots_length]
    rw [hlen, List.append_assoc] at hput
    exact ⟨hput, by rw [List.drop_set_of_lt (by omega), htail], rfl⟩
  · rw [putDots_length] at hlt
    omega

end Buffer

/-- The names that are kept, each behind a divider. -/
def render (kept : List Path) : Path := kept.flatMap ('/' :: ·)

theorem render_append (kept : List Path) (name : Path) :
    render (kept ++ [name]) = render kept ++ '/' :: name := by
  simp [render]

/-- A name is kept if it has characters and no dividers. -/
def Name (name : Path) : Prop := name ≠ [] ∧ ∀ c ∈ name, pathIsDivider c = false

theorem pathPutback_name {buf : Path} {p k : ℕ} (hp : buf[p]? = some '/')
    (hname : ∀ j, p < j → j ≤ p + k → buf[j]?.any pathIsDivider = false) :
    pathPutback buf 0 (p + k + 1) = p := by
  induction k with
  | zero =>
    rw [pathPutback, if_neg (by omega), hp]
    rfl
  | succ k ih =>
    rw [pathPutback, if_neg (by omega), hname (p + (k + 1)) (by omega) le_rfl,
      if_neg Bool.false_ne_true]
    exact ih fun j hlt hle => hname j hlt (by omega)

theorem getElem?_of_start {w buf : Path} {i : ℕ} (h : w <+: buf) (hlt : i < w.length) :
    buf[i]? = w[i]? := by
  obtain ⟨t, rfl⟩ := h
  exact List.getElem?_append_left hlt

/-- The pointer goes back to the divider before the last name. -/
theorem pathPutback_render {buf : Path} {kept : List Path} (hkept : ∀ name ∈ kept, Name name)
    (h : render kept <+: buf) :
    pathPutback buf 0 (render kept).length = (render kept.dropLast).length := by
  rcases List.eq_nil_or_concat kept with rfl | ⟨kept, name, rfl⟩
  · rfl
  · rw [List.concat_eq_append] at *
    rw [List.dropLast_concat, render_append] at *
    have hname := hkept name (by simp)
    rw [List.length_append, List.length_cons, ← Nat.add_assoc]
    refine pathPutback_name ?_ fun j hlt hle => ?_
    · rw [getElem?_of_start h (by simp)]
      simp
    · rw [getElem?_of_start h (by simp; omega), List.getElem?_append_right (by omega),
        List.getElem?_cons, if_neg (by omega)]
      cases hget : name[j - (render kept).length - 1]? with
      | none => rfl
      | some c => exact hname.2 c (List.mem_of_getElem? hget)

/-! ## The pass -/

namespace Passing

/-- What the pass has written, with the divider before the next name. -/
def text : Passing → Path
  | .sep kept _ => render kept ++ ['/']
  | .name kept cur => render (kept ++ [cur])

/-- The names of the pass, with the one that it is in. -/
def all : Passing → List Path
  | .sep kept _ => kept
  | .name kept cur => kept ++ [cur]

end Passing

/-- The variables when the pass is at `t` and `rest` is still to be read. -/
structure PassAt (s : Condense) (t : Passing) (rest : Path) : Prop where
  text : t.text <+: s.pcPathName
  unread : s.pcPathName.drop s.pcTemp = rest
  all : ∀ name ∈ t.all, Name name
  vars : match t with
    | .sep kept dots => s.pcNode = (render kept).length ∧ s.bCheakDot = true ∧ s.bNotInc = true ∧
        s.iDotNum = int dots ∧ (render kept).length + 1 + dots ≤ s.pcTemp
    | .name kept cur => s.pcNode = (render (kept ++ [cur])).length ∧ s.bCheakDot = false ∧
        s.bNotInc = false ∧ s.iDotNum = 0 ∧ (render (kept ++ [cur])).length ≤ s.pcTemp

theorem int_toNat_le (n : ℕ) : (int n).toNat ≤ n := by
  by_cases hn : n < 2 ^ 31
  · rw [int_of hn]
    rfl
  · have := int_lt (n : ℤ)
    omega

theorem int_succ (n : ℕ) : int (int n + 1) = int ((n + 1 : ℕ) : ℤ) := by
  rw [int, int, int, Int.bmod_add_bmod, Int.natCast_add]
  rfl

section Pass
variable {s : Condense} {rest : Path} {c : Char}

/-- A divider behind dots. -/
theorem PassAt.divider_sep {kept : List Path} {dots : ℕ} (h : PassAt s (.sep kept dots) (c :: rest))
    (hc : pathIsDivider c = true) : PassAt (s.step 0 c) ((Passing.sep kept dots).step c) rest := by
  obtain ⟨hnode, hdot, hinc, hnum, hle⟩ := h.vars
  obtain ⟨htail, hlt, -⟩ := drop_succ_of h.unread
  have htext : render kept ++ ['/'] <+: s.pcPathName.set s.pcTemp '/' :=
    prefix_set h.text (by simp; omega)
  have hunread : (s.pcPathName.set s.pcTemp '/').drop (s.pcTemp + 1) = rest := by
    rw [List.drop_set_of_lt (by omega), htail]
  have hrender : render kept <+: s.pcPathName.set s.pcTemp '/' := (List.prefix_append _ _).trans htext
  rw [Condense.step, if_pos hc, Condense.divider, Passing.step, if_pos hc, hnum]
  by_cases htwo : 1 < int dots
  · rw [if_pos htwo, if_pos htwo]
    have hback := pathPutback_render h.all hrender
    have hsub : ∀ name ∈ kept.dropLast, Name name := fun name hname =>
      h.all name (List.dropLast_subset _ hname)
    have hpre : render kept.dropLast ++ ['/'] <+: render kept ++ ['/'] := by
      rcases List.eq_nil_or_concat kept with rfl | ⟨kept, name, rfl⟩
      · exact List.prefix_rfl
      · rw [List.concat_eq_append, List.dropLast_concat, render_append]
        exact ⟨name ++ ['/'], by simp⟩
    have hlen := hpre.length_le
    rw [List.length_append, List.length_append] at hlen
    refine ⟨hpre.trans htext, hunread, hsub, ?_, rfl, hinc, rfl, ?_⟩
    · rw [hnode]
      exact hback
    · dsimp only
      omega
  · rw [if_neg htwo, if_neg htwo]
    split_ifs
    · exact ⟨htext, hunread, h.all, hnode, rfl, hinc, rfl, by dsimp only; omega⟩
    · refine ⟨?_, ?_, h.all, hnode, rfl, rfl, rfl, by dsimp only; omega⟩
      · dsimp only
        rw [hnode]
        exact prefix_set_length hrender (by rw [List.length_set]; omega)
      · dsimp only
        rw [List.drop_set_of_lt (by omega), hunread]

/-- A divider behind a name. -/
theorem PassAt.divider_name {kept : List Path} {cur : Path} (h : PassAt s (.name kept cur) (c :: rest))
    (hc : pathIsDivider c = true) : PassAt (s.step 0 c) ((Passing.name kept cur).step c) rest := by
  obtain ⟨hnode, hdot, hinc, hnum, hle⟩ := h.vars
  obtain ⟨htail, hlt, -⟩ := drop_succ_of h.unread
  have htext : render (kept ++ [cur]) <+: s.pcPathName.set s.pcTemp '/' := prefix_set h.text hle
  rw [Condense.step, if_pos hc, Condense.divider, Passing.step, if_pos hc, hnum, if_neg (by decide),
    if_neg (by decide)]
  refine ⟨?_, ?_, h.all, hnode, rfl, rfl, rfl, by dsimp only; omega⟩
  · dsimp only
    rw [hnode]
    exact prefix_set_length htext (by rw [List.length_set]; omega)
  · dsimp only
    rw [List.drop_set_of_lt (by omega), List.drop_set_of_lt (by omega), htail]

/-- A character that is not a divider. -/
theorem PassAt.other {t : Passing} (h : PassAt s t (c :: rest)) (hc : pathIsDivider c = false) :
    PassAt (s.step 0 c) (t.step c) rest := by
  obtain ⟨htail, hlt, -⟩ := drop_succ_of h.unread
  rw [Condense.step, if_neg (by rw [hc]; exact Bool.false_ne_true)]
  cases t with
  | sep kept dots =>
    obtain ⟨hnode, hdot, hinc, hnum, hle⟩ := h.vars
    have hint := int_toNat_le dots
    rw [hdot, Bool.and_true, Passing.step_sep kept dots hc]
    by_cases hpoint : c = '.'
    · rw [if_pos (decide_eq_true hpoint), if_pos hpoint, hnum, int_succ]
      refine ⟨h.text, htail, h.all, hnode, rfl, hinc, ?_, ?_⟩
      · dsimp only
      · dsimp only
        omega
    · have hlen : (render kept ++ ['/']).length = (render kept).length + 1 := by simp
      obtain ⟨hput, hunread, -⟩ := put_other (n := (int dots).toNat) h.text h.unread
        (by rw [Passing.text, hlen]; omega)
      rw [Passing.text, hlen] at hput hunread
      rw [if_neg (by simpa using hpoint), if_neg hpoint, Condense.other, hinc, hdot, if_pos rfl, if_pos rfl,
        if_pos rfl, hnum, hnode]
      have hname : render (kept ++ [List.replicate (int dots).toNat '.' ++ [c]]) =
          render kept ++ ['/'] ++ (List.replicate (int dots).toNat '.' ++ [c]) := by
        rw [render_append]
        simp
      have hall : Name (List.replicate (int dots).toNat '.' ++ [c]) := by
        refine ⟨by simp, fun d hd => ?_⟩
        rcases List.mem_append.mp hd with hd | hd
        · rw [(List.mem_replicate.mp hd).2]
          rfl
        · rw [List.mem_singleton.mp hd, hc]
      have hnlen : (render (kept ++ [List.replicate (int dots).toNat '.' ++ [c]])).length =
          (render kept).length + 1 + (int dots).toNat + 1 := by
        rw [hname, List.length_append, hlen, List.length_append, List.length_replicate,
          List.length_singleton]
        omega
      refine ⟨?_, ?_, ?_, ?_, rfl, rfl, rfl, ?_⟩
      · rw [Passing.text, hname]
        dsimp only
        exact hput
      · dsimp only
        exact hunread
      · rw [Passing.all, List.forall_mem_append]
        exact ⟨h.all, by simpa using hall⟩
      · exact hnlen.symm
      · rw [hnlen]
        dsimp only
        omega
  | name kept cur =>
    obtain ⟨hnode, hdot, hinc, hnum, hle⟩ := h.vars
    obtain ⟨hput, hunread, -⟩ := put_other (n := 0) h.text h.unread hle
    rw [hdot, Bool.and_false, if_neg Bool.false_ne_true, Passing.step_name kept cur hc, Condense.other,
      hinc, hdot, if_neg Bool.false_ne_true, if_neg Bool.false_ne_true, if_neg Bool.false_ne_true, hnode]
    have hname : render (kept ++ [cur ++ [c]]) = render (kept ++ [cur]) ++ [c] := by
      rw [render_append, render_append]
      simp
    have hcur := h.all cur (by simp [Passing.all])
    have hall : Name (cur ++ [c]) := by
      refine ⟨by simp, fun d hd => ?_⟩
      rcases List.mem_append.mp hd with hd | hd
      · exact hcur.2 d hd
      · rw [List.mem_singleton.mp hd, hc]
    refine ⟨?_, hunread, ?_, ?_, rfl, rfl, hnum, ?_⟩
    · rw [Passing.text, hname]
      simpa [Passing.text] using hput
    · rw [Passing.all, List.forall_mem_append]
      exact ⟨fun name hmem => h.all name (by simp [Passing.all, hmem]), by simpa using hall⟩
    · rw [hname]
      simp
    · rw [hname]
      simp
      omega

theorem PassAt.step {t : Passing} (h : PassAt s t (c :: rest)) : PassAt (s.step 0 c) (t.step c) rest := by
  cases hc : pathIsDivider c with
  | false => exact h.other hc
  | true =>
    cases t with
    | sep kept dots => exact h.divider_sep hc
    | name kept cur => exact h.divider_name hc

end Pass

/-- The loop passes over the rest of the path. -/
theorem PassAt.scan {s : Condense} {t : Passing} {rest : Path} (h : PassAt s t rest) :
    PassAt (s.scan 0 rest.length) (rest.foldl Passing.step t) [] := by
  induction rest generalizing s t with
  | nil => exact h
  | cons c rest ih =>
    rw [List.length_cons, Condense.scan, (drop_succ_of h.unread).2.2]
    exact ih h.step

/-- The end of the path. -/
theorem PassAt.finish {s : Condense} {t : Passing} (h : PassAt s t []) :
    s.finish 0 = joinNames t.names ∧ ∀ name ∈ t.names, Name name := by
  cases t with
  | sep kept dots =>
    obtain ⟨hnode, hdot, hinc, hnum, -⟩ := h.vars
    have hrender : render kept <+: s.pcPathName := (List.prefix_append _ _).trans h.text
    have hnames : ∀ name ∈ (Passing.sep kept dots).names, Name name := by
      rw [Passing.names]
      split_ifs
      · exact fun name hname => h.all name (List.dropLast_subset _ hname)
      · exact h.all
    have hat : (if 1 < int dots then pathPutback s.pcPathName 0 s.pcNode else s.pcNode) =
        (render (Passing.sep kept dots).names).length := by
      rw [Passing.names, hnode]
      split_ifs
      · exact pathPutback_render h.all hrender
      · rfl
    have htext : render (Passing.sep kept dots).names ++ ['/'] <+: s.pcPathName := by
      refine List.IsPrefix.trans ?_ h.text
      rw [Passing.names, Passing.text]
      split_ifs
      · rcases List.eq_nil_or_concat kept with rfl | ⟨kept, name, rfl⟩
        · exact List.prefix_rfl
        · rw [List.concat_eq_append, List.dropLast_concat, render_append]
          exact ⟨name ++ ['/'], by simp⟩
      · exact List.prefix_rfl
    refine ⟨?_, hnames⟩
    generalize (Passing.sep kept dots).names = names at hnames hat htext
    rw [Condense.finish, hdot, hinc, hnum, Bool.true_and, if_pos rfl]
    simp only [decide_eq_true_eq]
    rw [hat, joinNames]
    obtain ⟨t, ht⟩ := htext
    by_cases hnil : names = []
    · subst hnil
      rw [if_neg (by simp [render]), if_pos rfl, ← ht]
      rfl
    · have hpos : 0 < (render names).length := by
        obtain ⟨name, names, rfl⟩ := List.exists_cons_of_ne_nil hnil
        simp [render]
      have hget : s.pcPathName[(render names).length]? = some '/' := by
        rw [← ht, List.getElem?_append_left (by simp)]
        simp
      rw [Nat.add_sub_cancel, hget, if_pos ⟨by omega, rfl⟩, if_neg hnil, ← ht, List.append_assoc,
        List.take_left]
      rfl
  | name kept cur =>
    obtain ⟨hnode, hdot, hinc, -, -⟩ := h.vars
    obtain ⟨t, ht⟩ := h.text
    refine ⟨?_, h.all⟩
    have hcur := h.all cur (by simp [Passing.all])
    obtain ⟨front, c, rfl⟩ := List.eq_nil_or_concat cur |>.resolve_left hcur.1
    rw [List.concat_eq_append] at *
    rw [Passing.text] at ht
    have hget : s.pcPathName[(render (kept ++ [front ++ [c]])).length - 1]?.any pathIsDivider = false := by
      rw [← ht, List.getElem?_append_left (by simp [render_append]), ← List.getLast?_eq_getElem?,
        render_append, ← List.cons_append, ← List.append_assoc, List.getLast?_concat]
      exact hcur.2 c (by simp)
    rw [Condense.finish, hdot, hinc, Bool.false_and, if_neg Bool.false_ne_true, if_neg Bool.false_ne_true,
      hnode, hget, if_neg (fun h => Bool.false_ne_true h.2), Passing.names, joinNames, if_neg (by simp),
      ← ht, List.take_left]
    rfl

/-! ## The result -/

/-- The names that the pass keeps of a path. -/
def passNames (p : Path) : List Path := Move.run passMove (names p)

theorem names_root (cs : Path) : names ('/' :: cs) = [] :: names cs := by
  rw [names, List.splitOnP_cons_eq_if_modifyHead, if_pos (by decide), names]

/-- The pass keeps names, each behind a divider. -/
theorem pathCondense_eq (iosDevFind : Path → ℕ) (cs : Path) :
    pathCondense iosDevFind ('/' :: cs) = joinNames (passNames ('/' :: cs)) ∧
      ∀ name ∈ passNames ('/' :: cs), Name name := by
  have hstart : PassAt (Condense.step 0 ⟨'/' :: cs, 0, 0, true, false, 0⟩ '/') (.sep [] 0) cs := by
    refine ⟨⟨cs, rfl⟩, rfl, ?_, rfl, rfl, rfl, rfl, le_rfl⟩
    simp [Passing.all]
  have hnames : (cs.foldl Passing.step (.sep [] 0)).names = passNames ('/' :: cs) := by
    rw [Passing.names_foldl, passNames, names_root]
    rfl
  rw [← hnames]
  exact hstart.scan.finish

theorem Condense.step_length (pcTail : ℕ) (s : Condense) (c : Char) :
    (s.step pcTail c).pcPathName.length = s.pcPathName.length := by
  rw [Condense.step]
  split_ifs
  · rw [Condense.divider]
    split_ifs <;> simp
  · rfl
  · simp [Condense.other, putDots_length]

theorem Condense.scan_length (pcTail n : ℕ) (s : Condense) :
    (s.scan pcTail n).pcPathName.length = s.pcPathName.length := by
  induction n generalizing s with
  | zero => rfl
  | succ n ih =>
    rw [Condense.scan]
    split
    · rfl
    · rw [ih, Condense.step_length]

/-- A path does not get longer. -/
theorem pathCondense_length (iosDevFind : Path → ℕ) (p : Path) :
    (pathCondense iosDevFind p).length ≤ p.length := by
  cases p with
  | nil => exact le_rfl
  | cons c cs =>
    rw [pathCondense, Condense.finish]
    split_ifs
    all_goals
      refine (List.length_take_le' _ _).trans ?_
      rw [Condense.scan_length]

/-- The names of names that each stand behind a divider. -/
theorem names_render {name : Path} (hname : ∀ c ∈ name, pathIsDivider c = false) (kept : List Path)
    (h : ∀ name ∈ kept, Name name) : names (name ++ render kept) = name :: kept := by
  induction kept generalizing name with
  | nil => rw [render, List.flatMap_nil, List.append_nil, names, List.splitOnP_eq_singleton hname]
  | cons next kept ih =>
    have hrest := ih (h next (by simp)).2 fun name hmem => h name (by simp [hmem])
    rw [show render (next :: kept) = '/' :: (next ++ render kept) from rfl, names,
      List.splitOnP_append_cons_of_forall_mem hname '/' rfl, ← names, hrest]

/-- What is condensed is read as the names that were kept. -/
theorem passNames_joinNames (kept : List Path) (h : ∀ name ∈ kept, Name name) :
    passNames (joinNames kept) = Move.run passMove kept := by
  rw [joinNames]
  split_ifs with hnil
  · rw [hnil]
    rfl
  · obtain ⟨name, kept, rfl⟩ := List.exists_cons_of_ne_nil hnil
    have hnames := names_render (h name (by simp)).2 kept
      fun name hmem => h name (by simp [hmem])
    rw [show (name :: kept).flatMap ('/' :: ·) = '/' :: (name ++ render kept) from rfl, passNames,
      names_root, hnames]
    rfl

/-- A name that was written is kept as it is. -/
theorem passMove_written {name : Path} (h : name.dropWhile (· = '.') ≠ []) :
    passMove (written name) = .push (written name) := by
  have hcount : (countedDots name).toNat < 2 ^ 31 := by
    have hlt := int_lt (leadingDots name)
    rw [← countedDots] at hlt
    omega
  obtain ⟨c, rest, hrest⟩ := List.exists_cons_of_ne_nil h
  have hdot : c ≠ '.' := by
    have hhead := List.head_dropWhile_not (p := (· = '.')) (l := name) (by exact h)
    simp only [hrest, List.head_cons] at hhead
    simpa using hhead
  have hdots : ∀ n, leadingDots (List.replicate n '.' ++ c :: rest) = n := by
    intro n
    rw [leadingDots, List.takeWhile_append_of_pos (by simp), List.takeWhile_cons_of_neg (by simpa)]
    simp
  have hdrop : ∀ n, (List.replicate n '.' ++ c :: rest).dropWhile (· = '.') = c :: rest := by
    intro n
    rw [List.dropWhile_append_of_pos (by simp), List.dropWhile_cons_of_neg (by simpa)]
  have hfix : written (written name) = written name := by
    rw [written_eq_iff]
    refine lt_of_eq_of_lt ?_ hcount
    rw [written, hrest, hdots]
  have hne : (written name).dropWhile (· = '.') ≠ [] := by
    rw [written, hrest, hdrop]
    simp
  rw [passMove, if_neg hne, hfix]

/-- The names that the pass keeps would be kept again. -/
theorem passNames_push (p : Path) : ∀ name ∈ passNames p, passMove name = .push name := by
  refine Move.mem_run fun name _ a ha => ?_
  rw [passMove] at ha
  split_ifs at ha with hnil hpop
  rw [← Move.push.inj ha]
  exact passMove_written hnil

/-- Once more does not change it. -/
theorem pathCondense_idem (iosDevFind : Path → ℕ) (cs : Path) :
    pathCondense iosDevFind (pathCondense iosDevFind ('/' :: cs)) =
      pathCondense iosDevFind ('/' :: cs) := by
  obtain ⟨heq, hnames⟩ := pathCondense_eq iosDevFind cs
  have hroot : ∀ kept, ∃ ds, joinNames kept = '/' :: ds := by
    intro kept
    rw [joinNames]
    cases kept with
    | nil => exact ⟨[], rfl⟩
    | cons name kept =>
      rw [if_neg (by simp)]
      exact ⟨name ++ render kept, rfl⟩
  have hpush := passNames_push ('/' :: cs)
  obtain ⟨ds, hds⟩ := hroot (passNames ('/' :: cs))
  have hkept := passNames_joinNames _ hnames
  rw [Move.run_push _ hpush, hds] at hkept
  rw [heq, hds, (pathCondense_eq iosDevFind ds).1, hkept, hds]

theorem joinNames_injective {S T : List Path} (hS : ∀ name ∈ S, Name name) (hT : ∀ name ∈ T, Name name)
    (h : joinNames S = joinNames T) : S = T := by
  have hnames : ∀ {S : List Path}, (∀ name ∈ S, Name name) →
      (names (joinNames S)).filter (· ≠ []) = S := by
    intro S hS
    have hfilter : S.filter (· ≠ []) = S := by
      rw [List.filter_eq_self]
      exact fun name hname => by simpa using (hS name hname).1
    rw [joinNames]
    split_ifs with hnil
    · rw [hnil]
      rfl
    · obtain ⟨name, S, rfl⟩ := List.exists_cons_of_ne_nil hnil
      rw [show (name :: S).flatMap ('/' :: ·) = '/' :: (name ++ render S) from rfl, names_root,
        names_render (hS name (by simp)).2 S fun name hmem => hS name (by simp [hmem]),
        List.filter_cons_of_neg (by simp), hfilter]
  rw [← hnames hS, h, hnames hT]

/-- There are no dividers in the names of a path. -/
theorem names_divider (p : Path) : ∀ name ∈ names p, ∀ c ∈ name, pathIsDivider c = false := by
  induction p with
  | nil => simp [names]
  | cons c cs ih =>
    rw [names, List.splitOnP_cons_eq_if_modifyHead, ← names]
    split_ifs with hc
    · simpa using ih
    · cases hnames : names cs with
      | nil => simp
      | cons name rest =>
        rw [hnames] at ih
        rw [List.modifyHead_cons, List.forall_mem_cons, List.forall_mem_cons]
        exact ⟨⟨Bool.eq_false_iff.mpr hc, ih name (by simp)⟩, fun x hx => ih x (by simp [hx])⟩

/-- The normal form keeps names. -/
theorem normalNames_name (p : Path) : ∀ name ∈ normalNames (names p), Name name := by
  refine Move.mem_run fun name hname a ha => ?_
  rw [nameMove] at ha
  split_ifs at ha with hskip hpop
  cases ha
  exact ⟨fun hnil => hskip (.inl hnil), names_divider p name hname⟩

/-- A path is condensed to its normal form, if and only if each name of three or more dots is followed by
a place where the normal form of the path up to it is the root, and the names of the normal form do not
start with too many dots to be counted. -/
theorem pathCondense_normal_iff (iosDevFind : Path → ℕ) (cs : Path) :
    (pathCondense iosDevFind ('/' :: cs) = normalPath ('/' :: cs) ∧
      (pathCondense iosDevFind ('/' :: cs)).length ≤ ('/' :: cs).length ∧
      pathCondense iosDevFind (pathCondense iosDevFind ('/' :: cs)) =
        pathCondense iosDevFind ('/' :: cs)) ↔
    (∀ pre name post, names ('/' :: cs) = pre ++ name :: post → OnlyDots name →
      ∃ mid, mid <+: post ∧ normalNames (pre ++ name :: mid) = []) ∧
    ∀ name ∈ normalNames (names ('/' :: cs)), leadingDots name < 2 ^ 31 := by
  obtain ⟨heq, hnames⟩ := pathCondense_eq iosDevFind cs
  have hrun := Move.run_eq_iff passMove_agrees passMove_lost (names ('/' :: cs))
  simp only [written_eq_iff] at hrun
  rw [and_iff_left ⟨pathCondense_length iosDevFind _, pathCondense_idem iosDevFind cs⟩, heq, normalPath]
  refine Iff.trans ⟨fun h => ?_, fun h => congrArg joinNames h⟩ hrun
  exact joinNames_injective hnames (normalNames_name _) h

/-- Three dots are taken for two. -/
theorem not_pathCondense_normal :
    pathCondense (fun _ => 0) "/a/...".toList ≠ normalPath "/a/...".toList := by
  decide

end SylixOS.IoLib
