import SylixOS.Lib.Borders
import SylixOS.Lib.Fault
import SylixOS.Shell.Completion

/-! # Looking for a fixed text in the lines of a file

`grep -N` looks for the pattern with a table of failures. The table and the positions are in buffers of a
fixed size, and nothing checks whether they are full.
-/

namespace SylixOS.Shell.Grep

open SylixOS.Lib

/-- `int next[1000]`. -/
def nextSize : ℕ := 1000

/-- `int positionsBuffer[100]`, and `int lengthBuffer[100]`. -/
def bufferSize : ℕ := 100

/-- The next element of a buffer is written. -/
def push {α : Type} (size : ℕ) (buf : List α) (v : α) : Except Fault (List α) :=
  if buf.length < size then .ok (buf ++ [v]) else .error .range

/-- The element of a buffer, or of a string with its end mark. -/
def at? {α : Type} (buf : List α) (i : ℕ) : Except Fault α :=
  match buf[i]? with
  | some v => .ok v
  | none => .error .range

/-- `target[index]`. -/
def charAt (target : CString) (index : ℕ) : Except Fault Char := at? (target.val ++ [pxEos]) index

/-- `next[index - 1]`: there is no element in front of the first. -/
def back (next : List ℕ) : ℕ → Except Fault ℕ
  | 0 => .error .range
  | index + 1 => at? next index

/-- The inner loop of `pre` and of `find`. -/
def fallBack (target : CString) (next : List ℕ) (c : Char) : ℕ → ℕ → Except Fault ℕ
  | 0, _ => .error .fuel
  | fuel + 1, index =>
    if index = 0 then .ok index
    else do
      if c = (← charAt target index) then return index
      else fallBack target next c fuel (← back next index)

/-- What `pre` and `find` do with a letter before they record the index. -/
def advance (target : CString) (next : List ℕ) (c : Char) (index : ℕ) : Except Fault ℕ := do
  let index ← fallBack target next c (index + 1) index
  if (← charAt target index) = c then return index + 1 else return index

/-- One turn of the loop of `pre`. -/
def preStep (target : CString) (st : List ℕ × ℕ) (c : Char) : Except Fault (List ℕ × ℕ) := do
  let index ← advance target st.1 c st.2
  let buf ← push nextSize st.1 index
  return (buf, index)

/-- `pre`: the table of failures. -/
def pre (target : CString) : Except Fault (List ℕ) := do
  let buf ← push nextSize [] 0
  let st ← target.val.tail.foldlM (preStep target) (buf, 0)
  return st.1

/-- What `find` goes through the line with. -/
structure Scan where
  i : ℕ
  index : ℕ
  pos : List ℕ
  deriving DecidableEq, Repr

/-- One turn of the loop of `find`. -/
def findStep (target : CString) (next : List ℕ) (s : Scan) (c : Char) : Except Fault Scan := do
  let index ← advance target next c s.index
  if index = target.val.length then
    let index ← back next index
    let pos ← push bufferSize s.pos (s.i + 1 - target.val.length)
    return { i := s.i + 1, index := index, pos := pos }
  else return { i := s.i + 1, index := index, pos := s.pos }

/-- `find`: the positions that it returns in the buffer. -/
def find (list target : CString) : Except Fault (List ℕ) := do
  let next ← pre target
  let s ← list.val.foldlM (findStep target next) { i := 0, index := 0, pos := [] }
  return s.pos

example : find ⟨"ababa".toList, by decide⟩ ⟨"aba".toList, by decide⟩ = .ok [0, 2] := by decide

/-! ## The buffers -/

section Buffers
variable {α : Type} {size : ℕ} {buf : List α} {v : α} {i : ℕ}

theorem push_ok (h : buf.length < size) : push size buf v = .ok (buf ++ [v]) := if_pos h

theorem push_full (h : size ≤ buf.length) : push size buf v = .error .range := if_neg h.not_gt

theorem at?_ok (h : buf[i]? = some v) : at? buf i = .ok v := by rw [at?, h]

end Buffers

variable {target : CString} {next : List ℕ} {c : Char} {t : Text} {n index : ℕ}

theorem charAt_ok (h : target.val[index]? = some c) : charAt target index = .ok c := by
  obtain ⟨hlt, -⟩ := List.getElem?_eq_some_iff.mp h
  refine at?_ok ?_
  rw [List.getElem?_append_left hlt, h]

/-! ## The table of failures -/

theorem fallBack_spec (hnext : BorderTable target.val next) (hlen : index ≤ next.length)
    (hlt : index < target.val.length) (h : LongestWith target.val t c n index) (fuel : ℕ)
    (hfuel : index < fuel) : ∃ k, fallBack target next c fuel index = .ok k ∧ k ≤ index ∧
      LongestWith target.val t c n k ∧ (k = 0 ∨ target.val[k]? = some c) := by
  induction fuel generalizing index with
  | zero => exact absurd hfuel (Nat.not_lt_zero _)
  | succ fuel ih =>
    by_cases hzero : index = 0
    · exact ⟨index, if_pos hzero, le_rfl, h, .inl hzero⟩
    · have hch := List.getElem?_eq_getElem hlt
      rw [fallBack, if_neg hzero, charAt_ok hch, ok_bind]
      by_cases hc : c = target.val[index]
      · rw [if_pos hc]
        exact ⟨index, rfl, le_rfl, h, .inr (hc ▸ hch)⟩
      · obtain ⟨j, rfl⟩ := Nat.exists_eq_succ_of_ne_zero hzero
        have hj : next[j]? = some next[j] := List.getElem?_eq_getElem hlen
        have hback := hnext j _ hj
        have hne : target.val[j + 1]? ≠ some c := by
          rw [hch]
          exact fun heq => hc (Option.some.inj heq).symm
        rw [if_neg hc, back, at?_ok hj, ok_bind]
        -- the next shorter overlap is below the one that did not go on
        obtain ⟨k, hk, hle, hwith, hend⟩ := ih (hback.lt.le.trans hlen) (hback.lt.trans hlt)
          (h.back hne hback) (hback.lt.trans_le (Nat.le_of_lt_succ hfuel))
        exact ⟨k, hk, hle.trans hback.lt.le, hwith, hend⟩

/-- With the table, the longest overlap is kept. -/
theorem advance_spec (hnext : BorderTable target.val next) (hlen : index ≤ next.length)
    (hn : n ≤ target.val.length) (h : Longest target.val t n index) :
    ∃ k, advance target next c index = .ok k ∧ Longest target.val (t ++ [c]) (n + 1) k := by
  have hlt : index < target.val.length := h.lt.trans_le hn
  obtain ⟨k, hk, hle, hwith, hend⟩ := fallBack_spec hnext hlen hlt (h.with c) (index + 1)
    (Nat.lt_succ_self _)
  have hch := List.getElem?_eq_getElem (hle.trans_lt hlt)
  rw [advance, hk, ok_bind, charAt_ok hch, ok_bind]
  by_cases hc : target.val[k] = c
  · rw [if_pos hc]
    exact ⟨k + 1, rfl, hwith.grow (hc ▸ hch)⟩
  · have hne : target.val[k]? ≠ some c := by
      rw [hch]
      exact fun heq => hc (Option.some.inj heq)
    rw [if_neg hc]
    obtain rfl := hend.resolve_right hne
    exact ⟨0, rfl, hwith.stop hne⟩

/-- The table for the letters of the pattern that are read. -/
structure Filled (target : CString) (t : Text) (st : List ℕ × ℕ) : Prop where
  length : st.1.length = t.length
  table : BorderTable target.val st.1
  longest : Longest target.val t t.length st.2

theorem borderTable_concat {buf : List ℕ} {k : ℕ} (hbuf : BorderTable target.val buf)
    (hk : Longest target.val (target.val.take (buf.length + 1)) (buf.length + 1) k) :
    BorderTable target.val (buf ++ [k]) := by
  intro i j hj
  rcases Nat.lt_trichotomy i buf.length with hlt | rfl | hgt
  · rw [List.getElem?_append_left hlt] at hj
    exact hbuf i j hj
  · rw [List.getElem?_concat_length] at hj
    exact Option.some.inj hj ▸ hk
  · rw [List.getElem?_eq_none (by simp; omega)] at hj
    cases hj

/-- The first element of the table. -/
theorem filled_one {a : Char} : Filled target [a] ([0], 0) := by
  have hzero (u : Text) : Longest target.val u 1 0 :=
    ⟨Nat.one_pos, overlap_zero, fun m hm _ => Nat.le_of_lt_succ hm⟩
  refine ⟨rfl, @borderTable_concat target [] 0 (fun i j hj => ?_) (hzero _), hzero _⟩
  cases hj

theorem preStep_spec {st : List ℕ × ℕ} (h : Filled target t st) (hc : t ++ [c] <+: target.val) :
    if t.length < nextSize then ∃ st', preStep target st c = .ok st' ∧ Filled target (t ++ [c]) st'
    else preStep target st c = .error .range := by
  obtain ⟨hlen, htable, hlongest⟩ := h
  have hle : t.length + 1 ≤ target.val.length := by
    have hle := hc.length_le
    rwa [List.length_append, List.length_singleton] at hle
  obtain ⟨k, hk, hnew⟩ := advance_spec (c := c) htable (hlongest.lt.le.trans_eq hlen.symm)
    (Nat.le_of_succ_le hle) hlongest
  rw [preStep, hk, ok_bind]
  split_ifs with hsize
  · rw [push_ok (hlen.trans_lt hsize), ok_bind]
    refine ⟨_, rfl, ?_, borderTable_concat htable ?_, ?_⟩
    · rw [List.length_append, List.length_append, hlen, List.length_singleton, List.length_singleton]
    · have htake := List.prefix_iff_eq_take.mp hc
      rw [List.length_append, List.length_singleton] at htake
      rw [hlen, ← htake]
      exact hnew
    · rw [List.length_append, List.length_singleton]
      exact hnew
  · rw [push_full ((Nat.le_of_not_lt hsize).trans_eq hlen.symm), error_bind]

/-- The loop of `pre`, from any letter on. -/
theorem foldlM_preStep {st : List ℕ × ℕ} (r : Text) (h : Filled target t st)
    (ht : t.length ≤ nextSize) (hr : t ++ r = target.val) :
    if target.val.length ≤ nextSize then
      ∃ st', r.foldlM (preStep target) st = .ok st' ∧ Filled target target.val st'
    else r.foldlM (preStep target) st = .error .range := by
  induction r generalizing t st with
  | nil =>
    rw [List.append_nil] at hr
    subst hr
    rw [if_pos ht]
    exact ⟨st, rfl, h⟩
  | cons c r ih =>
    rw [List.append_cons] at hr
    have hstep := preStep_spec h (hr ▸ List.prefix_append (t ++ [c]) r)
    by_cases hsize : t.length < nextSize
    · rw [if_pos hsize] at hstep
      obtain ⟨st', hst', hfilled⟩ := hstep
      rw [List.foldlM_cons, hst', ok_bind]
      refine ih hfilled ?_ hr
      rwa [List.length_append, List.length_singleton]
    · rw [if_neg hsize] at hstep
      have hlong : ¬ target.val.length ≤ nextSize := by
        have hlen := congrArg List.length hr
        simp only [List.length_append, List.length_singleton] at hlen
        omega
      rw [if_neg hlong, List.foldlM_cons, hstep, error_bind]

/-- The table is right for every pattern that it has room for. -/
theorem pre_spec (h : target.val ≠ []) :
    if target.val.length ≤ nextSize then ∃ next, pre target = .ok next ∧
      next.length = target.val.length ∧ BorderTable target.val next
    else pre target = .error .range := by
  obtain ⟨a, r, hr⟩ := List.exists_cons_of_ne_nil h
  have hfirst : Filled target [a] ([0], 0) := filled_one
  have hrun := foldlM_preStep r hfirst (Nat.succ_le_of_lt (by decide)) hr.symm
  have hstart : push nextSize ([] : List ℕ) 0 = .ok [0] := push_ok (by decide)
  rw [pre, hstart, ok_bind, hr, List.tail_cons, ← hr]
  split_ifs at hrun ⊢ with hsize
  · obtain ⟨st, hst, hfilled⟩ := hrun
    exact ⟨st.1, by rw [hst]; rfl, hfilled.length, hfilled.table⟩
  · rw [hrun, error_bind]

/-! ## The search -/

/-- The part of the line that is read has been searched. -/
structure Scanned (target : CString) (t : Text) (s : Scan) : Prop where
  i : s.i = t.length
  longest : Longest target.val t target.val.length s.index
  pos : s.pos = occurrences target.val t

theorem findStep_spec {s : Scan} (hp : target.val ≠ []) (hnext : BorderTable target.val next)
    (hlen : next.length = target.val.length) (h : Scanned target t s)
    (hroom : (occurrences target.val t).length ≤ bufferSize) :
    if (occurrences target.val (t ++ [c])).length ≤ bufferSize then
      ∃ s', findStep target next s c = .ok s' ∧ Scanned target (t ++ [c]) s'
    else findStep target next s c = .error .range := by
  obtain ⟨hi, hlongest, hpos⟩ := h
  obtain ⟨k, hk, hnew⟩ := advance_spec (c := c) hnext (hlongest.lt.le.trans_eq hlen.symm) le_rfl
    hlongest
  have hcount : s.i + 1 = (t ++ [c]).length := by
    rw [hi, List.length_append, List.length_singleton]
  rw [findStep, hk, ok_bind, occurrences_concat hp]
  by_cases hwhole : k = target.val.length
  · subst hwhole
    have hsuffix := overlap_length.mp hnew.overlap
    rw [if_pos rfl, if_pos hsuffix, List.length_append, List.length_singleton]
    -- the search goes on with the longest overlap of the pattern with itself
    obtain ⟨m, hm⟩ := Nat.exists_eq_succ_of_ne_zero (mt List.length_eq_zero_iff.mp hp)
    have hlast : next[m]? = some next[m] := List.getElem?_eq_getElem (by omega)
    have hself := hnext m _ hlast
    rw [← Nat.succ_eq_add_one, ← hm, List.take_length] at hself
    have hback : back next target.val.length = .ok next[m] := by
      rw [hm, Nat.succ_eq_add_one, back, at?_ok hlast]
    rw [hback, ok_bind, hpos]
    split_ifs with hsize
    · rw [push_ok hsize, ok_bind]
      refine ⟨_, rfl, hcount, Longest.of_whole hsuffix hself, ?_⟩
      rw [occurrences_concat hp, if_pos hsuffix, hi]
    · rw [push_full (Nat.le_of_not_lt hsize), error_bind]
  · have hsuffix : ¬ target.val <:+ t ++ [c] := fun hsuffix => hwhole <|
      Nat.le_antisymm hnew.overlap.le (hnew.max _ (Nat.lt_succ_self _) (overlap_length.mpr hsuffix))
    rw [if_neg hwhole, if_neg hsuffix, List.append_nil, if_pos hroom]
    refine ⟨_, rfl, hcount, hnew.of_ne hwhole, ?_⟩
    rw [occurrences_concat hp, if_neg hsuffix, List.append_nil, hpos]

/-- The loop of `find`, from any letter on. -/
theorem foldlM_findStep {s : Scan} (hp : target.val ≠ []) (hnext : BorderTable target.val next)
    (hlen : next.length = target.val.length) (r : Text) (h : Scanned target t s)
    (hroom : (occurrences target.val t).length ≤ bufferSize) :
    if (occurrences target.val (t ++ r)).length ≤ bufferSize then
      ∃ s', r.foldlM (findStep target next) s = .ok s' ∧ Scanned target (t ++ r) s'
    else r.foldlM (findStep target next) s = .error .range := by
  induction r generalizing t s with
  | nil =>
    rw [List.append_nil, if_pos hroom]
    exact ⟨s, rfl, h⟩
  | cons c r ih =>
    have hstep := findStep_spec (c := c) hp hnext hlen h hroom
    rw [List.append_cons, List.foldlM_cons]
    by_cases hsize : (occurrences target.val (t ++ [c])).length ≤ bufferSize
    · rw [if_pos hsize] at hstep
      obtain ⟨s', hs', hscanned⟩ := hstep
      rw [hs', ok_bind]
      exact ih hscanned hsize
    · rw [if_neg hsize] at hstep
      have hmore := occurrences_le hp (t ++ [c]) r
      rw [if_neg fun hle => hsize (hmore.trans hle), hstep, error_bind]

theorem find_spec (list : CString) (hp : target.val ≠ []) :
    find list target =
      if target.val.length ≤ nextSize ∧ (occurrences target.val list.val).length ≤ bufferSize then
        .ok (occurrences target.val list.val)
      else .error .range := by
  have hpre := pre_spec hp
  by_cases hsize : target.val.length ≤ nextSize
  · rw [if_pos hsize] at hpre
    obtain ⟨next, hnext, hlen, htable⟩ := hpre
    have hstart : Scanned target [] { i := 0, index := 0, pos := [] } :=
      ⟨rfl, ⟨List.length_pos_of_ne_nil hp, overlap_zero, fun m _ hov => ?_⟩, rfl⟩
    · have hrun := foldlM_findStep hp htable hlen list.val hstart (Nat.zero_le _)
      rw [List.nil_append] at hrun
      rw [find, hnext, ok_bind]
      by_cases hroom : (occurrences target.val list.val).length ≤ bufferSize
      · rw [if_pos hroom] at hrun
        obtain ⟨s, hs, hscanned⟩ := hrun
        rw [hs, ok_bind, hscanned.pos, if_pos ⟨hsize, hroom⟩]
        rfl
      · rw [if_neg hroom] at hrun
        rw [hrun, error_bind, if_neg fun h => hroom h.2]
    · have hle := hov.suffix.length_le
      rwa [List.length_take_of_le hov.le] at hle
  · rw [if_neg hsize] at hpre
    rw [find, hpre, error_bind, if_neg fun h => hsize h.1]

/-- With the empty pattern, the first letter of the line is a match already. -/
theorem find_empty (list : CString) (hp : target.val = []) :
    find list target = if list.val = [] then .ok [] else .error .range := by
  have hpre : pre target = .ok [0] := by rw [pre, hp]; rfl
  rw [find, hpre, ok_bind]
  split_ifs with hnil
  · rw [hnil]
    rfl
  · obtain ⟨c, r, hc⟩ := List.exists_cons_of_ne_nil hnil
    have hne : pxEos ≠ c := fun heq => list.2 (heq ▸ hc ▸ List.mem_cons_self)
    have hadvance : advance target [0] c 0 = .ok 0 := by
      have hend : charAt target 0 = .ok pxEos := by rw [charAt, hp]; rfl
      rw [advance, fallBack, if_pos rfl, ok_bind, hend, ok_bind, if_neg hne]
      rfl
    have hstep : findStep target [0] { i := 0, index := 0, pos := [] } c = .error .range := by
      rw [findStep, hadvance, ok_bind, hp]
      rfl
    rw [hc, List.foldlM_cons, hstep]
    rfl

/-- The positions are those of all occurrences, from the first to the last. -/
theorem find_occurrences (list target : CString) (hp : target.val ≠ [])
    (hnext : target.val.length ≤ nextSize)
    (hpos : (occurrences target.val list.val).length ≤ bufferSize) :
    ∃ pos, find list target = .ok pos ∧ pos.Pairwise (· < ·) ∧
      ∀ s, s ∈ pos ↔ target.val <+: list.val.drop s := by
  refine ⟨occurrences target.val list.val, ?_, occurrences_pairwise, fun s => mem_occurrences hp⟩
  rw [find_spec list hp, if_pos ⟨hnext, hpos⟩]

theorem find_occurrences_aba :
    ∃ pos, find ⟨['a', 'b', 'a', 'b', 'a'], by decide⟩ ⟨['a', 'b', 'a'], by decide⟩ = .ok pos ∧
      pos.Pairwise (· < ·) ∧ ∀ s, s ∈ pos ↔ ['a', 'b', 'a'] <+: ['a', 'b', 'a', 'b', 'a'].drop s :=
  find_occurrences _ _ (by decide) (by decide) (by decide)

end SylixOS.Shell.Grep
