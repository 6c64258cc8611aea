import SylixOS.Shell.Cregex
import SylixOS.Shell.Grep

/-! # Looking for a pattern in the lines of a file

`grep` runs the pattern on the line, records every pair of slots that is set, and goes on where the last
pair ends. The pairs are those of the whole match and of its groups, and a group that has no part in the
match still has the slots of a match before.
-/

namespace SylixOS.Shell.Grep

open SylixOS.Lib SylixOS.Shell.Cregex

/-- `nmatches`: the last slot that is set. -/
def lastSlot (slots : Slots) : ℕ :=
  (List.range maxMatches).foldl (fun n i => if (slots i).isSome then i else n) 0

/-- The pairs of slots that are recorded. -/
def pairs (slots : Slots) : List (ℕ × ℕ) :=
  (List.range (lastSlot slots / 2 + 1)).filterMap fun j =>
    match slots (2 * j), slots (2 * j + 1) with
    | some a, some b => some (a, b)
    | _, _ => none

/-- `shift`, after the pairs are recorded. -/
def shiftAfter (shift : ℕ) (slots : Slots) : ℕ := ((pairs slots).getLast?.map Prod.snd).getD shift

/-- The loop of `getMatchesRegex`. The text is not read behind its end mark. -/
def regexLoop (program : List Instr) (target : CString) :
    ℕ → ℕ → Slots → List (ℕ × ℕ) → Except Fault (List (ℕ × ℕ))
  | 0, _, _, _ => .error .fuel
  | fuel + 1, shift, slots, buffer =>
    if target.val.length < shift then .error .range
    else
      match programRun program target shift slots with
      | some slots => do
        let buffer ← (pairs slots).foldlM (push bufferSize) buffer
        regexLoop program target fuel (shiftAfter shift slots) slots buffer
      | none => .ok buffer

/-- An element of `positionsBuffer` and of `lengthBuffer`. -/
def span (pair : ℕ × ℕ) : ℕ × ℤ := (pair.1, (pair.2 : ℤ) - pair.1)

/-- `getMatchesRegex`, for a pattern that is parsed. -/
def getMatchesRegex (fuel : ℕ) (target : CString) (pattern : Node) : Except Fault (List (ℕ × ℤ)) := do
  let found ← regexLoop (compileNode pattern) target fuel 0 (fun _ => none) []
  return found.map span

/-! ## Matches -/

/-- The pattern matches a part of the text. The search starts at `k`. -/
inductive Match (text : Text) (k : ℕ) : Node → ℕ → ℕ → Prop
  | epsilon {p : ℕ} : Match text k .epsilon p p
  | character {p : ℕ} {c : Char} (h : text[p]? = some c) : Match text k (.character c) p (p + 1)
  | anyCharacter {p : ℕ} {c : Char} (h : text[p]? = some c) : Match text k .anyCharacter p (p + 1)
  | characterClass {p : ℕ} {c : Char} {klass : List Char} (h : text[p]? = some c) (hc : c ∈ klass) :
      Match text k (.characterClass klass) p (p + 1)
  | characterClassNegated {p : ℕ} {c : Char} {klass : List Char} (h : text[p]? = some c)
      (hc : c ∉ klass) : Match text k (.characterClassNegated klass) p (p + 1)
  | concatenation {left right : Node} {p q r : ℕ} (hleft : Match text k left p q)
      (hright : Match text k right q r) : Match text k (.concatenation left right) p r
  | left {left right : Node} {p q : ℕ} (h : Match text k left p q) :
      Match text k (.alternation left right) p q
  | right {left right : Node} {p q : ℕ} (h : Match text k right p q) :
      Match text k (.alternation left right) p q
  | enough {nmax : Option ℕ} {greedy : Bool} {node : Node} {p : ℕ} :
      Match text k (.quantifier 0 nmax greedy node) p p
  | more {nmin : ℕ} {nmax : Option ℕ} {greedy : Bool} {node : Node} {p q r : ℕ} (hmax : nmax ≠ some 0)
      (hone : Match text k node p q)
      (hrest : Match text k (.quantifier (nmin - 1) (nmax.map (· - 1)) greedy node) q r) :
      Match text k (.quantifier nmin nmax greedy node) p r
  | anchorBegin : Match text k .anchorBegin k k
  | anchorEnd : Match text k .anchorEnd text.length text.length
  | capture {node : Node} {p q : ℕ} (h : Match text k node p q) : Match text k (.capture node) p q

variable {text : Text} {node : Node} {k p q : ℕ}

theorem Match.le (h : Match text k node p q) : p ≤ q := by
  induction h with
  | character | anyCharacter | characterClass | characterClassNegated => exact Nat.le_succ _
  | concatenation _ _ ihleft ihright => exact ihleft.trans ihright
  | left _ ih => exact ih
  | right _ ih => exact ih
  | more _ _ _ ihone ihrest => exact ihone.trans ihrest
  | capture _ ih => exact ih
  | _ => exact le_rfl

/-- What matches from a place on matches there too when the search starts at this place. -/
theorem Match.again (h : Match text k node p q) {j : ℕ} (hkj : k ≤ j) (hjp : j ≤ p) :
    Match text j node p q := by
  induction h with
  | epsilon => exact .epsilon
  | character h => exact .character h
  | anyCharacter h => exact .anyCharacter h
  | characterClass h hc => exact .characterClass h hc
  | characterClassNegated h hc => exact .characterClassNegated h hc
  | concatenation hleft _ ihleft ihright =>
    exact .concatenation (ihleft hjp) (ihright (hjp.trans hleft.le))
  | left _ ih => exact .left (ih hjp)
  | right _ ih => exact .right (ih hjp)
  | enough => exact .enough
  | more hmax hone _ ihone ihrest => exact .more hmax (ihone hjp) (ihrest (hjp.trans hone.le))
  | anchorBegin =>
    obtain rfl := Nat.le_antisymm hkj hjp
    exact .anchorBegin
  | anchorEnd => exact .anchorEnd
  | capture _ ih => exact .capture (ih hjp)

/-- From `k` on, this is where the first match is. -/
structure First (text : Text) (node : Node) (k p q : ℕ) : Prop where
  le : k ≤ p
  found : Match text k node p q
  first : ∀ p' q', k ≤ p' → p' < p → ¬ Match text k node p' q'

/-- The matches of the pattern, one behind the other. Behind an empty match the search goes on with the
next letter. -/
inductive Leftmost (text : Text) (node : Node) : ℕ → List (ℕ × ℕ) → Prop
  | done {k : ℕ} (h : ∀ p q, k ≤ p → p ≤ text.length → ¬ Match text k node p q) :
      Leftmost text node k []
  | next {k p q : ℕ} {ms : List (ℕ × ℕ)} (hp : p ≤ text.length) (h : First text node k p q)
      (hrest : Leftmost text node (if p < q then q else p + 1) ms) : Leftmost text node k ((p, q) :: ms)

/-- `cregex_program_run` finds the leftmost match of the text that it is given. -/
structure Finds (pattern : Node) (target : CString) : Prop where
  noMatch : ∀ k ≤ target.val.length, ∀ old,
    programRun (compileNode pattern) target k old = none →
      ∀ p q, k ≤ p → p ≤ target.val.length → ¬ Match target.val k pattern p q
  leftmost : ∀ k ≤ target.val.length, ∀ old s,
    programRun (compileNode pattern) target k old = some s →
      ∃ p q, s 0 = some p ∧ s 1 = some q ∧ First target.val pattern k p q

/-- Every match has a letter, no group has a part in it, and there is room for all of them. -/
inductive Plain (program : List Instr) (target : CString) : ℕ → ℕ → Slots → Prop
  | done {room k : ℕ} {old : Slots} (h : programRun program target k old = none) :
      Plain program target room k old
  | next {room k p q : ℕ} {old s : Slots} (h : programRun program target k old = some s)
      (hpairs : pairs s = [(p, q)]) (hpq : p < q) (hrest : Plain program target room q s) :
      Plain program target (room + 1) k old

/-! ## What is recorded -/

section Records
variable {program : List Instr} {target : CString} {s old : Slots} {b : ℕ} {buffer : List (ℕ × ℕ)}

/-- No slot is behind this place. -/
def Behind (s : Slots) (b : ℕ) : Prop := ∀ n, ∀ x ∈ s n, x ≤ b

theorem mem_pairs {pair : ℕ × ℕ} (h : pair ∈ pairs s) :
    ∃ j, s (2 * j) = some pair.1 ∧ s (2 * j + 1) = some pair.2 := by
  obtain ⟨j, -, hj⟩ := List.mem_filterMap.mp h
  cases ha : s (2 * j) with
  | none =>
    rw [ha] at hj
    cases hj
  | some a =>
    cases hb : s (2 * j + 1) with
    | none =>
      rw [ha, hb] at hj
      cases hj
    | some b =>
      rw [ha, hb] at hj
      obtain rfl := Option.some.inj hj
      exact ⟨j, ha, hb⟩

theorem Behind.pairs_le (h : Behind s b) {pair : ℕ × ℕ} (hpair : pair ∈ pairs s) :
    pair.1 ≤ b ∧ pair.2 ≤ b := by
  obtain ⟨j, ha, hb⟩ := mem_pairs hpair
  exact ⟨h _ _ ha, h _ _ hb⟩

/-- The first pair is that of the whole match. -/
theorem pairs_cons (hp : s 0 = some p) (hq : s 1 = some q) : ∃ extra, pairs s = (p, q) :: extra := by
  rw [pairs, List.range_succ_eq_map, List.filterMap_cons]
  simp only [Nat.mul_zero, Nat.zero_add, hp, hq]
  exact ⟨_, rfl⟩

theorem shiftAfter_single (h : pairs s = [(p, q)]) : shiftAfter k s = q := by rw [shiftAfter, h]; rfl

theorem Behind.shiftAfter_le (h : Behind s b) (hk : k ≤ b) : shiftAfter k s ≤ b := by
  rw [shiftAfter]
  cases hlast : (pairs s).getLast? with
  | none => exact hk
  | some pair => exact (h.pairs_le (List.mem_of_getLast? hlast)).2

/-- After a match, no slot is behind its end or behind what was there before. -/
theorem Behind.of_slots {c : ℕ} (hold : Behind old b) (hb : b ≤ c) (hpq : p ≤ q) (hq : q ≤ c)
    (hzero : s 0 = some p) (hone : s 1 = some q) (hslot : ∀ n, 2 ≤ n → SlotFrom old p q s n) :
    Behind s c := by
  intro n x hx
  rcases n with _ | _ | n
  · obtain rfl := Option.some.inj (hzero.symm.trans hx)
    exact hpq.trans hq
  · obtain rfl := Option.some.inj (hone.symm.trans hx)
    exact hq
  · rcases hslot _ (Nat.le_add_left 2 n) with hsame | ⟨y, hy, -, hle⟩
    · exact (hold _ x (hsame ▸ hx)).trans hb
    · obtain rfl := Option.some.inj (hy.symm.trans hx)
      exact hle.trans hq

theorem foldlM_push {size : ℕ} (l : List (ℕ × ℕ)) (hsize : buffer.length ≤ size) :
    l.foldlM (push size) buffer =
      if buffer.length + l.length ≤ size then .ok (buffer ++ l) else .error .range := by
  induction l generalizing buffer with
  | nil =>
    rw [List.append_nil, List.length_nil, Nat.add_zero, if_pos hsize]
    rfl
  | cons pair l ih =>
    rw [List.foldlM_cons, List.length_cons]
    rcases hsize.lt_or_eq with hlt | heq
    · have hlen : (buffer ++ [pair]).length = buffer.length + 1 := by
        rw [List.length_append, List.length_singleton]
      rw [push_ok hlt, ok_bind, ih (by omega), hlen, List.append_assoc, List.singleton_append,
        Nat.add_assoc, Nat.add_comm 1]
    · rw [push_full heq.ge, error_bind, if_neg (by omega)]

theorem regexLoop_none {fuel : ℕ} (hk : k ≤ target.val.length)
    (h : programRun program target k old = none) :
    regexLoop program target (fuel + 1) k old buffer = .ok buffer := by
  rw [regexLoop, if_neg hk.not_gt, h]

theorem regexLoop_some {fuel : ℕ} (hk : k ≤ target.val.length)
    (h : programRun program target k old = some s) (hbuffer : buffer.length ≤ bufferSize) :
    regexLoop program target (fuel + 1) k old buffer =
      if buffer.length + (pairs s).length ≤ bufferSize then
        regexLoop program target fuel (shiftAfter k s) s (buffer ++ pairs s)
      else .error .range := by
  rw [regexLoop, if_neg hk.not_gt, h]
  dsimp only
  rw [foldlM_push _ hbuffer]
  split_ifs
  · rfl
  · rfl

/-- What is in the buffers stays there. -/
theorem regexLoop_extends {fuel : ℕ} {found : List (ℕ × ℕ)} (hbuffer : buffer.length ≤ bufferSize)
    (h : regexLoop program target fuel k old buffer = .ok found) : buffer <+: found := by
  induction fuel generalizing k old buffer with
  | zero => cases h
  | succ fuel ih =>
    by_cases hk : k ≤ target.val.length
    · cases hrun : programRun program target k old with
      | none =>
        rw [regexLoop_none hk hrun] at h
        obtain rfl := Except.ok.inj h
        exact List.prefix_rfl
      | some s =>
        rw [regexLoop_some hk hrun hbuffer] at h
        split_ifs at h with hroom
        rw [← List.length_append] at hroom
        exact (List.prefix_append ..).trans (ih hroom h)
    · rw [regexLoop, if_pos (Nat.lt_of_not_le hk)] at h
      cases h

end Records

/-! ## The matches that are reported -/

section Report
variable {pattern : Node} {target : CString} {s old : Slots} {buffer : List (ℕ × ℕ)}

theorem Leftmost.cons_inv {pair : ℕ × ℕ} {ms : List (ℕ × ℕ)}
    (h : Leftmost text node k (pair :: ms)) : pair.1 ≤ text.length ∧ First text node k pair.1 pair.2 ∧
      Leftmost text node (if pair.1 < pair.2 then pair.2 else pair.1 + 1) ms := by
  cases h with
  | next hp hfirst hrest => exact ⟨hp, hfirst, hrest⟩

/-- Where the pattern matches at the beginning, the search goes no further. -/
theorem Finds.here (hfinds : Finds pattern target) (hk : k ≤ target.val.length)
    (hmatch : Match target.val k pattern k q) (old : Slots) :
    ∃ s q', programRun (compileNode pattern) target k old = some s ∧ s 0 = some k ∧ s 1 = some q' := by
  cases hrun : programRun (compileNode pattern) target k old with
  | none => exact absurd hmatch (hfinds.noMatch k hk old hrun k q le_rfl hk)
  | some s =>
    obtain ⟨p, q', hp, hq, hfirst⟩ := hfinds.leftmost k hk old s hrun
    rcases hfirst.le.eq_or_lt with rfl | hlt
    · exact ⟨s, q', rfl, hp, hq⟩
    · exact absurd hmatch (hfirst.first k q le_rfl hlt)

/-- Where the pattern matches again, the matches that are reported do not go on behind this place. -/
theorem regexLoop_stuck (hfinds : Finds pattern target) (hk : k ≤ target.val.length)
    (hmatch : Match target.val k pattern k q) {fuel : ℕ} {ms : List (ℕ × ℕ)}
    (hbuffer : buffer.length ≤ bufferSize)
    (h : regexLoop (compileNode pattern) target fuel k old buffer = .ok (buffer ++ ms)) :
    ¬ Leftmost target.val pattern (k + 1) ms := by
  intro hleft
  cases fuel with
  | zero => cases h
  | succ fuel =>
    obtain ⟨s, q', hrun, hp, hq⟩ := hfinds.here hk hmatch old
    obtain ⟨extra, hpairs⟩ := pairs_cons hp hq
    rw [regexLoop_some hk hrun hbuffer] at h
    split_ifs at h with hroom
    rw [← List.length_append] at hroom
    obtain ⟨rest, hrest⟩ := regexLoop_extends hroom h
    rw [hpairs, List.append_assoc] at hrest
    obtain rfl := List.append_cancel_left hrest
    exact absurd hleft.cons_inv.2.1.le (Nat.not_succ_le_self k)

/-- The pair of a group is not a match behind the whole one: it could only be an empty match at its end,
and then the search finds this match again. -/
theorem regexLoop_group (hfinds : Finds pattern target) (hq : q ≤ target.val.length) (hpq : p ≤ q)
    (hbehind : Behind s q) {pair : ℕ × ℕ} {extra ms : List (ℕ × ℕ)} {fuel : ℕ}
    (hpairs : pairs s = (p, q) :: pair :: extra) (hbuffer : buffer.length ≤ bufferSize)
    (h : regexLoop (compileNode pattern) target fuel (shiftAfter k s) s buffer = .ok (buffer ++ ms)) :
    ¬ Leftmost target.val pattern (if p < q then q else p + 1) (pair :: extra ++ ms) := by
  intro hleft
  have hle {r : ℕ × ℕ} (hr : r ∈ pair :: extra) : r.1 ≤ q ∧ r.2 ≤ q :=
    hbehind.pairs_le (hpairs ▸ List.mem_cons_of_mem _ hr)
  obtain ⟨ha, hb⟩ := hle List.mem_cons_self
  obtain ⟨-, hgroup, hleft'⟩ := hleft.cons_inv
  have hnext := hgroup.le
  have hab := hgroup.found.le
  split_ifs at hnext hgroup with hlt
  · have hone : pair.1 = q := Nat.le_antisymm ha hnext
    have htwo : pair.2 = q := Nat.le_antisymm hb (hone ▸ hab)
    rw [hone, htwo] at hgroup hleft'
    rw [if_neg (Nat.lt_irrefl _)] at hleft'
    rcases extra with _ | ⟨r, extra⟩
    · have hshift : shiftAfter k s = q := by
        rw [shiftAfter, hpairs]
        exact htwo
      rw [hshift] at h
      exact regexLoop_stuck hfinds hq hgroup.found hbuffer h hleft'
    · have hr := (hle (List.mem_cons_of_mem _ List.mem_cons_self)).1
      exact absurd (hleft'.cons_inv.2.1.le.trans hr) (Nat.not_succ_le_self _)
  · omega

/-- Plain matches are reported as they are. -/
theorem Plain.leftmost (hfinds : Finds pattern target) {room : ℕ} (buffer : List (ℕ × ℕ))
    (h : Plain (compileNode pattern) target room k old) (hk : k ≤ target.val.length)
    (hbuffer : buffer.length + room ≤ bufferSize) :
    ∃ fuel ms, regexLoop (compileNode pattern) target fuel k old buffer = .ok (buffer ++ ms) ∧
      Leftmost target.val pattern k ms := by
  induction h generalizing buffer with
  | done hrun =>
    refine ⟨1, [], ?_, .done (hfinds.noMatch _ hk _ hrun)⟩
    rw [regexLoop_none hk hrun, List.append_nil]
  | @next room k p q old s hrun hpairs hpq hrest ih =>
    obtain ⟨p', q', hkp, hpq', hq, hzero, hone, -⟩ := programRun_slots pattern hk hrun
    obtain ⟨p'', q'', hp'', hq'', hfirst⟩ := hfinds.leftmost _ hk _ _ hrun
    obtain ⟨extra, hcons⟩ := pairs_cons hp'' hq''
    rw [hpairs] at hcons
    injection hcons with hpair
    obtain ⟨rfl, rfl⟩ := Prod.mk.inj hpair
    obtain rfl := Option.some.inj (hq''.symm.trans hone)
    have hroom : (buffer ++ [(p, q)]).length + room ≤ bufferSize := by
      rw [List.length_append, List.length_singleton]
      omega
    obtain ⟨fuel, ms, hloop, hleft⟩ := ih _ hq hroom
    refine ⟨fuel + 1, (p, q) :: ms, ?_, .next (hpq.le.trans hq) hfirst ?_⟩
    · rw [regexLoop_some hk hrun (by omega), hpairs, if_pos (by rw [List.length_singleton]; omega),
        shiftAfter_single hpairs, hloop, List.append_assoc, List.singleton_append]
    · rwa [if_pos hpq]

theorem Plain.of_leftmost (hfinds : Finds pattern target) {fuel : ℕ} {ms : List (ℕ × ℕ)}
    (hk : k ≤ target.val.length) (hold : Behind old k) (hbuffer : buffer.length ≤ bufferSize)
    (h : regexLoop (compileNode pattern) target fuel k old buffer = .ok (buffer ++ ms))
    (hleft : Leftmost target.val pattern k ms) :
    Plain (compileNode pattern) target (bufferSize - buffer.length) k old := by
  induction fuel generalizing k old buffer ms with
  | zero => cases h
  | succ fuel ih =>
    cases hrun : programRun (compileNode pattern) target k old with
    | none => exact .done hrun
    | some s =>
      obtain ⟨p, q, hkp, hpq, hq, hzero, hone, hslot⟩ := programRun_slots pattern hk hrun
      have hbehind : Behind s q := hold.of_slots (hkp.trans hpq) hpq le_rfl hzero hone hslot
      obtain ⟨extra, hpairs⟩ := pairs_cons hzero hone
      rw [regexLoop_some hk hrun hbuffer] at h
      split_ifs at h with hroom
      rw [← List.length_append] at hroom
      obtain ⟨rest, hrest⟩ := regexLoop_extends hroom h
      rw [List.append_assoc] at hrest
      obtain rfl := List.append_cancel_left hrest
      rw [← List.append_assoc] at h
      have hwhole := hleft
      rw [hpairs, List.cons_append] at hwhole
      obtain ⟨-, hfirst, hbeyond⟩ := hwhole.cons_inv
      dsimp only at hfirst hbeyond
      rcases extra with _ | ⟨pair, extra⟩
      · rw [shiftAfter_single hpairs] at h
        rcases hpq.lt_or_eq with hlt | rfl
        · rw [if_pos hlt] at hbeyond
          have hplain := ih hq hbehind hroom h hbeyond
          rw [hpairs, List.length_append, List.length_singleton] at hplain hroom
          rw [show bufferSize - buffer.length = bufferSize - (buffer.length + 1) + 1 by omega]
          exact .next hrun hpairs hlt hplain
        · rw [if_neg (Nat.lt_irrefl _)] at hbeyond
          have hagain := hfirst.found.again hkp le_rfl
          exact absurd hbeyond (regexLoop_stuck hfinds hq hagain hroom h)
      · exact absurd hbeyond (regexLoop_group hfinds hq hpq hbehind hpairs hroom h)

theorem span_injective : Function.Injective span := by
  rintro ⟨p, q⟩ ⟨p', q'⟩ h
  obtain ⟨hp, hq⟩ := Prod.mk.inj h
  dsimp only at hp hq
  subst hp
  exact Prod.ext rfl (by omega)

theorem getMatchesRegex_ok {fuel : ℕ} {ms : List (ℕ × ℕ)} :
    getMatchesRegex fuel target pattern = .ok (ms.map span) ↔
      regexLoop (compileNode pattern) target fuel 0 (fun _ => none) [] = .ok ms := by
  rw [getMatchesRegex]
  cases regexLoop (compileNode pattern) target fuel 0 (fun _ => none) [] with
  | error fault => exact iff_of_false nofun nofun
  | ok found =>
    rw [ok_bind]
    constructor
    · intro h
      exact congrArg _ (List.map_injective_iff.mpr span_injective (Except.ok.inj h))
    · rintro h
      obtain rfl := Except.ok.inj h
      rfl

/-- The leftmost matches are reported, one behind the other, for plain matches and for no others. -/
theorem getMatchesRegex_leftmost_iff (pattern : Node) (target : CString)
    (hfinds : Finds pattern target) :
    (∃ fuel ms, getMatchesRegex fuel target pattern = .ok (ms.map span) ∧
      Leftmost target.val pattern 0 ms) ↔
      Plain (compileNode pattern) target bufferSize 0 (fun _ => none) := by
  have hstart : Behind (fun _ => none) 0 := fun n x hx => by cases hx
  constructor
  · rintro ⟨fuel, ms, hfound, hleft⟩
    exact Plain.of_leftmost hfinds (Nat.zero_le _) hstart (Nat.zero_le _)
      (getMatchesRegex_ok.mp hfound) hleft
  · intro hplain
    obtain ⟨fuel, ms, hloop, hleft⟩ := hplain.leftmost hfinds [] (Nat.zero_le _)
      (Nat.zero_add _).le
    exact ⟨fuel, ms, getMatchesRegex_ok.mpr hloop, hleft⟩

end Report

theorem Match.letter {c : Char} (h : Match text k (.character c) p q) : text[p]? = some c := by
  cases h with
  | character h => exact h

/-- One letter, on a line that begins with it. -/
theorem finds_letter : Finds (.character 'a') ⟨['a', 'b'], by decide⟩ where
  noMatch k hk old hrun p q hkp hp hmatch := by
    have hletter := hmatch.letter
    rcases p with _ | _ | p
    · obtain rfl := Nat.le_zero.mp hkp
      cases hrun
    · exact absurd hletter (by decide)
    · cases hletter
  leftmost k hk old s hrun := by
    rcases k with _ | _ | _ | k
    · obtain rfl := Option.some.inj hrun
      exact ⟨0, 1, rfl, rfl, le_rfl, .character rfl, fun _ _ _ h => absurd h (Nat.not_lt_zero _)⟩
    · cases hrun
    · cases hrun
    · exact absurd hk (by simp)

theorem getMatchesRegex_letter :
    (∃ fuel ms, getMatchesRegex fuel ⟨['a', 'b'], by decide⟩ (.character 'a') = .ok (ms.map span) ∧
      Leftmost ['a', 'b'] (.character 'a') 0 ms) ↔
      Plain (compileNode (.character 'a')) ⟨['a', 'b'], by decide⟩ bufferSize 0 (fun _ => none) :=
  getMatchesRegex_leftmost_iff _ _ finds_letter

theorem finds_group : Finds (.capture (.character 'a')) ⟨['a'], by decide⟩ where
  noMatch k hk old hrun p q hkp hp hmatch := by
    cases hmatch with
    | capture hmatch =>
      have hletter := hmatch.letter
      rcases p with _ | p
      · obtain rfl := Nat.le_zero.mp hkp
        cases hrun
      · cases hletter
  leftmost k hk old s hrun := by
    rcases k with _ | _ | k
    · obtain rfl := Option.some.inj hrun
      exact ⟨0, 1, rfl, rfl, le_rfl, .capture (.character rfl),
        fun _ _ _ h => absurd h (Nat.not_lt_zero _)⟩
    · cases hrun
    · exact absurd hk (by simp)

/-- The match of a group is reported as a match of its own. -/
theorem getMatchesRegex_group : Finds (.capture (.character 'a')) ⟨['a'], by decide⟩ ∧
    ¬ ∃ fuel ms, getMatchesRegex fuel ⟨['a'], by decide⟩ (.capture (.character 'a')) =
      .ok (ms.map span) ∧ Leftmost ['a'] (.capture (.character 'a')) 0 ms := by
  refine ⟨finds_group, ?_⟩
  rintro ⟨fuel, ms, hfound, hleft⟩
  have hloop := getMatchesRegex_ok.mp hfound
  rcases fuel with _ | _ | fuel
  · cases hloop
  · cases hloop
  · obtain rfl : [(0, 1), (0, 1)] = ms := Except.ok.inj hloop
    exact absurd hleft.cons_inv.2.2.cons_inv.2.1.le (by decide)

/-! ## The buffers -/

/-- The answers of the first searches on a line. Each search begins where the last pair of slots ends. -/
def answers (program : List Instr) (target : CString) : ℕ → ℕ → Slots → List Slots
  | 0, _, _ => []
  | n + 1, shift, old =>
    match programRun program target shift old with
    | some s => s :: answers program target n (shiftAfter shift s) s
    | none => []

section Range
variable {old : Slots} {buffer : List (ℕ × ℕ)}

/-- The buffers overflow with the pairs of the searches that are made, and nothing else is out of range. -/
theorem regexLoop_range_iff (pattern : Node) (target : CString) (fuel : ℕ) (hk : k ≤ target.val.length)
    (hold : Behind old target.val.length) (hbuffer : buffer.length ≤ bufferSize) :
    regexLoop (compileNode pattern) target fuel k old buffer = .error .range ↔ bufferSize <
      buffer.length + ((answers (compileNode pattern) target fuel k old).flatMap pairs).length := by
  induction fuel generalizing k old buffer with
  | zero => exact iff_of_false nofun hbuffer.not_gt
  | succ fuel ih =>
    cases hrun : programRun (compileNode pattern) target k old with
    | none =>
      rw [regexLoop_none hk hrun, answers, hrun]
      exact iff_of_false nofun hbuffer.not_gt
    | some s =>
      obtain ⟨p, q, -, hpq, hq, hzero, hone, hslot⟩ := programRun_slots pattern hk hrun
      have hbehind := hold.of_slots le_rfl hpq hq hzero hone hslot
      rw [regexLoop_some hk hrun hbuffer, answers, hrun]
      dsimp only
      rw [List.flatMap_cons, List.length_append, ← Nat.add_assoc]
      split_ifs with hroom
      · rw [← List.length_append] at hroom ⊢
        exact ih (hbehind.shiftAfter_le hk) hbehind hroom
      · exact iff_of_true rfl (by omega)

end Range

end SylixOS.Shell.Grep
