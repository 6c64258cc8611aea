import SylixOS.Shell.Completion
import Mathlib.Data.Finset.Card
import Mathlib.Data.Finset.Range
import Mathlib.Logic.Function.Basic

/-! # The machine that runs a pattern

A pattern is compiled to instructions, and the machine runs threads over them, letter by letter. A thread
has slots for the ends of the match and of the groups. It starts with the slots of its caller: a group
that has no part in a match keeps what was there before.
-/

namespace SylixOS.Shell.Cregex
open Function

/-- `cregex_node_t`. A class is the set of its letters; `nmax` is `-1` if there is no bound. -/
inductive Node
  | epsilon
  | character (ch : Char)
  | anyCharacter
  | characterClass (klass : List Char)
  | characterClassNegated (klass : List Char)
  | concatenation (left right : Node)
  | alternation (left right : Node)
  | quantifier (nmin : ℕ) (nmax : Option ℕ) (greedy : Bool) (quantified : Node)
  | anchorBegin
  | anchorEnd
  | capture (captured : Node)
  deriving DecidableEq, Repr

/-- `cregex_program_instr_t`. An instruction is pointed to by its place in the program. -/
inductive Instr
  | match_
  | character (ch : Char)
  | anyCharacter
  | characterClass (klass : List Char)
  | characterClassNegated (klass : List Char)
  | split (first second : ℕ)
  | jump (target : ℕ)
  | assertBegin
  | assertEnd
  | save (n : ℕ)
  deriving DecidableEq, Repr

/-- `node_is_anchored`. -/
def Node.isAnchored : Node → Bool
  | .concatenation left _ => left.isAnchored
  | .alternation left right => left.isAnchored && right.isAnchored
  | .quantifier _ _ _ quantified => quantified.isAnchored
  | .anchorBegin => true
  | .capture captured => captured.isAnchored
  | _ => false

/-- The branch that is tried first comes first. -/
def splitTo (greedy : Bool) (body after : ℕ) : Instr :=
  if greedy then .split body after else .split after body

/-- The copies of a quantified node that must match. -/
def copies (compile : ℕ → List Instr) : ℕ → ℕ → List Instr
  | 0, _ => []
  | n + 1, pc => compile pc ++ copies compile n (pc + (compile pc).length)

/-- The copies of a quantified node that may match. -/
def options (greedy : Bool) (compile : ℕ → List Instr) : ℕ → ℕ → List Instr
  | 0, _ => []
  | n + 1, pc =>
    let body := compile (pc + 1)
    splitTo greedy (pc + 1) (pc + 1 + body.length) :: body ++
      options greedy compile n (pc + 1 + body.length)

/-- `compile_context`: the instructions of a node from a place on, and the number of captures so far. -/
def compileContext (pc ncaptures : ℕ) : Node → List Instr × ℕ
  | .epsilon => ([], ncaptures)
  | .character ch => ([.character ch], ncaptures)
  | .anyCharacter => ([.anyCharacter], ncaptures)
  | .characterClass klass => ([.characterClass klass], ncaptures)
  | .characterClassNegated klass => ([.characterClassNegated klass], ncaptures)
  | .concatenation left right =>
    let a := compileContext pc ncaptures left
    let b := compileContext (pc + a.1.length) a.2 right
    (a.1 ++ b.1, b.2)
  | .alternation left right =>
    let a := compileContext (pc + 1) ncaptures left
    let pc' := pc + 1 + a.1.length + 1
    let b := compileContext pc' a.2 right
    (.split (pc + 1) pc' :: a.1 ++ .jump (pc' + b.1.length) :: b.1, b.2)
  | .quantifier nmin nmax greedy quantified =>
    let compile := fun pc => (compileContext pc ncaptures quantified).1
    let counted := (compileContext pc ncaptures quantified).2
    let required := copies compile nmin pc
    let pc' := pc + required.length
    match nmax with
    | some nmax =>
      (required ++ options greedy compile (nmax - nmin) pc',
        if nmin = 0 ∧ nmax - nmin = 0 then ncaptures else counted)
    | none =>
      if nmin = 0 then
        let body := compile (pc' + 1)
        let after := pc' + 1 + body.length + 1
        (required ++ splitTo greedy (pc' + 1) after :: body ++ [.jump pc'], counted)
      else
        let last := pc + (copies compile (nmin - 1) pc).length
        (required ++ [splitTo greedy last (pc' + 1)], counted)
  | .anchorBegin => ([.assertBegin], ncaptures)
  | .anchorEnd => ([.assertEnd], ncaptures)
  | .capture captured =>
    let body := compileContext (pc + 1) (ncaptures + 1) captured
    (.save (ncaptures * 2) :: body.1 ++ [.save (ncaptures * 2 + 1)], body.2)

/-- `cregex_compile_node`: the whole pattern is a group, which may begin anywhere. -/
def compileNode (root : Node) : List Instr :=
  let root := .capture root
  let root := if root.isAnchored then root
    else .concatenation (.quantifier 0 none false .anyCharacter) root
  (compileContext 0 0 root).1 ++ [.match_]

/-! ## The machine -/

/-- `matches[20]`: places in the text of the line. -/
abbrev Slots := ℕ → Option ℕ

/-- `REGEX_VM_MAX_MATCHES`, and the number that is asked for. -/
def maxMatches : ℕ := 20

/-- `vm_thread_list`: for each instruction where it was last added, and the threads in their order. -/
structure ThreadList where
  visited : ℕ → ℕ
  threads : List (ℕ × Slots)

/-- `*sp`. What is behind the end mark decides nothing: no thread is run there. -/
def charAt (text : CString) (sp : ℕ) : Char := text.val.getD sp pxEos

section Run
variable (program : List Instr) (text : CString) (string : ℕ)

/-- `vm_add_thread`. -/
def addThread : ℕ → ThreadList → ℕ → ℕ → Slots → ThreadList
  | 0, list, _, _, _ => list
  | fuel + 1, list, pc, sp, slots =>
    let mark := sp - string + 1
    if list.visited pc = mark then list
    else
      let list := { list with visited := update list.visited pc mark }
      match program[pc]? with
      | some (.split first second) =>
        addThread fuel (addThread fuel list first sp slots) second sp slots
      | some (.jump target) => addThread fuel list target sp slots
      | some .assertBegin => if sp = string then addThread fuel list (pc + 1) sp slots else list
      | some .assertEnd =>
        if charAt text sp = pxEos then addThread fuel list (pc + 1) sp slots else list
      | some (.save n) =>
        if n < maxMatches then addThread fuel list (pc + 1) sp (update slots n (some sp))
        else addThread fuel list (pc + 1) sp slots
      | some _ => { list with threads := list.threads ++ [(pc, slots)] }
      | none => list

/-- A thread goes on behind the instruction if the letter is the right one. -/
def Instr.accepts (c : Char) : Instr → Bool
  | .character ch => c = ch
  | .anyCharacter => c ≠ pxEos
  | .characterClass klass => c ∈ klass
  | .characterClassNegated klass => c ∉ klass
  | _ => false

/-- The threads at a letter, from the first to the one that matches: those behind it are cut off. -/
def runThreads (sp : ℕ) : List (ℕ × Slots) → ThreadList → Option Slots → ThreadList × Option Slots
  | [], next, matched => (next, matched)
  | (pc, slots) :: threads, next, matched =>
    match program[pc]? with
    | some .match_ => (next, some slots)
    | some instr =>
      if instr.accepts (charAt text sp) then
        let next := addThread program text string (program.length + 1) next (pc + 1) (sp + 1) slots
        runThreads sp threads next matched
      else runThreads sp threads next matched
    | none => runThreads sp threads next matched

/-- The loop of `vm_run_with_threads`, with the letters that are left. -/
def runLetters : ℕ → ℕ → ThreadList → ThreadList → Option Slots → Option Slots
  | 0, _, _, _, matched => matched
  | rest + 1, sp, current, next, matched =>
    let (next, matched) := runThreads program text string sp current.threads next matched
    if next.threads = [] ∨ charAt text sp = pxEos then matched
    else runLetters rest (sp + 1) next { current with threads := [] } matched

/-- `cregex_program_run` from a place in the text: the slots afterwards if there is a match. -/
def programRun (slots : Slots) : Option Slots :=
  let empty : ThreadList := { visited := fun _ => 0, threads := [] }
  let current := addThread program text string (program.length + 1) empty 0 string slots
  runLetters program text string (text.val.length - string + 1) string current empty none

end Run

/-! ## The depth of the recursion -/

section Depth
variable {program : List Instr} {text : CString} {string sp : ℕ}

/-- The instructions where no thread was added at this letter. -/
def unvisited (program : List Instr) (mark : ℕ) (visited : ℕ → ℕ) : Finset ℕ :=
  (Finset.range program.length).filter fun pc => visited pc ≠ mark

theorem unvisited_update_subset (mark : ℕ) (visited : ℕ → ℕ) (pc : ℕ) :
    unvisited program mark (update visited pc mark) ⊆ unvisited program mark visited := by
  intro i hi
  obtain ⟨hlt, hnew⟩ := Finset.mem_filter.mp hi
  refine Finset.mem_filter.mpr ⟨hlt, ?_⟩
  by_cases heq : i = pc
  · exact absurd (heq ▸ update_self ..) hnew
  · rwa [update_of_ne heq] at hnew

theorem unvisited_update_lt {mark : ℕ} {visited : ℕ → ℕ} {pc : ℕ} (hpc : pc < program.length)
    (hnew : visited pc ≠ mark) : (unvisited program mark (update visited pc mark)).card <
      (unvisited program mark visited).card := by
  refine Finset.card_lt_card ((Finset.ssubset_iff_of_subset (unvisited_update_subset ..)).mpr ?_)
  refine ⟨pc, Finset.mem_filter.mpr ⟨Finset.mem_range.mpr hpc, hnew⟩, fun hmem => ?_⟩
  exact (Finset.mem_filter.mp hmem).2 (update_self ..)

theorem addThread_unvisited (fuel : ℕ) (list : ThreadList) (pc : ℕ) (slots : Slots) :
    unvisited program (sp - string + 1) (addThread program text string fuel list pc sp slots).visited ⊆
      unvisited program (sp - string + 1) list.visited := by
  induction fuel generalizing list pc slots with
  | zero => exact subset_rfl
  | succ fuel ih =>
    rw [addThread]
    by_cases hvisited : list.visited pc = sp - string + 1
    · rw [if_pos hvisited]
    · rw [if_neg hvisited]
      have hmark := @unvisited_update_subset program (sp - string + 1) list.visited pc
      cases hpc : program[pc]? with
      | none => exact hmark
      | some instr =>
        cases instr with
        | split first second => exact ((ih _ second slots).trans (ih _ first slots)).trans hmark
        | jump target => exact (ih _ target slots).trans hmark
        | assertBegin =>
          dsimp only
          split_ifs
          · exact (ih _ _ slots).trans hmark
          · exact hmark
        | assertEnd =>
          dsimp only
          split_ifs
          · exact (ih _ _ slots).trans hmark
          · exact hmark
        | save n =>
          dsimp only
          split_ifs
          · exact (ih _ _ _).trans hmark
          · exact (ih _ _ _).trans hmark
        | _ => exact hmark

/-- An instruction is gone into once for a letter, so that more fuel changes nothing. -/
theorem addThread_fuel (fuel : ℕ) (list : ThreadList) (pc : ℕ) (slots : Slots)
    (hfuel : (unvisited program (sp - string + 1) list.visited).card < fuel) :
    addThread program text string (fuel + 1) list pc sp slots =
      addThread program text string fuel list pc sp slots := by
  induction fuel generalizing list pc slots with
  | zero => exact absurd hfuel (Nat.not_lt_zero _)
  | succ fuel ih =>
    rw [addThread, addThread]
    by_cases hvisited : list.visited pc = sp - string + 1
    · rw [if_pos hvisited, if_pos hvisited]
    · rw [if_neg hvisited, if_neg hvisited]
      cases hpc : program[pc]? with
      | none => rfl
      | some instr =>
        obtain ⟨hlt, -⟩ := List.getElem?_eq_some_iff.mp hpc
        have hless := unvisited_update_lt hlt hvisited
        let marked : ThreadList :=
          { list with visited := update list.visited pc (sp - string + 1) }
        have hroom : (unvisited program (sp - string + 1) marked.visited).card < fuel :=
          hless.trans_le (Nat.le_of_lt_succ hfuel)
        cases instr with
        | split first second =>
          dsimp only
          rw [ih marked first slots hroom, ih _ second slots]
          exact (Finset.card_le_card (addThread_unvisited fuel _ first slots)).trans_lt hroom
        | jump target => exact ih marked target slots hroom
        | assertBegin =>
          dsimp only
          rw [ih marked _ slots hroom]
        | assertEnd =>
          dsimp only
          rw [ih marked _ slots hroom]
        | save n =>
          dsimp only
          rw [ih marked _ _ hroom, ih marked _ _ hroom]
        | _ => rfl

/-- The recursion is never deeper than the program is long. -/
theorem addThread_enough (extra : ℕ) (list : ThreadList) (pc : ℕ) (slots : Slots) :
    addThread program text string (program.length + 1 + extra) list pc sp slots =
      addThread program text string (program.length + 1) list pc sp slots := by
  have hle : (unvisited program (sp - string + 1) list.visited).card ≤ program.length :=
    (Finset.card_filter_le ..).trans_eq (Finset.card_range _)
  induction extra with
  | zero => rfl
  | succ extra ih => rw [← Nat.add_assoc, addThread_fuel _ _ _ _ (by omega), ih]

end Depth

/-! ## What holds of every thread -/

section Threads
variable {program : List Instr} {text : CString} {string : ℕ} {I : ℕ → ℕ → Slots → Prop}

/-- A property of threads that every instruction keeps. -/
structure Kept (program : List Instr) (I : ℕ → ℕ → Slots → Prop) : Prop where
  split : ∀ {pc sp s a b}, program[pc]? = some (.split a b) → I pc sp s → I a sp s ∧ I b sp s
  jump : ∀ {pc sp s a}, program[pc]? = some (.jump a) → I pc sp s → I a sp s
  assertBegin : ∀ {pc sp s}, program[pc]? = some .assertBegin → I pc sp s → I (pc + 1) sp s
  assertEnd : ∀ {pc sp s}, program[pc]? = some .assertEnd → I pc sp s → I (pc + 1) sp s
  save : ∀ {pc sp s n}, program[pc]? = some (.save n) → I pc sp s →
    I (pc + 1) sp (if n < maxMatches then update s n (some sp) else s)
  letter : ∀ {pc sp s instr c}, program[pc]? = some instr → instr.accepts c = true → I pc sp s →
    I (pc + 1) (sp + 1) s

/-- All threads of the list are at this letter. -/
def AllAt (I : ℕ → ℕ → Slots → Prop) (sp : ℕ) (threads : List (ℕ × Slots)) : Prop :=
  ∀ t ∈ threads, I t.1 sp t.2

theorem addThread_all (hkept : Kept program I) {sp : ℕ} (fuel : ℕ) (list : ThreadList) (pc : ℕ)
    (slots : Slots) (hlist : AllAt I sp list.threads) (h : I pc sp slots) :
    AllAt I sp (addThread program text string fuel list pc sp slots).threads := by
  induction fuel generalizing list pc slots with
  | zero => exact hlist
  | succ fuel ih =>
    rw [addThread]
    by_cases hvisited : list.visited pc = sp - string + 1
    · rwa [if_pos hvisited]
    · rw [if_neg hvisited]
      cases hpc : program[pc]? with
      | none => exact hlist
      | some instr =>
        cases instr with
        | split first second =>
          obtain ⟨hfirst, hsecond⟩ := hkept.split hpc h
          exact ih _ second slots (ih _ first slots hlist hfirst) hsecond
        | jump target => exact ih _ target slots hlist (hkept.jump hpc h)
        | assertBegin =>
          dsimp only
          split_ifs
          · exact ih _ _ slots hlist (hkept.assertBegin hpc h)
          · exact hlist
        | assertEnd =>
          dsimp only
          split_ifs
          · exact ih _ _ slots hlist (hkept.assertEnd hpc h)
          · exact hlist
        | save n =>
          have hsaved := hkept.save hpc h
          dsimp only
          split_ifs at hsaved ⊢
          · exact ih _ _ _ hlist hsaved
          · exact ih _ _ _ hlist hsaved
        | _ =>
          refine List.forall_mem_append.mpr ⟨hlist, List.forall_mem_singleton.mpr h⟩

/-- What the slots of a match come from. -/
def FromMatch (program : List Instr) (I : ℕ → ℕ → Slots → Prop) (text : CString) (s : Slots) : Prop :=
  ∃ pc sp, program[pc]? = some .match_ ∧ sp ≤ text.val.length ∧ I pc sp s

theorem runThreads_all (hkept : Kept program I) {sp : ℕ} (hsp : sp ≤ text.val.length)
    (threads : List (ℕ × Slots)) (next : ThreadList) (matched : Option Slots)
    (hthreads : AllAt I sp threads) (hnext : AllAt I (sp + 1) next.threads)
    (hmatched : ∀ s ∈ matched, FromMatch program I text s) :
    AllAt I (sp + 1) (runThreads program text string sp threads next matched).1.threads ∧
      ∀ s ∈ (runThreads program text string sp threads next matched).2,
        FromMatch program I text s := by
  induction threads generalizing next with
  | nil => exact ⟨hnext, hmatched⟩
  | cons t threads ih =>
    obtain ⟨hfirst, hrest⟩ := List.forall_mem_cons.mp hthreads
    have hpass {instr : Instr} (hpc : program[t.1]? = some instr)
        (haccepts : instr.accepts (charAt text sp) = true) := ih
      (addThread program text string (program.length + 1) next (t.1 + 1) (sp + 1) t.2) hrest
      (addThread_all hkept _ _ _ _ hnext (hkept.letter hpc haccepts hfirst))
    rw [runThreads]
    cases hpc : program[t.1]? with
    | none => exact ih next hrest hnext
    | some instr =>
      cases instr with
      | match_ =>
        refine ⟨hnext, fun s hs => ?_⟩
        obtain rfl := Option.some.inj hs
        exact ⟨t.1, sp, hpc, hsp, hfirst⟩
      | _ =>
        dsimp only
        split_ifs with haccepts
        · exact hpass hpc haccepts
        · exact ih next hrest hnext

theorem runLetters_all (hkept : Kept program I) (rest : ℕ) {sp : ℕ} {current next : ThreadList}
    {matched : Option Slots} (hsp : sp + rest ≤ text.val.length + 1)
    (hcurrent : AllAt I sp current.threads) (hnext : next.threads = [])
    (hmatched : ∀ s ∈ matched, FromMatch program I text s) :
    ∀ s ∈ runLetters program text string rest sp current next matched,
      FromMatch program I text s := by
  induction rest generalizing sp current next matched with
  | zero => exact hmatched
  | succ rest ih =>
    have hstep := @runThreads_all program text string I hkept sp (by omega) current.threads next
      matched hcurrent (fun t ht => absurd (hnext ▸ ht) List.not_mem_nil) hmatched
    rw [runLetters]
    dsimp only
    split_ifs
    · exact hstep.2
    · exact ih (by omega) hstep.1 rfl hstep.2

theorem programRun_all (hkept : Kept program I) (hstring : string ≤ text.val.length) {slots : Slots}
    (h : I 0 string slots) :
    ∀ s ∈ programRun program text string slots, FromMatch program I text s := by
  refine runLetters_all hkept _ (by omega) ?_ rfl fun s hs => by cases hs
  exact addThread_all hkept _ _ _ _ (fun t ht => absurd ht List.not_mem_nil) h

end Threads

/-! ## The slots of a match -/

/-- What the instruction leads to is between two places, and it saves no end of the whole match. -/
def Instr.Within (lo hi : ℕ) : Instr → Prop
  | .match_ => False
  | .split first second => (lo ≤ first ∧ first ≤ hi) ∧ lo ≤ second ∧ second ≤ hi
  | .jump target => lo ≤ target ∧ target ≤ hi
  | .save n => 2 ≤ n
  | _ => True

theorem Instr.Within.mono {lo hi lo' hi' : ℕ} (hlo : lo' ≤ lo) (hhi : hi ≤ hi') {instr : Instr}
    (h : instr.Within lo hi) : instr.Within lo' hi' := by
  cases instr with
  | split first second =>
    exact ⟨⟨hlo.trans h.1.1, h.1.2.trans hhi⟩, hlo.trans h.2.1, h.2.2.trans hhi⟩
  | jump target => exact ⟨hlo.trans h.1, h.2.trans hhi⟩
  | _ => exact h

/-- The instructions of a part that is laid out from a place on. -/
def Closed (pc : ℕ) (code : List Instr) : Prop := ∀ instr ∈ code, instr.Within pc (pc + code.length)

theorem splitTo_within {lo hi body after : ℕ} (greedy : Bool) (hbody : lo ≤ body ∧ body ≤ hi)
    (hafter : lo ≤ after ∧ after ≤ hi) : (splitTo greedy body after).Within lo hi := by
  cases greedy
  · exact ⟨hafter, hbody⟩
  · exact ⟨hbody, hafter⟩

theorem Closed.append {pc : ℕ} {a b : List Instr} (ha : Closed pc a) (hb : Closed (pc + a.length) b) :
    Closed pc (a ++ b) := by
  have hlen : pc + a.length + b.length = pc + (a ++ b).length := by
    rw [List.length_append, Nat.add_assoc]
  refine List.forall_mem_append.mpr ⟨fun instr hmem => ?_, fun instr hmem => ?_⟩
  · exact (ha instr hmem).mono le_rfl (by omega)
  · exact (hb instr hmem).mono (by omega) hlen.le

theorem copies_closed {compile : ℕ → List Instr} (h : ∀ pc, Closed pc (compile pc)) (n pc : ℕ) :
    Closed pc (copies compile n pc) := by
  induction n generalizing pc with
  | zero => exact fun instr hmem => absurd hmem List.not_mem_nil
  | succ n ih => exact (h pc).append (ih _)

theorem copies_length_le (compile : ℕ → List Instr) (n pc : ℕ) :
    (copies compile n pc).length ≤ (copies compile (n + 1) pc).length := by
  induction n generalizing pc with
  | zero => exact Nat.zero_le _
  | succ n ih =>
    rw [copies, copies, List.length_append, List.length_append]
    exact Nat.add_le_add_left (ih _) _

theorem options_closed {compile : ℕ → List Instr} (h : ∀ pc, Closed pc (compile pc)) (greedy : Bool)
    (n pc : ℕ) : Closed pc (options greedy compile n pc) := by
  induction n generalizing pc with
  | zero => exact fun instr hmem => absurd hmem List.not_mem_nil
  | succ n ih =>
    have hone : Closed pc (splitTo greedy (pc + 1) (pc + 1 + (compile (pc + 1)).length) ::
        compile (pc + 1)) := by
      refine List.forall_mem_cons.mpr ⟨splitTo_within greedy (by simp) (by simp; omega), ?_⟩
      exact fun instr hmem => (h (pc + 1) instr hmem).mono (by omega) (by simp; omega)
    have hrest := ih (pc + 1 + (compile (pc + 1)).length)
    refine hone.append ?_
    rw [List.length_cons]
    rwa [show pc + ((compile (pc + 1)).length + 1) = pc + 1 + (compile (pc + 1)).length by omega]

theorem closed_one {pc : ℕ} {instr : Instr} (h : instr.Within pc (pc + 1)) : Closed pc [instr] :=
  List.forall_mem_singleton.mpr h

/-- A part keeps within a part that it is in. -/
theorem Closed.within {pc lo hi : ℕ} {code : List Instr} (h : Closed pc code) (hlo : lo ≤ pc)
    (hhi : pc + code.length ≤ hi) : ∀ instr ∈ code, instr.Within lo hi :=
  fun instr hmem => (h instr hmem).mono hlo hhi

theorem compileContext_closed (node : Node) (pc ncaptures : ℕ) (hcaptures : 1 ≤ ncaptures) :
    1 ≤ (compileContext pc ncaptures node).2 ∧ Closed pc (compileContext pc ncaptures node).1 := by
  induction node generalizing pc ncaptures with
  | epsilon => exact ⟨hcaptures, fun instr hmem => absurd hmem List.not_mem_nil⟩
  | concatenation left right ihleft ihright =>
    obtain ⟨hleft, hcleft⟩ := ihleft pc ncaptures hcaptures
    obtain ⟨hright, hcright⟩ := ihright (pc + (compileContext pc ncaptures left).1.length) _ hleft
    exact ⟨hright, hcleft.append hcright⟩
  | alternation left right ihleft ihright =>
    obtain ⟨hleft, hcleft⟩ := ihleft (pc + 1) ncaptures hcaptures
    obtain ⟨hright, hcright⟩ :=
      ihright (pc + 1 + (compileContext (pc + 1) ncaptures left).1.length + 1) _ hleft
    refine ⟨hright, ?_⟩
    rw [compileContext]
    dsimp only
    generalize (compileContext (pc + 1) ncaptures left).1 = a at hcleft hcright ⊢
    generalize (compileContext (pc + 1 + a.length + 1) _ right).1 = b at hcright ⊢
    have hlen : (Instr.split (pc + 1) (pc + 1 + a.length + 1) :: a ++
        .jump (pc + 1 + a.length + 1 + b.length) :: b).length = a.length + b.length + 2 := by
      simp only [List.cons_append, List.length_cons, List.length_append]
      omega
    rw [Closed, hlen]
    refine List.forall_mem_append.mpr ⟨List.forall_mem_cons.mpr ⟨?_, ?_⟩, ?_⟩
    · exact ⟨⟨by omega, by omega⟩, by omega, by omega⟩
    · exact hcleft.within (by omega) (by omega)
    · refine List.forall_mem_cons.mpr ⟨⟨by omega, by omega⟩, ?_⟩
      exact hcright.within (by omega) (by omega)
  | quantifier nmin nmax greedy quantified ih =>
    have hclosed (pc : ℕ) := (ih pc ncaptures hcaptures).2
    have hcount := (ih pc ncaptures hcaptures).1
    have hrequired := copies_closed hclosed nmin pc
    cases nmax with
    | some nmax =>
      rw [compileContext]
      refine ⟨?_, hrequired.append (options_closed hclosed greedy _ _)⟩
      dsimp only
      split_ifs
      · exact hcaptures
      · exact hcount
    | none =>
      rw [compileContext]
      dsimp only
      by_cases hnmin : nmin = 0
      · rw [if_pos hnmin]
        subst hnmin
        refine ⟨hcount, ?_⟩
        have hbody := hclosed (pc + 1)
        simp only [copies, List.length_nil, Nat.add_zero, List.nil_append]
        generalize (compileContext (pc + 1) ncaptures quantified).1 = body at hbody ⊢
        rw [Closed, List.length_append, List.length_cons, List.length_singleton]
        refine List.forall_mem_append.mpr ⟨List.forall_mem_cons.mpr ⟨?_, ?_⟩, ?_⟩
        · exact splitTo_within greedy ⟨by omega, by omega⟩ ⟨by omega, by omega⟩
        · exact hbody.within (by omega) (by omega)
        · exact List.forall_mem_singleton.mpr ⟨by omega, by omega⟩
      · rw [if_neg hnmin]
        obtain ⟨n, rfl⟩ := Nat.exists_eq_add_one_of_ne_zero hnmin
        refine ⟨hcount, ?_⟩
        -- behind the last copy the machine may go back to its beginning
        have hle := copies_length_le (fun pc => (compileContext pc ncaptures quantified).1) n pc
        rw [Nat.add_sub_cancel, Closed, List.length_append, List.length_singleton]
        refine List.forall_mem_append.mpr ⟨hrequired.within le_rfl (by omega), ?_⟩
        refine List.forall_mem_singleton.mpr (splitTo_within greedy ?_ ?_)
        · exact ⟨by omega, by omega⟩
        · exact ⟨by omega, by omega⟩
  | capture captured ih =>
    obtain ⟨hcount, hbody⟩ := ih (pc + 1) (ncaptures + 1) (Nat.le_add_left ..)
    refine ⟨hcount, ?_⟩
    rw [compileContext, Closed, List.length_append, List.length_cons, List.length_singleton]
    refine List.forall_mem_append.mpr ⟨List.forall_mem_cons.mpr ⟨?_, ?_⟩, ?_⟩
    · exact Nat.le_mul_of_pos_left 2 hcaptures
    · exact hbody.within (by omega) (by omega)
    · exact List.forall_mem_singleton.mpr (by simp only [Instr.Within]; omega)
  | _ => exact ⟨hcaptures, closed_one trivial⟩

/-- A compiled pattern: something in front, the pattern between its saves, and the match. -/
structure Layout (program : List Instr) (start stop : ℕ) : Prop where
  lt : start < stop
  front : ∀ pc < start, ∀ instr ∈ program[pc]?, instr.Within 0 start ∧ ∀ n, instr ≠ .save n
  save : program[start]? = some (.save 0)
  body : ∀ pc, start < pc → pc < stop → ∀ instr ∈ program[pc]?, instr.Within (start + 1) stop
  saved : program[stop]? = some (.save 1)
  match_ : program[stop + 1]? = some .match_

theorem layout_of (front body : List Instr) (hfront : ∀ instr ∈ front,
    instr.Within 0 front.length ∧ ∀ n, instr ≠ .save n) (hbody : Closed (front.length + 1) body) :
    Layout (front ++ .save 0 :: (body ++ [.save 1, .match_])) front.length
      (front.length + 1 + body.length) := by
  have hright (i : ℕ) : (front ++ .save 0 :: (body ++ [.save 1, .match_]))[front.length + i]? =
      (.save 0 :: (body ++ [.save 1, .match_]))[i]? := by
    rw [List.getElem?_append_right (Nat.le_add_right ..), Nat.add_sub_cancel_left]
  refine ⟨by omega, fun pc hpc instr hinstr => ?_, hright 0, fun pc hlo hhi instr hinstr => ?_, ?_, ?_⟩
  · rw [List.getElem?_append_left hpc] at hinstr
    exact hfront instr (List.mem_of_getElem? hinstr)
  · obtain ⟨i, rfl⟩ := Nat.exists_eq_add_of_lt hlo
    rw [Nat.add_assoc, hright, List.getElem?_cons_succ,
      List.getElem?_append_left (by omega)] at hinstr
    exact hbody instr (List.mem_of_getElem? hinstr)
  · rw [Nat.add_assoc, hright, Nat.add_comm 1, List.getElem?_cons_succ,
      List.getElem?_append_right le_rfl, Nat.sub_self]
    rfl
  · rw [Nat.add_assoc, Nat.add_assoc, hright, Nat.add_comm 1, List.getElem?_cons_succ,
      List.getElem?_append_right (Nat.le_succ _), Nat.succ_sub le_rfl, Nat.sub_self]
    rfl

theorem compileNode_layout (root : Node) : ∃ start stop, Layout (compileNode root) start stop := by
  have hbody (pc : ℕ) := (compileContext_closed root pc 1 le_rfl).2
  by_cases hanchored : (Node.capture root).isAnchored
  · have hcode : compileNode root =
        [] ++ .save 0 :: ((compileContext 1 1 root).1 ++ [.save 1, .match_]) := by
      rw [compileNode, if_pos hanchored, compileContext]
      simp
    rw [hcode]
    exact ⟨_, _, layout_of [] _ (fun instr hmem => absurd hmem List.not_mem_nil) (hbody 1)⟩
  · have hcode : compileNode root = [.split 3 1, .anyCharacter, .jump 0] ++
        .save 0 :: ((compileContext 4 1 root).1 ++ [.save 1, .match_]) := by
      rw [compileNode, if_neg hanchored, compileContext, compileContext, compileContext]
      simp [compileContext, copies, splitTo]
    rw [hcode]
    refine ⟨_, _, layout_of [.split 3 1, .anyCharacter, .jump 0] _ ?_ (hbody 4)⟩
    refine List.forall_mem_cons.mpr ⟨⟨⟨⟨by omega, le_rfl⟩, by omega, by decide⟩, nofun⟩, ?_⟩
    refine List.forall_mem_cons.mpr ⟨⟨trivial, nofun⟩, ?_⟩
    exact List.forall_mem_singleton.mpr ⟨⟨le_rfl, Nat.zero_le _⟩, nofun⟩

/-- Where a slot of a thread comes from: from the caller, or from a place behind the beginning. -/
def SlotFrom (old : Slots) (p sp : ℕ) (s : Slots) (n : ℕ) : Prop :=
  s n = old n ∨ ∃ x, s n = some x ∧ p ≤ x ∧ x ≤ sp

/-- The slots of a thread, by the part of the pattern that it is in. -/
inductive SlotsAt (string start stop : ℕ) (old : Slots) : ℕ → ℕ → Slots → Prop
  | front {pc sp : ℕ} (hpc : pc ≤ start) (hsp : string ≤ sp) : SlotsAt string start stop old pc sp old
  | body {pc sp p : ℕ} {s : Slots} (hlo : start < pc) (hhi : pc ≤ stop) (hp : string ≤ p) (hsp : p ≤ sp)
      (hzero : s 0 = some p) (hslot : ∀ n, 2 ≤ n → SlotFrom old p sp s n) :
      SlotsAt string start stop old pc sp s
  | stop {pc sp p : ℕ} {s : Slots} (hpc : pc = stop + 1) (hp : string ≤ p) (hsp : p ≤ sp)
      (hzero : s 0 = some p) (hone : s 1 = some sp) (hslot : ∀ n, 2 ≤ n → SlotFrom old p sp s n) :
      SlotsAt string start stop old pc sp s

section Slots
variable {program : List Instr} {string start stop pc pc' sp sp' : ℕ} {old s : Slots}

/-- An instruction that saves nothing keeps the thread within its part of the pattern. -/
theorem SlotsAt.move (hlayout : Layout program start stop) {instr : Instr}
    (hinstr : program[pc]? = some instr) (hsave : ∀ n, instr ≠ .save n) (hmatch : instr ≠ .match_)
    (hfront : instr.Within 0 start → pc < start → pc' ≤ start)
    (hbody : instr.Within (start + 1) stop → start < pc → pc < stop → start < pc' ∧ pc' ≤ stop)
    (hsp : sp ≤ sp') (h : SlotsAt string start stop old pc sp s) :
    SlotsAt string start stop old pc' sp' s := by
  have hne {place : ℕ} {n : ℕ} (hplace : program[place]? = some (.save n)) : pc ≠ place :=
    fun heq => hsave n (Option.some.inj (hinstr.symm.trans (heq ▸ hplace)))
  cases h with
  | front hpc hstring =>
    have hlt := Nat.lt_of_le_of_ne hpc (hne hlayout.save)
    exact .front (hfront (hlayout.front pc hlt instr hinstr).1 hlt) (hstring.trans hsp)
  | body hlo hhi hp hle hzero hslot =>
    have hlt := Nat.lt_of_le_of_ne hhi (hne hlayout.saved)
    obtain ⟨hlo', hhi'⟩ := hbody (hlayout.body pc hlo hlt instr hinstr) hlo hlt
    refine .body hlo' hhi' hp (hle.trans hsp) hzero fun n hn => ?_
    exact (hslot n hn).imp_right fun ⟨x, hx, hpx, hxsp⟩ => ⟨x, hx, hpx, hxsp.trans hsp⟩
  | stop hpc _ _ _ _ _ =>
    exact absurd (Option.some.inj (hinstr.symm.trans (hpc ▸ hlayout.match_))) hmatch

theorem SlotFrom.update {p : ℕ} {n m : ℕ} (hp : p ≤ sp) (h : SlotFrom old p sp s n) :
    SlotFrom old p sp (update s m (some sp)) n := by
  by_cases hnm : n = m
  · subst hnm
    exact .inr ⟨sp, update_self .., hp, le_rfl⟩
  · rwa [SlotFrom, update_of_ne hnm]

theorem SlotsAt.saved (hlayout : Layout program start stop) {n : ℕ}
    (hinstr : program[pc]? = some (.save n)) (h : SlotsAt string start stop old pc sp s) :
    SlotsAt string start stop old (pc + 1) sp
      (if n < maxMatches then update s n (some sp) else s) := by
  cases h with
  | front hpc hstring =>
    rcases hpc.lt_or_eq with hlt | rfl
    · exact absurd rfl ((hlayout.front pc hlt _ hinstr).2 n)
    · obtain rfl : n = 0 := by
        have heq := hinstr.symm.trans hlayout.save
        injection heq with heq
        injection heq
      rw [if_pos (by decide)]
      refine .body (Nat.lt_succ_self _) hlayout.lt hstring le_rfl (update_self ..) fun n hn => ?_
      exact .inl (update_of_ne (by omega) ..)
  | body hlo hhi hp hle hzero hslot =>
    rcases hhi.lt_or_eq with hlt | rfl
    · have hn : 2 ≤ n := hlayout.body pc hlo hlt _ hinstr
      split_ifs
      · refine .body (hlo.trans (Nat.lt_succ_self _)) hlt hp hle ?_ fun m hm => (hslot m hm).update hle
        rwa [update_of_ne (by omega)]
      · exact .body (hlo.trans (Nat.lt_succ_self _)) hlt hp hle hzero hslot
    · obtain rfl : n = 1 := by
        have heq := hinstr.symm.trans hlayout.saved
        injection heq with heq
        injection heq
      rw [if_pos (by decide)]
      refine .stop rfl hp hle ?_ (update_self ..) fun m hm => (hslot m hm).update hle
      rwa [update_of_ne (by decide)]
  | stop hpc _ _ _ _ _ =>
    rw [hpc, hlayout.match_] at hinstr
    cases hinstr

theorem slotsAt_kept (hlayout : Layout program start stop) :
    Kept program (SlotsAt string start stop old) where
  split hinstr h := by
    constructor
    · exact h.move hlayout hinstr nofun nofun (fun hw _ => hw.1.2) (fun hw _ _ => hw.1) le_rfl
    · exact h.move hlayout hinstr nofun nofun (fun hw _ => hw.2.2) (fun hw _ _ => hw.2) le_rfl
  jump hinstr h := h.move hlayout hinstr nofun nofun (fun hw _ => hw.2) (fun hw _ _ => hw) le_rfl
  assertBegin hinstr h :=
    h.move hlayout hinstr nofun nofun (fun _ hlt => hlt) (fun _ hlo hhi => ⟨Nat.lt_succ_of_lt hlo, hhi⟩) le_rfl
  assertEnd hinstr h :=
    h.move hlayout hinstr nofun nofun (fun _ hlt => hlt) (fun _ hlo hhi => ⟨Nat.lt_succ_of_lt hlo, hhi⟩) le_rfl
  save hinstr h := h.saved hlayout hinstr
  letter {pc sp s instr c} hinstr haccepts h := by
    refine h.move hlayout hinstr (fun n heq => ?_) (fun heq => ?_) (fun _ hlt => hlt)
      (fun _ hlo hhi => ⟨Nat.lt_succ_of_lt hlo, hhi⟩) (Nat.le_succ _)
    · rw [heq] at haccepts
      cases haccepts
    · rw [heq] at haccepts
      cases haccepts

end Slots

/-- The slots of a match: the first two are its ends, and every other one is between them or from the
caller. -/
theorem programRun_slots (root : Node) {text : CString} {string : ℕ} {old s : Slots}
    (hstring : string ≤ text.val.length) (h : programRun (compileNode root) text string old = some s) :
    ∃ p q, string ≤ p ∧ p ≤ q ∧ q ≤ text.val.length ∧ s 0 = some p ∧ s 1 = some q ∧
      ∀ n, 2 ≤ n → SlotFrom old p q s n := by
  obtain ⟨start, stop, hlayout⟩ := compileNode_layout root
  have hstart : SlotsAt string start stop old 0 string old := .front (Nat.zero_le _) le_rfl
  obtain ⟨pc, sp, hmatch, hsp, hslots⟩ := programRun_all (slotsAt_kept hlayout) hstring hstart s h
  cases hslots with
  | front hpc _ =>
    rcases hpc.lt_or_eq with hlt | rfl
    · exact absurd (hlayout.front pc hlt _ hmatch).1 id
    · cases hmatch.symm.trans hlayout.save
  | body hlo hhi _ _ _ _ =>
    rcases hhi.lt_or_eq with hlt | rfl
    · exact absurd (hlayout.body pc hlo hlt _ hmatch) id
    · cases hmatch.symm.trans hlayout.saved
  | stop _ hp hle hzero hone hslot => exact ⟨_, sp, hp, hle, hsp, hzero, hone, hslot⟩

end SylixOS.Shell.Cregex
