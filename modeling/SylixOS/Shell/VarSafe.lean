import SylixOS.Shell.TtinyVar

/-! # Threads that define variables

Any number of threads define, set and delete variables. Each step is one section under the lock, or the
call of a function. -/

namespace SylixOS.Shell
open Lib VarTable

/-- Where a thread is: before the section of `__tshellVarSet`, behind it with `ERROR_TSHELL_EVAR` and
before that of `__tshellVarAdd`, before that of `__tshellVarDeleteByName`, or back from its call. -/
inductive VarThread where
  | idle
  | setting (pcVarName pcVarValue : Text) (iIsOverwrite : Bool)
  | adding (pcVarName pcVarValue : Text)
  | deleting (pcVarName : Text)
  /-- A definition that has succeeded, with its node. -/
  | defined (pcVarName : Text) (node : ℕ)
  | failed (ulError : VarError)
  | deleted (ulError : VarError)

inductive VarStep where
  /-- `API_TShellVarSet`, or `__tshellVarDefine` with `iIsOverwrite = 1`. -/
  | define (pcVarName pcVarValue : Text) (iIsOverwrite : Bool)
  /-- `API_TShellVarDelete`. -/
  | delete (pcVarName : Text)
  /-- The section of the function, where an allocation succeeds or not. -/
  | section (alloc : Bool)

structure VarSystem where
  table : VarTable
  thread : ℕ → VarThread

namespace VarSystem

def start : VarSystem := ⟨.empty, fun _ => .idle⟩

/-- The table and the thread after its section. -/
def runSection (v : VarTable) (alloc : Bool) : VarThread → Option (VarTable × VarThread)
  | .setting pcVarName pcVarValue iIsOverwrite =>
    match v.varSet pcVarName pcVarValue iIsOverwrite alloc with
    | (.evar, _, v') => some (v', .adding pcVarName pcVarValue)
    | (_, some i, v') => some (v', .defined pcVarName i)
    | (ulError, none, v') => some (v', .failed ulError)
  | .adding pcVarName pcVarValue =>
    match v.varAdd pcVarName pcVarValue alloc with
    | (_, some i, v') => some (v', .defined pcVarName i)
    | (ulError, none, v') => some (v', .failed ulError)
  | .deleting pcVarName =>
    let (ulError, v') := v.varDeleteByName pcVarName
    some (v', .deleted ulError)
  | _ => none

/-- The thread is in no call. -/
def back : VarThread → Bool
  | .setting .. | .adding .. | .deleting _ => false
  | _ => true

def next (s : VarSystem) : ℕ × VarStep → Option VarSystem
  | (t, .define pcVarName pcVarValue iIsOverwrite) =>
    if back (s.thread t) then
      some { s with
        thread := Function.update s.thread t (.setting pcVarName pcVarValue iIsOverwrite) }
    else none
  | (t, .delete pcVarName) =>
    if back (s.thread t) then
      some { s with thread := Function.update s.thread t (.deleting pcVarName) }
    else none
  | (t, .section alloc) =>
    (runSection s.table alloc (s.thread t)).map fun (v', th) =>
      ⟨v', Function.update s.thread t th⟩

/-- No name has an older node that is found in place of the one that was defined. -/
def NotShadowed (s : VarSystem) : Prop :=
  ∀ t pcVarName i, s.thread t = .defined pcVarName i → i ∈ s.table.header →
    ∀ j, s.table.find pcVarName = some j → i ≤ j

/-- A name is inserted while the table has no node of it. -/
def InsertsFresh (s : VarSystem) : ℕ × VarStep → Prop
  | (t, .section true) =>
    ∀ pcVarName pcVarValue, s.thread t = .adding pcVarName pcVarValue → s.table.Fresh pcVarName
  | _ => True

/-! ## The sections of a thread -/

variable {s s' : VarSystem} {v v' : VarTable} {th th' : VarThread} {alloc : Bool} {t i : ℕ}
  {a : ℕ × VarStep}

/-- What the nodes of the definitions are. -/
def Wrote (v : VarTable) (th : VarThread) : Prop :=
  ∀ pcVarName i, th = .defined pcVarName i →
    i < v.inserted ∧ (i ∈ v.header → (v.node i).pcVarName = pcVarName)

/-- A section sets a value, inserts a node or deletes one, or does nothing. -/
theorem runSection_cases (h : runSection v alloc th = some (v', th')) :
    (∃ pcVarName pcVarValue overwrite e o, th = .setting pcVarName pcVarValue overwrite ∧
      v.varSet pcVarName pcVarValue overwrite alloc = (e, o, v') ∧
      ∀ name i, th' = .defined name i → name = pcVarName ∧ o = some i) ∨
    (∃ pcVarName pcVarValue, th = .adding pcVarName pcVarValue ∧ alloc = true ∧
      v' = v.insert pcVarName pcVarValue ∧ th' = .defined pcVarName v.inserted) ∨
    (∃ pcVarName pcVarValue, th = .adding pcVarName pcVarValue ∧ alloc = false ∧ v' = v ∧
      th' = .failed .lowMemory) ∨
    ∃ pcVarName e, th = .deleting pcVarName ∧ v.varDeleteByName pcVarName = (e, v') ∧
      th' = .deleted e := by
  cases th with
  | setting pcVarName pcVarValue overwrite =>
    refine .inl ⟨pcVarName, pcVarValue, overwrite, ?_⟩
    simp only [runSection] at h
    split at h
    · rename_i hs
      simp only [Option.some.injEq, Prod.mk.injEq] at h
      obtain ⟨rfl, rfl⟩ := h
      exact ⟨_, _, rfl, hs, by simp⟩
    · rename_i hs
      simp only [Option.some.injEq, Prod.mk.injEq] at h
      obtain ⟨rfl, rfl⟩ := h
      refine ⟨_, _, rfl, hs, fun name i hd => ?_⟩
      simp only [VarThread.defined.injEq] at hd
      exact ⟨hd.1.symm, by rw [hd.2]⟩
    · rename_i hs
      simp only [Option.some.injEq, Prod.mk.injEq] at h
      obtain ⟨rfl, rfl⟩ := h
      exact ⟨_, _, rfl, hs, by simp⟩
  | adding pcVarName pcVarValue =>
    cases alloc with
    | true =>
      simp only [runSection, varAdd, Bool.true_eq_false, if_false, Option.some.injEq,
        Prod.mk.injEq] at h
      exact .inr (.inl ⟨_, _, rfl, rfl, h.1.symm, h.2.symm⟩)
    | false =>
      simp only [runSection, varAdd, if_true, Option.some.injEq, Prod.mk.injEq] at h
      exact .inr (.inr (.inl ⟨_, _, rfl, rfl, h.1.symm, h.2.symm⟩))
  | deleting pcVarName =>
    simp only [runSection, Option.some.injEq, Prod.mk.injEq] at h
    exact .inr (.inr (.inr ⟨_, _, rfl, Prod.ext rfl h.1, h.2.symm⟩))
  | idle => cases h
  | defined => cases h
  | failed => cases h
  | deleted => cases h

theorem runSection_ok (hv : v.Ok) (h : runSection v alloc th = some (v', th')) : v'.Ok := by
  rcases runSection_cases h with ⟨_, _, _, _, _, -, hs, -⟩ | ⟨_, _, -, -, rfl, -⟩ |
    ⟨_, _, -, -, rfl, -⟩ | ⟨_, _, -, hd, -⟩
  · exact hv.varSet hs
  · exact hv.insert
  · exact hv
  · exact hv.varDelete hd

/-- A node stays what it is, and a new one is no older one. -/
theorem runSection_node (hv : v.Ok) (h : runSection v alloc th = some (v', th')) :
    v.inserted ≤ v'.inserted ∧ ∀ k < v.inserted, k ∈ v'.header →
      k ∈ v.header ∧ (v'.node k).pcVarName = (v.node k).pcVarName := by
  rcases runSection_cases h with ⟨_, _, _, _, _, -, hs, -⟩ | ⟨_, _, -, -, rfl, -⟩ |
    ⟨_, _, -, -, rfl, -⟩ | ⟨_, _, -, hd, -⟩
  · obtain ⟨hhead, -, hins, hname⟩ := varSet_same hs
    exact ⟨hins.ge, fun k _ hk => ⟨hhead ▸ hk, hname k⟩⟩
  · refine ⟨Nat.le_succ _, fun k hlt hk => ?_⟩
    rcases List.mem_cons.mp hk with rfl | hk
    · exact absurd hlt (lt_irrefl _)
    · exact ⟨hk, insert_name hv hk⟩
  · exact ⟨le_rfl, fun k _ hk => ⟨hk, rfl⟩⟩
  · rcases varDelete_cases hd with rfl | ⟨i, -, rfl⟩
    · exact ⟨le_rfl, fun k _ hk => ⟨hk, rfl⟩⟩
    · exact ⟨le_rfl, fun k _ hk => ⟨List.mem_of_mem_erase hk, rfl⟩⟩

theorem Wrote.runSection {th₁ : VarThread} (hw : Wrote v th₁) (hv : v.Ok)
    (h : VarSystem.runSection v alloc th = some (v', th')) : Wrote v' th₁ := by
  intro pcVarName i hi
  obtain ⟨hlt, hname⟩ := hw pcVarName i hi
  obtain ⟨hle, hnode⟩ := runSection_node hv h
  refine ⟨hlt.trans_le hle, fun hk => ?_⟩
  obtain ⟨hk, heq⟩ := hnode i hlt hk
  exact heq.trans (hname hk)

/-- The thread's own node has the name that it has defined. -/
theorem runSection_wrote (hv : v.Ok) (h : runSection v alloc th = some (v', th')) : Wrote v' th' := by
  intro name i hi
  rcases runSection_cases h with ⟨n, _, _, e, o, -, hs, hdef⟩ | ⟨_, _, -, -, rfl, rfl⟩ |
    ⟨_, _, -, -, -, rfl⟩ | ⟨_, _, -, -, rfl⟩
  · obtain ⟨rfl, rfl⟩ := hdef name i hi
    obtain ⟨-, -, hins, hname⟩ := varSet_same hs
    rcases varSet_cases hs with ⟨-, ho, -⟩ | ⟨-, -, ho, -⟩ | ⟨j, -, ho, hf, -⟩
    · cases ho
    · cases ho
    · cases ho
      obtain ⟨hj, hn⟩ := hv.find_some hf
      exact ⟨hins ▸ hv.bound i hj, fun _ => (hname i).trans hn⟩
  · simp only [VarThread.defined.injEq] at hi
    obtain ⟨rfl, rfl⟩ := hi
    exact ⟨Nat.lt_succ_self _, fun _ => by simp [VarTable.insert]⟩
  · cases hi
  · cases hi

/-! ## Every run -/

/-- What every run keeps. -/
structure Ok (s : VarSystem) : Prop where
  table : s.table.Ok
  wrote : ∀ t, Wrote s.table (s.thread t)

theorem start_ok : start.Ok := ⟨empty_ok, fun _ _ _ h => by cases h⟩

/-- A call leaves the table, and any other step is a section of the thread. -/
theorem next_cases {step : VarStep} (h : next s (t, step) = some s') :
    (∃ th, (∀ n i, th ≠ .defined n i) ∧ s' = ⟨s.table, Function.update s.thread t th⟩ ∧
      ∀ alloc, step ≠ .section alloc) ∨
    ∃ alloc th, step = .section alloc ∧ runSection s.table alloc (s.thread t) = some (s'.table, th) ∧
      s'.thread = Function.update s.thread t th := by
  cases step with
  | define pcVarName pcVarValue overwrite =>
    simp only [next, Option.ite_none_right_eq_some, Option.some.injEq] at h
    exact .inl ⟨_, by simp, h.2.symm, by simp⟩
  | delete pcVarName =>
    simp only [next, Option.ite_none_right_eq_some, Option.some.injEq] at h
    exact .inl ⟨_, by simp, h.2.symm, by simp⟩
  | «section» alloc =>
    simp only [next, Option.map_eq_some_iff] at h
    obtain ⟨⟨v', th⟩, hr, rfl⟩ := h
    exact .inr ⟨alloc, th, rfl, hr, rfl⟩

theorem Ok.next (h : s.Ok) (hs : s.next a = some s') : s'.Ok := by
  obtain ⟨t, step⟩ := a
  rcases next_cases hs with ⟨th, hth, rfl, -⟩ | ⟨alloc, th, -, hr, hthread⟩
  · refine ⟨h.table, fun u => ?_⟩
    by_cases hu : u = t
    · subst hu
      exact fun n i hd => absurd (by simpa using hd) (hth n i)
    · simpa [hu] using h.wrote u
  · refine ⟨runSection_ok h.table hr, fun u => ?_⟩
    rw [hthread]
    by_cases hu : u = t
    · subst hu
      simpa using runSection_wrote h.table hr
    · simpa [hu] using (h.wrote u).runSection h.table hr

/-- The newest node of a name is found first. -/
theorem Ok.notShadowed (h : s.Ok) : s.NotShadowed :=
  fun t pcVarName i hi hmem _ hj => h.table.find_newest hj hmem ((h.wrote t pcVarName i hi).2 hmem)

/-- A step keeps the names unique just when it inserts no second node of a name. -/
theorem Ok.unique_iff (h : s.Ok) (hu : s.table.Unique) (hs : s.next a = some s') :
    s'.table.Unique ↔ s.InsertsFresh a := by
  obtain ⟨t, step⟩ := a
  rcases next_cases hs with ⟨th, -, rfl, hstep⟩ | ⟨alloc, th, rfl, hr, -⟩
  · refine iff_of_true hu ?_
    cases step with
    | define => trivial
    | delete => trivial
    | «section» alloc => exact absurd rfl (hstep alloc)
  · rcases runSection_cases hr with ⟨_, _, _, _, _, ht, hset, -⟩ | ⟨n, val, ht, rfl, heq, -⟩ |
      ⟨_, _, -, rfl, heq, -⟩ | ⟨_, _, ht, hd, -⟩
    · refine iff_of_true (hu.varSet hset) ?_
      cases alloc with
      | false => trivial
      | true => simp [InsertsFresh, ht]
    · rw [heq, Unique.insert_iff h.table hu]
      simp [InsertsFresh, ht]
    · exact iff_of_true (heq ▸ hu) trivial
    · refine iff_of_true (hu.varDelete hd) ?_
      cases alloc with
      | false => trivial
      | true => simp [InsertsFresh, ht]

theorem reach_ok {ok : VarSystem → ℕ × VarStep → Prop} (h : Reach next ok (· = start) s) : s.Ok := by
  refine h.invariant ?_ fun s a s' hI _ hs => hI.next hs
  rintro _ rfl
  exact start_ok

/-- No definition is shadowed in any run, with or without a second node of its name. -/
theorem reach_notShadowed {ok : VarSystem → ℕ × VarStep → Prop}
    (h : Reach next ok (· = start) s) : s.NotShadowed := (reach_ok h).notShadowed

/-- What a run keeps that inserts no second node of a name. -/
structure Sound (s : VarSystem) : Prop where
  ok : s.Ok
  unique : s.table.Unique

theorem start_sound : start.Sound := ⟨start_ok, fun _ => Nat.zero_le 1⟩

/-- In a run that inserts a name only while there is no node of it, every name has at most one node,
and no definition is shadowed. The first step that inserts a name again leaves two nodes of it. -/
theorem unique_of_insertsFresh (h : Reach next InsertsFresh (· = start) s) :
    s.table.Unique ∧ s.NotShadowed ∧
      ∀ a s', next s a = some s' → (s'.table.Unique ↔ s.InsertsFresh a) := by
  have hsound : s.Sound := by
    refine h.invariant ?_ fun s a s' hI hok hs => ?_
    · rintro _ rfl
      exact start_sound
    · exact ⟨hI.ok.next hs, (hI.ok.unique_iff hI.unique hs).mpr hok⟩
  exact ⟨hsound.unique, hsound.ok.notShadowed, fun a s' hs => hsound.ok.unique_iff hsound.unique hs⟩

/-- `A=1`. -/
def oneDefined : List (ℕ × VarStep) :=
  [(0, .define ['A'] ['1'] true), (0, .section true), (0, .section true)]

/-- A thread that has defined a variable, and another that is about to. -/
theorem unique_of_insertsFresh_one :
    ∃ s, runs next start oneDefined = some s ∧ s.table.Unique ∧ s.NotShadowed ∧
      ∀ a s', next s a = some s' → (s'.table.Unique ↔ s.InsertsFresh a) := by
  refine ⟨_, rfl, unique_of_insertsFresh ?_⟩
  refine Reach.extend (Reach.extend (Reach.extend (.start rfl) (0, .define ['A'] ['1'] true) ?_ rfl)
    (0, .section true) ?_ rfl) (0, .section true) ?_ rfl
  · trivial
  · intro pcVarName pcVarValue h
    cases h
  · intro pcVarName pcVarValue h i hi
    cases hi

/-- Two threads that both find no variable, and then both insert it. -/
def bothDefined : List (ℕ × VarStep) :=
  [(0, .define ['A'] ['1'] true), (1, .define ['A'] ['2'] true), (0, .section true),
    (1, .section true), (0, .section true), (1, .section true)]

theorem two_nodes : ∃ s, Reach next (fun _ _ => True) (· = start) s ∧ ¬ s.table.Unique := by
  have hruns : runs next start bothDefined = some
      ((runs next start bothDefined).getD start) := rfl
  refine ⟨_, Reach.of_runs (.start rfl) hruns, fun h => ?_⟩
  exact absurd (h ['A']) (by decide)

theorem reach_notShadowed_two : ∃ s, runs next start bothDefined = some s ∧ s.NotShadowed := by
  have hruns : runs next start bothDefined = some
      ((runs next start bothDefined).getD start) := rfl
  exact ⟨_, hruns, reach_notShadowed (Reach.of_runs (.start rfl) hruns)⟩

end VarSystem
end SylixOS.Shell
