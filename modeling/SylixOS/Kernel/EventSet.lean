import Mathlib.Data.List.Perm.Basic
import Mathlib.Data.Nat.Bitwise
import SylixOS.Lib.Reach

/-! # Event sets

A thread waits until bits of a set are set, or until they are clear, all of them or any of them. A get
that finds them so resets the set at once. A thread that has waited is let go by the set that makes its
bits so, with the bits that were so then, and resets the set only when it runs again. A reset by a get
does not look at the threads that wait.
-/

namespace SylixOS.Kernel
open Lib

variable {w : ℕ}

/-- `LW_OPTION_EVENTSET_WAIT_CLR_ALL` and the three others. -/
inductive WaitType where
  | clrAll
  | clrAny
  | setAll
  | setAny
deriving DecidableEq

namespace WaitType

/-- `ucWaitType`, the low bits of `ulOption`. -/
def ofOption (ulOption : ℕ) : Option WaitType :=
  match ulOption % 16 with
  | 0 => some .clrAll
  | 1 => some .clrAny
  | 2 => some .setAll
  | 3 => some .setAny
  | _ => none

/-- Whether set bits are waited for. -/
def set : WaitType → Bool
  | .setAll | .setAny => true
  | .clrAll | .clrAny => false

/-- `ulEventRdy`. -/
def ready (ulEvent ulEventSets : BitVec w) : WaitType → BitVec w
  | .setAll | .setAny => ulEvent &&& ulEventSets
  | .clrAll | .clrAny => ulEvent &&& ~~~ulEventSets

/-- Whether a wait for `ulEvent` is over. -/
def isOver (ulEvent ulEventSets : BitVec w) (t : WaitType) : Bool :=
  match t with
  | .setAll | .clrAll => t.ready ulEvent ulEventSets = ulEvent
  | .setAny | .clrAny => t.ready ulEvent ulEventSets ≠ 0

/-- The set after a get with `ulOption`; `LW_OPTION_EVENTSET_RESET` is bit 7 and
`LW_OPTION_EVENTSET_RESET_ALL` is bit 8. -/
def reset (ulOption : ℕ) (ulEventRdy ulEventSets : BitVec w) : WaitType → BitVec w
  | .setAll | .setAny =>
    if ulOption.testBit 7 then ulEventSets &&& ~~~ulEventRdy
    else if ulOption.testBit 8 then 0 else ulEventSets
  | .clrAll | .clrAny =>
    if ulOption.testBit 7 then ulEventSets ||| ulEventRdy
    else if ulOption.testBit 8 then BitVec.allOnes w else ulEventSets

/-- What the four ways of waiting stand for. -/
def Over (ulEvent ulEventSets : BitVec w) : WaitType → Prop
  | .clrAll => ∀ i, ulEvent.getLsbD i = true → ulEventSets.getLsbD i = false
  | .clrAny => ∃ i, ulEvent.getLsbD i = true ∧ ulEventSets.getLsbD i = false
  | .setAll => ∀ i, ulEvent.getLsbD i = true → ulEventSets.getLsbD i = true
  | .setAny => ∃ i, ulEvent.getLsbD i = true ∧ ulEventSets.getLsbD i = true

end WaitType

/-- `LW_CLASS_EVENTSETNODE`, with the option that the waiting thread has on its stack. -/
structure EventSetNode (w : ℕ) where
  ptcbMe : ℕ
  ulEventSets : BitVec w
  ucWaitType : WaitType
  ulOption : ℕ

/-- A thread that has been let go and has yet to run, with `TCB_ulEventSets`, and with the set as it
was then, which the code does not keep. -/
structure EventSetReady (w : ℕ) where
  node : EventSetNode w
  ulEventRdy : BitVec w
  satisfied : BitVec w

/-- A get that has succeeded: whether its thread has waited, what it was told, and the set when it was
satisfied, before its reset and after it. -/
structure EventSetGot (w : ℕ) where
  node : EventSetNode w
  waited : Bool
  ulEventRdy : BitVec w
  pulEvent : BitVec w
  satisfied : BitVec w
  before : BitVec w
  after : BitVec w

/-- `LW_CLASS_EVENTSET` with the threads that it has let go and that have yet to run, and what the
code does not keep: the gets that have succeeded; for set bits and for clear bits, those that a get
has reset and that nothing has made so again; and whether a get has made bits so since the last call
of `API_EventSetSet`. -/
structure EventSet (w : ℕ) where
  ulEventSets : BitVec w
  plineWaitList : List (EventSetNode w)
  ready : List (EventSetReady w)
  got : List (EventSetGot w)
  taken : Bool → BitVec w
  regained : Bool → Bool

inductive EventSetEvent (w : ℕ) where
  /-- `API_EventSetSet`. -/
  | set (ulEvent : BitVec w) (ulOption : ℕ)
  /-- `API_EventSetGetEx` up to where it waits. -/
  | get (ptcbCur : ℕ) (ulEvent : BitVec w) (ulOption : ℕ) (bWait : Bool)
  /-- A wait ends by a timeout, by a signal or because its thread is deleted. -/
  | leave (ptcb : ℕ)
  /-- `API_EventSetGetEx` from where its thread has been let go. -/
  | resume (ptcbCur : ℕ)
  /-- A thread is deleted before it has run again. -/
  | delete (ptcb : ℕ)

namespace EventSet
variable (s : EventSet w)

/-- `_EventSetThreadReady` for each thread of the list whose wait is over. -/
def scan (ulEventSets : BitVec w) :
    List (EventSetNode w) → List (EventSetNode w) × List (EventSetReady w)
  | [] => ([], [])
  | pesn :: l =>
    if pesn.ucWaitType.isOver pesn.ulEventSets ulEventSets then
      ((scan ulEventSets l).1,
        ⟨pesn, pesn.ucWaitType.ready pesn.ulEventSets ulEventSets, ulEventSets⟩ ::
          (scan ulEventSets l).2)
    else (pesn :: (scan ulEventSets l).1, (scan ulEventSets l).2)

/-- The set is changed to `ulEventSets` by `API_EventSetSet`, which makes the bits `made` set or
clear. -/
def release (ulEventSets : BitVec w) (set : Bool) (made : BitVec w) : EventSet w :=
  { s with
    ulEventSets
    plineWaitList := (scan ulEventSets s.plineWaitList).1
    ready := s.ready ++ (scan ulEventSets s.plineWaitList).2
    taken := Function.update s.taken set (s.taken set &&& ~~~made)
    regained := fun _ => false }

def eventSetSet (ulEvent : BitVec w) (ulOption : ℕ) : EventSet w :=
  match ulOption with
  | 0 => s.release (s.ulEventSets &&& ~~~ulEvent) false ulEvent
  | 1 => s.release (s.ulEventSets ||| ulEvent) true ulEvent
  | _ => s

/-- The bits that a reset makes clear when set bits were waited for, and set otherwise. -/
def resetBits (ulOption : ℕ) (ulEventRdy : BitVec w) : BitVec w :=
  if ulOption.testBit 7 then ulEventRdy
  else if ulOption.testBit 8 then BitVec.allOnes w else 0

/-- A get succeeds, with the bits `ulEventRdy` that were as its thread waited for them when the set was
`satisfied`. -/
def succeed (pesn : EventSetNode w) (waited : Bool) (ulEventRdy satisfied : BitVec w) : EventSet w :=
  { s with
    ulEventSets := pesn.ucWaitType.reset pesn.ulOption ulEventRdy s.ulEventSets
    got := s.got ++ [{
      node := pesn
      waited
      ulEventRdy
      pulEvent := if pesn.ulOption.testBit 6 then s.ulEventSets else ulEventRdy
      satisfied
      before := s.ulEventSets
      after := pesn.ucWaitType.reset pesn.ulOption ulEventRdy s.ulEventSets }]
    taken := fun set =>
      if set = pesn.ucWaitType.set then s.taken set ||| resetBits pesn.ulOption ulEventRdy
      else s.taken set &&& ~~~resetBits pesn.ulOption ulEventRdy
    regained := fun set =>
      s.regained set || (set != pesn.ucWaitType.set &&
        (pesn.ulOption.testBit 7 || pesn.ulOption.testBit 8)) }

/-- `API_EventSetGetEx` up to where it waits. -/
def eventSetGet (pesn : EventSetNode w) (bWait : Bool) : EventSet w :=
  if pesn.ucWaitType.isOver pesn.ulEventSets s.ulEventSets then
    s.succeed pesn false (pesn.ucWaitType.ready pesn.ulEventSets s.ulEventSets) s.ulEventSets
  else if bWait then { s with plineWaitList := pesn :: s.plineWaitList } else s

/-- The threads that are in a call. -/
def threads : List ℕ := s.plineWaitList.map (·.ptcbMe) ++ s.ready.map (·.node.ptcbMe)

def step : EventSetEvent w → Option (EventSet w)
  | .set ulEvent ulOption => some (s.eventSetSet ulEvent ulOption)
  | .get ptcbCur ulEvent ulOption bWait =>
    if ptcbCur ∈ s.threads then none
    else match WaitType.ofOption ulOption with
      | some ucWaitType => some (s.eventSetGet ⟨ptcbCur, ulEvent, ucWaitType, ulOption⟩ bWait)
      | none => some s
  | .leave ptcb =>
    some { s with plineWaitList := s.plineWaitList.filter fun pesn => pesn.ptcbMe ≠ ptcb }
  | .resume ptcbCur =>
    match s.ready.find? fun r => r.node.ptcbMe = ptcbCur with
    | some r =>
      some { s.succeed r.node true r.ulEventRdy r.satisfied with
        ready := s.ready.filter fun r => r.node.ptcbMe ≠ ptcbCur }
    | none => none
  | .delete ptcb => some { s with ready := s.ready.filter fun r => r.node.ptcbMe ≠ ptcb }

/-- `API_EventSetCreate`. -/
def create (ulInitEvent : BitVec w) : EventSet w where
  ulEventSets := ulInitEvent
  plineWaitList := []
  ready := []
  got := []
  taken := fun _ => 0
  regained := fun _ => false

def Init : Prop := ∃ ulInitEvent, s = create ulInitEvent

end EventSet

/-! ## Bits -/

namespace WaitType

variable {t t' : WaitType} {ulEvent sets sets' rdy : BitVec w} {ulOption i : ℕ}

theorem getLsbD_ready :
    (t.ready ulEvent sets).getLsbD i = (ulEvent.getLsbD i && (sets.getLsbD i == t.set)) := by
  by_cases hi : i < w
  · cases t <;> simp [ready, set, hi]
  · simp [BitVec.getLsbD_of_ge _ _ (Nat.le_of_not_lt hi)]

theorem isOver_iff : t.isOver ulEvent sets = true ↔ t.Over ulEvent sets := by
  have hall : t.ready ulEvent sets = ulEvent ↔
      ∀ i, ulEvent.getLsbD i = true → sets.getLsbD i = t.set := by
    constructor
    · intro h i hi
      rw [← h, getLsbD_ready] at hi
      simp only [Bool.and_eq_true, beq_iff_eq] at hi
      exact hi.2
    · intro h
      apply BitVec.eq_of_getLsbD_eq
      intro i _
      rw [getLsbD_ready]
      cases hi : ulEvent.getLsbD i
      · rfl
      · rw [h i hi, beq_self_eq_true, Bool.and_true]
  have hany : t.ready ulEvent sets ≠ 0 ↔
      ∃ i, ulEvent.getLsbD i = true ∧ sets.getLsbD i = t.set := by
    constructor
    · intro h
      by_contra hno
      refine h (BitVec.eq_of_getLsbD_eq fun i _ => ?_)
      change _ = (0#w).getLsbD i
      rw [getLsbD_ready, BitVec.getLsbD_zero]
      by_contra hne
      simp only [Bool.not_eq_false, Bool.and_eq_true, beq_iff_eq] at hne
      exact hno ⟨i, hne⟩
    · rintro ⟨i, hi⟩ h
      have hbit := congrArg (fun b => b.getLsbD i) h
      simp only [getLsbD_ready, hi.1, hi.2, beq_self_eq_true, Bool.and_true] at hbit
      simp at hbit
  cases t <;> simp only [isOver, decide_eq_true_eq]
  · exact hall
  · exact hany
  · exact hall
  · exact hany

theorem Over.mono (hsets : ∀ i < w, sets.getLsbD i = t.set → sets'.getLsbD i = t.set)
    (h : t.Over ulEvent sets) : t.Over ulEvent sets' := by
  have hsets {i : ℕ} (hi : ulEvent.getLsbD i = true) : sets.getLsbD i = t.set →
      sets'.getLsbD i = t.set := hsets i (BitVec.lt_of_getLsbD hi)
  cases t with
  | clrAll => exact fun i hi => hsets hi (h i hi)
  | setAll => exact fun i hi => hsets hi (h i hi)
  | clrAny =>
    obtain ⟨i, hi, hs⟩ := h
    exact ⟨i, hi, hsets hi hs⟩
  | setAny =>
    obtain ⟨i, hi, hs⟩ := h
    exact ⟨i, hi, hsets hi hs⟩

theorem getLsbD_reset (hi : i < w) : (t.reset ulOption rdy sets).getLsbD i =
    if (EventSet.resetBits ulOption rdy).getLsbD i = true then !t.set else sets.getLsbD i := by
  unfold reset EventSet.resetBits
  by_cases h7 : ulOption.testBit 7 = true
  · cases hr : rdy.getLsbD i <;> cases t <;> simp [h7, hi, set, hr, -BitVec.getLsbD_eq_getElem]
  · by_cases h8 : ulOption.testBit 8 = true
    · cases t <;> simp [h7, h8, hi, set]
    · cases t <;> simp [h7, h8]

/-- Without an option to reset, a get leaves the set as it is. -/
theorem reset_eq (h7 : ulOption.testBit 7 = false) (h8 : ulOption.testBit 8 = false) :
    t.reset ulOption rdy sets = sets := by
  cases t <;> simp [reset, h7, h8]

end WaitType

namespace EventSet

variable {s s' : EventSet w} {l : List (EventSetNode w)} {sets : BitVec w}
  {pesn : EventSetNode w} {r : EventSetReady w}

/-! ## The threads that are let go -/

theorem mem_scan_wait : pesn ∈ (scan sets l).1 ↔
    pesn ∈ l ∧ ¬ pesn.ucWaitType.Over pesn.ulEventSets sets := by
  induction l with
  | nil => simp [scan]
  | cons a l ih =>
    unfold scan
    split_ifs with hover
    · rw [WaitType.isOver_iff] at hover
      rw [ih, List.mem_cons]
      constructor
      · exact fun h => ⟨.inr h.1, h.2⟩
      · rintro ⟨rfl | hmem, hno⟩
        · exact absurd hover hno
        · exact ⟨hmem, hno⟩
    · rw [WaitType.isOver_iff] at hover
      rw [List.mem_cons, ih, List.mem_cons]
      constructor
      · rintro (rfl | h)
        · exact ⟨.inl rfl, hover⟩
        · exact ⟨.inr h.1, h.2⟩
      · rintro ⟨rfl | hmem, hno⟩
        · exact .inl rfl
        · exact .inr ⟨hmem, hno⟩

theorem mem_scan_ready (h : r ∈ (scan sets l).2) :
    r.node.ucWaitType.Over r.node.ulEventSets sets ∧ r.satisfied = sets ∧
      r.ulEventRdy = r.node.ucWaitType.ready r.node.ulEventSets sets := by
  induction l with
  | nil => simp [scan] at h
  | cons a l ih =>
    unfold scan at h
    split_ifs at h with hover
    · rcases List.mem_cons.mp h with rfl | h
      · exact ⟨WaitType.isOver_iff.mp hover, rfl, rfl⟩
      · exact ih h
    · exact ih h

/-- Each thread of the list waits on or is let go. -/
theorem scan_perm : ((scan sets l).1.map (·.ptcbMe) ++ (scan sets l).2.map (·.node.ptcbMe)).Perm
    (l.map (·.ptcbMe)) := by
  induction l with
  | nil => exact .refl _
  | cons a l ih =>
    unfold scan
    split_ifs
    · exact List.perm_middle.trans (ih.cons _)
    · exact ih.cons _

/-! ## The invariant -/

/-- A get that has succeeded was told those of its bits that were as it waited for them when it was
satisfied, and its reset changed no bits but these, or all bits if that was asked for. -/
structure GotSafe (g : EventSetGot w) : Prop where
  isOver : g.node.ucWaitType.Over g.node.ulEventSets g.satisfied
  ready : ∀ i, g.ulEventRdy.getLsbD i =
    (g.node.ulEventSets.getLsbD i && (g.satisfied.getLsbD i == g.node.ucWaitType.set))
  reset : ∀ i < w, g.after.getLsbD i =
    if (resetBits g.node.ulOption g.ulEventRdy).getLsbD i = true then !g.node.ucWaitType.set
    else g.before.getLsbD i
  /-- The reset is done at once if the thread has not waited. -/
  atOnce : g.waited = false → g.before = g.satisfied

/-- What is promised of an event set. -/
structure EventSetSafe (s : EventSet w) : Prop where
  threads : s.threads.Nodup
  got : ∀ g ∈ s.got, GotSafe g
  /-- A thread that has been let go was satisfied then, and knows the bits. -/
  ready : ∀ r ∈ s.ready, r.node.ucWaitType.Over r.node.ulEventSets r.satisfied ∧
    r.ulEventRdy = r.node.ucWaitType.ready r.node.ulEventSets r.satisfied
  /-- A bit that a get has reset satisfies nobody before it is made so again. -/
  taken : ∀ set, ∀ i < w, (s.taken set).getLsbD i = true → s.ulEventSets.getLsbD i = !set
  /-- A thread waits for what is so already only if a get has made it so. -/
  blocked : ∀ pesn ∈ s.plineWaitList, pesn.ucWaitType.Over pesn.ulEventSets s.ulEventSets →
    s.regained pesn.ucWaitType.set = true

theorem EventSetSafe.init (h : s.Init) : EventSetSafe s := by
  obtain ⟨ulInitEvent, rfl⟩ := h
  refine ⟨List.nodup_nil, ?_, ?_, ?_, ?_⟩ <;> simp [create]

theorem EventSetSafe.release (h : EventSetSafe s) {set : Bool} {made : BitVec w}
    (hmade : ∀ i < w, sets.getLsbD i = if made.getLsbD i = true then set else
      s.ulEventSets.getLsbD i) : EventSetSafe (s.release sets set made) := by
  refine ⟨?_, h.got, ?_, ?_, ?_⟩
  · have hperm : (s.release sets set made).threads.Perm s.threads := by
      have hscan := @scan_perm w s.plineWaitList sets
      simp only [EventSet.threads, EventSet.release, List.map_append]
      refine List.Perm.trans ?_ (hscan.append_right _)
      rw [List.append_assoc]
      exact List.perm_append_comm.append_left _
    exact hperm.nodup_iff.mpr h.threads
  · intro r hr
    rcases List.mem_append.mp hr with hr | hr
    · exact h.ready r hr
    · obtain ⟨hover, hsat, hrdy⟩ := mem_scan_ready hr
      rw [hsat]
      exact ⟨hover, hrdy⟩
  · intro pol i hi hbit
    have htaken := h.taken pol i hi
    change sets.getLsbD i = !pol
    rw [hmade i hi]
    simp only [EventSet.release, Function.update_apply] at hbit
    split_ifs at hbit with hpol
    · subst hpol
      simp only [BitVec.getLsbD_and, BitVec.getLsbD_not, hi, decide_true, Bool.true_and,
        Bool.and_eq_true, Bool.not_eq_true'] at hbit
      rw [if_neg (by simp [hbit.2])]
      exact htaken hbit.1
    · split_ifs
      · cases pol <;> cases set <;> simp_all
      · exact htaken hbit
  · intro pesn hmem hover
    exact absurd hover (mem_scan_wait.mp hmem).2

theorem EventSetSafe.succeed (h : EventSetSafe s) {waited : Bool} {rdy satisfied : BitVec w}
    (hover : pesn.ucWaitType.Over pesn.ulEventSets satisfied)
    (hrdy : rdy = pesn.ucWaitType.ready pesn.ulEventSets satisfied)
    (hnow : waited = false → satisfied = s.ulEventSets) :
    EventSetSafe (s.succeed pesn waited rdy satisfied) := by
  refine ⟨h.threads, ?_, h.ready, ?_, ?_⟩
  · intro g hg
    rcases List.mem_append.mp hg with hg | hg
    · exact h.got g hg
    · obtain rfl := List.mem_singleton.mp hg
      refine ⟨hover, fun i => ?_, fun i hi => WaitType.getLsbD_reset hi, fun hw => (hnow hw).symm⟩
      rw [hrdy]
      exact WaitType.getLsbD_ready
  · intro pol i hi hbit
    have htaken := h.taken pol i hi
    change (pesn.ucWaitType.reset pesn.ulOption rdy s.ulEventSets).getLsbD i = !pol
    rw [WaitType.getLsbD_reset hi]
    simp only [EventSet.succeed] at hbit
    split_ifs at hbit ⊢ with hreset hpol hpol
    · rw [hpol]
    · simp [hreset] at hbit
    · rw [BitVec.getLsbD_or, Bool.or_eq_true] at hbit
      exact htaken (hbit.resolve_right hreset)
    · rw [BitVec.getLsbD_and, Bool.and_eq_true] at hbit
      exact htaken hbit.1
  · intro n hn hnover
    change n.ucWaitType.Over n.ulEventSets
      (pesn.ucWaitType.reset pesn.ulOption rdy s.ulEventSets) at hnover
    have hblocked := h.blocked n hn
    change (s.regained n.ucWaitType.set || _) = true
    rw [Bool.or_eq_true]
    by_cases hset : n.ucWaitType.set = pesn.ucWaitType.set
    · refine .inl (hblocked (hnover.mono fun i hi hbit => ?_))
      rw [WaitType.getLsbD_reset hi] at hbit
      split_ifs at hbit
      · rw [hset] at hbit
        simp at hbit
      · exact hbit
    · by_cases hopt : pesn.ulOption.testBit 7 = true ∨ pesn.ulOption.testBit 8 = true
      · refine .inr ?_
        simpa [hset] using hopt
      · push Not at hopt
        simp only [Bool.not_eq_true] at hopt
        rw [WaitType.reset_eq hopt.1 hopt.2] at hnover
        exact .inl (hblocked hnover)

/-- Threads leave the call. -/
theorem EventSetSafe.sublist (h : EventSetSafe s) {plineWaitList : List (EventSetNode w)}
    {ready : List (EventSetReady w)} (hwait : plineWaitList.Sublist s.plineWaitList)
    (hready : ready.Sublist s.ready) : EventSetSafe { s with plineWaitList, ready } := by
  refine ⟨?_, h.got, fun r hr => h.ready r (hready.subset hr), h.taken,
    fun pesn hmem => h.blocked pesn (hwait.subset hmem)⟩
  exact h.threads.sublist ((hwait.map _).append (hready.map _))

theorem EventSetSafe.get (h : EventSetSafe s) {bWait : Bool} (hfree : pesn.ptcbMe ∉ s.threads) :
    EventSetSafe (s.eventSetGet pesn bWait) := by
  unfold eventSetGet
  split_ifs with hover hwait
  · exact h.succeed (WaitType.isOver_iff.mp hover) rfl fun _ => rfl
  · rw [WaitType.isOver_iff] at hover
    refine ⟨List.nodup_cons.mpr ⟨hfree, h.threads⟩, h.got, h.ready, h.taken, fun n hn hnover => ?_⟩
    rcases List.mem_cons.mp hn with rfl | hn
    · exact absurd hnover hover
    · exact h.blocked n hn hnover
  · exact h

theorem EventSetSafe.set (h : EventSetSafe s) {ulEvent : BitVec w} {ulOption : ℕ} :
    EventSetSafe (s.eventSetSet ulEvent ulOption) := by
  unfold eventSetSet
  split
  · refine h.release fun i hi => ?_
    cases hbit : ulEvent.getLsbD i <;> simp [hi, hbit, -BitVec.getLsbD_eq_getElem]
  · refine h.release fun i hi => ?_
    cases hbit : ulEvent.getLsbD i <;> simp [hbit]
  · exact h

theorem EventSetSafe.step (h : EventSetSafe s) {e : EventSetEvent w} (hs : s.step e = some s') :
    EventSetSafe s' := by
  cases e with
  | set ulEvent ulOption =>
    obtain rfl := Option.some.inj hs
    exact h.set
  | get ptcbCur ulEvent ulOption bWait =>
    simp only [EventSet.step, Option.ite_none_left_eq_some] at hs
    obtain ⟨hfree, hs⟩ := hs
    split at hs
    · obtain rfl := Option.some.inj hs
      exact h.get hfree
    · obtain rfl := Option.some.inj hs
      exact h
  | leave ptcb =>
    obtain rfl := Option.some.inj hs
    exact h.sublist List.filter_sublist (List.Sublist.refl _)
  | delete ptcb =>
    obtain rfl := Option.some.inj hs
    exact h.sublist (List.Sublist.refl _) List.filter_sublist
  | resume ptcbCur =>
    simp only [EventSet.step] at hs
    split at hs
    · rename_i r hfind
      obtain rfl := Option.some.inj hs
      obtain ⟨hover, hrdy⟩ := h.ready r (List.mem_of_find?_eq_some hfind)
      have hsucc : EventSetSafe (s.succeed r.node true r.ulEventRdy r.satisfied) :=
        h.succeed hover hrdy fun hwaited => by cases hwaited
      exact hsucc.sublist (List.Sublist.refl _) List.filter_sublist
    · cases hs

/-- Over any run of sets and gets, waits that end otherwise included. -/
theorem eventSet_safe (h : Reach step (fun _ _ => True) Init s) : EventSetSafe s :=
  h.invariant (fun _ => EventSetSafe.init) fun _ _ _ hsafe _ hs => hsafe.step hs

/-- Two threads wait for one bit, are both let go by one set, and reset the bit one after the other. -/
theorem eventSet_safe_two : ∃ s : EventSet 32, s.got.length = 2 ∧ EventSetSafe s := by
  have hruns : runs step (create (0 : BitVec 32))
      [.get 1 1 131 true, .get 2 1 131 true, .set 1 1, .resume 1, .resume 2] = some _ := rfl
  exact ⟨_, rfl, eventSet_safe ((Reach.start ⟨_, rfl⟩).of_runs hruns)⟩

/-- One set of a bit satisfies two gets that reset it, and the later reset clears a bit that has been
set since; and a thread that waits for a clear bit is not told that a get has cleared it. -/
theorem eventSet_shared : (∃ s : EventSet 32, Reach step (fun _ _ => True) Init s ∧
    s.got.map (fun g => (g.node.ptcbMe, g.satisfied, g.ulEventRdy)) = [(2, 1, 1), (1, 1, 1)] ∧
      s.got.map (fun g => (g.before, g.after)) = [(1, 0), (1, 0)]) ∧
    ∃ s : EventSet 32, Reach step (fun _ _ => True) Init s ∧
      ∃ pesn ∈ s.plineWaitList, pesn.ucWaitType.Over pesn.ulEventSets s.ulEventSets := by
  have hruns : runs step (create (0 : BitVec 32))
      [.get 1 1 131 true, .set 1 1, .get 2 1 131 true, .set 1 1, .resume 1] = some _ := rfl
  have hruns' : runs step (create (1 : BitVec 32))
      [.get 1 1 0 true, .get 2 1 131 true] = some _ := rfl
  refine ⟨⟨_, (Reach.start ⟨_, rfl⟩).of_runs hruns, rfl, rfl⟩,
    _, (Reach.start ⟨_, rfl⟩).of_runs hruns', _, List.mem_singleton.mpr rfl, ?_⟩
  exact WaitType.isOver_iff.mp rfl

end EventSet

end SylixOS.Kernel
