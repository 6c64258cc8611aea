import SylixOS.Kernel.WakeupPass
import SylixOS.Lib.Reach

/-! # The timer thread

`_ITimerThread` sleeps until the first timer of its wake-up line is due, or until a timer is added, and
then passes over the line. It calls the routine of each timer that is due out of the kernel lock, and
puts a timer with `LW_OPTION_AUTO_RESTART` back before, so that a timer may go before the one at which
the pass goes on. Other threads start and cancel timers at any time.
-/

namespace SylixOS.Kernel
open Lib Lib.DeltaList Function

/-- `LW_CLASS_TIMER`, whose counter is in the line. The code does not keep the time at which the timer
is to expire, and the earliest that this may be: its delay after its start, or its period after the
time at which it was to expire before. -/
structure Timer where
  ulCounterSave : ℕ
  autoRestart : Bool
  running : Bool
  cbRoutine : ℕ
  pvArg : ℕ
  deadline : ℕ
  earliest : ℕ

/-- A timer that expires at the time `t` does so at its deadline, or both have passed; and its deadline
is not too early. -/
def Timer.Kept (now : ℕ) (tmr : Timer) (t : ℕ) : Prop :=
  tmr.earliest ≤ tmr.deadline ∧ (t = tmr.deadline ∨ tmr.deadline ≤ t ∧ t ≤ now)

theorem Timer.Kept.later {now t t' : ℕ} {tmr : Timer} (h : Timer.Kept now tmr t) (hle : t ≤ t')
    (hnow : t' ≤ now) : Timer.Kept now tmr t' := by
  refine ⟨h.1, .inr ?_⟩
  have := h.2
  omega

theorem Timer.Kept.le {now t : ℕ} {tmr : Timer} (h : Timer.Kept now tmr t) : tmr.deadline ≤ t := by
  have := h.2
  omega

/-- Where the timer thread is: about to sleep, asleep, or calling the routine of a timer with what is
left of `ulCounter`. -/
inductive ITimerThread where
  | top
  | asleep (bNoTimer : Bool)
  | run (ulCounter : ℕ)

/-- A routine that was called, for which timer, and when. -/
structure TimerCall where
  ptmr : ℕ
  pfuncRoutine : ℕ
  pvRoutineArg : ℕ
  earliest : ℕ
  deadline : ℕ
  time : ℕ

/-- The timers and the timer thread; `pwu` is `_K_wuITmr`. -/
structure ITimerSys where
  pwu : Wakeup
  tmr : ℕ → Timer
  thread : ITimerThread
  now : ℕ
  fired : List TimerCall

inductive ITimerEvent where
  /-- `API_TimerStartEx`. -/
  | start (ptmr ulInitCounter ulCounter : ℕ) (autoRestart : Bool) (cbTimerRoutine : Option ℕ)
      (pvArg : ℕ)
  /-- `API_TimerReset`. -/
  | reset (ptmr : ℕ)
  /-- `API_TimerCancel`. -/
  | cancel (ptmr : ℕ)
  /-- `_ITimerThread` up to its sleep. -/
  | sleep
  /-- It has slept, and goes on up to the first routine that it calls. -/
  | wake
  /-- It goes on after a routine. -/
  | resume
  | tick (ticks : ℕ)

namespace ITimerSys
variable (w : ℕ) (s : ITimerSys)

/-- The timers in the line. -/
def nodes : List ℕ := s.pwu.line.map Entry.key

/-- What is left of `ulCounter`. -/
def left : ℕ :=
  match s.thread with
  | .run ulCounter => ulCounter
  | _ => 0

/-- The timers before the one at which the pass goes on, and those from it on. -/
def parts : List WakeupNode × List WakeupNode :=
  match s.thread with
  | .run _ => s.pwu.parts
  | _ => (s.pwu.line, [])

/-- The time at which each timer expires according to the line. -/
def dues : List (ℕ × ℕ) := DeltaList.dues s.pwu.i64LastTime s.left s.parts.1 s.parts.2

/-- `API_TimerCancel`. -/
def timerCancel (ptmr : ℕ) : ITimerSys :=
  if (s.tmr ptmr).running then
    { s with
      pwu := s.pwu.del w s.now ptmr true
      tmr := update s.tmr ptmr { s.tmr ptmr with running := false } }
  else s

/-- A timer that is not running is put into the line with `ulCounter`. -/
def timerAdd (ptmr ulCounter : ℕ) (tmr : Timer) : ITimerSys :=
  { s with
    pwu := s.pwu.add w s.now ptmr ulCounter true
    tmr := update s.tmr ptmr { tmr with
      running := true
      deadline := s.now + ulCounter
      earliest := s.now + ulCounter } }

/-- `API_TimerStartEx`, which takes a running timer out of the line first. -/
def timerStartEx (ptmr ulInitCounter ulCounter : ℕ) (autoRestart : Bool)
    (cbTimerRoutine : Option ℕ) (pvArg : ℕ) : ITimerSys :=
  match cbTimerRoutine with
  | none => s
  | some cbRoutine =>
    if ulInitCounter = 0 ∨ autoRestart ∧ ulCounter = 0 then s
    else (s.timerCancel w ptmr).timerAdd w ptmr ulInitCounter
      { s.tmr ptmr with ulCounterSave := ulCounter, autoRestart, cbRoutine, pvArg }

/-- `API_TimerReset`. -/
def timerReset (ptmr : ℕ) : ITimerSys :=
  if (s.tmr ptmr).running then
    (s.timerCancel w ptmr).timerAdd w ptmr (s.tmr ptmr).ulCounterSave (s.tmr ptmr)
  else s

/-- A timer that has expired is put back or stopped, and its routine is called. A timer that is put
back behind the cursor has what is left of the pass taken off its period. -/
def fire (pwu : Wakeup) (ptmr ulCounter : ℕ) : ITimerSys :=
  let tmr := s.tmr ptmr
  { s with
    pwu := if tmr.autoRestart then pwu.add w s.now ptmr tmr.ulCounterSave false else pwu
    tmr := update s.tmr ptmr <|
      if tmr.autoRestart then
        { tmr with
          deadline :=
            if Behind tmr.ulCounterSave pwu.parts.1 pwu.parts.2 then
              pwu.i64LastTime + tmr.ulCounterSave - ulCounter
            else pwu.i64LastTime + tmr.ulCounterSave
          earliest := tmr.deadline + tmr.ulCounterSave }
      else { tmr with running := false }
    thread := .run ulCounter
    fired := s.fired ++
      [⟨ptmr, tmr.cbRoutine, tmr.pvArg, tmr.earliest, tmr.deadline, s.now⟩] }

/-- A part of the pass between two routines. -/
def pass (ulCounter : ℕ) : ITimerSys :=
  match s.pwu.passNext ulCounter with
  | (pwu, none) => { s with pwu, thread := .top }
  | (pwu, some (ptmr, ulCounter)) => s.fire w (pwu.del w s.now ptmr false) ptmr ulCounter

/-- The thread sleeps for the counter of the first timer, if there is one. -/
def sleep : ITimerSys :=
  { s with
    pwu := { s.pwu with i64LastTime := s.now }
    thread := .asleep s.pwu.line.isEmpty }

/-- The thread has slept, as long as the clock says. -/
def wake : ITimerSys :=
  { s with pwu := { s.pwu.passFirst with i64LastTime := s.now } }.pass w
    (ulong w (s.now - s.pwu.i64LastTime))

/-- One step of a system with a `ULONG` of `w` bits. -/
def step : ITimerEvent → Option ITimerSys
  | .start ptmr ulInitCounter ulCounter autoRestart cbTimerRoutine pvArg =>
    if ulInitCounter < 2 ^ w ∧ ulCounter < 2 ^ w then
      some (s.timerStartEx w ptmr ulInitCounter ulCounter autoRestart cbTimerRoutine pvArg)
    else none
  | .reset ptmr => some (s.timerReset w ptmr)
  | .cancel ptmr => some (s.timerCancel w ptmr)
  | .sleep =>
    match s.thread with
    | .top => some s.sleep
    | _ => none
  | .wake =>
    match s.thread with
    | .asleep true => some { s with thread := .top }
    | .asleep false => some (s.wake w)
    | _ => none
  | .resume =>
    match s.thread with
    | .run ulCounter => some (s.pass w ulCounter)
    | _ => none
  | .tick ticks => some { s with now := s.now + ticks }

/-- No timer has been started. -/
structure Init : Prop where
  pwu : s.pwu = ⟨[], none, 0, true⟩
  tmr : ∀ n, (s.tmr n).running = false ∧ (s.tmr n).ulCounterSave = 0
  thread : s.thread = .top
  fired : s.fired = []

/-- When the first timer is cancelled, the counters of it and the next one absorb the time that has
passed. -/
def CancelOk (ptmr : ℕ) : Prop :=
  (s.tmr ptmr).running → s.nodes.head? = some ptmr →
    Line.Absorbs w (s.now - s.pwu.i64LastTime) (Line.behindHead s.pwu.line)

/-- The system when the time that has passed has been taken off the first timer. -/
def caughtUp : ITimerSys :=
  { s with
    pwu := { s.pwu with
      line := advance (ulong w (s.now - s.pwu.i64LastTime)) s.pwu.line
      i64LastTime := s.now } }

/-- A timer is added when the counter of the first one absorbs the time that has passed, and nothing is
left of a pass, or the timer goes before the one at which the pass goes on and none of those from there
on expires after now and no later than it. -/
def AddOk (ulCounter : ℕ) : Prop :=
  Line.Absorbs w (s.now - s.pwu.i64LastTime) s.pwu.line ∧
    (s.left = 0 ∨
      ¬ Behind ulCounter (s.caughtUp w).parts.1 (s.caughtUp w).parts.2 ∧
        InsertOk ulCounter (s.caughtUp w).parts.1 (s.caughtUp w).parts.2 s.left)

/-- When the timer at which the pass goes on is due and is put back behind the one after it, no timer
has been put before that; and when it is put before it, none from there on expires after the pass and no
later than it. -/
def RestartOk (before rest : List WakeupNode) (left : ℕ) : Prop :=
  ∀ e ∈ rest.head?, e.delta ≤ left → (s.tmr e.key).autoRestart →
    if Behind (s.tmr e.key).ulCounterSave before rest.tail then total before = 0
    else InsertOk (s.tmr e.key).ulCounterSave before rest.tail (left - e.delta)

/-- The condition on a step: besides, the thread goes to sleep when no time has passed since the pass,
or every timer is due, and wakes up before a `ULONG` of time has passed. -/
def StepOk : ITimerEvent → Prop
  | .start ptmr ulInitCounter ulCounter autoRestart cbTimerRoutine _ =>
    cbTimerRoutine = none ∨ (ulInitCounter = 0 ∨ autoRestart ∧ ulCounter = 0) ∨
      s.CancelOk w ptmr ∧ (s.timerCancel w ptmr).AddOk w ulInitCounter
  | .reset ptmr =>
    (s.tmr ptmr).running →
      s.CancelOk w ptmr ∧ (s.timerCancel w ptmr).AddOk w (s.tmr ptmr).ulCounterSave
  | .cancel ptmr => s.CancelOk w ptmr
  | .sleep => s.now = s.pwu.i64LastTime ∨ total s.pwu.line = 0
  | .wake =>
    s.thread = .asleep false →
      (s.now - s.pwu.i64LastTime < 2 ^ w ∨ total s.pwu.line = 0) ∧
        s.RestartOk [] s.pwu.line (ulong w (s.now - s.pwu.i64LastTime))
  | .resume => s.RestartOk s.parts.1 s.parts.2 s.left
  | .tick _ => True

/-- No timer was fired before its delay or its period was over, and every timer in the line still
expires at its deadline. -/
structure Safe : Prop where
  fired : ∀ x ∈ s.fired, x.earliest ≤ x.deadline ∧ x.deadline ≤ x.time
  kept : ∀ p ∈ s.dues, Timer.Kept s.now (s.tmr p.1) p.2

/-! ## The line holds the deadlines -/

/-- The pass goes on at the first of the timers `rest`. -/
def Cursor (s : ITimerSys) (rest : List WakeupNode) : Prop :=
  match s.thread with
  | .run _ => s.pwu.plineOp = (rest.map Entry.key).head?
  | _ => rest = []

/-- The line of a system whose pass has come to the timers `rest`. -/
def Timed (w : ℕ) (before rest : List WakeupNode) (left : ℕ) (s : ITimerSys) : Prop :=
  Wakeup.Held w s.pwu.i64LastTime s.now (fun n => (s.tmr n).Kept s.now) before rest left s.pwu.line

/-- What holds of the timers wherever the thread is. -/
structure Sane (w : ℕ) (s : ITimerSys) : Prop where
  func : s.pwu.pfuncWakeup = true
  running : ∀ n, (s.tmr n).running = true ↔ n ∈ s.nodes
  save : ∀ n, (s.tmr n).ulCounterSave < 2 ^ w
  fired : ∀ x ∈ s.fired, x.earliest ≤ x.deadline ∧ x.deadline ≤ x.time

/-- The invariant. -/
structure Inv (w : ℕ) (s : ITimerSys) : Prop where
  sane : Sane w s
  line : ∃ before rest, s.Cursor rest ∧ Timed w before rest s.left s

variable {w c n : ℕ} {s s' : ITimerSys} {before rest r : List WakeupNode} {e : WakeupNode} {tmr : Timer}

theorem Timed.parts_eq {left : ℕ} (h : Timed w before rest left s) (hc : s.Cursor rest) :
    s.parts = (before, rest) := by
  unfold Cursor at hc
  rw [parts]
  split
  · next hrun =>
    rw [hrun] at hc
    exact Wakeup.Scan.parts_eq ⟨h.eq, hc⟩ h.nodup
  · next hrun =>
    split at hc
    · exact absurd ‹_› (hrun _)
    · rw [h.eq, hc, List.append_nil]

/-- The cursor stays at its timer, whatever is done before it and behind it. -/
theorem Cursor.congr {rest' : List WakeupNode} (h : s.Cursor rest) (ht : s'.thread = s.thread)
    (hop : s'.pwu.plineOp = s.pwu.plineOp)
    (hkeys : rest'.head?.map Entry.key = rest.head?.map Entry.key) : s'.Cursor rest' := by
  unfold Cursor at h ⊢
  rw [ht]
  split
  · next hrun =>
    rw [hrun] at h
    rw [hop, List.head?_map, hkeys, ← List.head?_map]
    exact h
  · next hrun =>
    split at h
    · exact absurd ‹_› (hrun _)
    · subst h
      cases rest' with
      | nil => rfl
      | cons e r => cases hkeys

/-- The cursor moves on when its timer is removed. -/
theorem Cursor.del {left : ℕ} {rest' : List WakeupNode} (h : s.Cursor rest)
    (ht : Timed w before rest left s)
    (hkeys : rest'.map Entry.key = (rest.map Entry.key).filter (· ≠ n))
    (hthread : s'.thread = s.thread)
    (hop : s'.pwu.plineOp =
      if s.pwu.plineOp = some n then Wakeup.next n s.pwu.line else s.pwu.plineOp) :
    s'.Cursor rest' := by
  unfold Cursor at h ⊢
  rw [hthread]
  split
  · next hrun =>
    rw [hrun] at h
    rw [hop, hkeys]
    exact Wakeup.Scan.op_del ⟨ht.eq, h⟩ ht.nodup
  · next hrun =>
    split at h
    · exact absurd ‹_› (hrun _)
    · subst h
      exact List.map_eq_nil_iff.mp hkeys

theorem Inv.cancel (h : Inv w s) (hok : s.CancelOk w n) : Inv w (s.timerCancel w n) := by
  unfold timerCancel
  split_ifs with hrun
  · obtain ⟨before, rest, hcur, ht⟩ := h.line
    have hother : ∀ m t, m ≠ n → (s.tmr m).Kept s.now t →
        (update s.tmr n { s.tmr n with running := false } m).Kept s.now t := by
      intro m t hne hkept
      rwa [update_of_ne hne]
    obtain ⟨hunlink, before', rest', hkeys, hheld⟩ := Wakeup.Held.unlink ht hother
    have hnodes : (remove n s.pwu.line).map Entry.key = s.nodes.filter (· ≠ n) := key_remove ht.nodup
    have hsane : ∀ pwu' : Wakeup, pwu'.pfuncWakeup = true →
        pwu'.line.map Entry.key = s.nodes.filter (· ≠ n) → Sane w { s with
          pwu := pwu'
          tmr := update s.tmr n { s.tmr n with running := false } } := by
      intro pwu' hf hk
      refine ⟨hf, fun m => ?_, fun m => ?_, h.sane.fired⟩
      · change _ ↔ m ∈ pwu'.line.map Entry.key
        rw [hk, List.mem_filter, decide_eq_true_eq, ← h.sane.running m]
        by_cases hm : m = n
        · simp [hm]
        · simp [hm]
      · by_cases hm : m = n
        · rw [hm]
          dsimp only
          rw [update_self]
          exact h.sane.save n
        · dsimp only
          rw [update_of_ne hm]
          exact h.sane.save m
    have hdel := Wakeup.del_true w s.now n h.sane.func
    dsimp only at hdel
    rw [hunlink] at hdel
    by_cases hhead : s.nodes.head? = some n
    · have habsorb := hok hrun hhead
      have hbehind : Line.behindHead s.pwu.line = remove n s.pwu.line := by
        cases hline : s.pwu.line with
        | nil => rfl
        | cons e es =>
          rw [nodes, hline] at hhead
          rw [remove, if_pos (Option.some.inj hhead)]
          rfl
      rw [hbehind] at habsorb
      obtain ⟨before₁, rest₁, hkeys₁, hheld₁⟩ :=
        hheld.advance (fun _ _ _ hk hle hnow => hk.later hle hnow) habsorb
      rw [if_pos (show (s.pwu.line.map Entry.key).head? = some n from hhead)] at hdel
      rw [hdel]
      refine ⟨hsane _ h.sane.func (key_advance.trans hnodes), before₁, rest₁, ?_, hheld₁⟩
      exact hcur.del ht (hkeys₁.trans hkeys) rfl rfl
    · rw [if_neg (show ¬ (s.pwu.line.map Entry.key).head? = some n from hhead)] at hdel
      rw [hdel]
      exact ⟨hsane _ h.sane.func hnodes, before', rest', hcur.del ht hkeys rfl rfl, hheld⟩
  · exact h

/-- A timer that has been cancelled is not in the line. -/
theorem Inv.not_mem_cancel (h : Inv w s) (hok : s.CancelOk w n) : n ∉ (s.timerCancel w n).nodes := by
  rw [← (h.cancel hok).sane.running n, timerCancel]
  split_ifs with hrun
  · dsimp only
    rw [update_self]
    exact Bool.false_ne_true
  · exact hrun

theorem Inv.add (h : Inv w s) (hn : n ∉ s.nodes) (hc : c < 2 ^ w) (hok : s.AddOk w c)
    (hsave : tmr.ulCounterSave < 2 ^ w) : Inv w (s.timerAdd w n c tmr) := by
  obtain ⟨before, rest, hcur, ht⟩ := h.line
  obtain ⟨before₁, rest₁, hkeys₁, hheld₁⟩ :=
    ht.advance (fun _ _ _ hk hle hnow => hk.later hle hnow) hok.1
  have hcur₁ : (s.caughtUp w).Cursor rest₁ := hcur.congr rfl rfl (by
    rw [← List.head?_map, ← List.head?_map, hkeys₁])
  have hparts : (s.caughtUp w).parts = (before₁, rest₁) := Timed.parts_eq hheld₁ hcur₁
  have hadd := hok.2
  rw [hparts] at hadd
  have hinsert : InsertOk c before₁ rest₁ s.left := by
    rcases hadd with hleft | hadd
    · have hsound := hheld₁.sound
      rw [hleft] at hsound ⊢
      exact hsound.insertOk
    · exact hadd.2
  rw [timerAdd, Wakeup.add_true h.sane.func]
  refine ⟨⟨h.sane.func, fun m => ?_, fun m => ?_, h.sane.fired⟩,
    (place n c before₁ rest₁).1, (place n c before₁ rest₁).2, ?_, ?_⟩
  · change _ ↔ m ∈ (DeltaList.insert n c _).map Entry.key
    rw [key_insert, key_advance]
    by_cases hm : m = n
    · simp [hm]
    · dsimp only
      rw [update_of_ne hm, h.sane.running m]
      simp [hm, nodes]
  · by_cases hm : m = n
    · rw [hm]
      dsimp only
      rw [update_self]
      exact hsave
    · dsimp only
      rw [update_of_ne hm]
      exact h.sane.save m
  · exact hcur₁.congr rfl rfl head_place
  · refine Wakeup.Held.insert hheld₁ ?_ hc hinsert ?_ ?_
    · rw [key_advance]
      exact hn
    · intro m t hne hk
      dsimp only
      rwa [update_of_ne hne]
    · dsimp only
      rw [update_self]
      refine ⟨Nat.le_refl _, .inl ?_⟩
      change (if Behind c before₁ rest₁ then s.now + c - s.left else s.now + c) = s.now + c
      rcases hadd with hleft | hadd
      · rw [hleft, Nat.sub_zero, ite_self]
      · exact if_neg hadd.1

theorem Inv.start (h : Inv w s) {ulInitCounter ulCounter pvArg : ℕ} {autoRestart : Bool}
    {cbTimerRoutine : Option ℕ} (hinit : ulInitCounter < 2 ^ w) (hcounter : ulCounter < 2 ^ w)
    (hok : s.StepOk w (.start n ulInitCounter ulCounter autoRestart cbTimerRoutine pvArg)) :
    Inv w (s.timerStartEx w n ulInitCounter ulCounter autoRestart cbTimerRoutine pvArg) := by
  cases cbTimerRoutine with
  | none => exact h
  | some cbRoutine =>
    unfold timerStartEx
    dsimp only
    split_ifs with herror
    · exact h
    · rcases hok with hok | hok | ⟨hcancel, hadd⟩
      · cases hok
      · exact absurd hok herror
      · exact (h.cancel hcancel).add (h.not_mem_cancel hcancel) hinit hadd hcounter

theorem Inv.reset (h : Inv w s) (hok : s.StepOk w (.reset n)) : Inv w (s.timerReset w n) := by
  unfold timerReset
  split_ifs with hrun
  · obtain ⟨hcancel, hadd⟩ := hok hrun
    exact (h.cancel hcancel).add (h.not_mem_cancel hcancel) (h.sane.save n) hadd (h.sane.save n)
  · exact h

/-- A timer that has expired was in the line, and is put back or stopped. -/
theorem Sane.fire (h : Sane w s) {pwu : Wakeup} {left t : ℕ} (hf : pwu.pfuncWakeup = true)
    (hkeys : ∀ m, m ∈ pwu.line.map Entry.key ↔ m ∈ s.nodes ∧ m ≠ n) (hn : n ∈ s.nodes)
    (hkept : (s.tmr n).Kept s.now t) (ht : t ≤ s.now) : Sane w (s.fire w pwu n left) := by
  have hline : (s.fire w pwu n left).pwu.line =
      if (s.tmr n).autoRestart then DeltaList.insert n (s.tmr n).ulCounterSave pwu.line
      else pwu.line := by
    rw [ITimerSys.fire]
    dsimp only
    rw [Wakeup.add_false]
    split_ifs <;> rfl
  have hother : ∀ m, m ≠ n → (s.fire w pwu n left).tmr m = s.tmr m := fun m hm =>
    update_of_ne hm _ _
  have hself : ((s.fire w pwu n left).tmr n).running = (s.tmr n).autoRestart ∧
      ((s.fire w pwu n left).tmr n).ulCounterSave = (s.tmr n).ulCounterSave := by
    have hrun := (h.running n).mpr hn
    rw [ITimerSys.fire]
    dsimp only
    rw [update_self]
    cases hauto : (s.tmr n).autoRestart
    · exact ⟨rfl, rfl⟩
    · exact ⟨hrun, rfl⟩
  constructor
  · rw [ITimerSys.fire]
    dsimp only
    rw [Wakeup.add_false]
    split_ifs <;> exact hf
  · intro m
    change _ ↔ m ∈ (s.fire w pwu n left).pwu.line.map Entry.key
    rw [hline]
    by_cases hm : m = n
    · rw [hm, hself.1]
      split_ifs with hauto
      · exact iff_of_true hauto (key_insert.mpr (.inl rfl))
      · exact iff_of_false hauto fun hmem => ((hkeys n).mp hmem).2 rfl
    · rw [hother m hm, h.running m]
      split_ifs with hauto
      · rw [key_insert, hkeys]
        tauto
      · rw [hkeys]
        tauto
  · intro m
    by_cases hm : m = n
    · rw [hm, hself.2]
      exact h.save n
    · rw [hother m hm]
      exact h.save m
  · intro x hx
    change x ∈ s.fired ++ [_] at hx
    rw [List.mem_append, List.mem_singleton] at hx
    rcases hx with hx | rfl
    · exact h.fired x hx
    · exact ⟨hkept.1, Nat.le_trans hkept.le ht⟩

/-- The timers of the line when one that was at the cursor is put back or stopped. -/
theorem Timed.fire {left : ℕ} (ht : Timed w before (e :: r) left s) (h : Sane w s)
    (he : e.delta ≤ left) (hok : s.RestartOk before (e :: r) left) {pwu : Wakeup}
    (hpwu : pwu = { s.pwu with line := before ++ r, plineOp := (r.map Entry.key).head? }) :
    ∃ before' rest', (s.fire w pwu e.key (left - e.delta)).Cursor rest' ∧
      Timed w before' rest' (left - e.delta) (s.fire w pwu e.key (left - e.delta)) := by
  obtain ⟨⟨t, hkept, htime, htT⟩, hheld⟩ := ht.take he (rfl : before ++ r = before ++ r)
  have hnot : e.key ∉ (before ++ r).map Entry.key := by
    have hnd := ht.nodup
    rw [ht.eq, List.map_append, List.map_cons, List.nodup_middle, List.nodup_cons,
      ← List.map_append] at hnd
    exact hnd.1
  have hparts : pwu.parts = (before, r) := by
    refine Wakeup.Scan.parts_eq ⟨?_, ?_⟩ ?_
    · rw [hpwu]
    · rw [hpwu]
    · rw [hpwu]
      exact hheld.nodup
  have hother : ∀ tmr' : Timer, ∀ m t, m ≠ e.key → (s.tmr m).Kept s.now t →
      (update s.tmr e.key tmr' m).Kept s.now t := by
    intro tmr' m t hne hk
    rwa [update_of_ne hne]
  cases hauto : (s.tmr e.key).autoRestart with
  | false =>
    refine ⟨before, r, ?_, ?_⟩
    · rw [ITimerSys.fire, hauto, hpwu]
      rfl
    · rw [ITimerSys.fire, hauto, hpwu]
      refine Wakeup.Held.imp hheld (fun m hm t hk => ?_) (Nat.le_refl _)
      refine hother _ m t ?_ hk
      rintro rfl
      exact hnot hm
  | true =>
    have hrestart := hok e rfl he hauto
    rw [List.tail_cons] at hrestart
    have hplace : InsertOk (s.tmr e.key).ulCounterSave before r (left - e.delta) := by
      by_cases hb : Behind (s.tmr e.key).ulCounterSave before r
      · rw [if_pos hb] at hrestart
        rw [InsertOk, if_pos hb, hrestart, Nat.zero_add]
        exact id
      · rwa [if_neg hb] at hrestart
    refine ⟨(place e.key (s.tmr e.key).ulCounterSave before r).1,
      (place e.key (s.tmr e.key).ulCounterSave before r).2, ?_, ?_⟩
    · rw [ITimerSys.fire, hauto, hpwu]
      change (Wakeup.add w s.now e.key _ false _).plineOp = _
      rw [Wakeup.add_false, List.head?_map, List.head?_map, head_place]
    · rw [ITimerSys.fire, hauto, Timed]
      dsimp only
      rw [if_pos rfl, if_pos rfl, hparts, Wakeup.add_false, hpwu]
      refine hheld.insert hnot (h.save _) hplace (hother _) ?_
      rw [update_self]
      refine ⟨?_, .inl rfl⟩
      have hle := hkept.le
      dsimp only
      by_cases hb : Behind (s.tmr e.key).ulCounterSave before r
      · rw [if_pos hb] at hrestart ⊢
        omega
      · rw [if_neg hb]
        omega

/-- The pass goes on until it calls a routine or comes to the end of the line. -/
theorem Sane.pass {left : ℕ} (h : Sane w s) (hscan : s.pwu.Scan before rest)
    (ht : Timed w before rest left s) (hok : s.RestartOk before rest left) :
    Inv w (s.pass w left) := by
  cases rest with
  | nil =>
    have hpass : s.pass w left = { s with thread := .top } := by
      rw [ITimerSys.pass, hscan.passNext_nil]
    rw [hpass]
    exact ⟨⟨h.func, h.running, h.save, h.fired⟩, s.pwu.line, [], rfl, ht.finish⟩
  | cons e r =>
    by_cases he : left < e.delta
    · have hpass := hscan.passNext_stop ht.nodup he
      have heq : s.pass w left = { s with pwu := (s.pwu.passNext left).1, thread := .top } := by
        rw [ITimerSys.pass, hpass]
      obtain ⟨hkeys, hstop⟩ := ht.stop he rfl
      rw [heq, hpass]
      refine ⟨⟨h.func, fun n => ?_, h.save, h.fired⟩, _, [], rfl, hstop⟩
      rw [h.running n, nodes, nodes, ← hkeys]
    · have he := Nat.le_of_not_lt he
      obtain ⟨pwu, hpass, htake⟩ :=
        hscan.take s.now ht.nodup (fun _ => ht.delta_lt) he
      have heq : s.pass w left = s.fire w (pwu.del w s.now e.key false) e.key (left - e.delta) := by
        rw [ITimerSys.pass, hpass]
      obtain ⟨t, hkept, -, hle⟩ := (ht.take he (rfl : before ++ r = before ++ r)).1
      have hnd := ht.nodup
      rw [ht.eq, List.map_append, List.map_cons, List.nodup_middle, List.nodup_cons,
        ← List.map_append] at hnd
      rw [heq, htake]
      refine ⟨h.fire h.func (fun m => ?_) ?_ hkept (Nat.le_trans hle ht.time_le),
        ht.fire h he hok rfl⟩
      · dsimp only
        rw [nodes, ht.eq, List.map_append, List.map_append, List.map_cons, List.mem_append,
          List.mem_append, List.mem_cons]
        constructor
        · intro hm
          refine ⟨hm.imp id .inr, ?_⟩
          rintro rfl
          exact hnd.1 (by rwa [List.map_append, List.mem_append])
        · rintro ⟨hm | hm | hm, hne⟩
          · exact .inl hm
          · exact absurd hm hne
          · exact .inr hm
      · rw [nodes, ht.eq, List.map_append, List.map_cons]
        exact List.mem_append_right _ List.mem_cons_self

/-- While no pass is under way, the line counts from the last time it was brought up to date. -/
theorem Inv.idle (h : Inv w s) (hthread : ∀ c, s.thread ≠ .run c) :
    Timed w s.pwu.line [] 0 s := by
  obtain ⟨before, rest, hcur, ht⟩ := h.line
  unfold Cursor at hcur
  split at hcur
  · exact absurd ‹_› (hthread _)
  · subst hcur
    exact ht.finish

theorem Inv.sleep (h : Inv w s) (hthread : s.thread = .top) (hok : s.StepOk w .sleep) :
    Inv w s.sleep := by
  have ht := h.idle fun c hrun => by
    rw [hthread] at hrun
    cases hrun
  refine ⟨⟨h.sane.func, h.sane.running, h.sane.save, h.sane.fired⟩, s.pwu.line, [], rfl, ?_⟩
  have htime := ht.time_le
  refine ⟨ht.eq, sound_nil, Nat.zero_le _, Nat.le_refl _, ht.nodup, ht.lt, fun p hp => ?_⟩
  have hkept := ht.kept
  rw [dues_nil] at hkept
  change p ∈ DeltaList.dues s.now 0 s.pwu.line [] at hp
  rw [dues_nil, show s.now = s.pwu.i64LastTime + (s.now - s.pwu.i64LastTime) by omega,
    times_add] at hp
  obtain ⟨q, hq, rfl⟩ := List.mem_map.mp hp
  rcases hok with hnow | hzero
  · rw [hnow, Nat.sub_self]
    exact hkept q hq
  · have := times_le_total hq
    refine (hkept q hq).later (Nat.le_add_right _ _) ?_
    dsimp only
    omega

theorem Inv.wake (h : Inv w s) (hthread : s.thread = .asleep false) (hok : s.StepOk w .wake) :
    Inv w (s.wake w) := by
  have ht := h.idle fun c hrun => by
    rw [hthread] at hrun
    cases hrun
  obtain ⟨hd, hrestart⟩ := hok hthread
  have hscan : Wakeup.Scan { s.pwu.passFirst with i64LastTime := s.now } [] s.pwu.line :=
    ⟨rfl, rfl⟩
  refine Sane.pass ?_ hscan ?_ hrestart
  · exact ⟨h.sane.func, h.sane.running, h.sane.save, h.sane.fired⟩
  · refine Wakeup.Held.start ht (hd.imp id fun hzero p hp t hle htime => ?_)
    have htotal := times_le_total hp
    have hlast := ht.time_le
    change t ≤ p.2 + (s.now - s.pwu.i64LastTime) at htime
    exact (ht.kept p (dues_nil.symm ▸ hp)).later hle (by omega)

theorem Inv.tick (h : Inv w s) (ticks : ℕ) : Inv w { s with now := s.now + ticks } := by
  obtain ⟨before, rest, hcur, ht⟩ := h.line
  refine ⟨⟨h.sane.func, h.sane.running, h.sane.save, h.sane.fired⟩, before, rest, hcur, ?_⟩
  refine Wakeup.Held.imp ht (fun n _ t hk => ⟨hk.1, ?_⟩) (Nat.le_add_right _ _)
  have hdue := hk.2
  change t = (s.tmr n).deadline ∨ (s.tmr n).deadline ≤ t ∧ t ≤ s.now + ticks
  omega

theorem Inv.step (h : Inv w s) {a : ITimerEvent} (hok : s.StepOk w a)
    (hs : s.step w a = some s') : Inv w s' := by
  cases a with
  | start n ulInitCounter ulCounter autoRestart cbTimerRoutine pvArg =>
    simp only [ITimerSys.step, Option.ite_none_right_eq_some, Option.some.injEq] at hs
    obtain ⟨⟨hinit, hcounter⟩, rfl⟩ := hs
    exact h.start hinit hcounter hok
  | reset n =>
    cases hs
    exact h.reset hok
  | cancel n =>
    cases hs
    exact h.cancel hok
  | sleep =>
    rw [ITimerSys.step] at hs
    split at hs
    · cases hs
      exact h.sleep ‹_› hok
    · cases hs
  | wake =>
    rw [ITimerSys.step] at hs
    split at hs
    · next hthread =>
      cases hs
      have ht := h.idle fun c hrun => by
        rw [hthread] at hrun
        cases hrun
      exact ⟨⟨h.sane.func, h.sane.running, h.sane.save, h.sane.fired⟩, s.pwu.line, [], rfl, ht⟩
    · cases hs
      exact h.wake ‹_› hok
    · cases hs
  | resume =>
    rw [ITimerSys.step] at hs
    split at hs
    · next ulCounter hthread =>
      cases hs
      obtain ⟨before, rest, hcur, ht⟩ := h.line
      have hparts := ht.parts_eq hcur
      have hleft : s.left = ulCounter := by rw [left, hthread]
      have hok : s.RestartOk s.parts.1 s.parts.2 s.left := hok
      rw [hparts, hleft] at hok
      rw [hleft] at ht
      unfold Cursor at hcur
      rw [hthread] at hcur
      exact h.sane.pass ⟨ht.eq, hcur⟩ ht hok
    · cases hs
  | tick ticks =>
    cases hs
    exact h.tick ticks

theorem Init.inv (h : s.Init) : Inv w s := by
  have hline : s.pwu.line = [] := by rw [h.pwu]
  refine ⟨⟨?_, fun n => ?_, fun n => ?_, ?_⟩, [], [], ?_, ?_⟩
  · rw [h.pwu]
  · rw [(h.tmr n).1, nodes, hline]
    exact iff_of_false Bool.false_ne_true List.not_mem_nil
  · rw [(h.tmr n).2]
    exact Nat.two_pow_pos w
  · rw [h.fired]
    rintro x ⟨⟩
  · unfold Cursor
    rw [h.thread]
  · have hleft : s.left = 0 := by rw [left, h.thread]
    have hlast : s.pwu.i64LastTime = 0 := by rw [h.pwu]
    rw [Timed, hline, hleft, hlast]
    exact Wakeup.held_nil (Nat.le_refl _) (Nat.zero_le _)

theorem Inv.safe (h : Inv w s) : s.Safe := by
  obtain ⟨before, rest, hcur, ht⟩ := h.line
  refine ⟨h.sane.fired, ?_⟩
  rw [dues, ht.parts_eq hcur]
  exact ht.kept

/-- In every run that keeps to the condition, timers are fired no earlier than they should be, and keep
their deadlines. -/
theorem itimer_safe (h : Reach (fun s => s.step w) (StepOk w) Init s) : s.Safe := by
  have hinv : Inv w s := h.invariant (fun _ => Init.inv) fun _ _ _ hi => hi.step
  exact hinv.safe

/-- A system in which no timer has been started. -/
def create : ITimerSys where
  pwu := ⟨[], none, 0, true⟩
  tmr := fun _ => ⟨0, false, false, 0, 0, 0, 0⟩
  thread := .top
  now := 0
  fired := []

theorem create_init : create.Init := ⟨rfl, fun _ => ⟨rfl, rfl⟩, rfl, rfl⟩

/-- A timer with a period of 60 is fired two ticks late and put back, and another one is fired. -/
theorem itimer_safe_two : ∃ s : ITimerSys,
    s.fired.map (fun x => (x.ptmr, x.time)) = [(1, 12), (2, 12)] ∧ s.Safe := by
  have hstart : Reach (fun s => step 32 s) (StepOk 32) Init create := .start create_init
  have hone := hstart.extend (.start 1 10 60 true (some 7) 0)
    (.inr (.inr ⟨fun hrun => absurd hrun Bool.false_ne_true, .inl rfl, .inl rfl⟩)) rfl
  have htwo := hone.extend (.start 2 12 0 false (some 8) 0)
    (.inr (.inr ⟨fun hrun => absurd hrun Bool.false_ne_true, .inr (by decide), .inl rfl⟩)) rfl
  have hsleep := (htwo.extend .sleep (.inl rfl) rfl).extend (.tick 12) trivial rfl
  have hwake := hsleep.extend .wake (fun _ => ⟨.inl (by decide), fun e he _ _ => by
    cases he
    exact (if_pos (by decide)).mpr rfl⟩) rfl
  have hrun := hwake.extend .resume (fun e he _ hauto => by
    cases he
    exact absurd hauto Bool.false_ne_true) rfl
  exact ⟨_, rfl, itimer_safe hrun⟩

/-- A timer with a period of 60 that is fired 50 ticks late is put back before one that is due 50 ticks
later, and makes the pass find that one due. -/
theorem itimer_early : ∃ s : ITimerSys, Reach (fun s => step 32 s) (fun _ _ => True) Init s ∧
    s.fired.map (fun x => (x.ptmr, x.deadline, x.time)) = [(1, 10, 60), (2, 110, 60)] := by
  have hruns : runs (fun s => step 32 s) create
      [.start 1 10 60 true (some 7) 0, .start 2 110 0 false (some 8) 0, .sleep, .tick 60, .wake,
        .resume] = some _ := rfl
  exact ⟨_, (Reach.start create_init).of_runs hruns, rfl⟩

end ITimerSys

end SylixOS.Kernel
