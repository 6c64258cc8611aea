import SylixOS.Kernel.SchedTurns
import Mathlib.Data.Fin.VecNotation

/-! # Round robin

In a run in which no two threads without slice meet in a ring, a thread becomes a candidate only with
some of its slice left, and one that has used up its slice not again before the threads that wait in
its ring. The ring of a CPU goes before the global one of the same priority, so that this is no
promise to the threads of the other ring.
-/

namespace SylixOS.Kernel.Sched
open Lib

variable {T C : Type} [DecidableEq T] [DecidableEq C] {s s' : Sched T C} {t u : T}
  {b : Option C × Prio} {k : List C} {op : SchedOp T C}

/-- The thread becomes the candidate of a CPU. -/
def Installs (s s' : Sched T C) (t : T) : Prop := ∃ c, s.cand c ≠ some t ∧ s'.cand c = some t

instance Installs.decidable [Fintype C] (s s' : Sched T C) (t : T) : Decidable (s.Installs s' t) :=
  inferInstanceAs (Decidable (∃ c : C, s.cand c ≠ some t ∧ s'.cand c = some t))

/-- What a run of turns keeps to. -/
structure RrOk (s : Sched T C) (op : SchedOp T C) : Prop where
  running : s.Running op
  spaced : s.Spaced op

instance RrOk.decidable (s : Sched T C) (op : SchedOp T C) : Decidable (s.RrOk op) :=
  decidable_of_iff (s.Running op ∧ s.Spaced op) ⟨fun h => ⟨h.1, h.2⟩, fun h => ⟨h.1, h.2⟩⟩

/-- The scheduler before any CPU is active, with threads that have slices. -/
structure RrInit (s : Sched T C) : Prop extends Init s where
  slice : ∀ t, (s.tcb t).usSchedSlice ≠ 0

/-- A tick, or an update of a candidate. -/
def SchedOp.Turns : SchedOp T C → Prop
  | .tick _ _ => True
  | .update _ => True
  | _ => False

/-- What the slices are for. -/
structure RoundRobin (cpus : List C) (s : Sched T C) : Prop where
  /-- A thread becomes a candidate only with some of its slice left. -/
  slice : ∀ op s' t, s.RrOk op → s.step cpus op = some s' → s.Installs s' t →
    (s'.tcb t).usSchedCounter ≠ 0
  /-- Between two times at which a thread becomes a candidate and between which it uses up its slice,
  every other thread that has waited in its ring from the first time on becomes one. -/
  turn : ∀ op s₁ ops s₂ op' s₃ t u, s.RrOk op → s.step cpus op = some s₁ → s.Installs s₁ t →
    u ∈ s₁.pcb (s₁.getPcb t) →
    Along (step cpus) (fun s op => s.RrOk op ∧ ¬ op.Moves t ∧ ¬ op.Moves u) s₁ (ops ++ [op']) →
    runs (step cpus) s₁ ops = some s₂ → s₂.step cpus op' = some s₃ → s₂.Installs s₃ t →
    Sometime (step cpus) (fun _ s => (s.tcb t).usSchedCounter = 0) s₁ ops →
    Sometime (step cpus) (fun s s' => s.Installs s' u) s₁ ops
  /-- On one CPU ticks and updates let no two threads without slice meet. -/
  alone : ∀ ops, (∀ t, (s.tcb t).ready = true → (s.tcb t).usSchedCounter ≠ 0) →
    (∀ c e, (s.cpu c).active = true → (s.cpu e).active = true → c = e) →
    Along (step cpus) (fun s op => s.Running op ∧ op.Turns) s ops → Along (step cpus) RrOk s ops

/-- What a run of turns keeps. -/
structure RrInv (s : Sched T C) : Prop where
  inv : Inv s
  fit : s.rota.Fit

omit [DecidableEq T] [DecidableEq C] in
theorem RrInit.rrInv (h : RrInit s) : RrInv s where
  inv := h.toInit.inv
  fit := by
    refine ⟨fun b => ?_, fun b t ht => ?_, fun c t b hc => ?_, fun c e t hc => ?_, fun b t ht => ?_,
      h.slice⟩
    · simp [Sched.rota, h.pcb]
    · simp [Sched.rota, h.pcb] at ht
    · simp [Sched.rota, h.cand] at hc
    · simp [Sched.rota, h.cand] at hc
    · simp [Sched.rota, h.pcb] at ht

theorem RrInv.step (h : RrInv s) (hok : s.RrOk op) (hs : s.step k op = some s') : RrInv s' where
  inv := h.inv.step hs
  fit := (h.inv.turns hok.running hok.spaced hs).fit h.fit

omit [DecidableEq T] [DecidableEq C] in
/-- A thread that has waited in a ring and is a candidate has become one. -/
theorem RrInv.installs (h : RrInv s) (hu : u ∈ s.pcb b) (hc : ∃ c, s'.cand c = some u) :
    s.Installs s' u := by
  obtain ⟨c, hc⟩ := hc
  exact ⟨c, fun hcu => h.fit.apart c u b hcu hu, hc⟩

/-- A waiting thread stays in the ring until it becomes a candidate. -/
theorem RrInv.step_mem (h : RrInv s) (hu : u ∈ s.pcb (s.getPcb t))
    (hok : s.RrOk op ∧ ¬ op.Moves t ∧ ¬ op.Moves u) (hs : s.step k op = some s') :
    (RrInv s' ∧ u ∈ s'.pcb (s'.getPcb t)) ∨ s.Installs s' u := by
  have hstep := h.inv.turns hok.1.running hok.1.spaced hs
  obtain hc | hmem := hstep.mem hok.2.2 hok.2.1 hu
  · exact .inr (h.installs hu hc)
  · exact .inl ⟨h.step hok.1 hs, hmem⟩

/-- A waiting thread becomes a candidate before one that has used up its slice does so again. -/
theorem RrInv.step_waits (h : RrInv s) (hut : u ≠ t) (hw : Rota.Waits u t s.rota)
    (hok : s.RrOk op ∧ ¬ op.Moves t ∧ ¬ op.Moves u) (hs : s.step k op = some s') :
    ¬ s.Installs s' t ∧ ((RrInv s' ∧ Rota.Waits u t s'.rota) ∨ s.Installs s' u) := by
  have hstep := h.inv.turns hok.1.running hok.1.spaced hs
  obtain ⟨hplace, hwaits⟩ := hstep.waits h.fit hut hok.2.2 hok.2.1 hw
  refine ⟨?_, ?_⟩
  · rintro ⟨c, hc, hc'⟩
    exact hc (hplace c hc')
  · obtain hc | hw' := hwaits
    · exact .inr (h.installs hw.1 hc)
    · exact .inl ⟨h.step hok.1 hs, hw'⟩

/-- One CPU is active, and nothing but the first thread of a ring is without slice. -/
structure OneCpu (s : Sched T C) : Prop where
  rrInv : RrInv s
  active : ∀ c e, (s.cpu c).active = true → (s.cpu e).active = true → c = e
  solo : s.rota.Solo

omit [DecidableEq T] [DecidableEq C] in
theorem RrInv.one (h : RrInv s)
    (hact : ∀ c e, (s.cpu c).active = true → (s.cpu e).active = true → c = e) (c e : C) (t u : T)
    (hc : s.cand c = some t) (he : s.cand e = some u) : c = e :=
  hact c e ((h.inv.candOk c).mpr (by simp [hc])) ((h.inv.candOk e).mpr (by simp [he]))

omit [DecidableEq T] [DecidableEq C] in
theorem RrInv.oneCpu (h : RrInv s)
    (hleft : ∀ t, (s.tcb t).ready = true → (s.tcb t).usSchedCounter ≠ 0)
    (hact : ∀ c e, (s.cpu c).active = true → (s.cpu e).active = true → c = e) : OneCpu s where
  rrInv := h
  active := hact
  solo := by
    have hring {b : Option C × Prio} {u : T} (hu : u ∈ s.pcb b) : (s.tcb u).usSchedCounter ≠ 0 :=
      hleft u ((h.inv.placed.mem b u).mp hu).1
    exact ⟨h.one hact, fun b u hu => hring (List.mem_of_mem_tail hu), fun c t _ u hu => hring hu⟩

omit [DecidableEq T] [DecidableEq C] in
theorem OneCpu.rrOk (h : OneCpu s) (hrun : s.Running op) (hop : op.Turns) : s.RrOk op := by
  refine ⟨hrun, ?_⟩
  cases op with
  | tick c t => exact fun x hx => by simp [enters] at hx
  | update c =>
    rintro ⟨t, b⟩ hx ht u hu -
    simp only [enters, Option.bind_eq_bind, Option.mem_def, Option.bind_eq_some_iff] at hx
    obtain ⟨ptcb, hcand, ppcb, -, hx⟩ := hx
    split_ifs at hx
    rw [Option.some.injEq, Prod.mk.injEq] at hx
    obtain ⟨rfl, rfl⟩ := hx
    exact h.solo.others c ptcb hcand u hu
  | add | del | remove | setPrio | setAffinity | active | inactive | yield | onlyAffinity =>
    exact hop.elim

theorem OneCpu.step (h : OneCpu s) (hrun : s.Running op) (hop : op.Turns)
    (hs : s.step k op = some s') : OneCpu s' := by
  have hok := h.rrOk hrun hop
  have hinv := h.rrInv.step hok hs
  have hturns := h.rrInv.inv.turns hrun hok.spaced hs
  have hcpu : (∀ c, (s'.cpu c).active = (s.cpu c).active) ∧
      Rota.Step (fun _ => False) s.rota s'.rota := by
    cases op with
    | tick c t =>
      refine ⟨fun e => ?_, hturns⟩
      rw [Sched.step, Option.some.injEq] at hs
      subst hs
      unfold schedTick
      split_ifs
      · exact (rotOnly_candRot true).frame.active e
      · rfl
      · rfl
    | update c => exact ⟨(candTableUpdate_some h.rrInv.inv.placed hs).2.1.active, hturns⟩
    | add | del | remove | setPrio | setAffinity | active | inactive | yield | onlyAffinity =>
      exact hop.elim
  have hact : ∀ c e, (s'.cpu c).active = true → (s'.cpu e).active = true → c = e := by
    intro c e hc he
    rw [hcpu.1] at hc he
    exact h.active c e hc he
  exact ⟨hinv, hact, hcpu.2.solo h.rrInv.fit h.solo (hinv.one hact)⟩

theorem RrInv.roundRobin (h : RrInv s) : RoundRobin k s where
  slice op s' t hok hs ht := by
    obtain ⟨c, hc, hc'⟩ := ht
    exact (h.inv.turns hok.running hok.spaced hs).left_ne h.fit hc hc'
  turn op s₁ ops s₂ op' s₃ t u hok hs ht hu halong hruns hlast hagain hspent := by
    have h₁ : RrInv s₁ := h.step hok hs
    have hut : u ≠ t := by
      rintro rfl
      obtain ⟨c, -, hc⟩ := ht
      exact h₁.fit.apart c u _ hc hu
    -- up to the state in which the slice is used up, the other thread waits
    obtain ⟨bs, cs, x, y, rfl, hy, hzero⟩ := hspent.split
    rw [List.append_assoc] at halong
    obtain ⟨hbs, halong⟩ := halong.append hy
    have hwait := hbs.keeps_or_sometime (Q := fun s s' => s.Installs s' u)
      (P := fun s => RrInv s ∧ u ∈ s.pcb (s.getPcb t))
      (fun s op s' hP hok hs => hP.1.step_mem hP.2 hok hs) ⟨h₁, hu⟩ hy
    obtain ⟨hinv, huy⟩ | hinstalled := hwait
    · -- from there on it stands before the thread in question
      rw [runs_append, hy, Option.bind_some] at hruns
      obtain ⟨hcs, halong⟩ := halong.append hruns
      have hwait := hcs.keeps_or_sometime (Q := fun s s' => s.Installs s' u)
        (P := fun s => RrInv s ∧ Rota.Waits u t s.rota)
        (fun s op s' hP hok hs => (hP.1.step_waits hut hP.2 hok hs).2) ⟨hinv, huy, .inl hzero⟩ hruns
      obtain ⟨hinv₂, hw⟩ | hinstalled := hwait
      · exact absurd hagain (hinv₂.step_waits hut hw halong.1 hlast).1
      · exact hinstalled.append_right hy
    · exact hinstalled.append_left
  alone ops hleft hact halong := by
    refine halong.of_invariant (P := OneCpu) (fun s op hs hok => hs.rrOk hok.1 hok.2) ?_
      (h.oneCpu hleft hact)
    intro s op s' hs hok hnext
    exact hs.step hok.1 hok.2 hnext

/-- In every run in which no two threads without slice meet in a ring, the scheduler goes round. -/
theorem round_robin (h : Reach (step k) RrOk RrInit s) : RoundRobin k s := by
  have hinv : RrInv s := by
    apply h.invariant (fun _ hi => hi.rrInv)
    intro s op s' hi hok hs
    exact hi.step hok hs
  exact hinv.roundRobin

/-- Two CPUs and threads with slices of one tick, some of them locked to the first CPU. -/
def oneTick (bCPULock : Fin 4 → Bool) (prios : Fin 4 → Prio) : Sched (Fin 4) (Fin 2) where
  tcb t :=
    { bCPULock := bCPULock t, ulCPULock := 0, ulCPUId := 0, bIsCand := false, ucSchedPolicy := .rr,
      ucSchedActivate := .other, ucSchedActivateMode := .auto, usSchedSlice := 1,
      usSchedCounter := 1, ucPriority := prios t, ready := false }
  cpu _ := { ptcbCand := none, bNeedRotate := false, active := false, bOnlyAffinity := false }
  rdy _ := { bmap := .bitmapInit, pcb := fun _ => [] }

theorem oneTick_init (bCPULock : Fin 4 → Bool) (prios : Fin 4 → Prio) :
    RrInit (oneTick bCPULock prios) :=
  ⟨⟨fun _ => rfl, fun _ => rfl, fun _ => rfl, fun _ => rfl, fun _ => rfl, fun _ => rfl⟩,
    fun _ => one_ne_zero⟩

/-- Two threads take turns on one CPU, and a more urgent one comes in between. -/
def takeTurns : List (SchedOp (Fin 4) (Fin 2)) :=
  [.add 0 .other, .add 1 .other, .active 0, .tick 0 0, .update 0, .add 2 .other, .update 0, .del 2,
    .tick 0 1, .update 0]

theorem round_robin_two : ∃ s, runs (step [0, 1]) (oneTick (fun _ => false) ![100, 100, 50, 50])
    takeTurns = some s ∧ s.cand 0 = some 0 ∧ RoundRobin [0, 1] s := by
  have hinit := oneTick_init (fun _ => false) ![100, 100, 50, 50]
  have halong : Along (step [0, 1]) RrOk (oneTick (fun _ => false) ![100, 100, 50, 50]) takeTurns := by
    decide
  exact ⟨_, rfl, rfl, round_robin (.of_along (.start hinit) halong
    (rfl : runs (step [0, 1]) (oneTick (fun _ => false) ![100, 100, 50, 50]) takeTurns = some _))⟩

/-- Two threads use up their slices on two CPUs, and two more urgent ones take these. -/
def bothSpent : List (SchedOp (Fin 4) (Fin 2)) :=
  [.add 0 .other, .add 1 .other, .active 0, .active 1, .tick 0 0, .tick 1 1, .add 2 .other,
    .update 0, .add 3 .other, .update 1, .setPrio 2 200]

/-- Three threads of one priority, two of them locked to the CPU. -/
def twoLocked : Sched (Fin 4) (Fin 2) := oneTick (fun t => decide (t < 2)) ![100, 100, 100, 200]

instance Eligible.decidable (s : Sched T C) (c : C) (b : Option C × Prio) :
    Decidable (s.Eligible c b) := inferInstanceAs (Decidable (_ ∨ _))

set_option synthInstance.maxSize 2000 in
/-- Where two threads with nothing left meet in a ring, the second one becomes the candidate as it is.
And of three threads that a CPU may run, the two that are locked to it take turns, while the third
one, which waits in the global ring, does not get one. -/
theorem not_round_robin :
    (∃ s ∈ runs (step [0, 1]) (oneTick (fun _ => false) ![100, 100, 50, 50]) bothSpent,
      ∃ s' ∈ s.candTableUpdate 0 [0, 1], s.Installs s' 0 ∧ (s'.tcb 0).usSchedCounter = 0) ∧
    ∃ s ∈ runs (step [0, 1]) twoLocked [.add 0 .other, .add 1 .other, .add 2 .other],
      ∃ s₁ ∈ s.step [0, 1] (.active 0), s.Installs s₁ 0 ∧
      ∃ s₂ ∈ runs (step [0, 1]) s₁ [.tick 0 0, .update 0, .tick 0 1],
      ∃ s₃ ∈ s₂.candTableUpdate 0 [0, 1], s₂.Installs s₃ 0 ∧
      Sometime (step [0, 1]) (fun _ s => (s.tcb 0).usSchedCounter = 0) s₁
        [.tick 0 0, .update 0, .tick 0 1] ∧
      Along (step [0, 1]) (fun s op => s.RrOk op ∧ (s.tcb 2).ready = true ∧
        (s.tcb 2).ucPriority = (s.tcb 0).ucPriority ∧ s.Eligible 0 (s.getPcb 2)) s₁
        [.tick 0 0, .update 0, .tick 0 1, .update 0] ∧
      ¬ Sometime (step [0, 1]) (fun s s' => s.Installs s' 2) s₁
        [.tick 0 0, .update 0, .tick 0 1, .update 0] := by
  refine ⟨?_, ?_⟩
  · decide +kernel
  · decide

end SylixOS.Kernel.Sched
