import SylixOS.Kernel.WakeupPass
import SylixOS.Lib.Reach
import Mathlib.Data.List.Perm.Basic
import Mathlib.Data.List.Range

/-! # The delayed work queue

Jobs wait in a wake-up line until their delays are over. A service thread passes over the line, and
calls the function of each job that is due out of the lock, with `WU_plineOp` on the node at which it
goes on. Jobs may be inserted and the queue may be flushed at any time, by the running job too. The
line counts from the time of the last pass, and an insertion does not bring it up to date.
-/

namespace SylixOS.Kernel
open Lib Lib.DeltaList Function

/-- `LW_WORK_DNODE`, whose counter is in the line. The code does not keep the number of the job among
the accepted ones, the time of its insertion, its delay and how many passes had been begun then. -/
structure WorkDnode where
  pfunc : Option ℕ
  pvArg : Fin 6 → ℕ
  seq : ℕ
  inserted : ℕ
  ulDelay : ℕ
  scans : ℕ

/-- The time before which a job is not to start. -/
def WorkDnode.due (pwdn : WorkDnode) : ℕ := pwdn.inserted + pwdn.ulDelay

/-- `LW_WORK_DQUEUE`. A node is the number of its cell in `DWQ_pwdnPool`. -/
structure WorkDqueue where
  wakeup : Wakeup
  pmonoPool : List ℕ
  pwdnPool : ℕ → WorkDnode
  ulSem : Bool
  uiCount : ℕ
  u64Time : ℕ

/-- Where the service thread is: waiting for the next pass, or calling a job, with what is left of
`ulCounter`. -/
inductive WorkExec where
  | idle
  | run (pwdn : WorkDnode) (ulCounter : ℕ)

/-- A queue with its service thread. `stale` are the nodes from `WU_plineOp` on when a flush has taken
them out of the line; `executed` has the jobs that were started and when, and `whole` says that each
pass took off all the time that had passed. -/
structure WorkSys where
  q : WorkDqueue
  exec : WorkExec
  stale : List WakeupNode
  now : ℕ
  accepted : ℕ
  executed : List (WorkDnode × ℕ)
  flushed : List ℕ
  scans : ℕ
  whole : Bool

inductive WorkEvent where
  /-- `__wqDInsert`. -/
  | insert (ulDelay : ℕ) (pfunc : Option ℕ) (pvArg : Fin 6 → ℕ)
  /-- `__wqDFlush` clears the semaphore. -/
  | clear
  /-- The locked section of `__wqDFlush`. -/
  | flush
  /-- `__wqDExec` up to the first job that it calls. -/
  | exec
  /-- `__wqDExec` goes on after a job. -/
  | resume
  | tick (ticks : ℕ)

/-- A value stored in a `UINT`. -/
def uint32 (n : ℕ) : ℕ := n % 2 ^ 32

/-- The queue that `__wqDCreate` makes for `uiQSize` jobs. -/
def WorkDqueue.create (pwdnPool : ℕ → WorkDnode) (uiQSize now : ℕ) : WorkDqueue where
  wakeup := ⟨[], none, 0, false⟩
  pmonoPool := (List.range uiQSize).reverse
  pwdnPool := pwdnPool
  ulSem := false
  uiCount := 0
  u64Time := now

namespace WorkSys
variable (w : ℕ) (s : WorkSys)

/-- The nodes in the line. -/
def nodes : List ℕ := s.q.wakeup.line.map Entry.key

/-- The jobs in the line. -/
def queued : List ℕ := s.nodes.map fun pwdn => (s.q.pwdnPool pwdn).seq

/-- What is left of `ulCounter`. -/
def left : ℕ :=
  match s.exec with
  | .idle => 0
  | .run _ ulCounter => ulCounter

/-- The nodes before the one at which the pass goes on, and the nodes from it on. -/
def parts : List WakeupNode × List WakeupNode :=
  match s.exec with
  | .idle => (s.q.wakeup.line, [])
  | .run _ _ => s.q.wakeup.parts

/-- `__wqDInsert`; without a free node it returns `ENOSPC`. -/
def wqDInsert (ulDelay : ℕ) (pfunc : Option ℕ) (pvArg : Fin 6 → ℕ) : WorkSys :=
  match s.q.pmonoPool with
  | [] => s
  | pwdn :: pmonoPool =>
    { s with
      q := { s.q with
        wakeup := s.q.wakeup.add w s.now pwdn ulDelay false
        pmonoPool
        pwdnPool := update s.q.pwdnPool pwdn
          ⟨pfunc, pvArg, s.accepted, s.now, ulDelay, s.scans⟩
        ulSem := true
        uiCount := uint32 (s.q.uiCount + 1) }
      accepted := s.accepted + 1 }

/-- The locked section of `__wqDFlush`. It leaves `WU_plineOp` as it is, and the links of the nodes. -/
def wqDFlush : WorkSys :=
  { s with
    q := { s.q with
      wakeup := { s.q.wakeup with line := [] }
      pmonoPool := s.nodes.reverse ++ s.q.pmonoPool
      uiCount := 0 }
    stale := s.stale ++ s.parts.2
    flushed := s.flushed ++ s.queued }

/-- A node that is due has left the line: its job is copied, the node is freed, and the job is called
out of the lock. -/
def call (wakeup : Wakeup) (pwdn ulCounter : ℕ) : WorkSys :=
  { s with
    q := { s.q with
      wakeup
      pmonoPool := pwdn :: s.q.pmonoPool
      uiCount := uint32 (s.q.uiCount + (2 ^ 32 - 1)) }
    exec := .run (s.q.pwdnPool pwdn) ulCounter
    stale := []
    executed := s.executed ++ [(s.q.pwdnPool pwdn, s.now)] }

/-- A locked section of `__wqDExec` from the loop on. -/
def pass (ulCounter : ℕ) : WorkSys :=
  match s.stale with
  | [] =>
    match s.q.wakeup.passNext ulCounter with
    | (wakeup, none) => { s with q := { s.q with wakeup }, exec := .idle }
    | (wakeup, some (pwdn, ulCounter)) =>
      s.call (wakeup.del w s.now pwdn false) pwdn ulCounter
  -- the node is in the pool, and taking it out of the line makes the header its successor
  | e :: r =>
    let plineOp := (r.map Entry.key).head?
    if ulCounter < e.delta then
      { s with q := { s.q with wakeup := { s.q.wakeup with plineOp } }, exec := .idle, stale := [] }
    else s.call { s.q.wakeup with line := r, plineOp } e.key (ulCounter - e.delta)

/-- `__wqDExec` from the semaphore on, which it takes or stops waiting for. -/
def wqDExec : WorkSys :=
  { s with
    q := { s.q with wakeup := s.q.wakeup.passFirst, ulSem := false, u64Time := s.now }
    scans := s.scans + 1
    whole := s.whole && decide (s.now - s.q.u64Time < 2 ^ w) }.pass w
      (ulong w (s.now - s.q.u64Time))

/-- One step of a system with a `ULONG` of `w` bits. When a flush has left `WU_plineOp` at a free node,
the system is not followed beyond an insertion, which may use that node. -/
def step : WorkEvent → Option WorkSys
  | .insert ulDelay pfunc pvArg =>
    if ulDelay < 2 ^ w ∧ s.stale = [] ∧ s.q.pmonoPool.Nodup then
      some (s.wqDInsert w ulDelay pfunc pvArg)
    else none
  | .clear => some { s with q := { s.q with ulSem := false } }
  | .flush => some s.wqDFlush
  | .exec =>
    match s.exec with
    | .idle => some (s.wqDExec w)
    | .run _ _ => none
  | .resume =>
    match s.exec with
    | .idle => none
    | .run _ ulCounter => some (s.pass w ulCounter)
  | .tick ticks => some { s with now := s.now + ticks }

/-- A queue that has just been created. -/
structure Init (uiQSize : ℕ) : Prop where
  size : 0 < uiQSize ∧ uiQSize < 2 ^ 32
  create : ∃ pwdnPool, s.q = .create pwdnPool uiQSize s.now
  exec : s.exec = .idle
  stale : s.stale = []
  accepted : s.accepted = 0
  executed : s.executed = []
  flushed : s.flushed = []
  whole : s.whole = true

/-- A job is inserted without a delay, or at the time of the last pass, and then either nothing is left
of its `ulCounter`, or the job goes before the node at which the pass goes on and no node there falls
due after the pass and no later than the job. The queue is flushed when no pass is under way or it has
come to the end of the line. -/
def StepOk : WorkEvent → Prop
  | .insert ulDelay _ _ =>
    s.q.pmonoPool = [] ∨ ulDelay = 0 ∨ s.now = s.q.u64Time ∧
      (s.left = 0 ∨ ¬ Behind ulDelay s.parts.1 s.parts.2 ∧
        InsertOk ulDelay s.parts.1 s.parts.2 s.left)
  | .flush => s.parts.2 = []
  | _ => True

/-- Every accepted job is in the line, has been started once, or has been flushed; no job was started
before its delay was over; the counter counts the jobs in the line; every node is in the line or in the
pool; and a pass that took off all the time leaves no job that was due when it began. -/
structure Safe (uiQSize : ℕ) : Prop where
  once : (s.queued ++ s.executed.map (fun x => x.1.seq) ++ s.flushed).Perm (List.range s.accepted)
  delayed : ∀ x ∈ s.executed, x.1.due ≤ x.2
  count : s.q.uiCount = s.q.wakeup.line.length
  nodes : (s.nodes ++ s.q.pmonoPool).Perm (List.range uiQSize)
  prompt : s.exec = .idle → s.whole → ∀ n ∈ s.nodes,
    (s.q.pwdnPool n).scans < s.scans → s.q.u64Time < (s.q.pwdnPool n).due

/-! ## The line holds the times of its jobs -/

/-- Every node and every job is accounted for. -/
structure Accounted (uiQSize : ℕ) (s : WorkSys) : Prop where
  size : uiQSize < 2 ^ 32
  nodes : (s.nodes ++ s.q.pmonoPool).Perm (List.range uiQSize)
  count : s.q.uiCount = s.nodes.length
  once : (s.queued ++ s.executed.map (fun x => x.1.seq) ++ s.flushed).Perm (List.range s.accepted)
  delayed : ∀ x ∈ s.executed, x.1.due ≤ x.2

/-- A job does not fall due in the line before it is due, and not later. -/
def Ok (s : WorkSys) (n t : ℕ) : Prop :=
  ((s.q.pwdnPool n).due ≤ t ∨ (s.q.pwdnPool n).due ≤ s.now) ∧
    (s.whole → t ≤ (s.q.pwdnPool n).due)

/-- The line of a queue whose pass has come to the nodes `rest` with `left` of its `ulCounter`. -/
def Timed (w : ℕ) (before rest : List WakeupNode) (left : ℕ) (s : WorkSys) : Prop :=
  Wakeup.Held w s.q.u64Time s.now s.Ok before rest left s.q.wakeup.line

/-- The nodes before the cursor have been added in this pass. -/
def Fresh (s : WorkSys) (before : List WakeupNode) : Prop :=
  ∀ n ∈ before.map Entry.key, s.scans ≤ (s.q.pwdnPool n).scans

/-- The nodes that were there when the last pass began are not due. -/
def Passed (s : WorkSys) : Prop :=
  ∀ p ∈ times s.q.u64Time s.q.wakeup.line, (s.q.pwdnPool p.1).scans < s.scans → s.q.u64Time < p.2

/-- The invariant, by where the service thread is. -/
structure Inv (w uiQSize : ℕ) (s : WorkSys) : Prop where
  stale : s.stale = []
  acct : Accounted uiQSize s
  line : s.exec = .idle ∧ Timed w s.q.wakeup.line [] 0 s ∧ s.Passed ∨
    ∃ pwdn ulCounter before rest, s.exec = .run pwdn ulCounter ∧
      s.q.wakeup.Scan before rest ∧ Timed w before rest ulCounter s ∧ s.Fresh before

variable {w uiQSize left c pwdn : ℕ} {s s' : WorkSys} {before rest r : List WakeupNode}
  {e : WakeupNode} {pfunc : Option ℕ} {pvArg : Fin 6 → ℕ} {wakeup : Wakeup} {pool : List ℕ}

theorem Accounted.nodup (h : Accounted uiQSize s) : (s.nodes ++ s.q.pmonoPool).Nodup :=
  h.nodes.nodup_iff.mpr List.nodup_range

theorem Accounted.line_nodup (h : Accounted uiQSize s) :
    (s.q.wakeup.line.map Entry.key).Nodup := h.nodup.of_append_left

/-- A line with the same nodes. -/
theorem Accounted.keys (h : Accounted uiQSize s) (hk : wakeup.line.map Entry.key = s.nodes)
    (exec : WorkExec) : Accounted uiQSize { s with q := { s.q with wakeup }, exec } := by
  constructor
  · exact h.size
  · change (wakeup.line.map Entry.key ++ _).Perm _
    rw [hk]
    exact h.nodes
  · change _ = (wakeup.line.map Entry.key).length
    rw [hk]
    exact h.count
  · change (List.map _ (wakeup.line.map Entry.key) ++ _ ++ _).Perm _
    rw [hk]
    exact h.once
  · exact h.delayed

/-- What the pass did not find due was not due when it began. -/
theorem Timed.passed (h : Timed w before (e :: r) left s) (hf : s.Fresh before)
    (he : left < e.delta)
    (hline : wakeup.line = before ++ { e with delta := e.delta - left } :: r) (exec : WorkExec) :
    Passed { s with q := { s.q with wakeup }, exec } := by
  intro p hp hscan
  change p ∈ times s.q.u64Time wakeup.line at hp
  rw [hline, times_stop he h.left_le, dues, List.mem_append] at hp
  rcases hp with hp | hp
  · have hmem : p.1 ∈ before.map Entry.key := by
      rw [← times_map_fst (t := s.q.u64Time)]
      exact List.mem_map_of_mem hp
    exact absurd hscan (Nat.not_lt.mpr (hf _ hmem))
  · rw [times, List.mem_cons] at hp
    change s.q.u64Time < p.2
    have hle := h.left_le
    rcases hp with rfl | hp
    · dsimp only
      omega
    · have := le_times hp
      omega

/-- The node of a job that is called. -/
theorem Accounted.call (h : Accounted uiQSize s)
    (hline : s.q.wakeup.line = before ++ e :: r) (hw : wakeup.line = before ++ r)
    (hdue : (s.q.pwdnPool e.key).due ≤ s.now) (c : ℕ) :
    Accounted uiQSize (s.call wakeup e.key c) := by
  have hnodes : s.nodes = before.map Entry.key ++ e.key :: r.map Entry.key := by
    rw [WorkSys.nodes, hline, List.map_append, List.map_cons]
  have hnodes' : (s.call wakeup e.key c).nodes = before.map Entry.key ++ r.map Entry.key := by
    change wakeup.line.map Entry.key = _
    rw [hw, List.map_append]
  have hlen : s.nodes.length ≤ uiQSize := by
    have := h.nodes.length_eq
    rw [List.length_append, List.length_range] at this
    omega
  constructor
  · exact h.size
  · rw [hnodes']
    refine .trans ?_ h.nodes
    rw [hnodes]
    change (_ ++ e.key :: s.q.pmonoPool).Perm _
    rw [List.append_assoc, List.append_assoc, List.cons_append]
    exact (List.perm_middle).append_left _
  · have hcount := h.count
    have hsize := h.size
    rw [hnodes'] at *
    change uint32 (s.q.uiCount + (2 ^ 32 - 1)) = _
    rw [hnodes, List.length_append, List.length_cons] at hcount hlen
    rw [hcount, uint32, List.length_append]
    omega
  · refine .trans ?_ h.once
    have hqueued : (s.call wakeup e.key c).queued =
        (before.map Entry.key ++ r.map Entry.key).map fun n => (s.q.pwdnPool n).seq := by
      rw [queued, hnodes']
      rfl
    rw [hqueued, queued, hnodes]
    change (_ ++ (s.executed ++ [_]).map _ ++ s.flushed).Perm _
    rw [List.perm_iff_count]
    intro n
    simp only [List.map_append, List.map_cons, List.map_nil, List.count_append, List.count_cons,
      List.count_nil]
    omega
  · intro x hx
    change x ∈ s.executed ++ [_] at hx
    rw [List.mem_append, List.mem_singleton] at hx
    rcases hx with hx | rfl
    · exact h.delayed x hx
    · exact hdue

/-- Every node of the line is fresh when the pass has come to its end. -/
theorem Fresh.passed (h : s.Fresh s.q.wakeup.line) (exec : WorkExec) : Passed { s with exec } := by
  intro p hp hlt
  have hmem : p.1 ∈ s.q.wakeup.line.map Entry.key := by
    rw [← times_map_fst (t := s.q.u64Time)]
    exact List.mem_map_of_mem hp
  exact absurd hlt (Nat.not_lt.mpr (h _ hmem))

/-- The service thread goes on until it calls a job or comes to the end of the pass. -/
theorem Accounted.pass (h : Accounted uiQSize s) (hs : s.stale = [])
    (hscan : s.q.wakeup.Scan before rest) (ht : Timed w before rest left s)
    (hf : s.Fresh before) : Inv w uiQSize (s.pass w left) := by
  cases rest with
  | nil =>
    have hpass : s.pass w left = { s with exec := .idle } := by
      rw [WorkSys.pass, hs]
      dsimp only
      rw [hscan.passNext_nil]
    have hline : s.q.wakeup.line = before := by rw [ht.eq, List.append_nil]
    rw [hpass]
    exact ⟨hs, h.keys rfl _, .inl ⟨rfl, ht.finish, Fresh.passed (hline ▸ hf) _⟩⟩
  | cons e r =>
    by_cases he : left < e.delta
    · have hpass := hscan.passNext_stop h.line_nodup he
      have heq : s.pass w left =
          { s with q := { s.q with wakeup := (s.q.wakeup.passNext left).1 }, exec := .idle } := by
        rw [WorkSys.pass, hs]
        dsimp only
        rw [hpass]
      obtain ⟨hkeys, hstop⟩ := ht.stop he rfl
      rw [heq, hpass]
      exact ⟨hs, h.keys hkeys _, .inl ⟨rfl, hstop, ht.passed hf he rfl _⟩⟩
    · have he := Nat.le_of_not_lt he
      obtain ⟨wakeup, hpass, htake⟩ :=
        hscan.take s.now h.line_nodup (fun _ => ht.delta_lt) he
      have heq : s.pass w left = s.call { s.q.wakeup with
          line := before ++ r
          plineOp := (r.map Entry.key).head? } e.key (left - e.delta) := by
        rw [WorkSys.pass, hs]
        dsimp only
        rw [hpass]
        dsimp only
        rw [htake]
      obtain ⟨⟨t, hok, -, hdue⟩, htimed⟩ := ht.take he rfl
      have htime := ht.time_le
      have hnow : (s.q.pwdnPool e.key).due ≤ s.now := by
        rcases hok.1 with hearly | hearly <;> omega
      rw [heq]
      exact ⟨rfl, h.call ht.eq rfl hnow _,
        .inr ⟨_, _, before, r, rfl, ⟨rfl, rfl⟩, htimed, hf⟩⟩

/-- A pass begins at the first node, with the time that has passed. -/
theorem Inv.exec (h : Inv w uiQSize s) (he : s.exec = .idle) : Inv w uiQSize (s.wqDExec w) := by
  rcases h.line with ⟨-, ht, -⟩ | ⟨x, c, before, rest, hrun, -⟩
  · have hscan : s.q.wakeup.passFirst.Scan [] s.q.wakeup.line := Wakeup.scan_passFirst
    refine Accounted.pass ?_ h.stale hscan ?_ ?_
    · exact ⟨h.acct.size, h.acct.nodes, h.acct.count, h.acct.once, h.acct.delayed⟩
    · refine Wakeup.Held.start (ht.imp (fun n _ t hok => ⟨hok.1, fun hwhole => ?_⟩)
        (Nat.le_refl _)) ?_
      · by_cases hd : s.now - s.q.u64Time < 2 ^ w
        · exact .inl hd
        · right
          intro p hp t hle _
          have hok := ht.kept p (dues_nil.symm ▸ hp)
          refine ⟨hok.1.imp (fun hdue => Nat.le_trans hdue hle) id, fun hwhole => ?_⟩
          rw [Bool.and_eq_true, decide_eq_true_eq] at hwhole
          exact absurd hwhole.2 hd
      · rw [Bool.and_eq_true] at hwhole
        exact hok.2 hwhole.1
    · intro n hn
      cases hn
  · rw [he] at hrun
    cases hrun

/-- The queue after a job has been put into the node `pwdn`. -/
theorem wqDInsert_eq (hpool : s.q.pmonoPool = pwdn :: pool) : s.wqDInsert w c pfunc pvArg =
    { s with
      q := { s.q with
        wakeup := { s.q.wakeup with line := DeltaList.insert pwdn c s.q.wakeup.line }
        pmonoPool := pool
        pwdnPool := update s.q.pwdnPool pwdn ⟨pfunc, pvArg, s.accepted, s.now, c, s.scans⟩
        ulSem := true
        uiCount := uint32 (s.q.uiCount + 1) }
      accepted := s.accepted + 1 } := by
  rw [wqDInsert, hpool]
  dsimp only
  rw [Wakeup.add_false]

/-- A free node is not in the line. -/
theorem Accounted.free_ne (h : Accounted uiQSize s) (hpool : s.q.pmonoPool = pwdn :: pool) :
    ∀ n ∈ s.nodes, n ≠ pwdn := by
  intro n hn heq
  have hd := h.nodup
  rw [List.nodup_append, hpool] at hd
  exact hd.2.2 n hn pwdn List.mem_cons_self heq

theorem Accounted.insert (h : Accounted uiQSize s) (hpool : s.q.pmonoPool = pwdn :: pool) :
    Accounted uiQSize (s.wqDInsert w c pfunc pvArg) := by
  rw [wqDInsert_eq hpool]
  have hperm : ((DeltaList.insert pwdn c s.q.wakeup.line).map Entry.key).Perm (pwdn :: s.nodes) :=
    perm_insert
  have hne := h.free_ne hpool
  have hlen := h.nodes.length_eq
  rw [List.length_append, List.length_range, hpool, List.length_cons] at hlen
  constructor
  · exact h.size
  · change ((DeltaList.insert pwdn c s.q.wakeup.line).map Entry.key ++ pool).Perm _
    refine (hperm.append_right _).trans (.trans ?_ h.nodes)
    rw [hpool]
    exact List.perm_middle.symm
  · change uint32 (s.q.uiCount + 1) = ((DeltaList.insert pwdn c s.q.wakeup.line).map _).length
    have hsize := h.size
    rw [hperm.length_eq, List.length_cons, h.count, uint32]
    omega
  · have hqueued : (List.map (fun n => (update s.q.pwdnPool pwdn
          ⟨pfunc, pvArg, s.accepted, s.now, c, s.scans⟩ n).seq)
        ((DeltaList.insert pwdn c s.q.wakeup.line).map Entry.key)).Perm
          (s.accepted :: s.queued) := by
      refine (hperm.map _).trans ?_
      rw [List.map_cons, update_self]
      refine .cons _ (.of_eq (List.map_congr_left fun n hn => ?_))
      rw [update_of_ne (hne n hn)]
    refine ((hqueued.append_right _).append_right _).trans ?_
    change ((s.accepted :: s.queued) ++ _ ++ _).Perm (List.range (s.accepted + 1))
    rw [List.range_succ, List.cons_append, List.cons_append]
    exact (h.once.cons _).trans (List.perm_append_singleton _ _).symm
  · exact h.delayed

theorem Timed.insert (h : Timed w before rest left s) (ha : Accounted uiQSize s)
    (hpool : s.q.pmonoPool = pwdn :: pool) (hc : c < 2 ^ w)
    (hok : c = 0 ∨ s.now = s.q.u64Time ∧
      (left = 0 ∨ ¬ Behind c before rest ∧ InsertOk c before rest left)) :
    Timed w (place pwdn c before rest).1 (place pwdn c before rest).2 left
      (s.wqDInsert w c pfunc pvArg) := by
  have hinsert : InsertOk c before rest left := by
    rcases hok with rfl | ⟨-, rfl | hok⟩
    · exact insertOk_zero
    · exact h.sound.insertOk
    · exact hok.2
  have htime := h.time_le
  rw [wqDInsert_eq hpool]
  refine Wakeup.Held.insert h (fun hn => ha.free_ne hpool _ hn rfl) hc hinsert ?_ ?_
  · intro n t hne hok
    unfold Ok
    dsimp only
    rw [update_of_ne hne]
    exact hok
  · unfold Ok
    dsimp only
    rw [update_self]
    change (s.now + c ≤ _ ∨ s.now + c ≤ s.now) ∧ (_ → _ ≤ s.now + c)
    constructor
    · rcases hok with rfl | ⟨hnow, rfl | hok⟩
      · exact .inr (Nat.le_refl _)
      · left
        split_ifs <;> omega
      · left
        rw [if_neg hok.1]
        omega
    · intro _
      split_ifs <;> omega

theorem parts_idle (h : s.exec = .idle) : s.parts = (s.q.wakeup.line, []) ∧ s.left = 0 := by
  rw [parts, left, h]
  exact ⟨rfl, rfl⟩

theorem Accounted.parts_run (h : Accounted uiQSize s) {x : WorkDnode} (he : s.exec = .run x c)
    (hscan : s.q.wakeup.Scan before rest) : s.parts = (before, rest) ∧ s.left = c := by
  rw [parts, WorkSys.left, he]
  exact ⟨hscan.parts_eq h.line_nodup, rfl⟩

/-- A new job is not one that the last pass has left behind. -/
theorem Passed.insert (h : s.Passed) (hpool : s.q.pmonoPool = pwdn :: pool) :
    (s.wqDInsert w c pfunc pvArg).Passed := by
  obtain ⟨l, r, hl, hr, -⟩ := times_insert pwdn s.q.u64Time c s.q.wakeup.line
  rw [wqDInsert_eq hpool]
  intro p hp hlt
  dsimp only at hp hlt ⊢
  rw [hr] at hp
  by_cases heq : p.1 = pwdn
  · rw [heq, update_self] at hlt
    exact absurd hlt (Nat.lt_irrefl _)
  · rw [update_of_ne heq] at hlt
    refine h p ?_ hlt
    rw [hl]
    simp only [List.mem_append, List.mem_cons] at hp ⊢
    rcases hp with hp | rfl | hp
    · exact .inl hp
    · exact absurd rfl heq
    · exact .inr hp

theorem Inv.insert (h : Inv w uiQSize s) (hc : c < 2 ^ w)
    (hok : s.StepOk (.insert c pfunc pvArg)) : Inv w uiQSize (s.wqDInsert w c pfunc pvArg) := by
  cases hpool : s.q.pmonoPool with
  | nil =>
    rw [wqDInsert, hpool]
    exact h
  | cons pwdn pool =>
    have hok : c = 0 ∨ s.now = s.q.u64Time ∧ (s.left = 0 ∨ ¬ Behind c s.parts.1 s.parts.2 ∧
        InsertOk c s.parts.1 s.parts.2 s.left) := by
      rcases hok with hok | hok
      · rw [hpool] at hok
        cases hok
      · exact hok
    have hline : (s.wqDInsert w c pfunc pvArg).q.wakeup.line =
        DeltaList.insert pwdn c s.q.wakeup.line := by rw [wqDInsert_eq hpool]
    have hscans : ∀ n, n = pwdn ∨ s.scans ≤ (s.q.pwdnPool n).scans →
        s.scans ≤ ((s.wqDInsert w c pfunc pvArg).q.pwdnPool n).scans := by
      intro n hn
      rw [wqDInsert_eq hpool]
      dsimp only
      by_cases heq : n = pwdn
      · rw [heq, update_self]
      · rw [update_of_ne heq]
        exact hn.resolve_left heq
    refine ⟨?_, h.acct.insert hpool, ?_⟩
    · rw [wqDInsert_eq hpool]
      exact h.stale
    · rcases h.line with ⟨he, ht, hp⟩ | ⟨x, ulCounter, before, rest, he, hscan, ht, hf⟩
      · obtain ⟨hparts, hleft⟩ := parts_idle he
        rw [hparts, hleft] at hok
        have hti : Timed w _ _ 0 (s.wqDInsert w c pfunc pvArg) := ht.insert h.acct hpool hc hok
        refine .inl ⟨?_, ?_, ?_⟩
        · rw [wqDInsert_eq hpool]
          exact he
        · rw [place_nil] at hti
          exact hti.finish
        · exact hp.insert hpool
      · obtain ⟨hparts, hleft⟩ := h.acct.parts_run he hscan
        rw [hparts, hleft] at hok
        refine .inr ⟨x, ulCounter, _, _, ?_, ?_, ht.insert h.acct hpool hc hok, ?_⟩
        · rw [wqDInsert_eq hpool]
          exact he
        · have hadd := hscan.add w s.now pwdn c
          rw [Wakeup.add_false] at hadd
          rw [wqDInsert_eq hpool]
          exact hadd
        · intro n hn
          have hsame : (s.wqDInsert w c pfunc pvArg).scans = s.scans := by rw [wqDInsert_eq hpool]
          rw [hsame]
          exact hscans n ((key_place hn).imp id (hf n))

/-- A flush that finds no pass at a node empties the line. -/
theorem Inv.flush (h : Inv w uiQSize s) (hok : s.StepOk .flush) : Inv w uiQSize s.wqDFlush := by
  have hok : s.parts.2 = [] := hok
  have hempty : ∀ {b left}, Timed w b [] left s → Timed w [] [] left s.wqDFlush :=
    fun ht => Wakeup.held_nil ht.left_le ht.time_le
  refine ⟨?_, ⟨h.acct.size, ?_, rfl, ?_, h.acct.delayed⟩, ?_⟩
  · change s.stale ++ s.parts.2 = []
    rw [h.stale, hok]
    rfl
  · change (s.nodes.reverse ++ s.q.pmonoPool).Perm _
    exact ((List.reverse_perm _).append_right _).trans h.acct.nodes
  · change (s.executed.map _ ++ (s.flushed ++ s.queued)).Perm _
    refine .trans ?_ h.acct.once
    rw [List.append_assoc, ← List.append_assoc]
    exact List.perm_append_comm
  · rcases h.line with ⟨he, ht, -⟩ | ⟨x, c, before, rest, he, hscan, ht, -⟩
    · refine .inl ⟨he, hempty ht, ?_⟩
      rintro p ⟨⟩
    · obtain ⟨hparts, -⟩ := h.acct.parts_run he hscan
      rw [hparts] at hok
      subst hok
      refine .inr ⟨x, c, [], [], he, ⟨rfl, hscan.op⟩, hempty ht, ?_⟩
      intro n hn
      cases hn

theorem Timed.tick (h : Timed w before rest left s) (ticks : ℕ) :
    Timed w before rest left { s with now := s.now + ticks } :=
  Wakeup.Held.imp h
    (fun _ _ _ hok => ⟨hok.1.imp id fun hle => Nat.le_trans hle (Nat.le_add_right _ _), hok.2⟩)
    (Nat.le_add_right _ _)

theorem Inv.tick (h : Inv w uiQSize s) (ticks : ℕ) :
    Inv w uiQSize { s with now := s.now + ticks } := by
  refine ⟨h.stale, ⟨h.acct.size, h.acct.nodes, h.acct.count, h.acct.once, h.acct.delayed⟩, ?_⟩
  rcases h.line with ⟨he, ht, hp⟩ | ⟨x, c, before, rest, he, hscan, ht, hf⟩
  · exact .inl ⟨he, ht.tick ticks, hp⟩
  · exact .inr ⟨x, c, before, rest, he, hscan, ht.tick ticks, hf⟩

theorem Inv.step (h : Inv w uiQSize s) {a : WorkEvent} (hok : s.StepOk a)
    (hs : s.step w a = some s') : Inv w uiQSize s' := by
  cases a with
  | insert ulDelay pfunc pvArg =>
    simp only [WorkSys.step, Option.ite_none_right_eq_some, Option.some.injEq] at hs
    obtain ⟨⟨hc, -⟩, rfl⟩ := hs
    exact h.insert hc hok
  | clear =>
    cases hs
    refine ⟨h.stale, ⟨h.acct.size, h.acct.nodes, h.acct.count, h.acct.once, h.acct.delayed⟩, ?_⟩
    rcases h.line with ⟨he, ht, hp⟩ | ⟨x, c, before, rest, he, hscan, ht, hf⟩
    · exact .inl ⟨he, ht, hp⟩
    · exact .inr ⟨x, c, before, rest, he, hscan, ht, hf⟩
  | flush =>
    cases hs
    exact h.flush hok
  | exec =>
    rw [WorkSys.step] at hs
    split at hs
    · cases hs
      exact h.exec ‹_›
    · cases hs
  | resume =>
    rw [WorkSys.step] at hs
    split at hs
    · cases hs
    · rename_i x c he
      cases hs
      rcases h.line with ⟨hidle, -⟩ | ⟨x', c', before, rest, hrun, hscan, ht, hf⟩
      · rw [he] at hidle
        cases hidle
      · rw [he] at hrun
        cases hrun
        exact h.acct.pass h.stale hscan ht hf
  | tick ticks =>
    cases hs
    exact h.tick ticks

theorem Init.inv (h : s.Init uiQSize) : Inv w uiQSize s := by
  obtain ⟨pwdnPool, hq⟩ := h.create
  have hline : s.q.wakeup.line = [] := by rw [hq]; rfl
  have hnodes : s.nodes = [] := by rw [WorkSys.nodes, hline]; rfl
  refine ⟨h.stale, ⟨h.size.2, ?_, ?_, ?_, ?_⟩, .inl ⟨h.exec, ?_, ?_⟩⟩
  · rw [hnodes, hq]
    exact List.reverse_perm _
  · rw [hnodes, hq]
    rfl
  · rw [queued, hnodes, h.executed, h.flushed, h.accepted]
    rfl
  · rw [h.executed]
    intro x hx
    cases hx
  · rw [Timed, hline]
    refine Wakeup.held_nil (Nat.zero_le _) ?_
    rw [hq]
    exact Nat.le_refl _
  · intro p hp
    rw [hline] at hp
    cases hp

theorem Inv.safe (h : Inv w uiQSize s) : s.Safe uiQSize := by
  refine ⟨h.acct.once, h.acct.delayed, ?_, h.acct.nodes, ?_⟩
  · rw [h.acct.count, WorkSys.nodes, List.length_map]
  · intro he hwhole n hn hlt
    rcases h.line with ⟨-, ht, hp⟩ | ⟨x, c, before, rest, hrun, -⟩
    · rw [WorkSys.nodes, ← times_map_fst (t := s.q.u64Time)] at hn
      obtain ⟨p, hmem, rfl⟩ := List.mem_map.mp hn
      refine Nat.lt_of_lt_of_le (hp p hmem hlt) ((ht.kept p ?_).2 hwhole)
      rwa [dues_nil]
    · rw [he] at hrun
      cases hrun

/-- In every run that keeps to the condition, the jobs are delivered as they should be. -/
theorem workQueue_safe (h : Reach (fun s => s.step w) StepOk (fun s => s.Init uiQSize) s) :
    s.Safe uiQSize := by
  have hinv : Inv w uiQSize s := h.invariant (fun _ => Init.inv) fun _ _ _ hi => hi.step
  exact hinv.safe

/-- A system with a queue that has just been created at the time `now`. -/
def create (uiQSize now : ℕ) : WorkSys where
  q := .create (fun _ => ⟨none, fun _ => 0, 0, 0, 0, 0⟩) uiQSize now
  exec := .idle
  stale := []
  now := now
  accepted := 0
  executed := []
  flushed := []
  scans := 0
  whole := true

theorem create_init {now : ℕ} (h : 0 < uiQSize ∧ uiQSize < 2 ^ 32) :
    (create uiQSize now).Init uiQSize :=
  ⟨h, ⟨_, rfl⟩, rfl, rfl, rfl, rfl, rfl, rfl⟩

/-- A job with a delay of 5 is called two ticks late, and inserts one with a delay of 3. -/
theorem workQueue_safe_two : ∃ s : WorkSys, s.executed.map Prod.snd = [107] ∧ s.queued = [1] ∧
    s.Safe 2 := by
  have hstart : Reach (fun s => step 32 s) StepOk (fun s => s.Init 2) (create 2 100) :=
    .start (create_init (by decide))
  have hone := hstart.extend (.insert 5 (some 7) fun _ => 0) (.inr (.inr ⟨rfl, .inl rfl⟩)) rfl
  have htwo := (hone.extend (.tick 7) trivial rfl).extend .exec trivial rfl
  have hthree := htwo.extend (.insert 3 (some 8) fun _ => 1)
    (.inr (.inr ⟨rfl, .inr ⟨id, by decide⟩⟩)) rfl
  have hrun := hthree.extend .resume trivial rfl
  exact ⟨_, rfl, rfl, workQueue_safe hrun⟩

/-- A job that is inserted with a delay of 10 long after the last pass is called at once, and a job
flushed by a running one is called after it. -/
theorem workQueue_early :
    (∃ s : WorkSys, Reach (fun s => step 32 s) (fun _ _ => True) (fun s => s.Init 2) s ∧
      s.executed.map (fun x => (x.1.due, x.2)) = [(1009, 999)]) ∧
    ∃ s : WorkSys, Reach (fun s => step 32 s) (fun _ _ => True) (fun s => s.Init 2) s ∧
      s.flushed = [1] ∧ s.executed.map (fun x => x.1.seq) = [0, 1] := by
  have hstart : Reach (fun s => step 32 s) (fun _ _ => True) (fun s => s.Init 2) (create 2 0) :=
    .start (create_init (by decide))
  have hearly : runs (fun s => step 32 s) (create 2 0)
      [.tick 999, .insert 10 (some 7) (fun _ => 0), .exec] = some _ := rfl
  have hflushed : runs (fun s => step 32 s) (create 2 0)
      [.insert 0 (some 7) (fun _ => 0), .insert 0 (some 8) (fun _ => 0), .exec, .flush, .resume] =
        some _ := rfl
  exact ⟨⟨_, hstart.of_runs hearly, rfl⟩, _, hstart.of_runs hflushed, rfl, rfl⟩

end WorkSys

end SylixOS.Kernel
