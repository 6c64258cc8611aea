import Mathlib
import SylixOS.Lib.Reach
import SylixOS.Lib.RingQueue

/-! # The kernel job queue

Jobs are put into a ring by any number of threads and interrupts and taken out by one executor, which
waits on a semaphore while there is nothing to do and runs each job out of the lock. A job that is
deleted stays in its cell and loses its function. An add posts the semaphore after it has left the
lock, and a flush clears it before it takes the lock, so the queue and the semaphore do not change
together.
-/

namespace SylixOS.Kernel
open Lib RingQueue

/-- `LW_JOB_MSG`, with the number that the job had among the accepted ones, which the code does not
keep. A function that is `none` is `LW_NULL`. -/
structure JobMsg where
  pfuncFunc : Option ℕ
  pvArg : Fin 6 → ℕ
  seq : ℕ

/-- `LW_JOB_QUEUE`; `ulSync` says whether there is a semaphore. -/
structure JobQueue where
  pjobmsgQueue : ℕ → JobMsg
  uiIn : ℕ
  uiOut : ℕ
  uiCnt : ℕ
  uiSize : ℕ
  ulLost : ℕ
  ulSync : Bool

/-- Where the executor is: not in `_jobQueueExec`, about to wait, waiting, let go from waiting, about
to take the lock in the loop over the jobs, or about to call the function of a job it has copied. -/
inductive Executor where
  | idle
  | pend
  | blocked
  | awake
  | again
  | run (jobmsgRun : JobMsg)

/-- A job queue with its semaphore and its threads: the adds that have yet to post, the flushes that
have cleared the semaphore and have yet to take the lock, and what has become of the jobs. -/
structure JobSys where
  q : JobQueue
  sync : Bool
  exec : Executor
  posting : ℕ
  flushing : ℕ
  accepted : ℕ
  rejected : ℕ
  executed : List ℕ
  deleted : List ℕ
  flushed : List ℕ
  noFunc : List ℕ

inductive JobEvent where
  /-- The locked section of `_jobQueueAdd`. -/
  | add (pfunc : Option ℕ) (pvArg : Fin 6 → ℕ)
  /-- `_jobQueueAdd` posts the semaphore. -/
  | post
  /-- `_jobQueueDel`. -/
  | del (uiMatchArgNum : ℕ) (pfunc : Option ℕ) (pvArg : Fin 6 → ℕ)
  /-- `_jobQueueFlush` clears the semaphore. -/
  | clear
  /-- The locked section of `_jobQueueFlush`. -/
  | flush
  /-- The executor calls `_jobQueueExec`. -/
  | exec
  /-- `API_SemaphoreBPend` takes the semaphore or waits. -/
  | pend
  /-- It gives up. -/
  | timeout
  /-- A locked section of `_jobQueueExec`. -/
  | lock
  /-- The function of a job is called. -/
  | call

namespace JobQueue
variable (q : JobQueue)

/-- The queue that `_jobQueueCreate` makes, with a cell for each of `uiQueueSize` jobs. -/
def create (pjobmsgQueue : ℕ → JobMsg) (uiQueueSize : ℕ) (bNonBlock : Bool) : JobQueue where
  pjobmsgQueue := pjobmsgQueue
  uiIn := 0
  uiOut := 0
  uiCnt := 0
  uiSize := uiQueueSize
  ulLost := 0
  ulSync := !bNonBlock

/-- The cell after another one. -/
def next (i : ℕ) : ℕ := if i = q.uiSize - 1 then 0 else i + 1

/-- A job is put into the ring, which has room for it. -/
def put (pjobmsg : JobMsg) : JobQueue :=
  { q with
    pjobmsgQueue := Function.update q.pjobmsgQueue q.uiIn pjobmsg
    uiIn := q.next q.uiIn
    uiCnt := q.uiCnt + 1 }

/-- The first job leaves the ring. -/
def take : JobQueue := { q with uiOut := q.next q.uiOut, uiCnt := q.uiCnt - 1 }

/-- The jobs of the ring, the first one first. -/
def jobs : List JobMsg := contents q.uiSize q.uiOut q.uiCnt q.pjobmsgQueue

end JobQueue

/-- Whether `_jobQueueDel` finds that a job is to be deleted. -/
def JobMsg.matched (pjobmsg : JobMsg) (uiMatchArgNum : ℕ) (pfunc : Option ℕ) (pvArg : Fin 6 → ℕ) :
    Bool :=
  uiMatchArgNum ≤ 6 && (pjobmsg.pfuncFunc = pfunc || pfunc = none) &&
    decide (∀ i : Fin 6, i.val < uiMatchArgNum → pjobmsg.pvArg i = pvArg i)

/-- The function is taken from a job that is to be deleted. -/
def JobMsg.delete (uiMatchArgNum : ℕ) (pfunc : Option ℕ) (pvArg : Fin 6 → ℕ) (pjobmsg : JobMsg) :
    JobMsg :=
  if pjobmsg.matched uiMatchArgNum pfunc pvArg then { pjobmsg with pfuncFunc := none } else pjobmsg

/-- The numbers of the jobs that have a function. -/
def live (l : List JobMsg) : List ℕ := (l.filter fun m => m.pfuncFunc.isSome).map JobMsg.seq

/-- The job whose function is about to be called. -/
def Executor.inHand : Executor → List ℕ
  | .run m => live [m]
  | _ => []

namespace JobSys
variable (w : ℕ) (s : JobSys)

/-- The locked section of `_jobQueueAdd`; `ulLost` is a word of `w` bits. -/
def jobQueueAdd (pfunc : Option ℕ) (pvArg : Fin 6 → ℕ) : JobSys :=
  if s.q.uiCnt = s.q.uiSize then
    { s with q := { s.q with ulLost := (s.q.ulLost + 1) % 2 ^ w }, rejected := s.rejected + 1 }
  else
    { s with
      q := s.q.put ⟨pfunc, pvArg, s.accepted⟩
      posting := if s.q.ulSync then s.posting + 1 else s.posting
      accepted := s.accepted + 1
      noFunc := if pfunc.isSome then s.noFunc else s.noFunc ++ [s.accepted] }

/-- `API_SemaphoreBPost`. -/
def post : JobSys :=
  match s.exec with
  | .blocked => { s with exec := .awake }
  | _ => { s with sync := true }

/-- `_jobQueueDel`. -/
def jobQueueDel (uiMatchArgNum : ℕ) (pfunc : Option ℕ) (pvArg : Fin 6 → ℕ) : JobSys :=
  { s with
    q := { s.q with
      pjobmsgQueue := visit s.q.uiSize (JobMsg.delete uiMatchArgNum pfunc pvArg) s.q.uiCnt s.q.uiOut
        s.q.pjobmsgQueue }
    deleted := s.deleted ++ live (s.q.jobs.filter fun m => m.matched uiMatchArgNum pfunc pvArg) }

/-- The locked section of `_jobQueueFlush`. -/
def jobQueueFlush : JobSys :=
  { s with
    q := { s.q with uiIn := 0, uiOut := 0, uiCnt := 0 }
    flushing := s.flushing - 1
    flushed := s.flushed ++ live s.q.jobs }

/-- A job is copied and taken out of the queue. -/
def takeJob : JobSys := { s with q := s.q.take, exec := .run (s.q.pjobmsgQueue s.q.uiOut) }

def step : JobEvent → Option JobSys
  | .add pfunc pvArg => some (s.jobQueueAdd w pfunc pvArg)
  | .post => if 0 < s.posting then some { s.post with posting := s.posting - 1 } else none
  | .del uiMatchArgNum pfunc pvArg => some (s.jobQueueDel uiMatchArgNum pfunc pvArg)
  | .clear =>
    some { s with sync := if s.q.ulSync then false else s.sync, flushing := s.flushing + 1 }
  | .flush => if 0 < s.flushing then some s.jobQueueFlush else none
  | .exec => match s.exec with
    | .idle => some { s with exec := if s.q.ulSync then .pend else .again }
    | _ => none
  | .pend => match s.exec with
    | .pend =>
      some (if s.sync then { s with sync := false, exec := .awake } else { s with exec := .blocked })
    | _ => none
  | .timeout => match s.exec with
    | .pend => if s.sync then none else some { s with exec := .idle }
    | .blocked => some { s with exec := .idle }
    | _ => none
  | .lock => match s.exec with
    | .awake => some (if s.q.uiCnt ≠ 0 then s.takeJob else { s with exec := .pend })
    | .again => some (if s.q.uiCnt ≠ 0 then s.takeJob else { s with exec := .idle })
    | _ => none
  | .call => match s.exec with
    | .run m => some { s with exec := .again, executed := s.executed ++ live [m] }
    | _ => none

/-- A queue that has just been made. -/
def create (pjobmsgQueue : ℕ → JobMsg) (uiQueueSize : ℕ) (bNonBlock : Bool) : JobSys where
  q := .create pjobmsgQueue uiQueueSize bNonBlock
  sync := false
  exec := .idle
  posting := 0
  flushing := 0
  accepted := 0
  rejected := 0
  executed := []
  deleted := []
  flushed := []
  noFunc := []

def Init : Prop := ∃ pjobmsgQueue uiQueueSize bNonBlock, s = create pjobmsgQueue uiQueueSize bNonBlock

end JobSys

/-! ## Jobs with a function -/

variable {l r : List JobMsg} {m : JobMsg} {w n : ℕ} {pfunc : Option ℕ} {pvArg : Fin 6 → ℕ}

theorem live_append : live (l ++ r) = live l ++ live r := by simp [live]

theorem live_cons : live (m :: l) = live [m] ++ live l := live_append (l := [m])

theorem live_singleton : live [m] = if m.pfuncFunc.isSome then [m.seq] else [] := by
  unfold live
  split_ifs with h <;> simp [h]

theorem live_filter_cons (p : JobMsg → Bool) :
    live ((m :: l).filter p) = (if p m then live [m] else []) ++ live (l.filter p) := by
  rw [List.filter_cons]
  split_ifs
  · exact live_cons
  · rfl

theorem live_delete :
    live [m.delete n pfunc pvArg] = if m.matched n pfunc pvArg then [] else live [m] := by
  unfold JobMsg.delete
  split_ifs
  · rfl
  · rfl

/-- A delete takes from the live jobs those that it finds. -/
theorem count_live_delete (j : ℕ) :
    (live (l.map (JobMsg.delete n pfunc pvArg))).count j +
      (live (l.filter fun m => m.matched n pfunc pvArg)).count j = (live l).count j := by
  induction l with
  | nil => rfl
  | cons m l ih =>
    rw [List.map_cons, live_cons, live_cons (m := m) (l := l), live_filter_cons, live_delete,
      List.count_append, List.count_append, List.count_append]
    split_ifs <;> simp only [List.count_nil] <;> omega

theorem live_delete_sublist : (live (l.map (JobMsg.delete n pfunc pvArg))).Sublist (live l) := by
  induction l with
  | nil => exact List.Sublist.refl _
  | cons m l ih =>
    rw [List.map_cons, live_cons, live_cons (m := m) (l := l), live_delete]
    split_ifs
    · exact ih.trans (List.sublist_append_right _ _)
    · exact (List.Sublist.refl _).append ih

/-! ## The ring -/

namespace JobQueue

variable {q : JobQueue}

/-- The cursors are in the ring, and as far apart as the jobs take. -/
structure Cursors (q : JobQueue) : Prop where
  cnt_le : q.uiCnt ≤ q.uiSize
  out_lt : 0 < q.uiSize → q.uiOut < q.uiSize
  in_eq : 0 < q.uiSize → q.uiIn = wrap q.uiSize (q.uiOut + q.uiCnt)

theorem next_eq_wrap {i : ℕ} (hi : i < q.uiSize) : q.next i = wrap q.uiSize (i + 1) := by
  unfold next wrap
  split_ifs <;> omega

theorem Cursors.put (h : q.Cursors) (hcnt : q.uiCnt ≠ q.uiSize) : (q.put m).Cursors := by
  obtain ⟨hle, hout, hin⟩ := h
  refine ⟨?_, hout, fun hpos => ?_⟩
  · change q.uiCnt + 1 ≤ q.uiSize
    omega
  · have hout := hout hpos
    have hin := hin hpos
    change q.next q.uiIn = wrap q.uiSize (q.uiOut + (q.uiCnt + 1))
    rw [next_eq_wrap (hin ▸ wrap_lt (by omega)), hin]
    unfold wrap
    split_ifs <;> omega

theorem Cursors.take (h : q.Cursors) (hcnt : q.uiCnt ≠ 0) : q.take.Cursors := by
  obtain ⟨hle, hout, hin⟩ := h
  refine ⟨?_, fun hpos => ?_, fun hpos => ?_⟩
  · change q.uiCnt - 1 ≤ q.uiSize
    omega
  · have hout := hout hpos
    change q.next q.uiOut < q.uiSize
    rw [next_eq_wrap hout]
    exact wrap_lt (by omega)
  · have hout := hout hpos
    change q.uiIn = wrap q.uiSize (q.next q.uiOut + (q.uiCnt - 1))
    rw [hin hpos, next_eq_wrap hout, wrap_wrap_add hout (by omega), Nat.sub_add_cancel (by omega)]

theorem jobs_put (h : q.Cursors) (hcnt : q.uiCnt ≠ q.uiSize) : (q.put m).jobs = q.jobs ++ [m] := by
  have hle := h.cnt_le
  have hpos : 0 < q.uiSize := by omega
  change contents q.uiSize q.uiOut (q.uiCnt + 1) (Function.update q.pjobmsgQueue q.uiIn m) = _
  rw [h.in_eq hpos, contents_push (by omega)]
  rfl

theorem jobs_take (h : q.Cursors) (hcnt : q.uiCnt ≠ 0) :
    q.jobs = q.pjobmsgQueue q.uiOut :: q.take.jobs := by
  have hle := h.cnt_le
  have hout := h.out_lt (by omega)
  obtain ⟨k, hk⟩ := Nat.exists_eq_succ_of_ne_zero hcnt
  change contents q.uiSize q.uiOut q.uiCnt q.pjobmsgQueue =
    _ :: contents q.uiSize (q.next q.uiOut) (q.uiCnt - 1) q.pjobmsgQueue
  rw [hk, contents_pop hout (by omega), next_eq_wrap hout]
  rfl

theorem jobs_nil (h : q.uiCnt = 0) : q.jobs = [] := by
  rw [jobs, h]
  rfl

end JobQueue

/-! ## The invariant -/

namespace JobSys

/-- How often a job is among those that are done with, in the executor's hand, or in the queue. -/
def places (s : JobSys) (j : ℕ) : ℕ :=
  s.executed.count j + s.exec.inHand.count j + (live s.q.jobs).count j + s.deleted.count j +
    s.flushed.count j + s.noFunc.count j

/-- What is promised of a job queue whose word has `w` bits. -/
structure JobSafe (w : ℕ) (s : JobSys) : Prop where
  cursors : s.q.uiCnt ≤ s.q.uiSize ∧
    (0 < s.q.uiSize → s.q.uiOut < s.q.uiSize ∧ s.q.uiIn = (s.q.uiOut + s.q.uiCnt) % s.q.uiSize)
  /-- Each accepted job is in one place. -/
  place : ∀ j, s.places j = if j < s.accepted then 1 else 0
  /-- Jobs are executed in the order of their acceptance, and before the jobs in the queue. -/
  order : (s.executed ++ (s.exec.inHand ++ live s.q.jobs)).Pairwise (· < ·)
  lost : s.q.ulLost = s.rejected % 2 ^ w
  /-- The executor does not wait beside jobs, but for an add that has yet to post or a flush that has
  yet to empty the queue. -/
  signal : s.exec = .blocked → s.q.uiCnt ≠ 0 → s.sync = true ∨ 0 < s.posting ∨ 0 < s.flushing

/-- The invariant: also before the executor waits, the semaphore tells it of the jobs. -/
structure JobInv (w : ℕ) (s : JobSys) : Prop where
  cursors : s.q.Cursors
  place : ∀ j, s.places j = if j < s.accepted then 1 else 0
  order : (s.executed ++ (s.exec.inHand ++ live s.q.jobs)).Pairwise (· < ·)
  lost : s.q.ulLost = s.rejected % 2 ^ w
  signal : s.q.ulSync = true → s.exec = .idle ∨ s.exec = .pend ∨ s.exec = .blocked →
    s.q.uiCnt ≠ 0 → s.sync = true ∨ 0 < s.posting ∨ 0 < s.flushing
  waits : s.exec = .pend ∨ s.exec = .blocked ∨ s.exec = .awake → s.q.ulSync = true

variable {s s' : JobSys}

theorem JobInv.lt_accepted (h : JobInv w s) {j : ℕ} (hj : 0 < s.places j) : j < s.accepted := by
  by_contra hlt
  have := h.place j
  rw [if_neg hlt] at this
  omega

/-- The jobs keep their order when one with a greater number is put behind them. -/
theorem order_append {a b c : List ℕ} (h : (a ++ b).Pairwise (· < ·))
    (hlt : ∀ i ∈ a ++ b, ∀ j ∈ c, i < j) (hc : c.Pairwise (· < ·)) :
    (a ++ (b ++ c)).Pairwise (· < ·) := by
  rw [← List.append_assoc, List.pairwise_append]
  exact ⟨h, hc, hlt⟩

theorem JobInv.add (h : JobInv w s) : JobInv w (s.jobQueueAdd w pfunc pvArg) := by
  unfold jobQueueAdd
  by_cases hcnt : s.q.uiCnt = s.q.uiSize
  · rw [if_pos hcnt]
    refine ⟨⟨h.cursors.cnt_le, h.cursors.out_lt, h.cursors.in_eq⟩, h.place, h.order, ?_, h.signal,
      h.waits⟩
    dsimp only
    rw [h.lost, Nat.mod_add_mod]
  · rw [if_neg hcnt]
    have hlive : live (s.q.put ⟨pfunc, pvArg, s.accepted⟩).jobs =
        live s.q.jobs ++ if pfunc.isSome then [s.accepted] else [] := by
      rw [JobQueue.jobs_put h.cursors hcnt, live_append, live_singleton]
    refine ⟨h.cursors.put hcnt, fun j => ?_, ?_, h.lost,
      fun (hsync : s.q.ulSync = true) _ _ => .inr (.inl ?_), h.waits⟩
    · have hj := h.place j
      simp only [places, hlive, List.count_append] at hj ⊢
      have hone : (if pfunc.isSome = true then [s.accepted] else []).count j +
          (if pfunc.isSome = true then s.noFunc else s.noFunc ++ [s.accepted]).count j =
            s.noFunc.count j + if j = s.accepted then 1 else 0 := by
        rcases eq_or_ne j s.accepted with rfl | hne
        · by_cases hf : pfunc.isSome = true <;> simp [hf, Nat.add_comm]
        · by_cases hf : pfunc.isSome = true <;> simp [hf, hne, hne.symm]
      split_ifs at hj hone ⊢ <;> omega
    · dsimp only
      rw [hlive, ← List.append_assoc s.exec.inHand]
      refine order_append h.order (fun i hi j hj => ?_) ?_
      · have hja : j = s.accepted := by
          split_ifs at hj
          · exact List.mem_singleton.mp hj
          · cases hj
        rw [hja]
        refine h.lt_accepted ?_
        have := List.count_pos_iff.mpr hi
        simp only [List.count_append] at this
        unfold places
        omega
      · split_ifs
        · exact List.pairwise_singleton _ _
        · exact List.Pairwise.nil
    · dsimp only
      rw [if_pos hsync]
      omega

theorem JobInv.del (h : JobInv w s) : JobInv w (s.jobQueueDel n pfunc pvArg) := by
  have hjobs : (s.jobQueueDel n pfunc pvArg).q.jobs =
      s.q.jobs.map (JobMsg.delete n pfunc pvArg) := by
    rcases Nat.eq_zero_or_pos s.q.uiSize with hz | hpos
    · have hcnt : s.q.uiCnt = 0 := by
        have := h.cursors.cnt_le
        omega
      rw [JobQueue.jobs_nil hcnt]
      exact JobQueue.jobs_nil hcnt
    · exact contents_visit (h.cursors.out_lt hpos) h.cursors.cnt_le
  refine ⟨⟨h.cursors.cnt_le, h.cursors.out_lt, h.cursors.in_eq⟩, fun j => ?_, ?_, h.lost, h.signal,
    h.waits⟩
  · have hj := h.place j
    have hdel := @count_live_delete s.q.jobs n pfunc pvArg j
    change _ = if j < s.accepted then 1 else 0
    rw [← hj, places, hjobs, places]
    simp only [jobQueueDel, List.count_append]
    omega
  · rw [hjobs]
    refine h.order.sublist ?_
    exact (List.Sublist.refl _).append ((List.Sublist.refl _).append live_delete_sublist)

theorem JobInv.flush (h : JobInv w s) : JobInv w s.jobQueueFlush := by
  have hjobs : s.jobQueueFlush.q.jobs = [] := JobQueue.jobs_nil rfl
  refine ⟨⟨Nat.zero_le _, fun hpos => hpos, fun hpos => ?_⟩, fun j => ?_, ?_, h.lost,
    fun _ _ hcnt => absurd rfl hcnt, h.waits⟩
  · exact (wrap_of_lt hpos).symm
  · have hj := h.place j
    have hnil : (live []).count j = 0 := rfl
    change _ = if j < s.accepted then 1 else 0
    rw [← hj, places, hjobs, places]
    simp only [jobQueueFlush, List.count_append]
    omega
  · rw [hjobs]
    refine h.order.sublist ?_
    exact (List.Sublist.refl _).append ((List.Sublist.refl _).append (List.nil_sublist _))

theorem JobInv.takeJob (h : JobInv w s) (hexec : s.exec.inHand = []) (hcnt : s.q.uiCnt ≠ 0) :
    JobInv w s.takeJob := by
  have hlive : live s.q.jobs = s.takeJob.exec.inHand ++ live s.takeJob.q.jobs := by
    rw [JobQueue.jobs_take h.cursors hcnt, live_cons]
    rfl
  refine ⟨h.cursors.take hcnt, fun j => ?_, ?_, h.lost, fun _ hidle => ?_, fun hwait => ?_⟩
  · have hj := h.place j
    simp only [places, hexec, hlive, List.count_append, List.count_nil] at hj
    change _ = if j < s.accepted then 1 else 0
    rw [← hj]
    change s.executed.count j + s.takeJob.exec.inHand.count j + (live s.takeJob.q.jobs).count j +
      s.deleted.count j + s.flushed.count j + s.noFunc.count j = _
    omega
  · have horder := h.order
    rw [hexec, List.nil_append, hlive] at horder
    exact horder
  · rcases hidle with hidle | hidle | hidle <;> cases hidle
  · rcases hwait with hwait | hwait | hwait <;> cases hwait

/-- Only the semaphore, the counts of those who are about to use it and the place of the executor
change. -/
theorem JobInv.move (h : JobInv w s) {sync : Bool} {exec : Executor} {posting flushing : ℕ}
    (hhand : exec.inHand = s.exec.inHand)
    (hsignal : s.q.ulSync = true → exec = .idle ∨ exec = .pend ∨ exec = .blocked →
      s.q.uiCnt ≠ 0 → sync = true ∨ 0 < posting ∨ 0 < flushing)
    (hwaits : exec = .pend ∨ exec = .blocked ∨ exec = .awake → s.q.ulSync = true) :
    JobInv w { s with sync, exec, posting, flushing } := by
  refine ⟨h.cursors, fun j => ?_, ?_, h.lost, hsignal, hwaits⟩
  · have hj := h.place j
    change _ = if j < s.accepted then 1 else 0
    rw [← hj, places, places, hhand]
  · have horder := h.order
    dsimp only
    rw [hhand]
    exact horder

theorem JobInv.post (h : JobInv w s) : JobInv w { s.post with posting := s.posting - 1 } := by
  by_cases hexec : s.exec = .blocked
  · have hpost : s.post = { s with exec := .awake } := by
      rw [JobSys.post, hexec]
    rw [hpost]
    refine h.move (by rw [hexec]; rfl) (fun _ hidle => ?_) (fun _ => h.waits (.inr (.inl hexec)))
    rcases hidle with hidle | hidle | hidle <;> cases hidle
  · have hpost : s.post = { s with sync := true } := by
      unfold JobSys.post
      split
      · exact absurd ‹_› hexec
      · rfl
    rw [hpost]
    exact h.move rfl (fun _ _ _ => .inl rfl) h.waits

theorem JobInv.call (h : JobInv w s) {m : JobMsg} (hexec : s.exec = .run m) :
    JobInv w { s with exec := .again, executed := s.executed ++ live [m] } := by
  have hhand : s.exec.inHand = live [m] := by rw [hexec]; rfl
  refine ⟨h.cursors, fun j => ?_, ?_, h.lost, fun _ hidle => ?_, fun hwait => ?_⟩
  · have hj := h.place j
    change _ = if j < s.accepted then 1 else 0
    rw [← hj, places, places, hhand]
    simp only [List.count_append, Executor.inHand, List.count_nil]
    omega
  · have horder := h.order
    rw [hhand, ← List.append_assoc] at horder
    exact horder
  · rcases hidle with hidle | hidle | hidle <;> cases hidle
  · rcases hwait with hwait | hwait | hwait <;> cases hwait

theorem JobInv.step (h : JobInv w s) {e : JobEvent} (hs : s.step w e = some s') : JobInv w s' := by
  cases e with
  | add pfunc pvArg =>
    obtain rfl := Option.some.inj hs
    exact h.add
  | del n pfunc pvArg =>
    obtain rfl := Option.some.inj hs
    exact h.del
  | post =>
    simp only [JobSys.step, Option.ite_none_right_eq_some, Option.some.injEq] at hs
    obtain ⟨-, rfl⟩ := hs
    exact h.post
  | clear =>
    obtain rfl := Option.some.inj hs
    exact h.move rfl (fun _ _ _ => .inr (.inr (Nat.succ_pos _))) h.waits
  | flush =>
    simp only [JobSys.step, Option.ite_none_right_eq_some, Option.some.injEq] at hs
    obtain ⟨-, rfl⟩ := hs
    exact h.flush
  | exec =>
    cases hexec : s.exec <;> simp only [JobSys.step, hexec, Option.some.injEq, reduceCtorEq] at hs
    subst hs
    refine h.move ?_ (fun hsync _ => h.signal hsync (.inl hexec)) (fun hwait => ?_)
    · rw [hexec]
      split_ifs <;> rfl
    · by_contra hsync
      rw [if_neg hsync] at hwait
      rcases hwait with hwait | hwait | hwait <;> cases hwait
  | pend =>
    cases hexec : s.exec <;> simp only [JobSys.step, hexec, Option.some.injEq, reduceCtorEq] at hs
    subst hs
    split_ifs with hsync
    · refine h.move (by rw [hexec]; rfl) (fun _ hidle => ?_) (fun _ => h.waits (.inl hexec))
      rcases hidle with hidle | hidle | hidle <;> cases hidle
    · exact h.move (by rw [hexec]; rfl) (fun hul _ => h.signal hul (.inr (.inl hexec)))
        (fun _ => h.waits (.inl hexec))
  | timeout =>
    cases hexec : s.exec <;>
      simp only [JobSys.step, hexec, Option.ite_none_left_eq_some, Option.some.injEq,
        reduceCtorEq] at hs
    · obtain ⟨-, rfl⟩ := hs
      refine h.move (by rw [hexec]; rfl) (fun hul _ => h.signal hul (.inr (.inl hexec)))
        (fun hwait => ?_)
      rcases hwait with hwait | hwait | hwait <;> cases hwait
    · subst hs
      refine h.move (by rw [hexec]; rfl) (fun hul _ => h.signal hul (.inr (.inr hexec)))
        (fun hwait => ?_)
      rcases hwait with hwait | hwait | hwait <;> cases hwait
  | lock =>
    cases hexec : s.exec <;> simp only [JobSys.step, hexec, Option.some.injEq, reduceCtorEq] at hs
    · subst hs
      split_ifs with hcnt
      · exact h.takeJob (by rw [hexec]; rfl) hcnt
      · exact h.move (by rw [hexec]; rfl) (fun _ _ hne => absurd hne hcnt)
          (fun _ => h.waits (.inr (.inr hexec)))
    · subst hs
      split_ifs with hcnt
      · exact h.takeJob (by rw [hexec]; rfl) hcnt
      · refine h.move (by rw [hexec]; rfl) (fun _ _ hne => absurd hne hcnt) (fun hwait => ?_)
        rcases hwait with hwait | hwait | hwait <;> cases hwait
  | call =>
    cases hexec : s.exec <;> simp only [JobSys.step, hexec, Option.some.injEq, reduceCtorEq] at hs
    subst hs
    exact h.call hexec

theorem JobInv.init (h : s.Init) : JobInv w s := by
  obtain ⟨pjobmsgQueue, uiQueueSize, bNonBlock, rfl⟩ := h
  refine ⟨⟨Nat.zero_le _, fun hpos => hpos, fun hpos => (wrap_of_lt hpos).symm⟩, fun j => ?_, ?_,
    (Nat.zero_mod _).symm, fun _ _ hcnt => absurd rfl hcnt, fun hwait => ?_⟩
  · exact (if_neg (Nat.not_lt_zero j)).symm
  · exact List.Pairwise.nil
  · rcases hwait with hwait | hwait | hwait <;> cases hwait

theorem JobInv.safe (h : JobInv w s) : JobSafe w s := by
  refine ⟨⟨h.cursors.cnt_le, fun hpos => ?_⟩, h.place, h.order, h.lost, fun hexec => ?_⟩
  · have hle := h.cursors.cnt_le
    have hout := h.cursors.out_lt hpos
    exact ⟨hout, (h.cursors.in_eq hpos).trans (wrap_eq_mod (by omega))⟩
  · exact h.signal (h.waits (.inr (.inl hexec))) (.inr (.inr hexec))

/-- Over any run of adders, deleters, flushers and one executor, each accepted job is executed once,
in the order of acceptance, but for those deleted or flushed before, and those without a function. -/
theorem jobQueue_safe (h : Reach (step w) (fun _ _ => True) Init s) : JobSafe w s :=
  (h.invariant (fun _ => JobInv.init) fun _ _ _ hinv _ hs => JobInv.step hinv hs).safe

/-- In a ring of one cell, where a job is executed, one deleted and one lost. -/
theorem jobQueue_safe_oneCell : ∃ s, s.executed = [0] ∧ s.deleted = [1] ∧ s.rejected = 1 ∧
    JobSafe 32 s := by
  have hruns : runs (step 32) (create (fun _ => ⟨none, fun _ => 0, 0⟩) 1 false)
      [.exec, .pend, .add (some 7) (fun _ => 0), .post, .lock, .add (some 8) (fun _ => 1),
        .add (some 9) (fun _ => 2), .call, .post, .del 1 none (fun _ => 1)] = some _ := rfl
  exact ⟨_, rfl, rfl, rfl, jobQueue_safe ((Reach.start ⟨_, _, _, rfl⟩).of_runs hruns)⟩

/-- An add that has left the lock has yet to tell the executor of its job. -/
theorem jobQueue_unsignalled : ∃ s, Reach (step 32) (fun _ _ => True) Init s ∧
    s.q.uiCnt ≠ 0 ∧ s.exec = .blocked ∧ s.sync = false := by
  have hruns : runs (step 32) (create (fun _ => ⟨none, fun _ => 0, 0⟩) 1 false)
      [.exec, .pend, .add (some 7) (fun _ => 0)] = some _ := rfl
  exact ⟨_, (Reach.start ⟨_, _, _, rfl⟩).of_runs hruns, Nat.one_ne_zero, rfl, rfl⟩

end JobSys

end SylixOS.Kernel
