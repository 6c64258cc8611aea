import SylixOS.Kernel.SemaphoreSystem
import SylixOS.Lib.Lock
import SylixOS.Lib.Reach

/-! # Reader-writer semaphores are locks for readers and a writer

Seen from a reader-writer semaphore, every step of the threads is a step of such a lock or no step,
with one exception: the timeout of the last waiting writer leaves behind the readers that wait
because of it, although the semaphore is in the state in which any reader would be let in.
-/

namespace SylixOS.Kernel.SemSystem
open Lib KernState

variable {T E : Type} [DecidableEq T] [DecidableEq E]

/-- The lock that a reader-writer semaphore is. -/
def rwOf (s : SemSystem T E) (e : E) : RwLock T where
  writer := (s.kern.event e).pvTcbOwn
  extra := (s.kern.event e).pvPtr
  waitR := {t | s.kern.Waits t e eventRwQR}
  waitW := {t | s.kern.Waits t e eventRwQW}
  readsBegun t := s.grants t e .r
  readsEnded t := s.posts t e .r
  writesBegun t := s.grants t e .w
  writesEnded t := s.posts t e .w

/-- The semaphore keeps the rules of the lock, and its status and counter are what it says. -/
structure RwOk [Fintype T] (s : SemSystem T E) (e : E) : Prop where
  lock : (s.rwOf e).Ok
  status : (s.kern.event e).iStatus = if (s.kern.event e).pvTcbOwn = none then .r else .w
  counter : (s.kern.event e).ulCounter = (s.rwOf e).holders

/-- No counter overflows, a thread ends only a reading of its own, and the last waiting writer of a
semaphore that is read does not time out while readers wait. -/
def RwStepOk (w : ℕ) (s : SemSystem T E) : SemOp T E → Prop
  | .pend .r _ e _ => (s.kern.event e).ulCounter + 1 < 2 ^ w
  | .pend .w t e _ => (s.kern.event e).pvTcbOwn = some t → (s.kern.event e).pvPtr + 1 < 2 ^ w
  | .rwPost t e =>
    (s.kern.event e).iStatus = .r → (s.kern.event e).ulCounter ≠ 0 →
      s.posts t e .r < s.grants t e .r
  | .tick t => ∀ e, s.kern.Waits t e eventRwQW →
    ¬ ((s.kern.event e).iStatus = .r ∧ s.kern.eventWaitNum e eventRwQW = 1 ∧
      s.kern.eventWaitNum e eventRwQR ≠ 0)
  | _ => True

variable [Fintype T] {s s' : SemSystem T E} {w ulTimeout : ℕ} {t u : T} {e : E} {q : Fin 2}
  {a : SemOp T E} {k' : KernState T E} {r : Option Error} {err : Error} {p : Pend}

omit [DecidableEq T] [Fintype T] in
theorem SameAt.rwOf (h : SameAt s s' e) : s'.rwOf e = s.rwOf e := by
  ext <;> simp [SemSystem.rwOf, h.event, h.waits, h.grants, h.posts]

theorem RwOk.same (hr : RwOk s e) (h : SameAt s s' e) : RwOk s' e where
  lock := by
    rw [h.rwOf]
    exact hr.lock
  status := by
    rw [h.event]
    exact hr.status
  counter := by
    rw [h.event, h.rwOf]
    exact hr.counter

omit [Fintype T] in
/-- A pend that returns at once is one more acquisition of its kind. -/
theorem grants_pended (hs : s.kern.SameWait k') (x : Pend) :
    (fun u => (s.pended t e p (k', some .none)).grants u e x) =
      if x = p then oneMore (fun u => s.grants u e x) t else fun u => s.grants u e x := by
  ext u
  rw [grants_count (s.pended t e p (k', some .none)) hs rfl rfl]
  split_ifs with h₁ h₂ h₂
  · simp [Mutex.oneMore_apply, h₁.1]
  · exact absurd h₁.2.2 h₂
  · have hu : u ≠ t := fun hu => h₁ ⟨hu, rfl, h₂⟩
    simp [Mutex.oneMore_apply, hu]
  · rfl

/-- A thread that begins to wait changes the queue that it enters and nothing else. -/
theorem rwOf_parks (hb : s.Base) (ht : s.canCall t) :
    (s.pended t e p (s.kern.pendWait t e w p.queue ulTimeout, none)).rwOf e =
      { s.rwOf e with
        waitR := if p.queue = eventRwQR then insert t (s.rwOf e).waitR else (s.rwOf e).waitR
        waitW := if p.queue = eventRwQW then insert t (s.rwOf e).waitW else (s.rwOf e).waitW } := by
  have hwait := hb.event.not_waits ht.1.1
  have hp := pendWait_parks (k := s.kern) (t := t) (e := e) (q := p.queue) w ulTimeout
  have hgrants (u : T) (x : Pend) := grants_parks (u := u) (d := e) (x := x)
    (s.pended t e p (s.kern.pendWait t e w p.queue ulTimeout, none)) (.refl s.kern) hp ht.2 rfl rfl
  obtain ⟨hown, -, hptr, -⟩ := hp.core
  refine RwLock.ext hown hptr ?_ ?_ ?_ ?_ ?_ ?_
  · ext u
    simp only [rwOf, SemSystem.pended, Set.mem_ofPred_eq, hp.waits hwait]
    split_ifs with hq
    · simp [hq, Set.insert_def, or_comm]
    · simp [Ne.symm hq]
  · ext u
    simp only [rwOf, SemSystem.pended, Set.mem_ofPred_eq, hp.waits hwait]
    split_ifs with hq
    · simp [hq, Set.insert_def, or_comm]
    · simp [Ne.symm hq]
  · ext u
    exact hgrants u .r
  · rfl
  · ext u
    exact hgrants u .w
  · rfl

theorem RwOk.parks (hb : s.Base) (hr : RwOk s e) (ht : s.canCall t)
    (hstep : (s.rwOf e).Step
      { s.rwOf e with
        waitR := if p.queue = eventRwQR then insert t (s.rwOf e).waitR else (s.rwOf e).waitR
        waitW := if p.queue = eventRwQW then insert t (s.rwOf e).waitW else (s.rwOf e).waitW }) :
    RwOk (s.pended t e p (s.kern.pendWait t e w p.queue ulTimeout, none)) e := by
  have hp := pendWait_parks (k := s.kern) (t := t) (e := e) (q := p.queue) w ulTimeout
  obtain ⟨hown, hcnt, -, hst⟩ := hp.core
  refine ⟨?_, ?_, ?_⟩
  · rw [rwOf_parks hb ht]
    exact hr.lock.step hstep
  · change ((s.kern.pendWait t e w p.queue ulTimeout).event e).iStatus =
      if ((s.kern.pendWait t e w p.queue ulTimeout).event e).pvTcbOwn = none then .r else .w
    rw [hown, hst]
    exact hr.status
  · rw [rwOf_parks hb ht]
    exact hcnt.trans hr.counter

theorem RwOk.owner_none (hr : RwOk s e) (hst : (s.kern.event e).iStatus = .r) :
    (s.kern.event e).pvTcbOwn = none := by
  have hstatus := hr.status
  by_contra hown
  rw [if_neg hown, hst] at hstatus
  simp at hstatus

omit [DecidableEq T] in
theorem waitW_empty (hb : s.Base) (hn : s.kern.eventWaitNum e eventRwQW = 0) :
    (s.rwOf e).waitW = ∅ :=
  Set.eq_empty_of_forall_notMem (hb.event.waitNum_eq_zero.mp hn)

omit [DecidableEq T] in
theorem waitR_empty (hb : s.Base) (hn : s.kern.eventWaitNum e eventRwQR = 0) :
    (s.rwOf e).waitR = ∅ :=
  Set.eq_empty_of_forall_notMem (hb.event.waitNum_eq_zero.mp hn)

omit [DecidableEq T] in
theorem waitR_ne_empty (hb : s.Base) (hn : s.kern.eventWaitNum e eventRwQR ≠ 0) :
    (s.rwOf e).waitR ≠ ∅ := by
  intro hempty
  refine hn (hb.event.waitNum_eq_zero.mpr fun t hw => ?_)
  have hmem : t ∈ (s.rwOf e).waitR := hw
  rw [hempty] at hmem
  exact hmem

theorem RwOk.pendedR (hb : s.Base) (hr : RwOk s e) (ht : s.canCall t)
    (hok : RwStepOk w s (.pend .r t e ulTimeout))
    (h : s.kern.semaphoreRWPendR w t e ulTimeout = some (k', r)) :
    RwOk (s.pended t e .r (k', r)) e := by
  rcases semaphoreRWPendR_cases h with ⟨rfl, err, herr, rfl⟩ | ⟨-, hst, hn, rfl, rfl⟩ |
    ⟨-, hno, rfl, rfl⟩
  · cases err with
    | none => exact absurd rfl herr
    | _ => exact hr
  · have hfree := hr.owner_none hst
    have hstep := RwLock.Step.read (l := s.rwOf e) t hfree (waitW_empty hb hn)
    have hsame : s.kern.SameWait (s.kern.modEvent e fun ev =>
        { ev with ulCounter := ulong w (ev.ulCounter + 1) }) := sameWait_modEvent rfl rfl
    have heq : (s.pended t e .r (s.kern.modEvent e fun ev =>
        { ev with ulCounter := ulong w (ev.ulCounter + 1) }, some .none)).rwOf e =
          { s.rwOf e with readsBegun := oneMore (s.rwOf e).readsBegun t } := by
      refine RwLock.ext ?_ ?_ rfl rfl (grants_pended hsame .r) rfl (grants_pended hsame .w) rfl
      · simp [rwOf, SemSystem.pended]
      · simp [rwOf, SemSystem.pended]
    refine ⟨?_, ?_, ?_⟩
    · rw [heq]
      exact hr.lock.step hstep
    · simpa [SemSystem.pended] using hr.status
    · rw [heq, hr.lock.holders_read hfree, ← hr.counter]
      simp [SemSystem.pended, ulong_of_lt hok]
  · refine hr.parks (p := .r) hb ht (.waitRead t ?_)
    by_contra hnot
    rw [not_or, not_not, not_not] at hnot
    refine hno ⟨?_, hb.event.waitNum_eq_zero.mpr fun u hu => ?_⟩
    · rw [hr.status]
      exact if_pos hnot.1
    · have hmem : u ∈ (s.rwOf e).waitW := hu
      rw [hnot.2] at hmem
      exact hmem

theorem RwOk.pendedW (hw : 32 ≤ w) (hb : s.Base) (hr : RwOk s e) (ht : s.canCall t)
    (hok : RwStepOk w s (.pend .w t e ulTimeout))
    (h : s.kern.semaphoreRWPendW w t e ulTimeout = some (k', r)) :
    RwOk (s.pended t e .w (k', r)) e := by
  have hcounter := hr.counter
  rcases semaphoreRWPendW_cases h with ⟨rfl, err, herr, rfl⟩ | ⟨-, hc, rfl, rfl⟩ |
    ⟨-, hc, ho, rfl, rfl⟩ | ⟨-, hc, ho, rfl, rfl⟩
  · cases err with
    | none => exact absurd rfl herr
    | _ => exact hr
  · rw [hc] at hcounter
    have hstep := RwLock.Step.write (l := s.rwOf e) t hcounter.symm
    have hsame : s.kern.SameWait (s.kern.modEvent e fun ev =>
        { ev with ulCounter := ulong w (ev.ulCounter + 1), iStatus := .w, pvTcbOwn := some t }) :=
      sameWait_modEvent rfl rfl
    have heq : (s.pended t e .w (s.kern.modEvent e fun ev =>
        { ev with ulCounter := ulong w (ev.ulCounter + 1), iStatus := .w, pvTcbOwn := some t },
          some .none)).rwOf e =
        { s.rwOf e with
          writer := some t
          writesBegun := oneMore (s.rwOf e).writesBegun t } := by
      refine RwLock.ext ?_ ?_ rfl rfl (grants_pended hsame .r) rfl (grants_pended hsame .w) rfl
      · simp [rwOf, SemSystem.pended]
      · simp [rwOf, SemSystem.pended]
    have hlock := hr.lock.step hstep
    refine ⟨?_, ?_, ?_⟩
    · rw [heq]
      exact hlock
    · simp [SemSystem.pended]
    · rw [heq, hlock.holders_of_writer (by simp)]
      have hone : 1 < 2 ^ w := Nat.one_lt_two_pow (by omega)
      simp [SemSystem.pended, hc, ulong_of_lt hone]
  · have hstep := RwLock.Step.again (l := s.rwOf e) t ho
    have hsame : s.kern.SameWait (s.kern.modEvent e fun ev =>
        { ev with pvPtr := ulong w (ev.pvPtr + 1) }) := sameWait_modEvent rfl rfl
    have heq : (s.pended t e .w (s.kern.modEvent e fun ev =>
        { ev with pvPtr := ulong w (ev.pvPtr + 1) }, some .none)).rwOf e =
          { s.rwOf e with
            extra := (s.rwOf e).extra + 1
            writesBegun := oneMore (s.rwOf e).writesBegun t } := by
      refine RwLock.ext ?_ ?_ rfl rfl (grants_pended hsame .r) rfl (grants_pended hsame .w) rfl
      · simp [rwOf, SemSystem.pended]
      · simp [rwOf, SemSystem.pended, ulong_of_lt (hok ho)]
    refine ⟨?_, ?_, ?_⟩
    · rw [heq]
      exact hr.lock.step hstep
    · simpa [SemSystem.pended] using hr.status
    · rw [heq]
      refine Eq.trans ?_ hcounter
      simp [SemSystem.pended]
  · refine hr.parks (p := .w) hb ht (.waitWrite t ?_)
    rw [← hcounter]
    exact hc

/-- A post that ends a hold is counted for the kind of that hold. -/
theorem RwOk.ended (hr : RwOk s e) :
    (fun u => count s.posts t e (s.rwKind e) u e .r) = ((s.rwOf e).ended t).readsEnded ∧
      (fun u => count s.posts t e (s.rwKind e) u e .w) = ((s.rwOf e).ended t).writesEnded := by
  have hone (x : Pend) : (fun u => count s.posts t e x u e x) = oneMore (fun u => s.posts u e x) t := by
    ext u
    simp [count, Mutex.oneMore_apply]
  cases ho : (s.kern.event e).pvTcbOwn with
  | none =>
    have hkind : s.rwKind e = .r := by simp [rwKind, hr.status, ho]
    rw [RwLock.ended_reading (l := s.rwOf e) ho, hkind]
    refine ⟨hone .r, ?_⟩
    ext u
    simp [count, rwOf]
  | some o =>
    have hkind : s.rwKind e = .w := by simp [rwKind, hr.status, ho]
    rw [RwLock.ended_writing (l := s.rwOf e) ho, hkind]
    refine ⟨?_, hone .w⟩
    ext u
    simp [count, rwOf]

omit [DecidableEq T] in
/-- A thread that waits for a reader-writer semaphore is inside the pend function of its queue. -/
theorem Base.call_semRW (hb : s.Base) (hty : (s.kern.event e).ucType = .semRW)
    (hw : s.kern.Waits t e q) :
    (q = eventRwQR → s.call t = some (e, .r)) ∧ (q = eventRwQW → s.call t = some (e, .w)) := by
  obtain ⟨p, hp, hq, hpt⟩ := hb.call t e q hw
  rw [hty] at hpt
  subst hq
  cases p with
  | m => simp [Pend.type] at hpt
  | r => exact ⟨fun _ => hp, fun hq => by simp [Pend.queue, eventRwQR, eventRwQW] at hq⟩
  | w => exact ⟨fun hq => by simp [Pend.queue, eventRwQR, eventRwQW] at hq, fun _ => hp⟩

theorem RwOk.passWriter (hb : s.Base) (hr : RwOk s e)
    (hty : (s.kern.event e).ucType = .semRW) (hl : (s.rwOf e).LastHold t) {k₁ : KernState T E}
    (hwait : s.kern.Waits u e eventRwQW) (hleave : s.kern.Leaves k₁ u e eventRwQW)
    (hto : (k₁.tcb u).ucWaitTimeout = false) :
    RwOk (s.posted t e (s.rwKind e) (k₁.modEvent e fun ev =>
      { ev with pvTcbOwn := some u, iStatus := .w }, .none)) e := by
  have hended := hr.ended (t := t)
  have hsame := RwLock.ended_same (s.rwOf e) t
  have hmod : k₁.SameWait (k₁.modEvent e fun ev =>
      { ev with pvTcbOwn := some u, iStatus := .w }) := sameWait_modEvent rfl rfl
  have hwakes := (hleave.wakes hto).trans hmod
  have hcall := (hb.call_semRW hty hwait).2 rfl
  have hgrants (v : T) (x : Pend) := grants_wakes (u := v) (e := e) (p := x)
    (s.posted t e (s.rwKind e) (_, .none)) hwakes (fun v hv => ⟨e, _, hv ▸ hwait⟩) rfl rfl
  obtain ⟨-, hcnt, hptr, -⟩ := hleave.core
  have heq : (s.posted t e (s.rwKind e) (k₁.modEvent e fun ev =>
      { ev with pvTcbOwn := some u, iStatus := .w }, .none)).rwOf e =
      { (s.rwOf e).ended t with
        writer := some u
        waitW := (s.rwOf e).waitW \ {u}
        writesBegun := oneMore (s.rwOf e).writesBegun u } := by
    refine RwLock.ext ?_ ?_ ?_ ?_ ?_ hended.1 ?_ hended.2
    · simp [rwOf, SemSystem.posted]
    · refine Eq.trans ?_ hsame.2.2.2.2.symm
      simp [rwOf, SemSystem.posted, hptr]
    · refine Eq.trans ?_ hsame.1.symm
      ext v
      have hne : s.kern.Waits v e eventRwQR → v ≠ u := by
        rintro hv rfl
        exact absurd (hv.2.symm.trans hwait.2) (by decide)
      simp only [rwOf, SemSystem.posted, hwakes.waits, Set.mem_ofPred_eq]
      tauto
    · ext v
      simp [rwOf, SemSystem.posted, hwakes.waits]
    · refine Eq.trans ?_ hsame.2.2.1.symm
      ext v
      refine (hgrants v .r).trans ?_
      rw [if_neg]
      · rfl
      · rintro ⟨rfl, -, hv⟩
        simp [hcall] at hv
    · ext v
      refine (hgrants v .w).trans ((Mutex.oneMore_apply _ u v).trans ?_).symm
      by_cases hv : v = u
      · subst hv
        simp [hcall, rwOf]
      · simp [hv, rwOf]
  have hlock := hr.lock.step (.passWriter t u hl hwait)
  refine ⟨?_, ?_, ?_⟩
  · rw [heq]
    exact hlock
  · simp [SemSystem.posted]
  · rw [heq, hlock.holders_of_writer (by simp), ← hr.lock.holders_of_lastHold hl, ← hr.counter]
    simp [SemSystem.posted, hcnt]

open Classical in
theorem RwOk.passReaders (hT : Fintype.card T < 2 ^ 16) (hw : 32 ≤ w) (hb : s.Base)
    (hr : RwOk s e) (hty : (s.kern.event e).ucType = .semRW) (hl : (s.rwOf e).LastHold t)
    {k₁ : KernState T E} (hn : s.kern.eventWaitNum e eventRwQR ≠ 0)
    (hleave : s.kern.ReadersLeave k₁ e)
    (hcount : (s.kern.event e).ulCounter - 1 + s.kern.waiting e eventRwQR < 2 ^ w →
      (k₁.event e).ulCounter = (s.kern.event e).ulCounter - 1 + s.kern.waiting e eventRwQR) :
    RwOk (s.posted t e (s.rwKind e) (k₁.modEvent e fun ev =>
      { ev with pvTcbOwn := none, iStatus := .r }, .none)) e := by
  have hended := hr.ended (t := t)
  have hsame := RwLock.ended_same (s.rwOf e) t
  have hvacant := hr.lock.vacant hl
  have hone := hr.lock.holders_of_lastHold hl
  rw [← hr.counter] at hone
  have hmod : k₁.SameWait (k₁.modEvent e fun ev =>
      { ev with pvTcbOwn := none, iStatus := .r }) := sameWait_modEvent rfl rfl
  have hwakes := hleave.wakes.trans hmod
  have hgrants (v : T) (x : Pend) := grants_wakes (u := v) (e := e) (p := x)
    (s.posted t e (s.rwKind e) (_, .none)) hwakes (fun v hv => ⟨e, _, hv⟩) rfl rfl
  have hptr : (k₁.event e).pvPtr = (s.kern.event e).pvPtr := by rw [hleave.event]
  have heq : (s.posted t e (s.rwKind e) (k₁.modEvent e fun ev =>
      { ev with pvTcbOwn := none, iStatus := .r }, .none)).rwOf e =
      { (s.rwOf e).ended t with
        waitR := ∅
        readsBegun := fun u => (s.rwOf e).readsBegun u + if u ∈ (s.rwOf e).waitR then 1 else 0 } := by
    refine RwLock.ext ?_ ?_ ?_ ?_ ?_ hended.1 ?_ hended.2
    · refine Eq.trans ?_ hvacant.writer.symm
      simp [rwOf, SemSystem.posted]
    · refine Eq.trans ?_ hsame.2.2.2.2.symm
      simp [rwOf, SemSystem.posted, hptr]
    · ext v
      simp [rwOf, SemSystem.posted, hwakes.waits]
    · refine Eq.trans ?_ hsame.2.1.symm
      ext v
      have hne : s.kern.Waits v e eventRwQW → ¬ s.kern.Waits v e eventRwQR := by
        intro h₁ h₂
        exact absurd (h₁.2.symm.trans h₂.2) (by decide)
      simp only [rwOf, SemSystem.posted, hwakes.waits, Set.mem_ofPred_eq]
      tauto
    · ext v
      refine (hgrants v .r).trans ?_
      by_cases hv : s.kern.Waits v e eventRwQR
      · simp [rwOf, hv, (hb.call_semRW hty hv).1 rfl]
      · simp [rwOf, hv]
    · refine Eq.trans ?_ hsame.2.2.2.1.symm
      ext v
      refine (hgrants v .w).trans ?_
      rw [if_neg]
      · rfl
      · rintro ⟨hv, -, hcall⟩
        simp [(hb.call_semRW hty hv).1 rfl] at hcall
  have hlock := hr.lock.step (.passReaders t hl (waitR_ne_empty hb hn))
  refine ⟨?_, ?_, ?_⟩
  · rw [heq]
    exact hlock
  · simp [SemSystem.posted]
  · have hholders : ({ (s.rwOf e).ended t with
        waitR := ∅
        readsBegun := fun u => (s.rwOf e).readsBegun u +
          if u ∈ (s.rwOf e).waitR then 1 else 0 } : RwLock T).holders =
        (Finset.univ.filter fun u => u ∈ (s.rwOf e).waitR).card :=
      hvacant.holders_readers hvacant.writer rfl fun u => by rw [hsame.2.2.1]
    have hcard : (Finset.univ.filter fun u => u ∈ (s.rwOf e).waitR).card =
        s.kern.waiting e eventRwQR := by
      rw [waiting]
      congr
    have hlt : s.kern.waiting e eventRwQR < 2 ^ w := by
      have hle : s.kern.waiting e eventRwQR ≤ Fintype.card T := Finset.card_le_univ _
      have hpow : 2 ^ 16 ≤ 2 ^ w := Nat.pow_le_pow_right (by omega) (by omega)
      omega
    rw [hone] at hcount
    rw [heq, hholders, hcard]
    simp only [SemSystem.posted, modEvent_self]
    rw [hcount (by omega)]
    omega

theorem RwOk.freed (hb : s.Base) (hr : RwOk s e) (hl : (s.rwOf e).LastHold t)
    (hnr : s.kern.eventWaitNum e eventRwQR = 0) (hnw : s.kern.eventWaitNum e eventRwQW = 0) :
    RwOk (s.posted t e (s.rwKind e) (s.kern.modEvent e fun ev =>
      { ev with ulCounter := ev.ulCounter - 1, pvTcbOwn := none, iStatus := .r }, .none)) e := by
  have hended := hr.ended (t := t)
  have hsame := RwLock.ended_same (s.rwOf e) t
  have hvacant := hr.lock.vacant hl
  have hone := hr.lock.holders_of_lastHold hl
  rw [← hr.counter] at hone
  have heq : (s.posted t e (s.rwKind e) (s.kern.modEvent e fun ev =>
      { ev with ulCounter := ev.ulCounter - 1, pvTcbOwn := none, iStatus := .r }, .none)).rwOf e =
      (s.rwOf e).ended t := by
    refine RwLock.ext ?_ ?_ hsame.1.symm hsame.2.1.symm hsame.2.2.1.symm hended.1
      hsame.2.2.2.1.symm hended.2
    · refine Eq.trans ?_ hvacant.writer.symm
      simp [rwOf, SemSystem.posted]
    · refine Eq.trans ?_ hsame.2.2.2.2.symm
      simp [rwOf, SemSystem.posted]
  refine ⟨?_, ?_, ?_⟩
  · rw [heq]
    exact hr.lock.step (.free t hl (waitR_empty hb hnr) (waitW_empty hb hnw))
  · simp [SemSystem.posted]
  · rw [heq, hvacant.holders]
    simp [SemSystem.posted, hone]

theorem RwOk.released (hT : Fintype.card T < 2 ^ 16) (hw : 32 ≤ w) (hb : s.Base) (hr : RwOk s e)
    (hty : (s.kern.event e).ucType = .semRW) (hl : (s.rwOf e).LastHold t) {b : Bool}
    (hbr : b = true → s.kern.eventWaitNum e eventRwQR ≠ 0)
    (h : s.kern.releasePend w e b = some k') :
    RwOk (s.posted t e (s.rwKind e) (k', .none)) e := by
  rcases releasePend_cases hT hb.event h with ⟨-, u, k₁, hwait, hleave, hto, rfl⟩ |
    ⟨-, hn, k₁, hk₁, hleave, hcount, rfl⟩ | ⟨hn, hnr, rfl⟩
  · exact hr.passWriter hb hty hl hwait hleave hto
  · exact hr.passReaders hT hw hb hty hl hn hleave hcount
  · cases hn with
    | inl hn => exact hr.freed hb hl hnr hn
    | inr hb' => exact absurd hnr (hbr hb')

omit [DecidableEq T] [Fintype T] in
/-- A thread that reads has a reading to end. -/
theorem RwOk.reads_ne_zero (hok : RwStepOk w s (.rwPost t e)) (hst : (s.kern.event e).iStatus = .r)
    (hc : (s.kern.event e).ulCounter ≠ 0) : (s.rwOf e).reads t ≠ 0 := by
  have hlt := hok hst hc
  rw [RwLock.reads]
  simp only [rwOf]
  omega

theorem RwOk.readers_eq (hr : RwOk s e) (hst : (s.kern.event e).iStatus = .r) :
    (s.rwOf e).readers = (s.kern.event e).ulCounter := by
  rw [hr.counter, RwLock.holders, if_pos (show (s.rwOf e).writer = none from hr.owner_none hst)]
  rfl

theorem RwOk.endRead (hr : RwOk s e) (hok : RwStepOk w s (.rwPost t e))
    (hst : (s.kern.event e).iStatus = .r) (hgt : (s.kern.event e).ulCounter > 1) :
    RwOk (s.posted t e (s.rwKind e) (s.kern.modEvent e fun ev =>
      { ev with ulCounter := ev.ulCounter - 1 }, .none)) e := by
  have hended := hr.ended (t := t)
  have hfree := hr.owner_none hst
  have hreads := RwOk.reads_ne_zero hok hst (by omega)
  have hreaders := hr.readers_eq hst
  have heq : (s.posted t e (s.rwKind e) (s.kern.modEvent e fun ev =>
      { ev with ulCounter := ev.ulCounter - 1 }, .none)).rwOf e =
      { s.rwOf e with readsEnded := oneMore (s.rwOf e).readsEnded t } := by
    rw [RwLock.ended_reading (l := s.rwOf e) hfree] at hended
    refine RwLock.ext ?_ ?_ rfl rfl rfl hended.1 rfl hended.2
    · simp [rwOf, SemSystem.posted]
    · simp [rwOf, SemSystem.posted]
  refine ⟨?_, ?_, ?_⟩
  · rw [heq]
    exact hr.lock.step (.endRead t hfree hreads (by omega))
  · simpa [SemSystem.posted] using hr.status
  · have hcount := RwLock.holders_endRead (l := s.rwOf e) hfree hreads
    rw [← hr.counter] at hcount
    rw [heq]
    simp only [SemSystem.posted, KernState.modEvent_self]
    omega

theorem RwOk.giveBack (hr : RwOk s e) (ho : (s.kern.event e).pvTcbOwn = some t)
    (hp : (s.kern.event e).pvPtr ≠ 0) :
    RwOk (s.posted t e (s.rwKind e) (s.kern.modEvent e fun ev =>
      { ev with pvPtr := ev.pvPtr - 1 }, .none)) e := by
  have hended := hr.ended (t := t)
  have heq : (s.posted t e (s.rwKind e) (s.kern.modEvent e fun ev =>
      { ev with pvPtr := ev.pvPtr - 1 }, .none)).rwOf e =
      { s.rwOf e with
        extra := (s.rwOf e).extra - 1
        writesEnded := oneMore (s.rwOf e).writesEnded t } := by
    rw [RwLock.ended_writing (l := s.rwOf e) ho] at hended
    refine RwLock.ext ?_ ?_ rfl rfl rfl hended.1 rfl hended.2
    · simp [rwOf, SemSystem.posted]
    · simp [rwOf, SemSystem.posted]
  refine ⟨?_, ?_, ?_⟩
  · rw [heq]
    exact hr.lock.step (.giveBack t ho hp)
  · simpa [SemSystem.posted] using hr.status
  · rw [heq]
    refine Eq.trans ?_ hr.counter
    simp [SemSystem.posted]

theorem RwOk.posted (hT : Fintype.card T < 2 ^ 16) (hw : 32 ≤ w) (hb : s.Base) (hr : RwOk s e)
    (hok : RwStepOk w s (.rwPost t e)) (h : s.kern.semaphoreRWPost w t e = some (k', err)) :
    RwOk (s.posted t e (s.rwKind e) (k', err)) e := by
  rcases semaphoreRWPost_cases h with ⟨rfl, herr⟩ | ⟨-, hst, hgt, rfl, rfl⟩ |
    ⟨hty, hst, hc, rfl, b, hbr, hrel⟩ | ⟨-, hst, hc, ho, hp, rfl, rfl⟩ |
    ⟨hty, hst, hc, ho, hp, rfl, hrel⟩
  · cases err with
    | none => exact absurd rfl herr
    | _ => exact hr
  · exact hr.endRead hok hst hgt
  · have hreads := RwOk.reads_ne_zero hok hst (by omega)
    have hreaders := hr.readers_eq hst
    exact hr.released hT hw hb hty (.inr ⟨hr.owner_none hst, hreads, by omega⟩) hbr hrel
  · exact hr.giveBack ho hp
  · exact hr.released hT hw hb hty (.inl ⟨ho, hp⟩) (fun hf => by simp at hf) hrel

theorem RwOk.tick (hb : s.Base) (hr : RwOk s e) (hok : RwStepOk w s (.tick t))
    (hwait : s.kern.Waits t e q) : RwOk { s with kern := s.kern.threadTick t } e := by
  have hl := threadTick_leaves hwait (hb.event.exist t) (by rw [hb.event.sem, hwait.1]; rfl)
  obtain ⟨hown, hcnt, hptr, hst⟩ := hl.1.core
  have hgrants (u : T) (x : Pend) : (({ s with kern := s.kern.threadTick t } : SemSystem T E).grants
      u e x) = s.grants u e x := by
    have hg := grants_wakes (u := u) (e := e) (p := x)
      { s with kern := s.kern.threadTick t } (hl.1.wakes hl.2) (fun v hv => ⟨e, _, hv ▸ hwait⟩)
      rfl rfl
    rw [hg, if_neg (by simp)]
    rfl
  have hwaits (x : Fin 2) : {u | (s.kern.threadTick t).Waits u e x} =
      {u | s.kern.Waits u e x} \ {t} := by
    ext u
    simp [hl.1.waits]
  have hrest (x : Fin 2) (hx : x ≠ q) : {u | s.kern.Waits u e x} \ {t} =
      {u | s.kern.Waits u e x} := by
    ext u
    simp only [Set.mem_sdiff, Set.mem_ofPred_eq, Set.mem_singleton_iff, and_iff_left_iff_imp]
    rintro hu rfl
    exact hx (hu.2.symm.trans hwait.2)
  have heq : (({ s with kern := s.kern.threadTick t } : SemSystem T E).rwOf e) =
      { s.rwOf e with
        waitR := (s.rwOf e).waitR \ {t}
        waitW := (s.rwOf e).waitW \ {t} } := by
    refine RwLock.ext hown hptr (hwaits _) (hwaits _) ?_ rfl ?_ rfl
    · ext u
      exact hgrants u .r
    · ext u
      exact hgrants u .w
  have hlock : (s.rwOf e).Step
      { s.rwOf e with
        waitR := (s.rwOf e).waitR \ {t}
        waitW := (s.rwOf e).waitW \ {t} } := by
    by_cases hq : q = eventRwQW
    · subst hq
      have hR : (s.rwOf e).waitR \ {t} = (s.rwOf e).waitR := hrest eventRwQR (by decide)
      rw [hR]
      refine .leaveWrite t ?_
      by_contra hno
      simp only [not_or, not_not] at hno
      obtain ⟨hfree, hempty, hwaitR⟩ := hno
      refine hok e hwait ⟨?_, ?_, fun hn => hwaitR (waitR_empty hb hn)⟩
      · rw [hr.status]
        exact if_pos hfree
      · refine hb.event.waitNum_eq_one hwait fun u hu => ?_
        by_contra hne
        have hmem : u ∈ (s.rwOf e).waitW \ {t} := ⟨hu, hne⟩
        rw [hempty] at hmem
        exact hmem
    · have hW : (s.rwOf e).waitW \ {t} = (s.rwOf e).waitW := hrest eventRwQW (Ne.symm hq)
      rw [hW]
      exact .leaveRead t
  refine ⟨?_, ?_, ?_⟩
  · rw [heq]
    exact hr.lock.step hlock
  · change ((s.kern.threadTick t).event e).iStatus =
      if ((s.kern.threadTick t).event e).pvTcbOwn = none then .r else .w
    rw [hown, hst]
    exact hr.status
  · rw [heq]
    exact hcnt.trans hr.counter

theorem RwOk.step (hT : Fintype.card T < 2 ^ 16) (hw : 32 ≤ w) (hb : s.Base) (hr : RwOk s e)
    (hty : (s.kern.event e).ucType = .semRW) (hok : RwStepOk w s a)
    (hs : SemSystem.step w s a = some s') : RwOk s' e := by
  by_cases htouch : s.Touches e a
  · cases a with
    | pend p t d ulTimeout =>
      obtain ⟨rfl, hp⟩ := htouch
      rw [hty] at hp
      simp only [SemSystem.step, Option.ite_none_right_eq_some, Option.map_eq_some_iff] at hs
      obtain ⟨ht, ⟨k', r⟩, h, rfl⟩ := hs
      cases p with
      | m => simp [Pend.type] at hp
      | r => exact hr.pendedR hb ht hok h
      | w => exact hr.pendedW hw hb ht hok h
    | mPost t d =>
      obtain ⟨rfl, hp⟩ := htouch
      rw [hty] at hp
      simp at hp
    | rwPost t d =>
      obtain ⟨rfl, -⟩ := htouch
      simp only [SemSystem.step, Option.ite_none_right_eq_some, Option.map_eq_some_iff] at hs
      obtain ⟨-, ⟨k', err⟩, h, rfl⟩ := hs
      exact hr.posted hT hw hb hok h
    | ret t => exact htouch.elim
    | tick t =>
      obtain ⟨q, hwait⟩ := htouch
      simp only [SemSystem.step, Option.ite_none_right_eq_some, Option.some.injEq] at hs
      obtain ⟨-, rfl⟩ := hs
      exact hr.tick hb hok hwait
  · exact hr.same ((hb.step hT hs).same e htouch)

theorem Init.rwOk (h : Init s) (hty : (s.kern.event e).ucType = .semRW) : RwOk s e := by
  have hcount (t : T) (p : Pend) : s.grants t e p = 0 ∧ s.posts t e p = 0 := by
    have hcall := (h.ready t).2.2
    exact ⟨by simp [grants, granted, h.pends, hcall], h.posts t e p⟩
  have hwaits (t : T) (q : Fin 2) : ¬ s.kern.Waits t e q := by
    have hwait := (h.ready t).2.1
    simp [KernState.Waits, hwait]
  have hreads (t : T) : (s.rwOf e).reads t = 0 := by
    simp [RwLock.reads, rwOf, hcount]
  refine ⟨⟨?_, ?_, ?_, ?_, ?_, ?_⟩, ?_, ?_⟩
  · intro t
    simp [rwOf, hcount, h.free]
  · intro t
    simp [rwOf, hcount]
  · exact fun _ => hreads
  · intro _
    exact (h.free e).2
  · intro hne
    exact absurd (by simp [rwOf, hwaits]) hne
  · intro hne
    exact absurd (by simp [rwOf, hwaits]) hne
  · rw [(h.free e).1, (h.semRW e hty).2]
    rfl
  · rw [(h.semRW e hty).1]
    exact (RwLock.holders_eq_zero.mpr ⟨(h.free e).1, hreads⟩).symm

/-- What a reader-writer semaphore is for. The holders are the readings that go on, a thread that
reads several times counted as often, and a writer. -/
structure RwSafe (w : ℕ) (s : SemSystem T E) (e : E) : Prop where
  alone : ∀ t, s.Holds t e .w → ∀ u, ¬ s.Holds u e .r ∧ (s.Holds u e .w → u = t)
  counter : (s.kern.event e).ulCounter =
    (∑ t, (s.grants t e .r - s.posts t e .r)) + (Finset.univ.filter fun t => s.Holds t e .w).card
  ended : ∀ t, s.posts t e .r ≤ s.grants t e .r
  status : (s.kern.event e).iStatus = .w ↔ ∃ t, s.Holds t e .w
  owner : ∀ t, s.Holds t e .w ↔ (s.kern.event e).pvTcbOwn = some t
  recursion : ∀ t, (s.kern.event e).pvTcbOwn = some t →
    s.grants t e .w = s.posts t e .w + ((s.kern.event e).pvPtr + 1)
  readersWait : ∀ t, s.kern.Waits t e eventRwQR →
    ∀ u ulTimeout k', s.kern.semaphoreRWPendR w u e ulTimeout ≠ some (k', some .none)
  writersWait : ∀ t, s.kern.Waits t e eventRwQW → ∀ u, (s.kern.event e).pvTcbOwn ≠ some u →
    ∀ ulTimeout k', s.kern.semaphoreRWPendW w u e ulTimeout ≠ some (k', some .none)
  total : ∀ t, s.canCall t → (SemSystem.step w s (.rwPost t e)).isSome ∧ ∀ ulTimeout,
    (SemSystem.step w s (.pend .r t e ulTimeout)).isSome ∧
      (SemSystem.step w s (.pend .w t e ulTimeout)).isSome

theorem RwOk.holds_write (hr : RwOk s e) :
    s.Holds t e .w ↔ (s.kern.event e).pvTcbOwn = some t := hr.lock.writes_iff

theorem RwOk.writers (hr : RwOk s e) : (Finset.univ.filter fun t => s.Holds t e .w).card =
    if (s.kern.event e).pvTcbOwn = none then 0 else 1 := by
  cases ho : (s.kern.event e).pvTcbOwn with
  | none =>
    rw [if_pos rfl, Finset.card_eq_zero, Finset.filter_eq_empty_iff]
    intro t _
    simp [hr.holds_write, ho]
  | some o =>
    rw [if_neg (by simp), Finset.card_eq_one]
    refine ⟨o, ?_⟩
    ext t
    simp [hr.holds_write, ho, eq_comm (a := o)]

theorem RwOk.alone (hr : RwOk s e) (ht : s.Holds t e .w) :
    ¬ s.Holds u e .r ∧ (s.Holds u e .w → u = t) := by
  rw [hr.holds_write] at ht
  refine ⟨?_, fun hu => ?_⟩
  · have hreads := hr.lock.alone (by simp [rwOf, ht]) u
    rw [RwLock.reads] at hreads
    simp only [rwOf] at hreads
    rw [Holds]
    omega
  · rw [hr.holds_write, ht] at hu
    exact (Option.some.inj hu).symm

theorem RwOk.readersWait (hb : s.Base) (hr : RwOk s e) (ht : s.kern.Waits t e eventRwQR) :
    s.kern.semaphoreRWPendR w u e ulTimeout ≠ some (k', some .none) := by
  intro h
  rcases semaphoreRWPendR_cases h with ⟨-, err, herr, hnone⟩ | ⟨-, hst, hn, -, -⟩ |
    ⟨-, -, hnone, -⟩
  · exact herr (Option.some.inj hnone).symm
  · have hmem : t ∈ (s.rwOf e).waitR := ht
    rcases hr.lock.readersWait (Set.nonempty_iff_ne_empty.mp ⟨t, hmem⟩) with hown | hwait
    · exact hown (hr.owner_none hst)
    · exact hwait (waitW_empty hb hn)
  · simp at hnone

theorem RwOk.writersWait (hr : RwOk s e) (ht : s.kern.Waits t e eventRwQW)
    (hu : (s.kern.event e).pvTcbOwn ≠ some u) :
    s.kern.semaphoreRWPendW w u e ulTimeout ≠ some (k', some .none) := by
  intro h
  rcases semaphoreRWPendW_cases h with ⟨-, err, herr, hnone⟩ | ⟨-, hc, -, -⟩ |
    ⟨-, -, ho, -, -⟩ | ⟨-, -, -, hnone, -⟩
  · exact herr (Option.some.inj hnone).symm
  · have hmem : t ∈ (s.rwOf e).waitW := ht
    refine hr.lock.writersWait (Set.nonempty_iff_ne_empty.mp ⟨t, hmem⟩) ?_
    rw [← hr.counter, hc]
  · exact hu ho
  · simp at hnone

theorem RwOk.safe (hT : Fintype.card T < 2 ^ 16) (hb : s.Base) (hr : RwOk s e) : RwSafe w s e where
  alone t ht u := hr.alone ht
  counter := by
    rw [hr.counter, hr.writers]
    rfl
  ended := hr.lock.ended_le
  status := by
    rw [hr.status]
    simp only [hr.holds_write, ← Option.ne_none_iff_exists']
    split_ifs with ho <;> simp [ho]
  owner t := hr.holds_write
  recursion t ht := by
    have hwrites := hr.lock.writes t
    rw [if_pos (show (s.rwOf e).writer = some t from ht)] at hwrites
    exact hwrites
  readersWait t ht u ulTimeout k' := hr.readersWait hb ht
  writersWait t ht u hu ulTimeout k' := hr.writersWait ht hu
  total t ht := by
    have hpost := hb.event.semaphoreRWPost_isSome hT w t e
    refine ⟨by simp [SemSystem.step, ht, hpost], fun ulTimeout => ⟨?_, ?_⟩⟩
    · simp only [SemSystem.step, ht, if_true, Option.isSome_map, KernState.pend]
      unfold KernState.semaphoreRWPendR
      dsimp only
      split_ifs <;> rfl
    · simp only [SemSystem.step, ht, if_true, Option.isSome_map, KernState.pend]
      unfold KernState.semaphoreRWPendW
      dsimp only
      split_ifs <;> rfl

/-- In every run that meets the conditions, a reader-writer semaphore is safe. -/
theorem semaphoreRW_safe (hT : Fintype.card T < 2 ^ 16) (hw : 32 ≤ w)
    (h : Reach (SemSystem.step w) (RwStepOk w) Init s) (hty : (s.kern.event e).ucType = .semRW) :
    RwSafe w s e := by
  have hinv : s.Base ∧ ∀ e, (s.kern.event e).ucType = .semRW → RwOk s e := by
    apply h.invariant (fun _ hi => ⟨Init.base hi, fun _ => Init.rwOk hi⟩)
    intro s a s' hi hok hs
    have hgood := hi.1.step hT hs
    refine ⟨hgood.base, fun e he => ?_⟩
    rw [hgood.type] at he
    exact (hi.2 e he).step hT hw hi.1 he hok hs
  exact (hinv.2 e hty).safe hT hinv.1

def rwOption : EventOption := ⟨true, false, false, false, false⟩

/-- Three threads and a reader-writer semaphore. -/
def threeThreads : SemSystem (Fin 3) Unit := fresh (fun _ => 100) .semRW rwOption

/-- A writer waits for a reader, and is handed the semaphore. -/
theorem semaphoreRW_safe_threeThreads : ∃ s,
    runs (SemSystem.step 64) threeThreads [.pend .r 0 () 5, .pend .w 1 () 5, .rwPost 0 ()] =
        some s ∧
      (s.kern.event ()).pvTcbOwn = some 1 ∧ RwSafe 64 s () := by
  have h₀ : Reach (SemSystem.step 64) (RwStepOk 64) Init threeThreads := .start (fresh_init _ _ _)
  have h₁ := h₀.extend (.pend .r 0 () 5) (show 0 + 1 < 2 ^ 64 by decide) rfl
  have h₂ := h₁.extend (.pend .w 1 () 5) (fun h => by cases h) rfl
  have h₃ := h₂.extend (.rwPost 0 ()) (fun _ _ => by decide) rfl
  exact ⟨_, rfl, rfl, semaphoreRW_safe (by decide) (by decide) h₃ rfl⟩

/-- The first thread reads, the second waits to write and times out: the third, which waits to read
because of the second, still waits, although the first could begin to read once more. -/
theorem semaphoreRW_stranded : ∃ s,
    runs (SemSystem.step 64) threeThreads
        [.pend .r 0 () 5, .pend .w 1 () 5, .pend .r 2 () 5, .tick 1] = some s ∧
      s.kern.Waits 2 () eventRwQR ∧ ¬ RwSafe 64 s () := by
  refine ⟨_, rfl, ⟨rfl, rfl⟩, fun h => ?_⟩
  exact h.readersWait 2 ⟨rfl, rfl⟩ 0 0 _ rfl

end SylixOS.Kernel.SemSystem
