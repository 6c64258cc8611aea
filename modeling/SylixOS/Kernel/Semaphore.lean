import SylixOS.Kernel.EventQueue

/-! # Mutex and reader-writer semaphores

The parts of the pend and post functions between `__KERNEL_ENTER` and `__KERNEL_EXIT`, which no
other one of them interrupts. A pend function that begins to wait returns nothing there; what it
returns when the thread runs again is `pendReturn`. The event exists, the system runs, no signal
arrives and no thread is deleted.
-/

namespace SylixOS.Kernel.KernState

variable {T E : Type} [DecidableEq T] [DecidableEq E]

/-- The queue of readers and of the threads that wait for a mutex. -/
def eventSemQ : Fin 2 := 0

def eventRwQR : Fin 2 := 0

def eventRwQW : Fin 2 := 1

variable (w : ℕ) (k : KernState T E) (t : T) (e : E)

/-- `_EventPrioTryBoost`. Without an owner the source reads through a null pointer. -/
def eventPrioTryBoost : Option (KernState T E) := do
  let o ← (k.event e).pvTcbOwn
  if (k.tcb o).iDeleteProcStatus then some k
  else if (k.tcb t).ucPriority < (k.tcb o).ucPriority then
    if (k.event e).ulOption.inheritPriority then
      some (k.schedSetPrio o (k.tcb t).ucPriority)
    else if (k.event e).ucCeilingPriority < (k.tcb o).ucPriority then
      some (k.schedSetPrio o (k.event e).ucCeilingPriority)
    else some k
  else some k

/-- `_EventPrioTryResume`. -/
def eventPrioTryResume : KernState T E :=
  let ucPriorityOld : Prio := Fin.ofNat 256 (k.event e).ulMaxCounter
  if (k.tcb t).ucPriority ≠ ucPriorityOld then k.schedSetPrio t ucPriorityOld else k

/-- `API_SemaphoreMPend`. -/
def semaphoreMPend (ulTimeout : ℕ) : Option (KernState T E × Option Error) :=
  let ev := k.event e
  if ev.ucType ≠ .mutex then some (k, some .eventType)
  else if ev.ulCounter ≠ 0 then
    some (k.modEvent e fun ev =>
      { ev with ulCounter := 0, ulMaxCounter := (k.tcb t).ucPriority, pvTcbOwn := some t },
      some .none)
  else if ¬ ev.ulOption.normal ∧ ev.pvTcbOwn = some t then
    if ev.ulOption.errorcheck then some (k, some .edeadlk)
    else some (k.modEvent e fun ev => { ev with pvPtr := ulong w (ev.pvPtr + 1) }, some .none)
  else if ulTimeout = 0 then some (k, some .threadWaitTimeout)
  else (k.eventPrioTryBoost t e).map fun k => (k.pendWait t e w eventSemQ ulTimeout, none)

/-- `API_SemaphoreMPost`. -/
def semaphoreMPost : Option (KernState T E × Error) :=
  let ev := k.event e
  if ev.ucType ≠ .mutex then some (k, .eventType)
  else if ev.pvTcbOwn ≠ some t then some (k, .eventNotOwn)
  else if ev.pvPtr ≠ 0 then
    some (k.modEvent e fun ev => { ev with pvPtr := ev.pvPtr - 1 }, .none)
  else if k.eventWaitNum e eventSemQ ≠ 0 then do
    let (u, k) ← k.eventReadyLowLevel e eventSemQ
    let k := k.eventPrioTryResume t e
    let k := k.modEvent e fun ev =>
      { ev with ulMaxCounter := (k.tcb u).ucPriority, pvTcbOwn := some u }
    some (k.eventReadyHighLevel u, .none)
  else if ev.ulCounter = 0 then
    some (k.modEvent e fun ev =>
      { ev with ulCounter := 1, ulMaxCounter := prioLowest, pvTcbOwn := none }, .none)
  else some (k, .eventFull)

/-- `API_SemaphoreRWPendR`. -/
def semaphoreRWPendR (ulTimeout : ℕ) : Option (KernState T E × Option Error) :=
  let ev := k.event e
  if ev.ucType ≠ .semRW then some (k, some .eventType)
  else if ev.iStatus = .r ∧ k.eventWaitNum e eventRwQW = 0 then
    some (k.modEvent e fun ev => { ev with ulCounter := ulong w (ev.ulCounter + 1) }, some .none)
  else if ulTimeout = 0 then some (k, some .threadWaitTimeout)
  else some (k.pendWait t e w eventRwQR ulTimeout, none)

/-- `API_SemaphoreRWPendW`. -/
def semaphoreRWPendW (ulTimeout : ℕ) : Option (KernState T E × Option Error) :=
  let ev := k.event e
  if ev.ucType ≠ .semRW then some (k, some .eventType)
  else if ev.ulCounter = 0 then
    some (k.modEvent e fun ev =>
      { ev with ulCounter := ulong w (ev.ulCounter + 1), iStatus := .w, pvTcbOwn := some t },
      some .none)
  else if ev.pvTcbOwn = some t then
    some (k.modEvent e fun ev => { ev with pvPtr := ulong w (ev.pvPtr + 1) }, some .none)
  else if ulTimeout = 0 then some (k, some .threadWaitTimeout)
  else some (k.pendWait t e w eventRwQW ulTimeout, none)

/-- The loop of `API_SemaphoreRWPost` that makes all waiting readers ready, with a bound on its
rounds. -/
def readyReaders : ℕ → KernState T E → Option (KernState T E)
  | 0, k => if k.eventWaitNum e eventRwQR ≠ 0 then none else some k
  | n + 1, k =>
    if k.eventWaitNum e eventRwQR ≠ 0 then do
      let (u, k) ← k.eventReadyLowLevel e eventRwQR
      let k := k.modEvent e fun ev => { ev with ulCounter := ulong w (ev.ulCounter + 1) }
      readyReaders n (k.eventReadyHighLevel u)
    else some k

/-- The part of `API_SemaphoreRWPost` behind `__release_pend`. -/
def releasePend (bIgnWrite : Bool) : Option (KernState T E) :=
  if k.eventWaitNum e eventRwQW ≠ 0 ∧ ¬ bIgnWrite then do
    let (u, k) ← k.eventReadyLowLevel e eventRwQW
    let k := k.eventReadyHighLevel u
    some (k.modEvent e fun ev => { ev with pvTcbOwn := some u, iStatus := .w })
  else if k.eventWaitNum e eventRwQR ≠ 0 then do
    let k := k.modEvent e fun ev => { ev with ulCounter := ev.ulCounter - 1 }
    let k ← readyReaders w e (k.eventWaitNum e eventRwQR) k
    some (k.modEvent e fun ev => { ev with pvTcbOwn := none, iStatus := .r })
  else
    some (k.modEvent e fun ev =>
      { ev with ulCounter := ev.ulCounter - 1, pvTcbOwn := none, iStatus := .r })

/-- `API_SemaphoreRWPost`. -/
def semaphoreRWPost : Option (KernState T E × Error) :=
  let ev := k.event e
  if ev.ucType ≠ .semRW then some (k, .eventType)
  else if ev.ulCounter = 0 then some (k, .eventNotOwn)
  else if ev.iStatus = .r then
    if ev.ulCounter > 1 then
      some (k.modEvent e fun ev => { ev with ulCounter := ev.ulCounter - 1 }, .none)
    else
      let bIgnWrite := !ev.ulOption.rwPreferWriter && k.eventWaitNum e eventRwQR != 0
      (k.releasePend w e bIgnWrite).map fun k => (k, .none)
  else if ev.pvTcbOwn ≠ some t then some (k, .eventNotOwn)
  else if ev.pvPtr ≠ 0 then
    some (k.modEvent e fun ev => { ev with pvPtr := ev.pvPtr - 1 }, .none)
  else (k.releasePend w e false).map fun k => (k, .none)

/-- What the pend functions return when they have waited. -/
def pendReturn : Error :=
  if (k.tcb t).ucWaitTimeout then .threadWaitTimeout
  else if (k.tcb t).ucIsEventDelete then .eventWasDeleted
  else .none

/-! ## What one call can do -/

section Cases
variable {w : ℕ} {k k' k₁ : KernState T E} {t u : T} {e : E} {r : Option Error} {err : Error}
  {ulTimeout : ℕ} {b : Bool}

omit [DecidableEq T] [DecidableEq E] in
theorem SameWait.refl (k : KernState T E) : SameWait k k where
  tcb t := ⟨(k.tcb t).ucPriority, rfl⟩
  queue _ := rfl
  option _ := rfl

omit [DecidableEq T] [DecidableEq E] in
theorem SameWait.trans (h : SameWait k k₁) (h₁ : SameWait k₁ k') : SameWait k k' where
  tcb t := by
    obtain ⟨p, hp⟩ := h.tcb t
    obtain ⟨p₁, hp₁⟩ := h₁.tcb t
    exact ⟨p₁, by rw [hp₁, hp]⟩
  queue e := (h₁.queue e).trans (h.queue e)
  option e := (h₁.option e).trans (h.option e)

omit [DecidableEq E] in
theorem sameWait_schedSetPrio (p : Prio) : SameWait k (k.schedSetPrio t p) where
  tcb u := by
    by_cases hu : u = t
    · subst hu
      exact ⟨p, modTcb_self _ _ _⟩
    · exact ⟨(k.tcb u).ucPriority, modTcb_of_ne _ _ _ hu⟩
  queue _ := rfl
  option _ := rfl

omit [DecidableEq T] in
theorem sameWait_modEvent {g : Event T → Event T}
    (hq : (g (k.event e)).wqWaitQ = (k.event e).wqWaitQ)
    (ho : (g (k.event e)).ulOption = (k.event e).ulOption) : SameWait k (k.modEvent e g) where
  tcb t := ⟨(k.tcb t).ucPriority, rfl⟩
  queue d := by
    by_cases hd : d = e
    · subst hd
      rw [modEvent_self, hq]
    · rw [modEvent_of_ne _ _ _ hd]
  option d := by
    by_cases hd : d = e
    · subst hd
      rw [modEvent_self, ho]
    · rw [modEvent_of_ne _ _ _ hd]

omit [DecidableEq E] in
theorem eventPrioTryBoost_cases (h : k.eventPrioTryBoost t e = some k₁) :
    ∃ o, (k.event e).pvTcbOwn = some o ∧ (k₁ = k ∨ ∃ p, k₁ = k.schedSetPrio o p) := by
  unfold eventPrioTryBoost at h
  cases ho : (k.event e).pvTcbOwn with
  | none => simp [ho] at h
  | some o =>
    refine ⟨o, rfl, ?_⟩
    simp only [ho, Option.bind_eq_bind, Option.bind_some] at h
    split_ifs at h
    all_goals
      rw [Option.some.injEq] at h
      subst h
      simp

omit [DecidableEq E] in
theorem sameWait_eventPrioTryBoost (h : k.eventPrioTryBoost t e = some k₁) : SameWait k k₁ := by
  obtain ⟨o, -, rfl | ⟨p, rfl⟩⟩ := eventPrioTryBoost_cases h
  · exact SameWait.refl _
  · exact sameWait_schedSetPrio p

omit [DecidableEq E] in
theorem eventPrioTryBoost_event (h : k.eventPrioTryBoost t e = some k₁) : k₁.event = k.event := by
  obtain ⟨o, -, rfl | ⟨p, rfl⟩⟩ := eventPrioTryBoost_cases h
  · rfl
  · rfl

/-- `API_SemaphoreMPend` fails, takes the free mutex, takes it once more, or waits. -/
theorem semaphoreMPend_cases (h : k.semaphoreMPend w t e ulTimeout = some (k', r)) :
    (k' = k ∧ ∃ err, err ≠ .none ∧ r = some err) ∨
    ((k.event e).ucType = .mutex ∧ (k.event e).ulCounter ≠ 0 ∧ r = some .none ∧
      k' = k.modEvent e fun ev =>
        { ev with ulCounter := 0, ulMaxCounter := (k.tcb t).ucPriority, pvTcbOwn := some t }) ∨
    ((k.event e).ucType = .mutex ∧ (k.event e).ulCounter = 0 ∧ (k.event e).pvTcbOwn = some t ∧
      r = some .none ∧
      k' = k.modEvent e fun ev => { ev with pvPtr := ulong w (ev.pvPtr + 1) }) ∨
    ((k.event e).ucType = .mutex ∧ (k.event e).ulCounter = 0 ∧ r = none ∧
      ∃ k₁, k.eventPrioTryBoost t e = some k₁ ∧ k' = k₁.pendWait t e w eventSemQ ulTimeout) := by
  unfold semaphoreMPend at h
  by_cases hty : (k.event e).ucType = .mutex
  · simp only [hty, ne_eq, not_true_eq_false, if_false] at h
    by_cases hc : (k.event e).ulCounter = 0
    · simp only [hc, not_true_eq_false, if_false] at h
      split_ifs at h with ho herr hto
      · simp only [Option.some.injEq, Prod.mk.injEq] at h
        exact .inl ⟨h.1.symm, _, by decide, h.2.symm⟩
      · simp only [Option.some.injEq, Prod.mk.injEq] at h
        exact .inr (.inr (.inl ⟨hty, hc, ho.2, h.2.symm, h.1.symm⟩))
      · simp only [Option.some.injEq, Prod.mk.injEq] at h
        exact .inl ⟨h.1.symm, _, by decide, h.2.symm⟩
      · simp only [Option.map_eq_some_iff, Prod.mk.injEq] at h
        obtain ⟨k₁, hk₁, hk', hr⟩ := h
        exact .inr (.inr (.inr ⟨hty, hc, hr.symm, k₁, hk₁, hk'.symm⟩))
    · simp only [hc, not_false_eq_true, if_true, Option.some.injEq, Prod.mk.injEq] at h
      exact .inr (.inl ⟨hty, hc, h.2.symm, h.1.symm⟩)
  · simp only [hty, ne_eq, not_false_eq_true, if_true, Option.some.injEq, Prod.mk.injEq] at h
    exact .inl ⟨h.1.symm, _, by decide, h.2.symm⟩

/-- `API_SemaphoreRWPendR` fails, reads, or waits. -/
theorem semaphoreRWPendR_cases (h : k.semaphoreRWPendR w t e ulTimeout = some (k', r)) :
    (k' = k ∧ ∃ err, err ≠ .none ∧ r = some err) ∨
    ((k.event e).ucType = .semRW ∧ (k.event e).iStatus = .r ∧ k.eventWaitNum e eventRwQW = 0 ∧
      r = some .none ∧
      k' = k.modEvent e fun ev => { ev with ulCounter := ulong w (ev.ulCounter + 1) }) ∨
    ((k.event e).ucType = .semRW ∧
      ¬ ((k.event e).iStatus = .r ∧ k.eventWaitNum e eventRwQW = 0) ∧ r = none ∧
      k' = k.pendWait t e w eventRwQR ulTimeout) := by
  unfold semaphoreRWPendR at h
  by_cases hty : (k.event e).ucType = .semRW
  · simp only [hty, ne_eq, not_true_eq_false, if_false] at h
    split_ifs at h with hc hto
    · simp only [Option.some.injEq, Prod.mk.injEq] at h
      exact .inr (.inl ⟨hty, hc.1, hc.2, h.2.symm, h.1.symm⟩)
    · simp only [Option.some.injEq, Prod.mk.injEq] at h
      exact .inl ⟨h.1.symm, _, by decide, h.2.symm⟩
    · simp only [Option.some.injEq, Prod.mk.injEq] at h
      exact .inr (.inr ⟨hty, hc, h.2.symm, h.1.symm⟩)
  · simp only [hty, ne_eq, not_false_eq_true, if_true, Option.some.injEq, Prod.mk.injEq] at h
    exact .inl ⟨h.1.symm, _, by decide, h.2.symm⟩

/-- `API_SemaphoreRWPendW` fails, writes, writes once more, or waits. -/
theorem semaphoreRWPendW_cases (h : k.semaphoreRWPendW w t e ulTimeout = some (k', r)) :
    (k' = k ∧ ∃ err, err ≠ .none ∧ r = some err) ∨
    ((k.event e).ucType = .semRW ∧ (k.event e).ulCounter = 0 ∧ r = some .none ∧
      k' = k.modEvent e fun ev =>
        { ev with ulCounter := ulong w (ev.ulCounter + 1), iStatus := .w, pvTcbOwn := some t }) ∨
    ((k.event e).ucType = .semRW ∧ (k.event e).ulCounter ≠ 0 ∧ (k.event e).pvTcbOwn = some t ∧
      r = some .none ∧
      k' = k.modEvent e fun ev => { ev with pvPtr := ulong w (ev.pvPtr + 1) }) ∨
    ((k.event e).ucType = .semRW ∧ (k.event e).ulCounter ≠ 0 ∧
      (k.event e).pvTcbOwn ≠ some t ∧ r = none ∧ k' = k.pendWait t e w eventRwQW ulTimeout) := by
  unfold semaphoreRWPendW at h
  by_cases hty : (k.event e).ucType = .semRW
  · simp only [hty, ne_eq, not_true_eq_false, if_false] at h
    split_ifs at h with hc ho hto
    · simp only [Option.some.injEq, Prod.mk.injEq] at h
      exact .inr (.inl ⟨hty, hc, h.2.symm, h.1.symm⟩)
    · simp only [Option.some.injEq, Prod.mk.injEq] at h
      exact .inr (.inr (.inl ⟨hty, hc, ho, h.2.symm, h.1.symm⟩))
    · simp only [Option.some.injEq, Prod.mk.injEq] at h
      exact .inl ⟨h.1.symm, _, by decide, h.2.symm⟩
    · simp only [Option.some.injEq, Prod.mk.injEq] at h
      exact .inr (.inr (.inr ⟨hty, hc, ho, h.2.symm, h.1.symm⟩))
  · simp only [hty, ne_eq, not_false_eq_true, if_true, Option.some.injEq, Prod.mk.injEq] at h
    exact .inl ⟨h.1.symm, _, by decide, h.2.symm⟩

/-- What `_EventReadyHighLevel` does to the thread. -/
def readyTcb (c : Tcb E) : Tcb E :=
  if c.ucWaitTimeout then { c with peventPtr := none, ucWaitTimeout := false }
  else { c with peventPtr := none, statusSem := false }

omit [DecidableEq E] in
theorem eventReadyHighLevel_eq : k.eventReadyHighLevel u = k.modTcb u readyTcb := by
  by_cases hc : (k.tcb u).ucWaitTimeout
  · simp only [eventReadyHighLevel, modTcb_self, hc, if_true, modTcb_modTcb]
    exact modTcb_congr (if_pos hc).symm
  · simp only [eventReadyHighLevel, modTcb_self, hc, Bool.false_eq_true, if_false, modTcb_modTcb]
    exact modTcb_congr (if_neg hc).symm

omit [DecidableEq E] in
theorem readyTcb_prio (c : Tcb E) (p : Prio) :
    readyTcb { c with ucPriority := p } = { readyTcb c with ucPriority := p } := by
  unfold readyTcb
  split_ifs <;> rfl

omit [DecidableEq E] in
theorem eventReadyHighLevel_prio (v : T) :
    ((k.eventReadyHighLevel u).tcb v).ucPriority = (k.tcb v).ucPriority := by
  rw [eventReadyHighLevel_eq]
  refine congrFun (modTcb_prio ?_) v
  intro c
  unfold readyTcb
  split_ifs <;> rfl

omit [DecidableEq E] in
theorem eventReadyHighLevel_schedSetPrio (p : Prio) :
    (k.schedSetPrio t p).eventReadyHighLevel u = (k.eventReadyHighLevel u).schedSetPrio t p := by
  rw [eventReadyHighLevel_eq, eventReadyHighLevel_eq]
  exact modTcb_comm _ _ _ fun c => readyTcb_prio c p

theorem eventReadyHighLevel_modEvent (g : Event T → Event T) :
    (k.modEvent e g).eventReadyHighLevel u = (k.eventReadyHighLevel u).modEvent e g := by
  rw [eventReadyHighLevel_eq, eventReadyHighLevel_eq]
  rfl

omit [DecidableEq E] in
theorem eventReadyHighLevel_eventPrioTryResume :
    (k.eventPrioTryResume t e).eventReadyHighLevel u =
      (k.eventReadyHighLevel u).eventPrioTryResume t e := by
  have hevent : (k.eventReadyHighLevel u).event = k.event := by
    rw [eventReadyHighLevel_eq]
    rfl
  unfold eventPrioTryResume
  simp only [eventReadyHighLevel_prio, hevent]
  split_ifs
  · exact eventReadyHighLevel_schedSetPrio _
  · rfl

omit [DecidableEq E] in
theorem sameWait_eventPrioTryResume : SameWait k (k.eventPrioTryResume t e) := by
  unfold eventPrioTryResume
  dsimp only
  split_ifs
  · exact sameWait_schedSetPrio _
  · exact SameWait.refl _

omit [DecidableEq E] in
theorem eventPrioTryResume_event : (k.eventPrioTryResume t e).event = k.event := by
  unfold eventPrioTryResume
  dsimp only
  split_ifs <;> rfl

/-- `API_SemaphoreMPost` fails, gives up one of several holds, hands the mutex to a waiting
thread, or frees it. -/
theorem semaphoreMPost_cases [Fintype T] (hk : EventOk k)
    (h : k.semaphoreMPost t e = some (k', err)) :
    (k' = k ∧ err ≠ .none) ∨
    ((k.event e).ucType = .mutex ∧ (k.event e).pvTcbOwn = some t ∧ (k.event e).pvPtr ≠ 0 ∧
      err = .none ∧ k' = k.modEvent e fun ev => { ev with pvPtr := ev.pvPtr - 1 }) ∨
    ((k.event e).ucType = .mutex ∧ (k.event e).pvTcbOwn = some t ∧ (k.event e).pvPtr = 0 ∧
      err = .none ∧ ∃ u k₀ k₁, k.eventReadyLowLevel e eventSemQ = some (u, k₀) ∧
        k.Waits u e eventSemQ ∧ Leaves k k₁ u e eventSemQ ∧
        (k₁.tcb u).ucWaitTimeout = false ∧
        k' = (k₁.eventPrioTryResume t e).modEvent e fun ev =>
          { ev with
            ulMaxCounter := ((k₁.eventPrioTryResume t e).tcb u).ucPriority
            pvTcbOwn := some u }) ∨
    ((k.event e).ucType = .mutex ∧ (k.event e).pvTcbOwn = some t ∧ (k.event e).pvPtr = 0 ∧
      k.eventWaitNum e eventSemQ = 0 ∧ (k.event e).ulCounter = 0 ∧ err = .none ∧
      k' = k.modEvent e fun ev =>
        { ev with ulCounter := 1, ulMaxCounter := prioLowest, pvTcbOwn := none }) := by
  unfold semaphoreMPost at h
  by_cases hty : (k.event e).ucType = .mutex
  · simp only [hty, ne_eq, not_true_eq_false, if_false] at h
    by_cases ho : (k.event e).pvTcbOwn = some t
    · simp only [ho, not_true_eq_false, if_false] at h
      by_cases hp : (k.event e).pvPtr = 0
      · simp only [hp, not_true_eq_false, if_false] at h
        by_cases hn : k.eventWaitNum e eventSemQ = 0
        · simp only [hn, not_true_eq_false, if_false] at h
          split_ifs at h with hc
          · simp only [Option.some.injEq, Prod.mk.injEq] at h
            exact .inr (.inr (.inr ⟨hty, ho, hp, hn, hc, h.2.symm, h.1.symm⟩))
          · simp only [Option.some.injEq, Prod.mk.injEq] at h
            refine .inl ⟨h.1.symm, ?_⟩
            rw [← h.2]
            decide
        · obtain ⟨u, hlow, hu⟩ := hk.eventReadyLowLevel hn
          have hl := ready_leaves hu (hk.exist u) (hk.clear u (by rw [hk.sem, hu.1]; rfl)) rfl
          simp only [hn, not_false_eq_true, if_true, hlow, Option.bind_eq_bind, Option.bind_some,
            Option.some.injEq, Prod.mk.injEq] at h
          refine .inr (.inr (.inl ⟨hty, ho, hp, h.2.symm, u, _, _, hlow, hu, hl.1, hl.2, ?_⟩))
          rw [← h.1, eventReadyHighLevel_modEvent, ← eventReadyHighLevel_eventPrioTryResume,
            eventReadyHighLevel_prio]
      · simp only [hp, not_false_eq_true, if_true, Option.some.injEq, Prod.mk.injEq] at h
        exact .inr (.inl ⟨hty, ho, hp, h.2.symm, h.1.symm⟩)
    · simp only [ho, not_false_eq_true, if_true, Option.some.injEq, Prod.mk.injEq] at h
      refine .inl ⟨h.1.symm, ?_⟩
      rw [← h.2]
      decide
  · simp only [hty, ne_eq, not_false_eq_true, if_true, Option.some.injEq, Prod.mk.injEq] at h
    refine .inl ⟨h.1.symm, ?_⟩
    rw [← h.2]
    decide

/-- `API_SemaphoreMPend` reads no null pointer while a taken mutex has an owner. -/
theorem semaphoreMPend_isSome (w : ℕ) (t : T) (ulTimeout : ℕ)
    (h : (k.event e).ulCounter = 0 → (k.event e).pvTcbOwn ≠ none) :
    (k.semaphoreMPend w t e ulTimeout).isSome := by
  unfold semaphoreMPend
  dsimp only
  split_ifs with hty hc
  · rfl
  · rfl
  · rfl
  · rfl
  · rfl
  · obtain ⟨o, ho⟩ := Option.ne_none_iff_exists'.mp (h (not_not.mp hc))
    rw [Option.isSome_map, eventPrioTryBoost, ho]
    simp only [Option.bind_eq_bind, Option.bind_some]
    split_ifs <;> rfl

/-- `API_SemaphoreMPost` finds a thread whenever it looks for one. -/
theorem EventOk.semaphoreMPost_isSome [Fintype T] (hk : EventOk k) (t : T) (e : E) :
    (k.semaphoreMPost t e).isSome := by
  unfold semaphoreMPost
  dsimp only
  split_ifs with hty ho hp hn
  · rfl
  · rfl
  · rfl
  · obtain ⟨u, hlow, -⟩ := hk.eventReadyLowLevel hn
    simp [hlow]
  · rfl
  · rfl

/-- All threads that waited to read have left their queue, and nothing else has changed but the
counter. -/
structure ReadersLeave (k k' : KernState T E) (e : E) : Prop where
  tcb_ne : ∀ u, ¬ k.Waits u e eventRwQR → k'.tcb u = k.tcb u
  ready : ∀ u, k.Waits u e eventRwQR →
    (k'.tcb u).peventPtr = none ∧ (k'.tcb u).ucWaitTimeout = false ∧
      (k'.tcb u).ucPriority = (k.tcb u).ucPriority ∧
        (k'.tcb u).iDeleteProcStatus = (k.tcb u).iDeleteProcStatus
  event_ne : ∀ d, d ≠ e → k'.event d = k.event d
  event : k'.event e =
    { k.event e with wqWaitQ := (k'.event e).wqWaitQ, ulCounter := (k'.event e).ulCounter }

/-- The number of threads in a queue. -/
def waiting [Fintype T] (k : KernState T E) (e : E) (q : Fin 2) : ℕ :=
  (Finset.univ.filter fun u => k.Waits u e q).card

theorem readyReaders_spec [Fintype T] (hT : Fintype.card T < 2 ^ 16) {n : ℕ}
    (hk : EventOk k) (hn : k.waiting e eventRwQR = n) :
    ∃ k', readyReaders w e n k = some k' ∧ EventOk k' ∧ ReadersLeave k k' e ∧
      ((k.event e).ulCounter + n < 2 ^ w →
        (k'.event e).ulCounter = (k.event e).ulCounter + n) := by
  induction n generalizing k with
  | zero =>
    have hnone : ∀ u, ¬ k.Waits u e eventRwQR := by
      rw [← hk.waitNum_eq_zero, hk.num]
      exact hn
    refine ⟨k, ?_, hk, ⟨fun _ _ => rfl, fun u hu => absurd hu (hnone u), fun _ _ => rfl, rfl⟩,
      fun _ => rfl⟩
    rw [readyReaders, if_neg]
    rw [hk.num]
    exact not_not.mpr hn
  | succ n ih =>
    have hne : k.eventWaitNum e eventRwQR ≠ 0 := by
      rw [hk.num]
      exact fun h0 => by simp [waiting, h0] at hn
    obtain ⟨u, hlow, hu⟩ := hk.eventReadyLowLevel hne
    have hl := ready_leaves hu (hk.exist u) (hk.clear u (by rw [hk.sem, hu.1]; rfl)) rfl
    let kl := (k.readyLowLevel u e (k.ringOf u e)).eventReadyHighLevel u
    let k₂ := kl.modEvent e fun ev => { ev with ulCounter := ulong w (ev.ulCounter + 1) }
    have hsame : SameWait kl k₂ := sameWait_modEvent rfl rfl
    have hk₂ : EventOk k₂ := (hk.leaves hT hu hl.1).sameWait hsame
    have hwaits {v : T} : k₂.Waits v e eventRwQR ↔ k.Waits v e eventRwQR ∧ v ≠ u := by
      rw [hsame.waits, hl.1.waits]
    have hn₂ : k₂.waiting e eventRwQR = n := by
      have herase : (Finset.univ.filter fun v => k₂.Waits v e eventRwQR) =
          (Finset.univ.filter fun v => k.Waits v e eventRwQR).erase u := by
        ext v
        simp only [Finset.mem_filter, Finset.mem_univ, true_and, Finset.mem_erase, hwaits]
        tauto
      rw [waiting, herase, Finset.card_erase_of_mem (by simpa using hu)]
      rw [waiting] at hn
      omega
    obtain ⟨k', hrun, hk', hleave, hcount⟩ := ih hk₂ hn₂
    have hcounter : (k₂.event e).ulCounter = ulong w ((k.event e).ulCounter + 1) := by
      change ((kl.modEvent e _).event e).ulCounter = _
      rw [modEvent_self, hl.1.event]
    refine ⟨k', ?_, hk', ⟨?_, ?_, ?_, ?_⟩, ?_⟩
    · rw [readyReaders, if_pos hne, hlow]
      simp only [Option.bind_eq_bind, Option.bind_some, eventReadyHighLevel_modEvent]
      exact hrun
    · intro v hv
      have hvu : v ≠ u := by
        rintro rfl
        exact hv hu
      rw [hleave.tcb_ne v fun h => hv (hwaits.mp h).1]
      exact hl.1.tcb_ne v hvu
    · intro v hv
      by_cases hvu : v = u
      · subst hvu
        rw [hleave.tcb_ne v fun h => (hwaits.mp h).2 rfl]
        exact ⟨hl.1.wait, hl.2, hl.1.prio, hl.1.deleteProc⟩
      · have htcb : k₂.tcb v = k.tcb v := hl.1.tcb_ne v hvu
        rw [← htcb]
        exact hleave.ready v (hwaits.mpr ⟨hv, hvu⟩)
    · intro d hd
      rw [hleave.event_ne d hd]
      exact (modEvent_of_ne _ _ _ hd).trans (hl.1.event_ne d hd)
    · have hk₂e : k₂.event e = { k.event e with
          wqWaitQ := (k₂.event e).wqWaitQ, ulCounter := (k₂.event e).ulCounter } := by
        change (kl.modEvent e _).event e = _
        rw [modEvent_self, hl.1.event]
      rw [hleave.event, hk₂e]
    · intro hlt
      have hone : (k₂.event e).ulCounter = (k.event e).ulCounter + 1 := by
        rw [hcounter, ulong_of_lt]
        omega
      rw [hcount (by omega), hone]
      omega

/-- A release hands a reader-writer semaphore to a waiting writer, or to all waiting readers, or
leaves it free. -/
theorem releasePend_cases [Fintype T] (hT : Fintype.card T < 2 ^ 16) (hk : EventOk k)
    (h : k.releasePend w e b = some k') :
    (b = false ∧ ∃ u k₁, k.Waits u e eventRwQW ∧ Leaves k k₁ u e eventRwQW ∧
      (k₁.tcb u).ucWaitTimeout = false ∧
      k' = k₁.modEvent e fun ev => { ev with pvTcbOwn := some u, iStatus := .w }) ∨
    ((k.eventWaitNum e eventRwQW = 0 ∨ b = true) ∧ k.eventWaitNum e eventRwQR ≠ 0 ∧
      ∃ k₁, EventOk k₁ ∧ ReadersLeave k k₁ e ∧
        ((k.event e).ulCounter - 1 + k.waiting e eventRwQR < 2 ^ w →
          (k₁.event e).ulCounter = (k.event e).ulCounter - 1 + k.waiting e eventRwQR) ∧
        k' = k₁.modEvent e fun ev => { ev with pvTcbOwn := none, iStatus := .r }) ∨
    ((k.eventWaitNum e eventRwQW = 0 ∨ b = true) ∧ k.eventWaitNum e eventRwQR = 0 ∧
      k' = k.modEvent e fun ev =>
        { ev with ulCounter := ev.ulCounter - 1, pvTcbOwn := none, iStatus := .r }) := by
  unfold releasePend at h
  by_cases hw : k.eventWaitNum e eventRwQW ≠ 0 ∧ ¬ b
  · obtain ⟨u, hlow, hu⟩ := hk.eventReadyLowLevel hw.1
    have hl := ready_leaves hu (hk.exist u) (hk.clear u (by rw [hk.sem, hu.1]; rfl)) rfl
    simp only [if_pos hw, hlow, Option.bind_eq_bind, Option.bind_some, Option.some.injEq] at h
    exact .inl ⟨by simpa using hw.2, u, _, hu, hl.1, hl.2, h.symm⟩
  · have hw' : k.eventWaitNum e eventRwQW = 0 ∨ b = true := by
      by_contra hno
      rw [not_or] at hno
      exact hw hno
    rw [if_neg hw] at h
    right
    by_cases hr : k.eventWaitNum e eventRwQR = 0
    · rw [if_neg (not_not.mpr hr), Option.some.injEq] at h
      exact .inr ⟨hw', hr, h.symm⟩
    · let k₀ := k.modEvent e fun ev => { ev with ulCounter := ev.ulCounter - 1 }
      have hsame : SameWait k k₀ := sameWait_modEvent rfl rfl
      have hnum : k₀.waiting e eventRwQR = k₀.eventWaitNum e eventRwQR :=
        ((hk.sameWait hsame).num e eventRwQR).symm
      have hwait : k₀.waiting e eventRwQR = k.waiting e eventRwQR := by
        rw [waiting, waiting]
        simp only [hsame.waits]
      obtain ⟨k₁, hrun, hk₁, hleave, hcount⟩ :=
        readyReaders_spec (w := w) hT (hk.sameWait hsame) hnum
      have hcounter : (k₀.event e).ulCounter = (k.event e).ulCounter - 1 := by
        rw [modEvent_self]
      rw [if_pos hr] at h
      change (readyReaders w e (k₀.eventWaitNum e eventRwQR) k₀).bind _ = some k' at h
      rw [hrun, Option.bind_some, Option.some.injEq] at h
      refine .inl ⟨hw', hr, k₁, hk₁, ⟨?_, ?_, ?_, ?_⟩, ?_, h.symm⟩
      · intro u hu
        exact hleave.tcb_ne u fun h => hu (hsame.waits.mp h)
      · intro u hu
        exact hleave.ready u (hsame.waits.mpr hu)
      · intro d hd
        exact (hleave.event_ne d hd).trans (modEvent_of_ne _ _ _ hd)
      · rw [hleave.event, modEvent_self]
      · rw [← hwait, hnum, ← hcounter]
        exact hcount

theorem EventOk.releasePend_isSome [Fintype T] (hT : Fintype.card T < 2 ^ 16) (hk : EventOk k)
    (w : ℕ) (e : E) (b : Bool) : (k.releasePend w e b).isSome := by
  unfold releasePend
  split_ifs with hw hr
  · obtain ⟨u, hlow, -⟩ := hk.eventReadyLowLevel hw.1
    simp [hlow]
  · let k₀ := k.modEvent e fun ev => { ev with ulCounter := ev.ulCounter - 1 }
    have hk₀ : EventOk k₀ := hk.sameWait (sameWait_modEvent rfl rfl)
    obtain ⟨k₁, hrun, -⟩ := readyReaders_spec (w := w) hT hk₀ (hk₀.num e eventRwQR).symm
    simp only [Option.bind_eq_bind]
    rw [show readyReaders w e (k₀.eventWaitNum e eventRwQR) k₀ = some k₁ from hrun]
    rfl
  · rfl

/-- `API_SemaphoreRWPost` finds a thread whenever it looks for one. -/
theorem EventOk.semaphoreRWPost_isSome [Fintype T] (hT : Fintype.card T < 2 ^ 16) (hk : EventOk k)
    (w : ℕ) (t : T) (e : E) : (k.semaphoreRWPost w t e).isSome := by
  unfold semaphoreRWPost
  dsimp only
  split_ifs
  · rfl
  · rfl
  · rfl
  · rw [Option.isSome_map]
    exact hk.releasePend_isSome hT w e _
  · rfl
  · rfl
  · rw [Option.isSome_map]
    exact hk.releasePend_isSome hT w e _

/-- `API_SemaphoreRWPost` fails, ends one of several readings, gives up one of several holds of the
writer, or releases the semaphore. -/
theorem semaphoreRWPost_cases (h : k.semaphoreRWPost w t e = some (k', err)) :
    (k' = k ∧ err ≠ .none) ∨
    ((k.event e).ucType = .semRW ∧ (k.event e).iStatus = .r ∧ (k.event e).ulCounter > 1 ∧
      err = .none ∧ k' = k.modEvent e fun ev => { ev with ulCounter := ev.ulCounter - 1 }) ∨
    ((k.event e).ucType = .semRW ∧ (k.event e).iStatus = .r ∧ (k.event e).ulCounter = 1 ∧
      err = .none ∧ ∃ b, (b = true → k.eventWaitNum e eventRwQR ≠ 0) ∧
        k.releasePend w e b = some k') ∨
    ((k.event e).ucType = .semRW ∧ (k.event e).iStatus = .w ∧ (k.event e).ulCounter ≠ 0 ∧
      (k.event e).pvTcbOwn = some t ∧ (k.event e).pvPtr ≠ 0 ∧ err = .none ∧
      k' = k.modEvent e fun ev => { ev with pvPtr := ev.pvPtr - 1 }) ∨
    ((k.event e).ucType = .semRW ∧ (k.event e).iStatus = .w ∧ (k.event e).ulCounter ≠ 0 ∧
      (k.event e).pvTcbOwn = some t ∧ (k.event e).pvPtr = 0 ∧ err = .none ∧
      k.releasePend w e false = some k') := by
  unfold semaphoreRWPost at h
  by_cases hty : (k.event e).ucType = .semRW
  · simp only [hty, ne_eq, not_true_eq_false, if_false] at h
    by_cases hc : (k.event e).ulCounter = 0
    · simp only [hc, if_true, Option.some.injEq, Prod.mk.injEq] at h
      refine .inl ⟨h.1.symm, ?_⟩
      rw [← h.2]
      decide
    · simp only [hc, if_false] at h
      cases hs : (k.event e).iStatus with
      | r =>
        simp only [hs, if_true] at h
        split_ifs at h with hgt
        · simp only [Option.some.injEq, Prod.mk.injEq] at h
          exact .inr (.inl ⟨hty, rfl, hgt, h.2.symm, h.1.symm⟩)
        · simp only [Option.map_eq_some_iff, Prod.mk.injEq] at h
          obtain ⟨k₁, hrel, hk₁, herr⟩ := h
          subst hk₁
          refine .inr (.inr (.inl ⟨hty, rfl, by omega, herr.symm, _, ?_, hrel⟩))
          intro hb
          simp only [Bool.and_eq_true, bne_iff_ne] at hb
          exact hb.2
      | w =>
        simp only [hs, reduceCtorEq, if_false] at h
        by_cases ho : (k.event e).pvTcbOwn = some t
        · simp only [ho, not_true_eq_false, if_false] at h
          split_ifs at h with hp
          · simp only [Option.map_eq_some_iff, Prod.mk.injEq] at h
            obtain ⟨k₁, hrel, hk₁, herr⟩ := h
            subst hk₁
            exact .inr (.inr (.inr (.inr ⟨hty, rfl, hc, ho, hp, herr.symm, hrel⟩)))
          · simp only [Option.some.injEq, Prod.mk.injEq] at h
            exact .inr (.inr (.inr (.inl ⟨hty, rfl, hc, ho, hp, h.2.symm, h.1.symm⟩)))
        · simp only [ho, not_false_eq_true, if_true, Option.some.injEq, Prod.mk.injEq] at h
          refine .inl ⟨h.1.symm, ?_⟩
          rw [← h.2]
          decide
  · simp only [hty, ne_eq, not_false_eq_true, if_true, Option.some.injEq, Prod.mk.injEq] at h
    refine .inl ⟨h.1.symm, ?_⟩
    rw [← h.2]
    decide

end Cases

end SylixOS.Kernel.KernState
