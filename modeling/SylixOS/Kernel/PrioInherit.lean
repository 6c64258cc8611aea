import SylixOS.Kernel.MutexSafe
import SylixOS.Lib.Inherit

/-! # Mutexes with priority inheritance

A pend that has to wait gives the owner of the mutex its priority if that is more urgent, and a post
that hands the mutex to a waiting thread gives the old owner the priority that the mutex has saved
when it was taken. Each of these keeps the owners as urgent as the threads that wait for them, and
gives a thread that owns nothing more its own priority back, under a condition only: there is one
saved priority for each mutex, a post without waiting threads does not use it, and a thread that
waits does not pass on what it inherits.
-/

namespace SylixOS.Kernel
open Lib Function

namespace KernState

variable {T E : Type} [DecidableEq T] [DecidableEq E] {k k' k₁ : KernState T E} {t u o : T}
  {e d : E} {q : Fin 2} {i : Fin 8} {w : ℕ}

/-- The thread that is next in a queue. -/
def eventNext (k : KernState T E) (e : E) (iQ : Fin 2) : Option T :=
  if (k.event e).ulOption.waitPriority then
    (k.eventDelQPriority e iQ).bind fun i => (((k.event e).wqWaitQ iQ).wlQ i).head?
  else (((k.event e).wqWaitQ iQ).wlQ 0).getLast?

theorem eventNext_of_readyLowLevel (h : k.eventReadyLowLevel e q = some (u, k')) :
    k.eventNext e q = some u := by
  unfold eventReadyLowLevel at h
  unfold eventNext
  split_ifs at h ⊢ with hopt
  · simp only [Option.bind_eq_bind, Option.bind_eq_some_iff, Option.some.injEq, Prod.mk.injEq] at h
    obtain ⟨i, hi, v, hv, rfl, -⟩ := h
    rw [hi, Option.bind_some, hv]
  · simp only [Option.bind_eq_bind, Option.bind_eq_some_iff, Option.some.injEq,
      Prod.mk.injEq] at h
    obtain ⟨v, hv, rfl, -⟩ := h
    exact hv

/-! ## What never changes -/

/-- No thread is deleted, and no event gets other options. -/
structure Fixed (k k' : KernState T E) : Prop where
  alive : ∀ u, (k'.tcb u).iDeleteProcStatus = (k.tcb u).iDeleteProcStatus
  option : ∀ e, (k'.event e).ulOption = (k.event e).ulOption

/-- No thread's priority has changed. -/
def SamePrio (k k' : KernState T E) : Prop :=
  ∀ u, (k'.tcb u).ucPriority = (k.tcb u).ucPriority

omit [DecidableEq T] [DecidableEq E] in
theorem Fixed.refl (k : KernState T E) : Fixed k k := ⟨fun _ => rfl, fun _ => rfl⟩

omit [DecidableEq T] [DecidableEq E] in
theorem Fixed.trans (h : Fixed k k₁) (h₁ : Fixed k₁ k') : Fixed k k' :=
  ⟨fun u => (h₁.alive u).trans (h.alive u), fun e => (h₁.option e).trans (h.option e)⟩

omit [DecidableEq T] [DecidableEq E] in
theorem SameWait.fixed (h : SameWait k k') : Fixed k k' where
  alive u := by
    obtain ⟨p, hp⟩ := h.tcb u
    rw [hp]
  option := h.option

omit [DecidableEq T] [DecidableEq E] in
theorem QueueStep.fixed (h : QueueStep k k' t e q i) : Fixed k k' where
  alive u := by
    classical
    by_cases hu : u = t
    · rw [hu, h.deleteProc]
    · rw [h.tcb_ne u hu]
  option := h.option

omit [DecidableEq T] [DecidableEq E] in
theorem QueueStep.samePrio (h : QueueStep k k' t e q i) : SamePrio k k' := by
  classical
  intro u
  by_cases hu : u = t
  · rw [hu, h.prio]
  · rw [h.tcb_ne u hu]

omit [DecidableEq T] in
theorem ReadersLeave.fixed (h : ReadersLeave k k' e) : Fixed k k' where
  alive u := by
    by_cases hu : k.Waits u e eventRwQR
    · exact (h.ready u hu).2.2.2
    · rw [h.tcb_ne u hu]
  option d := by
    by_cases hd : d = e
    · rw [hd, h.event]
    · rw [h.event_ne d hd]

omit [DecidableEq T] in
theorem ReadersLeave.samePrio (h : ReadersLeave k k' e) : SamePrio k k' := by
  intro u
  by_cases hu : k.Waits u e eventRwQR
  · exact (h.ready u hu).2.2.1
  · rw [h.tcb_ne u hu]

/-- A release changes no priority. -/
theorem releasePend_fixed [Fintype T] (hT : Fintype.card T < 2 ^ 16) (hk : EventOk k) {b : Bool}
    (h : k.releasePend w e b = some k') : Fixed k k' ∧ SamePrio k k' := by
  rcases releasePend_cases hT hk h with ⟨-, u, k₁, -, hl, -, rfl⟩ | ⟨-, -, k₁, -, hl, -, rfl⟩ |
    ⟨-, -, rfl⟩
  · exact ⟨hl.fixed.trans (sameWait_modEvent rfl rfl).fixed, hl.samePrio⟩
  · exact ⟨hl.fixed.trans (sameWait_modEvent rfl rfl).fixed, hl.samePrio⟩
  · exact ⟨(sameWait_modEvent rfl rfl).fixed, fun _ => rfl⟩

omit [DecidableEq E] in
/-- The owner inherits the priority of a more urgent thread. -/
theorem eventPrioTryBoost_prio (h : k.eventPrioTryBoost t e = some k₁)
    (ho : (k.event e).pvTcbOwn = some o) (hi : (k.event e).ulOption.inheritPriority = true)
    (ha : (k.tcb o).iDeleteProcStatus = false) (u : T) : (k₁.tcb u).ucPriority =
      update (fun u => (k.tcb u).ucPriority) o
        (min (k.tcb o).ucPriority (k.tcb t).ucPriority) u := by
  simp only [eventPrioTryBoost, ho, ha, hi, Option.bind_eq_bind, Option.bind_some,
    Bool.false_eq_true, if_false, if_true] at h
  split_ifs at h with hlt
  · rw [Option.some.injEq] at h
    subst h
    by_cases hu : u = o
    · subst hu
      rw [update_self, min_eq_right hlt.le]
      simp [schedSetPrio]
    · rw [update_of_ne hu, schedSetPrio, modTcb_of_ne _ _ _ hu]
  · rw [Option.some.injEq] at h
    subst h
    rw [min_eq_left (not_lt.mp hlt)]
    by_cases hu : u = o
    · rw [hu, update_self]
    · rw [update_of_ne hu]

/-- Without a timeout no pend waits. -/
theorem semaphoreMPend_waits {ulTimeout : ℕ}
    (h : k.semaphoreMPend w t e ulTimeout = some (k', none)) : ulTimeout ≠ 0 := by
  rintro rfl
  unfold semaphoreMPend at h
  dsimp only at h
  split_ifs at h with hty hc ho herr hto
  · simp at h
  · simp at h
  · simp at h
  · simp at h
  · simp at h
  · exact hto rfl

omit [DecidableEq E] in
/-- The old owner gets the saved priority back. -/
theorem eventPrioTryResume_prio (u : T) : ((k.eventPrioTryResume t e).tcb u).ucPriority =
    update (fun u => (k.tcb u).ucPriority) t (Fin.ofNat 256 (k.event e).ulMaxCounter) u := by
  unfold eventPrioTryResume
  dsimp only
  by_cases hu : u = t
  · subst hu
    rw [update_self]
    split_ifs with hne
    · simp [schedSetPrio]
    · exact not_not.mp hne
  · rw [update_of_ne hu]
    split_ifs with hne
    · rw [schedSetPrio, modTcb_of_ne _ _ _ hu]
    · rfl

end KernState

namespace SemSystem

variable {T E : Type} [DecidableEq T] [DecidableEq E]

/-- The thread owns the mutex. A pend that is about to return counts as a successful one. -/
def Owns (s : SemSystem T E) (t : T) (e : E) : Prop :=
  (s.kern.event e).ucType = .mutex ∧ s.Holds t e .m

instance (s : SemSystem T E) (t : T) (e : E) : Decidable (s.Owns t e) :=
  inferInstanceAs (Decidable (_ ∧ _))

/-- Mutexes and their owners as far as priorities are concerned. -/
def inheritOf (s : SemSystem T E) (base : T → Prio) : Inherit T E Prio where
  prio t := (s.kern.tcb t).ucPriority
  owner e := if (s.kern.event e).ucType = .mutex then (s.kern.event e).pvTcbOwn else none
  waits t := {e | (s.kern.event e).ucType = .mutex ∧ s.kern.Waits t e KernState.eventSemQ}
  base

variable [Fintype T] {s s' : SemSystem T E} {base : T → Prio} {w ulTimeout : ℕ} {t u : T} {e d : E}
  {a : SemOp T E} {k' : KernState T E} {r : Option Error} {err : Error} {p : Pend}

/-- Mutexes with inheritance, and threads that are not being deleted. -/
structure Inherits (s : SemSystem T E) : Prop where
  option : ∀ e, (s.kern.event e).ucType = .mutex →
    (s.kern.event e).ulOption.inheritPriority = true
  alive : ∀ t, (s.kern.tcb t).iDeleteProcStatus = false

/-- No step changes what never changes. -/
theorem Base.step_fixed (hT : Fintype.card T < 2 ^ 16) (hb : s.Base)
    (hs : SemSystem.step w s a = some s') : s.kern.Fixed s'.kern := by
  cases a with
  | pend p t e ulTimeout =>
    simp only [SemSystem.step, Option.ite_none_right_eq_some, Option.map_eq_some_iff] at hs
    obtain ⟨-, ⟨k', r⟩, h, rfl⟩ := hs
    simp only [pended_kern]
    rcases pend_cases h with ⟨rfl, -⟩ | ⟨-, -, g, -, hsame, -⟩ | ⟨-, -, k₁, hsame, -, hp⟩
    · exact .refl _
    · exact hsame.fixed
    · exact hsame.fixed.trans hp.fixed
  | mPost t e =>
    simp only [SemSystem.step, Option.ite_none_right_eq_some, Option.map_eq_some_iff] at hs
    obtain ⟨-, ⟨k', err⟩, h, rfl⟩ := hs
    simp only [posted_kern]
    rcases KernState.semaphoreMPost_cases hb.event h with ⟨rfl, -⟩ | ⟨-, -, -, -, rfl⟩ |
      ⟨-, -, -, -, u, k₀, k₁, -, -, hl, -, rfl⟩ | ⟨-, -, -, -, -, -, rfl⟩
    · exact .refl _
    · exact (KernState.sameWait_modEvent rfl rfl).fixed
    · exact hl.fixed.trans (KernState.sameWait_eventPrioTryResume.trans
        (KernState.sameWait_modEvent rfl rfl)).fixed
    · exact (KernState.sameWait_modEvent rfl rfl).fixed
  | rwPost t e =>
    simp only [SemSystem.step, Option.ite_none_right_eq_some, Option.map_eq_some_iff] at hs
    obtain ⟨-, ⟨k', err⟩, h, rfl⟩ := hs
    simp only [posted_kern]
    rcases KernState.semaphoreRWPost_cases h with ⟨rfl, -⟩ | ⟨-, -, -, -, rfl⟩ |
      ⟨-, -, -, -, b, -, hrel⟩ | ⟨-, -, -, -, -, -, rfl⟩ | ⟨-, -, -, -, -, -, hrel⟩
    · exact .refl _
    · exact (KernState.sameWait_modEvent rfl rfl).fixed
    · exact (KernState.releasePend_fixed hT hb.event hrel).1
    · exact (KernState.sameWait_modEvent rfl rfl).fixed
    · exact (KernState.releasePend_fixed hT hb.event hrel).1
  | ret t =>
    simp only [SemSystem.step, Option.ite_none_right_eq_some, Option.map_eq_some_iff] at hs
    obtain ⟨-, ⟨d, p⟩, -, rfl⟩ := hs
    exact .refl _
  | tick t =>
    simp only [SemSystem.step, Option.ite_none_right_eq_some, Option.some.injEq] at hs
    obtain ⟨ht, rfl⟩ := hs
    obtain ⟨d, q, hw⟩ := hb.waits_of_delay ht
    exact (KernState.threadTick_leaves hw (hb.event.exist t) (hb.event.delay t ht)).1.fixed

/-- As far as priorities are concerned, threads have at most stopped waiting. -/
structure Quiet (s s' : SemSystem T E) : Prop where
  prio : s.kern.SamePrio s'.kern
  type : ∀ e, (s'.kern.event e).ucType = (s.kern.event e).ucType
  owner : ∀ e, (s.kern.event e).ucType = .mutex →
    (s'.kern.event e).pvTcbOwn = (s.kern.event e).pvTcbOwn
  waits : ∀ t e q, (s.kern.event e).ucType = .mutex → s'.kern.Waits t e q → s.kern.Waits t e q

omit [Fintype T] in
theorem Quiet.step (h : Quiet s s') :
    (s.inheritOf base).Step (s'.inheritOf (s.inheritOf base).rebase) := by
  have heq : s'.inheritOf (s.inheritOf base).rebase =
      { s.inheritOf base with
        waits := (s'.inheritOf base).waits
        base := (s.inheritOf base).rebase } := by
    refine Inherit.ext (funext h.prio) (funext fun e => ?_) rfl rfl
    simp only [inheritOf, h.type]
    split_ifs with hty
    · exact h.owner e hty
    · rfl
  rw [heq]
  refine .leave _ fun t e he => ?_
  have hty : (s.kern.event e).ucType = .mutex := by
    rw [← h.type]
    exact he.1
  exact ⟨hty, h.waits t e _ hty he.2⟩

/-- A pend that does not wait, and one that is not for a mutex, changes no priority. -/
theorem pend_samePrio (h : s.kern.pend w t d ulTimeout p = some (k', r))
    (hp : p ≠ .m ∨ r ≠ none) : s.kern.SamePrio k' := by
  rcases pend_cases h with ⟨rfl, -⟩ | ⟨-, -, g, rfl, -, -⟩ | ⟨-, rfl, -⟩
  · exact fun _ => rfl
  · exact fun _ => rfl
  · cases p with
    | m => simp at hp
    | r =>
      rcases KernState.semaphoreRWPendR_cases h with ⟨rfl, -⟩ | ⟨-, -, -, -, rfl⟩ | ⟨-, -, -, rfl⟩
      · exact fun _ => rfl
      · exact fun _ => rfl
      · exact (KernState.pendWait_parks w ulTimeout).samePrio
    | w =>
      rcases KernState.semaphoreRWPendW_cases h with ⟨rfl, -⟩ | ⟨-, -, -, rfl⟩ |
        ⟨-, -, -, -, rfl⟩ | ⟨-, -, -, -, rfl⟩
      · exact fun _ => rfl
      · exact fun _ => rfl
      · exact fun _ => rfl
      · exact (KernState.pendWait_parks w ulTimeout).samePrio

theorem semaphoreRWPost_samePrio (hT : Fintype.card T < 2 ^ 16) (hb : s.Base)
    (h : s.kern.semaphoreRWPost w t e = some (k', err)) : s.kern.SamePrio k' := by
  rcases KernState.semaphoreRWPost_cases h with ⟨rfl, -⟩ | ⟨-, -, -, -, rfl⟩ |
    ⟨-, -, -, -, b, -, hrel⟩ | ⟨-, -, -, -, -, -, rfl⟩ | ⟨-, -, -, -, -, -, hrel⟩
  · exact fun _ => rfl
  · exact fun _ => rfl
  · exact (KernState.releasePend_fixed hT hb.event hrel).2
  · exact fun _ => rfl
  · exact (KernState.releasePend_fixed hT hb.event hrel).2

omit [DecidableEq T] in
/-- A step that changes no priority and touches no mutex is quiet. -/
theorem Good.quiet (hg : Good s s' a) (hp : s.kern.SamePrio s'.kern)
    (h : ∀ e, (s.kern.event e).ucType = .mutex → ¬ s.Touches e a) : Quiet s s' where
  prio := hp
  type := hg.type
  owner e hty := by rw [(hg.same e (h e hty)).event]
  waits t e q hty := ((hg.same e (h e hty)).waits t q).mp

omit [DecidableEq T] [Fintype T] in
theorem Quiet.of_modEvent {g : Event T → Event T} (hk : s'.kern = s.kern.modEvent d g)
    (hs : s.kern.SameWait (s.kern.modEvent d g))
    (hty : (g (s.kern.event d)).ucType = (s.kern.event d).ucType)
    (ho : (g (s.kern.event d)).pvTcbOwn = (s.kern.event d).pvTcbOwn) : Quiet s s' where
  prio := by
    rw [hk]
    exact fun _ => rfl
  type := by
    rw [hk]
    exact modEvent_type hty
  owner e _ := by
    rw [hk]
    by_cases hed : e = d
    · subst hed
      rw [KernState.modEvent_self, ho]
    · rw [KernState.modEvent_of_ne _ _ _ hed]
  waits t e q _ := by
    rw [hk]
    exact hs.waits.mp

omit [DecidableEq T] [DecidableEq E] [Fintype T] in
theorem Quiet.of_kern (hk : s'.kern = s.kern) : Quiet s s' := by
  refine ⟨?_, ?_, ?_, ?_⟩
  · rw [hk]
    exact fun _ => rfl
  · simp [hk]
  · simp [hk]
  · simp [hk]

omit [DecidableEq E] [Fintype T] in
theorem Quiet.of_leaves {q : Fin 2} (hl : s.kern.Leaves s'.kern t d q) : Quiet s s' := by
  have hevent (e : E) : (s'.kern.event e).ucType = (s.kern.event e).ucType ∧
      (s'.kern.event e).pvTcbOwn = (s.kern.event e).pvTcbOwn := by
    classical
    by_cases hed : e = d
    · rw [hed, hl.event]
      exact ⟨rfl, rfl⟩
    · rw [hl.event_ne e hed]
      exact ⟨rfl, rfl⟩
  exact ⟨hl.samePrio, fun e => (hevent e).1, fun e _ => (hevent e).2,
    fun u e p _ hu => (hl.waits.mp hu).1⟩

omit [DecidableEq T] [Fintype T] in
/-- The owner of a mutex has changed and nothing else. -/
theorem inheritOf_modEvent (base : T → Prio) {g : Event T → Event T} {base' : T → Prio}
    (hk : s'.kern = s.kern.modEvent e g) (hs : s.kern.SameWait (s.kern.modEvent e g))
    (hty : (s.kern.event e).ucType = .mutex) (hg : (g (s.kern.event e)).ucType = .mutex) :
    s'.inheritOf base' =
      { s.inheritOf base with
        owner := update (s.inheritOf base).owner e (g (s.kern.event e)).pvTcbOwn
        base := base' } := by
  have htype := modEvent_type (k := s.kern) (d := e) (g := g) (hg.trans hty.symm)
  refine Inherit.ext ?_ ?_ ?_ rfl
  · simp [inheritOf, hk]
  · ext1 d
    simp only [inheritOf, hk, htype]
    by_cases hd : d = e
    · subst hd
      simp [hty]
    · rw [KernState.modEvent_of_ne _ _ _ hd, update_of_ne hd]
  · ext t d
    simp only [inheritOf, hk, htype, hs.waits]

omit [Fintype T] in
/-- A mutex without an owner has no waiting threads. -/
theorem MutexOk.not_waits (hm : MutexOk s e) (ho : (s.kern.event e).pvTcbOwn = none) (t : T) :
    e ∉ (s.inheritOf base).waits t := by
  have hidle := (hm.lock.idle ho).2
  intro hw
  have hmem : t ∈ (s.mutexOf e).waiting := hw.2
  rw [hidle] at hmem
  exact hmem

omit [Fintype T] in
/-- The recorded owners are the threads that own. -/
theorem inheritOf_owner (hm : ∀ d, (s.kern.event d).ucType = .mutex → MutexOk s d) :
    (s.inheritOf base).owner e = some t ↔ s.Owns t e := by
  simp only [inheritOf, Owns]
  split_ifs with hty
  · have hiff : s.Holds t e .m ↔ (s.kern.event e).pvTcbOwn = some t := (hm e hty).lock.holds_iff
    rw [hiff]
    exact ⟨fun h => ⟨hty, h⟩, fun h => h.2⟩
  · simp [hty]

omit [Fintype T] in
theorem inheritOf_ownsOther (hm : ∀ d, (s.kern.event d).ucType = .mutex → MutexOk s d)
    (h : ¬ (s.inheritOf base).OwnsOther t e) (hown : s.Owns t d) : d = e := by
  by_contra hd
  exact h ⟨d, hd, (inheritOf_owner hm).mpr hown⟩

omit [Fintype T] in
theorem inheritOf_take (hm : MutexOk s e) (hty : (s.kern.event e).ucType = .mutex)
    (hc : (s.kern.event e).ulCounter ≠ 0)
    (hk : s'.kern = s.kern.modEvent e fun ev =>
      { ev with ulCounter := 0, ulMaxCounter := (s.kern.tcb t).ucPriority, pvTcbOwn := some t }) :
    (s.inheritOf base).Step (s'.inheritOf (s.inheritOf base).rebase) := by
  have hfree : (s.kern.event e).pvTcbOwn = none := by
    have hcounter := hm.counter
    by_contra hno
    rw [if_neg hno] at hcounter
    exact hc hcounter
  rw [inheritOf_modEvent base hk (KernState.sameWait_modEvent rfl rfl) hty hty]
  refine .take t e ?_ (hm.not_waits hfree)
  simp [inheritOf, hfree]

omit [Fintype T] in
theorem inheritOf_free (hm : ∀ d, (s.kern.event d).ucType = .mutex → MutexOk s d)
    (hty : (s.kern.event e).ucType = .mutex) (ho : (s.kern.event e).pvTcbOwn = some t)
    (hw : ∀ u, ¬ s.kern.Waits u e KernState.eventSemQ)
    (hok : (∀ d, s.Owns t d → d = e) → (s.kern.tcb t).ucPriority = base t)
    (hk : s'.kern = s.kern.modEvent e fun ev =>
      { ev with ulCounter := 1, ulMaxCounter := prioLowest, pvTcbOwn := none }) :
    (s.inheritOf base).Step (s'.inheritOf (s.inheritOf base).rebase) := by
  rw [inheritOf_modEvent base hk (KernState.sameWait_modEvent rfl rfl) hty hty]
  refine .free t e ?_ (fun u hu => hw u hu.2) fun hother => hok fun d hd => ?_
  · simp [inheritOf, hty, ho]
  · exact inheritOf_ownsOther hm hother hd

omit [Fintype T] in
theorem inheritOf_block (hi : s.Inherits) (hty : (s.kern.event e).ucType = .mutex)
    (hw : (s.kern.tcb t).peventPtr = none) (ho : (s.kern.event e).pvTcbOwn = some u)
    (hok : (s.kern.tcb t).ucPriority < (s.kern.tcb u).ucPriority →
      ∀ d, (s.kern.event d).ucType = .mutex → s.kern.Waits u d KernState.eventSemQ →
        ∀ x, (s.kern.event d).pvTcbOwn = some x → x ≠ u →
          (s.kern.tcb x).ucPriority ≤ (s.kern.tcb t).ucPriority)
    {k₁ : KernState T E} (hb : s.kern.eventPrioTryBoost t e = some k₁)
    (hp : k₁.Parks s'.kern t e KernState.eventSemQ) :
    (s.inheritOf base).Step (s'.inheritOf (s.inheritOf base).rebase) := by
  have hs := KernState.sameWait_eventPrioTryBoost hb
  have he := KernState.eventPrioTryBoost_event hb
  have hprio := KernState.eventPrioTryBoost_prio hb ho (hi.option e hty) (hi.alive u)
  have hwait₁ : (k₁.tcb t).peventPtr = none := by
    obtain ⟨x, hx⟩ := hs.tcb t
    rw [hx]
    exact hw
  have hevent (d : E) : (s'.kern.event d).ucType = (s.kern.event d).ucType ∧
      (s'.kern.event d).pvTcbOwn = (s.kern.event d).pvTcbOwn := by
    by_cases hd : d = e
    · rw [hd, hp.event, he]
      exact ⟨rfl, rfl⟩
    · rw [hp.event_ne d hd, he]
      exact ⟨rfl, rfl⟩
  have heq : s'.inheritOf (s.inheritOf base).rebase =
      { s.inheritOf base with
        prio := update (s.inheritOf base).prio u
          (min ((s.inheritOf base).prio u) ((s.inheritOf base).prio t))
        waits := update (s.inheritOf base).waits t (insert e ((s.inheritOf base).waits t))
        base := (s.inheritOf base).rebase } := by
    refine Inherit.ext (funext fun v => ?_) (funext fun d => ?_) (funext fun v => ?_) rfl
    · exact (hp.samePrio v).trans (hprio v)
    · simp [inheritOf, hevent]
    · ext d
      by_cases hv : v = t
      · subst hv
        simp only [inheritOf, hevent, hp.waits hwait₁, hs.waits, update_self,
          Set.mem_ofPred_eq, Set.mem_insert_iff, true_and, and_true]
        constructor
        · rintro ⟨hd, hold | rfl⟩
          · exact .inr ⟨hd, hold⟩
          · exact .inl rfl
        · rintro (rfl | ⟨hd, hold⟩)
          · exact ⟨hty, .inr rfl⟩
          · exact ⟨hd, .inl hold⟩
      · simp [inheritOf, hevent, hp.waits hwait₁, hs.waits, hv]
  rw [heq]
  refine .block t u e ?_ fun hlt d hd x hx hne => hok hlt d hd.1 hd.2 x ?_ hne
  · simp [inheritOf, hty, ho]
  · simpa [inheritOf, hd.1] using hx

omit [Fintype T] in
theorem inheritOf_pass (hm : ∀ d, (s.kern.event d).ucType = .mutex → MutexOk s d)
    (hty : (s.kern.event e).ucType = .mutex) (ht : (s.kern.tcb t).peventPtr = none)
    (ho : (s.kern.event e).pvTcbOwn = some t) {k₁ : KernState T E}
    (hu : s.kern.Waits u e KernState.eventSemQ) (hl : s.kern.Leaves k₁ u e KernState.eventSemQ)
    (hnext : ∀ v, s.kern.Waits v e KernState.eventSemQ →
      (s.kern.tcb u).ucPriority ≤ (s.kern.tcb v).ucPriority)
    (hrest : ∀ d, d ≠ e → s.Owns t d → ∀ v, s.kern.Waits v d KernState.eventSemQ →
      Fin.ofNat 256 (s.kern.event e).ulMaxCounter ≤ (s.kern.tcb v).ucPriority)
    (hbase : (∀ d, s.Owns t d → d = e) →
      Fin.ofNat 256 (s.kern.event e).ulMaxCounter = base t)
    (hk : s'.kern = (k₁.eventPrioTryResume t e).modEvent e fun ev =>
      { ev with
        ulMaxCounter := ((k₁.eventPrioTryResume t e).tcb u).ucPriority
        pvTcbOwn := some u }) :
    (s.inheritOf base).Step (s'.inheritOf (s.inheritOf base).rebase) := by
  have hresume := KernState.eventPrioTryResume_event (k := k₁) (t := t) (e := e)
  have hs := KernState.sameWait_eventPrioTryResume (k := k₁) (t := t) (e := e)
  have hs' : (k₁.eventPrioTryResume t e).SameWait s'.kern := by
    rw [hk]
    exact KernState.sameWait_modEvent rfl rfl
  have hwaits (v : T) (d : E) : s'.kern.Waits v d KernState.eventSemQ ↔
      s.kern.Waits v d KernState.eventSemQ ∧ v ≠ u := by
    rw [hs'.waits, hs.waits, hl.waits]
  have hne (d : E) (hd : d ≠ e) : s'.kern.event d = s.kern.event d := by
    rw [hk, KernState.modEvent_of_ne _ _ _ hd, hresume, hl.event_ne d hd]
  have htype (d : E) : (s'.kern.event d).ucType = (s.kern.event d).ucType := by
    by_cases hd : d = e
    · rw [hd, hk, KernState.modEvent_self, hresume, hl.event]
    · rw [hne d hd]
  have heq : s'.inheritOf (s.inheritOf base).rebase =
      { prio := update (s.inheritOf base).prio t
          (Fin.ofNat 256 (s.kern.event e).ulMaxCounter)
        owner := update (s.inheritOf base).owner e (some u)
        waits := update (s.inheritOf base).waits u ∅
        base := (s.inheritOf base).rebase } := by
    refine Inherit.ext (funext fun v => ?_) (funext fun d => ?_) (funext fun v => ?_) rfl
    · have hprio := KernState.eventPrioTryResume_prio (k := k₁) (t := t) (e := e) v
      rw [hl.event, funext hl.samePrio] at hprio
      simp only [inheritOf, hk]
      exact hprio
    · by_cases hd : d = e
      · subst hd
        simp only [inheritOf, htype, hty, if_true, update_self]
        rw [hk, KernState.modEvent_self]
      · simp only [inheritOf, htype, update_of_ne hd, hne d hd]
    · ext d
      by_cases hv : v = u
      · subst hv
        simp [inheritOf, hwaits]
      · simp [inheritOf, htype, hwaits, hv]
  rw [heq]
  refine .pass t u e _ ?_ ?_ ⟨hty, hu⟩ (fun v hv => hnext v hv.2) ?_ fun hother => hbase ?_
  · simp [inheritOf, hty, ho]
  · ext d
    simp [inheritOf, KernState.Waits, ht]
  · intro d hd hown v hv
    exact hrest d hd ((inheritOf_owner hm).mp hown) v hv.2
  · intro d hown
    exact inheritOf_ownsOther hm hother hown

end SemSystem

/-- The threads and events, and the priority each thread had before it took the first of the
mutexes that it owns. -/
@[ext] structure InheritSystem (T E : Type) where
  sys : SemSystem T E
  base : T → Prio

namespace InheritSystem
open SemSystem

variable {T E : Type} [DecidableEq T] [DecidableEq E] [Fintype E]

def step (w : ℕ) (s : InheritSystem T E) (a : SemOp T E) : Option (InheritSystem T E) :=
  (s.sys.step w a).map fun sys =>
    { sys
      base := fun t => if ∃ e, s.sys.Owns t e then s.base t else (s.sys.kern.tcb t).ucPriority }

/-- Threads of any priorities, and mutexes with inheritance. -/
structure Init (s : InheritSystem T E) : Prop where
  sys : SemSystem.Init s.sys
  inherits : s.sys.Inherits
  base : ∀ t, (s.sys.kern.tcb t).ucPriority = s.base t

/-- The owner that inherits the priority of a thread that begins to wait does not itself wait for a
thread that is less urgent. -/
def BlockOk (s : InheritSystem T E) (t : T) (e : E) : Prop :=
  ∀ o, (s.sys.kern.event e).pvTcbOwn = some o →
    (s.sys.kern.tcb t).ucPriority < (s.sys.kern.tcb o).ucPriority →
      ∀ d, (s.sys.kern.event d).ucType = .mutex → s.sys.kern.Waits o d KernState.eventSemQ →
        ∀ x, (s.sys.kern.event d).pvTcbOwn = some x → x ≠ o →
          (s.sys.kern.tcb x).ucPriority ≤ (s.sys.kern.tcb t).ucPriority

/-- The priority that the mutex has saved. -/
def savedPrio (s : InheritSystem T E) (e : E) : Prio :=
  Fin.ofNat 256 (s.sys.kern.event e).ulMaxCounter

/-- A mutex that is handed on goes to the most urgent thread of its queue, and the priority that it
has saved is at least as urgent as the threads that wait for the other mutexes of its owner, and the
priority the owner had before if there are none. -/
structure PassOk (s : InheritSystem T E) (t : T) (e : E) : Prop where
  next : ∀ u, s.sys.kern.eventNext e KernState.eventSemQ = some u →
    ∀ v, s.sys.kern.Waits v e KernState.eventSemQ →
      (s.sys.kern.tcb u).ucPriority ≤ (s.sys.kern.tcb v).ucPriority
  rest : ∀ d, d ≠ e → s.sys.Owns t d → ∀ v, s.sys.kern.Waits v d KernState.eventSemQ →
    s.savedPrio e ≤ (s.sys.kern.tcb v).ucPriority
  base : (∀ d, s.sys.Owns t d → d = e) → s.savedPrio e = s.base t

/-- The condition under which a step keeps to priority inheritance. -/
def StepOk (w : ℕ) (s : InheritSystem T E) : SemOp T E → Prop
  | .pend .m t e ulTimeout =>
    RecursionOk w s.sys (.pend .m t e ulTimeout) ∧ (ulTimeout ≠ 0 → s.BlockOk t e)
  | .mPost t e =>
    (s.sys.kern.event e).pvTcbOwn = some t → (s.sys.kern.event e).pvPtr = 0 →
      if s.sys.kern.eventWaitNum e KernState.eventSemQ = 0 then
        (∀ d, s.sys.Owns t d → d = e) → (s.sys.kern.tcb t).ucPriority = s.base t
      else s.PassOk t e
  | _ => True

/-- What priority inheritance is for. -/
structure Safe (s : InheritSystem T E) : Prop where
  urgent : ∀ t e, s.sys.Owns t e → ∀ u, s.sys.kern.Waits u e KernState.eventSemQ →
    (s.sys.kern.tcb t).ucPriority ≤ (s.sys.kern.tcb u).ucPriority
  base : ∀ t, (∀ e, ¬ s.sys.Owns t e) → (s.sys.kern.tcb t).ucPriority = s.base t

/-- What holds in every state that is reached. -/
structure Inv [Fintype T] (s : InheritSystem T E) : Prop where
  base : s.sys.Base
  mutex : ∀ e, (s.sys.kern.event e).ucType = .mutex → MutexOk s.sys e
  inherits : s.sys.Inherits
  ok : (s.sys.inheritOf s.base).Ok

variable [Fintype T] {s s' : InheritSystem T E} {w ulTimeout : ℕ} {t u : T} {e : E}
  {a : SemOp T E} {sys : SemSystem T E}

omit [DecidableEq T] [Fintype E] [Fintype T] in
theorem Inv.recursionOk (hok : StepOk w s a) : RecursionOk w s.sys a := by
  cases a with
  | pend p t e ulTimeout =>
    cases p with
    | m => exact hok.1
    | r => trivial
    | w => trivial
  | _ => trivial

omit [Fintype E] in
/-- Every step that meets the condition is one of priority inheritance. -/
theorem Inv.inherit_step (hT : Fintype.card T < 2 ^ 16) (h : Inv s) (hok : StepOk w s a)
    (hs : s.sys.step w a = some sys) :
    (s.sys.inheritOf s.base).Step (sys.inheritOf (s.sys.inheritOf s.base).rebase) := by
  have hgood := h.base.step hT hs
  cases a with
  | pend p t e ulTimeout =>
    simp only [SemSystem.step, Option.ite_none_right_eq_some, Option.map_eq_some_iff] at hs
    obtain ⟨ht, ⟨k', r⟩, hpend, rfl⟩ := hs
    by_cases hp : p = .m
    · subst hp
      rcases KernState.semaphoreMPend_cases hpend with ⟨rfl, err, herr, rfl⟩ |
        ⟨hty, hc, rfl, rfl⟩ | ⟨hty, hc, ho, rfl, rfl⟩ | ⟨hty, hc, rfl, k₁, hk₁, rfl⟩
      · exact (Quiet.of_kern (pended_kern _ _ _ _ _)).step
      · exact inheritOf_take (h.mutex e hty) hty hc (pended_kern _ _ _ _ _)
      · refine (Quiet.of_modEvent (d := e)
          (g := fun ev => { ev with pvPtr := ulong w (ev.pvPtr + 1) }) rfl ?_ rfl rfl).step
        exact KernState.sameWait_modEvent rfl rfl
      · obtain ⟨o, ho, -⟩ := KernState.eventPrioTryBoost_cases hk₁
        exact inheritOf_block h.inherits hty (h.base.event.not_waits ht.1.1) ho
          (hok.2 (KernState.semaphoreMPend_waits hpend) o ho) hk₁
          (KernState.pendWait_parks w ulTimeout)
    · refine (hgood.quiet ?_ ?_).step
      · rw [pended_kern]
        exact pend_samePrio hpend (.inl hp)
      · rintro d hd ⟨-, hty⟩
        rw [hd] at hty
        cases p with
        | m => exact hp rfl
        | r => simp [Pend.type] at hty
        | w => simp [Pend.type] at hty
  | mPost t e =>
    simp only [SemSystem.step, Option.ite_none_right_eq_some, Option.map_eq_some_iff] at hs
    obtain ⟨ht, ⟨k', err⟩, hpost, rfl⟩ := hs
    rcases KernState.semaphoreMPost_cases h.base.event hpost with ⟨rfl, herr⟩ |
      ⟨hty, ho, hp, rfl, rfl⟩ | ⟨hty, ho, hp, rfl, u, k₀, k₁, hlow, hw, hl, hto, rfl⟩ |
      ⟨hty, ho, hp, hn, hc, rfl, rfl⟩
    · exact (Quiet.of_kern (posted_kern _ _ _ _ _)).step
    · refine (Quiet.of_modEvent (d := e) (g := fun ev => { ev with pvPtr := ev.pvPtr - 1 }) rfl
        ?_ rfl rfl).step
      exact KernState.sameWait_modEvent rfl rfl
    · have hpass := hok ho hp
      rw [if_neg fun hn => h.base.event.waitNum_eq_zero.mp hn u hw] at hpass
      have hnext := KernState.eventNext_of_readyLowLevel hlow
      exact inheritOf_pass h.mutex hty (h.base.event.not_waits ht.1.1) ho hw hl
        (hpass.next u hnext) hpass.rest hpass.base (posted_kern _ _ _ _ _)
    · have hfree := hok ho hp
      rw [if_pos hn] at hfree
      exact inheritOf_free h.mutex hty ho (h.base.event.waitNum_eq_zero.mp hn) hfree
        (posted_kern _ _ _ _ _)
  | rwPost t e =>
    simp only [SemSystem.step, Option.ite_none_right_eq_some, Option.map_eq_some_iff] at hs
    obtain ⟨-, ⟨k', err⟩, hpost, rfl⟩ := hs
    refine (hgood.quiet ?_ ?_).step
    · rw [posted_kern]
      exact semaphoreRWPost_samePrio hT h.base hpost
    · rintro d hd ⟨-, hty⟩
      rw [hd] at hty
      simp at hty
  | ret t =>
    simp only [SemSystem.step, Option.ite_none_right_eq_some, Option.map_eq_some_iff] at hs
    obtain ⟨-, ⟨d, p⟩, -, rfl⟩ := hs
    exact (Quiet.of_kern rfl).step
  | tick t =>
    simp only [SemSystem.step, Option.ite_none_right_eq_some, Option.some.injEq] at hs
    obtain ⟨ht, rfl⟩ := hs
    obtain ⟨d, q, hw⟩ := h.base.waits_of_delay ht
    exact (Quiet.of_leaves (KernState.threadTick_leaves hw (h.base.event.exist t)
      (h.base.event.delay t ht)).1).step

theorem Inv.step (hT : Fintype.card T < 2 ^ 16) (h : Inv s) (hok : StepOk w s a)
    (hs : s.step w a = some s') : Inv s' := by
  rw [InheritSystem.step, Option.map_eq_some_iff] at hs
  obtain ⟨sys, hsys, rfl⟩ := hs
  have hgood := h.base.step hT hsys
  have hfixed := h.base.step_fixed hT hsys
  refine ⟨hgood.base, ?_, ⟨?_, ?_⟩, ?_⟩
  · intro e hty
    rw [hgood.type] at hty
    exact (h.mutex e hty).step hT h.base hty (recursionOk hok) hsys
  · intro e hty
    rw [hgood.type] at hty
    rw [hfixed.option]
    exact h.inherits.option e hty
  · intro t
    rw [hfixed.alive]
    exact h.inherits.alive t
  · have hbase : (s.sys.inheritOf s.base).rebase = fun t =>
        if ∃ e, s.sys.Owns t e then s.base t else (s.sys.kern.tcb t).ucPriority := by
      ext1 t
      simp only [Inherit.rebase, inheritOf_owner h.mutex]
      congr
    have hok' := h.ok.step (h.inherit_step hT hok hsys)
    rw [hbase] at hok'
    exact hok'

omit [Fintype E] in
theorem Init.inv (h : Init s) : Inv s where
  base := h.sys.base
  mutex _ hty := h.sys.mutexOk hty
  inherits := h.inherits
  ok := by
    constructor
    · intro e t _ u hu
      have hwait := (h.sys.ready u).2.1
      have hw := hu.2.1
      rw [hwait] at hw
      simp at hw
    · intro t _
      exact h.base t

omit [Fintype E] in
theorem Inv.safe (h : Inv s) : Safe s where
  urgent t e ht u hu := h.ok.urgent e t ((inheritOf_owner h.mutex).mpr ht) u ⟨ht.1, hu⟩
  base t ht := h.ok.base t fun e he => ht e ((inheritOf_owner h.mutex).mp he)

/-- In every run whose steps meet the condition, priority inheritance does what it is for. -/
theorem priorityInherit_safe (hT : Fintype.card T < 2 ^ 16)
    (h : Reach (InheritSystem.step w) (StepOk w) Init s) : Safe s := by
  have hinv : Inv s := by
    apply h.invariant (fun _ hi => Init.inv hi)
    intro s a s' hi hok hs
    exact hi.step hT hok hs
  exact hinv.safe

def inheritOption : EventOption := ⟨true, true, false, false, false⟩

/-- A less urgent thread, a more urgent one and a mutex. -/
def lowAndHigh : InheritSystem (Fin 2) Unit where
  sys := fresh ![10, 5] .mutex inheritOption
  base := ![10, 5]

theorem lowAndHigh_init : Init lowAndHigh where
  sys := fresh_init _ _ _
  inherits := ⟨fun _ _ => rfl, fun _ => rfl⟩
  base _ := rfl

/-- The more urgent thread waits for the other one, and is handed the mutex. -/
theorem priorityInherit_safe_lowAndHigh : ∃ s,
    runs (InheritSystem.step 64) lowAndHigh [.pend .m 0 () 5, .pend .m 1 () 5, .mPost 0 ()] =
        some s ∧
      s.sys.Owns 1 () ∧ (s.sys.kern.tcb 0).ucPriority = 10 ∧ Safe s := by
  have h₀ : Reach (InheritSystem.step 64) (StepOk 64) Init lowAndHigh := .start lowAndHigh_init
  have h₁ := h₀.extend (.pend .m 0 () 5) ⟨(fun ho => by cases ho), (fun _ o ho => by cases ho)⟩ rfl
  have h₂ := h₁.extend (.pend .m 1 () 5)
    ⟨(fun ho => by cases ho), (fun _ o ho _ d _ hw => by cases ho; cases hw.1)⟩ rfl
  have h₃ := h₂.extend (.mPost 0 ())
    (fun _ _ => ⟨by decide, fun d hd => absurd rfl hd, fun _ => rfl⟩) rfl
  exact ⟨_, rfl, by decide, rfl, priorityInherit_safe (by decide) h₃⟩

/-- The more urgent thread waits for the other one and times out: the other one posts the mutex and
keeps the priority that it has inherited. -/
theorem priorityInherit_kept : ∃ s,
    runs (InheritSystem.step 64) lowAndHigh
        [.pend .m 0 () 5, .pend .m 1 () 5, .tick 1, .mPost 0 ()] = some s ∧
      ¬ s.sys.Owns 0 () ∧ (s.sys.kern.tcb 0).ucPriority = 5 ∧ ¬ Safe s := by
  refine ⟨_, rfl, by decide, rfl, fun h => ?_⟩
  exact absurd (h.base 0 (by decide)) (by decide)

end InheritSystem

end SylixOS.Kernel
