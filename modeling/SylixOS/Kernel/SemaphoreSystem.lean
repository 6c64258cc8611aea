import SylixOS.Kernel.Semaphore

/-! # Threads that use semaphores

Any number of threads pend on and post to any number of mutexes and reader-writer semaphores. A
step is one critical section of a call, the return of a thread that has waited, or the timeout of a
waiting thread; delays are not modelled beyond that, so that a waiting thread with a delay may time
out at any moment. What the calls have returned is counted on the side.
-/

namespace SylixOS.Kernel
open Function

/-- The pend functions, by what a thread asks for: a mutex, to read, to write. -/
inductive Pend where
  | m
  | r
  | w
  deriving DecidableEq, Repr

namespace Pend

/-- The type of the events that the function is for. -/
def type : Pend → EventType
  | m => .mutex
  | r => .semRW
  | w => .semRW

/-- The queue in which the function waits. -/
def queue : Pend → Fin 2
  | m => KernState.eventSemQ
  | r => KernState.eventRwQR
  | w => KernState.eventRwQW

end Pend

/-- The kernel, the pend function a thread is inside of once it has begun to wait, and the number
of calls that have returned without error. -/
@[ext] structure SemSystem (T E : Type) where
  kern : KernState T E
  call : T → Option (E × Pend)
  pends : T → E → Pend → ℕ
  posts : T → E → Pend → ℕ

inductive SemOp (T E : Type) where
  | pend (p : Pend) (t : T) (e : E) (ulTimeout : ℕ)
  | mPost (t : T) (e : E)
  | rwPost (t : T) (e : E)
  | ret (t : T)
  | tick (t : T)

variable {T E : Type} [DecidableEq T] [DecidableEq E]

/-- The pend function. -/
def KernState.pend (w : ℕ) (k : KernState T E) (t : T) (e : E) (ulTimeout : ℕ) :
    Pend → Option (KernState T E × Option Error)
  | .m => k.semaphoreMPend w t e ulTimeout
  | .r => k.semaphoreRWPendR w t e ulTimeout
  | .w => k.semaphoreRWPendW w t e ulTimeout

namespace SemSystem

/-- One more call counted. -/
def count (f : T → E → Pend → ℕ) (t : T) (e : E) (p : Pend) : T → E → Pend → ℕ :=
  fun u d q => f u d q + if u = t ∧ d = e ∧ q = p then 1 else 0

/-- A pend function has returned, or has begun to wait. -/
def pended (s : SemSystem T E) (t : T) (e : E) (p : Pend) :
    KernState T E × Option Error → SemSystem T E
  | (kern, none) => { s with kern, call := update s.call t (some (e, p)) }
  | (kern, some .none) => { s with kern, pends := count s.pends t e p }
  | (kern, some _) => { s with kern }

/-- A post function has returned. -/
def posted (s : SemSystem T E) (t : T) (e : E) (p : Pend) :
    KernState T E × Error → SemSystem T E
  | (kern, .none) => { s with kern, posts := count s.posts t e p }
  | (kern, _) => { s with kern }

@[simp] theorem posted_kern (s : SemSystem T E) (t : T) (e : E) (p : Pend)
    (x : KernState T E × Error) : (s.posted t e p x).kern = x.1 := by
  obtain ⟨k, err⟩ := x
  cases err <;> rfl

@[simp] theorem pended_kern (s : SemSystem T E) (t : T) (e : E) (p : Pend)
    (x : KernState T E × Option Error) : (s.pended t e p x).kern = x.1 := by
  obtain ⟨k, _ | err⟩ := x
  · rfl
  · cases err <;> rfl

/-- The thread can make a call. -/
def canCall (s : SemSystem T E) (t : T) : Prop := s.kern.threadIsReady t ∧ s.call t = none

instance (s : SemSystem T E) (t : T) : Decidable (s.canCall t) :=
  inferInstanceAs (Decidable (_ ∧ _))

/-- Whether a post to a reader-writer semaphore ends a reading or a writing. -/
def rwKind (s : SemSystem T E) (e : E) : Pend :=
  match (s.kern.event e).iStatus with
  | .r => .r
  | .w => .w

/-- One step. -/
def step (w : ℕ) (s : SemSystem T E) : SemOp T E → Option (SemSystem T E)
  | .pend p t e ulTimeout =>
    if s.canCall t then (s.kern.pend w t e ulTimeout p).map (s.pended t e p) else none
  | .mPost t e =>
    if s.canCall t then (s.kern.semaphoreMPost t e).map (s.posted t e .m) else none
  | .rwPost t e =>
    if s.canCall t then (s.kern.semaphoreRWPost w t e).map (s.posted t e (s.rwKind e)) else none
  | .ret t =>
    if s.kern.threadIsReady t then
      (s.call t).map fun (e, p) =>
        { s with
          call := update s.call t none
          pends := if s.kern.pendReturn t = .none then count s.pends t e p else s.pends }
    else none
  | .tick t =>
    if (s.kern.tcb t).statusDelay then some { s with kern := s.kern.threadTick t } else none

/-- Threads that wait for nothing, and events as their create functions leave them. -/
structure Init (s : SemSystem T E) : Prop where
  ready : ∀ t, s.kern.threadIsReady t ∧ (s.kern.tcb t).peventPtr = none ∧ s.call t = none
  exist : ∀ t, (s.kern.tcb t).ucIsEventDelete = false
  queue : ∀ e q, (s.kern.event e).wqWaitQ q = ⟨fun _ => [], 0⟩
  free : ∀ e, (s.kern.event e).pvTcbOwn = none ∧ (s.kern.event e).pvPtr = 0
  mutex : ∀ e, (s.kern.event e).ucType = .mutex →
    (s.kern.event e).ulCounter = 1 ∧ (s.kern.event e).ulMaxCounter = prioLowest
  semRW : ∀ e, (s.kern.event e).ucType = .semRW →
    (s.kern.event e).ulCounter = 0 ∧ (s.kern.event e).iStatus = .r
  pends : ∀ t e p, s.pends t e p = 0
  posts : ∀ t e p, s.posts t e p = 0

/-- Threads of given priorities, and fresh events of one kind. -/
def fresh (prio : T → Prio) (ucType : EventType) (ulOption : EventOption) : SemSystem T E where
  kern :=
    { tcb := fun t =>
        { ucPriority := prio t
          statusSem := false
          statusDelay := false
          ucWaitTimeout := false
          ucIsEventDelete := false
          ulDelay := 0
          iPendQ := 0
          peventPtr := none
          ppringPriorityQueue := 0
          iDeleteProcStatus := false }
      event := fun _ =>
        { ucType
          pvTcbOwn := none
          ulCounter := match ucType with | .mutex => 1 | .semRW => 0
          ulMaxCounter := match ucType with | .mutex => prioLowest | .semRW => 0
          iStatus := .r
          ulOption
          ucCeilingPriority := 0
          pvPtr := 0
          wqWaitQ := fun _ => ⟨fun _ => [], 0⟩ } }
  call _ := none
  pends _ _ _ := 0
  posts _ _ _ := 0

omit [DecidableEq T] [DecidableEq E] in
theorem fresh_init (prio : T → Prio) (ucType : EventType) (ulOption : EventOption) :
    Init (fresh prio ucType ulOption : SemSystem T E) where
  ready _ := ⟨⟨rfl, rfl⟩, rfl, rfl⟩
  exist _ := rfl
  queue _ _ := rfl
  free _ := ⟨rfl, rfl⟩
  mutex _ h := by
    cases ucType with
    | mutex => exact ⟨rfl, rfl⟩
    | semRW => simp [fresh] at h
  semRW _ h := by
    cases ucType with
    | mutex => simp [fresh] at h
    | semRW => exact ⟨rfl, rfl⟩
  pends _ _ _ := rfl
  posts _ _ _ := rfl

/-- The pend call of a thread that need not wait any longer and has not timed out. -/
def granted (s : SemSystem T E) (t : T) : Option (E × Pend) :=
  if (s.kern.tcb t).peventPtr = none ∧ (s.kern.tcb t).ucWaitTimeout = false then s.call t else none

/-- The number of the thread's pends of a kind that have succeeded, one that is about to return
included. -/
def grants (s : SemSystem T E) (t : T) (e : E) (p : Pend) : ℕ :=
  s.pends t e p + if s.granted t = some (e, p) then 1 else 0

/-- The thread has a hold of the kind. A pend that is about to return counts as a successful one. -/
def Holds (s : SemSystem T E) (t : T) (e : E) (p : Pend) : Prop := s.posts t e p < s.grants t e p

instance (s : SemSystem T E) (t : T) (e : E) (p : Pend) : Decidable (s.Holds t e p) :=
  inferInstanceAs (Decidable (_ < _))

/-- A waiting thread is inside the pend function whose queue it waits in, for an event of the
type that the function is for. -/
def CallOk (s : SemSystem T E) : Prop :=
  ∀ t e q, s.kern.Waits t e q → ∃ p, s.call t = some (e, p) ∧ p.queue = q ∧
    (s.kern.event e).ucType = p.type

/-- What holds in every state, whatever the threads do. -/
structure Base [Fintype T] (s : SemSystem T E) : Prop where
  event : s.kern.EventOk
  call : s.CallOk

end SemSystem

/-! ## Threads that stop waiting -/

namespace KernState

/-- Some threads have stopped waiting, with or without a timeout; all others wait as before. -/
structure Wakes (k k' : KernState T E) (S : T → Prop) (timeout : Bool) : Prop where
  tcb : ∀ u, ¬ S u → ∃ p, k'.tcb u = { k.tcb u with ucPriority := p }
  wake : ∀ u, S u → (k'.tcb u).peventPtr = none ∧ (k'.tcb u).ucWaitTimeout = timeout

variable {k k' k₁ : KernState T E} {S : T → Prop} {timeout : Bool} {t u : T} {e d : E}
  {q : Fin 2}

omit [DecidableEq T] [DecidableEq E]

theorem SameWait.wakes (h : SameWait k k') (timeout : Bool) :
    Wakes k k' (fun _ => False) timeout where
  tcb u _ := h.tcb u
  wake _ hu := hu.elim

theorem Wakes.trans (h : Wakes k k₁ S timeout) (h₁ : SameWait k₁ k') : Wakes k k' S timeout where
  tcb u hu := by
    obtain ⟨p, hp⟩ := h.tcb u hu
    obtain ⟨p₁, hp₁⟩ := h₁.tcb u
    exact ⟨p₁, by rw [hp₁, hp]⟩
  wake u hu := by
    obtain ⟨p, hp⟩ := h₁.tcb u
    rw [hp]
    exact h.wake u hu

theorem Leaves.wakes [DecidableEq T] (h : Leaves k k' t e q)
    (ht : (k'.tcb t).ucWaitTimeout = timeout) : Wakes k k' (fun u => u = t) timeout where
  tcb u hu := ⟨(k.tcb u).ucPriority, h.tcb_ne u hu⟩
  wake u hu := by
    rw [hu]
    exact ⟨h.wait, ht⟩

theorem ReadersLeave.wakes (h : ReadersLeave k k' e) :
    Wakes k k' (fun u => k.Waits u e eventRwQR) false where
  tcb u hu := ⟨(k.tcb u).ucPriority, h.tcb_ne u hu⟩
  wake u hu := ⟨(h.ready u hu).1, (h.ready u hu).2.1⟩

theorem Wakes.waits (h : Wakes k k' S timeout) : k'.Waits u d q ↔ k.Waits u d q ∧ ¬ S u := by
  by_cases hu : S u
  · simp [Waits, (h.wake u hu).1, hu]
  · obtain ⟨p, hp⟩ := h.tcb u hu
    simp [Waits, hp, hu]

end KernState

namespace SemSystem

variable {s s' : SemSystem T E} {S : T → Prop} {timeout : Bool} {t u : T} {e d : E} {p x : Pend}
  {q : Fin 2} {k₁ : KernState T E}

omit [DecidableEq T] in
open Classical in
/-- A thread that has stopped waiting without a timeout has been granted its call. -/
theorem grants_wakes (s' : SemSystem T E) (h : s.kern.Wakes s'.kern S timeout)
    (hS : ∀ u, S u → ∃ e q, s.kern.Waits u e q) (hc : s'.call = s.call)
    (hp : s'.pends = s.pends) : s'.grants u e p = s.grants u e p +
      if S u ∧ timeout = false ∧ s.call u = some (e, p) then 1 else 0 := by
  unfold grants
  rw [hp]
  by_cases hu : S u
  · obtain ⟨e', q, hw⟩ := hS u hu
    have hnone : s.granted u = none := by simp [granted, hw.1]
    have hwake := h.wake u hu
    cases timeout with
    | false => simp [granted, hwake.1, hwake.2, hc, hu, hw.1]
    | true => simp [granted, hwake.1, hwake.2, hu, hw.1]
  · obtain ⟨p', hp'⟩ := h.tcb u hu
    simp [granted, hp', hc, hu]

/-- A call that returns at once is counted. -/
theorem grants_count (s' : SemSystem T E) (h : s.kern.SameWait s'.kern) (hc : s'.call = s.call)
    (hp : s'.pends = count s.pends t e p) : s'.grants u d x = s.grants u d x +
      if u = t ∧ d = e ∧ x = p then 1 else 0 := by
  obtain ⟨p', hp'⟩ := h.tcb u
  simp only [grants, granted, hp, count, hp', hc]
  exact Nat.add_right_comm _ _ _

/-- A call that begins to wait is not granted. -/
theorem grants_parks (s' : SemSystem T E) (hs : s.kern.SameWait k₁) (h : k₁.Parks s'.kern t e q)
    (ht : s.call t = none) (hc : s'.call = update s.call t (some (e, p)))
    (hp : s'.pends = s.pends) : s'.grants u d x = s.grants u d x := by
  unfold grants
  rw [hp]
  by_cases hu : u = t
  · subst hu
    simp [granted, h.wait.1, ht]
  · obtain ⟨p', hp'⟩ := hs.tcb u
    simp [granted, h.tcb_ne u hu, hp', hc, hu]

/-! ## What holds in every state -/

section Base
variable [Fintype T]

omit [DecidableEq T] in
theorem CallOk.wakes (h : s.CallOk) (hw : s.kern.Wakes s'.kern S timeout)
    (hc : s'.call = s.call) (ht : ∀ e, (s'.kern.event e).ucType = (s.kern.event e).ucType) :
    s'.CallOk := by
  intro u d q hu
  rw [hc, ht]
  exact h u d q (hw.waits.mp hu).1

theorem CallOk.parks (h : s.CallOk) (hs : s.kern.SameWait k₁) (hw : k₁.Parks s'.kern t e p.queue)
    (ht : (s.kern.tcb t).peventPtr = none)
    (hc : s'.call = update s.call t (some (e, p)))
    (hp : (s.kern.event e).ucType = p.type)
    (hty : ∀ e, (s'.kern.event e).ucType = (s.kern.event e).ucType) : s'.CallOk := by
  have hk₁ : (k₁.tcb t).peventPtr = none := by
    obtain ⟨x, hx⟩ := hs.tcb t
    rw [hx]
    exact ht
  intro u d q hu
  rw [hw.waits hk₁, hs.waits] at hu
  rw [hc, hty]
  cases hu with
  | inl hu =>
    have hne : u ≠ t := by
      rintro rfl
      rw [KernState.Waits, ht] at hu
      simp at hu
    rw [update_of_ne hne]
    exact h u d q hu
  | inr hu =>
    obtain ⟨rfl, rfl, rfl⟩ := hu
    exact ⟨p, by simp, rfl, hp⟩

/-! ## Events that a step does not touch -/

/-- Nothing has changed at an event. -/
structure SameAt (s s' : SemSystem T E) (e : E) : Prop where
  event : s'.kern.event e = s.kern.event e
  waits : ∀ t q, s'.kern.Waits t e q ↔ s.kern.Waits t e q
  grants : ∀ t p, s'.grants t e p = s.grants t e p
  posts : ∀ t p, s'.posts t e p = s.posts t e p

theorem SameAt.refl (s : SemSystem T E) (e : E) : SameAt s s e :=
  ⟨rfl, fun _ _ => Iff.rfl, fun _ _ => rfl, fun _ _ => rfl⟩

/-- Threads that stop waiting for one event do not change another. -/
theorem Base.sameAt_wakes (hb : s.Base) (h : s.kern.Wakes s'.kern S timeout)
    (hS : ∀ u, S u → ∃ q, s.kern.Waits u d q) (hde : d ≠ e)
    (he : s'.kern.event e = s.kern.event e) (hc : s'.call = s.call) (hp : s'.pends = s.pends)
    (hposts : ∀ t p, s'.posts t e p = s.posts t e p) : SameAt s s' e where
  event := he
  waits u q := by
    rw [h.waits]
    constructor
    · exact fun hu => hu.1
    · intro hu
      refine ⟨hu, fun hs => ?_⟩
      obtain ⟨q', hq'⟩ := hS u hs
      exact hde (Option.some.inj (hq'.1.symm.trans hu.1))
  grants u p := by
    rw [grants_wakes s' h (fun u hu => (hS u hu).elim fun q hq => ⟨d, q, hq⟩) hc hp, if_neg]
    · rfl
    · rintro ⟨hs, -, hcall⟩
      obtain ⟨q', hq'⟩ := hS u hs
      obtain ⟨p', hp', -⟩ := hb.call u d q' hq'
      rw [hp', Option.some.injEq, Prod.mk.injEq] at hcall
      exact hde hcall.1
  posts := hposts

/-- A call that returns at once does not change another event. -/
theorem sameAt_count (h : s.kern.SameWait s'.kern) (hde : d ≠ e)
    (he : s'.kern.event e = s.kern.event e) (hc : s'.call = s.call)
    (hp : s'.pends = count s.pends t d p) (hposts : s'.posts = s.posts) : SameAt s s' e where
  event := he
  waits u q := h.waits
  grants u x := by
    rw [grants_count s' h hc hp, if_neg]
    · rfl
    · rintro ⟨-, rfl, -⟩
      exact hde rfl
  posts u x := by rw [hposts]

/-- A thread that begins to wait for one event does not change another. -/
theorem sameAt_parks (hs : s.kern.SameWait k₁) (h : k₁.Parks s'.kern t d q) (hde : d ≠ e)
    (he : k₁.event e = s.kern.event e) (hw : (s.kern.tcb t).peventPtr = none)
    (ht : s.call t = none) (hc : s'.call = update s.call t (some (d, p)))
    (hp : s'.pends = s.pends) (hposts : s'.posts = s.posts) : SameAt s s' e where
  event := (h.event_ne e (Ne.symm hde)).trans he
  waits u q' := by
    have hk₁ : (k₁.tcb t).peventPtr = none := by
      obtain ⟨x, hx⟩ := hs.tcb t
      rw [hx]
      exact hw
    rw [h.waits hk₁, hs.waits]
    constructor
    · rintro (hu | ⟨-, rfl, -⟩)
      · exact hu
      · exact absurd rfl hde
    · exact .inl
  grants u x := grants_parks s' hs h ht hc hp
  posts u x := by rw [hposts]

end Base

/-! ## Steps as seen from any event -/

section Steps
variable [Fintype T] {k k' : KernState T E} {r : Option Error} {err : Error} {w ulTimeout : ℕ}

omit [DecidableEq T] [Fintype T] in
theorem modEvent_type {g : Event T → Event T} (hg : (g (k.event d)).ucType = (k.event d).ucType)
    (e : E) : ((k.modEvent d g).event e).ucType = (k.event e).ucType := by
  by_cases he : e = d
  · subst he
    rw [KernState.modEvent_self, hg]
  · rw [KernState.modEvent_of_ne _ _ _ he]

/-- A pend function fails, changes its event, or begins to wait. -/
theorem pend_cases (h : k.pend w t d ulTimeout p = some (k', r)) :
    (k' = k ∧ ∃ err, err ≠ .none ∧ r = some err) ∨
    ((k.event d).ucType = p.type ∧ r = some .none ∧ ∃ g, k' = k.modEvent d g ∧
      k.SameWait k' ∧ (g (k.event d)).ucType = (k.event d).ucType) ∨
    ((k.event d).ucType = p.type ∧ r = none ∧ ∃ k₁, k.SameWait k₁ ∧ k₁.event = k.event ∧
      k₁.Parks k' t d p.queue) := by
  cases p with
  | m =>
    rcases KernState.semaphoreMPend_cases h with h | ⟨hty, -, hr, rfl⟩ | ⟨hty, -, -, hr, rfl⟩ |
      ⟨hty, -, hr, k₁, hk₁, rfl⟩
    · exact .inl h
    · exact .inr (.inl ⟨hty, hr, _, rfl, KernState.sameWait_modEvent rfl rfl, rfl⟩)
    · exact .inr (.inl ⟨hty, hr, _, rfl, KernState.sameWait_modEvent rfl rfl, rfl⟩)
    · exact .inr (.inr ⟨hty, hr, k₁, KernState.sameWait_eventPrioTryBoost hk₁,
        KernState.eventPrioTryBoost_event hk₁, KernState.pendWait_parks w ulTimeout⟩)
  | r =>
    rcases KernState.semaphoreRWPendR_cases h with h | ⟨hty, -, -, hr, rfl⟩ | ⟨hty, -, hr, rfl⟩
    · exact .inl h
    · exact .inr (.inl ⟨hty, hr, _, rfl, KernState.sameWait_modEvent rfl rfl, rfl⟩)
    · exact .inr (.inr ⟨hty, hr, k, KernState.SameWait.refl k, rfl,
        KernState.pendWait_parks w ulTimeout⟩)
  | w =>
    rcases KernState.semaphoreRWPendW_cases h with h | ⟨hty, -, hr, rfl⟩ | ⟨hty, -, -, hr, rfl⟩ |
      ⟨hty, -, -, hr, rfl⟩
    · exact .inl h
    · exact .inr (.inl ⟨hty, hr, _, rfl, KernState.sameWait_modEvent rfl rfl, rfl⟩)
    · exact .inr (.inl ⟨hty, hr, _, rfl, KernState.sameWait_modEvent rfl rfl, rfl⟩)
    · exact .inr (.inr ⟨hty, hr, k, KernState.SameWait.refl k, rfl,
        KernState.pendWait_parks w ulTimeout⟩)

/-- A post changes its event and wakes threads that wait for it. -/
structure PostStep (k k' : KernState T E) (d : E) : Prop where
  wakes : ∃ S, k.Wakes k' S false ∧ ∀ u, S u → ∃ q, k.Waits u d q
  ok : k'.EventOk
  event_ne : ∀ e, e ≠ d → k'.event e = k.event e
  type : ∀ e, (k'.event e).ucType = (k.event e).ucType

theorem PostStep.of_modEvent (hk : k.EventOk) {g : Event T → Event T}
    (hs : k.SameWait (k.modEvent d g)) (hg : (g (k.event d)).ucType = (k.event d).ucType) :
    PostStep k (k.modEvent d g) d where
  wakes := ⟨fun _ => False, hs.wakes false, fun _ hu => hu.elim⟩
  ok := hk.sameWait hs
  event_ne _ he := KernState.modEvent_of_ne _ _ _ he
  type := modEvent_type hg

theorem PostStep.of_leaves (hT : Fintype.card T < 2 ^ 16) (hk : k.EventOk)
    {k₁ k₂ : KernState T E} (hw : k.Waits u d q) (hl : k.Leaves k₁ u d q)
    (ht : (k₁.tcb u).ucWaitTimeout = false) (hs : k₁.SameWait k₂) (he : k₂.event = k₁.event)
    {g : Event T → Event T} (hs₂ : k₂.SameWait (k₂.modEvent d g))
    (hg : (g (k₂.event d)).ucType = (k₂.event d).ucType) : PostStep k (k₂.modEvent d g) d where
  wakes := ⟨fun v => v = u, (hl.wakes ht).trans (hs.trans hs₂), fun v hv => ⟨q, hv ▸ hw⟩⟩
  ok := ((hk.leaves hT hw hl).sameWait hs).sameWait hs₂
  event_ne e hne := by
    rw [KernState.modEvent_of_ne _ _ _ hne, he]
    exact hl.event_ne e hne
  type e := by
    rw [modEvent_type hg, he]
    by_cases hed : e = d
    · rw [hed, hl.event]
    · rw [hl.event_ne e hed]

theorem PostStep.of_releasePend (hT : Fintype.card T < 2 ^ 16) (hk : k.EventOk) {b : Bool}
    (h : k.releasePend w d b = some k') : PostStep k k' d := by
  rcases KernState.releasePend_cases hT hk h with ⟨-, u, k₁, hw, hl, ht, rfl⟩ |
    ⟨-, -, k₁, hk₁, hleave, -, rfl⟩ | ⟨-, -, rfl⟩
  · exact .of_leaves hT hk hw hl ht (.refl k₁) rfl (KernState.sameWait_modEvent rfl rfl) rfl
  · have hs : k₁.SameWait (k₁.modEvent d fun ev => { ev with pvTcbOwn := none, iStatus := .r }) :=
      KernState.sameWait_modEvent rfl rfl
    constructor
    · exact ⟨_, hleave.wakes.trans hs, fun u hu => ⟨_, hu⟩⟩
    · exact hk₁.sameWait hs
    · intro e he
      rw [KernState.modEvent_of_ne _ _ _ he]
      exact hleave.event_ne e he
    · intro e
      rw [modEvent_type rfl]
      by_cases hed : e = d
      · rw [hed, hleave.event]
      · rw [hleave.event_ne e hed]
  · exact .of_modEvent hk (KernState.sameWait_modEvent rfl rfl) rfl

theorem semaphoreMPost_step (hT : Fintype.card T < 2 ^ 16) (hk : k.EventOk)
    (h : k.semaphoreMPost t d = some (k', err)) :
    (k' = k ∧ err ≠ .none) ∨ ((k.event d).ucType = .mutex ∧ err = .none ∧ PostStep k k' d) := by
  rcases KernState.semaphoreMPost_cases hk h with h | ⟨hty, -, -, herr, rfl⟩ |
    ⟨hty, -, -, herr, u, k₀, k₁, -, hw, hl, ht, rfl⟩ | ⟨hty, -, -, -, -, herr, rfl⟩
  · exact .inl h
  · exact .inr ⟨hty, herr, .of_modEvent hk (KernState.sameWait_modEvent rfl rfl) rfl⟩
  · exact .inr ⟨hty, herr, .of_leaves hT hk hw hl ht KernState.sameWait_eventPrioTryResume
      KernState.eventPrioTryResume_event (KernState.sameWait_modEvent rfl rfl) rfl⟩
  · exact .inr ⟨hty, herr, .of_modEvent hk (KernState.sameWait_modEvent rfl rfl) rfl⟩

theorem semaphoreRWPost_step (hT : Fintype.card T < 2 ^ 16) (hk : k.EventOk)
    (h : k.semaphoreRWPost w t d = some (k', err)) :
    (k' = k ∧ err ≠ .none) ∨ ((k.event d).ucType = .semRW ∧ err = .none ∧ PostStep k k' d) := by
  rcases KernState.semaphoreRWPost_cases h with h | ⟨hty, -, -, herr, rfl⟩ |
    ⟨hty, -, -, herr, b, -, hrel⟩ | ⟨hty, -, -, -, -, herr, rfl⟩ | ⟨hty, -, -, -, -, herr, hrel⟩
  · exact .inl h
  · exact .inr ⟨hty, herr, .of_modEvent hk (KernState.sameWait_modEvent rfl rfl) rfl⟩
  · exact .inr ⟨hty, herr, .of_releasePend hT hk hrel⟩
  · exact .inr ⟨hty, herr, .of_modEvent hk (KernState.sameWait_modEvent rfl rfl) rfl⟩
  · exact .inr ⟨hty, herr, .of_releasePend hT hk hrel⟩

/-- The events whose threads or counters a step may change. -/
def Touches (s : SemSystem T E) (e : E) : SemOp T E → Prop
  | .pend p _ d _ => d = e ∧ (s.kern.event e).ucType = p.type
  | .mPost _ d => d = e ∧ (s.kern.event e).ucType = .mutex
  | .rwPost _ d => d = e ∧ (s.kern.event e).ucType = .semRW
  | .ret _ => False
  | .tick t => ∃ q, s.kern.Waits t e q

/-- A step keeps what holds in every state, and changes only the events that it touches. -/
structure Good (s s' : SemSystem T E) (a : SemOp T E) : Prop where
  base : s'.Base
  type : ∀ e, (s'.kern.event e).ucType = (s.kern.event e).ucType
  same : ∀ e, ¬ s.Touches e a → SameAt s s' e

theorem Base.good_refl (hb : s.Base) (a : SemOp T E) : Good s s a :=
  ⟨hb, fun _ => rfl, fun e _ => .refl s e⟩

theorem Base.pended (hT : Fintype.card T < 2 ^ 16) (hb : s.Base) (ht : s.canCall t)
    (h : s.kern.pend w t d ulTimeout p = some (k', r)) :
    Good s (s.pended t d p (k', r)) (.pend p t d ulTimeout) := by
  have hwait := hb.event.not_waits ht.1.1
  rcases pend_cases h with ⟨rfl, err, herr, rfl⟩ | ⟨hty, rfl, g, rfl, hs, hg⟩ |
    ⟨hty, rfl, k₁, hs, he, hp⟩
  · cases err with
    | none => exact absurd rfl herr
    | _ => exact hb.good_refl _
  · refine ⟨⟨hb.event.sameWait hs, hb.call.wakes (hs.wakes false) rfl (modEvent_type hg)⟩,
      modEvent_type hg, ?_⟩
    intro e hne
    have hde : d ≠ e := by
      rintro rfl
      exact hne ⟨rfl, hty⟩
    exact sameAt_count hs hde (KernState.modEvent_of_ne _ _ _ (Ne.symm hde)) rfl rfl rfl
  · have htype : ∀ e, (k'.event e).ucType = (s.kern.event e).ucType := by
      intro e
      by_cases hed : e = d
      · rw [hed, hp.event, he]
      · rw [hp.event_ne e hed, he]
    have hwait₁ : (k₁.tcb t).peventPtr = none := by
      obtain ⟨x, hx⟩ := hs.tcb t
      rw [hx]
      exact hwait
    refine ⟨⟨(hb.event.sameWait hs).parks hT hwait₁ hp,
      hb.call.parks hs hp hwait rfl hty htype⟩, htype, ?_⟩
    intro e hne
    have hde : d ≠ e := by
      rintro rfl
      exact hne ⟨rfl, hty⟩
    exact sameAt_parks hs hp hde (by rw [he]) hwait ht.2 rfl rfl rfl

theorem Base.posted (hb : s.Base) {a : SemOp T E}
    (h : (k' = s.kern ∧ err ≠ .none) ∨ (s.Touches d a ∧ err = .none ∧ PostStep s.kern k' d)) :
    Good s (s.posted t d p (k', err)) a := by
  rcases h with ⟨rfl, herr⟩ | ⟨ht, rfl, hp⟩
  · cases err with
    | none => exact absurd rfl herr
    | _ => exact hb.good_refl _
  · obtain ⟨S, hS, hw⟩ := hp.wakes
    refine ⟨⟨hp.ok, hb.call.wakes hS rfl hp.type⟩, hp.type, ?_⟩
    intro e hne
    have hde : d ≠ e := by
      rintro rfl
      exact hne ht
    refine hb.sameAt_wakes hS hw hde (hp.event_ne e (Ne.symm hde)) rfl rfl ?_
    intro u x
    simp [SemSystem.posted, count, Ne.symm hde]

theorem Base.ret (hb : s.Base) (ht : s.kern.threadIsReady t) (hc : s.call t = some (d, p))
    (hs : s' =
      { s with
        call := update s.call t none
        pends := if s.kern.pendReturn t = .none then count s.pends t d p else s.pends }) :
    Good s s' (.ret t) := by
  have hwait := hb.event.not_waits ht.1
  subst hs
  refine ⟨⟨hb.event, ?_⟩, fun _ => rfl, fun e _ => ⟨rfl, fun _ _ => Iff.rfl, ?_, fun _ _ => rfl⟩⟩
  · intro u e q hu
    have hne : u ≠ t := by
      rintro rfl
      rw [KernState.Waits, hwait] at hu
      simp at hu
    obtain ⟨x, hx, hq⟩ := hb.call u e q hu
    exact ⟨x, (update_of_ne hne _ _).trans hx, hq⟩
  · intro u x
    have hexist := hb.event.exist t
    by_cases hu : u = t
    · subst hu
      cases hto : (s.kern.tcb u).ucWaitTimeout with
      | true => simp [grants, granted, KernState.pendReturn, hto]
      | false =>
        simp only [grants, granted, KernState.pendReturn, hto, hexist, hwait, hc, count,
          update_self, Bool.false_eq_true, and_self, if_true, if_false, Option.some.injEq,
          Prod.mk.injEq, true_and, reduceCtorEq, Nat.add_zero]
        congr 1
        simp only [eq_comm]
    · simp only [grants, granted, update_of_ne hu]
      split_ifs <;> simp [count, hu]

omit [DecidableEq T] in
/-- A thread with a delay waits. -/
theorem Base.waits_of_delay (hb : s.Base) (ht : (s.kern.tcb t).statusDelay = true) :
    ∃ d q, s.kern.Waits t d q := by
  have hsome := hb.event.sem t
  rw [hb.event.delay t ht] at hsome
  obtain ⟨d, hd⟩ := Option.isSome_iff_exists.mp hsome.symm
  exact ⟨d, (s.kern.tcb t).iPendQ, hd, rfl⟩

theorem Base.tick (hT : Fintype.card T < 2 ^ 16) (hb : s.Base)
    (ht : (s.kern.tcb t).statusDelay = true) :
    Good s { s with kern := s.kern.threadTick t } (.tick t) := by
  obtain ⟨d, q, hw⟩ := hb.waits_of_delay ht
  have hl := KernState.threadTick_leaves hw (hb.event.exist t) (hb.event.delay t ht)
  have hwakes := hl.1.wakes hl.2
  have htype : ∀ e, ((s.kern.threadTick t).event e).ucType = (s.kern.event e).ucType := by
    intro e
    by_cases hed : e = d
    · rw [hed, hl.1.event]
    · rw [hl.1.event_ne e hed]
  refine ⟨⟨hb.event.leaves hT hw hl.1, hb.call.wakes hwakes rfl htype⟩, htype, ?_⟩
  intro e hne
  have hde : d ≠ e := by
    rintro rfl
    exact hne ⟨_, hw⟩
  exact hb.sameAt_wakes hwakes (fun u hu => ⟨_, hu ▸ hw⟩) hde (hl.1.event_ne e (Ne.symm hde)) rfl
    rfl fun _ _ => rfl

theorem Base.step (hT : Fintype.card T < 2 ^ 16) (hb : s.Base) {a : SemOp T E}
    (hs : SemSystem.step w s a = some s') : Good s s' a := by
  cases a with
  | pend p t e ulTimeout =>
    simp only [SemSystem.step, Option.ite_none_right_eq_some, Option.map_eq_some_iff] at hs
    obtain ⟨ht, ⟨k', r⟩, h, rfl⟩ := hs
    exact hb.pended hT ht h
  | mPost t e =>
    simp only [SemSystem.step, Option.ite_none_right_eq_some, Option.map_eq_some_iff] at hs
    obtain ⟨ht, ⟨k', err⟩, h, rfl⟩ := hs
    refine hb.posted ?_
    rcases semaphoreMPost_step hT hb.event h with h | ⟨hty, h⟩
    · exact .inl h
    · exact .inr ⟨⟨rfl, hty⟩, h⟩
  | rwPost t e =>
    simp only [SemSystem.step, Option.ite_none_right_eq_some, Option.map_eq_some_iff] at hs
    obtain ⟨ht, ⟨k', err⟩, h, rfl⟩ := hs
    refine hb.posted ?_
    rcases semaphoreRWPost_step hT hb.event h with h | ⟨hty, h⟩
    · exact .inl h
    · exact .inr ⟨⟨rfl, hty⟩, h⟩
  | ret t =>
    simp only [SemSystem.step, Option.ite_none_right_eq_some, Option.map_eq_some_iff] at hs
    obtain ⟨ht, ⟨d, p⟩, hc, rfl⟩ := hs
    exact hb.ret ht hc rfl
  | tick t =>
    simp only [SemSystem.step, Option.ite_none_right_eq_some, Option.some.injEq] at hs
    obtain ⟨ht, rfl⟩ := hs
    exact hb.tick hT ht

theorem Init.base (h : Init s) : s.Base where
  event := .of_unused (fun t => ⟨(h.ready t).1, (h.ready t).2.1⟩) h.exist h.queue
  call := by
    intro t e q hw
    rw [KernState.Waits, (h.ready t).2.1] at hw
    simp at hw

end Steps

end SemSystem

end SylixOS.Kernel
