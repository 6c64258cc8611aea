import SylixOS.Kernel.SemaphoreSystem
import SylixOS.Lib.Lock
import SylixOS.Lib.Reach

/-! # Mutex semaphores are locks with one holder

Seen from a mutex, every step of the threads is a step of a lock that one thread holds at a time,
or no step: a free mutex is taken, a post hands it to a waiting thread or frees it, a timeout lets
a waiting thread leave. The threads that the mutex records as owners are those that have been
granted it more often than they have posted it.
-/

namespace SylixOS.Kernel.SemSystem
open Lib

variable {T E : Type} [DecidableEq T] [DecidableEq E]

/-- The lock that a mutex is. -/
def mutexOf (s : SemSystem T E) (e : E) : Mutex T where
  owner := (s.kern.event e).pvTcbOwn
  extra := (s.kern.event e).pvPtr
  waiting := {t | s.kern.Waits t e KernState.eventSemQ}
  acquired t := s.grants t e .m
  released t := s.posts t e .m

/-- The mutex keeps the rules of the lock, and its counter says whether it is free. -/
structure MutexOk (s : SemSystem T E) (e : E) : Prop where
  lock : (s.mutexOf e).Ok
  counter : (s.kern.event e).ulCounter = if (s.kern.event e).pvTcbOwn = none then 1 else 0

/-- The owner of a mutex does not take it once more often than `EVENT_pvPtr` can count. -/
def RecursionOk (w : ℕ) (s : SemSystem T E) : SemOp T E → Prop
  | .pend .m t e _ => (s.kern.event e).pvTcbOwn = some t → (s.kern.event e).pvPtr + 1 < 2 ^ w
  | _ => True

variable [Fintype T] {s s' : SemSystem T E} {w ulTimeout : ℕ} {t u : T} {e : E} {q : Fin 2}
  {a : SemOp T E} {k' : KernState T E} {r : Option Error} {err : Error}

omit [DecidableEq T] [Fintype T] in
theorem SameAt.mutexOf (h : SameAt s s' e) : s'.mutexOf e = s.mutexOf e := by
  ext
  · simp [SemSystem.mutexOf, h.event]
  · simp [SemSystem.mutexOf, h.event]
  · simp [SemSystem.mutexOf, h.waits]
  · simp [SemSystem.mutexOf, h.grants]
  · simp [SemSystem.mutexOf, h.posts]

omit [Fintype T] in
theorem MutexOk.same (hm : MutexOk s e) (h : SameAt s s' e) : MutexOk s' e where
  lock := by
    rw [h.mutexOf]
    exact hm.lock
  counter := by
    rw [h.event]
    exact hm.counter

omit [Fintype T] in
/-- A pend that returns at once is one more acquisition. -/
theorem acquired_pended (hs : s.kern.SameWait k') :
    (fun u => (s.pended t e .m (k', some .none)).grants u e .m) =
      oneMore (fun u => s.grants u e .m) t := by
  ext u
  rw [grants_count (s.pended t e .m (k', some .none)) hs rfl rfl, Mutex.oneMore_apply]
  simp

omit [Fintype T] in
theorem released_count :
    (fun u => count s.posts t e .m u e .m) = oneMore (fun u => s.posts u e .m) t := by
  ext u
  rw [Mutex.oneMore_apply]
  simp [count]

omit [DecidableEq T] in
/-- A thread that waits for a mutex is inside the pend function for mutexes. -/
theorem Base.call_mutex (hb : s.Base) (hty : (s.kern.event e).ucType = .mutex)
    (hw : s.kern.Waits t e q) : s.call t = some (e, .m) ∧ q = KernState.eventSemQ := by
  obtain ⟨p, hp, hq, hpt⟩ := hb.call t e q hw
  rw [hty] at hpt
  cases p with
  | m => exact ⟨hp, hq.symm⟩
  | r => simp [Pend.type] at hpt
  | w => simp [Pend.type] at hpt

theorem MutexOk.pended (hb : s.Base) (hm : MutexOk s e) (ht : s.canCall t)
    (hok : RecursionOk w s (.pend .m t e ulTimeout))
    (h : s.kern.semaphoreMPend w t e ulTimeout = some (k', r)) :
    MutexOk (s.pended t e .m (k', r)) e := by
  have hwait := hb.event.not_waits ht.1.1
  have hcounter := hm.counter
  rcases KernState.semaphoreMPend_cases h with ⟨rfl, err, herr, rfl⟩ | ⟨hty, hc, rfl, rfl⟩ |
    ⟨hty, hc, ho, rfl, rfl⟩ | ⟨hty, hc, rfl, k₁, hk₁, rfl⟩
  · cases err with
    | none => exact absurd rfl herr
    | _ => exact hm
  · have hfree : (s.kern.event e).pvTcbOwn = none := by
      by_contra hno
      rw [if_neg hno] at hcounter
      exact hc hcounter
    refine ⟨?_, by simp [SemSystem.pended]⟩
    have hstep := Mutex.Step.acquire (m := s.mutexOf e) t hfree
    refine Eq.mp (congrArg Mutex.Ok (Mutex.ext ?_ ?_ ?_ ?_ ?_)) (hm.lock.step hstep)
    · simp [SemSystem.mutexOf, SemSystem.pended]
    · simp [SemSystem.mutexOf, SemSystem.pended]
    · rfl
    · exact (acquired_pended (KernState.sameWait_modEvent rfl rfl)).symm
    · rfl
  · refine ⟨?_, ?_⟩
    · have hstep := Mutex.Step.again (m := s.mutexOf e) t ho
      refine Eq.mp (congrArg Mutex.Ok (Mutex.ext ?_ ?_ ?_ ?_ ?_)) (hm.lock.step hstep)
      · simp [SemSystem.mutexOf, SemSystem.pended]
      · simp [SemSystem.mutexOf, SemSystem.pended, ulong_of_lt (hok ho)]
      · rfl
      · exact (acquired_pended (KernState.sameWait_modEvent rfl rfl)).symm
      · rfl
    · simpa [SemSystem.pended] using hcounter
  · have howned : (s.kern.event e).pvTcbOwn ≠ none := by
      intro hno
      rw [if_pos hno, hc] at hcounter
      simp at hcounter
    have hs := KernState.sameWait_eventPrioTryBoost hk₁
    have he := KernState.eventPrioTryBoost_event hk₁
    have hp := KernState.pendWait_parks (k := k₁) (t := t) (e := e)
      (q := KernState.eventSemQ) w ulTimeout
    obtain ⟨hown, hcnt, hptr, -⟩ := hp.core
    rw [he] at hown hcnt hptr
    have hwait₁ : (k₁.tcb t).peventPtr = none := by
      obtain ⟨x, hx⟩ := hs.tcb t
      rw [hx]
      exact hwait
    refine ⟨?_, ?_⟩
    · have hstep := Mutex.Step.wait (m := s.mutexOf e) t howned
      refine Eq.mp (congrArg Mutex.Ok (Mutex.ext ?_ ?_ ?_ ?_ ?_)) (hm.lock.step hstep)
      · exact hown.symm
      · exact hptr.symm
      · ext u
        simp only [SemSystem.mutexOf, SemSystem.pended, Set.mem_insert_iff, Set.mem_ofPred_eq,
          hp.waits hwait₁, hs.waits]
        tauto
      · ext u
        exact (grants_parks (s.pended t e .m (k₁.pendWait t e w _ ulTimeout, none)) hs hp
          ht.2 rfl rfl).symm
      · rfl
    · change ((k₁.pendWait t e w _ ulTimeout).event e).ulCounter = _
      rw [hcnt]
      change _ = if ((k₁.pendWait t e w _ ulTimeout).event e).pvTcbOwn = none then 1 else 0
      rw [hown]
      exact hcounter

open Classical in
theorem MutexOk.posted (hb : s.Base) (hm : MutexOk s e)
    (h : s.kern.semaphoreMPost t e = some (k', err)) :
    MutexOk (s.posted t e .m (k', err)) e := by
  have hcounter := hm.counter
  rcases KernState.semaphoreMPost_cases hb.event h with ⟨rfl, herr⟩ | ⟨hty, ho, hp, rfl, rfl⟩ |
    ⟨hty, ho, hp, rfl, u, k₀, k₁, -, hw, hl, hto, rfl⟩ | ⟨hty, ho, hp, hn, hc, rfl, rfl⟩
  · cases err with
    | none => exact absurd rfl herr
    | _ => exact hm
  · refine ⟨?_, ?_⟩
    · have hstep := Mutex.Step.giveBack (m := s.mutexOf e) t ho hp
      refine Eq.mp (congrArg Mutex.Ok (Mutex.ext ?_ ?_ ?_ ?_ ?_)) (hm.lock.step hstep)
      · simp [SemSystem.mutexOf, SemSystem.posted]
      · simp [SemSystem.mutexOf, SemSystem.posted]
      · rfl
      · rfl
      · exact released_count.symm
    · simpa [SemSystem.posted] using hcounter
  · have hresume : k₁.SameWait (k₁.eventPrioTryResume t e) :=
      KernState.sameWait_eventPrioTryResume
    have hevent := KernState.eventPrioTryResume_event (k := k₁) (t := t) (e := e)
    obtain ⟨-, hcnt, hptr, -⟩ := hl.core
    have hsame : k₁.SameWait ((k₁.eventPrioTryResume t e).modEvent e fun ev =>
        { ev with
          ulMaxCounter := ((k₁.eventPrioTryResume t e).tcb u).ucPriority
          pvTcbOwn := some u }) :=
      hresume.trans (KernState.sameWait_modEvent rfl rfl)
    have hwakes := (hl.wakes hto).trans hsame
    have hcall := hb.call_mutex hty hw
    refine ⟨?_, ?_⟩
    · have hstep := Mutex.Step.pass (m := s.mutexOf e) t u ho hp hw
      refine Eq.mp (congrArg Mutex.Ok (Mutex.ext ?_ ?_ ?_ ?_ ?_)) (hm.lock.step hstep)
      · simp [SemSystem.mutexOf, SemSystem.posted]
      · simp [SemSystem.mutexOf, SemSystem.posted, hevent, hptr]
      · ext v
        simp [SemSystem.mutexOf, SemSystem.posted, hwakes.waits]
      · ext v
        have hg := grants_wakes (u := v) (e := e) (p := .m) (s.posted t e .m (_, .none)) hwakes (fun v hv => ⟨e, _, hv ▸ hw⟩) rfl rfl
        refine (Mutex.oneMore_apply _ u v).trans (Eq.trans ?_ hg.symm)
        by_cases hv : v = u
        · subst hv
          simp [hcall, SemSystem.mutexOf]
        · simp [hv, SemSystem.mutexOf]
      · exact released_count.symm
    · simp only [SemSystem.posted, KernState.modEvent_self, hevent, hcnt]
      rw [hcounter, ho]
      simp
  · refine ⟨?_, by simp [SemSystem.posted]⟩
    have hstep := Mutex.Step.free (m := s.mutexOf e) t ho hp ?_
    · refine Eq.mp (congrArg Mutex.Ok (Mutex.ext ?_ ?_ ?_ ?_ ?_)) (hm.lock.step hstep)
      · simp [SemSystem.mutexOf, SemSystem.posted]
      · simp [SemSystem.mutexOf, SemSystem.posted]
      · rfl
      · rfl
      · exact released_count.symm
    · rw [hb.event.waitNum_eq_zero] at hn
      exact Set.eq_empty_of_forall_notMem hn

theorem MutexOk.tick (hb : s.Base) (hm : MutexOk s e)
    (hw : s.kern.Waits t e q) : MutexOk { s with kern := s.kern.threadTick t } e := by
  have hl := KernState.threadTick_leaves hw (hb.event.exist t) (by rw [hb.event.sem, hw.1]; rfl)
  obtain ⟨hown, hcnt, hptr, -⟩ := hl.1.core
  refine ⟨?_, ?_⟩
  · have hstep := Mutex.Step.leave (m := s.mutexOf e) t
    refine Eq.mp (congrArg Mutex.Ok (Mutex.ext ?_ ?_ ?_ ?_ ?_)) (hm.lock.step hstep)
    · exact hown.symm
    · exact hptr.symm
    · ext u
      simp [SemSystem.mutexOf, hl.1.waits]
    · ext u
      have hg := grants_wakes (u := u) (e := e) (p := .m)
        { s with kern := s.kern.threadTick t } (hl.1.wakes hl.2) (fun v hv => ⟨e, _, hv ▸ hw⟩) rfl rfl
      rw [if_neg (by simp)] at hg
      exact hg.symm
    · rfl
  · change ((s.kern.threadTick t).event e).ulCounter =
      if ((s.kern.threadTick t).event e).pvTcbOwn = none then 1 else 0
    rw [hcnt, hown]
    exact hm.counter

theorem MutexOk.step (hT : Fintype.card T < 2 ^ 16) (hb : s.Base) (hm : MutexOk s e)
    (hty : (s.kern.event e).ucType = .mutex) (hok : RecursionOk w s a)
    (hs : SemSystem.step w s a = some s') : MutexOk s' e := by
  by_cases htouch : s.Touches e a
  · cases a with
    | pend p t d ulTimeout =>
      obtain ⟨rfl, hp⟩ := htouch
      rw [hty] at hp
      simp only [SemSystem.step, Option.ite_none_right_eq_some, Option.map_eq_some_iff] at hs
      obtain ⟨ht, ⟨k', r⟩, h, rfl⟩ := hs
      cases p with
      | m => exact hm.pended hb ht hok h
      | r => simp [Pend.type] at hp
      | w => simp [Pend.type] at hp
    | mPost t d =>
      obtain ⟨rfl, -⟩ := htouch
      simp only [SemSystem.step, Option.ite_none_right_eq_some, Option.map_eq_some_iff] at hs
      obtain ⟨-, ⟨k', err⟩, h, rfl⟩ := hs
      exact hm.posted hb h
    | rwPost t d =>
      obtain ⟨rfl, hp⟩ := htouch
      rw [hty] at hp
      simp at hp
    | ret t => exact htouch.elim
    | tick t =>
      obtain ⟨q, hw⟩ := htouch
      simp only [SemSystem.step, Option.ite_none_right_eq_some, Option.some.injEq] at hs
      obtain ⟨-, rfl⟩ := hs
      exact hm.tick hb hw
  · exact hm.same ((hb.step hT hs).same e htouch)

omit [Fintype T] in
theorem Init.mutexOk (h : Init s) (hty : (s.kern.event e).ucType = .mutex) : MutexOk s e where
  lock := by
    constructor
    · intro t
      have hcall := (h.ready t).2.2
      simp [SemSystem.mutexOf, grants, granted, h.pends, h.posts, hcall, h.free]
    · intro _
      have hwait (t : T) := (h.ready t).2.1
      simp [SemSystem.mutexOf, h.free, KernState.Waits, hwait]
  counter := by
    rw [(h.mutex e hty).1, (h.free e).1]
    rfl

/-- What a mutex is for. A pend that is about to return counts as a successful one, and
`EVENT_pvPtr` counts the holds of the owner beyond the first. -/
structure MutexSafe (w : ℕ) (s : SemSystem T E) (e : E) : Prop where
  exclusive : ∀ t u, s.posts t e .m < s.grants t e .m → s.posts u e .m < s.grants u e .m → t = u
  owner : ∀ t, s.posts t e .m < s.grants t e .m ↔ (s.kern.event e).pvTcbOwn = some t
  counter : (s.kern.event e).ulCounter = 0 ↔ (s.kern.event e).pvTcbOwn ≠ none
  recursion : ∀ t, (s.kern.event e).pvTcbOwn = some t →
    s.grants t e .m = s.posts t e .m + ((s.kern.event e).pvPtr + 1)
  notOwner : ∀ t, s.canCall t → (s.kern.event e).pvTcbOwn ≠ some t →
    s.kern.semaphoreMPost t e = some (s.kern, .eventNotOwn) ∧ step w s (.mPost t e) = some s
  idle : (s.kern.event e).pvTcbOwn = none →
    ∀ q, s.kern.eventWaitNum e q = 0 ∧ ∀ i, s.kern.ring e q i = []
  total : ∀ t, s.canCall t → (step w s (.mPost t e)).isSome ∧
    ∀ ulTimeout, (step w s (.pend .m t e ulTimeout)).isSome

omit [DecidableEq T] in
theorem Base.ring_nil (hb : s.Base) (hn : ∀ t, ¬ s.kern.Waits t e q) (i : Fin 8) :
    s.kern.ring e q i = [] := by
  rw [List.eq_nil_iff_forall_not_mem]
  intro t ht
  exact hn t ((hb.event.mem e q i t).mp ht).1

theorem MutexOk.safe (hb : s.Base) (hm : MutexOk s e) (hty : (s.kern.event e).ucType = .mutex) :
    MutexSafe w s e where
  exclusive t u ht hu := hm.lock.exclusive ht hu
  owner t := hm.lock.holds_iff
  counter := by
    rw [hm.counter]
    split_ifs with ho <;> simp [ho]
  recursion t ht := by
    have hbal := hm.lock.balance t
    rw [if_pos (show (s.mutexOf e).owner = some t from ht)] at hbal
    exact hbal
  notOwner t ht ho := by
    have hpost : s.kern.semaphoreMPost t e = some (s.kern, .eventNotOwn) := by
      simp [KernState.semaphoreMPost, hty, ho]
    refine ⟨hpost, ?_⟩
    simp [SemSystem.step, ht, hpost, SemSystem.posted]
  idle ho := by
    have hidle := (hm.lock.idle ho).2
    have hnone (q : Fin 2) (t : T) : ¬ s.kern.Waits t e q := by
      intro hw
      obtain ⟨-, rfl⟩ := hb.call_mutex hty hw
      have : t ∈ (s.mutexOf e).waiting := hw
      rw [hidle] at this
      exact this
    exact fun q => ⟨hb.event.waitNum_eq_zero.mpr (hnone q), hb.ring_nil (hnone q)⟩
  total t ht := by
    have hpost := hb.event.semaphoreMPost_isSome t e
    refine ⟨by simp [SemSystem.step, ht, hpost], fun ulTimeout => ?_⟩
    have hpend := KernState.semaphoreMPend_isSome (k := s.kern) (e := e) w t ulTimeout (by
      intro hc ho
      rw [hm.counter, if_pos ho] at hc
      simp at hc)
    simp [SemSystem.step, ht, KernState.pend, hpend]

/-- In every run in which no owner takes a mutex more often than can be counted, the mutex is
safe. -/
theorem semaphoreM_safe (hT : Fintype.card T < 2 ^ 16)
    (h : Reach (SemSystem.step w) (RecursionOk w) Init s) (hty : (s.kern.event e).ucType = .mutex) :
    MutexSafe w s e := by
  have hinv : s.Base ∧ ∀ e, (s.kern.event e).ucType = .mutex → MutexOk s e := by
    apply h.invariant (fun _ hi => ⟨Init.base hi, fun _ => Init.mutexOk hi⟩)
    intro s a s' hi hok hs
    have hgood := hi.1.step hT hs
    refine ⟨hgood.base, fun e he => ?_⟩
    rw [hgood.type] at he
    exact (hi.2 e he).step hT hi.1 he hok hs
  exact (hinv.2 e hty).safe hinv.1 hty

def plainOption : EventOption := ⟨true, false, false, false, false⟩

/-- Two threads and a mutex. -/
def twoThreads : SemSystem (Fin 2) Unit := fresh (fun _ => 100) .mutex plainOption

/-- The second thread waits for the mutex, and is handed it. -/
theorem semaphoreM_safe_twoThreads : ∃ s,
    runs (SemSystem.step 64) twoThreads [.pend .m 0 () 5, .pend .m 1 () 5, .mPost 0 ()] = some s ∧
      (s.kern.event ()).pvTcbOwn = some 1 ∧ MutexSafe 64 s () := by
  have h₀ : Reach (SemSystem.step 64) (RecursionOk 64) Init twoThreads :=
    .start (fresh_init _ _ _)
  have h₁ := h₀.extend (.pend .m 0 () 5) (fun h => by cases h) rfl
  have h₂ := h₁.extend (.pend .m 1 () 5) (fun h => by cases h) rfl
  have h₃ := h₂.extend (.mPost 0 ()) trivial rfl
  exact ⟨_, rfl, rfl, semaphoreM_safe (by decide) h₃ rfl⟩

/-- A thread that has taken a mutex `n + 1` times. -/
def deep (n : ℕ) : SemSystem Unit Unit :=
  let s : SemSystem Unit Unit := fresh (fun _ => 100) .mutex plainOption
  { s with
    kern := s.kern.modEvent () fun ev =>
      { ev with
        pvTcbOwn := some ()
        ulCounter := 0
        ulMaxCounter := 100
        pvPtr := ulong 64 n }
    pends := fun _ _ p => if p = .m then n + 1 else 0 }

theorem deep_reach (n : ℕ) : Reach (SemSystem.step 64) (fun _ _ => True) Init (deep n) := by
  induction n with
  | zero =>
    have hstart : Reach (SemSystem.step 64) (fun _ _ => True) Init
        (fresh (fun _ => 100) .mutex plainOption : SemSystem Unit Unit) :=
      .start (fresh_init _ _ _)
    refine hstart.extend (.pend .m () () 0) trivial ?_
    simp only [SemSystem.step, canCall, KernState.threadIsReady, KernState.pend,
      KernState.semaphoreMPend, deep, fresh]
    refine congrArg some (SemSystem.ext rfl rfl ?_ rfl)
    ext t e p
    simp [SemSystem.pended, count]
  | succ n ih =>
    refine ih.extend (.pend .m () () 0) trivial ?_
    simp only [SemSystem.step, canCall, KernState.threadIsReady, KernState.pend,
      KernState.semaphoreMPend, deep, fresh]
    refine congrArg some (SemSystem.ext ?_ rfl ?_ rfl)
    · simp [SemSystem.pended, KernState.modEvent, ulong, plainOption]
    · ext t e p
      by_cases hp : p = .m
      · simp [SemSystem.pended, count, hp]
      · simp [SemSystem.pended, count, hp]

/-- After `2 ^ 64 + 1` pends the mutex records a single hold. -/
theorem semaphoreM_unsafe : ¬ ∀ s : SemSystem Unit Unit,
    Reach (SemSystem.step 64) (fun _ _ => True) Init s → (s.kern.event ()).ucType = .mutex →
      MutexSafe 64 s () := by
  intro h
  have hrec := (h _ (deep_reach (2 ^ 64)) rfl).recursion () rfl
  have hptr : ((deep (2 ^ 64)).kern.event ()).pvPtr = 0 := by
    simp [deep, ulong]
  rw [hptr] at hrec
  simp [grants, granted, deep, fresh] at hrec

end SylixOS.Kernel.SemSystem
