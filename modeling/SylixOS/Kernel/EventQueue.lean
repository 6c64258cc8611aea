import SylixOS.Kernel.Event

/-! # The wait queues hold the waiting threads

A thread's control block says for which event and in which of its queues and rings it waits. The
queues of the events agree with it at all times: a thread stands once in the ring that its control
block names and in no other, and a queue's number counts its threads.
-/

namespace SylixOS.Kernel.KernState
open Function

variable {T E : Type} [DecidableEq T] [DecidableEq E]

section Update
variable (k : KernState T E) (t : T) (e : E) (f : Tcb E → Tcb E) (g : Event T → Event T)

omit [DecidableEq E] in
@[simp] theorem modTcb_event : (k.modTcb t f).event = k.event := rfl

omit [DecidableEq E] in
@[simp] theorem modTcb_self : (k.modTcb t f).tcb t = f (k.tcb t) := update_self _ _ _

omit [DecidableEq E] in
theorem modTcb_of_ne {u : T} (h : u ≠ t) : (k.modTcb t f).tcb u = k.tcb u :=
  update_of_ne h _ _

omit [DecidableEq T] in
@[simp] theorem modEvent_tcb : (k.modEvent e g).tcb = k.tcb := rfl

omit [DecidableEq T] in
@[simp] theorem modEvent_self : (k.modEvent e g).event e = g (k.event e) :=
  update_self _ _ _

omit [DecidableEq T] in
theorem modEvent_of_ne {d : E} (h : d ≠ e) : (k.modEvent e g).event d = k.event d :=
  update_of_ne h _ _

omit [DecidableEq E] in
/-- Changes of two threads, or of different parts of one, can be made in either order. -/
theorem modTcb_comm {u : T} {f' : Tcb E → Tcb E} (h : ∀ c, f' (f c) = f (f' c)) :
    (k.modTcb t f).modTcb u f' = (k.modTcb u f').modTcb t f := by
  by_cases hu : u = t
  · subst hu
    simp [modTcb, h]
  · simp [modTcb, update_of_ne hu, update_of_ne (Ne.symm hu),
      update_comm hu]

end Update

/-- The thread waits in this queue of the event. -/
def Waits (k : KernState T E) (t : T) (e : E) (q : Fin 2) : Prop :=
  (k.tcb t).peventPtr = some e ∧ (k.tcb t).iPendQ = q

instance (k : KernState T E) (t : T) (e : E) (q : Fin 2) : Decidable (k.Waits t e q) :=
  inferInstanceAs (Decidable (_ ∧ _))

/-- The ring in which the thread stands when it waits for the event. -/
def ringOf (k : KernState T E) (t : T) (e : E) : Fin 8 :=
  if (k.event e).ulOption.waitPriority then (k.tcb t).ppringPriorityQueue else 0

/-- A ring of an event. -/
def ring (k : KernState T E) (e : E) (q : Fin 2) (i : Fin 8) : List T :=
  ((k.event e).wqWaitQ q).wlQ i

/-- The queues agree with the threads' control blocks. -/
structure EventOk [Fintype T] (k : KernState T E) : Prop where
  nodup : ∀ e q i, (k.ring e q i).Nodup
  mem : ∀ e q i t, t ∈ k.ring e q i ↔ k.Waits t e q ∧ k.ringOf t e = i
  num : ∀ e q, k.eventWaitNum e q = (Finset.univ.filter fun t => k.Waits t e q).card
  sem : ∀ t, (k.tcb t).statusSem = (k.tcb t).peventPtr.isSome
  delay : ∀ t, (k.tcb t).statusDelay = true → (k.tcb t).statusSem = true
  clear : ∀ t, (k.tcb t).statusSem = true → (k.tcb t).ucWaitTimeout = false
  exist : ∀ t, (k.tcb t).ucIsEventDelete = false

/-- Nothing has changed but priorities and what an event keeps beside its queues. -/
structure SameWait (k k' : KernState T E) : Prop where
  tcb : ∀ t, ∃ p, k'.tcb t = { k.tcb t with ucPriority := p }
  queue : ∀ e, (k'.event e).wqWaitQ = (k.event e).wqWaitQ
  option : ∀ e, (k'.event e).ulOption = (k.event e).ulOption

/-- A ring of a queue has changed, and the number with it. -/
structure QueueStep (k k' : KernState T E) (t : T) (e : E) (q : Fin 2) (i : Fin 8) : Prop where
  tcb_ne : ∀ u, u ≠ t → k'.tcb u = k.tcb u
  prio : (k'.tcb t).ucPriority = (k.tcb t).ucPriority
  deleteProc : (k'.tcb t).iDeleteProcStatus = (k.tcb t).iDeleteProcStatus
  exist : (k'.tcb t).ucIsEventDelete = false
  event_ne : ∀ d, d ≠ e → k'.event d = k.event d
  event : k'.event e = { k.event e with wqWaitQ := (k'.event e).wqWaitQ }
  ring_ne : ∀ p j, ¬ (p = q ∧ j = i) → k'.ring e p j = k.ring e p j
  num_ne : ∀ p, p ≠ q → k'.eventWaitNum e p = k.eventWaitNum e p

/-- A thread has begun to wait. -/
structure Parks (k k' : KernState T E) (t : T) (e : E) (q : Fin 2) : Prop
    extends QueueStep k k' t e q (k'.ringOf t e) where
  wait : k'.Waits t e q
  status : (k'.tcb t).statusSem = true
  clear : (k'.tcb t).ucWaitTimeout = false
  ring : (k'.ring e q (k'.ringOf t e)).Perm (t :: k.ring e q (k'.ringOf t e))
  num : k'.eventWaitNum e q = ushort (k.eventWaitNum e q + 1)

/-- A thread has left the queue in which it waited. -/
structure Leaves (k k' : KernState T E) (t : T) (e : E) (q : Fin 2) : Prop
    extends QueueStep k k' t e q (k.ringOf t e) where
  wait : (k'.tcb t).peventPtr = none
  status : (k'.tcb t).statusSem = false ∧ (k'.tcb t).statusDelay = false
  ring : k'.ring e q (k.ringOf t e) = (k.ring e q (k.ringOf t e)).erase t
  num : k'.eventWaitNum e q = ushort (k.eventWaitNum e q + (2 ^ 16 - 1))

variable {k k' : KernState T E} {t u : T} {e d : E} {q p : Fin 2} {i : Fin 8}

section Waits

omit [DecidableEq T] [DecidableEq E]

theorem SameWait.waits (h : SameWait k k') : k'.Waits t e q ↔ k.Waits t e q := by
  obtain ⟨p, hp⟩ := h.tcb t
  simp [Waits, hp]

theorem SameWait.ringOf (h : SameWait k k') : k'.ringOf t e = k.ringOf t e := by
  obtain ⟨p, hp⟩ := h.tcb t
  simp [KernState.ringOf, hp, h.option]

theorem QueueStep.option (h : QueueStep k k' t e q i) (d : E) :
    (k'.event d).ulOption = (k.event d).ulOption := by
  classical
  by_cases hd : d = e
  · rw [hd, h.event]
  · rw [h.event_ne d hd]

/-- What an event keeps beside its queues is as before. -/
theorem QueueStep.core (h : QueueStep k k' t e q i) :
    (k'.event e).pvTcbOwn = (k.event e).pvTcbOwn ∧ (k'.event e).ulCounter = (k.event e).ulCounter ∧
      (k'.event e).pvPtr = (k.event e).pvPtr ∧ (k'.event e).iStatus = (k.event e).iStatus := by
  rw [h.event]
  exact ⟨rfl, rfl, rfl, rfl⟩

/-- What holds of every thread before and of this one afterwards holds of every one. -/
theorem QueueStep.all_tcb (h : QueueStep k k' t e q i) {P : Tcb E → Prop} (ht : P (k'.tcb t))
    (hk : ∀ u, P (k.tcb u)) (u : T) : P (k'.tcb u) := by
  classical
  by_cases hu : u = t
  · rw [hu]
    exact ht
  · rw [h.tcb_ne u hu]
    exact hk u

theorem QueueStep.waits_ne (h : QueueStep k k' t e q i) (hu : u ≠ t) :
    k'.Waits u d p ↔ k.Waits u d p := by
  rw [Waits, Waits, h.tcb_ne u hu]

theorem QueueStep.ringOf_ne (h : QueueStep k k' t e q i) (hu : u ≠ t) :
    k'.ringOf u d = k.ringOf u d := by
  rw [ringOf, ringOf, h.tcb_ne u hu, h.option]

theorem Parks.waits (h : Parks k k' t e q) (hk : (k.tcb t).peventPtr = none) :
    k'.Waits u d p ↔ k.Waits u d p ∨ u = t ∧ d = e ∧ p = q := by
  classical
  by_cases hu : u = t
  · subst hu
    have h₁ := h.wait.1
    have h₂ := h.wait.2
    simp only [Waits, h₁, h₂, hk, Option.some.injEq]
    tauto
  · rw [h.waits_ne hu]
    simp [hu]

end Waits

omit [DecidableEq E] in
theorem Leaves.waits (h : Leaves k k' t e q) : k'.Waits u d p ↔ k.Waits u d p ∧ u ≠ t := by
  by_cases hu : u = t
  · subst hu
    simp [Waits, h.wait]
  · rw [h.waits_ne hu]
    simp [hu]

section Step
variable [Fintype T]

omit [DecidableEq T] in
theorem EventOk.sameWait (h : EventOk k) (hs : SameWait k k') : EventOk k' := by
  have htcb (t : T) := hs.tcb t
  have hring (e : E) (q : Fin 2) (i : Fin 8) : k'.ring e q i = k.ring e q i := by
    rw [ring, ring, hs.queue]
  constructor
  · intro e q i
    rw [hring]
    exact h.nodup e q i
  · intro e q i t
    rw [hring, hs.waits, hs.ringOf]
    exact h.mem e q i t
  · intro e q
    rw [eventWaitNum, hs.queue]
    simp only [hs.waits]
    exact h.num e q
  all_goals
    intro t
    obtain ⟨p, hp⟩ := htcb t
    rw [hp]
  · exact h.sem t
  · exact h.delay t
  · exact h.clear t
  · exact h.exist t

omit [DecidableEq T] in
/-- While no thread waits, empty queues agree with the control blocks. -/
theorem EventOk.of_unused (ready : ∀ t, k.threadIsReady t ∧ (k.tcb t).peventPtr = none)
    (exist : ∀ t, (k.tcb t).ucIsEventDelete = false)
    (queue : ∀ e q, (k.event e).wqWaitQ q = ⟨fun _ => [], 0⟩) : EventOk k := by
  have hwait (t : T) := (ready t).2
  constructor
  · intro e q i
    simp [KernState.ring, queue]
  · intro e q i t
    simp [KernState.ring, queue, Waits, hwait]
  · intro e q
    simp [eventWaitNum, queue, Waits, hwait]
  · intro t
    rw [(ready t).1.1, hwait]
    rfl
  · intro t ht
    rw [(ready t).1.2] at ht
    simp at ht
  · intro t ht
    rw [(ready t).1.1] at ht
    simp at ht
  · exact exist

omit [DecidableEq T] in
theorem EventOk.waitNum_eq_zero (h : EventOk k) :
    k.eventWaitNum e q = 0 ↔ ∀ t, ¬ k.Waits t e q := by
  rw [h.num, Finset.card_eq_zero, Finset.filter_eq_empty_iff]
  simp

omit [DecidableEq T] in
theorem EventOk.waitNum_eq_one (h : EventOk k) (hw : k.Waits t e q)
    (hall : ∀ u, k.Waits u e q → u = t) : k.eventWaitNum e q = 1 := by
  rw [h.num, Finset.card_eq_one]
  refine ⟨t, ?_⟩
  ext u
  simp only [Finset.mem_filter, Finset.mem_univ, true_and, Finset.mem_singleton]
  exact ⟨hall u, fun hu => hu ▸ hw⟩

omit [DecidableEq T] in
theorem EventOk.not_waits (h : EventOk k) (ht : (k.tcb t).statusSem = false) :
    (k.tcb t).peventPtr = none := by
  have hsem := h.sem t
  rw [ht] at hsem
  simpa using hsem.symm

theorem EventOk.parks (hT : Fintype.card T < 2 ^ 16) (h : EventOk k)
    (hk : (k.tcb t).peventPtr = none) (hp : Parks k k' t e q) : EventOk k' := by
  have hwaits {u : T} {d : E} {p : Fin 2} := hp.waits (u := u) (d := d) (p := p) hk
  have hnot {d : E} {p : Fin 2} : ¬ k.Waits t d p := by simp [Waits, hk]
  have hcount : (Finset.univ.filter fun u => k'.Waits u e q) =
      insert t (Finset.univ.filter fun u => k.Waits u e q) := by
    ext u
    simp only [Finset.mem_filter, Finset.mem_univ, true_and, Finset.mem_insert, hwaits]
    tauto
  constructor
  · intro d p j
    by_cases hd : d = e
    · subst hd
      by_cases hpj : p = q ∧ j = k'.ringOf t d
      · rw [hpj.1, hpj.2, hp.ring.nodup_iff, List.nodup_cons, h.mem]
        exact ⟨fun hm => hnot hm.1, h.nodup _ _ _⟩
      · rw [hp.ring_ne p j hpj]
        exact h.nodup _ _ _
    · rw [KernState.ring, hp.event_ne d hd]
      exact h.nodup _ _ _
  · intro d p j u
    have hmem : u ∈ k'.ring d p j ↔
        u ∈ k.ring d p j ∨ u = t ∧ d = e ∧ p = q ∧ j = k'.ringOf t e := by
      by_cases hd : d = e
      · subst hd
        by_cases hpj : p = q ∧ j = k'.ringOf t d
        · rw [hpj.1, hpj.2, hp.ring.mem_iff, List.mem_cons]
          tauto
        · rw [hp.ring_ne p j hpj]
          tauto
      · rw [KernState.ring, hp.event_ne d hd]
        simp [hd, KernState.ring]
    rw [hmem, h.mem, hwaits]
    by_cases hu : u = t
    · subst hu
      have := hnot (d := d) (p := p)
      constructor
      · rintro (hm | ⟨-, rfl, rfl, rfl⟩)
        · exact absurd hm.1 this
        · exact ⟨.inr ⟨rfl, rfl, rfl⟩, rfl⟩
      · rintro ⟨hm | ⟨-, rfl, rfl⟩, hr⟩
        · exact absurd hm this
        · exact .inr ⟨rfl, rfl, rfl, hr.symm⟩
    · rw [hp.ringOf_ne hu]
      simp [hu]
  · intro d p
    by_cases hd : d = e ∧ p = q
    · rw [hd.1, hd.2, hp.num, hcount, Finset.card_insert_of_notMem (by simpa using hnot),
        ← h.num, ushort, Nat.mod_eq_of_lt]
      have hlt := Finset.card_le_univ (insert t (Finset.univ.filter fun u => k.Waits u e q))
      rw [Finset.card_insert_of_notMem (by simpa using hnot), ← h.num] at hlt
      omega
    · have hsame : (Finset.univ.filter fun u => k'.Waits u d p) =
          Finset.univ.filter fun u => k.Waits u d p := by
        ext u
        simp only [Finset.mem_filter, Finset.mem_univ, true_and, hwaits]
        tauto
      rw [hsame, ← h.num]
      by_cases he : d = e
      · subst he
        exact hp.num_ne p fun hq => hd ⟨rfl, hq⟩
      · rw [eventWaitNum, hp.event_ne d he, eventWaitNum]
  · refine hp.all_tcb (P := fun c => c.statusSem = c.peventPtr.isSome) ?_ h.sem
    rw [hp.status, hp.wait.1]
    rfl
  · exact hp.all_tcb (P := fun c => c.statusDelay = true → c.statusSem = true)
      (fun _ => hp.status) h.delay
  · exact hp.all_tcb (P := fun c => c.statusSem = true → c.ucWaitTimeout = false)
      (fun _ => hp.clear) h.clear
  · exact hp.all_tcb (P := fun c => c.ucIsEventDelete = false) hp.exist h.exist

theorem EventOk.leaves (hT : Fintype.card T < 2 ^ 16) (h : EventOk k) (hw : k.Waits t e q)
    (hl : Leaves k k' t e q) : EventOk k' := by
  have hcount : (Finset.univ.filter fun u => k'.Waits u e q) =
      (Finset.univ.filter fun u => k.Waits u e q).erase t := by
    ext u
    simp only [Finset.mem_filter, Finset.mem_univ, true_and, Finset.mem_erase, hl.waits]
    tauto
  have honly {d : E} {p : Fin 2} (hd : k.Waits t d p) : d = e ∧ p = q := by
    have h₁ := hd.1.symm.trans hw.1
    exact ⟨by simpa using h₁, hd.2.symm.trans hw.2⟩
  constructor
  · intro d p j
    by_cases hd : d = e
    · subst hd
      by_cases hpj : p = q ∧ j = k.ringOf t d
      · rw [hpj.1, hpj.2, hl.ring]
        exact (h.nodup _ _ _).erase t
      · rw [hl.ring_ne p j hpj]
        exact h.nodup _ _ _
    · rw [KernState.ring, hl.event_ne d hd]
      exact h.nodup _ _ _
  · intro d p j u
    have hmem : u ∈ k'.ring d p j ↔ u ∈ k.ring d p j ∧ u ≠ t := by
      by_cases hd : d = e
      · subst hd
        by_cases hpj : p = q ∧ j = k.ringOf t d
        · rw [hpj.1, hpj.2, hl.ring, (h.nodup _ _ _).mem_erase_iff, and_comm]
        · rw [hl.ring_ne p j hpj]
          constructor
          · intro hu
            refine ⟨hu, ?_⟩
            rintro rfl
            rw [h.mem] at hu
            exact hpj ⟨(honly hu.1).2, hu.2.symm⟩
          · exact fun hu => hu.1
      · rw [KernState.ring, hl.event_ne d hd]
        constructor
        · intro hu
          refine ⟨hu, ?_⟩
          rintro rfl
          exact hd (honly ((h.mem d p j u).mp hu).1).1
        · exact fun hu => hu.1
    rw [hmem, h.mem, hl.waits]
    by_cases hu : u = t
    · simp [hu]
    · rw [hl.ringOf_ne hu]
      tauto
  · intro d p
    by_cases hd : d = e ∧ p = q
    · have hmem : t ∈ Finset.univ.filter fun u => k.Waits u e q := by simpa using hw
      have hpos := Finset.card_pos.mpr ⟨t, hmem⟩
      have hlt := Finset.card_le_univ (Finset.univ.filter fun u => k.Waits u e q)
      rw [hd.1, hd.2, hl.num, hcount, Finset.card_erase_of_mem hmem, h.num, ushort]
      omega
    · have hsame : (Finset.univ.filter fun u => k'.Waits u d p) =
          Finset.univ.filter fun u => k.Waits u d p := by
        ext u
        simp only [Finset.mem_filter, Finset.mem_univ, true_and, hl.waits]
        constructor
        · exact fun hu => hu.1
        · intro hu
          refine ⟨hu, ?_⟩
          rintro rfl
          exact hd (honly hu)
      rw [hsame, ← h.num]
      by_cases he : d = e
      · subst he
        exact hl.num_ne p fun hq => hd ⟨rfl, hq⟩
      · rw [eventWaitNum, hl.event_ne d he, eventWaitNum]
  · refine hl.all_tcb (P := fun c => c.statusSem = c.peventPtr.isSome) ?_ h.sem
    rw [hl.status.1, hl.wait]
    rfl
  · refine hl.all_tcb (P := fun c => c.statusDelay = true → c.statusSem = true) ?_ h.delay
    simp [hl.status.2]
  · refine hl.all_tcb (P := fun c => c.statusSem = true → c.ucWaitTimeout = false) ?_ h.clear
    simp [hl.status.1]
  · exact hl.all_tcb (P := fun c => c.ucIsEventDelete = false) hl.exist h.exist

end Step

/-! ## What the queue functions do -/

section Functions
variable {f : List T → List T} {g : ℕ → ℕ} {F : Tcb E → Tcb E}

omit [DecidableEq E] in
theorem modTcb_modTcb {F' : Tcb E → Tcb E} :
    (k.modTcb t F).modTcb t F' = k.modTcb t fun c => F' (F c) := by
  simp [modTcb]

omit [DecidableEq E] in
theorem modTcb_ring : (k.modTcb t F).ring e p i = k.ring e p i := rfl

omit [DecidableEq E] in
theorem modTcb_waitNum : (k.modTcb t F).eventWaitNum e p = k.eventWaitNum e p := rfl

omit [DecidableEq E] in
theorem modTcb_congr {F' : Tcb E → Tcb E} (h : F (k.tcb t) = F' (k.tcb t)) :
    k.modTcb t F = k.modTcb t F' := by
  rw [modTcb, h, modTcb]

theorem modQueue_modTcb : (k.modTcb t F).modQueue e q i f g =
    (k.modQueue e q i f g).modTcb t F := rfl

omit [DecidableEq T] in
theorem modQueue_ring (p : Fin 2) (j : Fin 8) :
    (k.modQueue e q i f g).ring e p j =
      if p = q ∧ j = i then f (k.ring e q i) else k.ring e p j := by
  by_cases hp : p = q
  · subst hp
    by_cases hj : j = i
    · subst hj
      simp [modQueue, ring]
    · simp [modQueue, ring, hj]
  · simp [modQueue, ring, hp]

omit [DecidableEq T] in
theorem modQueue_waitNum (p : Fin 2) :
    (k.modQueue e q i f g).eventWaitNum e p =
      if p = q then g (k.eventWaitNum e q) else k.eventWaitNum e p := by
  by_cases hp : p = q
  · subst hp
    simp [modQueue, eventWaitNum]
  · simp [modQueue, eventWaitNum, hp]

theorem QueueStep.of_modQueue (hprio : (F (k.tcb t)).ucPriority = (k.tcb t).ucPriority)
    (hdel : (F (k.tcb t)).iDeleteProcStatus = (k.tcb t).iDeleteProcStatus)
    (hexist : (F (k.tcb t)).ucIsEventDelete = false) :
    QueueStep k ((k.modQueue e q i f g).modTcb t F) t e q i where
  tcb_ne u hu := modTcb_of_ne _ _ _ hu
  prio := by
    rw [modTcb_self]
    exact hprio
  deleteProc := by
    rw [modTcb_self]
    exact hdel
  exist := by
    rw [modTcb_self]
    exact hexist
  event_ne d hd := update_of_ne hd _ _
  event := by simp [modQueue]
  ring_ne p j hpj := (modQueue_ring p j).trans (if_neg hpj)
  num_ne p hp := (modQueue_waitNum p).trans (if_neg hp)

omit [DecidableEq T] in
theorem ringAddPriority_perm {prio : T → Prio} (ring : List T) :
    (ringAddPriority prio t ring).Perm (t :: ring) := by
  induction ring with
  | nil => exact List.Perm.refl _
  | cons u us ih =>
    rw [ringAddPriority]
    split_ifs
    · exact List.Perm.refl _
    · exact (ih.cons u).trans (List.Perm.swap t u us)

/-- What a thread's control block is when it begins to wait. -/
def waitTcb (w : ℕ) (e : E) (q : Fin 2) (i : Fin 8) (ulTimeout : ℕ) (c : Tcb E) : Tcb E :=
  let ulDelay := if ulTimeout = optionWaitInfinite w then 0 else ulTimeout
  { c with
    iPendQ := q
    statusSem := true
    statusDelay := if ulDelay ≠ 0 then true else c.statusDelay
    ucWaitTimeout := false
    ucIsEventDelete := false
    ulDelay
    peventPtr := some e
    ppringPriorityQueue := i }

omit [DecidableEq E] in
/-- A change that leaves the priority of a thread leaves the order of priorities. -/
theorem modTcb_prio (hF : ∀ c, (F c).ucPriority = c.ucPriority) :
    (fun u => ((k.modTcb t F).tcb u).ucPriority) = fun u => (k.tcb u).ucPriority := by
  ext u
  by_cases hu : u = t
  · subst hu
    rw [modTcb_self, hF]
  · rw [modTcb_of_ne _ _ _ hu]

theorem addTcbToEventPriority_modTcb (hF : ∀ c, (F c).ucPriority = c.ucPriority)
    (hq : (F (k.tcb t)).iPendQ = q) : (k.modTcb t F).addTcbToEventPriority t e i =
      (k.modTcb t F).modQueue e q i (ringAddPriority (fun u => (k.tcb u).ucPriority) t)
        fun n => ushort (n + 1) := by
  rw [addTcbToEventPriority, modTcb_self, hq, modTcb_prio hF]

/-- Entering a ring changes the queue and the thread that enters it. -/
theorem eventWait_eq {add : KernState T E → KernState T E}
    (hadd : add (k.modTcb t fun c => { c with peventPtr := some e }) =
      (k.modTcb t fun c => { c with peventPtr := some e }).modQueue e q i f g) :
    k.eventWait t e add = (k.modQueue e q i f g).modTcb t fun c =>
      { c with
        peventPtr := some e
        statusDelay := if c.ulDelay ≠ 0 then true else c.statusDelay
        ucIsEventDelete := false } := by
  unfold eventWait
  rw [hadd]
  by_cases hd : (k.tcb t).ulDelay = 0
  · simp [modQueue, modEvent, modTcb, hd]
  · simp [modQueue, modEvent, modTcb, addToWakeupLine, hd]

/-- Where the event's option asks for priorities, a thread enters the ring of its priority, behind all
threads of the ring up to the first that is less urgent. -/
theorem pendWait_priority (hw : (k.event e).ulOption.waitPriority) (w ulTimeout : ℕ) :
    k.pendWait t e w q ulTimeout =
      (k.modQueue e q (eventIndexQPriority (k.tcb t).ucPriority)
        (ringAddPriority (fun u => (k.tcb u).ucPriority) t) fun n => ushort (n + 1)).modTcb t
          (waitTcb w e q (eventIndexQPriority (k.tcb t).ucPriority) ulTimeout) := by
  simp only [pendWait, modTcb_event, hw, if_true, eventWaitPriority, modTcb_self, modTcb_modTcb]
  rw [eventWait_eq (q := q) (g := fun n => ushort (n + 1))
    (i := eventIndexQPriority (k.tcb t).ucPriority)
    (f := ringAddPriority (fun u => (k.tcb u).ucPriority) t)]
  · rw [modQueue_modTcb, modTcb_modTcb]
    rfl
  · rw [modTcb_modTcb]
    exact addTcbToEventPriority_modTcb (fun _ => rfl) rfl

/-- A thread that begins to wait enters a ring of the queue, at a place that depends on the
event's option. -/
theorem pendWait_eq (w ulTimeout : ℕ) : ∃ i j f, (∀ ring, (f ring).Perm (t :: ring)) ∧
    (i = if (k.event e).ulOption.waitPriority then j else 0) ∧
    k.pendWait t e w q ulTimeout =
      (k.modQueue e q i f fun n => ushort (n + 1)).modTcb t (waitTcb w e q j ulTimeout) := by
  by_cases hw : (k.event e).ulOption.waitPriority
  · exact ⟨eventIndexQPriority (k.tcb t).ucPriority, eventIndexQPriority (k.tcb t).ucPriority,
      ringAddPriority (fun u => (k.tcb u).ucPriority) t, ringAddPriority_perm, (if_pos hw).symm,
      pendWait_priority hw w ulTimeout⟩
  · refine ⟨0, (k.tcb t).ppringPriorityQueue, fun ring => t :: ring, fun _ => List.Perm.refl _,
      (if_neg hw).symm, ?_⟩
    simp only [pendWait, modTcb_event, hw, eventWaitFifo, Bool.false_eq_true, if_false]
    rw [eventWait_eq (q := q) (g := fun n => ushort (n + 1)) (i := 0) (f := fun ring => t :: ring)]
    · rw [modQueue_modTcb, modTcb_modTcb]
      simp [modTcb, modQueue, modEvent, waitTcb]
    · rw [modTcb_modTcb, addTcbToEventFifo, modTcb_self]

theorem pendWait_parks (w ulTimeout : ℕ) : Parks k (k.pendWait t e w q ulTimeout) t e q := by
  obtain ⟨i, j, f, hf, hi, heq⟩ := pendWait_eq (k := k) (t := t) (e := e) (q := q) w ulTimeout
  have hring : (k.pendWait t e w q ulTimeout).ringOf t e = i := by
    rw [heq, ringOf, modTcb_event, modTcb_self, hi]
    simp [modQueue, waitTcb]
  have hstep : QueueStep k (k.pendWait t e w q ulTimeout) t e q i := by
    rw [heq]
    exact QueueStep.of_modQueue rfl rfl rfl
  constructor
  · rw [hring]
    exact hstep
  · rw [heq, Waits, modTcb_self]
    exact ⟨rfl, rfl⟩
  · rw [heq, modTcb_self]
    rfl
  · rw [heq, modTcb_self]
    rfl
  · rw [hring, heq, modTcb_ring, modQueue_ring, if_pos ⟨rfl, rfl⟩]
    exact hf _
  · rw [heq, modTcb_waitNum, modQueue_waitNum, if_pos rfl]

/-- A thread is taken out of the ring in which it waits. -/
theorem Leaves.of_modQueue (hw : k.Waits t e q) (hexist : (k.tcb t).ucIsEventDelete = false)
    (hi : i = k.ringOf t e) (hevent : (F (k.tcb t)).peventPtr = none)
    (hstatus : (F (k.tcb t)).statusSem = false ∧ (F (k.tcb t)).statusDelay = false)
    (hprio : (F (k.tcb t)).ucPriority = (k.tcb t).ucPriority)
    (hdel : (F (k.tcb t)).iDeleteProcStatus = (k.tcb t).iDeleteProcStatus)
    (hF : (F (k.tcb t)).ucIsEventDelete = (k.tcb t).ucIsEventDelete) :
    Leaves k ((k.delTcbFromEvent t e i).modTcb t F) t e q := by
  subst hi
  have heq : k.delTcbFromEvent t e (k.ringOf t e) =
      k.modQueue e q (k.ringOf t e) (fun ring => ring.erase t)
        fun n => ushort (n + (2 ^ 16 - 1)) := by rw [delTcbFromEvent, hw.2]
  rw [heq]
  constructor
  · exact QueueStep.of_modQueue hprio hdel (hF.trans hexist)
  · rw [modTcb_self]
    exact hevent
  · rw [modTcb_self]
    exact hstatus
  · rw [modTcb_ring, modQueue_ring, if_pos ⟨rfl, rfl⟩]
  · rw [modTcb_waitNum, modQueue_waitNum, if_pos rfl]

theorem delTcbFromEvent_modTcb (hF : (F (k.tcb t)).iPendQ = (k.tcb t).iPendQ) :
    (k.modTcb t F).delTcbFromEvent t e i = (k.delTcbFromEvent t e i).modTcb t F := by
  rw [delTcbFromEvent, modTcb_self, hF]
  rfl

/-- A waiting thread that is made ready leaves its queue. -/
theorem ready_leaves (hw : k.Waits t e q) (hexist : (k.tcb t).ucIsEventDelete = false)
    (hclear : (k.tcb t).ucWaitTimeout = false) (hi : i = k.ringOf t e) :
    Leaves k ((k.readyLowLevel t e i).eventReadyHighLevel t) t e q ∧
      (((k.readyLowLevel t e i).eventReadyHighLevel t).tcb t).ucWaitTimeout = false := by
  have htcb : (k.delTcbFromEvent t e i).tcb = k.tcb := rfl
  have heq : (k.readyLowLevel t e i).eventReadyHighLevel t =
      (k.delTcbFromEvent t e i).modTcb t fun c =>
        { c with
          statusSem := false
          statusDelay := false
          ulDelay := if (k.tcb t).statusDelay then 0 else c.ulDelay
          peventPtr := none } := by
    by_cases hd : (k.tcb t).statusDelay
    · simp [readyLowLevel, htcb, hd, delFromWakeupLine, eventReadyHighLevel, modTcb_modTcb, hclear]
    · simp only [readyLowLevel, htcb, hd, eventReadyHighLevel, modTcb_modTcb, modTcb_self, hclear,
        Bool.false_eq_true, if_false]
      apply modTcb_congr
      simp [htcb, hd]
  rw [heq]
  constructor
  · exact Leaves.of_modQueue hw hexist hi rfl ⟨rfl, rfl⟩ rfl rfl rfl
  · rw [modTcb_self]
    exact hclear

theorem eventUnQueue_modTcb (hq : (F (k.tcb t)).iPendQ = (k.tcb t).iPendQ)
    (hi : (F (k.tcb t)).ppringPriorityQueue = (k.tcb t).ppringPriorityQueue) :
    (k.modTcb t F).eventUnQueue t e =
      (k.delTcbFromEvent t e (k.ringOf t e)).modTcb t fun c =>
        { F c with peventPtr := none } := by
  have hring : (k.modTcb t F).ringOf t e = k.ringOf t e := by
    rw [ringOf, modTcb_self, hi]
    rfl
  have hdef : (k.modTcb t F).eventUnQueue t e =
      ((k.modTcb t F).delTcbFromEvent t e ((k.modTcb t F).ringOf t e)).modTcb t fun c =>
        { c with peventPtr := none } := rfl
  rw [hdef, hring, delTcbFromEvent_modTcb hq, modTcb_modTcb]

/-- A waiting thread whose time is over leaves its queue. -/
theorem threadTick_leaves (hw : k.Waits t e q) (hexist : (k.tcb t).ucIsEventDelete = false)
    (hsem : (k.tcb t).statusSem = true) :
    Leaves k (k.threadTick t) t e q ∧ ((k.threadTick t).tcb t).ucWaitTimeout = true := by
  have heq : k.threadTick t = (k.delTcbFromEvent t e (k.ringOf t e)).modTcb t fun c =>
      { c with statusSem := false, statusDelay := false, ucWaitTimeout := true, peventPtr := none } := by
    simp only [threadTick, delFromWakeupLine, modTcb_self, hsem, if_true, modTcb_modTcb, hw.1]
    exact eventUnQueue_modTcb rfl rfl
  rw [heq]
  constructor
  · exact Leaves.of_modQueue hw hexist rfl rfl ⟨rfl, rfl⟩ rfl rfl rfl
  · rw [modTcb_self]

end Functions

/-- While a thread waits in a queue, the low-level ready function finds one. -/
theorem EventOk.eventReadyLowLevel [Fintype T] (h : EventOk k) (hn : k.eventWaitNum e q ≠ 0) :
    ∃ t, k.eventReadyLowLevel e q = some (t, k.readyLowLevel t e (k.ringOf t e)) ∧
      k.Waits t e q := by
  have hex : ∃ t, k.Waits t e q := by
    by_contra hno
    exact hn (h.waitNum_eq_zero.mpr (not_exists.mp hno))
  obtain ⟨u, hu⟩ := hex
  have hmem := (h.mem e q _ u).mpr ⟨hu, rfl⟩
  unfold KernState.eventReadyLowLevel
  by_cases hw : (k.event e).ulOption.waitPriority
  · cases hfind : k.eventDelQPriority e q with
    | none =>
      rw [eventDelQPriority, List.find?_eq_none] at hfind
      have hnil := hfind (k.ringOf u e) (List.mem_finRange _)
      rw [ring] at hmem
      simp only [Bool.not_eq_true, Bool.not_eq_false', List.isEmpty_iff] at hnil
      rw [hnil] at hmem
      simp at hmem
    | some i =>
      have hne := List.find?_some hfind
      cases hring : ((k.event e).wqWaitQ q).wlQ i with
      | nil => simp [hring] at hne
      | cons t ts =>
        have ht : k.Waits t e q ∧ k.ringOf t e = i := by
          rw [← h.mem, ring, hring]
          exact List.mem_cons_self
        refine ⟨t, ?_, ht.1⟩
        simp [hw, hring, ht.2]
  · have hi {t : T} : k.ringOf t e = 0 := if_neg hw
    rw [hi, ring] at hmem
    cases hlast : (((k.event e).wqWaitQ q).wlQ 0).getLast? with
    | none =>
      rw [List.getLast?_eq_none_iff] at hlast
      simp [hlast] at hmem
    | some t =>
      have ht : k.Waits t e q ∧ k.ringOf t e = 0 := by
        rw [← h.mem, ring]
        exact List.mem_of_getLast? hlast
      refine ⟨t, ?_, ht.1⟩
      simp [hw, hi]

end SylixOS.Kernel.KernState
