import SylixOS.Kernel.SemaphoreSystem
import SylixOS.Lib.Reach
import Mathlib.Data.Fin.VecNotation
import Mathlib.Data.List.Pairwise
import Mathlib.Data.Prod.Lex

/-! # The order in which the threads of a priority queue are served

Threads enter the wait queues of events, are made ready or leave, and the priority of any thread is set
at any time, whether it waits or not. A priority queue is served in the order of its rings.
-/

namespace SylixOS.Kernel
open Lib

/-- The kernel; on the side, how many threads have begun to wait, and the number that each thread had
among them when it last did. -/
structure WaitSystem (T E : Type) where
  kern : KernState T E
  arrived : ℕ
  arrival : T → ℕ

inductive WaitOp (T E : Type) where
  | pend (t : T) (e : E) (q : Fin 2) (ulTimeout : ℕ)
  | ready (e : E) (q : Fin 2)
  | tick (t : T)
  | wakeup (t : T) (bWithInfPend : Bool)
  | setPrio (t : T) (ucPriority : Prio)
  deriving DecidableEq

variable {T E : Type} [DecidableEq T] [DecidableEq E]

namespace KernState

/-- `API_ThreadWakeupEx`, as far as it does not return an error. -/
def threadWakeupEx (k : KernState T E) (t : T) (bWithInfPend : Bool) : Option (KernState T E) :=
  if k.threadIsReady t then none
  else if bWithInfPend = false ∧ (k.tcb t).statusDelay = false then none
  else
    let k :=
      if (k.tcb t).statusDelay then
        (k.delFromWakeupLine t).modTcb t fun c => { c with ulDelay := 0 }
      else k
    if (k.tcb t).statusSem then
      let k := k.modTcb t fun c => { c with statusSem := false, ucWaitTimeout := true }
      match (k.tcb t).peventPtr with
      | some e => some (k.eventUnQueue t e)
      | none => some k
    else some k

/-- `_EventQGetTcbPriority` of the ring that `_EVENT_DEL_Q_PRIORITY` finds. -/
def eventQGetTcbPriority (k : KernState T E) (e : E) (q : Fin 2) : Option T :=
  (k.eventDelQPriority e q).bind fun i => (k.ring e q i).head?

/-- The threads of the rings of a queue, one ring after the other. -/
def order (k : KernState T E) (e : E) (q : Fin 2) : List T := (List.finRange 8).flatMap (k.ring e q)

end KernState

namespace WaitSystem

/-- The priority of a thread, and after it the number that the thread had when it began to wait. -/
def key (s : WaitSystem T E) (t : T) : Prio ×ₗ ℕ := toLex ((s.kern.tcb t).ucPriority, s.arrival t)

/-- One step; `w` is the number of bits of a `ULONG`. -/
def step (w : ℕ) (s : WaitSystem T E) : WaitOp T E → Option (WaitSystem T E)
  | .pend t e q ulTimeout =>
    if s.kern.threadIsReady t then
      some
        { kern := s.kern.pendWait t e w q ulTimeout
          arrived := s.arrived + 1
          arrival := Function.update s.arrival t s.arrived }
    else none
  | .ready e q =>
    (s.kern.eventReadyLowLevel e q).map fun (t, kern) =>
      { s with kern := kern.eventReadyHighLevel t }
  | .tick t =>
    if (s.kern.tcb t).statusDelay then some { s with kern := s.kern.threadTick t } else none
  | .wakeup t bWithInfPend =>
    (s.kern.threadWakeupEx t bWithInfPend).map fun kern => { s with kern }
  | .setPrio t ucPriority => some { s with kern := s.kern.schedSetPrio t ucPriority }

/-- No thread waits. -/
structure Init (s : WaitSystem T E) : Prop where
  ready : ∀ t, s.kern.threadIsReady t ∧ (s.kern.tcb t).peventPtr = none
  exist : ∀ t, (s.kern.tcb t).ucIsEventDelete = false
  queue : ∀ e q, (s.kern.event e).wqWaitQ q = ⟨fun _ => [], 0⟩

/-- A queue has the number of its threads. The lookup finds one of them if there is one, none of the
others is more urgent, and those of the same priority have come later. -/
structure QueueOk [Fintype T] (s : WaitSystem T E) (e : E) (q : Fin 2) : Prop where
  count : s.kern.eventWaitNum e q = (Finset.univ.filter fun t => s.kern.Waits t e q).card
  none : s.kern.eventQGetTcbPriority e q = none → ∀ t, ¬ s.kern.Waits t e q
  some : ∀ t, s.kern.eventQGetTcbPriority e q = some t →
    s.kern.Waits t e q ∧ ∀ u, s.kern.Waits u e q → u ≠ t → s.key t < s.key u

/-- The priority queues are as they should be, however many of their threads are made ready. -/
def Serves [Fintype T] (w : ℕ) (s : WaitSystem T E) : Prop :=
  ∀ e q, (s.kern.event e).ulOption.waitPriority → ∀ n s',
    runs (step w) s (List.replicate n (.ready e q)) = some s' → s'.QueueOk e q

/-- A change of the priority of a waiting thread leaves it behind the same waiting threads and ahead of
the same; a thread that begins to wait finds none in another ring that is on the wrong side of it. -/
def StepOk (s : WaitSystem T E) : WaitOp T E → Prop
  | .pend t e q _ => (s.kern.event e).ulOption.waitPriority → ∀ u, s.kern.Waits u e q →
    let i := KernState.eventIndexQPriority (s.kern.tcb t).ucPriority
    (s.kern.ringOf u e < i → (s.kern.tcb u).ucPriority ≤ (s.kern.tcb t).ucPriority) ∧
      (i < s.kern.ringOf u e → (s.kern.tcb t).ucPriority < (s.kern.tcb u).ucPriority)
  | .setPrio t ucPriority => ∀ e q, (s.kern.event e).ulOption.waitPriority → s.kern.Waits t e q →
    ∀ u, s.kern.Waits u e q → u ≠ t →
      (s.key u < s.key t → s.key u < toLex (ucPriority, s.arrival t)) ∧
        (s.key t < s.key u → toLex (ucPriority, s.arrival t) < s.key u)
  | _ => True

instance [Fintype T] [Fintype E] (s : WaitSystem T E) : ∀ a, Decidable (s.StepOk a)
  | .pend _ _ _ _ => inferInstanceAs (Decidable (_ → ∀ _, _ → _ ∧ _))
  | .setPrio _ _ => inferInstanceAs (Decidable (∀ _ _, _ → _ → ∀ _, _ → _ → _ ∧ _))
  | .ready _ _ => .isTrue trivial
  | .tick _ => .isTrue trivial
  | .wakeup _ _ => .isTrue trivial

end WaitSystem

/-! ## Sorted lists -/

section Sorted
variable {α : Type} {κ : Type*}

/-- The key of one element of a sorted list changes: the list stays sorted exactly if the element keeps
its place among the others. -/
theorem pairwise_key_iff [Preorder κ] {key key' : α → κ} {t : α} {l : List α}
    (h : l.Pairwise fun a b => key a < key b) (ht : t ∈ l) (hne : ∀ u, u ≠ t → key' u = key u) :
    (l.Pairwise fun a b => key' a < key' b) ↔
      ∀ u ∈ l, u ≠ t → (key u < key t → key u < key' t) ∧ (key t < key u → key' t < key u) := by
  constructor
  · intro h' u hu hut
    let S (a b : α) : Prop := key a < key b ∧ key' a < key' b ∨ key b < key a ∧ key' b < key' a
    have hS : l.Pairwise S := (h.and h').imp .inl
    have : Std.Symm S := ⟨fun _ _ => Or.symm⟩
    rcases hS.forall hu ht hut with ⟨hlt, hlt'⟩ | ⟨hlt, hlt'⟩
    · rw [hne u hut] at hlt'
      exact ⟨fun _ => hlt', fun hgt => absurd hgt (lt_asymm hlt)⟩
    · rw [hne u hut] at hlt'
      exact ⟨fun hgt => absurd hgt (lt_asymm hlt), fun _ => hlt'⟩
  · intro hkeep
    refine h.imp_of_mem fun {a b} ha hb hab => ?_
    rcases eq_or_ne a t with rfl | hat
    · have hba : b ≠ a := fun heq => lt_irrefl _ (heq ▸ hab)
      rw [hne b hba]
      exact (hkeep b hb hba).2 hab
    · rw [hne a hat]
      rcases eq_or_ne b t with rfl | hbt
      · exact (hkeep a ha hat).1 hab
      · rw [hne b hbt]
        exact hab

/-- A thread that has come last enters a ring that is in order at the place where it belongs. -/
theorem ringAddPriority_pairwise {prio : α → Prio} {key : α → Prio ×ₗ ℕ} {t : α} {ring : List α}
    (hkey : ∀ u, (ofLex (key u)).1 = prio u) (hlast : ∀ u ∈ ring, prio u ≤ prio t → key u < key t)
    (h : ring.Pairwise fun a b => key a < key b) :
    (KernState.ringAddPriority prio t ring).Pairwise fun a b => key a < key b := by
  have hlt {a b : α} (hab : prio a < prio b) : key a < key b := by
    rw [← hkey a, ← hkey b] at hab
    exact Prod.Lex.lt_iff.mpr (.inl hab)
  have hle {a b : α} (hab : key a < key b) : prio a ≤ prio b := by
    rw [← hkey a, ← hkey b]
    rcases Prod.Lex.lt_iff.mp hab with hlt | ⟨heq, -⟩
    · exact hlt.le
    · exact heq.le
  induction ring with
  | nil => exact List.pairwise_singleton _ t
  | cons u us ih =>
    obtain ⟨hu, hus⟩ := List.pairwise_cons.mp h
    rw [KernState.ringAddPriority]
    split_ifs with htu
    · refine List.pairwise_cons.mpr ⟨fun v hv => ?_, h⟩
      rcases List.mem_cons.mp hv with rfl | hv
      · exact hlt htu
      · exact hlt (lt_of_lt_of_le htu (hle (hu v hv)))
    · refine List.pairwise_cons.mpr ⟨fun v hv => ?_, ih (fun v hv => hlast v (.tail u hv)) hus⟩
      rw [(KernState.ringAddPriority_perm us).mem_iff] at hv
      rcases List.mem_cons.mp hv with rfl | hv
      · exact hlast u List.mem_cons_self (not_lt.mp htu)
      · exact hu v hv

/-- The first element of the first list that has one. -/
theorem find?_bind_head? {β : Type*} (f : α → List β) (l : List α) :
    ((l.find? fun a => !(f a).isEmpty).bind fun a => (f a).head?) = (l.flatMap f).head? := by
  induction l with
  | nil => rfl
  | cons a l ih =>
    rw [List.find?_cons, List.flatMap_cons]
    cases hf : f a with
    | nil => exact ih
    | cons b bs => simp [hf]

end Sorted

/-! ## The order of a queue -/

namespace KernState
variable {k k' : KernState T E} {t u : T} {e d : E} {q p : Fin 2} {i : Fin 8}

omit [DecidableEq T] [DecidableEq E] in
theorem eventQGetTcbPriority_eq : k.eventQGetTcbPriority e q = (k.order e q).head? :=
  find?_bind_head? _ _

omit [DecidableEq T] [DecidableEq E] in
theorem pairwise_order {R : T → T → Prop} : (k.order e q).Pairwise R ↔
    (∀ i, (k.ring e q i).Pairwise R) ∧
      ∀ i j, i < j → ∀ t ∈ k.ring e q i, ∀ u ∈ k.ring e q j, R t u := by
  rw [order, List.pairwise_flatMap]
  refine and_congr ⟨fun h i => h i (List.mem_finRange i), fun h i _ => h i⟩ ?_
  rw [← List.ofFn_id, List.pairwise_ofFn]
  rfl

section Ok
variable [Fintype T]

omit [DecidableEq T] in
theorem EventOk.mem_order (h : EventOk k) : t ∈ k.order e q ↔ k.Waits t e q := by
  simp [order, h.mem]

omit [DecidableEq T] in
theorem EventOk.nodup_order (h : EventOk k) : (k.order e q).Nodup := by
  refine pairwise_order.mpr ⟨h.nodup e q, fun i j hij t ht u hu heq => ?_⟩
  subst heq
  rw [h.mem] at ht hu
  exact hij.ne (ht.2.symm.trans hu.2)

/-- A thread that leaves its queue is gone from the order in which its queue is served, and no other
order changes. -/
theorem Leaves.order (h : EventOk k) (hw : k.Waits t e q) (hl : Leaves k k' t e q) :
    k'.order d p = (k.order d p).filter fun u => u != t := by
  have hring (i : Fin 8) : k'.ring d p i = (k.ring d p i).filter fun u => u != t := by
    rw [← (h.nodup d p i).erase_eq_filter]
    by_cases hat : d = e ∧ p = q ∧ i = k.ringOf t e
    · obtain ⟨rfl, rfl, rfl⟩ := hat
      exact hl.ring
    · have hnot : t ∉ k.ring d p i := by
        rw [h.mem]
        rintro ⟨hd, hi⟩
        have hde := hd.1.symm.trans hw.1
        rw [Option.some.injEq] at hde
        subst hde
        exact hat ⟨rfl, hd.2.symm.trans hw.2, hi.symm⟩
      rw [List.erase_of_not_mem hnot]
      by_cases hd : d = e
      · subst hd
        exact hl.ring_ne p i fun hpi => hat ⟨rfl, hpi⟩
      · rw [KernState.ring, hl.event_ne d hd, KernState.ring]
  rw [KernState.order, KernState.order, List.filter_flatMap]
  exact List.flatMap_congr fun i _ => hring i

/-- A queue from which a thread is made ready is not empty. -/
theorem EventOk.waitNum_ne_zero (h : EventOk k) {x : T × KernState T E}
    (hx : k.eventReadyLowLevel e q = some x) : k.eventWaitNum e q ≠ 0 := by
  have hmem : ∃ t i, t ∈ k.ring e q i := by
    unfold KernState.eventReadyLowLevel at hx
    split_ifs at hx with hw
    · simp only [Option.bind_eq_bind, Option.bind_eq_some_iff] at hx
      obtain ⟨i, -, t, ht, -⟩ := hx
      exact ⟨t, i, List.mem_of_head? ht⟩
    · simp only [Option.bind_eq_bind, Option.bind_eq_some_iff] at hx
      obtain ⟨t, ht, -⟩ := hx
      exact ⟨t, 0, List.mem_of_getLast? ht⟩
  obtain ⟨t, i, ht⟩ := hmem
  rw [ne_eq, h.waitNum_eq_zero]
  exact fun hnone => hnone t ((h.mem e q i t).mp ht).1

end Ok

/-- A waiting thread that is woken leaves its queue. -/
theorem threadWakeupEx_leaves {bWithInfPend : Bool} (hw : k.Waits t e q)
    (hexist : (k.tcb t).ucIsEventDelete = false) (hsem : (k.tcb t).statusSem = true)
    (h : k.threadWakeupEx t bWithInfPend = some k') : Leaves k k' t e q := by
  have hready : ¬ k.threadIsReady t := fun hr => by simp [hr.1] at hsem
  have heq : k' = (k.delTcbFromEvent t e (k.ringOf t e)).modTcb t fun c =>
      { c with
        statusSem := false
        statusDelay := false
        ucWaitTimeout := true
        ulDelay := if c.statusDelay then 0 else c.ulDelay
        peventPtr := none } := by
    rw [threadWakeupEx, if_neg hready] at h
    split_ifs at h with herr hd
    · simp only [delFromWakeupLine, modTcb_modTcb, modTcb_self, hsem, if_true, hw.1,
        Option.some.injEq] at h
      rw [← h, eventUnQueue_modTcb rfl rfl]
      exact modTcb_congr (by simp [delTcbFromEvent, modQueue, hd])
    · simp only [modTcb_self, hsem, if_true, hw.1, Option.some.injEq] at h
      rw [← h, eventUnQueue_modTcb rfl rfl]
      exact modTcb_congr (by simp [delTcbFromEvent, modQueue, hd])
  rw [heq]
  exact Leaves.of_modQueue hw hexist rfl rfl ⟨rfl, rfl⟩ rfl rfl rfl

end KernState

namespace WaitSystem
variable {w : ℕ} {s s' : WaitSystem T E} {a : WaitOp T E} {t u : T} {e d : E} {q p : Fin 2}

/-- The threads of a queue stand in the order of their keys. -/
def InOrder (s : WaitSystem T E) (e : E) (q : Fin 2) : Prop :=
  (s.kern.order e q).Pairwise fun t u => s.key t < s.key u

section Inv
variable [Fintype T]

/-- The queues agree with the threads' control blocks, and every waiting thread has come. -/
structure Inv (s : WaitSystem T E) : Prop where
  event : s.kern.EventOk
  arrival : ∀ t e q, s.kern.Waits t e q → s.arrival t < s.arrived

omit [DecidableEq T] in
theorem Init.inv (h : s.Init) : s.Inv where
  event := .of_unused h.ready h.exist h.queue
  arrival t e q hw := by
    rw [KernState.Waits, (h.ready t).2] at hw
    exact absurd hw.1 (by rintro ⟨⟩)

/-- A thread has left a queue. -/
structure Left (s s' : WaitSystem T E) (t : T) (e : E) (q : Fin 2) : Prop where
  waits : s.kern.Waits t e q
  leaves : KernState.Leaves s.kern s'.kern t e q
  arrived : s'.arrived = s.arrived
  arrival : s'.arrival = s.arrival

omit [DecidableEq T] in
/-- A thread that is not ready waits in some queue. -/
theorem Inv.exists_waits (h : s.Inv) (ht : (s.kern.tcb t).statusSem = true) :
    ∃ e q, s.kern.Waits t e q := by
  rw [h.event.sem] at ht
  obtain ⟨e, he⟩ := Option.isSome_iff_exists.mp ht
  exact ⟨e, (s.kern.tcb t).iPendQ, he, rfl⟩

theorem Inv.ready_left (h : s.Inv) (hs : step w s (.ready e q) = some s') :
    ∃ t, s.kern.eventReadyLowLevel e q =
        some (t, s.kern.readyLowLevel t e (s.kern.ringOf t e)) ∧ Left s s' t e q := by
  obtain ⟨⟨u, k⟩, hfind, heq⟩ := Option.map_eq_some_iff.mp hs
  obtain ⟨t, ht, hw⟩ := h.event.eventReadyLowLevel (h.event.waitNum_ne_zero hfind)
  rw [ht] at hfind
  cases hfind
  subst heq
  have hclear := h.event.clear u (by rw [h.event.sem, hw.1]; rfl)
  exact ⟨u, ht, hw, (KernState.ready_leaves hw (h.event.exist u) hclear rfl).1, rfl, rfl⟩

theorem Inv.left (hT : Fintype.card T < 2 ^ 16) (h : s.Inv) (hl : Left s s' t e q) : s'.Inv where
  event := h.event.leaves hT hl.waits hl.leaves
  arrival u d p hu := by
    rw [hl.leaves.waits] at hu
    rw [hl.arrival, hl.arrived]
    exact h.arrival u d p hu.1

omit [DecidableEq E] [Fintype T] in
theorem Left.key (hl : Left s s' t e q) (hu : u ≠ t) : s'.key u = s.key u := by
  rw [WaitSystem.key, hl.leaves.tcb_ne u hu, hl.arrival, WaitSystem.key]

theorem Left.inOrder (h : s.Inv) (hl : Left s s' t e q) (hd : s.InOrder d p) : s'.InOrder d p := by
  rw [InOrder, hl.leaves.order h.event hl.waits]
  refine (List.Pairwise.filter _ hd).imp_of_mem fun {u v} hu hv huv => ?_
  have hne {u : T} (hu : u ∈ (s.kern.order d p).filter fun u => u != t) : u ≠ t := by
    simpa using (List.mem_filter.mp hu).2
  rw [hl.key (hne hu), hl.key (hne hv)]
  exact huv

omit [DecidableEq T] [DecidableEq E] [Fintype T] in
/-- An order in which neither threads nor their keys have changed. -/
theorem inOrder_congr (horder : s'.kern.order d p = s.kern.order d p)
    (hkey : ∀ u ∈ s.kern.order d p, s'.key u = s.key u) : s'.InOrder d p ↔ s.InOrder d p := by
  rw [InOrder, InOrder, horder]
  constructor
  · refine List.Pairwise.imp_of_mem fun {u v} hu hv huv => ?_
    rw [hkey u hu, hkey v hv] at huv
    exact huv
  · refine List.Pairwise.imp_of_mem fun {u v} hu hv huv => ?_
    rw [hkey u hu, hkey v hv]
    exact huv

end Inv

/-! ## A thread begins to wait -/

section Pend
variable [Fintype T]

/-- A thread has entered a queue. -/
structure Came (w : ℕ) (s s' : WaitSystem T E) (t : T) (e : E) (q : Fin 2) (ulTimeout : ℕ) : Prop where
  ready : s.kern.threadIsReady t
  kern : s'.kern = s.kern.pendWait t e w q ulTimeout
  arrived : s'.arrived = s.arrived + 1
  arrival : s'.arrival = Function.update s.arrival t s.arrived

omit [Fintype T] in
theorem came_of_step {ulTimeout : ℕ} (hs : step w s (.pend t e q ulTimeout) = some s') :
    Came w s s' t e q ulTimeout := by
  simp only [step] at hs
  split_ifs at hs with hready
  cases hs
  exact ⟨hready, rfl, rfl, rfl⟩

variable {ulTimeout : ℕ}

omit [Fintype T] in
theorem Came.parks (hc : Came w s s' t e q ulTimeout) : KernState.Parks s.kern s'.kern t e q := by
  rw [hc.kern]
  exact KernState.pendWait_parks w ulTimeout

theorem Inv.came (hT : Fintype.card T < 2 ^ 16) (h : s.Inv) (hc : Came w s s' t e q ulTimeout) :
    s'.Inv where
  event := h.event.parks hT (h.event.not_waits hc.ready.1) hc.parks
  arrival u d p hu := by
    rw [hc.parks.waits (h.event.not_waits hc.ready.1)] at hu
    rw [hc.arrival, hc.arrived]
    rcases eq_or_ne u t with rfl | hne
    · rw [Function.update_self]
      omega
    · rw [Function.update_of_ne hne]
      have := h.arrival u d p (hu.resolve_right fun hat => hne hat.1)
      omega

theorem Came.key_ne (hc : Came w s s' t e q ulTimeout) (hu : u ≠ t) : s'.key u = s.key u := by
  rw [key, hc.parks.tcb_ne u hu, hc.arrival, Function.update_of_ne hu, key]

theorem Came.key (hc : Came w s s' t e q ulTimeout) :
    s'.key t = toLex ((s.kern.tcb t).ucPriority, s.arrived) := by
  rw [WaitSystem.key, hc.parks.prio, hc.arrival, Function.update_self]

theorem Came.notMem (h : s.Inv) (hc : Came w s s' t e q ulTimeout) : t ∉ s.kern.order d p := by
  rw [h.event.mem_order, KernState.Waits, h.event.not_waits hc.ready.1]
  exact fun hw => absurd hw.1 (by rintro ⟨⟩)

/-- The other queues do not change. -/
theorem Came.inOrder_ne (h : s.Inv) (hc : Came w s s' t e q ulTimeout) (hne : ¬ (d = e ∧ p = q)) :
    s'.InOrder d p ↔ s.InOrder d p := by
  refine inOrder_congr ?_ fun u hu => hc.key_ne fun hut => hc.notMem h (hut ▸ hu)
  refine List.flatMap_congr fun i _ => ?_
  by_cases hd : d = e
  · subst hd
    exact hc.parks.ring_ne p i fun hpi => hne ⟨rfl, hpi.1⟩
  · rw [KernState.ring, hc.parks.event_ne d hd, KernState.ring]

omit [Fintype T] in
/-- A thread that enters a priority queue does so in the ring of its priority. -/
theorem Came.ring (hc : Came w s s' t e q ulTimeout) (hw : (s.kern.event e).ulOption.waitPriority)
    (j : Fin 8) : s'.kern.ring e q j =
      if j = KernState.eventIndexQPriority (s.kern.tcb t).ucPriority then
        KernState.ringAddPriority (fun u => (s.kern.tcb u).ucPriority) t (s.kern.ring e q j)
      else s.kern.ring e q j := by
  rw [hc.kern, KernState.pendWait_priority hw, KernState.modTcb_ring, KernState.modQueue_ring]
  by_cases hj : j = KernState.eventIndexQPriority (s.kern.tcb t).ucPriority
  · simp [hj]
  · simp [hj]

theorem Came.mem_ring (hc : Came w s s' t e q ulTimeout)
    (hw : (s.kern.event e).ulOption.waitPriority) {j : Fin 8} : u ∈ s'.kern.ring e q j ↔
      u ∈ s.kern.ring e q j ∨
        u = t ∧ j = KernState.eventIndexQPriority (s.kern.tcb t).ucPriority := by
  rw [hc.ring hw]
  split_ifs with hj
  · rw [(KernState.ringAddPriority_perm _).mem_iff, List.mem_cons]
    tauto
  · tauto

/-- A thread that has just come is behind the threads of its own priority. -/
theorem Came.key_lt_iff (h : s.Inv) (hc : Came w s s' t e q ulTimeout) (hu : s.kern.Waits u e q) :
    s'.key u < s'.key t ↔ (s.kern.tcb u).ucPriority ≤ (s.kern.tcb t).ucPriority := by
  have hne : u ≠ t := fun hut => hc.notMem h (h.event.mem_order.mpr (hut ▸ hu))
  have harr := h.arrival u e q hu
  rw [hc.key_ne hne, hc.key, WaitSystem.key, Prod.Lex.toLex_lt_toLex, le_iff_lt_or_eq]
  exact or_congr_right (and_iff_left harr)

theorem Came.lt_key_iff (h : s.Inv) (hc : Came w s s' t e q ulTimeout) (hu : s.kern.Waits u e q) :
    s'.key t < s'.key u ↔ (s.kern.tcb t).ucPriority < (s.kern.tcb u).ucPriority := by
  have hne : u ≠ t := fun hut => hc.notMem h (h.event.mem_order.mpr (hut ▸ hu))
  have harr := h.arrival u e q hu
  rw [hc.key_ne hne, hc.key, WaitSystem.key, Prod.Lex.toLex_lt_toLex]
  exact or_iff_left fun hlt => absurd hlt.2 (by simpa using harr.le)

/-- A queue stays in order exactly if no thread of another ring is on the wrong side of the new one. -/
theorem Came.inOrder_iff (h : s.Inv) (hc : Came w s s' t e q ulTimeout)
    (hw : (s.kern.event e).ulOption.waitPriority) (ho : s.InOrder e q) :
    s'.InOrder e q ↔ ∀ u, s.kern.Waits u e q →
      (s.kern.ringOf u e < KernState.eventIndexQPriority (s.kern.tcb t).ucPriority →
          (s.kern.tcb u).ucPriority ≤ (s.kern.tcb t).ucPriority) ∧
        (KernState.eventIndexQPriority (s.kern.tcb t).ucPriority < s.kern.ringOf u e →
          (s.kern.tcb t).ucPriority < (s.kern.tcb u).ucPriority) := by
  obtain ⟨hrings, hcross⟩ := KernState.pairwise_order.mp ho
  have hnew : t ∈ s'.kern.ring e q (KernState.eventIndexQPriority (s.kern.tcb t).ucPriority) :=
    (hc.mem_ring hw).mpr (.inr ⟨rfl, rfl⟩)
  have hwaits {u : T} {j : Fin 8} (hu : u ∈ s.kern.ring e q j) :=
    (h.event.mem e q j u).mp hu
  have hkey {u : T} {j : Fin 8} (hu : u ∈ s.kern.ring e q j) : s'.key u = s.key u :=
    hc.key_ne fun hut => hc.notMem h (h.event.mem_order.mpr (hut ▸ (hwaits hu).1))
  rw [InOrder, KernState.pairwise_order]
  constructor
  · rintro ⟨-, hcross'⟩ u hu
    have hmem : u ∈ s'.kern.ring e q (s.kern.ringOf u e) :=
      (hc.mem_ring hw).mpr (.inl ((h.event.mem e q _ u).mpr ⟨hu, rfl⟩))
    exact ⟨fun hlt => (hc.key_lt_iff h hu).mp (hcross' _ _ hlt u hmem t hnew),
      fun hlt => (hc.lt_key_iff h hu).mp (hcross' _ _ hlt t hnew u hmem)⟩
  · intro hok
    constructor
    · intro j
      have hring : (s.kern.ring e q j).Pairwise fun a b => s'.key a < s'.key b :=
        (hrings j).imp_of_mem fun ha hb hab => by rwa [hkey ha, hkey hb]
      rw [hc.ring hw]
      split_ifs with hj
      · refine ringAddPriority_pairwise (fun u => ?_) (fun u hu hle => ?_) hring
        · rcases eq_or_ne u t with rfl | hne
          · exact hc.parks.prio
          · exact congrArg Tcb.ucPriority (hc.parks.tcb_ne u hne)
        · exact (hc.key_lt_iff h (hwaits hu).1).mpr hle
      · exact hring
    · intro i j hij x hx y hy
      rw [hc.mem_ring hw] at hx hy
      rcases hx with hx | ⟨rfl, rfl⟩
      · rcases hy with hy | ⟨rfl, rfl⟩
        · rw [hkey hx, hkey hy]
          exact hcross i j hij x hx y hy
        · obtain ⟨hwait, rfl⟩ := hwaits hx
          exact (hc.key_lt_iff h hwait).mpr ((hok x hwait).1 hij)
      · rcases hy with hy | ⟨rfl, rfl⟩
        · obtain ⟨hwait, rfl⟩ := hwaits hy
          exact (hc.lt_key_iff h hwait).mpr ((hok y hwait).2 hij)
        · exact absurd hij (lt_irrefl _)

end Pend

/-! ## The priority of a thread is set -/

section SetPrio
variable {ucPriority : Prio}

theorem order_setPrio (hs : step w s (.setPrio t ucPriority) = some s') :
    s'.kern.order d p = s.kern.order d p := by
  cases hs
  rfl

theorem key_setPrio (hs : step w s (.setPrio t ucPriority) = some s') :
    s'.key t = toLex (ucPriority, s.arrival t) := by
  cases hs
  simp [key, KernState.schedSetPrio]

theorem key_setPrio_ne (hs : step w s (.setPrio t ucPriority) = some s') (hu : u ≠ t) :
    s'.key u = s.key u := by
  cases hs
  simp [key, KernState.schedSetPrio, KernState.modTcb_of_ne _ _ _ hu]

variable [Fintype T]

theorem Inv.setPrio (h : s.Inv) (hs : step w s (.setPrio t ucPriority) = some s') : s'.Inv := by
  cases hs
  have hsame : KernState.SameWait s.kern (s.kern.schedSetPrio t ucPriority) :=
    KernState.sameWait_schedSetPrio ucPriority
  refine ⟨h.event.sameWait hsame, fun u e q hu => ?_⟩
  rw [hsame.waits] at hu
  exact h.arrival u e q hu

/-- A queue stays in order exactly if the thread, where it waits, keeps its place. -/
theorem inOrder_setPrio_iff (h : s.Inv) (hs : step w s (.setPrio t ucPriority) = some s')
    (ho : s.InOrder e q) : s'.InOrder e q ↔ (s.kern.Waits t e q → ∀ u, s.kern.Waits u e q → u ≠ t →
      (s.key u < s.key t → s.key u < toLex (ucPriority, s.arrival t)) ∧
        (s.key t < s.key u → toLex (ucPriority, s.arrival t) < s.key u)) := by
  by_cases ht : s.kern.Waits t e q
  · have hmem := h.event.mem_order.mpr ht
    rw [InOrder, order_setPrio hs,
      pairwise_key_iff ho hmem fun u hu => key_setPrio_ne hs hu, key_setPrio hs]
    simp only [h.event.mem_order, ht, true_implies]
  · refine iff_of_true ?_ fun hw => absurd hw ht
    refine (inOrder_congr (order_setPrio hs) fun u hu => key_setPrio_ne hs fun hut => ?_).mpr ho
    exact ht (h.event.mem_order.mp (hut ▸ hu))

end SetPrio

/-! ## Serving a queue -/

section Run
variable [Fintype T]

omit [DecidableEq T] in
/-- The thread that is found is ahead of all others of its queue. -/
theorem Inv.queueOk_iff (h : s.Inv) : s.QueueOk e q ↔
    ∀ t ts, s.kern.order e q = t :: ts → ∀ u ∈ ts, s.key t < s.key u := by
  have hnodup := h.event.nodup_order (e := e) (q := q)
  have hmem {u : T} := h.event.mem_order (t := u) (e := e) (q := q)
  constructor
  · intro hq t ts hl u hu
    rw [hl] at hnodup hmem
    refine (hq.some t ?_).2 u (hmem.mp (.tail t hu)) ?_
    · rw [KernState.eventQGetTcbPriority_eq, hl]
      rfl
    · rintro rfl
      exact (List.nodup_cons.mp hnodup).1 hu
  · intro hhead
    refine ⟨h.event.num e q, fun hnone t ht => ?_, fun t ht => ?_⟩
    · rw [KernState.eventQGetTcbPriority_eq, List.head?_eq_none_iff] at hnone
      rw [← hmem, hnone] at ht
      exact absurd ht List.not_mem_nil
    · rw [KernState.eventQGetTcbPriority_eq, List.head?_eq_some_iff] at ht
      obtain ⟨ts, hl⟩ := ht
      rw [hl] at hmem
      refine ⟨hmem.mp List.mem_cons_self, fun u hu hut => ?_⟩
      exact hhead t ts hl u ((List.mem_cons.mp (hmem.mpr hu)).resolve_left hut)

/-- The thread that is made ready is the first of the order. -/
theorem Inv.ready_head (h : s.Inv) (hw : (s.kern.event e).ulOption.waitPriority) {ts : List T}
    (hl : s.kern.order e q = t :: ts) :
    ∃ s', step w s (.ready e q) = some s' ∧ Left s s' t e q := by
  have hget : s.kern.eventQGetTcbPriority e q = some t := by
    rw [KernState.eventQGetTcbPriority_eq, hl]
    rfl
  obtain ⟨i, hi, ht⟩ := Option.bind_eq_some_iff.mp hget
  rw [KernState.ring] at ht
  have hready : s.kern.eventReadyLowLevel e q = some (t, s.kern.readyLowLevel t e i) := by
    simp [KernState.eventReadyLowLevel, hw, hi, ht]
  have hs : step w s (.ready e q) =
      some { s with kern := (s.kern.readyLowLevel t e i).eventReadyHighLevel t } := by
    rw [step, hready]
    rfl
  obtain ⟨u, hu, hleft⟩ := h.ready_left hs
  rw [hready, Option.some.injEq] at hu
  obtain rfl : t = u := congrArg Prod.fst hu
  exact ⟨_, hs, hleft⟩

/-- Threads are taken out of a priority queue in the right order exactly if it is in order. -/
theorem Inv.served_iff (hT : Fintype.card T < 2 ^ 16) (h : s.Inv)
    (hw : (s.kern.event e).ulOption.waitPriority) :
    (∀ n s', runs (step w) s (List.replicate n (.ready e q)) = some s' → s'.QueueOk e q) ↔
      s.InOrder e q := by
  induction hl : s.kern.order e q generalizing s with
  | nil =>
    refine iff_of_true (fun n s' hr => ?_) (by rw [InOrder, hl]; exact .nil)
    cases n with
    | zero =>
      cases hr
      exact h.queueOk_iff.mpr fun t ts hcons => absurd (hl.symm.trans hcons) nofun
    | succ n =>
      rw [List.replicate_succ, runs, Option.bind_eq_some_iff] at hr
      obtain ⟨s₁, hs, -⟩ := hr
      obtain ⟨t, -, hleft⟩ := h.ready_left hs
      have ht := h.event.mem_order.mpr hleft.waits
      rw [hl] at ht
      exact absurd ht List.not_mem_nil
  | cons t ts ih =>
    obtain ⟨s₁, hs, hleft⟩ := h.ready_head (w := w) hw hl
    have hnodup := List.nodup_cons.mp (hl ▸ h.event.nodup_order (e := e) (q := q))
    have hne {u : T} (hu : u ∈ ts) : u ≠ t := fun hut => hnodup.1 (hut ▸ hu)
    have hl₁ : s₁.kern.order e q = ts := by
      rw [hleft.leaves.order h.event hleft.waits, hl]
      simpa [List.filter_eq_self] using fun u hu => hne hu
    have hw₁ : (s₁.kern.event e).ulOption.waitPriority := by rw [hleft.leaves.option]; exact hw
    have hone : (∀ n s', runs (step w) s (List.replicate n (.ready e q)) = some s' →
        s'.QueueOk e q) ↔ s.QueueOk e q ∧
          ∀ n s', runs (step w) s₁ (List.replicate n (.ready e q)) = some s' →
            s'.QueueOk e q := by
      have hrun (n : ℕ) : runs (step w) s (List.replicate (n + 1) (.ready e q)) =
          runs (step w) s₁ (List.replicate n (.ready e q)) := by
        rw [List.replicate_succ, runs, hs, Option.bind_some]
      constructor
      · exact fun hall => ⟨hall 0 s rfl, fun n s' hr => hall (n + 1) s' ((hrun n).trans hr)⟩
      · rintro ⟨hzero, hsucc⟩ n s' hr
        cases n with
        | zero =>
          cases hr
          exact hzero
        | succ n => exact hsucc n s' ((hrun n).symm.trans hr)
    have hhead : s.QueueOk e q ↔ ∀ u ∈ ts, s.key t < s.key u := by
      rw [h.queueOk_iff]
      constructor
      · exact fun hall => hall t ts hl
      · intro hall u us hcons
        rw [hl, List.cons.injEq] at hcons
        rw [← hcons.1, ← hcons.2]
        exact hall
    have htail : s₁.InOrder e q ↔ ts.Pairwise fun a b => s.key a < s.key b := by
      rw [InOrder, hl₁]
      constructor
      · exact List.Pairwise.imp_of_mem fun {a b} ha hb hab => by
          rwa [hleft.key (hne ha), hleft.key (hne hb)] at hab
      · exact List.Pairwise.imp_of_mem fun {a b} ha hb hab => by
          rwa [hleft.key (hne ha), hleft.key (hne hb)]
    rw [hone, ih (h.left hT hleft) hw₁ hl₁, hhead, htail, InOrder, hl, List.pairwise_cons]

/-! ## Runs -/

/-- A thread comes, the priority of a thread is set, or a thread leaves its queue. -/
theorem Inv.step_cases (h : s.Inv) (hs : step w s a = some s') :
    (∃ t e q ulTimeout, a = .pend t e q ulTimeout ∧ Came w s s' t e q ulTimeout) ∨
      (∃ t ucPriority, a = .setPrio t ucPriority) ∨
        s.StepOk a ∧ ∃ t e q, Left s s' t e q := by
  cases a with
  | pend t e q ulTimeout => exact .inl ⟨t, e, q, ulTimeout, rfl, came_of_step hs⟩
  | setPrio t ucPriority => exact .inr (.inl ⟨t, ucPriority, rfl⟩)
  | ready e q =>
    obtain ⟨t, -, hleft⟩ := h.ready_left hs
    exact .inr (.inr ⟨trivial, t, e, q, hleft⟩)
  | tick t =>
    simp only [step] at hs
    split_ifs at hs with hdelay
    cases hs
    have hsem := h.event.delay t hdelay
    obtain ⟨e, q, hw⟩ := h.exists_waits hsem
    have hl := (KernState.threadTick_leaves hw (h.event.exist t) hsem).1
    exact .inr (.inr ⟨trivial, t, e, q, hw, hl, rfl, rfl⟩)
  | wakeup t bWithInfPend =>
    obtain ⟨kern, hk, rfl⟩ := Option.map_eq_some_iff.mp hs
    have hsem : (s.kern.tcb t).statusSem = true := by
      by_contra hsem
      have hready : s.kern.threadIsReady t :=
        ⟨by simpa using hsem, by simpa using fun hd => hsem (h.event.delay t hd)⟩
      rw [KernState.threadWakeupEx, if_pos hready] at hk
      cases hk
    obtain ⟨e, q, hw⟩ := h.exists_waits hsem
    have hl := KernState.threadWakeupEx_leaves hw (h.event.exist t) hsem hk
    exact .inr (.inr ⟨trivial, t, e, q, hw, hl, rfl, rfl⟩)

theorem Inv.step (hT : Fintype.card T < 2 ^ 16) (h : s.Inv) (hs : step w s a = some s') : s'.Inv := by
  rcases h.step_cases hs with ⟨t, e, q, ulTimeout, rfl, hc⟩ | ⟨t, ucPriority, rfl⟩ | ⟨-, t, e, q, hl⟩
  · exact h.came hT hc
  · exact h.setPrio hs
  · exact h.left hT hl

/-- All priority queues are in order. -/
def AllInOrder (s : WaitSystem T E) : Prop :=
  ∀ e q, (s.kern.event e).ulOption.waitPriority → s.InOrder e q

theorem Inv.allInOrder_iff (h : s.Inv) (ho : s.AllInOrder) (hs : WaitSystem.step w s a = some s') :
    s'.AllInOrder ↔ s.StepOk a := by
  rcases h.step_cases hs with ⟨t, e, q, ulTimeout, rfl, hc⟩ | ⟨t, ucPriority, rfl⟩ | ⟨hok, t, e, q, hl⟩
  · have hopt (d : E) : (s'.kern.event d).ulOption = (s.kern.event d).ulOption := hc.parks.option d
    simp only [AllInOrder, hopt]
    constructor
    · exact fun hall hw => (hc.inOrder_iff h hw (ho e q hw)).mp (hall e q hw)
    · intro hok d p hw
      by_cases hat : d = e ∧ p = q
      · obtain ⟨rfl, rfl⟩ := hat
        exact (hc.inOrder_iff h hw (ho d p hw)).mpr (hok hw)
      · exact (hc.inOrder_ne h hat).mpr (ho d p hw)
  · have hopt (d : E) : (s'.kern.event d).ulOption = (s.kern.event d).ulOption := by
      cases hs
      rfl
    simp only [AllInOrder, hopt]
    constructor
    · exact fun hall e q hw => (inOrder_setPrio_iff h hs (ho e q hw)).mp (hall e q hw)
    · exact fun hok e q hw => (inOrder_setPrio_iff h hs (ho e q hw)).mpr (hok e q hw)
  · refine iff_of_true (fun d p hw => hl.inOrder h (ho d p ?_)) hok
    rw [← hl.leaves.option]
    exact hw

theorem Inv.serves_iff (hT : Fintype.card T < 2 ^ 16) (h : s.Inv) : s.Serves w ↔ s.AllInOrder :=
  forall₂_congr fun _ _ => forall_congr' fun hw => h.served_iff hT hw

omit [DecidableEq T] [DecidableEq E] [Fintype T] in
theorem Init.allInOrder (h : s.Init) : s.AllInOrder := by
  intro e q _
  refine KernState.pairwise_order.mpr ⟨fun i => ?_, fun i j _ t ht => ?_⟩
  · rw [KernState.ring, h.queue]
    exact .nil
  · rw [KernState.ring, h.queue] at ht
    exact absurd ht List.not_mem_nil

/-- In every run, all states serve their priority queues by priority and arrival exactly if every priority
that is set keeps a waiting thread in its place and every thread that begins to wait enters a ring that is
its place. -/
theorem wait_order_iff (hT : Fintype.card T < 2 ^ 16) {as : List (WaitOp T E)} (hinit : s.Init)
    (hr : runs (WaitSystem.step w) s as = some s') :
    Along (WaitSystem.step w) (fun s a => ∀ s', WaitSystem.step w s a = some s' → s'.Serves w) s as ↔
      Along (WaitSystem.step w) StepOk s as := by
  refine Along.stays_iff (P := Serves w) (fun s a s' h hs => Inv.step hT h hs)
    (fun s a s' h hserves hs => ?_) hinit.inv ?_ hr
  · rw [(h.step hT hs).serves_iff hT]
    exact h.allInOrder_iff ((h.serves_iff hT).mp hserves) hs
  · exact (hinit.inv.serves_iff hT).mpr hinit.allInOrder

end Run

/-- Threads that wait for nothing, and events with priority queues. -/
def unused (prio : T → Prio) : WaitSystem T E where
  kern := (SemSystem.fresh prio .mutex ⟨true, false, false, false, false⟩).kern
  arrived := 0
  arrival _ := 0

omit [DecidableEq T] [DecidableEq E] in
theorem unused_init (prio : T → Prio) : (unused prio : WaitSystem T E).Init where
  ready _ := ⟨⟨rfl, rfl⟩, rfl⟩
  exist _ := rfl
  queue _ _ := rfl

/-- The last of three waiting threads becomes less urgent; the first is served and comes back. -/
theorem wait_order_three : Along (step 32) (fun s a => ∀ s', step 32 s a = some s' → s'.Serves 32)
    (unused ![100, 90, 100] : WaitSystem (Fin 3) Unit)
    [.pend 0 () 0 10, .pend 1 () 0 20, .pend 2 () 0 30, .setPrio 2 110, .ready () 0,
      .setPrio 1 105, .pend 1 () 0 10, .tick 1] := by
  have hrun : runs (step 32) (unused ![100, 90, 100] : WaitSystem (Fin 3) Unit)
      [.pend 0 () 0 10, .pend 1 () 0 20, .pend 2 () 0 30, .setPrio 2 110, .ready () 0,
        .setPrio 1 105, .pend 1 () 0 10, .tick 1] = some _ := rfl
  exact (wait_order_iff (by decide) (unused_init _) hrun).mpr (by decide +kernel)

/-- A waiting thread becomes more urgent than the one before it. -/
theorem not_wait_order : ¬ ∀ (s s' : WaitSystem (Fin 2) Unit) (as : List (WaitOp (Fin 2) Unit)),
    s.Init → runs (step 32) s as = some s' → ∀ e q, (s'.kern.event e).ulOption.waitPriority →
      s'.QueueOk e q := by
  intro h
  have hrun : runs (step 32) (unused ![100, 110] : WaitSystem (Fin 2) Unit)
      [.pend 0 () 0 10, .pend 1 () 0 10, .setPrio 1 90] = some _ := rfl
  have hok := h _ _ _ (unused_init _) hrun () 0 rfl
  have hlt := (hok.some 0 (by decide +kernel)).2 1 (by decide +kernel) (by decide)
  exact absurd hlt (by decide +kernel)

end WaitSystem

end SylixOS.Kernel
