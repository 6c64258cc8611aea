import SylixOS.Kernel.WakeupLine
import SylixOS.Lib.Sizes
import Mathlib.Data.Fintype.Card
import Mathlib.Data.List.FinRange

/-! # Events and the threads that wait on them

Semaphores and mutexes are events. An event has two wait queues, each of which is either one FIFO
ring or eight rings that are kept in the order of the waiting threads' priorities; the FIFO ring
shares its place with the first of these. The functions here put the current thread into a queue,
take a thread out of one, and let a thread whose time is over leave its queue.
-/

namespace SylixOS.Kernel

/-- A value stored in a `UINT16`. -/
def ushort (n : ℕ) : ℕ := n % 2 ^ 16

/-- A thread priority, a `UINT8`. `LW_PRIO_IS_HIGH` compares two with `<`. -/
abbrev Prio := Fin 256

def prioLowest : ℕ := 255

inductive EventType where
  | mutex
  | semRW
  deriving DecidableEq, Repr

/-- `EVENT_iStatus` of a reader-writer semaphore. -/
inductive RwStatus where
  | r
  | w
  deriving DecidableEq, Repr

/-- `EVENT_ulOption`. -/
structure EventOption where
  waitPriority : Bool
  inheritPriority : Bool
  normal : Bool
  errorcheck : Bool
  rwPreferWriter : Bool
  deriving DecidableEq, Repr

/-- `LW_CLASS_WAITQUEUE`: the rings of threads, from the header on, and their number. -/
structure WaitQueue (T : Type) where
  wlQ : Fin 8 → List T
  usNum : ℕ

/-- `LW_CLASS_EVENT`. -/
structure Event (T : Type) where
  ucType : EventType
  pvTcbOwn : Option T
  ulCounter : ℕ
  ulMaxCounter : ℕ
  iStatus : RwStatus
  ulOption : EventOption
  ucCeilingPriority : Prio
  pvPtr : ℕ
  wqWaitQ : Fin 2 → WaitQueue T

/-- `LW_CLASS_TCB`. The status has the bits `LW_THREAD_STATUS_SEM` and `LW_THREAD_STATUS_DELAY`;
`ucWaitTimeout` is set for `LW_WAIT_TIME_OUT` and `ucIsEventDelete` for `LW_EVENT_DELETE`. -/
structure Tcb (E : Type) where
  ucPriority : Prio
  statusSem : Bool
  statusDelay : Bool
  ucWaitTimeout : Bool
  ucIsEventDelete : Bool
  ulDelay : ℕ
  iPendQ : Fin 2
  peventPtr : Option E
  ppringPriorityQueue : Fin 8
  iDeleteProcStatus : Bool

/-- The threads and the events. -/
structure KernState (T E : Type) where
  tcb : T → Tcb E
  event : E → Event T

/-- What the semaphore functions return. -/
inductive Error where
  | none
  | threadWaitTimeout
  | eventNotOwn
  | eventFull
  | eventWasDeleted
  | edeadlk
  | eventType
  deriving DecidableEq, Repr

namespace KernState

variable {T E : Type} [DecidableEq T] [DecidableEq E]

/-- The kernel with one thread changed. -/
def modTcb (k : KernState T E) (t : T) (f : Tcb E → Tcb E) : KernState T E :=
  { k with tcb := Function.update k.tcb t (f (k.tcb t)) }

/-- The kernel with one event changed. -/
def modEvent (k : KernState T E) (e : E) (f : Event T → Event T) : KernState T E :=
  { k with event := Function.update k.event e (f (k.event e)) }

/-- The kernel with one ring of an event and the number of its queue changed. -/
def modQueue (k : KernState T E) (e : E) (iQ : Fin 2) (i : Fin 8) (f : List T → List T)
    (g : ℕ → ℕ) : KernState T E :=
  k.modEvent e fun ev =>
    { ev with
      wqWaitQ := Function.update ev.wqWaitQ iQ
        { wlQ := Function.update (ev.wqWaitQ iQ).wlQ i (f ((ev.wqWaitQ iQ).wlQ i))
          usNum := g (ev.wqWaitQ iQ).usNum } }

variable (k : KernState T E) (t : T) (e : E)

/-! ## The wait queues -/

/-- The place in a ring before which `_AddTCBToEventPriority` puts a thread. -/
def ringAddPriority (prio : T → Prio) (t : T) : List T → List T
  | [] => [t]
  | u :: us => if prio t < prio u then t :: u :: us else u :: ringAddPriority prio t us

/-- `_EVENT_INDEX_Q_PRIORITY`. -/
def eventIndexQPriority (ucPriority : Prio) : Fin 8 := ⟨ucPriority / 32, by omega⟩

/-- `_AddTCBToEventFifo`. -/
def addTcbToEventFifo (i : Fin 8) : KernState T E :=
  k.modQueue e (k.tcb t).iPendQ i (fun ring => t :: ring) fun n => ushort (n + 1)

/-- `_AddTCBToEventPriority`. -/
def addTcbToEventPriority (i : Fin 8) : KernState T E :=
  k.modQueue e (k.tcb t).iPendQ i (ringAddPriority (fun u => (k.tcb u).ucPriority) t)
    fun n => ushort (n + 1)

/-- `_DelTCBFromEventFifo` and `_DelTCBFromEventPriority`. -/
def delTcbFromEvent (i : Fin 8) : KernState T E :=
  k.modQueue e (k.tcb t).iPendQ i (fun ring => ring.erase t) fun n => ushort (n + (2 ^ 16 - 1))

/-- `_EventWaitNum`. -/
def eventWaitNum (iQ : Fin 2) : ℕ := ((k.event e).wqWaitQ iQ).usNum

/-- `_EVENT_DEL_Q_PRIORITY`: the first ring in which a thread waits. Without one the source reads
beyond the rings. -/
def eventDelQPriority (iQ : Fin 2) : Option (Fin 8) :=
  (List.finRange 8).find? fun i => !(((k.event e).wqWaitQ iQ).wlQ i).isEmpty

/-- `LW_OPTION_WAIT_INFINITE`, the largest `ULONG` of `w` bits. -/
def optionWaitInfinite (w : ℕ) : ℕ := 2 ^ w - 1

/-- `__ADD_TO_WAKEUP_LINE`, as far as the thread is concerned. -/
def addToWakeupLine : KernState T E := k.modTcb t fun c => { c with statusDelay := true }

/-- `__DEL_FROM_WAKEUP_LINE`, as far as the thread is concerned. -/
def delFromWakeupLine : KernState T E := k.modTcb t fun c => { c with statusDelay := false }

/-- What `_EventWaitFifo` and `_EventWaitPriority` do around the entry into the ring. -/
def eventWait (add : KernState T E → KernState T E) : KernState T E :=
  let k := add (k.modTcb t fun c => { c with peventPtr := some e })
  let k := if (k.tcb t).ulDelay ≠ 0 then k.addToWakeupLine t else k
  k.modTcb t fun c => { c with ucIsEventDelete := false }

/-- `_EventWaitFifo`. -/
def eventWaitFifo (i : Fin 8) : KernState T E :=
  k.eventWait t e fun k => k.addTcbToEventFifo t e i

/-- `_EventWaitPriority`. -/
def eventWaitPriority (i : Fin 8) : KernState T E :=
  k.eventWait t e fun k => k.addTcbToEventPriority t e i

/-- What the pend functions do with interrupts disabled: the current thread begins to wait. -/
def pendWait (w : ℕ) (iQ : Fin 2) (ulTimeout : ℕ) : KernState T E :=
  let k := k.modTcb t fun c =>
    { c with
      iPendQ := iQ
      statusSem := true
      ucWaitTimeout := false
      ulDelay := if ulTimeout = optionWaitInfinite w then 0 else ulTimeout }
  if (k.event e).ulOption.waitPriority then
    let i := eventIndexQPriority (k.tcb t).ucPriority
    let k := k.modTcb t fun c => { c with ppringPriorityQueue := i }
    k.eventWaitPriority t e i
  else k.eventWaitFifo t e 0

/-- What `_EventReadyFifoLowLevel` and `_EventReadyPriorityLowLevel` do with the thread they have
found. -/
def readyLowLevel (i : Fin 8) : KernState T E :=
  let k := k.delTcbFromEvent t e i
  if (k.tcb t).statusDelay then (k.delFromWakeupLine t).modTcb t fun c => { c with ulDelay := 0 }
  else k

/-- `_EventReadyFifoLowLevel` for the last thread of the FIFO ring, or
`_EventReadyPriorityLowLevel` for the first one of the first ring in which a thread waits,
whichever the event's option asks for. -/
def eventReadyLowLevel (iQ : Fin 2) : Option (T × KernState T E) :=
  if (k.event e).ulOption.waitPriority then do
    let i ← k.eventDelQPriority e iQ
    let t ← (((k.event e).wqWaitQ iQ).wlQ i).head?
    some (t, k.readyLowLevel t e i)
  else do
    let t ← (((k.event e).wqWaitQ iQ).wlQ 0).getLast?
    some (t, k.readyLowLevel t e 0)

/-- `_EventReadyHighLevel` for a thread that waits for a semaphore. -/
def eventReadyHighLevel : KernState T E :=
  let k := k.modTcb t fun c => { c with peventPtr := none }
  if (k.tcb t).ucWaitTimeout then k.modTcb t fun c => { c with ucWaitTimeout := false }
  else k.modTcb t fun c => { c with statusSem := false }

/-- `_EventUnQueue`. -/
def eventUnQueue : KernState T E :=
  let i := if (k.event e).ulOption.waitPriority then (k.tcb t).ppringPriorityQueue else 0
  (k.delTcbFromEvent t e i).modTcb t fun c => { c with peventPtr := none }

/-- What `_ThreadTick` does to a thread whose delay is over. -/
def threadTick : KernState T E :=
  let k := k.delFromWakeupLine t
  if (k.tcb t).statusSem then
    let k := k.modTcb t fun c => { c with statusSem := false, ucWaitTimeout := true }
    match (k.tcb t).peventPtr with
    | some e => k.eventUnQueue t e
    | none => k
  else k.modTcb t fun c => { c with ucWaitTimeout := false }

/-- `_SchedSetPrio`, as far as the thread is concerned. -/
def schedSetPrio (ucPriority : Prio) : KernState T E := k.modTcb t fun c => { c with ucPriority }

/-- `__LW_THREAD_IS_READY`. -/
def threadIsReady : Prop := (k.tcb t).statusSem = false ∧ (k.tcb t).statusDelay = false

instance : Decidable (k.threadIsReady t) := inferInstanceAs (Decidable (_ ∧ _))

end KernState

end SylixOS.Kernel
