import SylixOS.Kernel.Bitmap

/-! # The ready rings and the candidates of the CPUs

A thread that is ready stands in the ready ring of its priority, in the table of the CPU that it is
locked to or in the global one, or it is the candidate of a CPU, the thread that this CPU is to run.
The functions here move threads between these places: with several CPUs, of which any may go down
and come up. The order in which the source visits the CPUs is a matter of its configuration, and
a parameter here. A missing candidate or an empty ring that the source reads through is `none`.
-/

namespace SylixOS.Kernel

inductive SchedPolicy where
  | fifo
  | rr
  deriving DecidableEq, Repr

/-- `TCB_ucSchedActivateMode`. -/
inductive RespondMode where
  | immiedia
  | standard
  | auto
  deriving DecidableEq, Repr

/-- `TCB_ucSchedActivate`. -/
inductive SchedAct where
  | interrupt
  | other
  deriving DecidableEq, Repr

/-- What the scheduler knows of a thread; `ready` is what `__LW_THREAD_IS_READY` reads from its
status. -/
structure SchedTcb (C : Type) where
  bCPULock : Bool
  ulCPULock : C
  ulCPUId : C
  bIsCand : Bool
  ucSchedPolicy : SchedPolicy
  ucSchedActivate : SchedAct
  ucSchedActivateMode : RespondMode
  usSchedSlice : ℕ
  usSchedCounter : ℕ
  ucPriority : Prio
  ready : Bool

/-- `LW_CLASS_PCBBMAP`: the bitmap, and for each priority the ready ring from its header on. -/
structure Pcbbmap (T : Type) where
  bmap : Bmap
  pcb : Prio → List T

/-- `LW_CLASS_CPU`. -/
structure Cpu (T : Type) where
  ptcbCand : Option T
  bNeedRotate : Bool
  active : Bool
  bOnlyAffinity : Bool

/-- The threads, the CPUs, and the ready tables: the global one and one for each CPU. -/
structure Sched (T C : Type) where
  tcb : T → SchedTcb C
  cpu : C → Cpu T
  rdy : Option C → Pcbbmap T

namespace Sched

variable {T C : Type} [DecidableEq T] [DecidableEq C]

def modTcb (s : Sched T C) (t : T) (f : SchedTcb C → SchedTcb C) : Sched T C :=
  { s with tcb := Function.update s.tcb t (f (s.tcb t)) }

def modCpu (s : Sched T C) (c : C) (f : Cpu T → Cpu T) : Sched T C :=
  { s with cpu := Function.update s.cpu c (f (s.cpu c)) }

/-- The state with the bitmap of a ready table changed. -/
def modBmap (s : Sched T C) (i : Option C) (f : Bmap → Bmap) : Sched T C :=
  { s with rdy := Function.update s.rdy i { s.rdy i with bmap := f (s.rdy i).bmap } }

/-- The state with the ring of a priority control block changed. -/
def modPcb (s : Sched T C) (ppcb : Option C × Prio) (f : List T → List T) : Sched T C :=
  { s with
    rdy := Function.update s.rdy ppcb.1
      { s.rdy ppcb.1 with
        pcb := Function.update (s.rdy ppcb.1).pcb ppcb.2 (f ((s.rdy ppcb.1).pcb ppcb.2)) } }

/-- The ring of a priority control block. -/
def pcb (s : Sched T C) (ppcb : Option C × Prio) : List T := (s.rdy ppcb.1).pcb ppcb.2

/-- The candidate of a CPU, `LW_CAND_TCB`. -/
def cand (s : Sched T C) (c : C) : Option T := (s.cpu c).ptcbCand

/-! ## Ready rings -/

/-- `_List_Ring_Add_Ahead`. -/
def listRingAddAhead (t : T) (ring : List T) : List T := t :: ring

/-- `_List_Ring_Add_Front`. -/
def listRingAddFront (t : T) : List T → List T
  | [] => [t]
  | u :: ring => u :: t :: ring

/-- `_List_Ring_Add_Last`. -/
def listRingAddLast (t : T) (ring : List T) : List T := ring ++ [t]

/-- `_list_ring_next` for the header. -/
def listRingNext : List T → List T
  | [] => []
  | u :: ring => ring ++ [u]

variable (s : Sched T C) (t : T) (c : C)

/-- The ready table that a thread belongs to. -/
def table : Option C := if (s.tcb t).bCPULock then some (s.tcb t).ulCPULock else none

/-- `_GetPcbEx`. -/
def getPcbEx (ucPriority : Prio) : Option C × Prio := (s.table t, ucPriority)

/-- `_GetPcb`. -/
def getPcb : Option C × Prio := (s.table t, (s.tcb t).ucPriority)

/-- `_AddTCBToReadyRing`. -/
def addTcbToReadyRing (ppcb : Option C × Prio) (bIsHeader : Bool) : Sched T C :=
  if bIsHeader then s.modPcb ppcb (listRingAddAhead t)
  else if (s.tcb t).ucSchedPolicy = .fifo then s.modPcb ppcb (listRingAddLast t)
  else
    match (s.tcb t).ucSchedActivateMode with
    | .immiedia => s.modPcb ppcb (listRingAddFront t)
    | .standard => s.modPcb ppcb (listRingAddLast t)
    | .auto =>
      if (s.tcb t).ucSchedActivate = .other then s.modPcb ppcb (listRingAddLast t)
      else s.modPcb ppcb (listRingAddFront t)

/-- `_DelTCBFromReadyRing`. -/
def delTcbFromReadyRing (ppcb : Option C × Prio) : Sched T C :=
  s.modPcb ppcb fun ring => ring.erase t

/-- `_ReadyTableAdd`. -/
def readyTableAdd : Sched T C := s.modBmap (s.table t) fun b => b.bitmapAdd (s.tcb t).ucPriority

/-- `_ReadyTableDel`. -/
def readyTableDel : Sched T C := s.modBmap (s.table t) fun b => b.bitmapDel (s.tcb t).ucPriority

/-- `_PcbIsEmpty`. -/
def pcbIsEmpty (ppcb : Option C × Prio) : Bool := (s.pcb ppcb).isEmpty

/-- `_PcbIsOne`. -/
def pcbIsOne (ppcb : Option C × Prio) : Bool := (s.pcb ppcb).length == 1

/-! ## Candidates -/

/-- `_CandTableSeek`: the table and the highest priority for the CPU. -/
def candTableSeek : Option (Option C × Prio) :=
  let pcpu := s.cpu c
  let rdy := (s.rdy (some c)).bmap
  let glob := (s.rdy none).bmap
  if rdy.bitmapIsEmpty then
    if pcpu.bOnlyAffinity ∨ glob.bitmapIsEmpty then none else some (none, glob.bitmapHigh)
  else if pcpu.bOnlyAffinity ∨ glob.bitmapIsEmpty then some (some c, rdy.bitmapHigh)
  else if rdy.bitmapHigh ≤ glob.bitmapHigh then some (some c, rdy.bitmapHigh)
  else some (none, glob.bitmapHigh)

/-- `_CandTableNext`. -/
def candTableNext (ppcb : Option C × Prio) : Option (T × Sched T C) := do
  let t ← (s.pcb ppcb).head?
  if (s.tcb t).usSchedCounter = 0 then
    let s := s.modTcb t fun x => { x with usSchedCounter := x.usSchedSlice }
    let s := s.modPcb ppcb listRingNext
    let t ← (s.pcb ppcb).head?
    some (t, s)
  else some (t, s)

/-- The thread is the new candidate of the CPU. -/
def setCand : Sched T C :=
  (s.modCpu c fun x => { x with ptcbCand := some t }).modTcb t fun x =>
    { x with ulCPUId := c, bIsCand := true }

/-- A thread leaves its ready ring, and the bitmap with it if it was the last one. -/
def delFromPcb (ppcb : Option C × Prio) : Sched T C :=
  let s := s.delTcbFromReadyRing t ppcb
  if s.pcbIsEmpty ppcb then s.readyTableDel t else s

/-- `_CandTableResel`. -/
def candTableResel (ppcb : Option C × Prio) : Option (Sched T C) := do
  let (t, s) ← s.candTableNext ppcb
  some ((s.setCand t c).delFromPcb t ppcb)

/-- `_CandTableFill`, which ends as `_CandTableResel` does. With no thread to be found the source
reports a bug and reads through a null pointer. -/
def candTableFill : Option (Sched T C) := do
  let ppcb ← s.candTableSeek c
  s.candTableResel c ppcb

/-- `_CandTableEmpty`. -/
def candTableEmpty : Option (Sched T C) := do
  let t ← s.cand c
  let ppcb := s.getPcb t
  let s := s.modTcb t fun x => { x with bIsCand := false }
  let s := s.addTcbToReadyRing t ppcb true
  let s := if s.pcbIsOne ppcb then s.readyTableAdd t else s
  some (s.modCpu c fun x => { x with ptcbCand := none })

/-- Sets `LW_CAND_ROT`. -/
def candRot (bNeedRotate : Bool) : Sched T C := s.modCpu c fun x => { x with bNeedRotate }

/-- What a loop over the CPUs finds for a new ready thread: a CPU without a candidate, one that
idles, or none of both. -/
inductive Found (C : Type) where
  | empty (c : C)
  | idle (c : C)
  | none
  deriving DecidableEq, Repr

/-- The loop of `_CandTableTryAdd` over the other CPUs. -/
def tryAddIdle (ulCPUId : C) : List C → Found C
  | [] => .none
  | i :: cpus =>
    if i ≠ ulCPUId ∧ (s.cpu i).active then
      if (s.cpu i).bOnlyAffinity then tryAddIdle ulCPUId cpus
      else
        match s.cand i with
        | none => .empty i
        | some ptcbCand =>
          if ¬ (s.cpu i).bNeedRotate ∧ (s.tcb ptcbCand).ucPriority = prioLowest then .idle i
          else tryAddIdle ulCPUId cpus
    else tryAddIdle ulCPUId cpus

/-- The loop of `_CandTableTryAdd` over all CPUs. A CPU without a candidate ends it. -/
def tryAddRotate (ucPriority : Prio) : List C → Sched T C → Sched T C × Option C
  | [], s => (s, none)
  | i :: cpus, s =>
    if (s.cpu i).active then
      if (s.cpu i).bOnlyAffinity then tryAddRotate ucPriority cpus s
      else
        match s.cand i with
        | none => (s, some i)
        | some ptcbCand =>
          if ucPriority < (s.tcb ptcbCand).ucPriority then
            tryAddRotate ucPriority cpus (s.candRot i true)
          else tryAddRotate ucPriority cpus s
    else tryAddRotate ucPriority cpus s

/-- The part of `_CandTableTryAdd` for a thread that is locked to a CPU: whether it has become the
candidate. -/
def tryAddLocked : Sched T C × Bool :=
  let i := (s.tcb t).ulCPULock
  if (s.cpu i).active then
    match s.cand i with
    | none => (s.setCand t i, true)
    | some ptcbCand =>
      if (s.tcb t).ucPriority < (s.tcb ptcbCand).ucPriority then (s.candRot i true, false)
      else (s, false)
  else (s, false)

/-- What `_CandTableTryAdd` finds at the CPU on which the thread has run last. -/
def tryAddLast : Found C :=
  let i := (s.tcb t).ulCPUId
  if (s.cpu i).active ∧ ¬ (s.cpu i).bOnlyAffinity then
    match s.cand i with
    | none => .empty i
    | some ptcbCand =>
      if ¬ (s.cpu i).bNeedRotate ∧ (s.tcb ptcbCand).ucPriority = prioLowest then .idle i else .none
  else .none

/-- The part of `_CandTableTryAdd` for a thread that may run on any CPU. -/
def tryAddFree (cpus : List C) : Sched T C × Bool :=
  match s.tryAddLast t with
  | .empty i => (s.setCand t i, true)
  | .idle i => (s.candRot i true, false)
  | .none =>
    match s.tryAddIdle (s.tcb t).ulCPUId cpus with
    | .empty i => (s.setCand t i, true)
    | .idle i => (s.candRot i true, false)
    | .none =>
      match tryAddRotate (s.tcb t).ucPriority cpus s with
      | (s, some i) => (s.setCand t i, true)
      | (s, none) => (s, false)

/-- `_CandTableTryAdd`. -/
def candTableTryAdd (cpus : List C) (ppcb : Option C × Prio) : Sched T C × Bool :=
  let (s, bCand) := if (s.tcb t).bCPULock then s.tryAddLocked t else s.tryAddFree t cpus
  if bCand then (s, true) else (if s.pcbIsEmpty ppcb then s.readyTableAdd t else s, false)

/-- `_CandTableTryDel`. -/
def candTableTryDel (ppcb : Option C × Prio) : Option (Sched T C) :=
  let c := (s.tcb t).ulCPUId
  if s.cand c = some t then
    ((s.modTcb t fun x => { x with bIsCand := false }).candTableFill c).map fun s =>
      s.candRot c false
  else some (if s.pcbIsEmpty ppcb then s.readyTableDel t else s)

/-- The loop that looks for an idle CPU to notify. -/
def notifyIdle : List C → Option (Option C)
  | [] => some none
  | i :: cpus =>
    if i ≠ c ∧ (s.cpu i).active then
      if (s.cpu i).bOnlyAffinity ∨ (s.cpu i).bNeedRotate then notifyIdle cpus
      else do
        let ptcbOther ← s.cand i
        if (s.tcb ptcbOther).ucPriority = prioLowest then some (some i) else notifyIdle cpus
    else notifyIdle cpus

/-- The loop that notifies all CPUs with less urgent candidates. -/
def notifyRotate (ucPriority : Prio) : List C → Sched T C → Option (Sched T C)
  | [], s => some s
  | i :: cpus, s =>
    if i ≠ c ∧ (s.cpu i).active then
      if (s.cpu i).bOnlyAffinity then notifyRotate ucPriority cpus s
      else do
        let ptcbOther ← s.cand i
        if ucPriority < (s.tcb ptcbOther).ucPriority then
          notifyRotate ucPriority cpus (s.candRot i true)
        else notifyRotate ucPriority cpus s
    else notifyRotate ucPriority cpus s

/-- `_CandTableNotify`, and the end of `_CpuInactive`. -/
def candTableNotify (cpus : List C) : Option (Sched T C) := do
  match ← s.notifyIdle c cpus with
  | some i => some (s.candRot i true)
  | none => notifyRotate c (s.tcb t).ucPriority cpus s

/-- Whether `_CandTableUpdate` replaces the candidate. -/
def needRotate (ptcbCand : T) (ucPriority : Prio) : Bool :=
  if (s.cpu c).bOnlyAffinity ∧ ¬ (s.tcb ptcbCand).bCPULock then true
  else if (s.tcb ptcbCand).usSchedCounter = 0 then ucPriority ≤ (s.tcb ptcbCand).ucPriority
  else ucPriority < (s.tcb ptcbCand).ucPriority

/-- `_CandTableUpdate`. -/
def candTableUpdate (cpus : List C) : Option (Sched T C) :=
  if ¬ (s.cpu c).active then some s
  else
    match s.cand c with
    | none => (s.candTableFill c).map fun s => s.candRot c false
    | some ptcbCand =>
      match s.candTableSeek c with
      | none => some (s.candRot c false)
      | some ppcb =>
        if s.needRotate c ptcbCand ppcb.2 then do
          let s ← s.candTableEmpty c
          let s ← s.candTableResel c ppcb
          let s ← if s.cand c ≠ some ptcbCand ∧ ¬ (s.tcb ptcbCand).bCPULock then
            s.candTableNotify ptcbCand c cpus else some s
          some (s.candRot c false)
        else some (s.candRot c false)

/-- `_CandTableRemove`. -/
def candTableRemove : Option (Sched T C) :=
  if (s.cpu c).active then some s
  else if (s.cand c).isSome then s.candTableEmpty c
  else some s

/-! ## The operations of the scheduler -/

/-- `__ADD_TO_READY_RING`. -/
def addToReadyRing (cpus : List C) (ppcb : Option C × Prio) : Sched T C :=
  match s.candTableTryAdd t cpus ppcb with
  | (s, true) => s
  | (s, false) => s.addTcbToReadyRing t ppcb false

/-- `__DEL_FROM_READY_RING`. -/
def delFromReadyRing (ppcb : Option C × Prio) : Option (Sched T C) :=
  let s := if ¬ (s.tcb t).bIsCand then s.delTcbFromReadyRing t ppcb else s
  s.candTableTryDel t ppcb

/-- `_SchedSetPrio`. -/
def schedSetPrio (cpus : List C) (ucPriority : Prio) : Option (Sched T C) :=
  let ppcbFrom := s.getPcb t
  let ppcbTo := s.getPcbEx t ucPriority
  if (s.tcb t).ready then
    if (s.tcb t).bIsCand then
      some ((s.candRot (s.tcb t).ulCPUId true).modTcb t fun x => { x with ucPriority })
    else do
      let s ← s.delFromReadyRing t ppcbFrom
      let s := s.modTcb t fun x => { x with ucPriority }
      some (s.addToReadyRing t cpus ppcbTo)
  else some (s.modTcb t fun x => { x with ucPriority })

/-- `_CpuActive`. -/
def cpuActive (cpus : List C) : Option (Sched T C) :=
  if (s.cpu c).active then some s
  else (s.modCpu c fun x => { x with active := true }).candTableUpdate c cpus

/-- `_CpuInactive`. -/
def cpuInactive (cpus : List C) : Option (Sched T C) :=
  if ¬ (s.cpu c).active then some s
  else do
    let ptcb ← s.cand c
    let s := s.modCpu c fun x => { x with active := false }
    let s ← s.candTableRemove c
    let s := s.candRot c false
    if (s.tcb ptcb).bCPULock then some s else s.candTableNotify ptcb c cpus

/-- `_SchedTick` at one CPU, which runs the thread. -/
def schedTick : Sched T C :=
  if (s.cpu c).active ∧ (s.tcb t).ucSchedPolicy = .rr then
    if (s.tcb t).usSchedCounter = 0 then s.candRot c true
    else s.modTcb t fun x => { x with usSchedCounter := x.usSchedCounter - 1 }
  else s

/-- `_SchedYield` for a running thread. -/
def schedYield : Sched T C :=
  (s.modTcb t fun x => { x with usSchedCounter := 0 }).candRot (s.tcb t).ulCPUId true

/-- `_CpuSetSchedAffinity`. -/
def cpuSetSchedAffinity (bEnable : Bool) : Sched T C :=
  if (s.cpu c).bOnlyAffinity = bEnable then s
  else (s.modCpu c fun x => { x with bOnlyAffinity := bEnable }).candRot c true

/-- `_ThreadSetAffinity`, with the CPU that it has found in the mask. A thread that is ready here is
the one that runs. -/
def threadSetAffinity (cpus : List C) : Option C → Option (Sched T C)
  | none => some (s.modTcb t fun x => { x with bCPULock := false })
  | some i =>
    if (s.tcb t).ready then do
      let s ← s.delFromReadyRing t (s.getPcb t)
      let s := s.modTcb t fun x =>
        { x with ulCPULock := i, bCPULock := true, ucSchedActivate := .interrupt }
      some (s.addToReadyRing t cpus (s.getPcb t))
    else some (s.modTcb t fun x => { x with ulCPULock := i, bCPULock := true })

end Sched

end SylixOS.Kernel
