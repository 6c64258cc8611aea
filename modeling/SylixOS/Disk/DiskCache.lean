import Mathlib
import SylixOS.Lib.Reach

/-! # The disk cache

The cache has nodes for sectors of a device, in a ring from the one used last to the one not used for
longest, and in a hash table by their sectors. A write goes to a node, which is dirty then; dirty nodes
are flushed to the device in bursts of sectors that follow each other, either at once or through a
queue of messages that threads take to the device. A read that finds no node reads ahead.

Which messages have reached their end when the cache looks at the queue, which writes and reads the
device accepts and what it gives is up to the device and the threads; a write that the queue has taken
is one that the cache takes for done.
-/

namespace SylixOS.Disk

/-- `LW_DISKCACHE_ATTR`: the nodes that the memory has room for, the size of the hash table, the
longest bursts, the threads and the messages of the pipeline, and the number of values of an
`ULONG`. -/
structure CacheConf where
  ulNCacheNode : ℕ
  iHashSize : ℕ
  iMaxRBurstSector : ℕ
  iMaxWBurstSector : ℕ
  iPipeline : ℕ
  iMsgCount : ℕ
  ulMod : ℕ
  node_pos : 0 < ulNCacheNode
  node_lt : ulNCacheNode < ulMod
  rburst_pos : 0 < iMaxRBurstSector
  wburst_pos : 0 < iMaxWBurstSector
  mod_ge : 2 ^ 32 ≤ ulMod

namespace CacheConf
variable (g : CacheConf)

/-- `(ULONG)PX_ERROR`. -/
def pxError : ℕ := g.ulMod - 1

/-- The difference of two `ULONG`. -/
def ulSub (a b : ℕ) : ℕ := (a + (g.ulMod - b)) % g.ulMod

end CacheConf

/-- `LW_DISKCACHE_NODE`. -/
structure CacheNode (α : Type*) where
  ulSectorNo : ℕ
  bValid : Bool
  bDirty : Bool
  pcData : α
  u64FsKey : ℕ

/-- A write to the device, with its number. -/
structure CacheWrite (α : Type*) where
  id : ℕ
  ulStartSector : ℕ
  data : List α

/-- Whether `__diskCacheWpSteal` takes a sector from a message. -/
def CacheWrite.covers {α : Type*} (g : CacheConf) (m : CacheWrite α) (ulSectorNo : ℕ) : Bool :=
  m.ulStartSector ≤ ulSectorNo && ulSectorNo < (m.ulStartSector + m.data.length) % g.ulMod

/-- What the device and the threads do: whether the device accepts a write in one of its tries, whether
it reads without an error, what it gives for a sector then, and whether a message has come to its end
at a look at the queue. -/
structure CacheEnv (α : Type*) where
  accepts : ℕ → Bool
  readOk : ℕ → Bool
  data : ℕ → ℕ → α
  done : ℕ → ℕ → Bool

/-- `LW_DISKCACHE_CB`. `lru` begins at `DISKC_pringLruHeader`, `msgs` at `DISKCWP_plineTail`. The code
does not keep the writes that have been accepted and refused, the calls of the file system's function,
and the numbers of writes, of reads and of looks at the queue. -/
structure DiskCache (α : Type*) where
  nodes : ℕ → CacheNode α
  lru : List ℕ
  hash : ℕ → List ℕ
  ulValidCounter : ℕ
  ulDirtyCounter : ℕ
  ulEndStector : ℕ
  msgs : List (CacheWrite α)
  written : List (CacheWrite α)
  refused : List (CacheWrite α)
  fsCalls : List (ℕ × ℕ × ℕ)
  nWrite : ℕ
  nRead : ℕ
  nLook : ℕ

namespace DiskCache
variable {α : Type*} (g : CacheConf) (e : CacheEnv α) (s : DiskCache α)

/-! ## The pipeline -/

/-- Messages come to their end. -/
def complete (p : CacheWrite α → Bool) : DiskCache α :=
  { s with
    msgs := s.msgs.filter fun m => !p m
    written := s.written ++ s.msgs.filter fun m => p m && e.accepts m.id
    refused := s.refused ++ s.msgs.filter fun m => p m && !e.accepts m.id }

/-- The cache looks at the queue, which has been worked on since its last look. -/
def look : DiskCache α :=
  { s.complete e (fun m => e.done s.nLook m.id) with nLook := s.nLook + 1 }

/-- `__diskCacheWpSync`. -/
def wpSync : DiskCache α :=
  if g.iPipeline = 0 then s else s.complete e fun _ => true

/-- `__diskCacheWpGetBuffer` for a write, which waits for the oldest message if no buffer is free. -/
def wpGetBuffer : DiskCache α :=
  if g.iPipeline = 0 then s
  else
    let s := s.look e
    if s.msgs.length < g.iMsgCount then s
    else s.complete e fun m => (s.msgs.getLast?.map CacheWrite.id) == some m.id

/-- `__diskCacheWpOverlap`. -/
def wpOverlap (ulStartSector ulNSector : ℕ) : Bool :=
  s.msgs.any fun m =>
    ulStartSector < (m.ulStartSector + m.data.length) % g.ulMod &&
      m.ulStartSector ≤ (ulStartSector + ulNSector - 1) % g.ulMod

/-- `__diskCacheWpWrite`: whether it succeeds. -/
def wpWrite (ulStartSector : ℕ) (data : List α) : DiskCache α × Bool :=
  if g.iPipeline = 0 then
    let m : CacheWrite α := ⟨s.nWrite, ulStartSector, data⟩
    if e.accepts s.nWrite then
      ({ s with written := s.written ++ [m], nWrite := s.nWrite + 1 }, true)
    else ({ s with refused := s.refused ++ [m], nWrite := s.nWrite + 1 }, false)
  else
    let s := s.look e
    let s := if s.wpOverlap g ulStartSector data.length then s.wpSync g e else s
    ({ s with msgs := ⟨s.nWrite, ulStartSector, data⟩ :: s.msgs, nWrite := s.nWrite + 1 }, true)

/-- `__diskCacheWpSteal`. -/
def wpSteal (ulSectorNo : ℕ) : DiskCache α × Option α :=
  if g.iPipeline = 0 then (s, none)
  else
    let s := s.look e
    (s, (s.msgs.find? fun m => m.covers g ulSectorNo).bind fun m =>
      m.data[ulSectorNo - m.ulStartSector]?)

/-- `__diskCacheWpRead`: what the sectors hold, if there is no error. -/
def wpRead (ulStartSector ulNSector : ℕ) : DiskCache α × Option (ℕ → α) :=
  let s :=
    if g.iPipeline = 0 then s
    else
      let s := s.look e
      if s.wpOverlap g ulStartSector ulNSector then s.wpSync g e else s
  ({ s with nRead := s.nRead + 1 },
    if e.readOk s.nRead then some (e.data s.nRead) else none)

/-! ## Nodes -/

def setNode (i : ℕ) (diskn : CacheNode α) : DiskCache α :=
  { s with nodes := Function.update s.nodes i diskn }

/-- `__diskCacheMemReset`. -/
def memReset : DiskCache α :=
  { s with
    ulValidCounter := 0
    ulDirtyCounter := 0
    hash := fun _ => []
    lru := List.range g.ulNCacheNode
    nodes := fun i =>
      { s.nodes i with ulSectorNo := g.pxError, bValid := false, bDirty := false } }

/-- The place of a sector in the hash table. -/
def hashEntry (ulSectorNo : ℕ) : ℕ := ulSectorNo &&& (g.iHashSize - 1)

/-- `__diskCacheHashAdd`. -/
def hashAdd (i : ℕ) : DiskCache α :=
  let entry := hashEntry g (s.nodes i).ulSectorNo
  { s with
    hash := Function.update s.hash entry (i :: s.hash entry)
    ulValidCounter := s.ulValidCounter + 1 }

/-- `__diskCacheHashRemove`. -/
def hashRemove (i : ℕ) : DiskCache α :=
  let entry := hashEntry g (s.nodes i).ulSectorNo
  { s.setNode i { s.nodes i with ulSectorNo := g.pxError, bValid := false, bDirty := false } with
    hash := Function.update s.hash entry ((s.hash entry).erase i)
    ulValidCounter := s.ulValidCounter - 1 }

/-- `__diskCacheHashFind`. -/
def hashFind (ulSectorNo : ℕ) : Option ℕ :=
  (s.hash (hashEntry g ulSectorNo)).find? fun i => (s.nodes i).ulSectorNo == ulSectorNo

/-- A node is moved to the head of the ring. -/
def lruAhead (i : ℕ) : DiskCache α := { s with lru := i :: s.lru.erase i }

/-! ## Flushing -/

/-- `__diskCacheSortListAdd`. -/
def sortListAdd (i : ℕ) : List ℕ → List ℕ
  | [] => [i]
  | j :: l =>
    if (s.nodes i).ulSectorNo < (s.nodes j).ulSectorNo then i :: j :: l else j :: sortListAdd i l

/-- The nodes that follow the first one of a burst: the ring leads back to that one at its end. The
list is sorted, so none of the sums passes the last sector. -/
def burstMore (nodes : ℕ → CacheNode α) (ulSectorNo : ℕ) : ℕ → ℕ → List ℕ → ℕ
  | iBurstCount, room + 1, i :: l =>
    if (nodes i).ulSectorNo ≠ ulSectorNo + iBurstCount then iBurstCount
    else burstMore nodes ulSectorNo (iBurstCount + 1) room l
  | iBurstCount, _, _ => iBurstCount

/-- One of the sectors that `__diskCacheFlushList` has written. -/
def flushNode (bMakeInvalidate : Bool) (i : ℕ) : DiskCache α :=
  let s := s.setNode i { s.nodes i with bDirty := false }
  let s := if bMakeInvalidate then s.hashRemove g i else s
  { s with lru := s.lru ++ [i] }

/-- The sectors of a burst that `__diskCacheFlushList` has written. -/
def flushNodes (bMakeInvalidate : Bool) : DiskCache α → List ℕ → DiskCache α
  | s, [] => s
  | s, i :: burst => flushNodes bMakeInvalidate (s.flushNode g bMakeInvalidate i) burst

/-- One turn of `__diskCacheFlushList`, for a burst that starts with a node: whether it is written. -/
def flushBurst (i : ℕ) (burst : List ℕ) (bMakeInvalidate : Bool) : DiskCache α × Bool :=
  let diskn := s.nodes i
  let data := burst.map fun j => (s.nodes j).pcData
  let s := s.wpGetBuffer g e
  let (s, bOk) := s.wpWrite g e diskn.ulSectorNo data
  let s :=
    if bOk then
      { s with fsCalls := s.fsCalls ++ [(diskn.u64FsKey, diskn.ulSectorNo, burst.length)] }
    else s
  let s := flushNodes g (bMakeInvalidate || !bOk) s burst
  ({ s with ulDirtyCounter := s.ulDirtyCounter - burst.length }, bOk)

/-- `__diskCacheFlushList`: whether there has been no error. Each turn takes a burst off the list. -/
def flushList : ℕ → DiskCache α → List ℕ → Bool → DiskCache α × Bool
  | n + 1, s, i :: l, bMakeInvalidate =>
    let iBurstCount := burstMore s.nodes (s.nodes i).ulSectorNo 1 (g.iMaxWBurstSector - 1) l
    let burst := (i :: l).take iBurstCount
    let (s, bOk) := s.flushBurst g e i burst bMakeInvalidate
    let (s, bAll) := flushList n s ((i :: l).drop iBurstCount) (bMakeInvalidate || !bOk)
    (s, bOk && bAll)
  | _, s, _, _ => (s, true)

/-- A node goes from the ring to the list that is to be flushed. -/
def takeNode (i : ℕ) (flush : List ℕ) : DiskCache α × List ℕ :=
  ({ s with lru := s.lru.erase i }, s.sortListAdd i flush)

/-- What `__diskCacheFlushInvRange` and its siblings do with a node: whether it counts. -/
def flushVisit (bMakeFlush bMakeInvalidate : Bool) (i : ℕ) (flush : List ℕ) :
    (DiskCache α × List ℕ) × Bool :=
  if (s.nodes i).bDirty then
    (if bMakeFlush then s.takeNode i flush else (s, flush), true)
  else if (s.nodes i).bValid && bMakeInvalidate then ((s.hashRemove g i, flush), true)
  else ((s, flush), false)

/-- The list is flushed, if there is one. -/
def flushEnd (x : DiskCache α × List ℕ) (bMakeInvalidate : Bool) : DiskCache α × Bool :=
  flushList g e x.2.length x.1 x.2 bMakeInvalidate

/-- The loop of `__diskCacheFlushInvRange`. -/
def rangeLoop (ulStartSector ulEndSector : ℕ) (bMakeFlush bMakeInvalidate : Bool) :
    List ℕ → DiskCache α × List ℕ → DiskCache α × List ℕ
  | [], x => x
  | i :: is, (s, flush) =>
    if ulEndSector < (s.nodes i).ulSectorNo ∨ (s.nodes i).ulSectorNo < ulStartSector then
      rangeLoop ulStartSector ulEndSector bMakeFlush bMakeInvalidate is (s, flush)
    else
      rangeLoop ulStartSector ulEndSector bMakeFlush bMakeInvalidate is
        (s.flushVisit g bMakeFlush bMakeInvalidate i flush).1

/-- `__diskCacheFlushInvRange`. -/
def flushInvRange (ulStartSector ulEndSector : ℕ) (bMakeFlush bMakeInvalidate : Bool) :
    DiskCache α × Bool :=
  flushEnd g e (rangeLoop g ulStartSector ulEndSector bMakeFlush bMakeInvalidate s.lru.reverse (s, []))
    bMakeInvalidate

/-- The loop of `__diskCacheFlushInvMeta`, from a turn on. -/
def metaLoop (ulEndSector : ℕ) (bMakeFlush bMakeInvalidate : Bool) :
    ℕ → ℕ → DiskCache α × List ℕ → DiskCache α × List ℕ
  | _, 0, x => x
  | i, n + 1, (s, flush) =>
    match s.hashFind g (g.ulSub ulEndSector i) with
    | none => metaLoop ulEndSector bMakeFlush bMakeInvalidate (i + 1) n (s, flush)
    | some diskn =>
      metaLoop ulEndSector bMakeFlush bMakeInvalidate (i + 1) n
        (s.flushVisit g bMakeFlush bMakeInvalidate diskn flush).1

/-- `__diskCacheFlushInvMeta`. -/
def flushInvMeta (ulStartSector ulEndSector : ℕ) (bMakeFlush bMakeInvalidate : Bool) :
    DiskCache α × Bool :=
  let ulCnt := (g.ulSub ulEndSector ulStartSector + 1) % g.ulMod
  if 32 < ulCnt then s.flushInvRange g e ulStartSector ulEndSector bMakeFlush bMakeInvalidate
  else
    flushEnd g e (metaLoop g ulEndSector bMakeFlush bMakeInvalidate 0 ulCnt (s, [])) bMakeInvalidate

/-- The loop of `__diskCacheFlushInvCnt`. -/
def cntLoop (bMakeFlush bMakeInvalidate : Bool) :
    List ℕ → ℕ → DiskCache α × List ℕ → DiskCache α × List ℕ
  | i :: is, n + 1, (s, flush) =>
    let (x, bCount) := s.flushVisit g bMakeFlush bMakeInvalidate i flush
    cntLoop bMakeFlush bMakeInvalidate is (if bCount then n else n + 1) x
  | _, _, x => x

/-- `__diskCacheFlushInvCnt`. -/
def flushInvCnt (iLruSectorNum : ℤ) (bMakeFlush bMakeInvalidate : Bool) : DiskCache α × Bool :=
  if iLruSectorNum < 1 then (s, true)
  else
    flushEnd g e (cntLoop g bMakeFlush bMakeInvalidate s.lru.reverse
      (min iLruSectorNum.toNat s.ulDirtyCounter) (s, [])) bMakeInvalidate

/-! ## Reading and writing -/

/-- `__diskCacheNodeAlloc` from `__check_again` on: the node that is clean and not used for longest.
The head of the ring is looked at last. The bound is on the flushes that find no node clean after
them. -/
def nodeSearch : ℕ → DiskCache α → Option (DiskCache α × ℕ)
  | n, s =>
    match s.lru.reverse.find? fun i => !(s.nodes i).bDirty with
    | some i => some (s, i)
    | none =>
      match n with
      | 0 => none
      | n + 1 => nodeSearch n (s.flushInvCnt g e g.iMaxWBurstSector true false).1

/-- `__diskCacheNodeAlloc` up to the node that it takes. -/
def nodeChoose : Option (DiskCache α × ℕ) :=
  if g.ulNCacheNode = s.ulDirtyCounter then
    match s.lru.head? with
    | none => none
    | some i =>
      if (s.nodes i).bDirty then
        nodeSearch g e g.ulNCacheNode (s.flushInvCnt g e g.iMaxWBurstSector true false).1
      else some (s, i)
  else nodeSearch g e g.ulNCacheNode s

/-- The node comes to be one of another sector. -/
def nodeTake (i ulSectorNo : ℕ) : DiskCache α :=
  let s := if (s.nodes i).bValid then s.hashRemove g i else s
  let s := s.setNode i { s.nodes i with ulSectorNo, bValid := true }
  s.hashAdd g i

/-- `__diskCacheNodeAlloc`. -/
def nodeAlloc (ulSectorNo : ℕ) : Option (DiskCache α × ℕ) :=
  (s.nodeChoose g e).map fun (s, i) => (s.nodeTake g i ulSectorNo, i)

/-- A node gets the data of its sector. -/
def setData (i : ℕ) (pcData : α) : DiskCache α := s.setNode i { s.nodes i with pcData }

/-- The loop of `__diskCacheNodeRead` over the sectors behind the first one. -/
def readMore (buffer : ℕ → α) : ℕ → ℕ → DiskCache α → Option (DiskCache α)
  | _, 0, s => some s
  | ulSectorNo, n + 1, s =>
    match s.hashFind g ulSectorNo with
    | some _ => readMore buffer ((ulSectorNo + 1) % g.ulMod) n s
    | none =>
      match s.nodeAlloc g e ulSectorNo with
      | none => none
      | some (s, i) =>
        readMore buffer ((ulSectorNo + 1) % g.ulMod) n
          ((s.setData i (buffer ulSectorNo)).lruAhead i)

/-- `iNSector` of `__diskCacheNodeRead`. -/
def readCount (ulSectorNo : ℕ) : ℕ :=
  min (min g.iMaxRBurstSector (g.ulSub g.ulNCacheNode s.ulDirtyCounter))
    (g.ulSub s.ulEndStector ulSectorNo)

/-- `__diskCacheNodeRead`: whether there is no error. -/
def nodeRead (i : ℕ) : Option (DiskCache α × Bool) :=
  let ulStartSector := (s.nodes i).ulSectorNo
  match s.wpSteal g e ulStartSector with
  | (s, some pcData) => some (s.setData i pcData, true)
  | (s, none) =>
    let iNSector := s.readCount g ulStartSector
    if iNSector = 0 then some (s, false)
    else
      match s.wpRead g e ulStartSector iNSector with
      | (s, none) => some (s, false)
      | (s, some buffer) =>
        (readMore g e buffer ((ulStartSector + 1) % g.ulMod) (iNSector - 1)
          ((s.setData i (buffer ulStartSector)).lruAhead i)).map fun s => (s, true)

/-- A node is marked as dirty. -/
def setDirty (i : ℕ) : DiskCache α :=
  if (s.nodes i).bDirty then s
  else
    { s.setNode i { s.nodes i with bDirty := true } with ulDirtyCounter := s.ulDirtyCounter + 1 }

/-- `__diskCacheNodeGet`: the node, if there is no error. -/
def nodeGet (ulSectorNo : ℕ) (bIsRead : Bool) : Option (DiskCache α × Option ℕ) :=
  match s.hashFind g ulSectorNo with
  | some i => some ((if bIsRead then s else s.setDirty i).lruAhead i, some i)
  | none =>
    match s.nodeAlloc g e ulSectorNo with
    | none => none
    | some (s, i) =>
      if bIsRead then
        (s.nodeRead g e i).map fun (s, bOk) =>
          if bOk then (s.lruAhead i, some i) else (s.hashRemove g i, none)
      else some ((s.setDirty i).lruAhead i, some i)

/-- `__diskCacheRead`: what has been read, and whether there is no error. -/
def diskCacheRead : ℕ → ℕ → DiskCache α → Option (DiskCache α × List α × Bool)
  | _, 0, s => some (s, [], true)
  | ulStartSector, n + 1, s =>
    match s.nodeGet g e ulStartSector true with
    | none => none
    | some (s, none) => some (s, [], false)
    | some (s, some i) =>
      (diskCacheRead ((ulStartSector + 1) % g.ulMod) n s).map fun (s', data, bOk) =>
        (s', (s.nodes i).pcData :: data, bOk)

/-- `__diskCacheWrite`: whether there is no error. -/
def diskCacheWrite (u64FsKey : ℕ) : ℕ → List α → DiskCache α → Option (DiskCache α × Bool)
  | _, [], s => some (s, true)
  | ulStartSector, pcData :: data, s =>
    match s.nodeGet g e ulStartSector false with
    | none => none
    | some (s, none) => some (s, false)
    | some (s, some i) =>
      let s := s.setDirty i
      let s := s.setNode i { s.nodes i with pcData, u64FsKey }
      diskCacheWrite u64FsKey ((ulStartSector + 1) % g.ulMod) data s

/-! ## Control -/

/-- The commands of `__diskCacheIoctl`, apart from those that only set or get an option. The device
has its own answer to a command that the cache does not know, and the number of its sectors. -/
inductive IoctlCmd
  | invalid
  | ramflush (lArg : ℤ)
  | sync
  | trim (ulStartSector ulEndSector : ℕ)
  | unmount
  | diskInit (ulNDiskSector : ℕ) (iError : ℤ)
  | other (iError : ℤ)

/-- `__diskCacheIoctl`: `FIODATASYNC` and `FIOFLUSH` are as `FIOSYNC`, `FIOSYNCMETA` as `FIOTRIM`, and
`FIODISKCHANGE` as `FIOUNMOUNT`. -/
def diskCacheIoctl : IoctlCmd → DiskCache α × ℤ
  | .invalid => ((s.flushInvRange g e 0 g.pxError true true).1, 0)
  | .ramflush lArg => ((s.flushInvCnt g e lArg true false).1, 0)
  | .sync => ((s.flushInvRange g e 0 g.pxError true false).1.wpSync g e, 0)
  | .trim ulStartSector ulEndSector =>
    ((s.flushInvMeta g e ulStartSector ulEndSector true false).1.wpSync g e, 0)
  | .unmount => ((s.wpSync g e).memReset g, 0)
  | .diskInit ulNDiskSector iError =>
    ({ s with ulEndStector := g.ulSub ulNDiskSector 1 }, iError)
  | .other iError => (s, iError)

/-- The calls of a cache. -/
inductive CacheOp (α : Type*)
  | read (ulStartSector ulSectorCount : ℕ)
  | write (ulStartSector : ℕ) (data : List α) (u64FsKey : ℕ)
  | ioctl (cmd : IoctlCmd)

def step : CacheOp α → Option (DiskCache α)
  | .read ulStartSector ulSectorCount =>
    (diskCacheRead g e ulStartSector ulSectorCount s).map Prod.fst
  | .write ulStartSector data u64FsKey =>
    (diskCacheWrite g e u64FsKey ulStartSector data s).map Prod.fst
  | .ioctl cmd => some (s.diskCacheIoctl g e cmd).1

/-- A cache that has just been made. -/
def Init : Prop :=
  s.memReset g = s ∧ s.ulEndStector = g.pxError ∧ s.msgs = [] ∧ s.written = [] ∧ s.refused = [] ∧
    s.fsCalls = [] ∧ s.nWrite = 0 ∧ s.nRead = 0 ∧ s.nLook = 0

end DiskCache

end SylixOS.Disk
