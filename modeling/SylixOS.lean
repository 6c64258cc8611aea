import SylixOS.Lib.Disk
import SylixOS.Lib.LittleEndian
import SylixOS.Lib.Outcome
import SylixOS.TpsFs.Trans.Crash
import SylixOS.TpsFs.Trans.AreaList
import SylixOS.Lib.RingQueue
import SylixOS.Lib.Rota
import SylixOS.Kernel.WakeupLine
import SylixOS.Kernel.PrioInherit
import SylixOS.Kernel.RwSafe
import SylixOS.Kernel.SchedSafe
import SylixOS.Kernel.SchedTurns
import SylixOS.Kernel.RoundRobin
import SylixOS.Kernel.HeapContents
import SylixOS.Kernel.HeapExtend
import SylixOS.Kernel.HeapSize
import SylixOS.Disk.Raid0
import SylixOS.Kernel.PageZone
import SylixOS.Kernel.PageZoneSafe
import SylixOS.Kernel.PageBestFit
import SylixOS.Kernel.JobQueue
import SylixOS.Kernel.EventSet
import SylixOS.RamFs.RamSafe
import SylixOS.RamFs.NameSpace
import SylixOS.RootFs.RootSpace
import SylixOS.Kernel.WorkQueue
import SylixOS.Kernel.ITimer
import SylixOS.Disk.WpThread
import SylixOS.Disk.NandRCache
import SylixOS.Net.UnixMessage
import SylixOS.Net.UnixRightsSafe
import SylixOS.Net.UnixConnectSafe
import SylixOS.Pipe.SpipeWake
import SylixOS.Pipe.SpipeWrite
import SylixOS.Device.BmsgSafe
import SylixOS.Kernel.PhyPageSafe
import SylixOS.IoLib.LockProtocol
import SylixOS.IoLib.LockRange
import SylixOS.Tree.TrieRound
import SylixOS.Net.UnixWakeSafe
import SylixOS.Shell.Pipeline
import SylixOS.Shell.IfStatement
import SylixOS.Shell.History
import SylixOS.Shell.VarSafe
import SylixOS.TpsFs.Delete
import SylixOS.TpsFs.File.Accounting
import SylixOS.TpsFs.Move
import SylixOS.TpsFs.Trans.CheckSum
import SylixOS.TpsFs.Btree.NodeBlock
import SylixOS.TpsFs.Btree.Refine
import SylixOS.Tree.TrieBest
import SylixOS.Tree.TrieEdited
import SylixOS.Shell.Quoted
import SylixOS.Shell.IfCompare
import SylixOS.Shell.SplitBuffers
import SylixOS.Shell.Completion
import SylixOS.Shell.InputLine
import SylixOS.Shell.LineEdit
import SylixOS.Shell.Suggestion
import SylixOS.Shell.Continuation
import SylixOS.Shell.VarText
import SylixOS.Disk.DiskLayout
import SylixOS.Disk.DiskCacheSync
import SylixOS.Shell.Cregex
import SylixOS.Shell.Grep
import SylixOS.Shell.GrepRegex
import SylixOS.Kernel.TimeCvt
import SylixOS.Kernel.NanoSleep
import SylixOS.IoLib.PathCondense
import SylixOS.IoLib.PathBuild
import SylixOS.Kernel.WaitOrder
import SylixOS.Device.BmsgFifo
import SylixOS.Device.RngBuffer
import SylixOS.Kernel.ListLink
import SylixOS.Net.UnixAddressSafe
