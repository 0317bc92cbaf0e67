import KusOs.TransitionSystem
import KusOs.ThreadedList
import KusOs.Kmem
import KusOs.PageOwnership
import KusOs.Proc
import KusOs.StallProtocol
import KusOs.CStrings
import KusOs.VictimScan
import KusOs.Dispatch
import KusOs.JsonAnswer
import KusOs.Lifecycle
import KusOs.LifecycleSteps
import KusOs.SlotOwnership
import KusOs.WaitProtocol
import KusOs.StallDeadlock
import KusOs.RedoWrites
import KusOs.Log
import KusOs.LogDisk
import KusOs.LogAtomicity
import KusOs.Hoare
import KusOs.KernelThread
import KusOs.KernelPaths
import KusOs.FreeUnderLock
import KusOs.CalmPaths
import KusOs.StallUnderLock
import KusOs.Scheduler
import KusOs.SchedulerSafety
import KusOs.Pipe
import KusOs.PipeFifo
import KusOs.BufferCache
import KusOs.CacheShape
import KusOs.CacheCoherence
import KusOs.CacheRefines
import KusOs.CacheCapacity
import KusOs.FsFormat
import KusOs.InodeTable
import KusOs.InodeCoherence
import KusOs.InodeRuns
import KusOs.BlockLayer
import KusOs.OwnershipMap
import KusOs.BlockOwnership
import KusOs.FileCalls
import KusOs.DirTree
import KusOs.DirTreeInvariant
import KusOs.DirCalls
import KusOs.LinkCounts
import KusOs.NoDangling
import KusOs.FloorAverage
import KusOs.Psi
import KusOs.KillTargets
import KusOs.PsiScan
import KusOs.HelperRequest
import KusOs.TopCandidates
import KusOs.RequestText
import KusOs.StallAccounting
import KusOs.VictimRoundTrip
import KusOs.Custody
import KusOs.FileTable
import KusOs.FileRefs
import KusOs.DiskDriver
import KusOs.DiskRequests
import KusOs.LittleEndian
import KusOs.Mkfs
import KusOs.MkfsBuild
import KusOs.MkfsMain
import KusOs.MkfsKernel
import KusOs.MkfsConsistent
import KusOs.PsiConvergence
import KusOs.Console
import KusOs.ConsoleLines
import KusOs.LibraryTwins
import KusOs.Lockstep
import KusOs.Volume
import KusOs.VolumeBlocks
import KusOs.FileContent
import KusOs.ByteArrays
import KusOs.FaultingWrites
import KusOs.SharedOffset
import KusOs.IntervalCover
import KusOs.PointerRing
import KusOs.Umalloc
import KusOs.UmallocInvariant
import KusOs.UmallocCalls
import KusOs.UmallocRuns
import KusOs.UmallocKernel
import KusOs.WriteBudget
import KusOs.FileRead
import KusOs.FileNodes
import KusOs.InodeRefs
import KusOs.DirBytes
import KusOs.DirMaps
import KusOs.PathWalk
import KusOs.Reclaim
import KusOs.RootedForest
import KusOs.ProcessTree
