import Xkblas.Library.TransitionSystem
import Xkblas.Offload.PinQueue
import Xkblas.Offload.PinQueueProgress
import Xkblas.Offload.Request
import Xkblas.Offload.Wakeup
import Xkblas.Offload.WakeupSafety
import Xkblas.Offload.MemSync
import Xkblas.Offload.MemSyncSafety
import Xkblas.Library.Retry
import Xkblas.Library.RingBuffer
import Xkblas.Offload.Pipeline
import Xkblas.Offload.PipelineSafety
import Xkblas.Offload.IoStream
import Xkblas.Offload.IoStreamSafety
import Xkblas.Offload.StreamPushSafety
import Xkblas.Library.ListUpdate
import Xkblas.Library.AlignedBlock
import Xkblas.Library.BitMask
import Xkblas.Memory.Dsm
import Xkblas.Memory.DsmInvariant
import Xkblas.Memory.BestFit
import Xkblas.Memory.Coherence
import Xkblas.Library.Greedy
import Xkblas.Library.FirstMax
import Xkblas.Memory.Evict
import Xkblas.Memory.EvictSafety
import Xkblas.Memory.AllocateReplica
import Xkblas.Memory.AllocateReplicaSafety
import Xkblas.Memory.Eviction
import Xkblas.Memory.MemoryWriteback
import Xkblas.Memory.Source
import Xkblas.Memory.SourceLive
import Xkblas.Library.LinkedPath
import Xkblas.Library.DoublyLinked
import Xkblas.Memory.LruCache
import Xkblas.Memory.LruCacheInvariant
import Xkblas.Memory.LruCacheMoves
import Xkblas.Memory.LruCacheSweep
import Xkblas.Memory.LruCacheSafety
import Xkblas.Memory.Reclaim
import Xkblas.Memory.ReclaimSafety
import Xkblas.Library.Ownership
import Xkblas.Memory.ReplicaCallbacks
import Xkblas.Memory.ReplicaCallbacksInvariant
import Xkblas.Memory.ReplicaCallbacksSafety
import Xkblas.Library.Tiling
import Xkblas.Memory.Heap
import Xkblas.Memory.HeapLayout
import Xkblas.Memory.HeapSafety
import Xkblas.Memory.Invalidate
import Xkblas.Memory.InvalidateMachine
import Xkblas.Memory.InvalidateSafety
import Xkblas.Memory.PinCount
import Xkblas.Memory.PinCountSafety
import Xkblas.Memory.WorkBuffer
import Xkblas.Memory.WorkBufferRegister
import Xkblas.Memory.WorkBufferRuns
import Xkblas.Memory.WorkBufferSafety
import Xkblas.Library.BlockTriangular
import Xkblas.Library.ByteFile
import Xkblas.Library.ColumnMajor
import Xkblas.Library.TileRange
import Xkblas.Library.TileTriangle
import Xkblas.Library.KWayMerge
import Xkblas.Library.LeadingRun
import Xkblas.Trace.Reader
import Xkblas.Trace.Recorder
import Xkblas.Trace.RecorderInvariant
import Xkblas.Trace.RecorderSafety
import Xkblas.Trace.RecorderThreads
import Xkblas.Trace.RecorderWriters
import Xkblas.Memory.FindAccess
import Xkblas.Memory.FindAccessSafety
import Xkblas.Memory.HashMap
import Xkblas.Memory.HashMapBlocs
import Xkblas.Memory.HashMapSafety
import Xkblas.Sched.Format
import Xkblas.Sched.OwnerQueue
import Xkblas.Sched.OwnerQueueSafety
import Xkblas.Sched.SyncQueue
import Xkblas.Sched.SyncQueueSafety
import Xkblas.Blas.Kernel
import Xkblas.Blas.Task
import Xkblas.Blas.Execution
import Xkblas.Blas.Accumulate
import Xkblas.Blas.Gemm
import Xkblas.Blas.Symm
import Xkblas.Blas.Gemmt
import Xkblas.Blas.RankUpdate
import Xkblas.Blas.Panel
import Xkblas.Blas.PassedTiles
import Xkblas.Blas.Descriptors
import Xkblas.Blas.Accesses
import Xkblas.Blas.Degenerate
import Xkblas.Blas.CopyScale
import Xkblas.Blas.Bodies
import Xkblas.Blas.Replica
import Xkblas.Blas.WriteOnly
import Xkblas.Blas.Swap
import Xkblas.Blas.Trmm
import Xkblas.Blas.Trsm
import Xkblas.Library.MachineInt
import Xkblas.Library.RoundEven
import Xkblas.Library.SlotWindow
import Xkblas.Sched.FifoQueue
import Xkblas.Sched.FifoQueueSafety
import Xkblas.Sched.Frame
import Xkblas.Sched.FrameSafety
import Xkblas.Sched.Barrier
import Xkblas.Sched.FrameStack
import Xkblas.Sched.FrameStackSafety
import Xkblas.Offload.OwnRing
import Xkblas.Offload.OwnRingSafety
import Xkblas.Library.DisjointWrites
import Xkblas.Blas.Niv12Safety
import Xkblas.Blas.CopyScaleKernel
import Xkblas.Blas.Coherent
import Xkblas.Blas.CopyScaleCall
import Xkblas.Sched.SpinLock
import Xkblas.Offload.SelectStream
import Xkblas.Sched.TeamMembers
import Xkblas.Offload.CompletionIndex
import Xkblas.Offload.CompletionIndex
import Xkblas.Library.StridedCopy
import Xkblas.Memory.ViewCopy
import Xkblas.Memory.ViewCopySafety
import Xkblas.Library.PointerTable
import Xkblas.Sched.LocalityDomain
import Xkblas.Sched.LocalityDomainSafety
import Xkblas.Sched.Locality
import Xkblas.Sched.LocalitySafety
import Xkblas.Library.CondVar
import Xkblas.Sched.FifoWaiters
import Xkblas.Sched.FifoWaitersSafety
import Xkblas.Memory.PinCount
import Xkblas.Memory.PinCountSafety
import Xkblas.Library.CheckedTable
import Xkblas.Offload.Topology
import Xkblas.Offload.TopologySafety
import Xkblas.Blas.BlockCyclic
import Xkblas.Blas.BlockCyclicSafety
import Xkblas.Library.MaximalRun
import Xkblas.Trace.Parser
import Xkblas.Trace.ParserSafety
import Xkblas.Trace.ParserLists
import Xkblas.Trace.Keywords
import Xkblas.Trace.KeywordsSafety
import Xkblas.Trace.PerfCounters
import Xkblas.Trace.PerfCountersSafety
import Xkblas.Sched.DataFlow
import Xkblas.Sched.DataFlowChains
import Xkblas.Sched.DataFlowPoints
import Xkblas.Sched.DataFlowTasks
import Xkblas.Sched.DataFlowInvariant
import Xkblas.Sched.DataFlowRun
import Xkblas.Library.Inevitable
import Xkblas.Sched.DataFlowSafety
import Xkblas.Sched.DataFlowProgress
import Xkblas.Sched.DataFlowSerial
import Xkblas.Blas.KernelReads
import Xkblas.Blas.TileFlow
import Xkblas.Library.KeyedMachine
import Xkblas.Trace.Converter
import Xkblas.Trace.ConverterRuns
import Xkblas.Trace.ConverterSafety
