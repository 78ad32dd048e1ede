import NgrCore.Library.Transition
import NgrCore.Library.Simulation
import NgrCore.Library.AtomicObject
import NgrCore.Library.DirectStyle
import NgrCore.Library.Chain
import NgrCore.Library.RingCounter
import NgrCore.Library.BinaryHeap
import NgrCore.Library.HeapOrder
import NgrCore.Library.ClosingCounter
import NgrCore.Library.Stacked
import NgrCore.Library.SlotList
import NgrCore.Library.Neighbours
import NgrCore.Library.Places
import NgrCore.Library.RefCount
import NgrCore.Library.Tiling
import NgrCore.Library.Bytes
import NgrCore.Library.UniqueHandle
import NgrCore.Library.WaitsFor
import NgrCore.IoringTask
import NgrCore.TimerTask
import NgrCore.TimerHistory
import NgrCore.IntrusiveQueue
import NgrCore.IntrusiveQueue.Splice
import NgrCore.IntrusiveQueue.Lists
import NgrCore.AtomicQueue
import NgrCore.AtomicQueue.Linearizable
import NgrCore.CircularBuffer
import NgrCore.SegmentArray
import NgrCore.SegmentArray.Snapshot
import NgrCore.RemoteQueue
import NgrCore.MpscQueue
import NgrCore.MpscQueue.Consumer
import NgrCore.MpscQueue.Fifo
import NgrCore.RemoteSource
import NgrCore.RemoteSource.Ring
import NgrCore.RemoteSource.Bound
import NgrCore.RemoteSource.Batches
import NgrCore.RemoteSource.Pointers
import NgrCore.RemoteSource.Placement
import NgrCore.RemoteSource.SingleThread
import NgrCore.RoundUp
import NgrCore.SharedBlock
import NgrCore.SharedBlock.Requests
import NgrCore.LocalSource
import NgrCore.LocalSource.Blocks
import NgrCore.LocalSource.Overlap
import NgrCore.MemoryResource
import NgrCore.MemoryResource.Exhaustion
import NgrCore.MemoryResource.Placement
import NgrCore.MemoryResource.Batches
import NgrCore.MemoryResource.Alone
import NgrCore.MemoryResource.Recovery
import NgrCore.MemoryResource.Conservation
import NgrCore.MemoryResource.Exits
import NgrCore.MemoryResource.Refinement
import NgrCore.MemoryResource.Iovecs
import NgrCore.Allocator
import NgrCore.Allocator.Chunks
import NgrCore.Allocator.Push
import NgrCore.Allocator.Discipline
import NgrCore.Allocator.Growth
import NgrCore.StopSource
import NgrCore.StopSource.Invariant
import NgrCore.StopSource.Steps
import NgrCore.StopSource.ExactlyOnce
import NgrCore.StopSource.Barrier
import NgrCore.StopSource.Progress
import NgrCore.StopSource.Nesting
import NgrCore.StopSource.SelfDestruction
import NgrCore.TaskFacade
import NgrCore.TaskFrame
import NgrCore.TaskFrame.Ownership
import NgrCore.TaskFrame.Nesting
import NgrCore.TaskFrame.Refinement
import NgrCore.TaskFrame.Restore
import NgrCore.TaskPromise
import NgrCore.TaskPromise.Forward
import NgrCore.TaskResult
import NgrCore.TaskResult.Meaning
import NgrCore.TaskChain
import NgrCore.TaskChain.Propagation
import NgrCore.TaskChain.Stopped
import NgrCore.IntrusiveHeap
import NgrCore.IntrusiveHeap.Shape
import NgrCore.IntrusiveHeap.Sink
import NgrCore.IntrusiveHeap.Percolate
import NgrCore.IntrusiveHeap.Path
import NgrCore.IntrusiveHeap.Remove
import NgrCore.IntrusiveHeap.Push
import NgrCore.IntrusiveHeap.History
import NgrCore.IntrusiveHeap.Observation
import NgrCore.IntrusiveHeap.Simulation
import NgrCore.SubmissionQueue
import NgrCore.SubmissionQueue.StopMode
import NgrCore.CompletionQueue
import NgrCore.AsyncReceive
import NgrCore.AsyncReceive.Tracking
import NgrCore.Scheduler.State
import NgrCore.Scheduler.Step
import NgrCore.Scheduler.Accounting
import NgrCore.Scheduler.Rings
import NgrCore.Scheduler.Wakeup
import NgrCore.Scheduler.RemoteSubmit
import NgrCore.Scheduler.Timers
import NgrCore.Scheduler.Shutdown
import NgrCore.Scheduler.Rejection
import NgrCore.Scheduler.Progress
import NgrCore.Scheduler.Waiting
import NgrCore.Scheduler.Lifecycle
import NgrCore.Scheduler.Conservation
import NgrCore.Scheduler.Order
import NgrCore.SchedulerBase
import NgrCore.SchedulerBase.Construction
import NgrCore.SchedulerBase.Layout
import NgrCore.RemoteSource.Prepend
