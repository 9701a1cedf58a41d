import MesiCoherence.Lib.Machine
import MesiCoherence.Lib.Locality
import MesiCoherence.Lib.Update
import MesiCoherence.Lib.AtomicMemory
import MesiCoherence.Lib.SequentialConsistency
import MesiCoherence.Lib.Interleaving
import MesiCoherence.Lib.Linearizability
import MesiCoherence.Lib.SharedObject
import MesiCoherence.Lib.RingBuffer
import MesiCoherence.Lib.RoundRobin
import MesiCoherence.Lib.Threads
import MesiCoherence.Lib.LockClient
import MesiCoherence.Lib.Progress
import MesiCoherence.Lib.Retry
import MesiCoherence.Model.Types
import MesiCoherence.Model.SnoopingBus
import MesiCoherence.Model.MesiSystem
import MesiCoherence.Model.SnoopEffect
import MesiCoherence.Model.Coherence
import MesiCoherence.Model.Operations
import MesiCoherence.Model.FlatRefinement
import MesiCoherence.Model.ReachableStates
import MesiCoherence.Model.OpEffects
import MesiCoherence.Model.AccessHistory
import MesiCoherence.Model.Conservation
import MesiCoherence.Model.VisitOrders
import MesiCoherence.Model.LineLocality
import MesiCoherence.Model.Trace
import MesiCoherence.Checker.ScChecker
import MesiCoherence.Checker.Search
import MesiCoherence.Checker.RecordedTraces
import MesiCoherence.Checker.SerialOrders
import MesiCoherence.Tso.StoreBuffer
import MesiCoherence.Tso.Effects
import MesiCoherence.Tso.FullBarrier
import MesiCoherence.Tso.Fifo
import MesiCoherence.Tso.Fence
import MesiCoherence.Tso.SameAddress
import MesiCoherence.Tso.MessagePassing
import MesiCoherence.Primitives.HazardPtr
import MesiCoherence.Primitives.HazardReclaim
import MesiCoherence.Primitives.LockFreeStack
import MesiCoherence.Primitives.StackLinearizable
import MesiCoherence.Primitives.StackProgress
import MesiCoherence.Primitives.Dut
import MesiCoherence.Primitives.AtomicCounter
import MesiCoherence.Primitives.LockFreedom
import MesiCoherence.Primitives.SpinLock
import MesiCoherence.Primitives.TicketLock
import MesiCoherence.Primitives.LockProgress
import MesiCoherence.Primitives.Barrier
import MesiCoherence.Primitives.BarrierEpisodes
import MesiCoherence.Primitives.BarrierProgress
import MesiCoherence.Primitives.Seqlock
import MesiCoherence.Primitives.SeqlockSnapshot
import MesiCoherence.Primitives.SeqlockProgress
import MesiCoherence.Rtl.L1Cache
import MesiCoherence.Rtl.MesiTop
import MesiCoherence.Rtl.Cycle
import MesiCoherence.Rtl.Exclusive
import MesiCoherence.Rtl.LastWrite
import MesiCoherence.Rtl.SequentialOrder
import MesiCoherence.Rtl.Fairness
import MesiCoherence.Rtl.Completion
import MesiCoherence.Rtl.CpuStub
import MesiCoherence.Rtl.Lockstep
import MesiCoherence.Rtl.CppSimulation
import MesiCoherence.Rtl.Counters
import MesiCoherence.Rtl.StoreBuffer
import MesiCoherence.Rtl.FifoSimulation
import MesiCoherence.Rtl.FenceCompletion
import MesiCoherence.Sim.Driver
import MesiCoherence.Sim.UseAfterFree
import MesiCoherence.Sim.Workloads
