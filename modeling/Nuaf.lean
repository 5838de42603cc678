import Nuaf.Library.ByteMemory
import Nuaf.Library.LinkedStack
import Nuaf.Library.Outcomes
import Nuaf.Library.Simulation
import Nuaf.Library.Trace
import Nuaf.Layout
import Nuaf.Machine
import Nuaf.AllocatorSource
import Nuaf.SourceSteps
import Nuaf.CanonicalLayout
import Nuaf.HeapInvariant
import Nuaf.HeapOperations
import Nuaf.LargeOperations
import Nuaf.Allocation
import Nuaf.Deallocation
import Nuaf.Sequential
import Nuaf.AddressTest
import Nuaf.ByteArrays
import Nuaf.FreelistStacks
import Nuaf.InteriorPointers
import Nuaf.NoUseAfterFree
import Nuaf.RetryDamage
import Nuaf.RetryExit
import Nuaf.Effects
import Nuaf.LargeLayout
import Nuaf.Census
import Nuaf.SmallPointers
import Nuaf.Capacity
import Nuaf.PageTable
import Nuaf.ClassIsolation
import Nuaf.FullFile
import Nuaf.BackingFile
import Nuaf.Foretold
import Nuaf.Feasible
import Nuaf.Library.CallTree
import Nuaf.Library.ByteHeap
import Nuaf.WrapperSource
import Nuaf.WrapperRequests
import Nuaf.WrapperCalls
import Nuaf.AlignedCalls
import Nuaf.UsableExtent
import Nuaf.LocalHeap
import Nuaf.ExportedCalls
import Nuaf.Requests
import Nuaf.ExportedHeap
import Nuaf.Sessions
import Nuaf.AlignedHeap
import Nuaf.AlignedSessions
import Nuaf.Threads
import Nuaf.ThreadInvariant
import Nuaf.DoubleFree
import Nuaf.Lifetimes
import Nuaf.Progress
import Nuaf.SharedHeap
import Nuaf.Linearization
import Nuaf.ThreadsForetold
import Nuaf.Clients
import Nuaf.ClientHeaps
import Nuaf.ClientRuns
import Nuaf.Footprint
import Nuaf.Processes
import Nuaf.Library.LockOrder
import Nuaf.Library.OwnerTable
import Nuaf.Locks
import Nuaf.LockDiscipline
import Nuaf.Library.LocalSections
import Nuaf.Accesses
import Nuaf.RegionBodies
import Nuaf.LockedThreads
import Nuaf.RegionEnds
import Nuaf.OpenSteps
import Nuaf.RegionSteps
import Nuaf.Settling
import Nuaf.RegionAtomicity
