import Uthreads.LazyQueue
import Uthreads.EventRuns
import Uthreads.ThreadLibrary
import Uthreads.SwitchSemantics
import Uthreads.CallEffects
import Uthreads.ThreadInvariant
import Uthreads.QuantumAccounting
import Uthreads.StarvationFreedom
import Uthreads.PreemptionWindows
import Uthreads.CallContract
import Uthreads.EagerScheduler
import Uthreads.ThreadConservation
import Uthreads.SchedulingSafety
import Uthreads.SleepContract
import Uthreads.SleepDuration
import Uthreads.PickSelection
import Uthreads.ThreadTable
import Uthreads.BlockedSet
import Uthreads.Commutation
import Uthreads.LocalUpdates
import Uthreads.OperationBatches
import Uthreads.ReturnPoints
import Uthreads.Progress
import Uthreads.QueueLaps
import Uthreads.RoundRobin
import Uthreads.QueueGrowth
import Uthreads.HeaderSpec
import Uthreads.HeaderRefinement
import Uthreads.IdentifierReuse
import Uthreads.IntervalTimer
import Uthreads.QuantumTimer
import Uthreads.QuantumLength
import Uthreads.BlockHeap
import Uthreads.ThreadMemory
import Uthreads.JumpBuffer
import Uthreads.RandomOperations
import Uthreads.FallibleCode
import Uthreads.Relocation
import Uthreads.Restart
import Uthreads.CallErrors
import Uthreads.LostThreads
import Uthreads.QuantumSleep
import Uthreads.Linearization
