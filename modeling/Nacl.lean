import Nacl.ConsoleScreen
import Nacl.FontTable
import Nacl.FontBitmap
import Nacl.ExecutorRefinement
import Nacl.ExecutorTrace
import Nacl.LockExclusion
import Nacl.LockWakeup
import Nacl.SchedulerReady
import Nacl.SchedulerSleep
import Nacl.Serial
import Nacl.Cores
import Nacl.CoresSlots
import Nacl.SchedulerTasks
import Nacl.Time
import Nacl.Frames
import Nacl.FramesOnce
import Nacl.IoApic
import Nacl.IoApicRouting
import Nacl.Calibrate
import Nacl.CalibrateRuns
import Nacl.Deque
import Nacl.DequeOwner
import Nacl.DequeSteal
import Nacl.DequeThief
import Nacl.DequeConservation
import Nacl.DequeWake
import Nacl.DequeWakeKept
import Nacl.DequeWakeDrain
import Nacl.FindTask
import Nacl.Injector
import Nacl.InjectorOwners
import Nacl.InjectorRely
import Nacl.InjectorPush
import Nacl.InjectorSteal
import Nacl.InjectorDestroy
import Nacl.InjectorSteps
import Nacl.InjectorRuns
import Nacl.InjectorFifo
import Nacl.InjectorDrop
import Nacl.InjectorProgress
import Nacl.Workers
import Nacl.WorkersOwner
import Nacl.WorkersThief
import Nacl.WorkersSteps
import Nacl.WorkersDeque
import Nacl.WorkersFollow
import Nacl.WorkersLoot
import Nacl.WorkersLate
import Nacl.WorkersRuns
import Nacl.WorkersIndices
import Nacl.WorkersDrop
import Nacl.WorkersWait
