import NomadTasks.Transition.System
import NomadTasks.Transition.Log
import NomadTasks.Ownership.Exclusive
import NomadTasks.Ownership.Tally
import NomadTasks.Ownership.Conserved
import NomadTasks.Fifo.Bounded
import NomadTasks.MpmcQueue.Basic
import NomadTasks.MpmcQueue.Sequential
import NomadTasks.MpmcQueue.Safety
import NomadTasks.MpmcQueue.Failure
import NomadTasks.MpmcQueue.Alone
import NomadTasks.MpmcQueue.SignedDistance
import NomadTasks.MpmcQueue.Retries
import NomadTasks.Counter.WakeUp
import NomadTasks.Counter.ListWait
import NomadTasks.Counter.BlockingWait
import NomadTasks.Counter.Refusal
import NomadTasks.Counter.Progress
import NomadTasks.Manager.Ready
import NomadTasks.Manager.Exclusive
import NomadTasks.Manager.Handoffs
import NomadTasks.Manager.FlagLifetime
import NomadTasks.Manager.MainFiber
import NomadTasks.Manager.IoThread
import NomadTasks.Manager.Priority
import NomadTasks.Manager.CurrentFiber
import NomadTasks.Manager.Outstanding
import NomadTasks.Manager.ScheduleFails
import NomadTasks.Manager.JobStorage
import NomadTasks.Manager.Startup
import NomadTasks.Manager.Joins
import NomadTasks.Manager.SwitchBack
import NomadTasks.Manager.JobFlow
import NomadTasks.Manager.Accounted
import NomadTasks.Manager.Waiters
import NomadTasks.Manager.CounterLifetime
import NomadTasks.Thread.CurrentTls
import NomadTasks.JobSystem.Continuations
import NomadTasks.JobSystem.Delayed
import NomadTasks.JobSystem.Timed
import NomadTasks.JobSystem.Threads
