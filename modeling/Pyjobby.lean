import Pyjobby.Lanes
import Pyjobby.RateLimit
import Pyjobby.Dependents
import Pyjobby.Wakeup
import Pyjobby.CancelDelivery
import Pyjobby.DagWaits
import Pyjobby.Failure
import Pyjobby.ExactlyOnce
import Pyjobby.CancelFlag
import Pyjobby.Demand
import Pyjobby.Orphans
import Pyjobby.Dedupe
import Pyjobby.Identity
import Pyjobby.Retention
import Pyjobby.Ticks
import Pyjobby.Explain
import Pyjobby.StampRace
import Pyjobby.DoneWait
import Pyjobby.Dashboard
import Pyjobby.Breaker
import Pyjobby.JobRetention
import Pyjobby.FreshRerun
import Pyjobby.MailReplay
import Pyjobby.StreamEnd
import Pyjobby.DagLevels
import Pyjobby.DagGroups
import Pyjobby.EnqueueRow
import Pyjobby.Fsm
import Pyjobby.TimeoutPolicy
import Pyjobby.Unclaimable
import Pyjobby.Rearm
import Pyjobby.RetryDelay
import Pyjobby.Script
import Pyjobby.Numbering
import Pyjobby.SequenceNumbers
import Pyjobby.StateMachine
import Pyjobby.MachineTurns
import Pyjobby.MachineCrashes
import Pyjobby.ForkResume
import Pyjobby.MissedTicks
import Pyjobby.Trail
import Pyjobby.Migrators
import Pyjobby.Overruns
import Pyjobby.JobThreads
import Pyjobby.PipelineRuns
import Pyjobby.SleepRuns
import Pyjobby.RetryBudget
import Pyjobby.ScheduleLog
