import Pyjobby.Cron
import Pyjobby.Lib.Run
import Pyjobby.Lib.Table
import Mathlib.Data.List.Sort

/-! Recurring schedules. Any number of schedulers poll one table of schedules, and
each due schedule is fired in a transaction of its own, which ends with the
advance of `next_run` or leaves nothing behind. -/

namespace Pyjobby

open Relational Transition

structure ScheduleRow where
  id : Nat
  cronExpr : String
  timezone : String
  enabled : Bool
  maxConcurrentJobs : Int
  jitterSeconds : Int
  backfillLimit : Int
  backpressureThreshold : Option Int
  circuitBreakerThreshold : Int
  consecutiveFailures : Int
  nextRun : Int
  lastRun : Option Int
  lastSuccess : Option Int
  lastFailure : Option Int
  runCount : Nat
  successCount : Nat
  failureCount : Nat
  skipCount : Nat

inductive ExecutionOutcome where
  | success
  | failure
  | skipped
  deriving DecidableEq

inductive SkipReason where
  | circuitBreaker
  | maxConcurrent
  | backpressure
  | duplicate
  | backfillLimit
  deriving DecidableEq

/-- `notBackfilled` is "N older missed tick(s) not backfilled (backfill_limit=L):
OLDEST .. NEWEST". -/
inductive ExecutionMessage where
  | text (s : String)
  | unevaluatable
  | notBackfilled (dropped : Nat) (limit : Int) (oldest newest : Fire)

structure ExecutionResult where
  result : ExecutionOutcome
  jobId : Option Nat
  skipReason : Option SkipReason
  errorMessage : Option ExecutionMessage
  jitterApplied : Int
  queueDepth : Option Int
  concurrentJobs : Option Int

namespace ExecutionResult

def skipped (reason : SkipReason) : ExecutionResult :=
  ⟨.skipped, none, some reason, none, 0, none, none⟩

def failure (message : ExecutionMessage) : ExecutionResult :=
  ⟨.failure, none, none, some message, 0, none, none⟩

end ExecutionResult

structure ScheduleLogRow where
  scheduleId : Nat
  scheduledTime : Int
  result : ExecutionResult

/-- How `create_scheduled_job` ends. -/
inductive EnqueueReply where
  | created (jobId : Nat)
  | duplicate
  | refused (message : String)
  | failed (message : String)

/-- What a firing finds in the job table, and the jitter it draws. -/
structure Readings where
  concurrent : Int
  depth : Int
  jitter : Int
  enqueue : EnqueueReply

namespace ScheduleRow

def recordSuccess (now : Int) (r : ScheduleRow) : ScheduleRow :=
  { r with
    runCount := r.runCount + 1, successCount := r.successCount + 1, consecutiveFailures := 0,
    lastRun := some now, lastSuccess := some now }

def recordFailure (now : Int) (r : ScheduleRow) : ScheduleRow :=
  { r with
    runCount := r.runCount + 1, failureCount := r.failureCount + 1,
    consecutiveFailures := r.consecutiveFailures + 1, lastRun := some now,
    lastFailure := some now }

def recordSkip (r : ScheduleRow) : ScheduleRow := { r with skipCount := r.skipCount + 1 }

def disable (r : ScheduleRow) : ScheduleRow := { r with enabled := false }

def disableUnevaluatable (now : Int) (r : ScheduleRow) : ScheduleRow :=
  (r.recordFailure now).disable

/-- `execute_schedule` on the schedule as it was locked: its result, and what it
writes to the row. -/
def execute (schedule : ScheduleRow) (now : Int) (allowJitter : Bool) (env : Readings)
    (row : ScheduleRow) : ExecutionResult × ScheduleRow :=
  if schedule.circuitBreakerThreshold ≤ schedule.consecutiveFailures then
    (.skipped .circuitBreaker, row.disable.recordSkip)
  else if schedule.maxConcurrentJobs ≤ env.concurrent then
    ({ ExecutionResult.skipped .maxConcurrent with concurrentJobs := some env.concurrent },
      row.recordSkip)
  else if schedule.backpressureThreshold.any (· ≤ env.depth) then
    ({ ExecutionResult.skipped .backpressure with queueDepth := some env.depth }, row.recordSkip)
  else
    let depth := if schedule.backpressureThreshold.isSome then env.depth else 0
    let jitter :=
      if allowJitter && 0 < schedule.jitterSeconds then
        max 0 (min env.jitter schedule.jitterSeconds)
      else 0
    match env.enqueue with
    | .created jobId =>
      (⟨.success, some jobId, none, none, jitter, some depth, some env.concurrent⟩,
        row.recordSuccess now)
    | .duplicate => (.skipped .duplicate, row.recordSkip)
    | .refused message =>
      (.failure (.text message), (row.recordFailure now).disableUnevaluatable now)
    | .failed message => (.failure (.text message), row.recordFailure now)

/-- The row of the one summary that stands for the ticks not backfilled. -/
def summary (schedule : ScheduleRow) (dropped : Nat) (oldest newest : Fire) : ScheduleLogRow :=
  ⟨schedule.id, oldest.instant,
    { ExecutionResult.skipped .backfillLimit with
      errorMessage := some (.notBackfilled dropped schedule.backfillLimit oldest newest) }⟩

end ScheduleRow

structure ScheduleDb where
  schedule : Serial ScheduleRow.id
  log : List ScheduleLogRow

/-- A firing transaction past its lock: the schedule as it was locked, the row and
the log rows it has written, and the `next_run` it has resolved. -/
structure Firing where
  schedule : ScheduleRow
  row : ScheduleRow
  log : List ScheduleLogRow
  nextRun : Int

inductive FiringPhase where
  | begun (sid : Nat)
  | due (f : Firing)
  | backfill (f : Firing) (ticks : List Fire) (missed : MissedRuns)
  | advance (f : Firing)
  | closing (f : Firing)

/-- `now` is the transaction's. -/
structure FiringTx where
  now : Int
  phase : FiringPhase

/-- A scheduler process: the due schedules it has still to get to, and its
transaction. -/
structure SchedulerWorker where
  pending : List Nat
  tx : Option FiringTx

/-- A transaction past its lock. -/
def FiringPhase.firing : FiringPhase → Option Firing
  | .begun _ => none
  | .due f | .backfill f _ _ | .advance f | .closing f => some f

/-- The schedule whose row the process holds locked. -/
def SchedulerWorker.locks (w : SchedulerWorker) : Option Nat :=
  (w.tx.bind fun tx => tx.phase.firing).map fun f => f.schedule.id

namespace Firing

/-- One firing: `execute_schedule` and `log_execution`. -/
def fire (f : Firing) (now : Int) (tick : Int) (allowJitter : Bool) (env : Readings) : Firing :=
  let (result, row) := f.schedule.execute now allowJitter env f.row
  { f with row, log := f.log ++ [⟨f.schedule.id, tick, result⟩] }

def summarize (f : Firing) (missed : MissedRuns) : Firing :=
  match missed.droppedWindow with
  | some (oldest, newest) =>
    { f with
      row := f.row.recordSkip,
      log := f.log ++ [f.schedule.summary missed.dropped oldest newest] }
  | none => f

def setNextRun (f : Firing) : Firing := { f with row := { f.row with nextRun := f.nextRun } }

end Firing

namespace FiringTx

variable (cron : CronLib)

/-- The schedule is locked: `calculate_next_run`, before anything is fired. -/
def resolve (now : Int) (schedule : ScheduleRow) : FiringPhase :=
  match nextCronRun cron schedule.cronExpr schedule.timezone (max now schedule.nextRun) with
  | some next => .due ⟨schedule, schedule, [], next.instant⟩
  | none =>
    .closing ⟨schedule, schedule.disableUnevaluatable now,
      [⟨schedule.id, schedule.nextRun, .failure .unevaluatable⟩], schedule.nextRun⟩

/-- The next statements of the transaction, the firing of one tick at most. -/
def go (tx : FiringTx) (env : Readings) : Option FiringTx :=
  match tx.phase with
  | .due f =>
    let f := f.fire tx.now f.schedule.nextRun true env
    if f.schedule.backfillLimit ≤ 0 then some { tx with phase := .advance f }
    else
      (missedCronRuns cron f.schedule.cronExpr f.schedule.timezone f.schedule.nextRun tx.now
        f.schedule.backfillLimit).map fun missed =>
          { tx with phase := .backfill f missed.kept.reverse missed }
  | .backfill f (tick :: ticks) missed =>
    some { tx with phase := .backfill (f.fire tx.now tick.instant false env) ticks missed }
  | .backfill f [] missed => some { tx with phase := .advance (f.summarize missed) }
  | .advance f => some { tx with phase := .closing f.setNextRun }
  | _ => none

end FiringTx

namespace ScheduleDb

def due (db : ScheduleDb) (now : Int) : List Nat :=
  ((db.schedule.rows.filter fun s => s.enabled && s.nextRun ≤ now).insertionSort
    fun s t => s.nextRun ≤ t.nextRun).map ScheduleRow.id

def commit (db : ScheduleDb) (f : Firing) : ScheduleDb where
  schedule := db.schedule.update (fun s => s.id = f.schedule.id)
    ⟨fun s => { f.row with id := s.id }, fun _ => rfl⟩
  log := db.log ++ f.log

end ScheduleDb

/-- The columns that define a schedule. -/
structure NewSchedule where
  cronExpr : String
  timezone : String
  enabled : Bool
  maxConcurrentJobs : Int
  jitterSeconds : Int
  backfillLimit : Int
  backpressureThreshold : Option Int
  circuitBreakerThreshold : Int

def NewSchedule.row (s : NewSchedule) (nextRun : Int) (id : Nat) : ScheduleRow where
  id := id
  cronExpr := s.cronExpr
  timezone := s.timezone
  enabled := s.enabled
  maxConcurrentJobs := s.maxConcurrentJobs
  jitterSeconds := s.jitterSeconds
  backfillLimit := s.backfillLimit
  backpressureThreshold := s.backpressureThreshold
  circuitBreakerThreshold := s.circuitBreakerThreshold
  consecutiveFailures := 0
  nextRun := nextRun
  lastRun := none
  lastSuccess := none
  lastFailure := none
  runCount := 0
  successCount := 0
  failureCount := 0
  skipCount := 0

/-- The database clock, the two tables, and every scheduler process. -/
structure Schedulers where
  clock : Int
  db : ScheduleDb
  workers : List SchedulerWorker

/-- `create` reads the database's clock `lag` before its INSERT takes effect.
`edit` is an operator's change of what does not define the schedule. -/
inductive ScheduleAct where
  | tick (d : Nat)
  | create (s : NewSchedule) (lag : Nat)
  | edit (sid : Nat) (enabled : Bool) (consecutiveFailures : Int)
  | poll (i : Nat)
  | begin (i : Nat)
  | lock (i : Nat)
  | go (i : Nat) (env : Readings)
  | commit (i : Nat)
  | rollback (i : Nat)
  | crash (i : Nat)

instance : Inhabited ScheduleAct := ⟨.tick 0⟩

namespace Schedulers

def init (workers : Nat) (clock : Int) : Schedulers :=
  ⟨clock, ⟨.empty 1, []⟩, .replicate workers ⟨[], none⟩⟩

/-- Some transaction holds the row of the schedule locked. -/
def locked (s : Schedulers) (sid : Nat) : Bool :=
  s.workers.any fun w => w.locks = some sid

def setWorker (s : Schedulers) (i : Nat) (w : SchedulerWorker) : Schedulers :=
  { s with workers := s.workers.set i w }

/-- `.. WHERE id = $1 AND enabled = true AND next_run <= NOW() FOR UPDATE SKIP
LOCKED`. -/
def lockDue (s : Schedulers) (now : Int) (sid : Nat) : Option ScheduleRow :=
  (s.db.schedule.find? sid).filter fun r => r.enabled && r.nextRun ≤ now && !s.locked sid

def step (cron : CronLib) (s : Schedulers) : ScheduleAct → Option Schedulers
  | .tick d => some { s with clock := s.clock + d }
  | .create n lag =>
    (nextCronRun cron n.cronExpr n.timezone (s.clock - lag)).map fun next =>
      { s with
        db := { s.db with schedule := s.db.schedule.insert (n.row next.instant) fun _ => rfl } }
  | .edit sid enabled consecutiveFailures =>
    if s.locked sid then none
    else
      let set (r : ScheduleRow) : ScheduleRow := { r with enabled, consecutiveFailures }
      some { s with
        db := { s.db with
          schedule := s.db.schedule.update (fun r => r.id = sid) ⟨set, fun _ => rfl⟩ } }
  | .poll i =>
    s.workers[i]?.bind fun w =>
      match w with
      | ⟨[], none⟩ => some (s.setWorker i ⟨s.db.due s.clock, none⟩)
      | _ => none
  | .begin i =>
    s.workers[i]?.bind fun w =>
      match w with
      | ⟨sid :: rest, none⟩ => some (s.setWorker i ⟨rest, some ⟨s.clock, .begun sid⟩⟩)
      | _ => none
  | .lock i =>
    s.workers[i]?.bind fun w =>
      match w.tx with
      | some ⟨now, .begun sid⟩ =>
        match s.lockDue now sid with
        | some schedule =>
          some (s.setWorker i { w with tx := some ⟨now, FiringTx.resolve cron now schedule⟩ })
        | none => some (s.setWorker i { w with tx := none })
      | _ => none
  | .go i env =>
    s.workers[i]?.bind fun w =>
      (w.tx.bind fun tx => tx.go cron env).map fun tx => s.setWorker i { w with tx := some tx }
  | .commit i =>
    s.workers[i]?.bind fun w =>
      match w.tx with
      | some ⟨_, .closing f⟩ =>
        some { s.setWorker i { w with tx := none } with db := s.db.commit f }
      | _ => none
  | .rollback i => s.workers[i]?.map fun w => s.setWorker i { w with tx := none }
  | .crash i => s.workers[i]?.map fun _ => s.setWorker i ⟨[], none⟩

end Schedulers

abbrev SchedulerRun (cron : CronLib) := Run (Schedulers.step cron)

end Pyjobby
