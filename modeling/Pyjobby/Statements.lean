import Pyjobby.Schema

/-! The UPDATE statements on the job table: the worker's own, the operator's and
the monitor's. Each is its WHERE clause, read in the snapshot of the statement,
and its SET list. -/

namespace Pyjobby

open Relational

structure Update where
  cond : Db → Jorb → Bool
  set : Rewrite Jorb.id

def Update.run (u : Update) (db : Db) : Db :=
  { db with jorb := db.jorb.update (u.cond db) u.set }

/-- `db.REQUEUE_CLEARS_KEYS`. -/
def Jorb.clearKeys (r : Jorb) : Jorb :=
  { r with deadlineKey := none, debounceKey := none, debounceDeadline := none }

/-- The guard of every statement a worker issues for its attempt. -/
def Jorb.attemptOf (r : Jorb) (jid epoch : Nat) : Bool :=
  r.id = jid && r.inFlight && r.runEpoch = epoch

theorem Jorb.attemptOf_iff {r : Jorb} {jid epoch : Nat} :
    r.attemptOf jid epoch ↔ r.id = jid ∧ r.inFlight ∧ r.runEpoch = epoch := by
  simp [Jorb.attemptOf, and_assoc]

/-- The statements of `STMTS` that move the worker's own job. -/
inductive WorkerStmt where
  | run (timeout : Option Int)
  | finished (result : Option Json)
  | retry (delay : Int) (message backtrace : String)
  | crashed (message backtrace : String)
  | cancelled
  | reschedule (delay : Int)

def WorkerStmt.set (now : Int) : WorkerStmt → Jorb → Jorb
  | run timeout, r =>
    { r with
      state := .running, started := some now, timeoutAt := timeout.map (now + ·), updated := now }
  | finished result, r =>
    { r with
      state := .finished, result, runEpoch := r.runEpoch + 1, finished := some now,
      timeoutAt := none, updated := now }
  | retry delay message backtrace, r =>
    { r.clearKeys with
      state := .queued, runEpoch := r.runEpoch + 1, runAfter := now + delay,
      errorMessage := some message, errorBacktrace := some backtrace,
      errorCount := r.errorCount + 1, timeoutAt := none, updated := now }
  | crashed message backtrace, r =>
    { r with
      state := .crashed, errorMessage := some message, errorBacktrace := some backtrace,
      errorCount := r.errorCount + 1, runEpoch := r.runEpoch + 1, finished := some now,
      timeoutAt := none, updated := now }
  | cancelled, r =>
    { r with
      state := .cancelled, runEpoch := r.runEpoch + 1, finished := some now,
      timeoutAt := none, updated := now }
  | reschedule delay, r =>
    { r.clearKeys with
      state := .queued, runEpoch := r.runEpoch + 1, runAfter := now + delay, updated := now }

def WorkerStmt.update (now : Int) (jid epoch : Nat) (s : WorkerStmt) : Update where
  cond _ r := r.attemptOf jid epoch
  set := ⟨s.set now, fun r => by cases s <;> rfl⟩

/-- `UPDATE .. SET state = 'queued', WAKE_CLEARS_KEYS`. -/
def Jorb.wake (now : Int) : Rewrite Jorb.id :=
  ⟨fun r => { r with state := .queued, deadlineKey := none, updated := now }, fun _ => rfl⟩

namespace Db

/-- `EXISTS (.. WHERE u.id = $1 AND u.state = 'finished')`; a dependency column
is a BIGINT of its own, not a foreign key. -/
def jobFinished (db : Db) (j : Int) : Bool :=
  db.jorb.rows.any fun u => (u.id : Int) = j && u.state = .finished

def groupExists (db : Db) (g : Int) : Bool :=
  db.jorb.rows.any fun m => m.runGroup = some g

/-- `EXISTS (.. WHERE g.run_group = $1 AND g.state != 'finished')`. -/
def groupUnfinished (db : Db) (g : Int) : Bool :=
  db.jorb.rows.any fun m => m.runGroup = some g && m.state ≠ .finished

def jobExists (db : Db) (j : Int) : Bool :=
  db.jorb.rows.any fun u => (u.id : Int) = j

theorem jobFinished_iff {db : Db} {j : Int} :
    db.jobFinished j ↔ ∃ u ∈ db.jorb, (u.id : Int) = j ∧ u.state = .finished := by
  simp [jobFinished, Serial.mem_rows]

theorem groupExists_iff {db : Db} {g : Int} :
    db.groupExists g ↔ ∃ m ∈ db.jorb, m.runGroup = some g := by
  simp [groupExists, Serial.mem_rows]

theorem groupUnfinished_eq_false {db : Db} {g : Int} :
    db.groupUnfinished g = false ↔ ∀ m ∈ db.jorb, m.runGroup = some g → m.state = .finished := by
  simp [groupUnfinished, Serial.mem_rows]

theorem jobExists_eq_false {db : Db} {j : Int} :
    db.jobExists j = false ↔ ∀ u ∈ db.jorb, (u.id : Int) ≠ j := by
  simp [jobExists, Serial.mem_rows]

theorem groupExists_eq_false {db : Db} {g : Int} :
    db.groupExists g = false ↔ ∀ m ∈ db.jorb, m.runGroup ≠ some g := by
  simp [groupExists, Serial.mem_rows]

end Db

/-- `enqueue-next-self-finished`. The subselect skips the rows others lock. -/
def enqueueNextSelfFinished (now : Int) (locked : Nat → Bool) (jid : Nat) : Update where
  cond db w := w.waitforJob = some (jid : Int) && w.state = .waiting && db.jobFinished jid &&
    !locked w.id
  set := Jorb.wake now

/-- `enqueue-next-if-peer-group-is-finished`. -/
def enqueueNextIfPeerGroupIsFinished (now : Int) (locked : Nat → Bool) (gid : Int) : Update where
  cond db w := w.waitforGroup = some gid && w.state = .waiting && !db.groupUnfinished gid &&
    !locked w.id
  set := Jorb.wake now

namespace Jorb

/-- The WHERE clause of `WAKE_WAITERS_SQL`, the ids apart. -/
def stranded (db : Db) (w : Jorb) : Bool :=
  w.state = .waiting &&
    (w.waitforJob.any db.jobFinished ||
      w.waitforGroup.any fun g => db.groupExists g && !db.groupUnfinished g)

/-- The WHERE clause of `CANCEL_UNSATISFIABLE_WAITERS_SQL`, the ids apart. -/
def unsatisfiable (db : Db) (w : Jorb) : Bool :=
  w.state = .waiting &&
    (w.waitforJob.any (fun j => !db.jobExists j) || w.waitforGroup.any fun g => !db.groupExists g)

def unsatisfiableMessage (w : Jorb) : String :=
  match w.waitforJob with
  | some j => s!"cancelled by the monitor: waitfor_job {j} does not exist"
  | none =>
    match w.waitforGroup with
    | some g => s!"cancelled by the monitor: waitfor_group {g} has no jobs"
    | none => ""

/-- The state `build_requeue_sql` sends a row to. -/
def requeueState (r : Jorb) : JorbState := if r.dependent then .waiting else .queued

end Jorb

/-- The statements of operators, clients and the monitor that edit job rows.
`batch` stands for the ids a statement names, or the ones a sweep's locking scan
reached within its LIMIT. -/
inductive SupervisorStmt where
  | requeue (batch : List Nat) (allowed : List JorbState) (delay : Int) (resetErrors : Bool)
  | cancel (batch : List Nat)
  | updatePriority (batch : List Nat) (prio : Int)
  | updateAppVersion (batch : List Nat) (version : Option String)
  | setAwaited (batch : List Nat)
  | bounce (key : String) (runAfter : Int) (kwargs : Json) (jobClass : String)
  | sweepDeadWorkerJobs (batch : List Nat) (grace : Int)
  | sweepStuckClaims (batch : List Nat) (grace : Int)
  | retryTimedOut (jid : Nat) (message : String) (delay : Int)
  | deadletterTimedOut (jid : Nat) (message : String)
  | wakeWaiters (batch : List Nat)
  | cancelUnsatisfiableWaiters (batch : List Nat)

namespace SupervisorStmt

/-- `JOIN jorb_worker w ON w.id = j.claimed_by WHERE w.last_seen < now() - $1`. -/
def claimerDead (db : Db) (now : Int) (grace : Int) (r : Jorb) : Bool :=
  db.worker.rows.any fun w => r.claimedBy = some w.id && w.lastSeen < now - grace

def cond (now : Int) : SupervisorStmt → Db → Jorb → Bool
  | requeue batch allowed _ _, _, r => r.id ∈ batch && r.state ∈ allowed
  | cancel batch, _, r => r.id ∈ batch && r.live
  | updatePriority batch _, _, r => r.id ∈ batch && r.preClaim
  | updateAppVersion batch _, _, r => r.id ∈ batch && r.preClaim
  | setAwaited batch, _, r => r.id ∈ batch && !r.awaited
  | bounce key _ _ jobClass, _, r =>
    r.debounceKey = some key && r.state = .queued && r.runCount = 0 && r.jobClass = jobClass
  | sweepDeadWorkerJobs batch grace, db, r =>
    r.id ∈ batch && r.inFlight && claimerDead db now grace r
  | sweepStuckClaims batch grace, _, r =>
    r.id ∈ batch && r.state = .claimed && r.updated < now - grace
  | retryTimedOut jid _ _, _, r => r.id = jid && r.state = .running
  | deadletterTimedOut jid _, _, r => r.id = jid && r.state = .running
  | wakeWaiters batch, db, r => r.id ∈ batch && r.stranded db
  | cancelUnsatisfiableWaiters batch, db, r => r.id ∈ batch && r.unsatisfiable db

def set (now : Int) : SupervisorStmt → Jorb → Jorb
  | requeue _ _ delay resetErrors, r =>
    { r.clearKeys with
      state := r.requeueState, runEpoch := r.runEpoch + 1, runAfter := now + delay,
      errorCount := if resetErrors then 0 else r.errorCount,
      errorMessage := if resetErrors then none else r.errorMessage,
      errorBacktrace := if resetErrors then none else r.errorBacktrace,
      result := none, finished := none, timeoutAt := none, cancelRequested := false,
      updated := now }
  | cancel _, r =>
    { r with
      state := if r.preClaim then .cancelled else r.state,
      cancelRequested := if r.inFlight then true else r.cancelRequested,
      finished := if r.preClaim then some now else r.finished, updated := now }
  | updatePriority _ prio, r => { r with prio }
  | updateAppVersion _ version, r => { r with appVersion := version }
  | setAwaited _, r => { r with awaited := true }
  | bounce _ runAfter kwargs _, r =>
    { r with
      runAfter := r.debounceDeadline.elim runAfter (min runAfter), kwargs, updated := now }
  | sweepDeadWorkerJobs _ _, r =>
    { r.clearKeys with
      state := .queued, runEpoch := r.runEpoch + 1, runAfter := now, timeoutAt := none,
      updated := now }
  | sweepStuckClaims _ _, r =>
    { r.clearKeys with
      state := .queued, runEpoch := r.runEpoch + 1, runAfter := now, timeoutAt := none,
      updated := now }
  | retryTimedOut _ message delay, r =>
    { r.clearKeys with
      state := .queued, runEpoch := r.runEpoch + 1, timeoutAt := none,
      errorCount := r.errorCount + 1, errorMessage := some message, runAfter := now + delay,
      updated := now }
  | deadletterTimedOut _ message, r =>
    { r with
      state := .crashed, runEpoch := r.runEpoch + 1, timeoutAt := none,
      errorCount := r.errorCount + 1, errorMessage := some message, finished := some now,
      updated := now }
  | wakeWaiters _, r => (Jorb.wake now).set r
  | cancelUnsatisfiableWaiters _, r =>
    { r with
      state := .cancelled, errorMessage := some r.unsatisfiableMessage, finished := some now,
      updated := now }

def update (now : Int) (s : SupervisorStmt) : Update where
  cond := s.cond now
  set := ⟨s.set now, fun r => by cases s <;> rfl⟩

end SupervisorStmt

end Pyjobby
