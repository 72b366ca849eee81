import Pyjobby.Claim
import Pyjobby.Durable
import Pyjobby.Statements
import Pyjobby.Lib.Run
import Mathlib.Logic.Function.Basic

/-! The system as a step relation. Workers, operators and the monitor issue SQL
statements against one database, in any order; a claim and a compaction are
transactions of several statements, with other statements in between. -/

namespace Pyjobby

open Relational

/-- How far a claim transaction has come. -/
inductive ClaimPhase where
  | waiting
  | locked
  | capped (full : Lanes)
  | admitting (blocked : Lanes)
  | picked (jid : Nat)

/-- A claim transaction: its `now()` is the moment it began, `control` the
queue's control row as it read it. -/
structure ClaimTx where
  args : ClaimArgs
  control : Option QueueRow
  now : Int
  phase : ClaimPhase

def ClaimTx.row (c : ClaimTx) : Option Nat :=
  match c.phase with
  | .picked jid => some jid
  | _ => none

def ClaimTx.queueLock (c : ClaimTx) : Option String :=
  match c.phase with
  | .waiting => none
  | _ => if c.control.any QueueRow.controlled then some c.args.queue else none

inductive TxBody where
  | claim (c : ClaimTx)
  | compact (jid epoch : Nat)

/-- An open transaction of several statements, and the session it runs on. -/
structure Tx where
  session : Nat
  body : TxBody

namespace Tx

def row (t : Tx) : Option Nat :=
  match t.body with
  | .claim c => c.row
  | .compact jid _ => some jid

def queueLock (t : Tx) : Option String :=
  match t.body with
  | .claim c => c.queueLock
  | .compact _ _ => none

end Tx

structure Admission where
  jid : Nat
  queue : String
  lane : Option String
  at_ : Int

/-- `execs` are the rows claims have returned to workers: an execution acts on
the id and the epoch of its row for as long as it likes. `wakes` are the rows of
jobs some worker has finished, whose dependents it goes on to wake. `log` is a
history of the claims committed so far. -/
structure World where
  db : Db
  clock : Int
  queue : String → Option QueueRow
  txs : Table Tx.session
  execs : List Jorb
  wakes : List Jorb
  log : List Admission

/-- The columns an enqueue fills. -/
structure NewJob where
  queue : String
  capability : Option String
  appVersion : Option String
  prio : Int
  jobClass : String
  kwargs : Json
  adminData : Json
  runGroup : Option Int
  waitforGroup : Option Int
  waitforJob : Option Int
  deadlineKey : Option String
  identityKey : Option String
  debounceKey : Option String
  debounceDeadline : Option Int
  partitionKey : Option String
  runAfter : Int

/-- Python's truth of an `int | None`: 0 counts as not given. -/
def truthy (dep : Option Int) : Bool := dep.any (· ≠ 0)

theorem isSome_of_truthy {dep : Option Int} (h : truthy dep) : dep.isSome := by
  cases dep with
  | none => cases h
  | some => rfl

/-- `waitfor_job or waitfor_group` -/
def NewJob.dependent (j : NewJob) : Bool := truthy j.waitforJob || truthy j.waitforGroup

/-- The inserted row: `waiting` exactly when it was given a dependency. -/
def NewJob.row (j : NewJob) (now : Int) (id : Nat) : Jorb where
  id := id
  queue := j.queue
  capability := j.capability
  appVersion := j.appVersion
  prio := j.prio
  state := if j.dependent then .waiting else .queued
  jobClass := j.jobClass
  kwargs := j.kwargs
  adminData := j.adminData
  result := none
  runGroup := j.runGroup
  waitforGroup := j.waitforGroup
  waitforJob := j.waitforJob
  deadlineKey := j.deadlineKey
  identityKey := j.identityKey
  debounceKey := j.debounceKey
  debounceDeadline := j.debounceDeadline
  partitionKey := j.partitionKey
  runCount := 0
  errorCount := 0
  errorMessage := none
  errorBacktrace := none
  runEpoch := 0
  cancelRequested := false
  awaited := false
  claimedBy := none
  workerPid := none
  workerHost := none
  updated := now
  runAfter := j.runAfter
  claimedAt := none
  started := none
  finished := none
  timeoutAt := none

def NewJob.plain (queue : String) : NewJob where
  queue := queue
  capability := none
  appVersion := none
  prio := 100
  jobClass := "job.task"
  kwargs := .obj []
  adminData := .obj []
  runGroup := none
  waitforGroup := none
  waitforJob := none
  deadlineKey := none
  identityKey := none
  debounceKey := none
  debounceDeadline := none
  partitionKey := none
  runAfter := 0

def ClaimArgs.plain (queue : String) : ClaimArgs := ⟨queue, [], 1000, none, 1, "localhost", none⟩

namespace Db

/-- The two rows cannot both stand in one of the partial unique indexes. -/
def keysCollide (a b : Jorb) : Bool :=
  (a.deadlineKey.isSome && a.deadlineKey = b.deadlineKey && a.queue = b.queue &&
      a.state = .queued && b.state = .queued) ||
    (a.identityKey.isSome && a.identityKey = b.identityKey) ||
    (a.debounceKey.isSome && a.debounceKey = b.debounceKey && a.state = .queued &&
      b.state = .queued && a.runCount = 0 && b.runCount = 0)

def enqueue (db : Db) (now : Int) (j : NewJob) : Option Db :=
  if db.jorb.rows.any (keysCollide (j.row now db.jorb.next)) then none
  else some { db with jorb := db.jorb.insert (j.row now) fun _ => rfl }

/-- `DELETE FROM jorb`, with what `ON DELETE CASCADE` takes along. -/
def deleteJobs (db : Db) (ids : List Nat) : Db :=
  { db with
    jorb := db.jorb.delete fun r => r.id ∈ ids
    step := db.step.delete fun s => s.jobId ∈ ids
    event := db.event.delete fun e => e.jobId ∈ ids
    mailbox := db.mailbox.delete fun m => m.destJobId ∈ ids
    stream := db.stream.delete fun s => s.jobId ∈ ids }

/-- `WORKER_REGISTER_SQL`: what the worker will accept is published with it. -/
def registerWorker (db : Db) (now : Int) (a : ClaimArgs) : Db :=
  let mk (i : Nat) : WorkerRow :=
    { id := i, host := a.workerHost, pid := a.workerPid, queue := a.queue,
      capabilities := a.capabilities, maxPrio := a.maxPrio, appVersion := a.appVersion,
      lastSeen := now, shutdownAt := none, idle := false }
  { db with worker := db.worker.insert mk fun _ => rfl }

def heartbeat (db : Db) (now : Int) (wid : Nat) : Db :=
  { db with
    worker := db.worker.update (fun w => w.id = wid)
      ⟨fun w => { w with lastSeen := now }, fun _ => rfl⟩ }

end Db

inductive Act where
  | tick (d : Nat)
  | setQueue (q : QueueRow)
  | registerWorker (args : ClaimArgs)
  | heartbeat (wid : Nat)
  | enqueue (job : NewJob)
  | delete (batch : List Nat)
  | supervise (s : SupervisorStmt)
  | rerunFresh (jid : Nat) (allowed : List JorbState) (delay : Int) (resetErrors : Bool)
  | worker (i : Nat) (s : WorkerStmt)
  | durable (i : Nat) (s : DurableStmt)
  | wakeSelf (i : Nat)
  | wakeGroup (i : Nat)
  | compactFence (session i : Nat)
  | compactSteps (session : Nat)
  | claimBegin (session : Nat) (args : ClaimArgs)
  | claimLock (session : Nat)
  | claimCapInFlight (session : Nat)
  | claimCapRate (session : Nat)
  | claimPick (session : Nat) (busy : List Nat) (scan : List Nat)
  | claimCommit (session : Nat) (ack : Bool)
  | rollback (session : Nat)

instance : Inhabited Act := ⟨.tick 0⟩

def Act.claim (session : Nat) (args : ClaimArgs) : List Act :=
  [.claimBegin session args, .claimPick session [] [], .claimCommit session true]

def Act.controlledClaim (session : Nat) (args : ClaimArgs) : List Act :=
  [.claimBegin session args, .claimLock session, .claimCapInFlight session, .claimCapRate session,
    .claimPick session [] [], .claimCommit session true]

namespace World

def init (db : Db) (clock : Int) (queue : String → Option QueueRow) : World where
  db := db
  clock := clock
  queue := queue
  txs := .empty
  execs := []
  wakes := []
  log := []

def locked (w : World) (jid : Nat) : Bool := w.txs.rows.any fun t => t.row = some jid

def queueLocked (w : World) (queue : String) : Bool :=
  w.txs.rows.any fun t => t.queueLock = some queue

/-- An UPDATE or DELETE would have to wait for another transaction's row lock. -/
def blocks (w : World) (p : Jorb → Bool) : Bool :=
  w.db.jorb.rows.any fun r => p r && w.locked r.id

def update (w : World) (u : Update) : Option World :=
  if w.blocks (u.cond w.db) then none else some { w with db := u.run w.db }

def claimTx (w : World) (session : Nat) : Option ClaimTx :=
  (w.txs.find? session).bind fun t =>
    match t.body with
    | .claim c => some c
    | .compact _ _ => none

def openTx (w : World) (t : Tx) : World :=
  { w with txs := w.txs.put t }

def closeTx (w : World) (session : Nat) : World :=
  { w with txs := w.txs.delete fun t => t.session = session }

def setPhase (w : World) (session : Nat) (c : ClaimTx) (phase : ClaimPhase) : World :=
  w.openTx ⟨session, .claim { c with phase }⟩

/-- Goes on without the lanes a check found saturated, or returns no row. -/
def afterCheck (w : World) (session : Nat) (c : ClaimTx) (lanes : Option Lanes)
    (phase : Lanes → ClaimPhase) : World :=
  match lanes with
  | none => w.closeTx session
  | some l => w.setPhase session c (phase l)

/-- `SELECT * INTO q`, the pause check, and whether the claim needs the lock. -/
def claimBegin (w : World) (session : Nat) (args : ClaimArgs) : World :=
  let control := w.queue args.queue
  if control.any QueueRow.paused then w
  else
    w.openTx ⟨session, .claim
      { args, control, now := w.clock,
        phase := if control.any QueueRow.controlled then .waiting else .admitting .none }⟩

def claimLock (w : World) (session : Nat) (c : ClaimTx) : Option World :=
  match c.phase with
  | .waiting =>
    if w.queueLocked c.args.queue then none else some (w.setPhase session c .locked)
  | _ => none

def claimCapInFlight (w : World) (session : Nat) (c : ClaimTx) : Option World :=
  match c.phase, c.control with
  | .locked, some q =>
    some (w.afterCheck session c (q.capInFlight w.db c.args.queue) .capped)
  | _, _ => none

def claimCapRate (w : World) (session : Nat) (c : ClaimTx) : Option World :=
  match c.phase, c.control with
  | .capped full, some q =>
    some (w.afterCheck session c (q.capRate w.db c.args.queue c.now) fun rated =>
      .admitting (full.union rated))
  | _, _ => none

/-- The claiming UPDATE, not committed yet. Rows other sessions hold locked are
skipped: those of open transactions, and any that `busy` names. -/
def claimPick (w : World) (session : Nat) (c : ClaimTx) (busy scan : List Nat) : Option World :=
  match c.phase with
  | .admitting blocked =>
    let skip (i : Nat) : Bool := w.locked i || i ∈ busy
    match w.db.firstClaimable c.args c.now blocked skip (scan.idxOf ·) with
    | none => some (w.closeTx session)
    | some j => some (w.setPhase session c (.picked j.id))
  | _ => none

/-- The commit of a claim. Without `ack` its outcome never reaches the worker. -/
def claimCommit (w : World) (session : Nat) (c : ClaimTx) (ack : Bool) : Option World :=
  match c.phase with
  | .picked jid =>
    (w.db.jorb.find? jid).map fun r =>
      let row := (c.args.claimed c.now).set r
      { w.closeTx session with
        db := { w.db with jorb := w.db.jorb.update (fun r => r.id = jid) (c.args.claimed c.now) }
        execs := if ack then w.execs ++ [row] else w.execs
        log := w.log ++ [⟨jid, row.queue, row.partitionKey, c.now⟩] }
  | _ => none

/-- A worker statement of execution `e`. A `finished` that matched its row
leaves the worker to wake the dependents. -/
def worker (w : World) (e : Jorb) (s : WorkerStmt) : Option World :=
  let u := s.update w.clock e.id e.runEpoch
  (w.update u).map fun w' =>
    match s with
    | .finished _ =>
      if w.db.jorb.rows.any (u.cond w.db) then { w' with wakes := w.wakes ++ [e] } else w'
    | _ => w'

def durable (w : World) (e : Jorb) (s : DurableStmt) : Option World :=
  if w.locked e.id && (w.db.fence e.id e.runEpoch).isSome then none
  else some { w with db := s.run w.clock e.id e.runEpoch w.db }

/-- The requeue and the wipe of a fresh rerun, one transaction. -/
def rerunFresh (w : World) (jid : Nat) (allowed : List JorbState) (delay : Int)
    (resetErrors : Bool) : Option World :=
  let u := (SupervisorStmt.requeue [jid] allowed delay resetErrors).update w.clock
  (w.update u).map fun w' =>
    if w.db.jorb.rows.any (u.cond w.db) then { w' with db := w'.db.wipeDurableState [jid] } else w'

/-- `_wake_dependents` skips the group wake of a job whose group is missing or 0. -/
def wakeGroup (w : World) (e : Jorb) : Option World :=
  match e.runGroup with
  | none => none
  | some gid =>
    if gid = 0 then none
    else w.update (enqueueNextIfPeerGroupIsFinished w.clock w.locked gid)

/-- `COMPACT_FENCE_SQL`: a superseded execution gets no row and no lock. -/
def compactFence (w : World) (session : Nat) (e : Jorb) : Option World :=
  match w.db.fence e.id e.runEpoch with
  | none => some w
  | some _ =>
    if w.locked e.id then none else some (w.openTx ⟨session, .compact e.id e.runEpoch⟩)

def compactSteps (w : World) (session : Nat) : Option World :=
  (w.txs.find? session).bind fun t =>
    match t.body with
    | .compact jid _ => some { w.closeTx session with db := (w.db.compactSteps jid).1 }
    | .claim _ => none

def idleSession (w : World) (session : Nat) : Bool := (w.txs.find? session).isNone

def step (w : World) : Act → Option World
  | .tick d => some { w with clock := w.clock + d }
  | .setQueue q => some { w with queue := Function.update w.queue q.name (some q) }
  | .registerWorker args => some { w with db := w.db.registerWorker w.clock args }
  | .heartbeat wid => some { w with db := w.db.heartbeat w.clock wid }
  | .enqueue job => (w.db.enqueue w.clock job).map fun db => { w with db }
  | .delete batch =>
    if w.blocks (fun r => r.id ∈ batch) then none else some { w with db := w.db.deleteJobs batch }
  | .supervise s => w.update (s.update w.clock)
  | .rerunFresh jid allowed delay resetErrors => w.rerunFresh jid allowed delay resetErrors
  | .worker i s => w.execs[i]?.bind fun e => w.worker e s
  | .durable i s => w.execs[i]?.bind fun e => w.durable e s
  | .wakeSelf i =>
    w.wakes[i]?.bind fun e => w.update (enqueueNextSelfFinished w.clock w.locked e.id)
  | .wakeGroup i => w.wakes[i]?.bind w.wakeGroup
  | .compactFence session i =>
    if w.idleSession session then w.execs[i]?.bind (w.compactFence session) else none
  | .compactSteps session => w.compactSteps session
  | .claimBegin session args =>
    if w.idleSession session then some (w.claimBegin session args) else none
  | .claimLock session => (w.claimTx session).bind (w.claimLock session)
  | .claimCapInFlight session => (w.claimTx session).bind (w.claimCapInFlight session)
  | .claimCapRate session => (w.claimTx session).bind (w.claimCapRate session)
  | .claimPick session busy scan => (w.claimTx session).bind (w.claimPick session · busy scan)
  | .claimCommit session ack => (w.claimTx session).bind (w.claimCommit session · ack)
  | .rollback session => some (w.closeTx session)

end World

end Pyjobby
