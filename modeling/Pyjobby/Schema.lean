import Pyjobby.Lib.Table
import Mathlib.Data.Int.Notation
import Mathlib.Data.Rat.Init

/-! The tables of the schema: jobs, the four durable tables hanging off a job,
and the worker registry. Timestamps and intervals are microseconds. -/

namespace Pyjobby

open Relational

/-- A JSON value as the codecs hand it over: a number with a fraction or an
exponent is a float, any other an integer. -/
inductive Json where
  | null
  | bool (b : Bool)
  | int (n : Int)
  | float (x : Rat)
  | str (s : String)
  | arr (xs : List Json)
  | obj (fields : List (String × Json))

instance : Inhabited Json := ⟨.null⟩

inductive JorbState where
  | queued
  | claimed
  | running
  | waiting
  | finished
  | crashed
  | cancelled
  deriving DecidableEq, Repr

namespace JorbState

def terminalStates : List JorbState := [finished, crashed, cancelled]

def jobStates : List JorbState :=
  [queued, claimed, running, waiting, finished, crashed, cancelled]

def liveStates : List JorbState := jobStates.filter fun s => s ∉ terminalStates

def inFlightStates : List JorbState := [claimed, running]

def preClaimStates : List JorbState := [queued, waiting]

def retryableStates : List JorbState := [crashed, cancelled]

def rerunnableStates : List JorbState := [crashed, cancelled, finished]

def terminal (s : JorbState) : Bool := s ∈ terminalStates

end JorbState

structure Jorb where
  id : Nat
  queue : String
  capability : Option String
  appVersion : Option String
  prio : Int
  state : JorbState
  jobClass : String
  kwargs : Json
  adminData : Json
  result : Option Json
  runGroup : Option Int
  waitforGroup : Option Int
  waitforJob : Option Int
  deadlineKey : Option String
  identityKey : Option String
  debounceKey : Option String
  debounceDeadline : Option Int
  partitionKey : Option String
  runCount : Nat
  errorCount : Nat
  errorMessage : Option String
  errorBacktrace : Option String
  runEpoch : Nat
  cancelRequested : Bool
  awaited : Bool
  claimedBy : Option Nat
  workerPid : Option Int
  workerHost : Option String
  updated : Int
  runAfter : Int
  claimedAt : Option Int
  started : Option Int
  finished : Option Int
  timeoutAt : Option Int

namespace Jorb

def inFlight (r : Jorb) : Bool := r.state ∈ JorbState.inFlightStates

def preClaim (r : Jorb) : Bool := r.state ∈ JorbState.preClaimStates

def live (r : Jorb) : Bool := r.state ∈ JorbState.liveStates

theorem inFlight_iff {r : Jorb} : r.inFlight ↔ r.state = .claimed ∨ r.state = .running := by
  simp [inFlight, JorbState.inFlightStates]

theorem preClaim_iff {r : Jorb} : r.preClaim ↔ r.state = .queued ∨ r.state = .waiting := by
  simp [preClaim, JorbState.preClaimStates]

/-- The row carries a dependency column. -/
def dependent (r : Jorb) : Bool := r.waitforJob.isSome || r.waitforGroup.isSome

end Jorb

structure StepRow where
  jobId : Nat
  stepSeq : Nat
  name : String
  output : Option Json
  error : Option String
  runEpoch : Nat
  started : Int
  finished : Option Int

def StepRow.key (s : StepRow) : Nat × Nat := (s.jobId, s.stepSeq)

structure EventRow where
  jobId : Nat
  key : String
  value : Json
  updated : Int

def EventRow.pk (e : EventRow) : Nat × String := (e.jobId, e.key)

structure MailRow where
  id : Nat
  destJobId : Nat
  topic : Option String
  message : Json
  created : Int
  consumedAt : Option Int

structure StreamRow where
  jobId : Nat
  key : String
  seq : Nat
  value : Option Json
  closed : Bool
  runEpoch : Nat
  created : Int

def StreamRow.pk (s : StreamRow) : Nat × String × Nat := (s.jobId, s.key, s.seq)

structure WorkerRow where
  id : Nat
  host : String
  pid : Int
  queue : String
  capabilities : List String
  maxPrio : Int
  appVersion : Option String
  lastSeen : Int
  shutdownAt : Option Int
  idle : Bool

/-- A row of `jorb_queue`; the rate period is stored in seconds. -/
structure QueueRow where
  name : String
  paused : Bool
  maxConcurrency : Option Int
  rateLimit : Option Int
  ratePeriod : Int
  partitionLimits : Bool
  deriving DecidableEq

structure Db where
  jorb : Serial Jorb.id
  step : Table StepRow.key
  event : Table EventRow.pk
  mailbox : Serial MailRow.id
  stream : Table StreamRow.pk
  worker : Serial WorkerRow.id

namespace Db

def empty : Db where
  jorb := .empty 1
  step := .empty
  event := .empty
  mailbox := .empty 1
  stream := .empty
  worker := .empty 1

/-- The job row a fence takes its lock on: `id = $1 AND run_epoch = $2`. -/
def fence (db : Db) (jid epoch : Nat) : Option Jorb :=
  (db.jorb.find? jid).filter fun r => r.runEpoch = epoch

theorem fence_eq_some {db : Db} {jid epoch : Nat} {r : Jorb} :
    db.fence jid epoch = some r ↔ r ∈ db.jorb ∧ r.id = jid ∧ r.runEpoch = epoch := by
  simp [fence, Option.filter_eq_some_iff, Serial.find?_eq_some, and_assoc]

end Db

end Pyjobby
