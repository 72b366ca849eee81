import Pyjobby.Retry
import Pyjobby.World

/-! How a failed attempt leaves its row: the exception handlers of `_process`, and
the monitor's sweep of the jobs past their deadline. -/

namespace Pyjobby

open Relational Ieee

/-- The code points of a Python string. -/
abbrev PyText := List (Fin 0x110000)

namespace PyText

/-- A NUL is no character of a PostgreSQL text, a surrogate has no UTF-8 encoding. -/
def storable (t : PyText) : Bool := t.all fun c => c ≠ 0 && !(0xD800 ≤ c.val && c.val ≤ 0xDFFF)

/-- A string as a text parameter. -/
def encode (t : PyText) : Except PyError String :=
  if t.storable then .ok (String.ofList (t.map fun c => Char.ofNat c.val))
  else .error .dataError

end PyText

/-- The greatest `INTEGER`. -/
def maxInteger : Nat := 2147483647

/-- The range of `TIMESTAMPTZ`, in microseconds from 2000-01-01. -/
def timestampInRange (t : Int) : Bool := -211813488000000000 ≤ t && t < 9223371331200000000

/-- The server can evaluate the SET list on the row. -/
def WorkerStmt.fits (now : Int) : WorkerStmt → Jorb → Bool
  | retry delay _ _, r => r.errorCount < maxInteger && timestampInRange (now + delay)
  | crashed _ _, r => r.errorCount < maxInteger
  | _, _ => true

def SupervisorStmt.fits (now : Int) : SupervisorStmt → Jorb → Bool
  | retryTimedOut _ _ delay, r => r.errorCount < maxInteger && timestampInRange (now + delay)
  | deadletterTimedOut _ _, r => r.errorCount < maxInteger
  | _, _ => true

def Db.attempt (db : Db) (u : Update) (fits : Jorb → Bool) : Except PyError Db :=
  if db.jorb.rows.any fun r => u.cond db r && !fits r then .error .dataError
  else .ok (u.run db)

/-- How the execution of a job's code ended, when not in a result. -/
inductive Raised where
  | durableSleep
  | jobTimeout (message : PyText)
  | staleExecution
  | cancelled
  | exception (message backtrace : PyText)

/-- The attempt a worker has in hand: the row as claimed, the worker's
`--max-retries`, whether a cancel was delivered, and the jitter's `random()`. -/
structure Attempt where
  job : Jorb
  maxRetries : Int
  cancelCurrent : Bool
  draw : Rat

section Handlers

variable (floatOfStr : String → Option Binary64) (now : Int)

namespace Attempt

variable (a : Attempt)

/-- `self.ex(op, ..)`: the statement runs under the fence of the attempt. -/
def ex (db : Db) (s : WorkerStmt) : Except PyError (Db × List WorkerStmt) :=
  (db.attempt (s.update now a.job.id a.job.runEpoch) (s.fits now)).map fun db => (db, [s])

/-- `admin_data.get("max_retries", self.max_retries)`. -/
def budget : Json := (a.job.adminData.get? "max_retries").getD (.int a.maxRetries)

def attempt : Nat := a.job.errorCount + 1

def handleFailure (db : Db) (error backtrace : PyText) (timedOut : Bool) :
    Except PyError (Db × List WorkerStmt) := do
  let maxRetries ← a.budget.number
  if maxRetries.exceeds a.attempt && (!timedOut || retriesOnTimeout a.job.adminData) then
    let delay ← calculateRetryFromJob floatOfStr a.job.adminData a.attempt a.draw
    a.ex now db (.retry delay (← error.encode) (← backtrace.encode))
  else a.ex now db (.crashed (← error.encode) (← backtrace.encode))

end Attempt

def superviseRow (db : Db) (s : SupervisorStmt) : Except PyError Db :=
  db.attempt (s.update now) (s.fits now)

/-- Both branches compare the attempt with the budget, the second for its reason. -/
def handleTimedOutJob (job : Jorb) (draw : Rat) (db : Db) : Except PyError Db := do
  let maxRetries ← (getRetryConfig job.adminData).maxRetries.number
  if retriesOnTimeout job.adminData && maxRetries.exceeds (job.errorCount + 1 : Nat) then
    let delay ← calculateRetryFromJob floatOfStr job.adminData (job.errorCount + 1) draw
    superviseRow now db (.retryTimedOut job.id "Timeout exceeded - retrying" delay)
  else if maxRetries.exceeds (job.errorCount + 1 : Nat) then
    superviseRow now db
      (.deadletterTimedOut job.id "Timeout exceeded - dead-lettered (on_timeout=fail)")
  else
    superviseRow now db
      (.deadletterTimedOut job.id "Timeout exceeded - dead-lettered (max retries exceeded)")

end Handlers

/-- The WHERE clause of `SWEEP_TIMED_OUT_SQL`. -/
def Jorb.timedOut (now : Int) (r : Jorb) : Bool := r.state = .running && r.timeoutAt.any (· < now)

theorem Db.attempt_eq_ok {db db' : Db} {u : Update} {fits : Jorb → Bool} :
    db.attempt u fits = .ok db' ↔ (∀ r ∈ db.jorb, u.cond db r → fits r) ∧ u.run db = db' := by
  unfold Db.attempt
  by_cases h : db.jorb.rows.any fun r => u.cond db r && !fits r
  · obtain ⟨r, hr, hbad⟩ := List.any_eq_true.mp h
    simp only [Bool.and_eq_true, Bool.not_eq_true'] at hbad
    simp only [h, if_true, reduceCtorEq, false_iff, not_and]
    intro hall
    simp [hall r hr hbad.1] at hbad
  · simp only [h, if_false, Except.ok.injEq, Bool.false_eq_true]
    simp only [List.any_eq_true, not_exists, not_and, Bool.and_eq_true, Bool.not_eq_true',
      Bool.not_eq_false] at h
    exact ⟨fun e => ⟨h, e⟩, And.right⟩

theorem Json.number_eq_ok {v : Json} {n : PyNum} : v.number = .ok n ↔ v.num? = some n := by
  unfold number
  cases v.num? <;> simp

section Handlers

variable (floatOfStr : String → Option Binary64) (now : Int)

namespace Attempt

variable (a : Attempt)

/-- The attempt is to be followed by another one. -/
def retries (timedOut : Bool) : Bool :=
  a.budget.num?.any fun n => n.exceeds a.attempt &&
    (!timedOut || retriesOnTimeout a.job.adminData)

theorem ex_eq_ok {db : Db} {s : WorkerStmt} {out : Db × List WorkerStmt} :
    a.ex now db s = .ok out ↔
      (∀ r ∈ db.jorb, r.attemptOf a.job.id a.job.runEpoch → s.fits now r) ∧
        ((s.update now a.job.id a.job.runEpoch).run db, [s]) = out := by
  unfold ex
  constructor
  · intro h
    cases hdb : db.attempt (s.update now a.job.id a.job.runEpoch) (s.fits now) with
    | error e => simp [hdb, Except.map] at h
    | ok db' =>
      obtain ⟨hfits, rfl⟩ := Db.attempt_eq_ok.mp hdb
      exact ⟨hfits, by simpa [hdb, Except.map] using h⟩
  · rintro ⟨hfits, rfl⟩
    have hdb := Db.attempt_eq_ok (u := s.update now a.job.id a.job.runEpoch) |>.mpr ⟨hfits, rfl⟩
    rw [hdb]
    rfl

/-- The statement a failure leads to. -/
inductive Verdict (error backtrace : PyText) (timedOut : Bool) : WorkerStmt → Prop
  | retry {delay : Int} {m b : String} (again : a.retries timedOut)
      (computed : calculateRetryFromJob floatOfStr a.job.adminData a.attempt a.draw = .ok delay)
      (message : error.encode = .ok m) (trace : backtrace.encode = .ok b) :
      Verdict error backtrace timedOut (.retry delay m b)
  | crashed {m b : String} (last : a.retries timedOut = false)
      (message : error.encode = .ok m) (trace : backtrace.encode = .ok b) :
      Verdict error backtrace timedOut (.crashed m b)

theorem handleFailure_eq_ok {db : Db} {error backtrace : PyText} {timedOut : Bool}
    {out : Db × List WorkerStmt} :
    a.handleFailure floatOfStr now db error backtrace timedOut = .ok out ↔
      a.budget.num?.isSome ∧
        ∃ s, a.Verdict floatOfStr error backtrace timedOut s ∧ a.ex now db s = .ok out := by
  unfold handleFailure
  rw [bind_eq_ok]
  constructor
  · rintro ⟨n, hn, h⟩
    have hnum := Json.number_eq_ok.mp hn
    have hretries : a.retries timedOut = (n.exceeds a.attempt &&
        (!timedOut || retriesOnTimeout a.job.adminData)) := by simp [retries, hnum]
    refine ⟨by simp [hnum], ?_⟩
    split at h
    · rename_i hagain
      simp only [bind_eq_ok] at h
      obtain ⟨delay, hdelay, m, hm, b, hb, hex⟩ := h
      exact ⟨_, .retry (hretries.trans hagain) hdelay hm hb, hex⟩
    · rename_i hlast
      simp only [bind_eq_ok] at h
      obtain ⟨m, hm, b, hb, hex⟩ := h
      exact ⟨_, .crashed (hretries.trans (Bool.eq_false_iff.mpr hlast)) hm hb, hex⟩
  · rintro ⟨hsome, s, hverdict, hex⟩
    obtain ⟨n, hnum⟩ := Option.isSome_iff_exists.mp hsome
    have hretries : a.retries timedOut = (n.exceeds a.attempt &&
        (!timedOut || retriesOnTimeout a.job.adminData)) := by simp [retries, hnum]
    refine ⟨n, Json.number_eq_ok.mpr hnum, ?_⟩
    cases hverdict with
    | retry again computed message trace =>
      rw [hretries] at again
      simp only [again, if_true, bind_eq_ok]
      exact ⟨_, computed, _, message, _, trace, hex⟩
    | crashed last message trace =>
      rw [hretries] at last
      simp only [last, Bool.false_eq_true, if_false, bind_eq_ok]
      exact ⟨_, message, _, trace, hex⟩

end Attempt

/-- The row is one that a retry or a dead-letter has left. -/
def MovedOn (db : Db) (r : Jorb) : Prop :=
  ∃ r' ∈ db.jorb, r'.id = r.id ∧ (r'.state = .queued ∨ r'.state = .crashed)

/-- What handling one row that succeeds has done to the tables. -/
structure Handled (r : Jorb) (db db' : Db) : Prop where
  moved : MovedOn db' r
  others : ∀ s ∈ db.jorb, s.id ≠ r.id → s ∈ db'.jorb

/-- The rows a batch stands for: each once, locked in the state it was read in. -/
structure Locked (batch : List Jorb) (db : Db) : Prop where
  nodup : (batch.map Jorb.id).Nodup
  rows : ∀ r ∈ batch, r ∈ db.jorb ∧ r.state = .running

theorem Locked.tail {r : Jorb} {batch : List Jorb} {db db' : Db} (h : Locked (r :: batch) db)
    (hdone : Handled r db db') : Locked batch db' := by
  obtain ⟨hnot, hnd⟩ := List.nodup_cons.mp h.nodup
  refine ⟨hnd, fun s hs => ?_⟩
  obtain ⟨hmem, hrun⟩ := h.rows s (List.mem_cons_of_mem _ hs)
  exact ⟨hdone.others s hmem fun hid => hnot (hid ▸ List.mem_map_of_mem hs), hrun⟩

end Handlers

/-- The settings of a row enqueued with `max_retries` and `admin_data`. -/
def settingsOf (maxRetries : Int) (given : Fields) : Json :=
  match enqueueAdminData { maxRetries := .int maxRetries } given with
  | .ok admin => admin
  | .error _ => .null

def overdue (admin : Json) (id : Nat) : Jorb :=
  { (NewJob.plain "default").row 0 id with
    adminData := admin, state := .running, runCount := 1, runEpoch := 1, timeoutAt := some 1 }

def singleAttempt : Json := settingsOf 1 []

def overdueAttempt : Attempt := ⟨overdue singleAttempt 2, 10, false, 0⟩

end Pyjobby
