import Pyjobby.Failure

/-! One timeout, two processes that may see it first: what the worker and the monitor
decide about the same overdue row. -/

namespace Pyjobby

open Relational Ieee

section Decisions

variable (floatOfStr : String → Option Binary64) (now : Int)

namespace Attempt

variable (a : Attempt)

/-- The worker's decision about an attempt past its deadline: the delay before the next
one, or none and the row is dead-lettered. -/
def timeoutDecision : Except PyError (Option Int) := do
  let maxRetries ← a.budget.number
  if maxRetries.exceeds a.attempt && retriesOnTimeout a.job.adminData then
    some <$> calculateRetryFromJob floatOfStr a.job.adminData a.attempt a.draw
  else return none

/-- The statement the worker issues for a decision. -/
def settle (db : Db) (error backtrace : PyText) :
    Option Int → Except PyError (Db × List WorkerStmt)
  | some delay => do a.ex now db (.retry delay (← error.encode) (← backtrace.encode))
  | none => do a.ex now db (.crashed (← error.encode) (← backtrace.encode))

theorem handleFailure_timeout (db : Db) (error backtrace : PyText) :
    a.handleFailure floatOfStr now db error backtrace true =
      a.timeoutDecision floatOfStr >>= a.settle now db error backtrace := by
  unfold handleFailure timeoutDecision
  cases a.budget.number with
  | error e => rfl
  | ok n =>
    by_cases hagain : (n.exceeds a.attempt && retriesOnTimeout a.job.adminData) = true
    · cases calculateRetryFromJob floatOfStr a.job.adminData a.attempt a.draw <;>
        simp [bind, Except.bind, hagain, Functor.map, Except.map, settle]
    · simp [bind, Except.bind, hagain, pure, Except.pure, settle]

end Attempt

namespace Jorb

variable (r : Jorb) (draw : Rat)

/-- The monitor's. -/
def timeoutDecision : Except PyError (Option Int) := do
  let maxRetries ← (getRetryConfig r.adminData).maxRetries.number
  if maxRetries.exceeds (r.errorCount + 1 : Nat) && retriesOnTimeout r.adminData then
    some <$> calculateRetryFromJob floatOfStr r.adminData (r.errorCount + 1) draw
  else return none

def deadletterReason : String :=
  match (getRetryConfig r.adminData).maxRetries.num? with
  | some n =>
    if n.exceeds (r.errorCount + 1 : Nat) then "on_timeout=fail" else "max retries exceeded"
  | none => ""

def settleTimedOut (db : Db) : Option Int → Except PyError Db
  | some delay => superviseRow now db (.retryTimedOut r.id "Timeout exceeded - retrying" delay)
  | none =>
    superviseRow now db
      (.deadletterTimedOut r.id ("Timeout exceeded - dead-lettered (" ++ r.deadletterReason ++ ")"))

theorem handleTimedOutJob_eq (db : Db) :
    handleTimedOutJob floatOfStr now r draw db =
      r.timeoutDecision floatOfStr draw >>= r.settleTimedOut now db := by
  unfold handleTimedOutJob timeoutDecision
  cases hn : (getRetryConfig r.adminData).maxRetries.number with
  | error e => rfl
  | ok n =>
    have hnum := Json.number_eq_ok.mp hn
    simp only [bind, Except.bind, pure, Except.pure, settleTimedOut, deadletterReason, hnum]
    cases n.exceeds (r.errorCount + 1 : Nat) <;> cases retriesOnTimeout r.adminData
    case true.true =>
      cases calculateRetryFromJob floatOfStr r.adminData (r.errorCount + 1) draw <;> rfl
    all_goals rfl

end Jorb

/-- The worker's attempt is about this row, and has its counters and settings. -/
structure Attempt.Holds (a : Attempt) (r : Jorb) : Prop where
  id : a.job.id = r.id
  runEpoch : a.job.runEpoch = r.runEpoch
  errorCount : a.job.errorCount = r.errorCount
  adminData : a.job.adminData = r.adminData

/-- The columns that say how an attempt ended. -/
structure SameFate (r₁ r₂ : Jorb) : Prop where
  state : r₁.state = r₂.state
  errorCount : r₁.errorCount = r₂.errorCount
  runEpoch : r₁.runEpoch = r₂.runEpoch
  deadlineKey : r₁.deadlineKey = r₂.deadlineKey
  debounceKey : r₁.debounceKey = r₂.debounceKey
  debounceDeadline : r₁.debounceDeadline = r₂.debounceDeadline
  identityKey : r₁.identityKey = r₂.identityKey
  timeoutAt : r₁.timeoutAt = r₂.timeoutAt
  runAfter : r₁.runAfter = r₂.runAfter

/-- Worker and monitor decide the same, with the same draw for the jitter, and whichever
of them acts leaves the same row. -/
structure Agree (a : Attempt) (r : Jorb) : Prop where
  decision : a.timeoutDecision floatOfStr = r.timeoutDecision floatOfStr a.draw
  fate : ∀ (db db₁ db₂ : Db) (error backtrace : PyText) (stmts : List WorkerStmt), r ∈ db.jorb →
    a.handleFailure floatOfStr now db error backtrace true = .ok (db₁, stmts) →
    handleTimedOutJob floatOfStr now r a.draw db = .ok db₂ →
    ∀ r₁ ∈ db₁.jorb, ∀ r₂ ∈ db₂.jorb, r₁.id = r.id → r₂.id = r.id → SameFate r₁ r₂

theorem Db.attempt_row {db db' : Db} {u : Update} {fits : Jorb → Bool}
    (h : db.attempt u fits = .ok db') {r r' : Jorb} (hr : r ∈ db.jorb) (hc : u.cond db r)
    (hr' : r' ∈ db'.jorb) (hid : r'.id = r.id) : r' = u.set.set r := by
  obtain ⟨-, rfl⟩ := Db.attempt_eq_ok.mp h
  obtain ⟨s, hs, rfl⟩ := Serial.mem_update.mp hr'
  have hsid : s.id = r.id := by
    rw [← hid]
    split
    · exact (u.set.key_set s).symm
    · rfl
  obtain rfl := Serial.eq_of_ident hs hr hsid
  simp [hc]

variable {floatOfStr now}

theorem Attempt.settle_row {a : Attempt} {db db₁ : Db} {error backtrace : PyText}
    {decision : Option Int} {stmts : List WorkerStmt}
    (h : a.settle now db error backtrace decision = .ok (db₁, stmts)) {r r₁ : Jorb}
    (ha : a.Holds r) (hr : r ∈ db.jorb) (hrun : r.state = .running) (hr₁ : r₁ ∈ db₁.jorb)
    (hid : r₁.id = r.id) :
    ∃ m b, r₁ = (decision.elim (WorkerStmt.crashed m b) fun d => .retry d m b).set now r := by
  have hattempt : r.attemptOf a.job.id a.job.runEpoch := by
    simp [Jorb.attemptOf, ha.id, ha.runEpoch, Jorb.inFlight_iff, hrun]
  have hex {s : WorkerStmt} (hs : a.ex now db s = .ok (db₁, stmts)) : r₁ = s.set now r := by
    unfold Attempt.ex at hs
    cases hdb : db.attempt (s.update now a.job.id a.job.runEpoch) (s.fits now) with
    | error => simp [hdb, Except.map] at hs
    | ok db' =>
      obtain ⟨rfl, -⟩ : db' = db₁ ∧ [s] = stmts := by simpa [hdb, Except.map] using hs
      exact Db.attempt_row hdb hr hattempt hr₁ hid
  cases decision with
  | none =>
    simp only [settle, bind_eq_ok] at h
    obtain ⟨m, -, b, -, h⟩ := h
    exact ⟨m, b, hex h⟩
  | some d =>
    simp only [settle, bind_eq_ok] at h
    obtain ⟨m, -, b, -, h⟩ := h
    exact ⟨m, b, hex h⟩

theorem Jorb.settleTimedOut_row {db db₂ : Db} {decision : Option Int} {r r₂ : Jorb}
    (h : r.settleTimedOut now db decision = .ok db₂) (hr : r ∈ db.jorb) (hrun : r.state = .running)
    (hr₂ : r₂ ∈ db₂.jorb) (hid : r₂.id = r.id) :
    ∃ m, r₂ = (decision.elim (SupervisorStmt.deadletterTimedOut r.id m) fun d =>
      .retryTimedOut r.id m d).set now r := by
  cases decision with
  | none =>
    exact ⟨_, Db.attempt_row h hr (by simp [SupervisorStmt.update, SupervisorStmt.cond, hrun])
      hr₂ hid⟩
  | some d =>
    exact ⟨_, Db.attempt_row h hr (by simp [SupervisorStmt.update, SupervisorStmt.cond, hrun])
      hr₂ hid⟩

/-- One decision leaves one row, whoever carries it out. -/
theorem Attempt.Holds.agree_iff {a : Attempt} {r : Jorb} (ha : a.Holds r)
    (hrun : r.state = .running) :
    Agree floatOfStr now a r ↔
      a.timeoutDecision floatOfStr = r.timeoutDecision floatOfStr a.draw := by
  refine ⟨Agree.decision, fun hdecision => ⟨hdecision, ?_⟩⟩
  intro db db₁ db₂ error backtrace stmts hr hworker hmonitor r₁ hr₁ r₂ hr₂ hid₁ hid₂
  rw [a.handleFailure_timeout, bind_eq_ok] at hworker
  rw [r.handleTimedOutJob_eq, bind_eq_ok] at hmonitor
  obtain ⟨decision, hdec, hworker⟩ := hworker
  obtain ⟨decision', hdec', hmonitor⟩ := hmonitor
  obtain rfl : decision = decision' := Except.ok.inj (hdec.symm.trans (hdecision.trans hdec'))
  obtain ⟨m, b, rfl⟩ := a.settle_row hworker ha hr hrun hr₁ hid₁
  obtain ⟨m', rfl⟩ := r.settleTimedOut_row hmonitor hr hrun hr₂ hid₂
  cases decision <;> exact ⟨rfl, rfl, rfl, rfl, rfl, rfl, rfl, rfl, rfl⟩

/-- The budget on the row, or no retry on a timeout, or the two defaults agree on this
attempt. -/
theorem Attempt.Holds.decision_iff {a : Attempt} {r : Jorb} (ha : a.Holds r) :
    a.timeoutDecision floatOfStr = r.timeoutDecision floatOfStr a.draw ↔
      (r.adminData.get? "max_retries").isSome ∨ retriesOnTimeout r.adminData = false ∨
        ((r.errorCount : Int) + 1 < a.maxRetries ↔ (r.errorCount : Int) + 1 < 10) := by
  simp only [Attempt.timeoutDecision, Jorb.timeoutDecision, Attempt.budget, Attempt.attempt,
    getRetryConfig, ha.errorCount, ha.adminData]
  cases hbudget : r.adminData.get? "max_retries" with
  | some v => simp
  | none =>
    cases hon : retriesOnTimeout r.adminData with
    | false => simp [Json.number, Json.num?, bind, Except.bind]
    | true =>
      have hretry :
          some <$> calculateRetryFromJob floatOfStr r.adminData (r.errorCount + 1) a.draw ≠
          pure none := by
        cases calculateRetryFromJob floatOfStr r.adminData (r.errorCount + 1) a.draw <;> nofun
      have hcast : ((r.errorCount + 1 : Nat) : Int) = r.errorCount + 1 := rfl
      simp only [Option.getD_none, Json.number, Json.num?, bind, Except.bind, PyNum.exceeds, hcast,
        Bool.and_true, decide_eq_true_eq, Option.isSome_none, Bool.false_eq_true, reduceCtorEq,
        false_or]
      by_cases hworker : (r.errorCount : Int) + 1 < a.maxRetries <;>
        by_cases hmonitor : (r.errorCount : Int) + 1 < 10 <;>
          simp only [hworker, hmonitor, if_true, if_false, hretry, hretry.symm, iff_true, iff_false,
            not_true_eq_false]

end Decisions

/-- Worker and monitor settle an overdue row alike exactly when the row has a budget of its
own, does not retry on a timeout, or is on the same side of the worker's `--max-retries`
and of the monitor's default. -/
theorem timeout_decided_alike (floatOfStr : String → Option Binary64) (now : Int) (r : Jorb)
    (hover : r.timedOut now) (a : Attempt) (ha : a.Holds r) :
    (∀ db error backtrace, a.handleFailure floatOfStr now db error backtrace true =
      a.timeoutDecision floatOfStr >>= a.settle now db error backtrace) ∧
    (∀ db, handleTimedOutJob floatOfStr now r a.draw db =
      r.timeoutDecision floatOfStr a.draw >>= r.settleTimedOut now db) ∧
    (Agree floatOfStr now a r ↔
      (r.adminData.get? "max_retries").isSome ∨ retriesOnTimeout r.adminData = false ∨
        ((r.errorCount : Int) + 1 < a.maxRetries ↔ (r.errorCount : Int) + 1 < 10)) := by
  have hrun : r.state = .running := by
    simp only [Jorb.timedOut, Bool.and_eq_true, decide_eq_true_eq] at hover
    exact hover.1
  exact ⟨a.handleFailure_timeout floatOfStr now, r.handleTimedOutJob_eq floatOfStr now a.draw,
    (ha.agree_iff hrun).trans ha.decision_iff⟩

theorem timeout_decided_alike_single :
    Agree (fun _ => none) 2 overdueAttempt (overdue singleAttempt 2) :=
  (timeout_decided_alike (fun _ => none) 2 (overdue singleAttempt 2) (by decide) overdueAttempt
    ⟨rfl, rfl, rfl, rfl⟩).2.2.mpr (.inl (by decide))

/-- The third attempt of a row whose settings name no budget, and a worker that gives its
jobs three. -/
def thirdAttempt : Attempt :=
  ⟨{ overdue (.obj []) 1 with errorCount := 2 }, 3, false, 0⟩

theorem timeout_decided_apart : thirdAttempt.job.timedOut 2 ∧
    thirdAttempt.timeoutDecision (fun _ => none) = .ok none ∧
    thirdAttempt.job.timeoutDecision (fun _ => none) thirdAttempt.draw = .ok (some 4000000) ∧
    ¬Agree (fun _ => none) 2 thirdAttempt thirdAttempt.job := by
  have hworker : thirdAttempt.timeoutDecision (fun _ => none) = .ok none := by rfl
  have hmonitor : thirdAttempt.job.timeoutDecision (fun _ => none) thirdAttempt.draw =
      .ok (some 4000000) := by decide +kernel
  refine ⟨by decide, hworker, hmonitor, fun hagree => ?_⟩
  have := hworker.symm.trans (hagree.decision.trans hmonitor)
  simp at this

end Pyjobby
