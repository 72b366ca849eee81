import Pyjobby.Lib.Expiry
import Mathlib.Tactic.IntervalCases

/-! Retention of the schedule log: monitors delete its old rows in batches, while schedules fire
and are deleted. -/

namespace Pyjobby

open Relational Transition

/-- A row of `jorb_schedule_log`, what came of the execution apart. -/
structure LoggedExecution where
  id : Nat
  scheduleId : Nat
  actualTime : Int

/-- `SELECT max(l2.id) .. WHERE l2.schedule_id = $1`. -/
def newestExecution (log : Serial LoggedExecution.id) (scheduleId : Nat) : Option Nat :=
  ((log.rows.filter fun l => l.scheduleId = scheduleId).map LoggedExecution.id).max?

/-- `SWEEP_SCHEDULE_LOG_SQL` and `DELETE_SCHEDULE_LOG_SQL`, within one transaction. -/
def sweepScheduleLog (retention : Int) : Expiry.Rule LoggedExecution.id where
  group := LoggedExecution.scheduleId
  order := LoggedExecution.actualTime
  expired now log l :=
    l.actualTime < now - retention && (newestExecution log l.scheduleId).any (l.id < ·)

/-- The cycles of any number of monitors, `_drain` over the sweep. -/
abbrev ScheduleLogRun (retention : Int) (batchSize : Nat) (maxSeconds : Int) :=
  Run (Expiry.Sys.step (sweepScheduleLog retention) batchSize maxSeconds)

variable {retention : Int}

theorem mem_executions {log : Serial LoggedExecution.id} {scheduleId i : Nat} :
    i ∈ (log.rows.filter fun l => l.scheduleId = scheduleId).map LoggedExecution.id ↔
      ∃ l ∈ log, l.scheduleId = scheduleId ∧ l.id = i := by
  simp only [List.mem_map, List.mem_filter, decide_eq_true_eq, Serial.mem_rows, and_assoc]

/-- The row is not the newest of its schedule. -/
theorem newestExecution_any {log : Serial LoggedExecution.id} {l : LoggedExecution} :
    (newestExecution log l.scheduleId).any (l.id < ·) ↔
      ∃ y ∈ log, y.scheduleId = l.scheduleId ∧ l.id < y.id := by
  rw [Option.any_eq_true]
  constructor
  · rintro ⟨i, hmax, hlt⟩
    obtain ⟨y, hy, hschedule, rfl⟩ := mem_executions.mp (List.max?_eq_some_iff.mp hmax).1
    exact ⟨y, hy, hschedule, of_decide_eq_true hlt⟩
  · rintro ⟨y, hy, hschedule, hlt⟩
    have hmem := mem_executions.mpr ⟨y, hy, hschedule, rfl⟩
    cases hmax : newestExecution log l.scheduleId with
    | none => simp [List.max?_eq_none_iff.mp hmax] at hmem
    | some i =>
      have hle := (List.max?_eq_some_iff.mp hmax).2 _ hmem
      exact ⟨i, rfl, decide_eq_true (hlt.trans_le hle)⟩

theorem sweepScheduleLog_ages (retention : Int) :
    (sweepScheduleLog retention).Ages fun now l => l.actualTime < now - retention := by
  refine ⟨fun now log l _ hexpired => ?_, fun now later l hle hold => by omega⟩
  simp only [sweepScheduleLog, Bool.and_eq_true, decide_eq_true_eq] at hexpired
  exact hexpired.1

theorem sweepScheduleLog_keepsLast (retention : Int) : (sweepScheduleLog retention).KeepsLast := by
  intro now log l _ hexpired
  simp only [sweepScheduleLog, Bool.and_eq_true] at hexpired
  exact newestExecution_any.mp hexpired.2

/-- Whatever monitors do at once: the last execution of a schedule that is not deleted is there,
at any age, and so is every execution within the window. A drain that says it has caught up has
deleted as many rows as it says, and at its last probe there was nothing else to delete, rows that
others held apart. -/
theorem schedule_log_drained {batchSize : Nat} {maxSeconds : Int}
    (ρ : ScheduleLogRun retention batchSize maxSeconds) (hquiet : (ρ.state 0).Quiet) :
    (∀ n k, n ≤ k → k ≤ ρ.length → ∀ l ∈ (ρ.state n).rows,
      (∀ j, n ≤ j → j < k → ρ.act j ≠ .drop l.scheduleId) →
        (∃ y ∈ (ρ.state k).rows, y.scheduleId = l.scheduleId ∧ l.id ≤ y.id) ∧
          (l ∈ (ρ.state k).rows ∨ l.actualTime < (ρ.state k).clock - retention)) ∧
      ∀ k ≤ ρ.length, ∀ m total, (ρ.state k).sessions[m]? = some (.returned total true) →
        ∃ j p, j < p ∧ p < k ∧ Expiry.Tallied ρ m j k total ∧
          (∀ i, p < i → i < k → (ρ.act i).probes m = false) ∧
            ∃ busy, ρ.act p = .probe m busy ∧ ∀ l ∈ (ρ.state p).rows,
              l.actualTime < (ρ.state p).clock - retention →
                (∀ y ∈ (ρ.state p).rows, y.scheduleId = l.scheduleId → y.id ≤ l.id) ∨
                  l ∉ (ρ.state k).rows ∨ l.id ∈ busy ∨ (ρ.state p).held l.id := by
  have hages := sweepScheduleLog_ages retention
  refine ⟨fun n k hnk hk l hl hcalm => ?_, fun k hk m total hdone => ?_⟩
  · exact ⟨Expiry.last_stays hquiet hages (sweepScheduleLog_keepsLast retention) hnk hk hl hcalm,
      Expiry.recent_stays hquiet hages hnk hk hl hcalm⟩
  · obtain ⟨j, p, hjp, hpk, htallied, hlast, busy, hact, hrows⟩ :=
      Expiry.drained hquiet hages hk hdone
    refine ⟨j, p, hjp, hpk, htallied, fun i hpi hi => (hlast i hpi hi).2, busy, hact,
      fun l hl hold => ?_⟩
    by_cases hnewer : ∃ y ∈ (ρ.state p).rows, y.scheduleId = l.scheduleId ∧ l.id < y.id
    · refine .inr (hrows l hl ?_)
      simp only [sweepScheduleLog, Bool.and_eq_true, decide_eq_true_eq]
      exact ⟨hold, newestExecution_any.mpr hnewer⟩
    · exact .inl fun y hy hschedule => Nat.le_of_not_lt fun hlt => hnewer ⟨y, hy, hschedule, hlt⟩

/-- A schedule has fired twice, long ago, when two monitors come by. -/
def yearlyActs : List (Expiry.Act LoggedExecution.id) :=
  [.add ⟨fun id => ⟨id, 1, 0⟩, fun _ => rfl⟩, .add ⟨fun id => ⟨id, 1, 0⟩, fun _ => rfl⟩, .tick 100,
    .start 0, .start 1, .probe 0 [], .probe 1 [], .delete 0, .settle 1 false, .settle 0 false]

def yearlyRun : ScheduleLogRun 10 5 60 :=
  .ofList ⟨0, .empty 1, [.returned 0 false, .returned 0 false]⟩ yearlyActs (by decide)

theorem schedule_log_drained_yearly :
    (∃ y ∈ (yearlyRun.state 10).rows, y.scheduleId = 1 ∧ 1 ≤ y.id) ∧
      ∃ j p, j < p ∧ p < 10 ∧ Expiry.Tallied yearlyRun 0 j 10 1 := by
  have hquiet : (yearlyRun.state 0).Quiet := by
    intro p hp
    exact ⟨0, by simpa [yearlyRun, Run.ofList, exec] using hp⟩
  obtain ⟨hlog, hdrain⟩ := schedule_log_drained yearlyRun hquiet
  obtain ⟨j, p, hjp, hp, htallied, -⟩ := hdrain 10 le_rfl 0 1 rfl
  refine ⟨?_, j, p, hjp, hp, htallied⟩
  have hmem : (⟨1, 1, 0⟩ : LoggedExecution) ∈ (yearlyRun.state 2).rows :=
    Serial.mem_rows.mp (.head _)
  refine (hlog 2 10 (by decide) le_rfl _ hmem fun j hj hlt => ?_).1
  interval_cases j <;> exact fun h => by cases h

end Pyjobby
