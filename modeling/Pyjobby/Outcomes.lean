import Pyjobby.Ticks

/-! What the firings of a transaction leave of a schedule's counters, of its log and of
its circuit breaker, in terms of what the enqueue has answered them. -/

namespace Pyjobby

open Relational Transition

/-- The ValueError of the shared row builder. -/
def EnqueueReply.isRefused : EnqueueReply → Bool
  | .refused _ => true
  | .created _ | .duplicate | .failed _ => false

/-- Failures in a row after a reply. -/
def EnqueueReply.failures (cf : Int) : EnqueueReply → Int
  | .created _ => 0
  | .duplicate => cf
  | .refused _ | .failed _ => cf + 1

/-- The result a firing is logged with. -/
def EnqueueReply.outcome : EnqueueReply → ExecutionOutcome
  | .created _ => .success
  | .duplicate => .skipped
  | .refused _ | .failed _ => .failure

namespace ScheduleRow

/-- What `execute_schedule` writes to the row on a reply. -/
def record (now : Int) (row : ScheduleRow) : EnqueueReply → ScheduleRow
  | .created _ => row.recordSuccess now
  | .duplicate => row.recordSkip
  | .refused _ => (row.recordFailure now).disableUnevaluatable now
  | .failed _ => row.recordFailure now

/-- The three safety checks of `execute_schedule` let the firing through. -/
def passes (schedule : ScheduleRow) (env : Readings) : Bool :=
  schedule.consecutiveFailures < schedule.circuitBreakerThreshold &&
    env.concurrent < schedule.maxConcurrentJobs &&
    !schedule.backpressureThreshold.any (· ≤ env.depth)

/-- Enabled, and the breaker not tripped. -/
def armed (r : ScheduleRow) : Bool :=
  r.enabled && r.consecutiveFailures < r.circuitBreakerThreshold

def counter (r : ScheduleRow) : ExecutionOutcome → Nat
  | .success => r.successCount
  | .failure => r.failureCount
  | .skipped => r.skipCount

end ScheduleRow

/-- The rows of the log about a schedule with one result. -/
def logged (sid : Nat) (o : ExecutionOutcome) (log : List ScheduleLogRow) : Nat :=
  log.countP fun e => e.scheduleId = sid && e.result.result = o

/-- The firing that the next statements of the transaction make. -/
def FiringTx.fires (tx : FiringTx) : Option Firing :=
  match tx.phase with
  | .due f | .backfill f (_ :: _) _ => some f
  | _ => none

/-- What the enqueue answers in a step, if the step gets that far. -/
def FiringTx.reply (tx : FiringTx) (env : Readings) : Option EnqueueReply :=
  tx.fires.bind fun f => if f.schedule.passes env then some env.enqueue else none

namespace Schedulers

def reply (s : Schedulers) (i : Nat) (env : Readings) : Option EnqueueReply :=
  s.workers[i]?.bind fun w => w.tx.bind fun tx => tx.reply env

/-- The replies in the transaction that each process has open, after one more step. -/
def answers (s : Schedulers) (a : ScheduleAct) (replies : Nat → List EnqueueReply) :
    Nat → List EnqueueReply :=
  match a with
  | .go i env => Function.update replies i (replies i ++ (s.reply i env).toList)
  | .lock i | .commit i | .rollback i | .crash i => Function.update replies i []
  | _ => replies

/-- In a step of process `i` the firing `f` goes on to build and insert a job. -/
def Builds (s : Schedulers) (a : ScheduleAct) (i : Nat) (f : Firing) : Prop :=
  ∃ env w tx, a = .go i env ∧ s.workers[i]? = some w ∧ w.tx = some tx ∧ tx.fires = some f ∧
    f.schedule.passes env

/-- Counters and log agree. -/
def CountersAgree (s : Schedulers) : Prop :=
  ∀ r ∈ s.db.schedule, (∀ o, r.counter o = logged r.id o s.db.log) ∧
    r.runCount = r.successCount + r.failureCount

end Schedulers

/-- What the enqueue has answered in the transaction that each process has open. -/
def SchedulerRun.replies {cron : CronLib} (ρ : SchedulerRun cron) : Nat → Nat → List EnqueueReply
  | 0 => fun _ => []
  | n + 1 => (ρ.state n).answers (ρ.act n) (SchedulerRun.replies ρ n)

section Counting

theorem logged_append (sid : Nat) (o : ExecutionOutcome) (log log' : List ScheduleLogRow) :
    logged sid o (log ++ log') = logged sid o log + logged sid o log' :=
  List.countP_append

theorem logged_singleton (sid : Nat) (o : ExecutionOutcome) (e : ScheduleLogRow)
    (h : e.scheduleId = sid) : logged sid o [e] = if e.result.result = o then 1 else 0 := by
  by_cases ho : e.result.result = o <;> simp [logged, h, ho]

theorem logged_of_ne {sid : Nat} {log : List ScheduleLogRow} (h : ∀ e ∈ log, e.scheduleId ≠ sid)
    (o : ExecutionOutcome) : logged sid o log = 0 :=
  List.countP_eq_zero.mpr fun e he => by simp [h e he]

end Counting

namespace ScheduleRow

variable (schedule : ScheduleRow) (now : Int) (allowJitter : Bool) (env : Readings)
  (row : ScheduleRow)

/-- A firing that a check stops: a skip, and perhaps the end of the schedule. -/
theorem execute_stopped (h : schedule.passes env = false) :
    (schedule.execute now allowJitter env row).1.result = .skipped ∧
      ((schedule.execute now allowJitter env row).2 = row.recordSkip ∨
        (schedule.execute now allowJitter env row).2 = row.disable.recordSkip ∧
          schedule.circuitBreakerThreshold ≤ schedule.consecutiveFailures) := by
  unfold execute
  split
  · exact ⟨rfl, .inr ⟨rfl, ‹_›⟩⟩
  split
  · exact ⟨rfl, .inl rfl⟩
  split
  · exact ⟨rfl, .inl rfl⟩
  · rename_i hbreaker hconcurrent hbackpressure
    simp [passes, not_le.mp hbreaker, not_le.mp hconcurrent, hbackpressure] at h

/-- A firing that passes: what is recorded is up to the enqueue. -/
theorem execute_passed (h : schedule.passes env) :
    (schedule.execute now allowJitter env row).1.result = env.enqueue.outcome ∧
      (schedule.execute now allowJitter env row).2 = row.record now env.enqueue := by
  simp only [passes, Bool.and_eq_true, decide_eq_true_eq, Bool.not_eq_true'] at h
  obtain ⟨⟨hbreaker, hconcurrent⟩, hbackpressure⟩ := h
  unfold execute
  rw [if_neg (not_le.mpr hbreaker), if_neg (not_le.mpr hconcurrent),
    if_neg (by simp [hbackpressure])]
  cases env.enqueue <;> exact ⟨rfl, rfl⟩

/-- A refusal is counted twice over. -/
theorem record_counter (reply : EnqueueReply) (o : ExecutionOutcome) :
    (row.record now reply).counter o = row.counter o + (if reply.outcome = o then 1 else 0) +
      if o = .failure ∧ reply.isRefused then 1 else 0 := by
  cases reply <;> cases o <;> rfl

theorem record_runCount (reply : EnqueueReply) :
    (row.record now reply).runCount + (row.successCount + row.failureCount) =
      row.runCount +
        ((row.record now reply).successCount + (row.record now reply).failureCount) := by
  cases reply <;> simp only [record, recordSuccess, recordSkip, recordFailure, disableUnevaluatable,
    disable] <;> omega

theorem record_breaker (reply : EnqueueReply) :
    (row.record now reply).circuitBreakerThreshold = row.circuitBreakerThreshold ∧
      (reply.isRefused = false →
        (row.record now reply).enabled = row.enabled ∧
          (row.record now reply).consecutiveFailures = reply.failures row.consecutiveFailures) ∧
      (reply.isRefused → (row.record now reply).enabled = false) := by
  cases reply <;> simp [record, recordSuccess, recordSkip, recordFailure, disableUnevaluatable,
    disable, EnqueueReply.isRefused, EnqueueReply.failures]

end ScheduleRow

namespace Firing

variable {f : Firing} {replies : List EnqueueReply}

/-- What a transaction has counted, logged and left of the breaker. -/
structure Tallies (f : Firing) (replies : List EnqueueReply) : Prop where
  enabled : f.schedule.enabled
  threshold : f.row.circuitBreakerThreshold = f.schedule.circuitBreakerThreshold
  stopped : f.schedule.circuitBreakerThreshold ≤ f.schedule.consecutiveFailures →
    f.row.circuitBreakerThreshold ≤ f.row.consecutiveFailures
  counter : ∀ o, f.row.counter o = f.schedule.counter o + logged f.schedule.id o f.log +
    if o = .failure then replies.countP EnqueueReply.isRefused else 0
  runs : f.row.runCount + (f.schedule.successCount + f.schedule.failureCount) =
    f.schedule.runCount + (f.row.successCount + f.row.failureCount)

/-- While it fires, what the replies have left of the row it found armed. -/
def Arms (f : Firing) (replies : List EnqueueReply) : Prop :=
  f.schedule.consecutiveFailures < f.schedule.circuitBreakerThreshold →
    (f.row.enabled ↔ ∀ reply ∈ replies, reply.isRefused = false) ∧
      ((∀ reply ∈ replies, reply.isRefused = false) →
        f.row.consecutiveFailures =
          replies.foldl EnqueueReply.failures f.schedule.consecutiveFailures)

theorem Tallies.skip (h : f.Tallies replies) (e : ScheduleLogRow)
    (he : e.scheduleId = f.schedule.id) (hskip : e.result.result = .skipped) {row : ScheduleRow}
    (hrow : row = f.row.recordSkip ∨ row = f.row.disable.recordSkip) :
    ({ f with row, log := f.log ++ [e] } : Firing).Tallies replies := by
  have hcounter (o : ExecutionOutcome) : row.counter o =
      f.row.counter o + if e.result.result = o then 1 else 0 := by
    rw [hskip]
    rcases hrow with rfl | rfl <;> cases o <;> rfl
  refine ⟨h.enabled, ?_, ?_, fun o => ?_, ?_⟩
  · rcases hrow with rfl | rfl <;> exact h.threshold
  · rcases hrow with rfl | rfl <;> exact h.stopped
  · have hold := h.counter o
    dsimp only
    rw [hcounter, logged_append, logged_singleton _ _ _ he]
    omega
  · rcases hrow with rfl | rfl <;> exact h.runs

theorem Tallies.record (h : f.Tallies replies)
    (harmed : f.schedule.consecutiveFailures < f.schedule.circuitBreakerThreshold)
    (e : ScheduleLogRow) (he : e.scheduleId = f.schedule.id) (now : Int) (reply : EnqueueReply)
    (hresult : e.result.result = reply.outcome) :
    ({ f with row := f.row.record now reply, log := f.log ++ [e] } : Firing).Tallies
      (replies ++ [reply]) := by
  obtain ⟨hthreshold, -, -⟩ := f.row.record_breaker now reply
  refine ⟨h.enabled, hthreshold.trans h.threshold, fun hle => absurd harmed (not_lt.mpr hle),
    fun o => ?_, ?_⟩
  · have hold := h.counter o
    have hrow := f.row.record_counter now reply o
    dsimp only
    rw [hrow, hold, logged_append, logged_singleton _ _ _ he, hresult, List.countP_append,
      List.countP_singleton]
    by_cases ho : o = .failure <;> simp [ho] <;> omega
  · have hold := h.runs
    have hrow := f.row.record_runCount now reply
    dsimp only
    omega

/-- The replies after one more firing. -/
def after (f : Firing) (env : Readings) (replies : List EnqueueReply) : List EnqueueReply :=
  replies ++ if f.schedule.passes env then [env.enqueue] else []

theorem Tallies.fire (h : f.Tallies replies) (now tick : Int) (allowJitter : Bool)
    (env : Readings) : (f.fire now tick allowJitter env).Tallies (f.after env replies) := by
  cases hp : f.schedule.passes env with
  | false =>
    obtain ⟨hresult, hrow⟩ := f.schedule.execute_stopped now allowJitter env f.row hp
    simp only [after, hp, Bool.false_eq_true, if_false, List.append_nil]
    exact h.skip _ rfl hresult (hrow.imp_right And.left)
  | true =>
    obtain ⟨hresult, hrow⟩ := f.schedule.execute_passed now allowJitter env f.row hp
    have harmed : f.schedule.consecutiveFailures < f.schedule.circuitBreakerThreshold := by
      simp only [ScheduleRow.passes, Bool.and_eq_true, decide_eq_true_eq] at hp
      exact hp.1.1
    have hrecord := h.record harmed
      ⟨f.schedule.id, tick, (f.schedule.execute now allowJitter env f.row).1⟩ rfl now
      env.enqueue hresult
    rw [← hrow] at hrecord
    simp only [after, hp, if_true]
    exact hrecord

theorem Arms.fire (h : f.Arms replies) (now tick : Int) (allowJitter : Bool) (env : Readings) :
    (f.fire now tick allowJitter env).Arms (f.after env replies) := by
  intro harmed
  obtain ⟨henabled, hfailures⟩ := h harmed
  simp only [Firing.fire]
  cases hp : f.schedule.passes env with
  | false =>
    obtain ⟨-, hrow⟩ := f.schedule.execute_stopped now allowJitter env f.row hp
    have hrow := hrow.resolve_right fun hbreaker => absurd harmed (not_lt.mpr hbreaker.2)
    simp only [hrow, after, hp, Bool.false_eq_true, if_false, List.append_nil]
    exact ⟨henabled, hfailures⟩
  | true =>
    obtain ⟨-, hrow⟩ := f.schedule.execute_passed now allowJitter env f.row hp
    obtain ⟨-, haccepted, hrefused⟩ := f.row.record_breaker now env.enqueue
    simp only [hrow, after, hp, if_true]
    cases href : env.enqueue.isRefused with
    | true =>
      refine ⟨iff_of_false (by simp [hrefused href]) fun hnone => ?_, fun hnone => ?_⟩ <;>
        simp [hnone env.enqueue (by simp)] at href
    | false =>
      obtain ⟨hsame, hcf⟩ := haccepted href
      refine ⟨?_, fun hnone => ?_⟩
      · rw [hsame, henabled, List.forall_mem_append, List.forall_mem_singleton, href]
        exact (and_iff_left rfl).symm
      · rw [hcf, List.foldl_append,
          hfailures fun reply hr => hnone reply (List.mem_append_left _ hr)]
        rfl

theorem Tallies.summarize (h : f.Tallies replies) (m : MissedRuns) :
    (f.summarize m).Tallies replies := by
  unfold Firing.summarize
  split
  · exact h.skip _ rfl rfl (.inl rfl)
  · exact h

theorem Tallies.setNextRun (h : f.Tallies replies) : f.setNextRun.Tallies replies :=
  ⟨h.enabled, h.threshold, h.stopped,
    fun o => by have := h.counter o; cases o <;> exact this, h.runs⟩

/-- The schedule is locked and nothing has fired. -/
theorem Tallies.opened {schedule : ScheduleRow} (henabled : schedule.enabled) (nextRun : Int) :
    (⟨schedule, schedule, [], nextRun⟩ : Firing).Tallies [] :=
  ⟨henabled, rfl, id, fun o => by simp [logged], rfl⟩

theorem Tallies.unevaluatable {schedule : ScheduleRow} (henabled : schedule.enabled) (now : Int) :
    (⟨schedule, schedule.disableUnevaluatable now,
      [⟨schedule.id, schedule.nextRun, .failure .unevaluatable⟩],
      schedule.nextRun⟩ : Firing).Tallies [] := by
  refine ⟨henabled, rfl, fun hle => ?_, fun o => ?_, ?_⟩
  · exact hle.trans (Int.le_add_one le_rfl)
  · cases o <;> simp [logged, ExecutionResult.failure, ScheduleRow.counter,
      ScheduleRow.disableUnevaluatable, ScheduleRow.recordFailure, ScheduleRow.disable]
  · simp only [ScheduleRow.disableUnevaluatable, ScheduleRow.recordFailure, ScheduleRow.disable]
    omega

end Firing

/-- What a transaction has done by the time it is in a phase, on the replies so far. -/
def FiringPhase.Tallied (replies : List EnqueueReply) : FiringPhase → Prop
  | .begun _ => True
  | .due f => f.Tallies replies ∧ f.Arms replies
  | .backfill f _ _ => f.Tallies replies ∧ f.Arms replies
  | .advance f => f.Tallies replies
  | .closing f => f.Tallies replies

namespace FiringTx

variable {cron : CronLib} {replies : List EnqueueReply}

theorem resolve_tallied {schedule : ScheduleRow} (henabled : schedule.enabled) (now : Int) :
    (resolve cron now schedule).Tallied [] := by
  unfold resolve
  split
  · exact ⟨.opened henabled _, fun _ => ⟨by simp [henabled], fun _ => rfl⟩⟩
  · exact .unevaluatable henabled now

theorem reply_eq {tx : FiringTx} {f : Firing} (hf : tx.fires = some f) (env : Readings) :
    (tx.reply env).toList = if f.schedule.passes env then [env.enqueue] else [] := by
  rw [reply, hf, Option.bind_some]
  split <;> rfl

theorem go_tallied {tx tx' : FiringTx} {env : Readings} (h : tx.phase.Tallied replies)
    (hgo : tx.go cron env = some tx') :
    tx'.phase.Tallied (replies ++ (tx.reply env).toList) := by
  obtain ⟨now, phase⟩ := tx
  unfold go at hgo
  dsimp only at h hgo
  split at hgo
  · rename_i f
    obtain ⟨htallies, harms⟩ := h
    rw [reply_eq rfl]
    split at hgo
    · cases hgo
      exact htallies.fire _ _ _ _
    · obtain ⟨m, -, rfl⟩ := Option.map_eq_some_iff.mp hgo
      exact ⟨htallies.fire _ _ _ _, harms.fire _ _ _ _⟩
  · rename_i f tick ticks m
    cases hgo
    rw [reply_eq rfl]
    exact ⟨h.1.fire _ _ _ _, h.2.fire _ _ _ _⟩
  · rename_i f m
    cases hgo
    exact (List.append_nil replies).symm ▸ h.1.summarize m
  · rename_i f
    cases hgo
    exact (List.append_nil replies).symm ▸ Firing.Tallies.setNextRun h
  · cases hgo

end FiringTx

namespace Schedulers

variable {cron : CronLib} {s s' : Schedulers} {replies : Nat → List EnqueueReply}

/-- Every open transaction stands where the replies to it have left it. -/
def Tallied (s : Schedulers) (replies : Nat → List EnqueueReply) : Prop :=
  ∀ (i : Nat) (w : SchedulerWorker) (tx : FiringTx), s.workers[i]? = some w → w.tx = some tx →
    tx.phase.Tallied (replies i)

namespace Tallied

theorem init (workers : Nat) (clock : Int) :
    (Schedulers.init workers clock).Tallied fun _ => [] := by
  intro i w tx hw htx
  rw [(List.mem_replicate.mp (List.mem_of_getElem? hw)).2] at htx
  cases htx

/-- One process goes on; the replies to the others stay. -/
theorem setWorker (h : s.Tallied replies) (i : Nat) {w : SchedulerWorker}
    (mine : List EnqueueReply) (hw : ∀ tx, w.tx = some tx → tx.phase.Tallied mine) :
    (s.setWorker i w).Tallied (Function.update replies i mine) := by
  intro j v tx hv htx
  rcases Ledger.setWorker_cases hv with ⟨hji, hv⟩ | ⟨rfl, rfl⟩
  · rw [Function.update_of_ne hji]
    exact h j v tx hv htx
  · rw [Function.update_self]
    exact hw tx htx

theorem idle (h : s.Tallied replies) (i : Nat) {w : SchedulerWorker} (hw : w.tx = none) :
    (s.setWorker i w).Tallied (Function.update replies i []) :=
  h.setWorker i [] fun tx htx => by cases hw.symm.trans htx

theorem keeps (h : s.Tallied replies) (i : Nat) {w : SchedulerWorker}
    (hw : ∀ tx, w.tx = some tx → tx.phase.Tallied (replies i)) :
    (s.setWorker i w).Tallied replies := by
  have := h.setWorker i (replies i) hw
  rwa [Function.update_eq_self] at this

theorem step (h : s.Tallied replies) {a : ScheduleAct} (hstep : s.step cron a = some s') :
    s'.Tallied (s.answers a replies) := by
  cases a with
  | tick d =>
    cases hstep
    exact h
  | create n lag =>
    obtain ⟨next, -, rfl⟩ := Option.map_eq_some_iff.mp hstep
    exact h
  | edit sid enabled failures =>
    simp only [Schedulers.step] at hstep
    split at hstep
    · cases hstep
    · cases hstep
      exact h
  | poll i =>
    obtain ⟨w, -, hstep⟩ := Option.bind_eq_some_iff.mp hstep
    split at hstep
    · cases hstep
      exact h.keeps i fun tx htx => absurd htx (Option.some_ne_none tx).symm
    · cases hstep
  | begin i =>
    obtain ⟨w, -, hstep⟩ := Option.bind_eq_some_iff.mp hstep
    split at hstep
    · cases hstep
      refine h.keeps i fun tx htx => ?_
      cases htx
      trivial
    · cases hstep
  | lock i =>
    obtain ⟨w, -, hstep⟩ := Option.bind_eq_some_iff.mp hstep
    split at hstep
    · split at hstep
      · rename_i schedule hlock
        cases hstep
        refine h.setWorker i [] fun tx htx => ?_
        cases htx
        have hdue := (Option.filter_eq_some_iff.mp hlock).2
        simp only [Bool.and_eq_true] at hdue
        exact FiringTx.resolve_tallied hdue.1.1 _
      · cases hstep
        exact h.idle i rfl
    · cases hstep
  | go i env =>
    obtain ⟨w, hw, hstep⟩ := Option.bind_eq_some_iff.mp hstep
    obtain ⟨tx', htx', rfl⟩ := Option.map_eq_some_iff.mp hstep
    obtain ⟨tx, htx, hgo⟩ := Option.bind_eq_some_iff.mp htx'
    have hreply : s.reply i env = tx.reply env := by simp [Schedulers.reply, hw, htx]
    refine h.setWorker i _ fun t ht => ?_
    cases ht
    rw [hreply]
    exact FiringTx.go_tallied (h i w tx hw htx) hgo
  | commit i =>
    obtain ⟨w, -, hstep⟩ := Option.bind_eq_some_iff.mp hstep
    split at hstep
    · cases hstep
      exact h.idle i rfl
    · cases hstep
  | rollback i =>
    obtain ⟨w, -, rfl⟩ := Option.map_eq_some_iff.mp hstep
    exact h.idle i rfl
  | crash i =>
    obtain ⟨w, -, rfl⟩ := Option.map_eq_some_iff.mp hstep
    exact h.idle i rfl

end Tallied

/-- A commit: whose transaction it is, and the rows of the table after it. -/
theorem step_commit {i : Nat} (h : s.step cron (.commit i) = some s') :
    ∃ w now f, s.workers[i]? = some w ∧ w.tx = some ⟨now, .closing f⟩ ∧ s'.db = s.db.commit f := by
  obtain ⟨w, hw, h⟩ := Option.bind_eq_some_iff.mp h
  split at h
  · cases h
    exact ⟨w, _, _, hw, ‹_›, rfl⟩
  · cases h

theorem mem_commit {db : ScheduleDb} {f : Firing} (hid : f.row.id = f.schedule.id)
    (hrow : f.schedule ∈ db.schedule) {r : ScheduleRow} :
    r ∈ (db.commit f).schedule ↔ r = f.row ∨ r ∈ db.schedule ∧ r.id ≠ f.schedule.id := by
  have hset : ({ f.row with id := f.schedule.id } : ScheduleRow) = f.row := by rw [← hid]
  constructor
  · intro hr
    obtain ⟨r₀, hr₀, rfl⟩ := Serial.mem_update.mp hr
    by_cases hsame : r₀.id = f.schedule.id
    · exact .inl (by simpa [hsame] using hset)
    · exact .inr (by simp [hsame, hr₀])
  · rintro (rfl | ⟨hr, hne⟩)
    · exact Serial.mem_update.mpr ⟨f.schedule, hrow, by simpa using hset⟩
    · exact Serial.mem_update.mpr ⟨r, hr, by simp [hne]⟩

/-- The holder of a lock on the way to its commit. -/
theorem Ledger.closing (hl : s.Ledger cron) {i : Nat} {w : SchedulerWorker} {now : Int} {f : Firing}
    (hw : s.workers[i]? = some w) (htx : w.tx = some ⟨now, .closing f⟩) :
    f.schedule ∈ s.db.schedule ∧ f.row.id = f.schedule.id ∧
      ∀ e ∈ f.log, e.scheduleId = f.schedule.id := by
  have hmem := List.mem_of_getElem? hw
  have hopen : f.Opened now := (hl.sound w hmem _ htx).1
  exact ⟨hl.held w hmem _ (by simp [SchedulerWorker.schedule, htx, FiringPhase.firing]),
    hopen.same.id, hopen.own⟩

namespace CountersAgree

/-- The counters and the log still agree after a commit exactly if none of the firings
it commits was refused. -/
theorem commit_iff (h : s.CountersAgree) (hl : s.Ledger cron) (ht : s.Tallied replies) {i : Nat}
    (hs : s.step cron (.commit i) = some s') :
    s'.CountersAgree ↔ ∀ reply ∈ replies i, reply.isRefused = false := by
  obtain ⟨w, now, f, hw, htx, hdb⟩ := step_commit hs
  obtain ⟨hrow, hid, hown⟩ := hl.closing hw htx
  have htally : f.Tallies (replies i) := ht i w _ hw htx
  obtain ⟨hagree, hruns⟩ := h f.schedule hrow
  have hcounter (o : ExecutionOutcome) : f.row.counter o = logged f.row.id o (s.db.commit f).log +
      if o = .failure then (replies i).countP EnqueueReply.isRefused else 0 := by
    rw [htally.counter o, hagree o, hid, ScheduleDb.commit, logged_append]
  have hnone : (replies i).countP EnqueueReply.isRefused = 0 ↔
      ∀ reply ∈ replies i, reply.isRefused = false := by
    simp [List.countP_eq_zero]
  rw [← hnone]
  constructor
  · intro h'
    have hafter := (h' f.row (hdb ▸ (mem_commit hid hrow).mpr (.inl rfl))).1 .failure
    have hfailure := hcounter .failure
    rw [hdb] at hafter
    simp only [if_true] at hfailure
    omega
  · intro hzero r hr
    rw [hdb] at hr ⊢
    rcases (mem_commit hid hrow).mp hr with rfl | ⟨hr, hne⟩
    · refine ⟨fun o => by simpa [hzero] using hcounter o, ?_⟩
      have := htally.runs
      omega
    · have hother := logged_of_ne fun e he => hown e he ▸ hne.symm
      refine ⟨fun o => ?_, (h r hr).2⟩
      rw [ScheduleDb.commit, logged_append, hother o]
      exact (h r hr).1 o

theorem step (h : s.CountersAgree) (hl : s.Ledger cron) {a : ScheduleAct}
    (ha : ∀ i, a ≠ .commit i) (hs : s.step cron a = some s') : s'.CountersAgree := by
  cases a with
  | tick d =>
    cases hs
    exact h
  | create n lag =>
    obtain ⟨next, -, rfl⟩ := Option.map_eq_some_iff.mp hs
    intro r hr
    rcases (Serial.mem_insert (h := fun _ => rfl)).mp hr with hr | rfl
    · exact h r hr
    · have hnone := logged_of_ne fun e he => (hl.fresh e he).ne
      exact ⟨fun o => by cases o <;> exact (hnone _).symm, rfl⟩
  | edit sid enabled failures =>
    simp only [Schedulers.step] at hs
    split at hs
    · cases hs
    · cases hs
      intro r' hr'
      obtain ⟨r, hr, rfl⟩ := Serial.mem_update.mp hr'
      obtain ⟨hagree, hruns⟩ := h r hr
      by_cases hid : r.id = sid
      · simp only [hid, decide_true, if_true]
        exact ⟨fun o => by have := hagree o; cases o <;> exact hid ▸ this, hruns⟩
      · simpa [hid] using h r hr
  | poll i =>
    obtain ⟨w, -, hs⟩ := Option.bind_eq_some_iff.mp hs
    split at hs <;> cases hs
    exact h
  | begin i =>
    obtain ⟨w, -, hs⟩ := Option.bind_eq_some_iff.mp hs
    split at hs <;> cases hs
    exact h
  | lock i =>
    obtain ⟨w, -, hs⟩ := Option.bind_eq_some_iff.mp hs
    split at hs
    · split at hs <;> cases hs <;> exact h
    · cases hs
  | go i env =>
    obtain ⟨w, -, hs⟩ := Option.bind_eq_some_iff.mp hs
    obtain ⟨tx, -, rfl⟩ := Option.map_eq_some_iff.mp hs
    exact h
  | commit i => exact absurd rfl (ha i)
  | rollback i =>
    obtain ⟨w, -, rfl⟩ := Option.map_eq_some_iff.mp hs
    exact h
  | crash i =>
    obtain ⟨w, -, rfl⟩ := Option.map_eq_some_iff.mp hs
    exact h

end CountersAgree

end Schedulers

section Runs

variable {cron : CronLib} (ρ : SchedulerRun cron)

theorem SchedulerRun.ledger (hρ : ∃ workers clock, ρ.state 0 = .init workers clock) :
    ∀ n ≤ ρ.length, (ρ.state n).Ledger cron := by
  obtain ⟨workers, clock, h0⟩ := hρ
  exact ρ.invariant (h0 ▸ .init workers clock) fun h hstep => h.step hstep

theorem SchedulerRun.tallied (hρ : ∃ workers clock, ρ.state 0 = .init workers clock) :
    ∀ n ≤ ρ.length, (ρ.state n).Tallied (SchedulerRun.replies ρ n) := by
  intro n
  induction n with
  | zero =>
    obtain ⟨workers, clock, h0⟩ := hρ
    exact fun _ => h0 ▸ .init workers clock
  | succ n ih => exact fun hn => (ih (Nat.le_of_succ_le hn)).step (ρ.next n hn)

end Runs

/-- Counters and log agree in every state of a run exactly if no transaction with a
firing that the row builder refused is committed. -/
theorem schedule_counters_agree (cron : CronLib) (ρ : SchedulerRun cron)
    (hρ : ∃ workers clock, ρ.state 0 = .init workers clock) :
    (∀ n ≤ ρ.length, (ρ.state n).CountersAgree) ↔
      ∀ n < ρ.length, ∀ i, ρ.act n = .commit i →
        ∀ reply ∈ SchedulerRun.replies ρ n i, reply.isRefused = false := by
  have hledger := SchedulerRun.ledger ρ hρ
  have htallied := SchedulerRun.tallied ρ hρ
  constructor
  · intro h n hn i hact
    have hstep := ρ.next n hn
    rw [hact] at hstep
    exact ((h n hn.le).commit_iff (hledger n hn.le) (htallied n hn.le) hstep).mp (h (n + 1) hn)
  · intro h n
    induction n with
    | zero =>
      obtain ⟨workers, clock, h0⟩ := hρ
      rw [h0]
      exact fun _ r hr => absurd hr Serial.not_mem_empty
    | succ n ih =>
      intro hn
      have hagree := ih (Nat.le_of_succ_le hn)
      have hl := hledger n (Nat.le_of_succ_le hn)
      have hstep := ρ.next n hn
      by_cases hcommit : ∃ i, ρ.act n = .commit i
      · obtain ⟨i, hact⟩ := hcommit
        rw [hact] at hstep
        exact (hagree.commit_iff hl (htallied n (Nat.le_of_succ_le hn)) hstep).mpr (h n hn i hact)
      · exact hagree.step hl (fun i hact => hcommit ⟨i, hact⟩) hstep

/-- A due tick, refused by the row builder. -/
def refusedActs : List ScheduleAct :=
  [.create minutelySchedule 0, .tick 60, .poll 0, .begin 0, .lock 0,
    .go 0 ⟨0, 0, 0, .refused "priority above the ceiling"⟩, .go 0 ⟨0, 0, 0, .duplicate⟩,
    .go 0 ⟨0, 0, 0, .duplicate⟩, .commit 0]

def refusedRun : SchedulerRun fun _ _ => some minutely :=
  .ofList (.init 1 0) refusedActs (by decide +kernel)

theorem refusal_counts_twice :
    ¬∀ (cron : CronLib) (ρ : SchedulerRun cron),
      (∃ workers clock, ρ.state 0 = .init workers clock) →
        ∀ n ≤ ρ.length, (ρ.state n).CountersAgree := by
  intro h
  have hagree := h _ refusedRun ⟨1, 0, rfl⟩ 9 (by decide)
  obtain ⟨r, hr, hid, hfailures⟩ : ∃ r ∈ (refusedRun.state 9).db.schedule.rows,
      r.id = 1 ∧ r.counter .failure = 2 := by decide +kernel
  have hlogged : logged 1 .failure (refusedRun.state 9).db.log = 1 := by decide +kernel
  have := (hagree r hr).1 .failure
  rw [hid, hlogged, hfailures] at this
  omega

theorem schedule_counters_agree_recovery :
    (recoveryRun.state 14).db.schedule.rows.map (fun r => (r.runCount, r.skipCount)) = [(2, 2)] ∧
      ∀ n ≤ 14, (recoveryRun.state n).CountersAgree := by
  refine ⟨by decide +kernel, (schedule_counters_agree _ recoveryRun ⟨2, 0, rfl⟩).mpr ?_⟩
  intro n hn i hact
  have hmem : ScheduleAct.commit i ∈ recoveryActs := hact ▸ Run.ofList_act_mem hn
  obtain rfl : i = 0 := by simpa [recoveryActs] using hmem
  have haccepted : ∀ n < 14, ∀ reply ∈ SchedulerRun.replies recoveryRun n 0,
      reply.isRefused = false := by decide +kernel
  exact haccepted n hn

end Pyjobby
