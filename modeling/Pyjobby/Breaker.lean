import Pyjobby.Outcomes

/-! The circuit breaker over whole recoveries: it is tested against the row as the
transaction locked it, while the firings of the transaction change the row. -/

namespace Pyjobby

open Relational Transition

theorem ScheduleRow.armed_iff {r : ScheduleRow} :
    r.armed ↔ r.enabled ∧ r.consecutiveFailures < r.circuitBreakerThreshold := by
  simp [armed]

/-- The replies so far have neither refused a firing nor tripped the breaker. -/
def StillArmed (schedule : ScheduleRow) (replies : List EnqueueReply) : Prop :=
  (∀ reply ∈ replies, reply.isRefused = false) ∧
    replies.foldl EnqueueReply.failures schedule.consecutiveFailures <
    schedule.circuitBreakerThreshold

/-- A firing builds a job only on a row that is armed as its transaction sees it, and
none does once the table has the row disarmed, until an operator's edit. -/
def SchedulerRun.StopsFiring {cron : CronLib} (ρ : SchedulerRun cron) : Prop :=
  (∀ n < ρ.length, ∀ i f, (ρ.state n).Builds (ρ.act n) i f → f.row.armed) ∧
    ∀ n m, n ≤ m → m < ρ.length → ∀ r ∈ (ρ.state n).db.schedule, r.armed = false →
      (∀ k, n ≤ k → k < m → ∀ enabled failures, ρ.act k ≠ .edit r.id enabled failures) →
        ∀ i f, (ρ.state m).Builds (ρ.act m) i f → f.schedule.id ≠ r.id

theorem FiringTx.fires_tallied {tx : FiringTx} {f : Firing} {replies : List EnqueueReply}
    (hf : tx.fires = some f) (h : tx.phase.Tallied replies) :
    tx.phase.firing = some f ∧ f.Tallies replies ∧ f.Arms replies := by
  unfold fires at hf
  split at hf
  · rename_i g hphase
    cases hf
    rw [hphase] at h ⊢
    exact ⟨rfl, h⟩
  · rename_i g tick ticks m hphase
    cases hf
    rw [hphase] at h ⊢
    exact ⟨rfl, h⟩
  · cases hf

namespace Schedulers

variable {cron : CronLib} {s s' : Schedulers} {replies : Nat → List EnqueueReply}

/-- The table has the row of the schedule disarmed. -/
def Disarmed (s : Schedulers) (sid : Nat) : Prop :=
  sid < s.db.schedule.next ∧ ∀ r ∈ s.db.schedule, r.id = sid → r.armed = false

/-- A firing gets to the enqueue on an armed row exactly if the replies before it have
left the row armed. -/
theorem builds_armed_iff (ht : s.Tallied replies) {a : ScheduleAct} {i : Nat} {f : Firing}
    (hb : s.Builds a i f) : f.row.armed ↔ StillArmed f.schedule (replies i) := by
  obtain ⟨env, w, tx, -, hw, htx, hf, hp⟩ := hb
  obtain ⟨-, htallies, harms⟩ := FiringTx.fires_tallied hf (ht i w tx hw htx)
  have harmed : f.schedule.consecutiveFailures < f.schedule.circuitBreakerThreshold := by
    simp only [ScheduleRow.passes, Bool.and_eq_true, decide_eq_true_eq] at hp
    exact hp.1.1
  obtain ⟨henabled, hfailures⟩ := harms harmed
  rw [ScheduleRow.armed_iff, henabled, htallies.threshold, StillArmed]
  constructor
  · rintro ⟨hnone, hlt⟩
    exact ⟨hnone, hfailures hnone ▸ hlt⟩
  · rintro ⟨hnone, hlt⟩
    exact ⟨hnone, hfailures hnone ▸ hlt⟩

/-- What has the lock of a disarmed schedule found its breaker tripped. -/
theorem Disarmed.tripped {sid : Nat} (h : s.Disarmed sid) {f : Firing} {mine : List EnqueueReply}
    (htallies : f.Tallies mine) (hrow : f.schedule ∈ s.db.schedule) (hid : f.schedule.id = sid) :
    f.schedule.circuitBreakerThreshold ≤ f.schedule.consecutiveFailures := by
  have hdisarmed := h.2 f.schedule hrow hid
  simpa [ScheduleRow.armed, htallies.enabled] using hdisarmed

theorem Disarmed.not_builds {sid : Nat} (h : s.Disarmed sid) (hl : s.Ledger cron)
    (ht : s.Tallied replies) {a : ScheduleAct} {i : Nat} {f : Firing} (hb : s.Builds a i f) :
    f.schedule.id ≠ sid := by
  intro hid
  obtain ⟨env, w, tx, -, hw, htx, hf, hp⟩ := hb
  obtain ⟨hfiring, htallies, -⟩ := FiringTx.fires_tallied hf (ht i w tx hw htx)
  have hrow := hl.held w (List.mem_of_getElem? hw) f.schedule
    (by simp [SchedulerWorker.schedule, htx, hfiring])
  have htripped := h.tripped htallies hrow hid
  simp [ScheduleRow.passes, not_lt.mpr htripped] at hp

theorem Disarmed.step {sid : Nat} (h : s.Disarmed sid) (hl : s.Ledger cron) (ht : s.Tallied replies)
    {a : ScheduleAct} (hedit : ∀ enabled failures, a ≠ .edit sid enabled failures)
    (hs : s.step cron a = some s') : s'.Disarmed sid := by
  cases a with
  | tick d =>
    cases hs
    exact h
  | create n lag =>
    obtain ⟨next, -, rfl⟩ := Option.map_eq_some_iff.mp hs
    refine ⟨Nat.lt_succ_of_lt h.1, fun r hr hid => ?_⟩
    rcases (Serial.mem_insert (h := fun _ => rfl)).mp hr with hr | rfl
    · exact h.2 r hr hid
    · exact absurd hid h.1.ne'
  | edit sid' enabled failures =>
    simp only [Schedulers.step] at hs
    split at hs
    · cases hs
    · cases hs
      refine ⟨h.1, fun r' hr' hid => ?_⟩
      obtain ⟨r, hr, rfl⟩ := Serial.mem_update.mp hr'
      by_cases hsame : r.id = sid'
      · simp only [hsame, decide_true, if_true] at hid
        exact absurd (hid ▸ rfl) (hedit enabled failures)
      · simp only [hsame, decide_false, Bool.false_eq_true, if_false] at hid ⊢
        exact h.2 r hr hid
  | poll i =>
    obtain ⟨w, -, hs⟩ := Option.bind_eq_some_iff.mp hs
    split at hs <;> cases hs
    exact h
  | begin i =>
    obtain ⟨w, -, hs⟩ := Option.bind_eq_some_iff.mp hs
    split at hs <;> cases hs
    exact h
  | lock i =>
    obtain ⟨w, -, hs⟩ := Option.bind_eq_some_iff.mp hs
    split at hs
    · split at hs <;> cases hs <;> exact h
    · cases hs
  | go i env =>
    obtain ⟨w, -, hs⟩ := Option.bind_eq_some_iff.mp hs
    obtain ⟨tx, -, rfl⟩ := Option.map_eq_some_iff.mp hs
    exact h
  | commit i =>
    obtain ⟨w, now, f, hw, htx, hdb⟩ := step_commit hs
    obtain ⟨hrow, hid, -⟩ := hl.closing hw htx
    have htallies : f.Tallies (replies i) := ht i w _ hw htx
    refine ⟨hdb ▸ h.1, fun r hr hsid => ?_⟩
    rw [hdb] at hr
    rcases (mem_commit hid hrow).mp hr with rfl | ⟨hr, -⟩
    · have := htallies.stopped (h.tripped htallies hrow (hid ▸ hsid))
      simp [ScheduleRow.armed, not_lt.mpr this]
    · exact h.2 r hr hsid
  | rollback i =>
    obtain ⟨w, -, rfl⟩ := Option.map_eq_some_iff.mp hs
    exact h
  | crash i =>
    obtain ⟨w, -, rfl⟩ := Option.map_eq_some_iff.mp hs
    exact h

end Schedulers

/-- A tripped or disabled schedule stops firing exactly if no firing of a transaction
gets to the enqueue after replies to it that disarm the schedule. -/
theorem breaker_stops_firing (cron : CronLib) (ρ : SchedulerRun cron)
    (hρ : ∃ workers clock, ρ.state 0 = .init workers clock) :
    SchedulerRun.StopsFiring ρ ↔
      ∀ n < ρ.length, ∀ i f, (ρ.state n).Builds (ρ.act n) i f →
        StillArmed f.schedule (SchedulerRun.replies ρ n i) := by
  have hledger := SchedulerRun.ledger ρ hρ
  have htallied := SchedulerRun.tallied ρ hρ
  have harmed (n : Nat) (hn : n < ρ.length) {i : Nat} {f : Firing}
      (hb : (ρ.state n).Builds (ρ.act n) i f) := Schedulers.builds_armed_iff (htallied n hn.le) hb
  constructor
  · exact fun h n hn i f hb => (harmed n hn hb).mp (h.1 n hn i f hb)
  · refine fun h => ⟨fun n hn i f hb => (harmed n hn hb).mpr (h n hn i f hb), ?_⟩
    intro n m hnm hm r hr hoff hedit i f hb
    have hdisarmed : ∀ k, n ≤ k → k ≤ m → (ρ.state k).Disarmed r.id := by
      intro k hnk
      induction hnk with
      | refl =>
        exact fun _ => ⟨Serial.lt_next (t := (ρ.state n).db.schedule) hr,
          fun r' hr' hid => Serial.eq_of_ident hr' hr hid ▸ hoff⟩
      | @step k hnk ih =>
        intro hk
        have hklt : k < ρ.length := (Nat.lt_of_succ_le hk).trans hm
        exact (ih (Nat.le_of_succ_le hk)).step (hledger k hklt.le) (htallied k hklt.le)
          (hedit k hnk (Nat.lt_of_succ_le hk)) (ρ.next k hklt)
    exact (hdisarmed m hnm le_rfl).not_builds (hledger m hm.le) (htallied m hm.le) hb

/-- A schedule that trips at its first failure. -/
def brittleSchedule : NewSchedule := { minutelySchedule with circuitBreakerThreshold := 1 }

/-- Two minutes are due: the enqueue of the due tick fails, that of the missed one not. -/
def burstActs : List ScheduleAct :=
  [.create brittleSchedule 0, .tick 120, .poll 0, .begin 0, .lock 0,
    .go 0 ⟨0, 0, 0, .failed "deadlock detected"⟩, .go 0 ⟨0, 0, 0, .created 1⟩]

def burstRun : SchedulerRun fun _ _ => some minutely :=
  .ofList (.init 1 0) burstActs (by decide +kernel)

theorem burst_fires_tripped :
    ¬∀ (cron : CronLib) (ρ : SchedulerRun cron),
      (∃ workers clock, ρ.state 0 = .init workers clock) → SchedulerRun.StopsFiring ρ := by
  intro h
  obtain ⟨w, hw, tx, htx, f, hf, hp, harmed⟩ : ∃ w ∈ (burstRun.state 6).workers[0]?,
      ∃ tx ∈ w.tx, ∃ f ∈ tx.fires, f.schedule.passes ⟨0, 0, 0, .created 1⟩ ∧
        f.row.armed = false := by
    decide +kernel
  have := (h _ burstRun ⟨1, 0, rfl⟩).1 6 (by decide) 0 f ⟨_, w, tx, rfl, hw, htx, hf, hp⟩
  rw [harmed] at this
  cases this

theorem breaker_stops_firing_recovery :
    (∃ r ∈ (recoveryRun.state 14).db.schedule.rows, r.successCount = 2) ∧
      SchedulerRun.StopsFiring recoveryRun := by
  refine ⟨by decide +kernel, (breaker_stops_firing _ recoveryRun ⟨2, 0, rfl⟩).mpr ?_⟩
  rintro n hn i f ⟨env, w, tx, hact, hw, htx, hf, -⟩
  have hmem : ScheduleAct.go i env ∈ recoveryActs := hact ▸ Run.ofList_act_mem hn
  obtain rfl : i = 0 := by
    simp only [recoveryActs, List.mem_cons, ScheduleAct.go.injEq, reduceCtorEq, false_or,
      List.not_mem_nil, or_false] at hmem
    omega
  have harmed : ∀ n < 14, ∀ w ∈ (recoveryRun.state n).workers[0]?, ∀ tx ∈ w.tx, ∀ f ∈ tx.fires,
      (∀ reply ∈ SchedulerRun.replies recoveryRun n 0, reply.isRefused = false) ∧
        (SchedulerRun.replies recoveryRun n 0).foldl EnqueueReply.failures
          f.schedule.consecutiveFailures < f.schedule.circuitBreakerThreshold := by
    decide +kernel
  exact harmed n hn w hw tx htx f hf

end Pyjobby
