import Pyjobby.Dependents
import Mathlib.Data.List.Sort

/-! The retention sweeps over checkpoints and stream rows: a probe of the job
table, and a delete of what hangs off the jobs it found. Between the two nothing
holds the jobs. -/

namespace Pyjobby

open Relational Transition

/-- `sweep_completed_checkpoints` and `sweep_completed_streams`. -/
inductive SweepKind where
  | checkpoints
  | streams
  deriving DecidableEq

inductive SweepPhase where
  | begun
  | probed (doomed : List Nat)
  | ended

/-- A sweep's transaction; `now` is the moment it began. -/
structure Sweep where
  kind : SweepKind
  retention : Int
  limit : Nat
  now : Int
  phase : SweepPhase

def Jorb.endedAt (j : Jorb) : Int := j.finished.getD j.updated

namespace Db

/-- `(SELECT s.job_id .. LIMIT 1) IS NOT NULL`. -/
def durable (db : Db) : SweepKind → Nat → Bool
  | .checkpoints, jid => db.step.rows.any fun s => s.jobId = jid
  | .streams, jid => db.stream.rows.any fun s => s.jobId = jid

/-- `SWEEP_CHECKPOINT_JOBS_SQL` and `SWEEP_STREAM_JOBS_SQL`. Among jobs that ended
at the same moment the scan order decides. -/
def completed (db : Db) (s : Sweep) (scan : Nat → Nat) : List Nat :=
  let jobs := db.jorb.rows.filter fun j =>
    j.state = .finished && j.endedAt < s.now - s.retention && db.durable s.kind j.id
  let order (j k : Jorb) : Prop :=
    toLex (j.endedAt, scan j.id) ≤ toLex (k.endedAt, scan k.id)
  ((jobs.insertionSort order).map Jorb.id).take s.limit

/-- `DELETE_CHECKPOINTS_SQL` and `DELETE_STREAM_ROWS_SQL`. -/
def deleteDurable (db : Db) (ids : List Nat) : SweepKind → Db
  | .checkpoints => { db with step := db.step.delete fun s => s.jobId ∈ ids }
  | .streams => { db with stream := db.stream.delete fun s => s.jobId ∈ ids }

theorem mem_completed {db : Db} {s : Sweep} {scan : Nat → Nat} {jid : Nat}
    (h : jid ∈ db.completed s scan) : ∃ j ∈ db.jorb, j.id = jid ∧ j.state = .finished := by
  obtain ⟨j, hj, rfl⟩ := List.mem_map.mp (List.mem_of_mem_take h)
  have hjobs := List.mem_filter.mp ((List.perm_insertionSort _ _).mem_iff.mp hj)
  simp only [Bool.and_eq_true, decide_eq_true_eq] at hjobs
  exact ⟨j, hjobs.1, rfl, hjobs.2.1.1⟩

end Db

/-- The database with the sweeps of any number of monitors under way. -/
structure Monitored where
  world : World
  sweeps : List Sweep

inductive MonitorAct where
  | env (a : Act)
  | begin (kind : SweepKind) (retention : Int) (limit : Nat)
  | probe (i : Nat) (scan : List Nat)
  | delete (i : Nat)

instance : Inhabited MonitorAct := ⟨.env default⟩

namespace Sweep

def probe (s : Sweep) (db : Db) (scan : List Nat) : Option Sweep :=
  match s.phase with
  | .begun =>
    let doomed := db.completed s (scan.idxOf ·)
    some { s with phase := if doomed.isEmpty then .ended else .probed doomed }
  | _ => none

def delete (s : Sweep) (db : Db) : Option (Db × Sweep) :=
  match s.phase with
  | .probed doomed => some (db.deleteDurable doomed s.kind, { s with phase := .ended })
  | _ => none

end Sweep

namespace Monitored

def init (clock : Int) (queue : String → Option QueueRow) : Monitored :=
  ⟨.init .empty clock queue, []⟩

def step (s : Monitored) : MonitorAct → Option Monitored
  | .env a => (s.world.step a).map fun world => { s with world }
  | .begin kind retention limit =>
    some { s with sweeps := s.sweeps ++ [⟨kind, retention, limit, s.world.clock, .begun⟩] }
  | .probe i scan =>
    (s.sweeps[i]?.bind fun sw => sw.probe s.world.db scan).map fun sw =>
      { s with sweeps := s.sweeps.set i sw }
  | .delete i =>
    (s.sweeps[i]?.bind fun sw => sw.delete s.world.db).map fun (db, sw) =>
      ⟨{ s.world with db }, s.sweeps.set i sw⟩

/-- Every checkpoint and stream row that is gone belonged to a job that had ended. -/
def Spares (s s' : Monitored) : Prop :=
  (∀ c ∈ s.world.db.step, c ∉ s'.world.db.step →
    ∀ r ∈ s.world.db.jorb, r.id = c.jobId → r.state ∈ JorbState.terminalStates) ∧
  ∀ c ∈ s.world.db.stream, c ∉ s'.world.db.stream →
    ∀ r ∈ s.world.db.jorb, r.id = c.jobId → r.state ∈ JorbState.terminalStates

/-- No requeue takes a job that a sweep has probed and not got to yet. -/
def Undisturbed (s : Monitored) (a : MonitorAct) : Prop :=
  ∀ b batch allowed, a = .env b → Requeues b batch allowed →
    ∀ r ∈ s.world.db.jorb, r.id ∈ batch → r.state ∈ allowed →
      ∀ sw ∈ s.sweeps, ∀ doomed, sw.phase = .probed doomed → r.id ∉ doomed

end Monitored

abbrev MonitorRun := Run Monitored.step

theorem Updates.finished {w : World} {a : Act} {u : Update} (h : Updates w a u) {r : Jorb}
    (hc : u.cond w.db r) (hr : r.state = .finished) :
    (u.set.set r).state = .finished ∨
      ∃ batch allowed, Requeues a batch allowed ∧ r.id ∈ batch ∧ r.state ∈ allowed := by
  cases h with
  | supervise s =>
    change s.cond w.clock w.db r at hc
    cases s with
    | requeue batch allowed delay resetErrors =>
      refine .inr ⟨batch, allowed, .requeue batch allowed delay resetErrors, ?_⟩
      simpa [SupervisorStmt.cond] using hc
    | updatePriority | updateAppVersion | setAwaited | bounce => exact .inl hr
    | _ =>
      simp [SupervisorStmt.cond, Jorb.live, Jorb.inFlight, Jorb.stranded, Jorb.unsatisfiable, hr,
        JorbState.liveStates, JorbState.jobStates, JorbState.terminalStates,
        JorbState.inFlightStates] at hc
  | rerunFresh jid allowed delay resetErrors =>
    refine .inr ⟨[jid], allowed, .rerunFresh jid allowed delay resetErrors, ?_⟩
    simpa [SupervisorStmt.update, SupervisorStmt.cond] using hc
  | worker exec s =>
    have hflight := (Jorb.attemptOf_iff.mp hc).2.1
    simp [Jorb.inFlight_iff, hr] at hflight
  | wakeSelf => simp [enqueueNextSelfFinished, hr] at hc
  | wakeGroup => simp [enqueueNextIfPeerGroupIsFinished, hr] at hc

theorem World.step_finished {w w' : World} {a : Act} (hw : Locks w) (h : w.step a = some w')
    {r' : Jorb} (hr' : r' ∈ w'.db.jorb) :
    w.db.jorb.next ≤ r'.id ∨ ∃ r ∈ w.db.jorb, r.id = r'.id ∧ (r.state = .finished →
      r'.state = .finished ∨
        ∃ batch allowed, Requeues a batch allowed ∧ r.id ∈ batch ∧ r.state ∈ allowed) := by
  have kept (hmem : r' ∈ w.db.jorb) : ∃ r ∈ w.db.jorb, r.id = r'.id ∧ (r.state = .finished →
      r'.state = .finished ∨
        ∃ batch allowed, Requeues a batch allowed ∧ r.id ∈ batch ∧ r.state ∈ allowed) :=
    ⟨r', hmem, rfl, .inl⟩
  cases step_effect h with
  | quiet db clock queue jorb => exact .inr (kept (jorb ▸ hr'))
  | close session jorb => exact .inr (kept (jorb ▸ hr'))
  | opens => exact .inr (kept hr')
  | delete => exact .inr (kept (Serial.mem_delete.mp hr').1)
  | insert j =>
    rcases (Serial.mem_insert (h := fun _ => rfl)).mp hr' with hr' | rfl
    · exact .inr (kept hr')
    · exact .inl le_rfl
  | update db wakes u jorb free source =>
    obtain ⟨r, hr, rfl⟩ := Serial.mem_update.mp (jorb ▸ hr')
    refine .inr ⟨r, hr, ?_⟩
    split
    · exact ⟨(u.set.key_set r).symm, source.finished ‹_›⟩
    · exact ⟨rfl, .inl⟩
  | @commit _ jid c t _ _ act tx phase mem id jorb =>
    obtain ⟨r, hr, rfl⟩ := Serial.mem_update.mp (jorb ▸ hr')
    refine .inr ⟨r, hr, ?_⟩
    split
    · rename_i hid
      have hadmits := hw.commit_admits tx phase hr (of_decide_eq_true hid)
      refine ⟨((c.args.claimed c.now).key_set r).symm, fun hfin => ?_⟩
      cases (ClaimArgs.admits_queued hadmits).symm.trans hfin
    · exact ⟨rfl, .inl⟩

/-- The jobs a sweep is about to strip have finished, and their ids are taken. -/
structure Monitored.Watched (s : Monitored) : Prop where
  locks : Locks s.world
  doomed : ∀ sw ∈ s.sweeps, ∀ doomed, sw.phase = .probed doomed → ∀ jid ∈ doomed,
    jid < s.world.db.jorb.next ∧ ∀ r ∈ s.world.db.jorb, r.id = jid → r.state = .finished

theorem Db.deleteDurable_jorb (db : Db) (ids : List Nat) (k : SweepKind) :
    (db.deleteDurable ids k).jorb = db.jorb := by
  cases k <;> rfl

theorem Db.deleteDurable_worker (db : Db) (ids : List Nat) (k : SweepKind) :
    (db.deleteDurable ids k).worker = db.worker := by
  cases k <;> rfl

theorem Db.mem_of_deleteDurable {db : Db} {ids : List Nat} {k : SweepKind} :
    (∀ c ∈ db.step, c ∉ (db.deleteDurable ids k).step → c.jobId ∈ ids) ∧
      ∀ c ∈ db.stream, c ∉ (db.deleteDurable ids k).stream → c.jobId ∈ ids := by
  cases k with
  | checkpoints =>
    refine ⟨fun c hc hgone => ?_, fun c hc hgone => absurd hc hgone⟩
    simpa [deleteDurable, hc] using hgone
  | streams =>
    refine ⟨fun c hc hgone => absurd hc hgone, fun c hc hgone => ?_⟩
    simpa [deleteDurable, hc] using hgone

namespace Monitored.Watched

variable {s s' : Monitored}

theorem init (clock : Int) (queue : String → Option QueueRow) :
    Watched (Monitored.init clock queue) :=
  ⟨Locks.init _ _ _, fun _ hsw => absurd hsw List.not_mem_nil⟩

theorem env (h : s.Watched) {a : Act} (hok : s.Undisturbed (.env a)) {w' : World}
    (hw : s.world.step a = some w') : Watched { s with world := w' } := by
  refine ⟨h.locks.step (World.step_effect hw), fun sw hsw doomed hphase jid hjid => ?_⟩
  obtain ⟨hlt, hfin⟩ := h.doomed sw hsw doomed hphase jid hjid
  refine ⟨hlt.trans_le (World.step_effect hw).next_le, fun r' hr' hid => ?_⟩
  rcases World.step_finished h.locks hw hr' with hborn | ⟨r, hr, hrid, hkeep⟩
  · omega
  · rcases hkeep (hfin r hr (hrid.trans hid)) with hkept | ⟨batch, allowed, hact, hmem, hstate⟩
    · exact hkept
    · have hfree := hok a batch allowed rfl hact r hr hmem hstate sw hsw doomed hphase
      exact absurd (hrid.trans hid ▸ hjid) hfree

theorem sweeps (h : s.Watched) {sweeps : List Sweep}
    (hnew : ∀ sw ∈ sweeps, sw ∈ s.sweeps ∨ ∀ doomed, sw.phase = .probed doomed → ∀ jid ∈ doomed,
      ∃ r ∈ s.world.db.jorb, r.id = jid ∧ r.state = .finished) :
    Watched { s with sweeps } := by
  refine ⟨h.locks, fun sw hsw doomed hphase jid hjid => ?_⟩
  rcases hnew sw hsw with hold | hnew
  · exact h.doomed sw hold doomed hphase jid hjid
  · obtain ⟨r, hr, rfl, hfin⟩ := hnew doomed hphase jid hjid
    exact ⟨Serial.lt_next hr, fun t ht hid => Serial.eq_of_ident ht hr hid ▸ hfin⟩

theorem step (h : s.Watched) {a : MonitorAct} (hok : s.Undisturbed a)
    (hstep : s.step a = some s') : s'.Watched := by
  cases a with
  | env a =>
    obtain ⟨w', hw', rfl⟩ := Option.map_eq_some_iff.mp hstep
    exact h.env hok hw'
  | begin kind retention limit =>
    cases hstep
    refine h.sweeps fun sw hsw => ?_
    rcases List.mem_append.mp hsw with hsw | hsw
    · exact .inl hsw
    · rw [List.mem_singleton.mp hsw]
      exact .inr nofun
  | probe i scan =>
    obtain ⟨sw', hsw', rfl⟩ := Option.map_eq_some_iff.mp hstep
    obtain ⟨sw, -, hprobe⟩ := Option.bind_eq_some_iff.mp hsw'
    refine h.sweeps fun t ht => ?_
    rcases List.mem_or_eq_of_mem_set ht with ht | rfl
    · exact .inl ht
    · refine .inr fun doomed hphase jid hjid => ?_
      unfold Sweep.probe at hprobe
      split at hprobe
      · cases hprobe
        dsimp only at hphase
        split at hphase
        · cases hphase
        · cases hphase
          exact Db.mem_completed hjid
      · cases hprobe
  | delete i =>
    obtain ⟨⟨db, sw'⟩, hsw', rfl⟩ := Option.map_eq_some_iff.mp hstep
    obtain ⟨sw, -, hdelete⟩ := Option.bind_eq_some_iff.mp hsw'
    unfold Sweep.delete at hdelete
    split at hdelete
    · rename_i doomed hphase
      cases hdelete
      have hover : Watched { s with sweeps := s.sweeps.set i { sw with phase := .ended } } := by
        refine h.sweeps fun t ht => ?_
        rcases List.mem_or_eq_of_mem_set ht with ht | rfl
        · exact .inl ht
        · exact .inr nofun
      refine ⟨h.locks.step (.quiet (a := default) _ _ s.world.queue (Db.deleteDurable_jorb _ _ _)
        le_rfl (.none (Db.deleteDurable_worker _ _ _))), fun t ht => ?_⟩
      have hjorb := Db.deleteDurable_jorb s.world.db doomed sw.kind
      simpa only [hjorb] using hover.doomed t ht
    · cases hdelete

theorem spares (h : s.Watched) {i : Nat} (hstep : s.step (.delete i) = some s') : s.Spares s' := by
  obtain ⟨⟨db, sw'⟩, hsw', rfl⟩ := Option.map_eq_some_iff.mp hstep
  obtain ⟨sw, hsw, hdelete⟩ := Option.bind_eq_some_iff.mp hsw'
  unfold Sweep.delete at hdelete
  split at hdelete
  · rename_i doomed hphase
    cases hdelete
    have hterminal {jid : Nat} (hjid : jid ∈ doomed) {r : Jorb} (hr : r ∈ s.world.db.jorb)
        (hid : r.id = jid) : r.state ∈ JorbState.terminalStates := by
      rw [(h.doomed sw (List.mem_of_getElem? hsw) doomed hphase jid hjid).2 r hr hid]
      decide
    exact ⟨fun c hc hgone r hr hid => hterminal (Db.mem_of_deleteDurable.1 c hc hgone) hr hid,
      fun c hc hgone r hr hid => hterminal (Db.mem_of_deleteDurable.2 c hc hgone) hr hid⟩
  · cases hdelete

end Monitored.Watched

/-- Where no requeue gets between the probe of a sweep and its delete, no sweep
deletes a checkpoint or a stream row of a job that has not ended. -/
theorem retention_spares_live (ρ : MonitorRun) (hρ : ∃ clock queue, ρ.state 0 = .init clock queue)
    (hok : ∀ n < ρ.length, (ρ.state n).Undisturbed (ρ.act n)) :
    ∀ n < ρ.length, ∀ i, ρ.act n = .delete i → (ρ.state n).Spares (ρ.state (n + 1)) := by
  obtain ⟨clock, queue, h0⟩ := hρ
  have hwatched : ∀ n ≤ ρ.length, (ρ.state n).Watched :=
    ρ.invariant_of hok (h0 ▸ .init clock queue) fun h hok hstep => h.step hok hstep
  intro n hn i hact
  exact (hwatched n hn.le).spares (hact ▸ ρ.next n hn)

/-- A requeue that does take a probed job exposes what the job left behind: the
delete, coming next, takes it from a job that is to run again. -/
theorem Monitored.requeue_exposes {s s₁ : Monitored} {batch : List Nat} {allowed : List JorbState}
    {delay : Int} {resetErrors : Bool}
    (h : s.step (.env (.supervise (.requeue batch allowed delay resetErrors))) = some s₁)
    {r : Jorb} (hr : r ∈ s.world.db.jorb) (hid : r.id ∈ batch) (hstate : r.state ∈ allowed)
    {i : Nat} {sw : Sweep} (hsw : s.sweeps[i]? = some sw) {doomed : List Nat}
    (hphase : sw.phase = .probed doomed) (hdoomed : r.id ∈ doomed)
    (hrows : s.world.db.durable sw.kind r.id) :
    ∃ s₂, s₁.step (.delete i) = some s₂ ∧ ¬s₁.Spares s₂ := by
  obtain ⟨w', hw', rfl⟩ := Option.map_eq_some_iff.mp h
  obtain ⟨r', hr', hid', hstate'⟩ :=
    (Requeues.requeue batch allowed delay resetErrors).requeueState hw' hr hid hstate
  obtain ⟨-, rfl⟩ := World.update_eq_some.mp hw'
  have hlive : r'.state ∉ JorbState.terminalStates := by
    rw [hstate', Jorb.requeueState]
    split <;> decide
  have hgone {c : Nat} (hc : c = r.id) : c ∈ doomed := hc ▸ hdoomed
  refine ⟨_, by simp only [step, hsw, Option.bind_some, Sweep.delete, hphase]; rfl,
    fun hspares => ?_⟩
  cases hkind : sw.kind with
  | checkpoints =>
    rw [hkind] at hspares hrows
    obtain ⟨c, hc, hcid⟩ := List.any_eq_true.mp hrows
    have hcid : c.jobId = r.id := of_decide_eq_true hcid
    refine hlive (hspares.1 c hc (fun hmem => ?_) r' hr' (hid'.trans hcid.symm))
    simpa [hgone hcid] using (Table.mem_delete.mp hmem).2
  | streams =>
    rw [hkind] at hspares hrows
    obtain ⟨c, hc, hcid⟩ := List.any_eq_true.mp hrows
    have hcid : c.jobId = r.id := of_decide_eq_true hcid
    refine hlive (hspares.2 c hc (fun hmem => ?_) r' hr' (hid'.trans hcid.symm))
    simpa [hgone hcid] using (Table.mem_delete.mp hmem).2

def retiredActs : List Act :=
  .enqueue (.plain "q") :: Act.claim 1 (.plain "q") ++
    [.worker 0 (.run none), .durable 0 (.recordStep 1 "charge" none none 0),
      .worker 0 (.finished none), .tick 10]

def sweptActs : List MonitorAct :=
  retiredActs.map .env ++ [.begin .checkpoints 5 100, .probe 0 [], .delete 0]

def sweptRun : MonitorRun :=
  .ofList (.init 0 fun _ => none) sweptActs (by decide)

theorem retention_spares_live_swept :
    (sweptRun.state 10).world.db.step.rows.length = 1 ∧
      (sweptRun.state 11).world.db.step.rows.length = 0 ∧
      (sweptRun.state 10).Spares (sweptRun.state 11) := by
  refine ⟨by decide, by decide, retention_spares_live sweptRun ⟨_, _, rfl⟩
    (fun n hn b batch allowed hact hreq => ?_) 10 (by decide) 0 rfl⟩
  match n, hn with
  | 0, _ | 1, _ | 2, _ | 3, _ | 4, _ | 5, _ | 6, _ | 7, _ =>
    cases hact
    cases hreq
  | 8, _ | 9, _ | 10, _ => cases hact

/-- Between the probe and the delete, `rerun_job(fresh=False)` revives the job. -/
def revivedActs : List MonitorAct :=
  retiredActs.map .env ++ [.begin .checkpoints 5 100, .probe 0 [],
    .env (.supervise (.requeue [1] JorbState.rerunnableStates 0 true)), .delete 0]

def revivedRun : MonitorRun :=
  .ofList (.init 0 fun _ => none) revivedActs (by decide)

/-- The sweep deletes the checkpoint of a queued job. -/
theorem revived_job_swept :
    ¬∀ ρ : MonitorRun, (∃ clock queue, ρ.state 0 = .init clock queue) →
      ∀ n < ρ.length, ∀ i, ρ.act n = .delete i → (ρ.state n).Spares (ρ.state (n + 1)) := by
  intro h
  have hspares := (h revivedRun ⟨_, _, rfl⟩ 11 (by decide) 0 rfl).1
  have hgone : (revivedRun.state 12).world.db.step.rows = [] := rfl
  have hqueued : ∀ c ∈ (revivedRun.state 11).world.db.step.rows,
      ∃ r ∈ (revivedRun.state 11).world.db.jorb.rows, r.id = c.jobId ∧ r.state = .queued := by
    decide
  obtain ⟨c, hc⟩ : ∃ c, c ∈ (revivedRun.state 11).world.db.step.rows :=
    ⟨_, List.mem_singleton_self _⟩
  obtain ⟨r, hr, hid, hstate⟩ := hqueued c hc
  have hterminal := hspares c hc (fun hmem => by rw [← Table.mem_rows, hgone] at hmem; cases hmem)
    r hr hid
  rw [hstate] at hterminal
  exact absurd hterminal (by decide)

end Pyjobby
