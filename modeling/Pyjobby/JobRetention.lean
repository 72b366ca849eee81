import Mathlib.Algebra.Group.Int.Defs
import Pyjobby.HeldRows
import Pyjobby.Retention
import Pyjobby.Retry

/-! The retention sweep over jobs: a probe that locks the expired jobs no live job
depends on, and their deletion. None of the three dependencies is a foreign key, so
nothing but the probe looks for them. -/

namespace Pyjobby

open Relational Transition

/-- `->>`, as far as the text of an id goes: what else a value may be reads as
something other than a row of digits. Python writes a float from `10 ^ 16` on with an
exponent, which JSONB spells out. -/
def Json.text? : Json → Option String
  | str s => some s
  | int n => some (toString n)
  | float x => if x.den = 1 ∧ 10 ^ 16 ≤ x.num then some (toString x.num) else none
  | _ => none

/-- The row names the job `u` through `waitfor_job`, through `waitfor_group` or through
`use_result_from`. -/
def Jorb.dependsOn (r u : Jorb) : Bool :=
  r.waitforJob = some (u.id : Int) || (r.waitforGroup.isSome && r.waitforGroup = u.runGroup) ||
    (r.adminData.get? "use_result_from").bind Json.text? = some (toString u.id)

/-- How far the sweep's transaction has come; from the probe to its end it holds the
rows it has doomed locked, and until the commit the others see them. -/
inductive JobSweepPhase where
  | begun
  | probed (doomed : List Nat)
  | deleted (doomed : List Nat)
  | ended

structure JobSweep where
  retention : Int
  limit : Nat
  now : Int
  phase : JobSweepPhase

def JobSweep.doomed (s : JobSweep) : List Nat :=
  match s.phase with
  | .probed doomed | .deleted doomed => doomed
  | .begun | .ended => []

/-- `SWEEP_EXPIRED_JOBS_SQL`. `skip` are the rows that others lock; among jobs that
ended at the same moment the scan order decides. -/
def Db.expired (db : Db) (s : JobSweep) (skip : Nat → Bool) (scan : Nat → Nat) : List Nat :=
  let jobs := db.jorb.rows.filter fun j =>
    j.state.terminal && j.endedAt < s.now - s.retention &&
      !(db.jorb.rows.any fun r => r.live && r.dependsOn j) && !skip j.id
  let order (j k : Jorb) : Prop :=
    toLex (j.endedAt, scan j.id) ≤ toLex (k.endedAt, scan k.id)
  ((jobs.insertionSort order).map Jorb.id).take s.limit

/-- The database with the job sweeps of any number of monitors under way. -/
structure Reaping where
  world : World
  sweeps : List JobSweep

inductive ReapAct where
  | env (a : Act)
  | begin (retention : Int) (limit : Nat)
  | probe (i : Nat) (scan : List Nat)
  | delete (i : Nat)
  | commit (i : Nat)
  | rollback (i : Nat)

instance : Inhabited ReapAct := ⟨.env default⟩

namespace Reaping

def init (clock : Int) (queue : String → Option QueueRow) : Reaping :=
  ⟨.init .empty clock queue, []⟩

/-- Some sweep holds the row locked. -/
def held (s : Reaping) (jid : Nat) : Bool := s.sweeps.any fun sw => jid ∈ sw.doomed

def setPhase (s : Reaping) (i : Nat) (sw : JobSweep) (phase : JobSweepPhase) : Reaping :=
  { s with sweeps := s.sweeps.set i { sw with phase } }

def probe (s : Reaping) (i : Nat) (scan : List Nat) (sw : JobSweep) : Option Reaping :=
  match sw.phase with
  | .begun =>
    let doomed := s.world.db.expired sw (fun jid => s.held jid || s.world.locked jid) (scan.idxOf ·)
    some (s.setPhase i sw (if doomed.isEmpty then .ended else .probed doomed))
  | _ => none

def delete (s : Reaping) (i : Nat) (sw : JobSweep) : Option Reaping :=
  match sw.phase with
  | .probed doomed => some (s.setPhase i sw (.deleted doomed))
  | _ => none

def commit (s : Reaping) (i : Nat) (sw : JobSweep) : Option Reaping :=
  match sw.phase with
  | .deleted doomed =>
    some { s.setPhase i sw .ended with
      world := { s.world with db := s.world.db.deleteJobs doomed } }
  | _ => none

def step (s : Reaping) : ReapAct → Option Reaping
  | .env a =>
    if s.world.writesHeld s.held a then none
    else (s.world.step a).bind fun world =>
      if world.locksHeld s.held then none else some { s with world }
  | .begin retention limit =>
    some { s with sweeps := s.sweeps ++ [⟨retention, limit, s.world.clock, .begun⟩] }
  | .probe i scan => s.sweeps[i]?.bind (s.probe i scan)
  | .delete i => s.sweeps[i]?.bind (s.delete i)
  | .commit i => s.sweeps[i]?.bind (s.commit i)
  | .rollback i => s.sweeps[i]?.map fun sw => s.setPhase i sw .ended

/-- No live job depends on a job that the act deletes, be it the statement or the commit
that lets the others see it gone. -/
def SparesNeeded (s : Reaping) (a : ReapAct) : Prop :=
  ∀ i sw, a = .delete i ∨ a = .commit i → s.sweeps[i]? = some sw →
    ∀ u ∈ s.world.db.jorb, u.id ∈ sw.doomed →
      ∀ r ∈ s.world.db.jorb, r.live → r.dependsOn u = false

/-- No enqueue and no requeue brings in or back a job that depends on a doomed one. -/
def Undisturbed (s : Reaping) (a : ReapAct) : Prop :=
  ∀ sw ∈ s.sweeps, ∀ u ∈ s.world.db.jorb, u.id ∈ sw.doomed →
    (∀ j, a = .env (.enqueue j) →
      (j.row s.world.clock s.world.db.jorb.next).dependsOn u = false) ∧
    ∀ b batch allowed, a = .env b → Requeues b batch allowed →
      ∀ r ∈ s.world.db.jorb, r.id ∈ batch → r.state ∈ allowed → r.dependsOn u = false

end Reaping

abbrev ReapRun := Run Reaping.step

theorem SameJob.dependsOn {r r' u u' : Jorb} (h : SameJob r r')
    (hadmin : r'.adminData = r.adminData)
    (hu : SameJob u u') : r'.dependsOn u' = r.dependsOn u := by
  simp only [Jorb.dependsOn, h.waitforJob, h.waitforGroup, hadmin, hu.id, hu.runGroup]

theorem SameJob.refl (r : Jorb) : SameJob r r := ⟨rfl, rfl, rfl, rfl, rfl, rfl⟩

theorem Jorb.live_of_inFlight {r : Jorb} (h : r.inFlight) : r.live := by
  rcases Jorb.inFlight_iff.mp h with hstate | hstate <;> simp [Jorb.live, hstate] <;> decide

/-- The requeue statements apart, no UPDATE brings a job back to life. -/
theorem Updates.live {w : World} {a : Act} {u : Update} (h : Updates w a u) {r : Jorb}
    (hc : u.cond w.db r) (hlive : (u.set.set r).live) :
    r.live ∨ ∃ batch allowed, Requeues a batch allowed ∧ r.id ∈ batch ∧ r.state ∈ allowed := by
  cases h with
  | supervise s =>
    change s.cond w.clock w.db r at hc
    cases s with
    | requeue batch allowed delay resetErrors =>
      refine .inr ⟨batch, allowed, .requeue batch allowed delay resetErrors, ?_⟩
      simpa [SupervisorStmt.cond] using hc
    | updatePriority | updateAppVersion | setAwaited | bounce => exact .inl hlive
    | cancel batch =>
      simp only [SupervisorStmt.cond, Bool.and_eq_true] at hc
      exact .inl hc.2
    | sweepDeadWorkerJobs batch grace =>
      simp only [SupervisorStmt.cond, Bool.and_eq_true] at hc
      exact .inl (Jorb.live_of_inFlight hc.1.2)
    | _ =>
      refine .inl ?_
      simp only [SupervisorStmt.cond, Jorb.stranded, Jorb.unsatisfiable, Bool.and_eq_true,
        decide_eq_true_eq] at hc
      simp [Jorb.live, hc]
      decide
  | rerunFresh jid allowed delay resetErrors =>
    refine .inr ⟨[jid], allowed, .rerunFresh jid allowed delay resetErrors, ?_⟩
    simpa [SupervisorStmt.update, SupervisorStmt.cond] using hc
  | worker exec s => exact .inl (Jorb.live_of_inFlight (Jorb.attemptOf_iff.mp hc).2.1)
  | wakeSelf =>
    simp only [enqueueNextSelfFinished, Bool.and_eq_true, decide_eq_true_eq] at hc
    exact .inl (by simp [Jorb.live, hc]; decide)
  | wakeGroup =>
    simp only [enqueueNextIfPeerGroupIsFinished, Bool.and_eq_true, decide_eq_true_eq] at hc
    exact .inl (by simp [Jorb.live, hc]; decide)

/-- Where the rows of a step come from, as far as dependencies go. -/
theorem World.step_dependencies {w w' : World} {a : Act} (hw : Locks w) (h : w.step a = some w')
    {r' : Jorb} (hr' : r' ∈ w'.db.jorb) :
    (∃ j, a = .enqueue j ∧ r' = j.row w.clock w.db.jorb.next) ∨
      ∃ r ∈ w.db.jorb, SameJob r r' ∧ r'.adminData = r.adminData ∧ (r'.live → r.live ∨
        ∃ batch allowed, Requeues a batch allowed ∧ r.id ∈ batch ∧ r.state ∈ allowed) := by
  have kept (hmem : r' ∈ w.db.jorb) : ∃ r ∈ w.db.jorb, SameJob r r' ∧ r'.adminData = r.adminData ∧
      (r'.live → r.live ∨
        ∃ batch allowed, Requeues a batch allowed ∧ r.id ∈ batch ∧ r.state ∈ allowed) :=
    ⟨r', hmem, .refl r', rfl, .inl⟩
  cases step_effect h with
  | quiet db clock queue jorb => exact .inr (kept (jorb ▸ hr'))
  | close session jorb => exact .inr (kept (jorb ▸ hr'))
  | opens => exact .inr (kept hr')
  | delete => exact .inr (kept (Serial.mem_delete.mp hr').1)
  | insert j act =>
    rcases (Serial.mem_insert (h := fun _ => rfl)).mp hr' with hr' | rfl
    · exact .inr (kept hr')
    · exact .inl ⟨j, act, rfl⟩
  | update db wakes u jorb free source =>
    obtain ⟨r, hr, rfl⟩ := Serial.mem_update.mp (jorb ▸ hr')
    refine .inr ⟨r, hr, ?_⟩
    split
    · exact ⟨(source.sound.keeps r).1, source.adminData r, source.live ‹_›⟩
    · exact ⟨.refl r, rfl, .inl⟩
  | @commit _ jid c t _ _ act tx phase mem id jorb =>
    obtain ⟨r, hr, rfl⟩ := Serial.mem_update.mp (jorb ▸ hr')
    refine .inr ⟨r, hr, ?_⟩
    split
    · rename_i hid
      have hadmits := hw.commit_admits tx phase hr (of_decide_eq_true hid)
      refine ⟨c.args.claimed_same c.now r, rfl, fun _ => .inl ?_⟩
      simp only [Jorb.live, ClaimArgs.admits_queued hadmits]
      decide
    · exact ⟨.refl r, rfl, .inl⟩

theorem Db.mem_expired {db : Db} {sw : JobSweep} {skip : Nat → Bool} {scan : Nat → Nat} {jid : Nat}
    (h : jid ∈ db.expired sw skip scan) : ∃ u ∈ db.jorb, u.id = jid ∧ skip jid = false ∧
      ∀ r ∈ db.jorb, r.live → r.dependsOn u = false := by
  obtain ⟨u, hu, rfl⟩ := List.mem_map.mp (List.mem_of_mem_take h)
  have hjobs := List.mem_filter.mp ((List.perm_insertionSort _ _).mem_iff.mp hu)
  simp only [Bool.and_eq_true, Bool.not_eq_true', List.any_eq_false, Serial.mem_rows,
    not_and, Bool.not_eq_true] at hjobs
  exact ⟨u, hjobs.1, rfl, hjobs.2.2, fun r hr hlive => hjobs.2.1.2 r hr hlive⟩

namespace Reaping

variable {s s' : Reaping}

theorem held_of_mem {sw : JobSweep} (hsw : sw ∈ s.sweeps) {jid : Nat} (hjid : jid ∈ sw.doomed) :
    s.held jid :=
  List.any_eq_true.mpr ⟨sw, hsw, decide_eq_true hjid⟩

/-- No live job depends on a doomed one, and only its sweep has it locked. -/
structure Guarded (s : Reaping) : Prop where
  locks : Locks s.world
  doomed : ∀ sw ∈ s.sweeps, ∀ jid ∈ sw.doomed,
    jid < s.world.db.jorb.next ∧ s.world.locked jid = false ∧
      ∀ u ∈ s.world.db.jorb, u.id = jid → ∀ r ∈ s.world.db.jorb, r.live → r.dependsOn u = false

namespace Guarded

theorem init (clock : Int) (queue : String → Option QueueRow) : Guarded (.init clock queue) :=
  ⟨Locks.init _ _ _, fun _ hsw => absurd hsw List.not_mem_nil⟩

theorem env (h : s.Guarded) {a : Act} (hok : s.Undisturbed (.env a)) {w' : World}
    (hw : s.world.step a = some w') (hfree : w'.locksHeld s.held = false) :
    Guarded { s with world := w' } := by
  refine ⟨h.locks.step (World.step_effect hw), fun sw hsw jid hjid => ?_⟩
  obtain ⟨hlt, -, hspared⟩ := h.doomed sw hsw jid hjid
  refine ⟨hlt.trans_le (World.step_effect hw).next_le,
    World.locksHeld_eq_false.mp hfree jid (held_of_mem hsw hjid), fun u' hu' hid r' hr' hlive => ?_⟩
  rcases World.step_dependencies h.locks hw hu' with ⟨j, -, rfl⟩ | ⟨u, hu, hsame, -, -⟩
  · exact absurd (show s.world.db.jorb.next = jid from hid) (by omega)
  have hid : u.id = jid := hsame.id.symm.trans hid
  obtain ⟨henqueue, hrequeue⟩ := hok sw hsw u hu (hid ▸ hjid)
  rcases World.step_dependencies h.locks hw hr' with ⟨j, rfl, rfl⟩ | ⟨r, hr, hdep, hadmin, hback⟩
  · exact ((SameJob.refl _).dependsOn rfl hsame).trans (henqueue j rfl)
  · rw [hdep.dependsOn hadmin hsame]
    rcases hback hlive with hlive | ⟨batch, allowed, hreq, hmem, hstate⟩
    · exact hspared u hu hid r hr hlive
    · exact hrequeue a batch allowed rfl hreq r hr hmem hstate

/-- The world as it was, and no sweep that dooms more than before but by a probe. -/
theorem sweeps (h : s.Guarded) {sweeps : List JobSweep}
    (hnew : ∀ sw ∈ sweeps, ∀ jid ∈ sw.doomed, (∃ t ∈ s.sweeps, jid ∈ t.doomed) ∨
      ∃ u ∈ s.world.db.jorb, u.id = jid ∧ s.world.locked jid = false ∧
        ∀ r ∈ s.world.db.jorb, r.live → r.dependsOn u = false) :
    Guarded { s with sweeps } := by
  refine ⟨h.locks, fun sw hsw jid hjid => ?_⟩
  rcases hnew sw hsw jid hjid with ⟨t, ht, hdoomed⟩ | ⟨u, hu, rfl, hfree, hspared⟩
  · exact h.doomed t ht jid hdoomed
  · exact ⟨Serial.lt_next hu, hfree, fun v hv hid => Serial.eq_of_ident hv hu hid ▸ hspared⟩

theorem setPhase (h : s.Guarded) {i : Nat} {sw : JobSweep} {phase : JobSweepPhase}
    (hnew : ∀ jid ∈ JobSweep.doomed { sw with phase }, (∃ t ∈ s.sweeps, jid ∈ t.doomed) ∨
      ∃ u ∈ s.world.db.jorb, u.id = jid ∧ s.world.locked jid = false ∧
        ∀ r ∈ s.world.db.jorb, r.live → r.dependsOn u = false) :
    Guarded (s.setPhase i sw phase) := by
  refine h.sweeps fun t ht => ?_
  rcases List.mem_or_eq_of_mem_set ht with ht | rfl
  · exact fun jid hjid => .inl ⟨t, ht, hjid⟩
  · exact hnew

theorem probe (h : s.Guarded) {i : Nat} {scan : List Nat} {sw : JobSweep}
    (hstep : s.probe i scan sw = some s') : s'.Guarded := by
  unfold Reaping.probe at hstep
  split at hstep
  · cases hstep
    refine h.setPhase fun jid hjid => .inr ?_
    split at hjid
    · exact absurd hjid List.not_mem_nil
    · simp only [JobSweep.doomed] at hjid
      obtain ⟨u, hu, hid, hskip, hspared⟩ := Db.mem_expired hjid
      exact ⟨u, hu, hid, (Bool.or_eq_false_iff.mp hskip).2, hspared⟩
  · cases hstep

theorem delete (h : s.Guarded) {i : Nat} {sw : JobSweep} (hsw : s.sweeps[i]? = some sw)
    (hstep : s.delete i sw = some s') : s'.Guarded := by
  unfold Reaping.delete at hstep
  split at hstep
  · rename_i doomed hphase
    cases hstep
    refine h.setPhase fun jid hjid => .inl ⟨sw, List.mem_of_getElem? hsw, ?_⟩
    simpa only [JobSweep.doomed, hphase] using hjid
  · cases hstep

theorem commit (h : s.Guarded) {i : Nat} {sw : JobSweep} (hsw : s.sweeps[i]? = some sw)
    (hstep : s.commit i sw = some s') : s'.Guarded := by
  unfold Reaping.commit at hstep
  split at hstep
  · rename_i doomed hphase
    cases hstep
    have hdoomed : sw.doomed = doomed := by simp only [JobSweep.doomed, hphase]
    have hended : Guarded (s.setPhase i sw .ended) :=
      h.setPhase fun jid hjid => absurd hjid List.not_mem_nil
    have hfree : s.world.blocks (fun r => r.id ∈ doomed) = false := by
      refine World.blocks_eq_false.mpr fun r _ hlocked => decide_eq_false fun hmem => ?_
      have := (h.doomed sw (List.mem_of_getElem? hsw) r.id (hdoomed ▸ hmem)).2.1
      exact absurd hlocked (by simp [this])
    refine ⟨h.locks.step (.delete doomed rfl hfree), fun t ht jid hjid => ?_⟩
    obtain ⟨hlt, hunlocked, hspared⟩ := hended.doomed t ht jid hjid
    exact ⟨hlt, hunlocked, fun u hu hid r hr =>
      hspared u (Serial.mem_delete.mp hu).1 hid r (Serial.mem_delete.mp hr).1⟩
  · cases hstep

theorem step (h : s.Guarded) {a : ReapAct} (hok : s.Undisturbed a) (hstep : s.step a = some s') :
    s'.Guarded := by
  cases a with
  | env a =>
    simp only [Reaping.step] at hstep
    split at hstep
    · cases hstep
    · obtain ⟨w', hw', hstep⟩ := Option.bind_eq_some_iff.mp hstep
      split at hstep
      · cases hstep
      · cases hstep
        exact h.env hok hw' (Bool.eq_false_iff.mpr ‹_›)
  | begin retention limit =>
    cases hstep
    refine h.sweeps fun sw hsw jid hjid => ?_
    rcases List.mem_append.mp hsw with hsw | hsw
    · exact .inl ⟨sw, hsw, hjid⟩
    · rw [List.mem_singleton.mp hsw] at hjid
      exact absurd hjid List.not_mem_nil
  | probe i scan =>
    obtain ⟨sw, -, hstep⟩ := Option.bind_eq_some_iff.mp hstep
    exact h.probe hstep
  | delete i =>
    obtain ⟨sw, hsw, hstep⟩ := Option.bind_eq_some_iff.mp hstep
    exact h.delete hsw hstep
  | commit i =>
    obtain ⟨sw, hsw, hstep⟩ := Option.bind_eq_some_iff.mp hstep
    exact h.commit hsw hstep
  | rollback i =>
    obtain ⟨sw, -, rfl⟩ := Option.map_eq_some_iff.mp hstep
    exact h.setPhase fun jid hjid => absurd hjid List.not_mem_nil

end Guarded

end Reaping

/-- Where no job that is to wait for a doomed one, or to read its result, comes in or
back to life before the sweep has committed, no sweep deletes a job that a live one needs. -/
theorem job_retention_keeps (ρ : ReapRun) (hρ : ∃ clock queue, ρ.state 0 = .init clock queue)
    (hok : ∀ n < ρ.length, (ρ.state n).Undisturbed (ρ.act n)) :
    ∀ n < ρ.length, (ρ.state n).SparesNeeded (ρ.act n) := by
  obtain ⟨clock, queue, h0⟩ := hρ
  have hguarded : ∀ n ≤ ρ.length, (ρ.state n).Guarded :=
    ρ.invariant_of hok (h0 ▸ .init clock queue) fun h hok hstep => h.step hok hstep
  intro n hn i sw _ hsw u hu hid
  exact ((hguarded n hn.le).doomed sw (List.mem_of_getElem? hsw) u.id hid).2.2 u hu rfl

/-- A dependent enqueued after the probe exposes the doomed job: the delete, coming next,
takes a job that the dependent waits for. -/
theorem Reaping.enqueue_exposes {s s₁ : Reaping} {j : NewJob}
    (h : s.step (.env (.enqueue j)) = some s₁)
    {i : Nat} {sw : JobSweep} (hsw : s.sweeps[i]? = some sw) {u : Jorb} (hu : u ∈ s.world.db.jorb)
    (hid : u.id ∈ sw.doomed)
    (hdep : (j.row s.world.clock s.world.db.jorb.next).dependsOn u) :
    ¬s₁.SparesNeeded (.delete i) ∧ ¬s₁.SparesNeeded (.commit i) := by
  simp only [Reaping.step] at h
  split at h
  · cases h
  obtain ⟨w', hw', h⟩ := Option.bind_eq_some_iff.mp h
  split at h
  · cases h
  cases h
  obtain ⟨db, hdb, rfl⟩ := Option.map_eq_some_iff.mp hw'
  have hborn := (Db.enqueue_jorb hdb).mpr (.inr rfl)
  have hkept := (Db.enqueue_jorb hdb).mpr (.inl hu)
  have hlive : (j.row s.world.clock s.world.db.jorb.next).live := by
    simp only [Jorb.live, NewJob.row]
    split <;> decide
  constructor
  · intro hspares
    have := hspares i sw (.inl rfl) hsw u hkept hid _ hborn hlive
    simp [hdep] at this
  · intro hspares
    have := hspares i sw (.inr rfl) hsw u hkept hid _ hborn hlive
    simp [hdep] at this

def reapedActs : List ReapAct :=
  retiredActs.map .env ++ [.begin 5 100, .probe 0 [], .delete 0, .commit 0]

def reapedRun : ReapRun :=
  .ofList (.init 0 fun _ => none) reapedActs (by decide)

theorem job_retention_keeps_reaped :
    (reapedRun.state 10).world.db.jorb.rows.length = 1 ∧
      (reapedRun.state 12).world.db.jorb.rows.length = 0 ∧
      (reapedRun.state 10).SparesNeeded (.delete 0) := by
  refine ⟨by decide, by decide, job_retention_keeps reapedRun ⟨_, _, rfl⟩
    (fun n hn sw hsw u hu hdoomed => ⟨fun j hact => ?_, fun b batch allowed hact hreq => ?_⟩)
    10 (by decide)⟩
  all_goals
    match n, hn with
    | 0, _ | 1, _ | 2, _ | 3, _ | 4, _ | 5, _ | 6, _ | 7, _ => exact absurd hsw List.not_mem_nil
    | 8, _ | 9, _ | 10, _ | 11, _ => cases hact

/-- Between the probe and the delete, a client enqueues a job that waits for job 1. -/
def strandedActs : List ReapAct :=
  retiredActs.map .env ++ [.begin 5 100, .probe 0 [],
    .env (.enqueue { NewJob.plain "q" with waitforJob := some 1 }), .delete 0, .commit 0]

def strandedRun : ReapRun :=
  .ofList (.init 0 fun _ => none) strandedActs (by decide)

theorem awaited_job_reaped :
    ¬∀ ρ : ReapRun, (∃ clock queue, ρ.state 0 = .init clock queue) →
      ∀ n < ρ.length, (ρ.state n).SparesNeeded (ρ.act n) := by
  intro h
  have hspares := h strandedRun ⟨_, _, rfl⟩ 12 (by decide)
  obtain ⟨sw, hsw, hdoomed⟩ : ∃ sw, (strandedRun.state 12).sweeps[0]? = some sw ∧ sw.doomed = [1] :=
    ⟨_, rfl, rfl⟩
  obtain ⟨u, hu, hid⟩ : ∃ u ∈ (strandedRun.state 12).world.db.jorb.rows, u.id = 1 := by decide
  obtain ⟨r, hr, hlive, hdep⟩ : ∃ r ∈ (strandedRun.state 12).world.db.jorb.rows, r.live ∧
      r.waitforJob = some 1 := by decide
  have hspared := hspares 0 sw (.inr rfl) hsw u hu
    (hid ▸ hdoomed ▸ List.mem_singleton_self 1) r hr hlive
  simp [Jorb.dependsOn, hdep, hid] at hspared

end Pyjobby
