import Pyjobby.World

/-! A cancel on its way to the running task: the `run` statement and its
RETURNING, the task it leads to, and the `jorb_cancel` notification, which the
worker's callback drops unless that task exists. -/

namespace Pyjobby

open Relational Transition

/-- Where `_process` stands with its job. `started` holds what the committed `run`
returned: no row, or the row's `cancel_requested`. -/
inductive RunPos where
  | claimed
  | started (returned : Option Bool)
  | executing
  | left
  deriving DecidableEq

/-- A worker and its job. `task` is the execution task while it is not done, and
whether it has been cancelled; `inFlight` counts the job's notifications sent to
this connection and not delivered. -/
structure Delivery where
  db : Db
  clock : Int
  job : Jorb
  pos : RunPos
  task : Option Bool
  connected : Bool
  inFlight : Nat

inductive DeliveryAct where
  | supervise (s : SupervisorStmt)
  | own (s : WorkerStmt)
  | runCommit (timeout : Option Int)
  | resume
  | deliver
  | taskDone
  | connectionLost
  | reconnect

instance : Inhabited DeliveryAct := ⟨.reconnect⟩

namespace Delivery

def init (db : Db) (clock : Int) (job : Jorb) : Delivery where
  db := db
  clock := clock
  job := job
  pos := .claimed
  task := none
  connected := true
  inFlight := 0

/-- `jorb_cancel_notify`: `AFTER UPDATE OF cancel_requested .. WHEN
(NEW.cancel_requested AND NEW.state = 'running')`. Only the cancel sets the column
to anything but FALSE. -/
def notifies (s : Delivery) (stmt : SupervisorStmt) : Bool :=
  s.db.jorb.rows.any fun r =>
    r.id = s.job.id && stmt.cond s.clock s.db r && (stmt.set s.clock r).cancelRequested &&
      (stmt.set s.clock r).state = .running &&
      match stmt with
      | .cancel _ => true
      | .requeue .. => true
      | _ => false

def supervise (s : Delivery) (stmt : SupervisorStmt) : Delivery :=
  { s with
    db := (stmt.update s.clock).run s.db
    inFlight := if s.connected && s.notifies stmt then s.inFlight + 1 else s.inFlight }

def own (s : Delivery) (stmt : WorkerStmt) : Delivery :=
  { s with db := (stmt.update s.clock s.job.id s.job.runEpoch).run s.db }

def returned (s : Delivery) : Option Bool :=
  (s.db.jorb.rows.find? fun r => r.attemptOf s.job.id s.job.runEpoch).map Jorb.cancelRequested

def step (s : Delivery) : DeliveryAct → Option Delivery
  | .supervise stmt => some (s.supervise stmt)
  | .own stmt =>
    match s.pos, stmt with
    | .executing, .reschedule _ => some (s.own stmt)
    | .left, .run _ => none
    | .left, _ => some (s.own stmt)
    | _, _ => none
  | .runCommit timeout =>
    if s.pos = .claimed ∧ s.connected then
      some { s.own (.run timeout) with pos := .started s.returned }
    else none
  | .resume =>
    match s.pos with
    | .started (some false) => some { s with pos := .executing, task := some false }
    | .started _ => some { s with pos := .left }
    | _ => none
  | .deliver =>
    if s.connected ∧ 0 < s.inFlight then
      some { s with inFlight := s.inFlight - 1, task := s.task.map fun _ => true }
    else none
  | .taskDone =>
    match s.pos with
    | .executing => some { s with pos := .left, task := none }
    | _ => none
  | .connectionLost =>
    -- `ex` awaits no answer any more and issues `run` again once reconnected
    let pos := match s.pos with
      | .started _ => .claimed
      | pos => pos
    some { s with connected := false, inFlight := 0, pos }
  | .reconnect => some { s with connected := true }

def Requested (s : Delivery) : Prop :=
  ∃ r ∈ s.db.jorb, r.id = s.job.id ∧ r.runEpoch = s.job.runEpoch ∧ r.state = .running ∧
    r.cancelRequested

/-- The cancel will never reach the task. -/
def Unreached (s : Delivery) : Prop := s.Requested ∧ s.task = some false ∧ s.inFlight = 0

/-- The step drops no notification the task still needs. -/
def Timely (s : Delivery) : DeliveryAct → Prop
  | .deliver => s.pos ≠ .started (some false)
  | .connectionLost => s.task = some false → s.inFlight = 0
  | .supervise (.cancel batch) => s.task = some false → s.job.id ∈ batch → s.connected
  | _ => True

/-- A cancel the worker has not learnt of from `run` is on its way to it. -/
structure OnItsWay (s : Delivery) : Prop where
  task_pos : s.task.isSome → s.pos = .executing
  connected : ∀ returned, s.pos = .started returned → s.connected
  flight : s.pos = .started (some false) ∨ s.task = some false → s.Requested → 0 < s.inFlight

theorem OnItsWay.init (db : Db) (clock : Int) (job : Jorb) :
    (Delivery.init db clock job).OnItsWay :=
  ⟨nofun, nofun, by simp [Delivery.init]⟩

theorem requested_of_supervise {s : Delivery} {stmt : SupervisorStmt}
    (h : (s.supervise stmt).Requested) :
    s.Requested ∨ s.notifies stmt ∧ ∃ batch, stmt = .cancel batch ∧ s.job.id ∈ batch := by
  obtain ⟨r', hr', hid, hepoch, hstate, hcancel⟩ := h
  obtain ⟨r, hr, rfl⟩ := Serial.mem_update.mp hr'
  by_cases hc : (stmt.update s.clock).cond s.db r
  · rw [if_pos hc] at hid hepoch hstate hcancel
    have hrid : r.id = s.job.id := ((stmt.update s.clock).set.key_set r).symm.trans hid
    cases stmt with
    | cancel batch =>
      refine .inr ⟨List.any_eq_true.mpr ⟨r, hr, ?_⟩, batch, rfl, ?_⟩
      · have hcond : (SupervisorStmt.cancel batch).cond s.clock s.db r := hc
        have hcancel' : ((SupervisorStmt.cancel batch).set s.clock r).cancelRequested := hcancel
        have hstate' : ((SupervisorStmt.cancel batch).set s.clock r).state = .running := hstate
        simp [hrid, hcond, hcancel', hstate']
      · simp only [SupervisorStmt.update, SupervisorStmt.cond, Bool.and_eq_true,
          decide_eq_true_eq] at hc
        exact hrid ▸ hc.1
    | updatePriority | updateAppVersion | setAwaited | bounce =>
      exact .inl ⟨r, hr, hrid, hepoch, hstate, hcancel⟩
    | requeue => cases hcancel
    | _ => cases hstate
  · rw [if_neg hc] at hid hepoch hstate hcancel
    exact .inl ⟨r, hr, hid, hepoch, hstate, hcancel⟩

theorem requested_of_runCommit {s : Delivery} {timeout : Option Int}
    (hreturned : s.returned = some false) : ¬(s.own (.run timeout)).Requested := by
  rintro ⟨r', hr', hid, hepoch, hstate, hcancel⟩
  obtain ⟨r, hr, rfl⟩ := Serial.mem_update.mp hr'
  obtain ⟨t, ht, htc⟩ := Option.map_eq_some_iff.mp hreturned
  have htm : t ∈ s.db.jorb := List.mem_of_find?_eq_some ht
  have hta : t.attemptOf s.job.id s.job.runEpoch := by simpa using List.find?_some ht
  have hsame : r.id = s.job.id ∧ r.cancelRequested := by
    split at hid
    · exact ⟨hid, by rwa [if_pos ‹_›] at hcancel⟩
    · exact ⟨hid, by rwa [if_neg ‹_›] at hcancel⟩
  have hrt : r = t :=
    Serial.eq_of_ident hr htm (hsame.1.trans (Jorb.attemptOf_iff.mp hta).1.symm)
  rw [hrt, htc] at hsame
  exact absurd hsame.2 (by simp)

theorem requested_of_own {s : Delivery} {stmt : WorkerStmt} (hrun : ∀ timeout, stmt ≠ .run timeout)
    (h : (s.own stmt).Requested) : s.Requested := by
  obtain ⟨r', hr', hid, hepoch, hstate, hcancel⟩ := h
  obtain ⟨r, hr, rfl⟩ := Serial.mem_update.mp hr'
  split at hstate
  · cases stmt with
    | run timeout => exact absurd rfl (hrun timeout)
    | _ => cases hstate
  · rw [if_neg ‹_›] at hid hepoch hcancel
    exact ⟨r, hr, hid, hepoch, hstate, hcancel⟩

theorem OnItsWay.supervise {s : Delivery} (hs : s.OnItsWay) {stmt : SupervisorStmt}
    (htimely : s.Timely (.supervise stmt)) : (s.supervise stmt).OnItsWay := by
  refine ⟨hs.task_pos, hs.connected, fun hopen hreq => ?_⟩
  change s.pos = .started (some false) ∨ s.task = some false at hopen
  have hgrow : s.inFlight ≤ (s.supervise stmt).inFlight := by
    simp only [Delivery.supervise]
    split <;> omega
  rcases requested_of_supervise hreq with hold | ⟨hnotifies, batch, rfl, hid⟩
  · exact Nat.lt_of_lt_of_le (hs.flight hopen hold) hgrow
  · have hconnected : s.connected := by
      rcases hopen with hpos | htask
      · exact hs.connected _ hpos
      · exact htimely htask hid
    simp [Delivery.supervise, hconnected, hnotifies]

theorem OnItsWay.step {s s' : Delivery} {a : DeliveryAct} (hs : s.OnItsWay) (htimely : s.Timely a)
    (h : s.step a = some s') : s'.OnItsWay := by
  cases a with
  | supervise stmt =>
    cases h
    exact hs.supervise htimely
  | own stmt =>
    simp only [Delivery.step] at h
    have kept (hrun : ∀ timeout, stmt ≠ .run timeout) : (s.own stmt).OnItsWay :=
      ⟨hs.task_pos, hs.connected, fun hopen hreq => hs.flight hopen (requested_of_own hrun hreq)⟩
    split at h
    · exact Option.some.inj h ▸ kept nofun
    · cases h
    · rename_i hrun
      exact Option.some.inj h ▸ kept fun timeout heq => hrun timeout heq
    · cases h
  | runCommit timeout =>
    simp only [Delivery.step] at h
    split at h
    · rename_i hready
      cases h
      have htask : s.task = none := by
        by_contra hsome
        have := hs.task_pos (Option.isSome_iff_ne_none.mpr hsome)
        simp [hready.1] at this
      refine ⟨fun hsome => by simp [Delivery.own, htask] at hsome, fun _ _ => hready.2, ?_⟩
      rintro (hpos | hlive) hreq
      · exact absurd hreq (requested_of_runCommit (by simpa using hpos))
      · simp [Delivery.own, htask] at hlive
    · cases h
  | resume =>
    simp only [Delivery.step] at h
    split at h
    · rename_i hpos
      cases h
      exact ⟨fun _ => rfl, nofun, fun _ hreq => hs.flight (.inl hpos) hreq⟩
    · rename_i returned hother hpos
      cases h
      have htask : s.task = none := by
        by_contra hsome
        have := hs.task_pos (Option.isSome_iff_ne_none.mpr hsome)
        simp [hpos] at this
      exact ⟨fun hsome => by simp [htask] at hsome, nofun, by simp [htask]⟩
    · cases h
  | deliver =>
    simp only [Delivery.step] at h
    split at h
    · cases h
      refine ⟨fun hsome => hs.task_pos (by simpa using hsome), hs.connected, ?_⟩
      rintro (hpos | hlive) -
      · exact absurd hpos htimely
      · simp at hlive
    · cases h
  | taskDone =>
    simp only [Delivery.step] at h
    split at h
    · cases h
      exact ⟨nofun, nofun, by simp⟩
    · cases h
  | connectionLost =>
    cases h
    refine ⟨fun hsome => ?_, fun returned hpos => ?_, ?_⟩
    · simp [hs.task_pos hsome]
    · dsimp only at hpos
      split at hpos
      · cases hpos
      · exact absurd hpos (by simp_all)
    · rintro (hpos | hlive) hreq
      · dsimp only at hpos
        split at hpos
        · cases hpos
        · exact absurd hpos (by simp_all)
      · have hzero := htimely hlive
        have := hs.flight (.inr hlive) hreq
        omega
  | reconnect =>
    cases h
    exact ⟨hs.task_pos, fun _ _ => rfl, hs.flight⟩

end Delivery

abbrev DeliveryRun := Run Delivery.step

/-- In a run in which no notification is delivered between the commit of `run` and
the creation of the task, none is lost with the connection, and no cancel of the
running job commits while the connection is down, every cancel reaches the task. -/
theorem cancel_reaches_task (ρ : DeliveryRun) (hρ : ∃ db clock job, ρ.state 0 = .init db clock job)
    (htimely : ∀ n < ρ.length, (ρ.state n).Timely (ρ.act n)) :
    ∀ n ≤ ρ.length, ¬(ρ.state n).Unreached := by
  obtain ⟨db, clock, job, h0⟩ := hρ
  have hway : ∀ n ≤ ρ.length, (ρ.state n).OnItsWay :=
    ρ.invariant_of htimely (h0 ▸ Delivery.OnItsWay.init db clock job)
      fun hs hok hstep => hs.step hok hstep
  rintro n hn ⟨hreq, htask, hzero⟩
  have := (hway n hn).flight (.inr htask) hreq
  omega

def claimedDb : Db :=
  let mk (i : Nat) : Jorb := ((ClaimArgs.plain "q").claimed 0).set ((NewJob.plain "q").row 0 i)
  { Db.empty with jorb := Db.empty.jorb.insert mk fun _ => rfl }

def claimedJob : Jorb := ((ClaimArgs.plain "q").claimed 0).set ((NewJob.plain "q").row 0 1)

def reachedRun : DeliveryRun :=
  .ofList (.init claimedDb 0 claimedJob) [.runCommit none, .resume,
    .supervise (.cancel [1]), .deliver] (by decide)

theorem cancel_reaches_task_running :
    (reachedRun.state 4).task = some true ∧ ∀ n ≤ 4, ¬(reachedRun.state n).Unreached := by
  refine ⟨by decide, cancel_reaches_task reachedRun ⟨_, _, _, rfl⟩ fun n hn => ?_⟩
  match n, hn with
  | 0, _ => exact trivial
  | 1, _ => exact trivial
  | 2, _ => exact fun _ _ => by decide
  | 3, _ =>
    have hpos : (reachedRun.state 3).pos ≠ .started (some false) := by decide
    exact hpos

/-- The cancel commits after `run` and is delivered before the worker resumes from it. -/
def unreachedRun : DeliveryRun :=
  .ofList (.init claimedDb 0 claimedJob) [.runCommit none, .supervise (.cancel [1]),
    .deliver, .resume] (by decide)

theorem cancel_never_reaches :
    ¬∀ ρ : DeliveryRun, (∃ db clock job, ρ.state 0 = .init db clock job) →
      ∀ n ≤ ρ.length, ¬(ρ.state n).Unreached := by
  intro h
  refine h unreachedRun ⟨_, _, _, rfl⟩ 4 (by decide) ⟨?_, by decide, by decide⟩
  have hrow : ∃ r ∈ (unreachedRun.state 4).db.jorb.rows, r.id = (unreachedRun.state 4).job.id ∧
      r.runEpoch = (unreachedRun.state 4).job.runEpoch ∧ r.state = .running ∧
        r.cancelRequested := by
    decide
  exact hrow

end Pyjobby
