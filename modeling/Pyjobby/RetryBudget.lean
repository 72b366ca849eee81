import Pyjobby.TimeoutPolicy
import Pyjobby.ExecutionFence

/-! The retry budget over whole runs: who notices a failure, a worker or the monitor, and how
often workers die in between, is not what decides how many attempts a job gets. -/

namespace Pyjobby

open Relational Transition Ieee

/-- The UPDATE of the act matches the row of the job. -/
def World.hits (w : World) (jid : Nat) (a : Act) : Bool :=
  (w.issues a).any fun u => w.db.jorb.rows.any fun r => r.id = jid && u.cond w.db r

namespace Act

def retrying : Act → Bool
  | .worker _ (.retry _ _ _) | .supervise (.retryTimedOut _ _ _) => true
  | _ => false

def deadLettering : Act → Bool
  | .worker _ (.crashed _ _) | .supervise (.deadletterTimedOut _ _) => true
  | _ => false

/-- An operator's requeue, with or without what the job has recorded. -/
def requeueing : Act → Bool
  | .rerunFresh _ _ _ _ | .supervise (.requeue _ _ _ _) => true
  | _ => false

end Act

/-- A failed attempt of the job is recorded, and the job is to be tried again. -/
def World.retried (jid : Nat) (w : World) (a : Act) : Bool := a.retrying && w.hits jid a

/-- A failed attempt of the job is recorded, and it was the last. -/
def World.deadLettered (jid : Nat) (w : World) (a : Act) : Bool := a.deadLettering && w.hits jid a

def World.requeued (jid : Nat) (w : World) (a : Act) : Bool := a.requeueing && w.hits jid a

section Decisions

variable (floatOfStr : String → Option Binary64)

/-- The statement that `handle_timed_out_job` issues for its decision. -/
def Jorb.timedOutStmt (r : Jorb) : Option Int → SupervisorStmt
  | some delay => .retryTimedOut r.id "Timeout exceeded - retrying" delay
  | none =>
    .deadletterTimedOut r.id ("Timeout exceeded - dead-lettered (" ++ r.deadletterReason ++ ")")

theorem Jorb.handleTimedOutJob_stmt (r : Jorb) (now : Int) (draw : Rat) (db : Db) :
    handleTimedOutJob floatOfStr now r draw db =
      r.timeoutDecision floatOfStr draw >>= fun d => superviseRow now db (r.timedOutStmt d) := by
  rw [r.handleTimedOutJob_eq]
  refine congrArg _ (funext fun d => ?_)
  cases d <;> rfl

/-- Failures are recorded by `_handle_failure`, about the row as the worker claimed it, and by
`handle_timed_out_job`, about a row past its deadline that its sweep has locked. -/
inductive Decided (w : World) : Act → Prop where
  | worker {i : Nat} {e : Jorb} {a : Attempt} {error backtrace : PyText} {timedOut : Bool} {db : Db}
      {s : WorkerStmt} (exec : w.execs[i]? = some e) (job : a.job = e)
      (handle : a.handleFailure floatOfStr w.clock w.db error backtrace timedOut = .ok (db, [s])) :
      Decided w (.worker i s)
  | monitor {r : Jorb} {draw : Rat} {d : Option Int} (mem : r ∈ w.db.jorb)
      (late : r.timedOut w.clock) (decision : r.timeoutDecision floatOfStr draw = .ok d) :
      Decided w (.supervise (r.timedOutStmt d))
  | other {a : Act} (retry : a.retrying = false) (dead : a.deadLettering = false) : Decided w a

end Decisions

/-- What a step does to the account of a job. -/
inductive Booked (w : World) (a : Act) (r r' : Jorb) : Prop where
  | kept (retry : w.retried r.id a = false) (dead : w.deadLettered r.id a = false)
      (errorCount : r'.errorCount = r.errorCount)
      (crashed : r'.state = .crashed ↔ r.state = .crashed)
  | retried (retry : w.retried r.id a) (dead : w.deadLettered r.id a = false) (source : r.inFlight)
      (state : r'.state = .queued) (errorCount : r'.errorCount = r.errorCount + 1)
      (runEpoch : r'.runEpoch = r.runEpoch + 1)
  | deadLettered (retry : w.retried r.id a = false) (dead : w.deadLettered r.id a)
      (source : r.inFlight) (state : r'.state = .crashed)
      (errorCount : r'.errorCount = r.errorCount + 1) (runEpoch : r'.runEpoch = r.runEpoch + 1)
  | requeued (hit : w.requeued r.id a) (runEpoch : r'.runEpoch = r.runEpoch + 1)

namespace World

variable {w w' : World} {a : Act} {u : Update} {r r' : Jorb}

theorem hits_eq (hu : w.issues a = some u) (hr : r ∈ w.db.jorb) :
    w.hits r.id a = u.cond w.db r := by
  rw [hits, hu, Option.any_some, Bool.eq_iff_iff, List.any_eq_true]
  constructor
  · rintro ⟨s, hs, hc⟩
    simp only [Bool.and_eq_true, decide_eq_true_eq] at hc
    exact Serial.eq_of_ident hs hr hc.1 ▸ hc.2
  · exact fun hc => ⟨r, hr, by simp [hc]⟩

theorem hits_eq_false (hu : w.issues a = none) (jid : Nat) : w.hits jid a = false := by
  rw [hits, hu, Option.any_none]

theorem step_issues (h : w.step a = some w') (hu : w.issues a = some u) :
    Updates w a u ∧ w'.db.jorb = w.db.jorb.update (u.cond w.db) u.set := by
  cases a with
  | supervise s =>
    cases hu
    obtain ⟨-, rfl⟩ := update_eq_some.mp h
    exact ⟨.supervise s, rfl⟩
  | rerunFresh jid allowed delay resetErrors =>
    cases hu
    obtain ⟨w₁, hw₁, h⟩ := Option.map_eq_some_iff.mp h
    obtain ⟨-, rfl⟩ := update_eq_some.mp hw₁
    refine ⟨.rerunFresh jid allowed delay resetErrors, ?_⟩
    split at h <;> exact h ▸ rfl
  | worker i s =>
    obtain ⟨e, he, hworker⟩ := Option.bind_eq_some_iff.mp h
    obtain ⟨e', he', rfl⟩ := Option.map_eq_some_iff.mp hu
    obtain rfl : e = e' := Option.some.inj (he.symm.trans he')
    obtain ⟨wakes, rfl⟩ := worker_eq hworker
    exact ⟨.worker he s, rfl⟩
  | wakeSelf i =>
    obtain ⟨e, he, h⟩ := Option.bind_eq_some_iff.mp h
    obtain ⟨-, rfl⟩ := update_eq_some.mp h
    have hsource : Updates w (.wakeSelf i) _ := .wakeSelf he
    obtain rfl := Option.some.inj (hsource.issues.symm.trans hu)
    exact ⟨hsource, rfl⟩
  | wakeGroup i =>
    obtain ⟨e, he, h⟩ := Option.bind_eq_some_iff.mp h
    cases hgroup : e.runGroup with
    | none => simp [issues, he, hgroup] at hu
    | some gid =>
      simp only [World.wakeGroup, hgroup] at h
      split at h
      · cases h
      obtain ⟨-, rfl⟩ := update_eq_some.mp h
      have hsource : Updates w (.wakeGroup i) _ := .wakeGroup he hgroup
      obtain rfl := Option.some.inj (hsource.issues.symm.trans hu)
      exact ⟨hsource, rfl⟩
  | _ => cases hu

theorem update_booked (h : Updates w a u) (hr : r ∈ w.db.jorb) (hc : u.cond w.db r) :
    Booked w a r (u.set.set r) := by
  have hhit : w.hits r.id a := (hits_eq h.issues hr).trans hc
  have hlive (hflight : r.inFlight) : r.state ≠ .crashed := fun hstate => by
    simp [Jorb.inFlight_iff, hstate] at hflight
  cases h with
  | supervise s =>
    have hcond : s.cond w.clock w.db r := hc
    cases s with
    | retryTimedOut =>
      simp only [SupervisorStmt.cond, Bool.and_eq_true, decide_eq_true_eq] at hcond
      exact .retried hhit rfl (Jorb.inFlight_iff.mpr (.inr hcond.2)) rfl rfl rfl
    | deadletterTimedOut =>
      simp only [SupervisorStmt.cond, Bool.and_eq_true, decide_eq_true_eq] at hcond
      exact .deadLettered rfl hhit (Jorb.inFlight_iff.mpr (.inr hcond.2)) rfl rfl rfl
    | requeue => exact .requeued hhit rfl
    | cancel =>
      refine .kept rfl rfl rfl ?_
      by_cases hpre : r.preClaim
      · have hcrashed : r.state ≠ .crashed := by
          rcases Jorb.preClaim_iff.mp hpre with hs | hs <;> simp [hs]
        simp [SupervisorStmt.update, SupervisorStmt.set, hpre, hcrashed]
      · simp [SupervisorStmt.update, SupervisorStmt.set, hpre]
    | updatePriority | updateAppVersion | setAwaited | bounce => exact .kept rfl rfl rfl Iff.rfl
    | sweepDeadWorkerJobs =>
      simp only [SupervisorStmt.cond, Bool.and_eq_true] at hcond
      exact .kept rfl rfl rfl (by simp [SupervisorStmt.update, SupervisorStmt.set, hlive hcond.1.2])
    | sweepStuckClaims =>
      simp only [SupervisorStmt.cond, Bool.and_eq_true, decide_eq_true_eq] at hcond
      exact .kept rfl rfl rfl (by simp [SupervisorStmt.update, SupervisorStmt.set, hcond.1.2])
    | wakeWaiters =>
      simp only [SupervisorStmt.cond, Jorb.stranded, Bool.and_eq_true, decide_eq_true_eq] at hcond
      exact .kept rfl rfl rfl
        (by simp [SupervisorStmt.update, SupervisorStmt.set, Jorb.wake, hcond.2.1])
    | cancelUnsatisfiableWaiters =>
      simp only [SupervisorStmt.cond, Jorb.unsatisfiable, Bool.and_eq_true,
        decide_eq_true_eq] at hcond
      exact .kept rfl rfl rfl (by simp [SupervisorStmt.update, SupervisorStmt.set, hcond.2.1])
  | rerunFresh => exact .requeued hhit rfl
  | worker exec s =>
    obtain ⟨-, hflight, -⟩ := Jorb.attemptOf_iff.mp hc
    cases s with
    | retry => exact .retried hhit rfl hflight rfl rfl rfl
    | crashed => exact .deadLettered rfl hhit hflight rfl rfl rfl
    | run | finished | cancelled | reschedule =>
      exact .kept rfl rfl rfl (by simp [WorkerStmt.update, WorkerStmt.set, hlive hflight])
  | wakeSelf =>
    simp only [enqueueNextSelfFinished, Bool.and_eq_true, decide_eq_true_eq] at hc
    exact .kept rfl rfl rfl (by simp [enqueueNextSelfFinished, Jorb.wake, hc.1.1.2])
  | wakeGroup =>
    simp only [enqueueNextIfPeerGroupIsFinished, Bool.and_eq_true, decide_eq_true_eq] at hc
    exact .kept rfl rfl rfl (by simp [enqueueNextIfPeerGroupIsFinished, Jorb.wake, hc.1.1.2])

/-- An act that issues no UPDATE of a job leaves the account alone. -/
theorem other_booked (hw : Locks w) (he : Effect w a w') (hu : w.issues a = none)
    (hr : r ∈ w.db.jorb) (hr' : r' ∈ w'.db.jorb) (hid : r'.id = r.id) :
    r'.adminData = r.adminData ∧ Booked w a r r' := by
  have kept (hadmin : r'.adminData = r.adminData) (herrors : r'.errorCount = r.errorCount)
      (hcrashed : r'.state = .crashed ↔ r.state = .crashed) :
      r'.adminData = r.adminData ∧ Booked w a r r' :=
    ⟨hadmin, .kept (by simp [retried, hits_eq_false hu]) (by simp [deadLettered, hits_eq_false hu])
      herrors hcrashed⟩
  have same (hmem : r' ∈ w.db.jorb) : r'.adminData = r.adminData ∧ Booked w a r r' := by
    obtain rfl := Serial.eq_of_ident hmem hr hid
    exact kept rfl rfl Iff.rfl
  cases he with
  | quiet db clock queue jorb => exact same (jorb ▸ hr')
  | close session jorb => exact same (jorb ▸ hr')
  | opens => exact same hr'
  | delete => exact same (Serial.mem_delete.mp hr').1
  | insert j =>
    rcases (Serial.mem_insert (h := fun _ => rfl)).mp hr' with hold | rfl
    · exact same hold
    · exact absurd (Serial.lt_next hr) (hid ▸ lt_irrefl _)
  | update db wakes u jorb free source =>
    cases hu.symm.trans source.issues
  | @commit _ jid c t _ _ act tx phase mem id jorb =>
    have heq := Serial.eq_of_mem_update hr (jorb ▸ hr') hid
    split at heq
    · rename_i hc
      subst heq
      have hqueued := ClaimArgs.admits_queued (hw.commit_admits tx phase hr (of_decide_eq_true hc))
      exact kept rfl rfl (by simp [ClaimArgs.claimed, hqueued])
    · exact same (heq ▸ hr)

theorem step_booked (hw : Locks w) (h : w.step a = some w') (hr : r ∈ w.db.jorb)
    (hr' : r' ∈ w'.db.jorb) (hid : r'.id = r.id) :
    r'.adminData = r.adminData ∧ Booked w a r r' := by
  cases hu : w.issues a with
  | none => exact other_booked hw (step_effect h) hu hr hr' hid
  | some u =>
    obtain ⟨hsource, hjorb⟩ := step_issues h hu
    have heq := Serial.eq_of_mem_update hr (hjorb ▸ hr') hid
    split at heq
    · rename_i hc
      exact heq ▸ ⟨hsource.adminData r, update_booked hsource hr hc⟩
    · rename_i hc
      have hmiss : w.hits r.id a = false := (hits_eq hu hr).trans (Bool.eq_false_iff.mpr hc)
      obtain rfl := heq
      exact ⟨rfl, .kept (by simp [retried, hmiss]) (by simp [deadLettered, hmiss]) rfl Iff.rfl⟩

end World

/-- What an execution remembers of its job's account is what the row says, as long as the row
is at its epoch. -/
def Remembered (w : World) : Prop := ∀ e ∈ w.execs, ∀ r ∈ w.db.jorb, r.heldBy e →
  e.errorCount = r.errorCount ∧ e.adminData = r.adminData

theorem Booked.moves {w : World} {a : Act} {r r' : Jorb} (h : Booked w a r r') :
    r'.errorCount = r.errorCount ∨ r'.runEpoch = r.runEpoch + 1 := by
  cases h with
  | kept _ _ errorCount => exact .inl errorCount
  | retried _ _ _ _ _ runEpoch | deadLettered _ _ _ _ _ runEpoch | requeued _ runEpoch =>
    exact .inr runEpoch

theorem Remembered.step {w w' : World} {a : Act} (h : Remembered w) (hf : Fenced w) (hw : Locks w)
    (hstep : w.step a = some w') : Remembered w' := by
  have he := World.step_effect hstep
  intro e hexec r' hr' hheld
  obtain ⟨hid, hepoch⟩ := Jorb.heldBy_iff.mp hheld
  have old (hexec : e ∈ w.execs) : e.errorCount = r'.errorCount ∧ e.adminData = r'.adminData := by
    have howned := hf.owned e hexec
    rcases (he.origin hw hr').source with hborn | ⟨r, hr, hsame, hle⟩
    · exact absurd howned.known (by omega)
    · have hrid : r.id = e.id := hsame.id.symm.trans hid.symm
      have hbound := howned.bound r hr hrid
      obtain ⟨herrors, hadmin⟩ := h e hexec r hr (Jorb.heldBy_iff.mpr ⟨hrid.symm, by omega⟩)
      obtain ⟨hadmin', hbooked⟩ := World.step_booked hw hstep hr hr' hsame.id
      rcases hbooked.moves with hsame' | hmoved
      · exact ⟨herrors.trans hsame'.symm, hadmin.trans hadmin'.symm⟩
      · omega
  rcases he.execs_cases with heq | ⟨c, r, hr, heq, hmem⟩
  · exact old (heq ▸ hexec)
  · rcases List.mem_append.mp (heq ▸ hexec) with hold | hnew
    · exact old hold
    · obtain rfl := List.mem_singleton.mp hnew
      rw [Serial.eq_of_ident hr' hmem hid.symm]
      exact ⟨rfl, rfl⟩

theorem History.remembered {ρ : History} (hρ : ρ.Fresh) :
    ∀ n ≤ ρ.length, Remembered (ρ.state n) := by
  have hlocks := History.locks hρ
  have hfenced := History.fenced hρ
  obtain ⟨db, clock, queue, h0⟩ := hρ
  intro n
  induction n with
  | zero =>
    intro _ e hexec
    rw [h0] at hexec
    cases hexec
  | succ n ih =>
    exact fun hn => (ih (Nat.le_of_succ_le hn)).step (hfenced n (Nat.le_of_succ_le hn))
      (hlocks n (Nat.le_of_succ_le hn)) (ρ.next n hn)

section Budget

variable {floatOfStr : String → Option Binary64} {w : World} {r : Jorb} {m : Int}

/-- What a decision about a job whose settings name the budget `m` says of its counter. -/
def WithinBudget (m : Int) (w : World) (a : Act) (r : Jorb) : Prop :=
  (w.retried r.id a → (r.errorCount : Int) + 1 < m) ∧
    (w.deadLettered r.id a → retriesOnTimeout r.adminData → m ≤ r.errorCount + 1)

theorem Attempt.Verdict.withinBudget {a : Attempt} {error backtrace : PyText} {timedOut : Bool}
    {s : WorkerStmt} (h : a.Verdict floatOfStr error backtrace timedOut s) {i : Nat}
    (exec : w.execs[i]? = some a.job) (hrem : Remembered w) (hr : r ∈ w.db.jorb)
    (hm : r.adminData.get? "max_retries" = some (.int m)) : WithinBudget m w (.worker i s) r := by
  have hu : w.issues (.worker i s) = some (s.update w.clock a.job.id a.job.runEpoch) := by
    rw [World.issues, exec, Option.map_some]
  have hretries (hhit : w.hits r.id (.worker i s)) : a.retries timedOut =
      (decide ((r.errorCount : Int) + 1 < m) && (!timedOut || retriesOnTimeout r.adminData)) := by
    obtain ⟨hid, -, hepoch⟩ := Jorb.attemptOf_iff.mp ((World.hits_eq hu hr).symm.trans hhit)
    obtain ⟨herrors, hadmin⟩ := hrem a.job (List.mem_of_getElem? exec) r hr
      (Jorb.heldBy_iff.mpr ⟨hid.symm, hepoch.symm⟩)
    simp [Attempt.retries, Attempt.budget, Attempt.attempt, herrors, hadmin, hm, Json.num?,
      PyNum.exceeds]
  cases h with
  | retry again =>
    refine ⟨fun hhit => ?_, fun hhit => absurd hhit Bool.false_ne_true⟩
    rw [hretries hhit, Bool.and_eq_true, decide_eq_true_eq] at again
    exact again.1
  | crashed last =>
    refine ⟨fun hhit => absurd hhit Bool.false_ne_true, fun hhit hpolicy => ?_⟩
    simpa [hretries hhit, hpolicy] using last

theorem Jorb.withinBudget {r₀ : Jorb} {draw : Rat} {d : Option Int}
    (h : r₀.timeoutDecision floatOfStr draw = .ok d) (hr₀ : r₀ ∈ w.db.jorb) (hr : r ∈ w.db.jorb)
    (hm : r.adminData.get? "max_retries" = some (.int m)) :
    WithinBudget m w (.supervise (r₀.timedOutStmt d)) r := by
  have hrow (hhit : w.hits r.id (.supervise (r₀.timedOutStmt d))) : r = r₀ := by
    have hcond := (World.hits_eq (u := (r₀.timedOutStmt d).update w.clock) rfl hr).symm.trans hhit
    refine Serial.eq_of_ident hr hr₀ ?_
    cases d <;> simp only [timedOutStmt, SupervisorStmt.update, SupervisorStmt.cond,
      Bool.and_eq_true, decide_eq_true_eq] at hcond <;> exact hcond.1
  have hdecision (heq : r = r₀) : d.isSome =
      (decide ((r.errorCount : Int) + 1 < m) && retriesOnTimeout r.adminData) := by
    subst heq
    obtain ⟨n, hn, h⟩ := bind_eq_ok.mp h
    have hexceeds : n.exceeds (r.errorCount + 1 : Nat) = decide ((r.errorCount : Int) + 1 < m) := by
      obtain rfl : PyNum.int m = n := by
        simpa [getRetryConfig, hm, Json.number, Json.num?] using hn
      rfl
    split at h
    · rename_i hagain
      rw [← hexceeds, hagain]
      cases hdelay : calculateRetryFromJob floatOfStr r.adminData (r.errorCount + 1) draw with
      | error e => simp [hdelay, Functor.map, Except.map] at h
      | ok delay =>
        obtain rfl : some delay = d := by simpa [hdelay, Functor.map, Except.map] using h
        rfl
    · rename_i hlast
      cases h
      rw [← hexceeds, Bool.eq_false_iff.mpr hlast, Option.isSome_none]
  cases d with
  | some delay =>
    refine ⟨fun hhit => ?_, fun hhit => absurd hhit Bool.false_ne_true⟩
    have hsome := hdecision (hrow hhit)
    rw [Option.isSome_some, eq_comm, Bool.and_eq_true, decide_eq_true_eq] at hsome
    exact hsome.1
  | none =>
    refine ⟨fun hhit => absurd hhit Bool.false_ne_true, fun hhit hpolicy => ?_⟩
    simpa [hpolicy] using hdecision (hrow hhit)

theorem Decided.withinBudget {a : Act} (h : Decided floatOfStr w a) (hrem : Remembered w)
    (hr : r ∈ w.db.jorb) (hm : r.adminData.get? "max_retries" = some (.int m)) :
    WithinBudget m w a r := by
  cases h with
  | worker exec job handle =>
    subst job
    obtain ⟨-, s, hverdict, hex⟩ := (Attempt.handleFailure_eq_ok _ _ _).mp handle
    obtain ⟨-, heq⟩ := (Attempt.ex_eq_ok _ _).mp hex
    obtain rfl := List.singleton_inj.mp (congrArg Prod.snd heq)
    exact hverdict.withinBudget exec hrem hr hm
  | monitor mem late decision => exact Jorb.withinBudget decision mem hr hm
  | other retry dead =>
    exact ⟨fun hhit => by simp [World.retried, retry] at hhit,
      fun hhit => by simp [World.deadLettered, dead] at hhit⟩

end Budget

/-- The account of a job whose row was `r₀`: how many of its failures since were to be followed
by another attempt, and how many were not. -/
structure Account (m : Int) (r₀ : Jorb) (retried dead : Nat) (r : Jorb) : Prop where
  adminData : r.adminData = r₀.adminData
  errorCount : r.errorCount = r₀.errorCount + retried + dead
  retried_lt : retried = 0 ∨ (r₀.errorCount : Int) + retried < m
  dead_le : dead ≤ 1
  crashed : r.state = .crashed ↔ r₀.state = .crashed ∨ dead = 1
  last : dead = 1 → retriesOnTimeout r₀.adminData → m ≤ r.errorCount

theorem Account.step {floatOfStr : String → Option Binary64} {w w' : World} {a : Act} {m : Int}
    {retried dead : Nat} {r₀ r r' : Jorb} (h : Account m r₀ retried dead r)
    (hm : r₀.adminData.get? "max_retries" = some (.int m)) (hw : Locks w) (hrem : Remembered w)
    (hdecided : Decided floatOfStr w a) (hstep : w.step a = some w')
    (hcalm : w.requeued r.id a = false) (hr : r ∈ w.db.jorb) (hr' : r' ∈ w'.db.jorb)
    (hid : r'.id = r.id) :
    Account m r₀ (retried + if w.retried r.id a then 1 else 0)
      (dead + if w.deadLettered r.id a then 1 else 0) r' := by
  obtain ⟨hadmin, hbooked⟩ := World.step_booked hw hstep hr hr' hid
  obtain ⟨hagain, hlast⟩ := hdecided.withinBudget hrem hr (h.adminData ▸ hm)
  obtain ⟨hsame, herrors, hretried, hone, hcrashed, hend⟩ := h
  -- an attempt that fails was under way, so the job was not dead-lettered before
  have hopen (hflight : r.inFlight) : r₀.state ≠ .crashed ∧ dead = 0 := by
    have hstate : r.state ≠ .crashed := fun hstate => by simp [Jorb.inFlight_iff, hstate] at hflight
    rw [Ne, hcrashed, not_or] at hstate
    exact ⟨hstate.1, by omega⟩
  cases hbooked with
  | kept hretry hdead herrors' hcrashed' =>
    simp only [hretry, hdead, Bool.false_eq_true, if_false, Nat.add_zero]
    exact ⟨hadmin.trans hsame, herrors'.trans herrors, hretried, hone, hcrashed'.trans hcrashed,
      herrors' ▸ hend⟩
  | retried hretry hdead source hstate herrors' =>
    obtain ⟨hstart, hnone⟩ := hopen source
    have hlt := hagain hretry
    simp only [hretry, hdead, Bool.false_eq_true, if_false, if_true]
    exact ⟨hadmin.trans hsame, by omega, .inr (by omega), by omega, by simp [hstate, hstart, hnone],
      by omega⟩
  | deadLettered hretry hdead source hstate herrors' =>
    obtain ⟨-, hnone⟩ := hopen source
    have hle := hlast hdead
    simp only [hretry, hdead, Bool.false_eq_true, if_false, if_true]
    refine ⟨hadmin.trans hsame, by omega, hretried, by omega, by simp [hstate, hnone],
      fun _ hpolicy => ?_⟩
    have := hle (hsame ▸ hpolicy)
    omega
  | requeued hit => simp [hcalm] at hit

theorem Account.run {floatOfStr : String → Option Binary64} {ρ : History} (hρ : ρ.Fresh)
    (hdecided : ∀ j < ρ.length, Decided floatOfStr (ρ.state j) (ρ.act j)) {n k : Nat} (hnk : n ≤ k)
    {r : Jorb} (hr : r ∈ (ρ.state n).db.jorb) {m : Int}
    (hm : r.adminData.get? "max_retries" = some (.int m)) (hk : k ≤ ρ.length)
    (hcalm : ∀ j, n ≤ j → j < k → (ρ.state j).requeued r.id (ρ.act j) = false) :
    ∀ r' ∈ (ρ.state k).db.jorb, r'.id = r.id →
      Account m r (ρ.tally (World.retried r.id) n k) (ρ.tally (World.deadLettered r.id) n k)
        r' := by
  induction hnk with
  | refl =>
    intro r' hr' hid
    obtain rfl := Serial.eq_of_ident hr' hr hid
    simp only [Run.tally_self]
    exact ⟨rfl, rfl, .inl rfl, Nat.zero_le 1, by simp, by simp⟩
  | @step k hnk ih =>
    intro r' hr' hid
    have hk' : k ≤ ρ.length := Nat.le_of_succ_le hk
    have hlocks := History.locks hρ k hk'
    have hstep := ρ.next k hk
    rcases ((World.step_effect hstep).origin hlocks hr').source with hborn | ⟨s, hs, hsame, -⟩
    · have hnext := ρ.monotone (R := fun s t => s.db.jorb.next ≤ t.db.jorb.next)
        (fun _ => le_rfl) Nat.le_trans (fun h => (World.step_effect h).next_le) hnk hk'
      exact absurd (Serial.lt_next hr) (by omega)
    · have hsid : s.id = r.id := hsame.id.symm.trans hid
      have haccount := ih hk' (fun j hnj hj => hcalm j hnj (Nat.lt_succ_of_lt hj)) s hs hsid
      show Account m r (ρ.tally (World.retried r.id) n (k + 1))
        (ρ.tally (World.deadLettered r.id) n (k + 1)) r'
      rw [ρ.tally_succ _ hnk, ρ.tally_succ _ hnk, ← hsid]
      rw [← hsid] at haccount
      exact haccount.step hm hlocks (History.remembered hρ k hk') (hdecided k hk) hstep
        (hsid ▸ hcalm k hnk (Nat.lt_succ_self k)) hs hr' hsame.id

/-- A job that is not requeued by hand has every failure counted, is tried again less often than
its `max_retries`, and with the default `on_timeout` is dead-lettered by the failure that uses the
budget up and by no other. -/
theorem retry_budget_exact (floatOfStr : String → Option Binary64) (ρ : History) (hρ : ρ.Fresh)
    (hdecided : ∀ j < ρ.length, Decided floatOfStr (ρ.state j) (ρ.act j)) {n k : Nat} (hnk : n ≤ k)
    (hk : k ≤ ρ.length) {r r' : Jorb} (hr : r ∈ (ρ.state n).db.jorb)
    (hr' : r' ∈ (ρ.state k).db.jorb) (hid : r'.id = r.id) {m : Int}
    (hm : r.adminData.get? "max_retries" = some (.int m))
    (hcalm : ∀ j, n ≤ j → j < k → (ρ.state j).requeued r.id (ρ.act j) = false) :
    r'.errorCount = r.errorCount + ρ.tally (World.retried r.id) n k +
        ρ.tally (World.deadLettered r.id) n k ∧
      ρ.tally (World.retried r.id) n k ≤ (m - 1 - r.errorCount).toNat ∧
      ρ.tally (World.deadLettered r.id) n k ≤ 1 ∧
      (r'.state = .crashed ↔ r.state = .crashed ∨ ρ.tally (World.deadLettered r.id) n k = 1) ∧
      (retriesOnTimeout r.adminData → (ρ.tally (World.deadLettered r.id) n k = 1 ↔
        ρ.tally (World.retried r.id) n k + ρ.tally (World.deadLettered r.id) n k =
          max 1 (m - r.errorCount).toNat)) := by
  obtain ⟨-, herrors, hretried, hone, hcrashed, hlast⟩ :=
    Account.run hρ hdecided hnk hr hm hk hcalm r' hr' hid
  refine ⟨herrors, by omega, hone, hcrashed, fun hpolicy => ⟨fun hdead => ?_, fun hall => ?_⟩⟩
  · have := hlast hdead hpolicy
    omega
  · omega

/-- The monitor notices the first failure of a job that has two attempts, its worker the second. -/
def twoAttemptActs : List Act :=
  [.enqueue { NewJob.plain "q" with adminData := settingsOf 2 [] }] ++ Act.claim 0 (.plain "q") ++
    [.worker 0 (.run (some 1)), .tick 2,
      .supervise (.retryTimedOut 1 "Timeout exceeded - retrying" 1000000), .tick 1000000] ++
    Act.claim 0 (.plain "q") ++ [.worker 1 (.run none), .worker 1 (.crashed "" "")]

def twoAttemptRun : History := .ofList (.init .empty 0 fun _ => none) twoAttemptActs (by decide)

theorem twoAttemptRun_decided : ∀ j < twoAttemptRun.length,
    Decided (fun _ => none) (twoAttemptRun.state j) (twoAttemptRun.act j) := by
  have hother : ∀ j < 13, j ≠ 6 → j ≠ 12 →
      (twoAttemptRun.act j).retrying = false ∧ (twoAttemptRun.act j).deadLettering = false := by
    decide
  intro j hj
  by_cases hmonitor : j = 6
  · subst hmonitor
    obtain ⟨r, hr⟩ : ∃ r, (twoAttemptRun.state 6).db.jorb.find? 1 = some r := ⟨_, rfl⟩
    have hlate : ∀ r ∈ (twoAttemptRun.state 6).db.jorb.find? 1, r.timedOut 2 := by decide
    have hdelay : ∀ r ∈ (twoAttemptRun.state 6).db.jorb.find? 1,
        r.timeoutDecision (fun _ => none) 0 = .ok (some 1000000) := by decide +kernel
    obtain ⟨hmem, hid⟩ := Serial.find?_eq_some.mp hr
    have hact : twoAttemptRun.act 6 = .supervise (r.timedOutStmt (some 1000000)) := by
      rw [Jorb.timedOutStmt, hid]
      rfl
    exact hact ▸ .monitor hmem (hlate r hr) (hdelay r hr)
  by_cases hworker : j = 12
  · subst hworker
    obtain ⟨e, he⟩ : ∃ e, (twoAttemptRun.state 12).execs[1]? = some e := ⟨_, rfl⟩
    have hlast : ∀ e ∈ (twoAttemptRun.state 12).execs[1]?,
        (Attempt.mk e 10 false 0).budget.num?.isSome ∧
          (Attempt.mk e 10 false 0).retries false = false := by decide
    have hroom : ∀ r ∈ (twoAttemptRun.state 12).db.jorb.rows, r.errorCount < maxInteger := by decide
    have hempty : PyText.encode [] = .ok "" := rfl
    have hhandle := (Attempt.handleFailure_eq_ok (fun _ => none) (twoAttemptRun.state 12).clock
      (Attempt.mk e 10 false 0)).mpr
      ⟨(hlast e he).1, .crashed "" "", .crashed (hlast e he).2 hempty hempty,
        (Attempt.ex_eq_ok _ _).mpr ⟨fun r hr _ => decide_eq_true (hroom r hr), rfl⟩⟩
    exact .worker he rfl hhandle
  · obtain ⟨hretry, hdead⟩ := hother j hj hmonitor hworker
    exact .other hretry hdead

theorem retry_budget_exact_spent :
    twoAttemptRun.tally (World.retried 1) 1 13 = 1 ∧
      twoAttemptRun.tally (World.deadLettered 1) 1 13 = 1 := by
  obtain ⟨r, hr, hm, herrors⟩ : ∃ r, (twoAttemptRun.state 1).db.jorb.find? 1 = some r ∧
      r.adminData.get? "max_retries" = some (.int 2) ∧ r.errorCount = 0 := ⟨_, rfl, rfl, rfl⟩
  obtain ⟨r', hr', herrors'⟩ : ∃ r', (twoAttemptRun.state 13).db.jorb.find? 1 = some r' ∧
      r'.errorCount = 2 := ⟨_, rfl, rfl⟩
  have hcalm : ∀ j < 13, (twoAttemptRun.state j).requeued 1 (twoAttemptRun.act j) = false := by
    decide
  obtain ⟨hmem, hid⟩ := Serial.find?_eq_some.mp hr
  obtain ⟨hmem', hid'⟩ := Serial.find?_eq_some.mp hr'
  obtain ⟨hcount, hretried, hdead, -⟩ := retry_budget_exact (fun _ => none) twoAttemptRun
    ⟨_, _, _, rfl⟩ twoAttemptRun_decided (n := 1) (k := 13) (by decide) le_rfl hmem hmem'
    (hid'.trans hid.symm) hm fun j _ hj => hid ▸ hcalm j hj
  rw [hid, herrors] at hcount hretried
  rw [hid] at hdead
  omega

end Pyjobby
