import Pyjobby.CancelFlag

/-! The declared lifecycle of a job, which no statement consults: the guards of the
statements enforce it, and a step moves a job along the declared edges only. -/

namespace Pyjobby

open Relational Transition

/-- What a history row names: the insert, or the state the job moved to. -/
inductive HistoryEvent where
  | enqueued
  | moved (s : JorbState)
  deriving DecidableEq

/-- `LEGAL_TRANSITIONS`; `enqueued` is its `HISTORY_ORIGIN`. -/
def legalTransitions : HistoryEvent → List JorbState
  | .enqueued => [.queued, .waiting, .claimed, .running]
  | .moved .waiting => [.queued, .cancelled]
  | .moved .queued => [.claimed, .cancelled]
  | .moved .claimed => [.running, .queued, .waiting, .cancelled, .crashed, .finished]
  | .moved .running => [.finished, .crashed, .cancelled, .queued, .waiting, .running]
  | .moved .finished => [.queued, .waiting]
  | .moved .crashed => [.queued, .waiting]
  | .moved .cancelled => [.queued, .waiting]

def isLegal (source : HistoryEvent) (target : JorbState) : Bool := target ∈ legalTransitions source

def illegalTransitions : List (JorbState × JorbState) :=
  (JorbState.jobStates.product JorbState.jobStates).filter fun (source, target) =>
    source ≠ target && !isLegal (.moved source) target

/-- A requeue takes no job that still waits to be claimed: every state a caller allows is
one that a requeue may leave. -/
def Act.sparesQueued : Act → Bool
  | .rerunFresh _ allowed _ _ | .supervise (.requeue _ allowed _ _) =>
    allowed.all (· ∉ JorbState.preClaimStates)
  | _ => true

theorem isLegal_of_inFlight {r : Jorb} (h : r.inFlight) {t : JorbState}
    (ht : t ∈ [.queued, .finished, .crashed, .cancelled]) : isLegal (.moved r.state) t := by
  rcases Jorb.inFlight_iff.mp h with hs | hs <;> rw [hs] <;> revert ht <;> cases t <;> decide

theorem isLegal_requeueState {r : Jorb} (h : r.state ∉ JorbState.preClaimStates) :
    isLegal (.moved r.state) r.requeueState := by
  unfold Jorb.requeueState
  revert h
  cases r.state <;> split <;> decide

theorem isLegal_withdraw {r : Jorb} (h : r.preClaim) : isLegal (.moved r.state) .cancelled := by
  rcases Jorb.preClaim_iff.mp h with hs | hs <;> rw [hs] <;> decide

/-- An UPDATE that is no requeue moves a row it matches along a declared edge. -/
theorem Change.legal {w : World} {r r' : Jorb} (h : Change w r r')
    (hr : r'.state = r.requeueState → r'.runEpoch = r.runEpoch + 1 →
      r.state ∉ JorbState.preClaimStates) :
    r'.state = r.state ∨ isLegal (.moved r.state) r'.state := by
  cases h with
  | edit state => exact .inl state
  | start source state =>
    right
    rw [state]
    rcases Jorb.inFlight_iff.mp source with hs | hs <;> rw [hs] <;> decide
  | leave source state => exact .inr (isLegal_of_inFlight source state)
  | requeue state epoch => exact .inr (state ▸ isLegal_requeueState (hr state epoch))
  | wake source state => exact .inr (by rw [source, state]; decide)
  | withdraw source state => exact .inr (state ▸ isLegal_withdraw source)

/-- A statement that bumps the fence takes the job out of an attempt, or is a requeue. -/
theorem Updates.bumps {w : World} {a : Act} {u : Update} (h : Updates w a u) {r : Jorb}
    (hc : u.cond w.db r) (hepoch : (u.set.set r).runEpoch = r.runEpoch + 1) :
    r.inFlight ∨ ∃ batch allowed, Requeues a batch allowed ∧ r.state ∈ allowed := by
  have hne {n : Nat} : n ≠ n + 1 := (Nat.succ_ne_self n).symm
  cases h with
  | supervise s =>
    change s.cond w.clock w.db r at hc
    cases s with
    | requeue batch allowed delay resetErrors =>
      simp only [SupervisorStmt.cond, Bool.and_eq_true, decide_eq_true_eq] at hc
      exact .inr ⟨batch, allowed, .requeue batch allowed delay resetErrors, hc.2⟩
    | cancel | updatePriority | updateAppVersion | setAwaited | bounce | wakeWaiters
    | cancelUnsatisfiableWaiters => exact absurd hepoch hne
    | sweepDeadWorkerJobs =>
      simp only [SupervisorStmt.cond, Bool.and_eq_true] at hc
      exact .inl hc.1.2
    | sweepStuckClaims =>
      simp only [SupervisorStmt.cond, Bool.and_eq_true, decide_eq_true_eq] at hc
      exact .inl (Jorb.inFlight_iff.mpr (.inl hc.1.2))
    | retryTimedOut | deadletterTimedOut =>
      simp only [SupervisorStmt.cond, Bool.and_eq_true, decide_eq_true_eq] at hc
      exact .inl (Jorb.inFlight_iff.mpr (.inr hc.2))
  | rerunFresh jid allowed delay resetErrors =>
    simp only [SupervisorStmt.update, SupervisorStmt.cond, Bool.and_eq_true,
      decide_eq_true_eq] at hc
    exact .inr ⟨[jid], allowed, .rerunFresh jid allowed delay resetErrors, hc.2⟩
  | worker exec s => exact .inl (Jorb.attemptOf_iff.mp hc).2.1
  | wakeSelf | wakeGroup => exact absurd hepoch hne

theorem Requeues.spares {a : Act} {batch : List Nat} {allowed : List JorbState}
    (h : Requeues a batch allowed) (ha : a.sparesQueued) :
    ∀ s ∈ allowed, s ∉ JorbState.preClaimStates := by
  cases h <;> simpa [Act.sparesQueued] using ha

/-- What a step does to a job: it leaves the state alone or moves it along a declared edge,
and a claim, which alone counts a run, is what moves a job to `claimed`. -/
inductive Moved (r r' : Jorb) : Prop where
  | stayed (state : r'.state = r.state) (runCount : r'.runCount = r.runCount)
  | moved (legal : isLegal (.moved r.state) r'.state) (other : r'.state ≠ .claimed)
      (runCount : r'.runCount = r.runCount)
  | claimed (source : r.state = .queued) (state : r'.state = .claimed)
      (runCount : r'.runCount = r.runCount + 1)

theorem Change.not_claimed {w : World} {r r' : Jorb} (h : Change w r r')
    (hne : r'.state ≠ r.state) : r'.state ≠ .claimed := by
  cases h with
  | edit state => exact absurd state hne
  | start source state | wake source state | withdraw source state => simp [state]
  | leave source state => rintro h; simp [h] at state
  | requeue state =>
    rw [state, Jorb.requeueState]
    split <;> decide

theorem Change.epoch_le {w : World} {r r' : Jorb} (h : Change w r r') :
    r.runEpoch ≤ r'.runEpoch := by
  cases h with
  | edit state epoch | start source state epoch | wake source state epoch
  | withdraw source state epoch => exact epoch.ge
  | leave source state epoch | requeue state epoch => exact epoch ▸ Nat.le_succ _

theorem World.step_moved {w w' : World} {a : Act} (hw : Locks w) (h : w.step a = some w')
    (ha : a.sparesQueued) {r' : Jorb} (hr' : r' ∈ w'.db.jorb) :
    (w.db.jorb.next ≤ r'.id ∧ (r'.state = .queued ∨ r'.state = .waiting) ∧ r'.runCount = 0) ∨
      ∃ r ∈ w.db.jorb, r.id = r'.id ∧ r.runEpoch ≤ r'.runEpoch ∧ Moved r r' := by
  have kept (hmem : r' ∈ w.db.jorb) : ∃ r ∈ w.db.jorb, r.id = r'.id ∧ r.runEpoch ≤ r'.runEpoch ∧
      Moved r r' := ⟨r', hmem, rfl, le_rfl, .stayed rfl rfl⟩
  cases step_effect h with
  | quiet db clock queue jorb => exact .inr (kept (jorb ▸ hr'))
  | close session jorb => exact .inr (kept (jorb ▸ hr'))
  | opens => exact .inr (kept hr')
  | delete => exact .inr (kept (Serial.mem_delete.mp hr').1)
  | insert j =>
    rcases (Serial.mem_insert (h := fun _ => rfl)).mp hr' with hr' | rfl
    · exact .inr (kept hr')
    · refine .inl ⟨le_rfl, ?_, rfl⟩
      simp only [NewJob.row]
      split <;> simp
  | update db wakes u jorb free source =>
    obtain ⟨r, hr, rfl⟩ := Serial.mem_update.mp (jorb ▸ hr')
    by_cases hc : u.cond w.db r
    · simp only [hc, if_true]
      obtain ⟨hsame, -, hcount⟩ := source.sound.keeps r
      have hchange := source.sound.change r hr hc
      refine .inr ⟨r, hr, hsame.id.symm, hchange.epoch_le, ?_⟩
      have hlegal := hchange.legal fun _ hepoch => by
        rcases source.bumps hc hepoch with hflight | ⟨batch, allowed, hreq, hstate⟩
        · rcases Jorb.inFlight_iff.mp hflight with hs | hs <;> rw [hs] <;> decide
        · exact hreq.spares ha _ hstate
      by_cases hstate : (u.set.set r).state = r.state
      · exact .stayed hstate hcount
      · exact .moved (hlegal.resolve_left hstate) (hchange.not_claimed hstate) hcount
    · simp only [hc]
      exact .inr ⟨r, hr, rfl, le_rfl, .stayed rfl rfl⟩
  | @commit _ jid c t _ _ act tx phase mem id jorb =>
    obtain ⟨r, hr, rfl⟩ := Serial.mem_update.mp (jorb ▸ hr')
    refine .inr ⟨r, hr, ?_⟩
    split
    · rename_i hid
      have hadmits := hw.commit_admits tx phase hr (of_decide_eq_true hid)
      exact ⟨rfl, Nat.le_succ _, .claimed (ClaimArgs.admits_queued hadmits) rfl rfl⟩
    · exact ⟨rfl, le_rfl, .stayed rfl rfl⟩

theorem Moved.legal {r r' : Jorb} (h : Moved r r') :
    r'.state = r.state ∨ isLegal (.moved r.state) r'.state := by
  cases h with
  | stayed state => exact .inl state
  | moved legal => exact .inr legal
  | claimed source state => exact .inr (by rw [source, state]; decide)

def NewJob.after (dep : Int) : NewJob := { NewJob.plain "q" with waitforJob := some dep }

/-- Takes a new job to the state; a dependent one waits for job 1, which has finished. -/
def reachActs (dependent : Bool) (s : JorbState) : List Act :=
  let attempt := Act.claim 1 (.plain "q")
  let upstream := .enqueue (.plain "q") :: attempt ++
    [.worker 0 (.run none), .worker 0 (.finished none)]
  let i := if dependent then 1 else 0
  let queued :=
    if dependent then upstream ++ [.enqueue (.after 1), .wakeSelf 0] else [.enqueue (.plain "q")]
  let running := queued ++ attempt ++ [.worker i (.run none)]
  match s with
  | .queued => queued
  | .waiting => upstream ++ [.enqueue (.after 1)]
  | .claimed => queued ++ attempt
  | .running => running
  | .finished => running ++ [.worker i (.finished none)]
  | .crashed => running ++ [.worker i (.crashed "" "")]
  | .cancelled => running ++ [.worker i .cancelled]

/-- One act more, along the edge from `s` to `t`, or a moment in which nothing happens. -/
def edgeActs (s t : JorbState) : List Act :=
  let dependent := s = .waiting || t = .waiting
  let (i, jid) := if dependent then (1, 2) else (0, 1)
  let requeue (allowed : List JorbState) : Act := .supervise (.requeue [jid] allowed 0 true)
  if s = t then reachActs dependent s ++ [.tick 1]
  else match s, t with
    | .waiting, .queued => reachActs dependent s ++ [.wakeSelf 0]
    | .queued, .claimed => reachActs dependent s ++ Act.claim 1 (.plain "q")
    | .claimed, .running => reachActs dependent s ++ [.worker i (.run none)]
    | .waiting, .cancelled | .queued, .cancelled =>
      reachActs dependent s ++ [.supervise (.cancel [jid])]
    | _, .finished => reachActs dependent s ++ [.worker i (.finished none)]
    | _, .crashed => reachActs dependent s ++ [.worker i (.crashed "" "")]
    | _, .cancelled => reachActs dependent s ++ [.worker i .cancelled]
    | _, _ => reachActs dependent s ++ [requeue [s]]

def World.stateOf (w : World) (jid : Nat) : Option JorbState := (w.db.jorb.find? jid).map Jorb.state

theorem World.stateOf_eq_some {w : World} {jid : Nat} {s : JorbState} (h : w.stateOf jid = some s) :
    ∃ r ∈ w.db.jorb, r.id = jid ∧ r.state = s := by
  obtain ⟨r, hr, hs⟩ := Option.map_eq_some_iff.mp h
  exact ⟨r, (Serial.find?_eq_some.mp hr).1, (Serial.find?_eq_some.mp hr).2, hs⟩

def edgeShown (s t : JorbState) : Bool :=
  let acts := edgeActs s t
  let jid := if s = .waiting || t = .waiting then 2 else 1
  let start := World.init .empty 0 fun _ => none
  acts.all Act.sparesQueued && acts.length ≠ 0 &&
    (exec World.step start acts.dropLast).bind (·.stateOf jid) = some s &&
    (exec World.step start acts).bind (·.stateOf jid) = some t

theorem edgeShown_of_legal : ∀ s ∈ JorbState.jobStates, ∀ t ∈ JorbState.jobStates,
    s = t ∨ isLegal (.moved s) t → edgeShown s t := by
  decide

theorem JorbState.mem_jobStates (s : JorbState) : s ∈ jobStates := by
  cases s <;> decide

/-- Some run takes a job from `s` to `t` in one step. -/
def Realised (s t : JorbState) : Prop :=
  ∃ ρ : History, ρ.FromEmpty ∧ (∀ n < ρ.length, (ρ.act n).sparesQueued) ∧
    ∃ n < ρ.length, ∃ r ∈ (ρ.state n).db.jorb, ∃ r' ∈ (ρ.state (n + 1)).db.jorb,
      r.id = r'.id ∧ r.state = s ∧ r'.state = t

theorem realised_of_shown {s t : JorbState} (h : edgeShown s t) : Realised s t := by
  simp only [edgeShown, Bool.and_eq_true, decide_eq_true_eq] at h
  obtain ⟨⟨⟨hspare, hne⟩, hs⟩, ht⟩ := h
  set acts := edgeActs s t with hacts
  set start : World := .init .empty 0 fun _ => none with hstart
  obtain ⟨w, hw, hws⟩ := Option.bind_eq_some_iff.mp hs
  obtain ⟨w', hw', hwt⟩ := Option.bind_eq_some_iff.mp ht
  obtain ⟨r, hr, hid, rfl⟩ := World.stateOf_eq_some hws
  obtain ⟨r', hr', hid', rfl⟩ := World.stateOf_eq_some hwt
  have hsome : (exec World.step start acts).isSome := by rw [hw']; rfl
  have hlen : acts.length - 1 < acts.length := by omega
  have hlast : acts.length - 1 + 1 = acts.length := by omega
  have htake : acts.take acts.length = acts := List.take_length
  refine ⟨.ofList start acts hsome, ⟨0, _, rfl⟩, fun n hn => ?_, acts.length - 1, hlen,
    r, ?_, r', ?_, hid.trans hid'.symm, rfl, rfl⟩
  · exact List.all_eq_true.mp hspare _ (Run.ofList_act_mem hn)
  · simpa [Run.ofList, ← List.dropLast_eq_take, hw] using hr
  · simpa [Run.ofList, hlast, htake, hw'] using hr'

theorem realised_iff (s t : JorbState) : s = t ∨ isLegal (.moved s) t ↔ Realised s t := by
  constructor
  · exact fun h => realised_of_shown
      (edgeShown_of_legal s s.mem_jobStates t t.mem_jobStates h)
  · rintro ⟨ρ, hρ, hspare, n, hn, r, hr, r', hr', hid, rfl, rfl⟩
    have hlocks := History.locks hρ.fresh n hn.le
    rcases World.step_moved hlocks (ρ.next n hn) (hspare n hn) hr' with ⟨hnew, -⟩ | hold
    · exact absurd (hid ▸ Serial.lt_next hr) hnew.not_gt
    · obtain ⟨u, hu, huid, -, hmoved⟩ := hold
      obtain rfl := Serial.eq_of_ident hu hr (huid.trans hid.symm)
      exact hmoved.legal.imp_left Eq.symm

/-- The declaration is exact: a job moves along each of its edges in some run, and along
no other pair of states in any. -/
theorem lifecycle_exact (s t : JorbState) :
    (s = t ∨ isLegal (.moved s) t ↔ Realised s t) ∧
      ((s, t) ∈ illegalTransitions ↔ ¬Realised s t) := by
  refine ⟨realised_iff s t, ?_⟩
  rw [← realised_iff s t]
  simp [illegalTransitions, List.mem_filter, List.pair_mem_product, s.mem_jobStates,
    t.mem_jobStates]

end Pyjobby
