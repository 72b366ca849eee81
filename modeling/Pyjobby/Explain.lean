import Pyjobby.Registry
import Pyjobby.SingleLane

/-! `explain_job`: why a job is not running, the causes tried in the order of how
long they last. -/

namespace Pyjobby

open Relational

/-- The keys of `EXPLAIN_REASONS`. -/
inductive ExplainReason where
  | finished
  | crashed
  | cancelled
  | claimed
  | running
  | waitingOnJob
  | waitingOnGroup
  | waitingUnblocked
  | deferred
  | aboveWorkerCeiling
  | capabilityUnmet
  | appVersionUnmet
  | noLiveWorkers
  | queuePaused
  | queueAtMaxConcurrency
  | rateLimited
  | claimable
  deriving DecidableEq, Repr

/-- The `details` of an answer, of which its summary is the text. -/
inductive ExplainDetails where
  | terminal (terminalAt : Int) (runCount errorCount : Nat) (errorMessage : Option String)
  | inFlight (workerId : Option Nat) (workerHost : Option String) (workerPid : Option Int)
      (workerLive : Option Bool) (workerLastSeenAge claimedAt started timeoutAt : Option Int)
      (timeoutIn : Option Int) (inState : Int)
  | blockingJob (jobId : Int) (state : Option JorbState) (jobClass : Option String)
      (waiting : Int)
  | blockingGroup (group : Int) (unfinished : Nat) (capped : Bool) (waiting : Int)
  | unblocked (waiting : Int)
  | deferred (runAfter untilRunAfter : Int) (debounce : Option (String × Option Int))
  | paused (queue : String)
  | noLiveWorkers (queue : String) (grace : Int)
  | ceiling (prio : Int) (maxLiveCeiling : Option Int) (liveWorkers : Nat)
  | capability (capability : Option String) (liveWorkers : Nat) (advertised : List String)
  | appVersion (appVersion : Option String) (liveWorkers : Nat) (advertised : List String)
  | maxConcurrency (queue : String) (cap : Option Int) (inFlight : Nat) (partitionLimits : Bool)
      (partitionKey : Option String)
  | rate (queue : String) (limit : Option Int) (period : Int) (admissions : Nat)
      (partitionLimits : Bool) (partitionKey : Option String)
  | claimable (queue : String) (liveWorkers jobsAhead : Nat) (capped serialised : Bool)
      (partitionLimits : Bool) (partitionKey : Option String)

structure Explanation where
  reason : ExplainReason
  details : ExplainDetails

def explainAheadLimit : Nat := 1000

def explainGroupLimit : Nat := 1000

def explainCapabilityLimit : Nat := 50

namespace WorkerRow

def live (w : WorkerRow) (now grace : Int) : Bool :=
  w.shutdownAt.isNone && now - grace < w.lastSeen

def liveOn (w : WorkerRow) (queue : String) (now grace : Int) : Bool :=
  w.queue = queue && w.live now grace

def args (w : WorkerRow) : ClaimArgs where
  queue := w.queue
  capabilities := w.capabilities
  maxPrio := w.maxPrio
  appVersion := w.appVersion
  workerPid := w.pid
  workerHost := w.host
  workerId := some w.id

def atPrio (r : Jorb) (w : WorkerRow) : Bool := r.prio ≤ w.maxPrio

def capable (r : Jorb) (w : WorkerRow) : Bool := r.capability.all (· ∈ w.capabilities)

def versioned (r : Jorb) (w : WorkerRow) : Bool := r.appVersion.all (fun v => some v = w.appVersion)

end WorkerRow

namespace Jorb

def explainTerminal (r : Jorb) (reason : ExplainReason) : Explanation :=
  ⟨reason, .terminal (r.finished.getD r.updated) r.runCount r.errorCount
    (if reason = .crashed then r.errorMessage else none)⟩

end Jorb

namespace Db

def explainInFlight (db : Db) (now grace : Int) (r : Jorb) (reason : ExplainReason) :
    Explanation :=
  let worker := r.claimedBy.bind db.worker.find?
  ⟨reason, .inFlight r.claimedBy r.workerHost r.workerPid (worker.map (·.live now grace))
    (worker.map (now - ·.lastSeen)) r.claimedAt r.started r.timeoutAt
    (r.timeoutAt.map (· - now)) (now - r.updated)⟩

def explainWaiting (db : Db) (now : Int) (r : Jorb) : Explanation :=
  let waiting := now - r.updated
  match r.waitforJob, r.waitforGroup with
  | some jid, _ =>
    let blocker := db.jorb.rows.find? fun b => b.id = jid
    ⟨.waitingOnJob, .blockingJob jid (blocker.map Jorb.state) (blocker.map Jorb.jobClass) waiting⟩
  | none, some gid =>
    let unfinished := min explainGroupLimit
      (db.jorb.count fun m => m.runGroup = some gid && m.state ≠ .finished)
    ⟨.waitingOnGroup, .blockingGroup gid unfinished (explainGroupLimit ≤ unfinished) waiting⟩
  | none, none => ⟨.waitingUnblocked, .unblocked waiting⟩

/-- `p` over the whole queue, or over `lane` where limits count by lane. -/
def inScope (p : Jorb → Bool) (partitioned : Bool) (lane : Option String) (r : Jorb) : Bool :=
  p r && (!partitioned || r.partitionKey = lane)

def aheadOf (r : Jorb) (now : Int) (k : Jorb) : Bool :=
  k.queue = r.queue && k.state = .queued && k.runAfter ≤ now &&
    toLex (k.prio, k.runAfter) < toLex (r.prio, r.runAfter)

/-- Distinct texts in order, of the first `explainCapabilityLimit`. -/
def advertised (texts : List String) : List String :=
  (texts.take explainCapabilityLimit).dedup.mergeSort fun a b => a ≤ b

def explainQueued (db : Db) (control : Option QueueRow) (now grace : Int) (r : Jorb) :
    Explanation :=
  let q := control.getD (.unlimited r.queue)
  let live := db.worker.rows.filter (·.liveOn r.queue now grace)
  let inFlight := db.jorb.count (inScope (inFlightOn r.queue) q.partitionLimits r.partitionKey)
  let admissions :=
    db.jorb.count (inScope (admittedOn r.queue q.ratePeriod now) q.partitionLimits r.partitionKey)
  let ahead := min explainAheadLimit (db.jorb.count (aheadOf r now))
  if now < r.runAfter then
    -- a requeued row is deferred by its backoff, not by a collapse window
    let debounce := if r.runCount = 0 then r.debounceKey.filter (· ≠ "") else none
    ⟨.deferred, .deferred r.runAfter (r.runAfter - now) (debounce.map (·, r.debounceDeadline))⟩
  else if q.paused then ⟨.queuePaused, .paused r.queue⟩
  else if live.length = 0 then ⟨.noLiveWorkers, .noLiveWorkers r.queue grace⟩
  else if live.countP (·.atPrio r) = 0 then
    ⟨.aboveWorkerCeiling, .ceiling r.prio (live.map WorkerRow.maxPrio).max? live.length⟩
  else if r.capability.isSome && live.countP (·.capable r) = 0 then
    ⟨.capabilityUnmet, .capability r.capability live.length
      (advertised (live.flatMap WorkerRow.capabilities))⟩
  else if r.appVersion.isSome && live.countP (·.versioned r) = 0 then
    ⟨.appVersionUnmet, .appVersion r.appVersion live.length
      (advertised (live.filterMap WorkerRow.appVersion))⟩
  else if q.maxConcurrency.any (· ≤ (inFlight : Int)) then
    ⟨.queueAtMaxConcurrency,
      .maxConcurrency r.queue q.maxConcurrency inFlight q.partitionLimits r.partitionKey⟩
  else if q.rateLimit.any (· ≤ (admissions : Int)) then
    ⟨.rateLimited,
      .rate r.queue q.rateLimit q.ratePeriod admissions q.partitionLimits r.partitionKey⟩
  else
    ⟨.claimable, .claimable r.queue live.length ahead (explainAheadLimit ≤ ahead) q.controlled
      q.partitionLimits r.partitionKey⟩

/-- `explain_job`, its queries read at one moment; `none` for a job there is not. -/
def explainJob (db : Db) (queues : String → Option QueueRow) (now grace : Int) (jid : Nat) :
    Option Explanation :=
  (db.jorb.find? jid).map fun r =>
    match r.state with
    | .finished => r.explainTerminal .finished
    | .crashed => r.explainTerminal .crashed
    | .cancelled => r.explainTerminal .cancelled
    | .claimed => db.explainInFlight now grace r .claimed
    | .running => db.explainInFlight now grace r .running
    | .waiting => db.explainWaiting now r
    | .queued => db.explainQueued (queues r.queue) now grace r

/-- Some live worker on the queue of `r` is as `p` says. -/
def SomeLive (db : Db) (now grace : Int) (r : Jorb) (p : WorkerRow → Bool) : Prop :=
  ∃ w ∈ db.worker, w.liveOn r.queue now grace ∧ p w

/-- For the ceiling, the capability and the pin each, some live worker fits. -/
def FleetFits (db : Db) (now grace : Int) (r : Jorb) : Prop :=
  db.SomeLive now grace r (·.atPrio r) ∧ db.SomeLive now grace r (·.capable r) ∧
    db.SomeLive now grace r (·.versioned r)

/-- One live worker fits in all three. -/
def WorkerFits (db : Db) (now grace : Int) (r : Jorb) : Prop :=
  db.SomeLive now grace r fun w => w.atPrio r && w.capable r && w.versioned r

theorem WorkerFits.fleetFits {db : Db} {now grace : Int} {r : Jorb}
    (h : db.WorkerFits now grace r) : db.FleetFits now grace r := by
  obtain ⟨w, hw, hlive, hfits⟩ := h
  simp only [Bool.and_eq_true] at hfits
  obtain ⟨⟨hprio, hcap⟩, hver⟩ := hfits
  exact ⟨⟨w, hw, hlive, hprio⟩, ⟨w, hw, hlive, hcap⟩, ⟨w, hw, hlive, hver⟩⟩

end Db

namespace QueueRow

def Reached (q : QueueRow) (db : Db) (lane : Option String) (l : Limit) : Prop :=
  l.cap ≤ db.jorb.count (q.counted l.counts lane)

/-- A limit of zero or less that counts by lane, and no row of `lane`. -/
def ReachedEmpty (q : QueueRow) (db : Db) (lane : Option String) (l : Limit) : Prop :=
  q.partitioned ∧ l.cap ≤ 0 ∧ db.jorb.count (q.counted l.counts lane) = 0

theorem bars_iff {q : QueueRow} {db : Db} {lane : Option String} {l : Limit} :
    q.Bars db lane l ↔ q.Reached db lane l ∧ ¬q.ReachedEmpty db lane l := by
  unfold Bars Reached ReachedEmpty
  constructor
  · rintro ⟨hcap, hpos⟩
    refine ⟨hcap, fun ⟨hpart, _, hzero⟩ => ?_⟩
    have := hpos hpart
    omega
  · rintro ⟨hcap, hempty⟩
    refine ⟨hcap, fun hpart => ?_⟩
    by_contra hpos
    exact hempty ⟨hpart, by omega, by omega⟩

theorem ReachedEmpty.reached {q : QueueRow} {db : Db} {lane : Option String} {l : Limit}
    (h : q.ReachedEmpty db lane l) : q.Reached db lane l := by
  obtain ⟨-, hcap, hzero⟩ := h
  unfold Reached
  omega

end QueueRow

namespace Db

section Explain

variable {db : Db} {now grace : Int} {r : Jorb}

theorem someLive_iff {p : WorkerRow → Bool} :
    db.SomeLive now grace r p ↔
      (db.worker.rows.filter (·.liveOn r.queue now grace)).countP p ≠ 0 := by
  rw [← Nat.pos_iff_ne_zero, List.countP_pos_iff]
  simp [SomeLive, Serial.mem_rows, and_assoc]

theorem any_limit_iff {q : QueueRow} {limit : Option Int} (hlimit : limit.isSome → q.controlled)
    {p : Jorb → Bool} {lane : Option String} :
    limit.any (· ≤ (db.jorb.count (inScope p q.partitionLimits lane) : Int)) = false ↔
      ∀ cap, limit = some cap → ¬q.Reached db lane ⟨cap, p⟩ := by
  cases limit with
  | none => simp
  | some cap =>
    have hscope : inScope p q.partitionLimits lane = q.counted p lane := by
      have hctl := hlimit rfl
      funext k
      simp [inScope, QueueRow.counted, QueueRow.partitioned, hctl]
    simp [QueueRow.Reached, hscope]

theorem requirement_met {α : Type} {req : Option α} {live : List WorkerRow} {p : WorkerRow → Bool}
    (hlive : live.length ≠ 0) (hfree : req = none → ∀ w, p w)
    (h : ¬(req.isSome && live.countP p = 0)) : live.countP p ≠ 0 := by
  cases req with
  | none =>
    have hall : live.countP p = live.length := List.countP_eq_length.mpr fun w _ => hfree rfl w
    rwa [hall]
  | some v => simpa using h

theorem explainQueued_claimable {control : Option QueueRow} {q : QueueRow}
    (hq : control.getD (.unlimited r.queue) = q) :
    (db.explainQueued control now grace r).reason = .claimable ↔
      r.runAfter ≤ now ∧ q.paused = false ∧ db.FleetFits now grace r ∧
        ∀ l ∈ q.limits r.queue now, ¬q.Reached db r.partitionKey l := by
  rw [QueueRow.forall_limits, ← any_limit_iff (by simp +contextual [QueueRow.controlled]),
    ← any_limit_iff (by simp +contextual [QueueRow.controlled]), FleetFits, someLive_iff,
    someLive_iff, someLive_iff]
  simp only [explainQueued, hq]
  split
  · next hdeferred => simp [not_le.mpr hdeferred]
  next hdue =>
  split
  · next hpaused => simp [hpaused]
  next hpaused =>
  split
  · next hlive => simp [List.length_eq_zero_iff.mp hlive]
  next hlive =>
  split
  · next hprio => simp [hprio]
  next hprio =>
  split
  · next hcap =>
    have hzero := (Bool.and_eq_true_iff.mp hcap).2
    simp [of_decide_eq_true hzero]
  next hcap =>
  split
  · next hver =>
    have hzero := (Bool.and_eq_true_iff.mp hver).2
    simp [of_decide_eq_true hzero]
  next hver =>
  split
  · next hflight => simp [hflight]
  next hflight =>
  split
  · next hrate => simp [hrate]
  next hrate =>
  have hcapable := requirement_met hlive (fun hnone w => by simp [WorkerRow.capable, hnone]) hcap
  have hversioned :=
    requirement_met hlive (fun hnone w => by simp [WorkerRow.versioned, hnone]) hver
  exact iff_of_true rfl ⟨not_lt.mp hdue, by simpa using hpaused, ⟨hprio, hcapable, hversioned⟩,
    by simpa using hflight, by simpa using hrate⟩

/-- A `claim_jorb` call of the worker takes `r` where every other row is locked
by others, so that no earlier row is in the way of `r`. -/
def WouldClaim (db : Db) (queues : String → Option QueueRow) (now : Int) (scan : Nat → Nat)
    (w : WorkerRow) (r : Jorb) : Prop :=
  ∃ r', (db.claimJorb (queues w.queue) w.args now (fun i => i ≠ r.id) scan).2 = some r' ∧
    r'.id = r.id

variable {queues : String → Option QueueRow} {scan : Nat → Nat} {w : WorkerRow}

theorem claimJorb_getD (control : Option QueueRow) (a : ClaimArgs) (locked : Nat → Bool) :
    db.claimJorb control a now locked scan =
      db.claimJorb (some (control.getD (.unlimited a.queue))) a now locked scan := by
  cases control with
  | none => exact (QueueRow.claimJorb_unlimited db a now locked scan).symm
  | some q => rfl

theorem wouldClaim_iff (hr : r ∈ db.jorb) (hqueued : r.state = .queued)
    (hqueue : w.queue = r.queue) {q : QueueRow}
    (hq : (queues r.queue).getD (.unlimited r.queue) = q) :
    db.WouldClaim queues now scan w r ↔
      r.runAfter ≤ now ∧ q.paused = false ∧
        (w.atPrio r && w.capable r && w.versioned r) ∧
        ∀ l ∈ q.limits r.queue now, ¬q.Bars db r.partitionKey l := by
  have hadmits : w.args.admits now r ↔
      (w.atPrio r && w.capable r && w.versioned r) ∧ r.runAfter ≤ now := by
    simp [ClaimArgs.admits, WorkerRow.args, WorkerRow.atPrio, WorkerRow.capable,
      WorkerRow.versioned, hqueued, hqueue]
    tauto
  have hcontrol : (queues w.queue).getD (.unlimited w.args.queue) = q := by
    rw [show w.args.queue = r.queue from hqueue, hqueue, hq]
  have hsome : db.WouldClaim queues now scan w r ↔
      (db.claimJorb (some q) w.args now (fun i => i ≠ r.id) scan).2.isSome := by
    rw [WouldClaim, claimJorb_getD, hcontrol, Option.isSome_iff_exists]
    refine exists_congr fun r' => and_iff_left_of_imp fun h => ?_
    simpa using claimJorb_free h
  rw [hsome, claimJorb_isSome]
  constructor
  · rintro ⟨hpaused, j, hj, hj_admits, hfree, hopen⟩
    obtain rfl : j = r := Serial.eq_of_ident hj hr (by simpa using hfree)
    obtain ⟨hfits, hdue⟩ := hadmits.mp hj_admits
    exact ⟨hdue, hpaused, hfits, by simpa [WorkerRow.args, hqueue] using hopen⟩
  · rintro ⟨hdue, hpaused, hfits, hopen⟩
    exact ⟨hpaused, r, hr, hadmits.mpr ⟨hfits, hdue⟩, by simp,
      by simpa [WorkerRow.args, hqueue] using hopen⟩

theorem explainJob_queued (hr : r ∈ db.jorb) (hqueued : r.state = .queued) :
    db.explainJob queues now grace r.id = some (db.explainQueued (queues r.queue) now grace r) := by
  rw [explainJob, show r.id = Jorb.id r from rfl, Serial.find?_self hr]
  simp [hqueued]

theorem exists_wouldClaim_iff (hr : r ∈ db.jorb) (hqueued : r.state = .queued) {q : QueueRow}
    (hq : (queues r.queue).getD (.unlimited r.queue) = q) :
    (∃ w ∈ db.worker, w.liveOn r.queue now grace ∧ db.WouldClaim queues now scan w r) ↔
      r.runAfter ≤ now ∧ q.paused = false ∧ db.WorkerFits now grace r ∧
        ∀ l ∈ q.limits r.queue now, ¬q.Bars db r.partitionKey l := by
  have hqueue : ∀ {w : WorkerRow}, w.liveOn r.queue now grace → w.queue = r.queue := by
    intro w hlive
    simp only [WorkerRow.liveOn, Bool.and_eq_true, decide_eq_true_eq] at hlive
    exact hlive.1
  constructor
  · rintro ⟨w, hw, hlive, hwould⟩
    obtain ⟨hdue, hpaused, hfits, hopen⟩ := (wouldClaim_iff hr hqueued (hqueue hlive) hq).mp hwould
    exact ⟨hdue, hpaused, ⟨w, hw, hlive, hfits⟩, hopen⟩
  · rintro ⟨hdue, hpaused, ⟨w, hw, hlive, hfits⟩, hopen⟩
    exact ⟨w, hw, hlive, (wouldClaim_iff hr hqueued (hqueue hlive) hq).mpr
      ⟨hdue, hpaused, hfits, hopen⟩⟩

end Explain

end Db

/-- `explain_job` and the claim differ over a due job of a queue that is not
paused in two ways: each requirement is met by a worker, no worker meets them
all; and a limit of zero or less by lane, which the claim enforces only on lanes
with a counted row. -/
theorem explain_claimable_iff {db : Db} {r : Jorb} (hr : r ∈ db.jorb) (hqueued : r.state = .queued)
    (queues : String → Option QueueRow) (now grace : Int) (scan : Nat → Nat) :
    let q := (queues r.queue).getD (.unlimited r.queue)
    ((∃ e, db.explainJob queues now grace r.id = some e ∧ e.reason = .claimable) ↔
        ∃ w ∈ db.worker, w.liveOn r.queue now grace ∧ db.WouldClaim queues now scan w r) ↔
      now < r.runAfter ∨ q.paused ∨
        (db.FleetFits now grace r → (∀ l ∈ q.limits r.queue now, ¬q.Reached db r.partitionKey l) →
            db.WorkerFits now grace r) ∧
          ((∃ l ∈ q.limits r.queue now, q.ReachedEmpty db r.partitionKey l) →
            db.WorkerFits now grace r →
              ∃ l ∈ q.limits r.queue now, q.Bars db r.partitionKey l) := by
  intro q
  have hexplain : (∃ e, db.explainJob queues now grace r.id = some e ∧ e.reason = .claimable) ↔
      r.runAfter ≤ now ∧ q.paused = false ∧ db.FleetFits now grace r ∧
        ∀ l ∈ q.limits r.queue now, ¬q.Reached db r.partitionKey l := by
    rw [Db.explainJob_queued hr hqueued, ← Db.explainQueued_claimable rfl]
    simp
  rw [hexplain, Db.exists_wouldClaim_iff hr hqueued rfl]
  by_cases hdue : now < r.runAfter
  · simp [hdue, not_le.mpr hdue]
  cases hpaused : q.paused with
  | true => simp
  | false =>
    have hle : r.runAfter ≤ now := not_lt.mp hdue
    simp only [hle, hdue, true_and, false_or, Bool.false_eq_true]
    constructor
    · intro h
      refine ⟨fun hfleet hopen => (h.mp ⟨hfleet, hopen⟩).1, ?_⟩
      rintro ⟨l, hl, hempty⟩ hworker
      by_contra hbars
      push Not at hbars
      exact (h.mpr ⟨hworker, hbars⟩).2 l hl hempty.reached
    · rintro ⟨hsplit, hlane⟩
      constructor
      · rintro ⟨hfleet, hopen⟩
        exact ⟨hsplit hfleet hopen, fun l hl hbars => hopen l hl (QueueRow.bars_iff.mp hbars).1⟩
      · rintro ⟨hworker, hopen⟩
        refine ⟨hworker.fleetFits, fun l hl hreached => ?_⟩
        by_cases hempty : q.ReachedEmpty db r.partitionKey l
        · obtain ⟨l', hl', hbars⟩ := hlane ⟨l, hl, hempty⟩ hworker
          exact hopen l' hl' hbars
        · exact hopen l hl (QueueRow.bars_iff.mpr ⟨hreached, hempty⟩)

def servedDb : Db := oneJobDb.registerWorker 0 (.plain "q")

theorem explain_claimable_iff_served :
    ∃ r ∈ servedDb.jorb,
      (∃ e, servedDb.explainJob (fun _ => none) 5 60 r.id = some e ∧ e.reason = .claimable) ∧
        ∃ w ∈ servedDb.worker, w.liveOn r.queue 5 60 ∧
          servedDb.WouldClaim (fun _ => none) 5 id w r := by
  let r := (NewJob.plain "q").row 0 1
  let w : WorkerRow := ⟨1, "localhost", 1, "q", [], 1000, none, 0, none, false⟩
  have hr : r ∈ servedDb.jorb := List.mem_singleton_self _
  have hw : w ∈ servedDb.worker := List.mem_singleton_self _
  have hclaimable : (servedDb.explainJob (fun _ => none) 5 60 r.id).map Explanation.reason =
      some .claimable := by decide
  obtain ⟨e, he, hreason⟩ := Option.map_eq_some_iff.mp hclaimable
  refine ⟨r, hr, ⟨e, he, hreason⟩,
    ((explain_claimable_iff hr rfl (fun _ => none) 5 60 id).mpr ?_).mp ⟨e, he, hreason⟩⟩
  refine .inr (.inr ⟨fun _ _ => ⟨w, hw, by decide, by decide⟩, ?_⟩)
  rintro ⟨l, hl, -⟩
  cases hl

def gpuJob : NewJob := { NewJob.plain "q" with capability := some "gpu" }

def urgentGpuWorker : ClaimArgs :=
  { ClaimArgs.plain "q" with capabilities := ["gpu"], maxPrio := 10 }

/-- A job that wants a capability, a worker without it and a worker with it,
whose ceiling is below the job. -/
def splitFleetDb : Db :=
  let db := (Db.empty.enqueue 0 gpuJob).getD .empty
  (db.registerWorker 0 (.plain "q")).registerWorker 0 urgentGpuWorker

/-- The job is explained as claimable and no worker would take it. -/
theorem split_fleet_explained_claimable :
    ¬∀ (db : Db) (r : Jorb), r ∈ db.jorb → r.state = .queued →
      ∀ (queues : String → Option QueueRow) (now grace : Int) (scan : Nat → Nat),
        (∃ e, db.explainJob queues now grace r.id = some e ∧ e.reason = .claimable) ↔
          ∃ w ∈ db.worker, w.liveOn r.queue now grace ∧ db.WouldClaim queues now scan w r := by
  intro h
  let r := gpuJob.row 0 1
  have hr : r ∈ splitFleetDb.jorb := List.mem_singleton_self _
  have hclaimable : (splitFleetDb.explainJob (fun _ => none) 5 60 r.id).map Explanation.reason =
      some .claimable := by decide
  obtain ⟨e, he, hreason⟩ := Option.map_eq_some_iff.mp hclaimable
  have hsame := h splitFleetDb r hr rfl (fun _ => none) 5 60 id
  obtain ⟨-, -, ⟨w, hw, -, hfits⟩, -⟩ :=
    (Db.exists_wouldClaim_iff hr rfl rfl).mp (hsame.mp ⟨e, he, hreason⟩)
  have hnone : ∀ w ∈ splitFleetDb.worker.rows,
      (w.atPrio r && w.capable r && w.versioned r) = false := by decide
  exact Bool.false_ne_true ((hnone w hw).symm.trans hfits)

end Pyjobby
