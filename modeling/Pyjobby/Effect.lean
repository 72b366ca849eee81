import Pyjobby.World

/-! What a step can do, said once: every invariant below is derived from
`step_effect` and never from the step function itself. -/

namespace Pyjobby

open Relational

structure SameJob (r r' : Jorb) : Prop where
  id : r'.id = r.id
  queue : r'.queue = r.queue
  lane : r'.partitionKey = r.partitionKey
  runGroup : r'.runGroup = r.runGroup
  waitforJob : r'.waitforJob = r.waitforJob
  waitforGroup : r'.waitforGroup = r.waitforGroup

theorem SameJob.trans {r s t : Jorb} (h : SameJob r s) (k : SameJob s t) : SameJob r t :=
  ⟨k.id.trans h.id, k.queue.trans h.queue, k.lane.trans h.lane, k.runGroup.trans h.runGroup,
    k.waitforJob.trans h.waitforJob, k.waitforGroup.trans h.waitforGroup⟩

/-- The dependency of a waiting row as the statements that wake it see it. -/
def Released (w : World) (r : Jorb) : Prop :=
  (∃ j, r.waitforJob = some j ∧ w.db.jobFinished j) ∨
    ∃ g, r.waitforGroup = some g ∧ w.db.groupUnfinished g = false ∧
      (w.db.groupExists g ∨ ∃ e ∈ w.wakes, e.runGroup = some g)

/-- What an UPDATE other than a claim's does to a row it matches. -/
inductive Change (w : World) (r r' : Jorb) : Prop where
  | edit (state : r'.state = r.state) (epoch : r'.runEpoch = r.runEpoch)
  | start (source : r.inFlight) (state : r'.state = .running) (epoch : r'.runEpoch = r.runEpoch)
  | leave (source : r.inFlight) (state : r'.state ∈ [.queued, .finished, .crashed, .cancelled])
      (epoch : r'.runEpoch = r.runEpoch + 1)
  | requeue (state : r'.state = r.requeueState) (epoch : r'.runEpoch = r.runEpoch + 1)
  | wake (source : r.state = .waiting) (state : r'.state = .queued)
      (epoch : r'.runEpoch = r.runEpoch) (released : Released w r)
  | withdraw (source : r.preClaim) (state : r'.state = .cancelled)
      (epoch : r'.runEpoch = r.runEpoch)

/-- The SET list leaves the job and its claims alone. -/
def Keeps (set : Jorb → Jorb) : Prop := ∀ r, SameJob r (set r) ∧
  (set r).claimedAt = r.claimedAt ∧ (set r).runCount = r.runCount

theorem WorkerStmt.keeps (now : Int) (s : WorkerStmt) : Keeps (s.set now) := fun _ => by
  cases s <;> exact ⟨⟨rfl, rfl, rfl, rfl, rfl, rfl⟩, rfl, rfl⟩

theorem SupervisorStmt.keeps (now : Int) (s : SupervisorStmt) : Keeps (s.set now) := fun _ => by
  cases s <;> exact ⟨⟨rfl, rfl, rfl, rfl, rfl, rfl⟩, rfl, rfl⟩

theorem Jorb.wake_keeps (now : Int) : Keeps (Jorb.wake now).set := fun _ =>
  ⟨⟨rfl, rfl, rfl, rfl, rfl, rfl⟩, rfl, rfl⟩

/-- The UPDATE keeps every row's job and claims, and changes the rows it
matches in one of the ways of `Change`. -/
structure Update.Sound (w : World) (u : Update) : Prop where
  keeps : Keeps u.set.set
  change : ∀ r ∈ w.db.jorb, u.cond w.db r → Change w r (u.set.set r)

theorem WorkerStmt.sound (w : World) (jid epoch : Nat) (s : WorkerStmt) :
    (s.update w.clock jid epoch).Sound w := by
  refine ⟨s.keeps w.clock, fun r _ hr => ?_⟩
  obtain ⟨-, hflight, -⟩ := Jorb.attemptOf_iff.mp hr
  cases s with
  | run => exact .start hflight rfl rfl
  | finished => exact .leave hflight (by simp [update, set]) rfl
  | retry => exact .leave hflight (by simp [update, set]) rfl
  | crashed => exact .leave hflight (by simp [update, set]) rfl
  | cancelled => exact .leave hflight (by simp [update, set]) rfl
  | reschedule => exact .leave hflight (by simp [update, set]) rfl

theorem Jorb.stranded_released {w : World} {r : Jorb} (h : r.stranded w.db) :
    r.state = .waiting ∧ Released w r := by
  simp only [Jorb.stranded, Bool.and_eq_true, Bool.or_eq_true, decide_eq_true_eq,
    Option.any_eq_true, Bool.not_eq_true'] at h
  obtain ⟨hstate, ⟨j, hj, hfin⟩ | ⟨g, hg, hex, hun⟩⟩ := h
  · exact ⟨hstate, .inl ⟨j, hj, hfin⟩⟩
  · exact ⟨hstate, .inr ⟨g, hg, hun, .inl hex⟩⟩

theorem SupervisorStmt.sound (w : World) (s : SupervisorStmt) : (s.update w.clock).Sound w := by
  refine ⟨s.keeps w.clock, fun r _ hr => ?_⟩
  change s.cond w.clock w.db r at hr
  cases s with
  | requeue => exact .requeue rfl rfl
  | cancel =>
    by_cases hpre : r.preClaim
    · exact .withdraw hpre (by simp [update, set, hpre]) rfl
    · exact .edit (by simp [update, set, hpre]) rfl
  | updatePriority => exact .edit rfl rfl
  | updateAppVersion => exact .edit rfl rfl
  | setAwaited => exact .edit rfl rfl
  | bounce => exact .edit rfl rfl
  | sweepDeadWorkerJobs =>
    simp only [cond, Bool.and_eq_true] at hr
    exact .leave hr.1.2 (by simp [update, set]) rfl
  | sweepStuckClaims =>
    simp only [cond, Bool.and_eq_true, decide_eq_true_eq] at hr
    exact .leave (Jorb.inFlight_iff.mpr (.inl hr.1.2)) (by simp [update, set]) rfl
  | retryTimedOut =>
    simp only [cond, Bool.and_eq_true, decide_eq_true_eq] at hr
    exact .leave (Jorb.inFlight_iff.mpr (.inr hr.2)) (by simp [update, set]) rfl
  | deadletterTimedOut =>
    simp only [cond, Bool.and_eq_true, decide_eq_true_eq] at hr
    exact .leave (Jorb.inFlight_iff.mpr (.inr hr.2)) (by simp [update, set]) rfl
  | wakeWaiters =>
    simp only [cond, Bool.and_eq_true] at hr
    obtain ⟨hwait, hrel⟩ := Jorb.stranded_released hr.2
    exact .wake hwait rfl rfl hrel
  | cancelUnsatisfiableWaiters =>
    simp only [cond, Jorb.unsatisfiable, Bool.and_eq_true, decide_eq_true_eq] at hr
    exact .withdraw (Jorb.preClaim_iff.mpr (.inr hr.2.1)) rfl rfl

theorem enqueueNextSelfFinished_sound (w : World) (jid : Nat) :
    (enqueueNextSelfFinished w.clock w.locked jid).Sound w := by
  refine ⟨Jorb.wake_keeps w.clock, fun r _ hr => ?_⟩
  simp only [enqueueNextSelfFinished, Bool.and_eq_true, decide_eq_true_eq] at hr
  exact .wake hr.1.1.2 rfl rfl (.inl ⟨jid, hr.1.1.1, hr.1.2⟩)

theorem enqueueNextIfPeerGroupIsFinished_sound {w : World} {e : Jorb} {gid : Int}
    (he : e ∈ w.wakes) (hg : e.runGroup = some gid) :
    (enqueueNextIfPeerGroupIsFinished w.clock w.locked gid).Sound w := by
  refine ⟨Jorb.wake_keeps w.clock, fun r _ hr => ?_⟩
  simp only [enqueueNextIfPeerGroupIsFinished, Bool.and_eq_true, decide_eq_true_eq,
    Bool.not_eq_true'] at hr
  exact .wake hr.1.1.2 rfl rfl (.inr ⟨gid, hr.1.1.1, hr.1.2, .inr ⟨e, he, hg⟩⟩)

/-- The UPDATE of the job table that an act issues. -/
inductive Updates (w : World) : Act → Update → Prop where
  | supervise (s : SupervisorStmt) : Updates w (.supervise s) (s.update w.clock)
  | rerunFresh (jid : Nat) (allowed : List JorbState) (delay : Int) (resetErrors : Bool) :
      Updates w (.rerunFresh jid allowed delay resetErrors)
        ((SupervisorStmt.requeue [jid] allowed delay resetErrors).update w.clock)
  | worker {i : Nat} {e : Jorb} (exec : w.execs[i]? = some e) (s : WorkerStmt) :
      Updates w (.worker i s) (s.update w.clock e.id e.runEpoch)
  | wakeSelf {i : Nat} {e : Jorb} (owed : w.wakes[i]? = some e) :
      Updates w (.wakeSelf i) (enqueueNextSelfFinished w.clock w.locked e.id)
  | wakeGroup {i : Nat} {e : Jorb} {gid : Int} (owed : w.wakes[i]? = some e)
      (group : e.runGroup = some gid) :
      Updates w (.wakeGroup i) (enqueueNextIfPeerGroupIsFinished w.clock w.locked gid)

/-- The UPDATE of the job table that an act issues. -/
def World.issues (w : World) : Act → Option Update
  | .supervise s => some (s.update w.clock)
  | .rerunFresh jid allowed delay resetErrors =>
    some ((SupervisorStmt.requeue [jid] allowed delay resetErrors).update w.clock)
  | .worker i s => w.execs[i]?.map fun e => s.update w.clock e.id e.runEpoch
  | .wakeSelf i => w.wakes[i]?.map fun e => enqueueNextSelfFinished w.clock w.locked e.id
  | .wakeGroup i =>
    (w.wakes[i]?.bind Jorb.runGroup).map fun gid =>
      enqueueNextIfPeerGroupIsFinished w.clock w.locked gid
  | _ => none

theorem Updates.issues {w : World} {a : Act} {u : Update} (h : Updates w a u) :
    w.issues a = some u := by
  cases h with
  | supervise | rerunFresh => rfl
  | worker exec s => simp [World.issues, exec]
  | wakeSelf owed => simp [World.issues, owed]
  | wakeGroup owed group => simp [World.issues, owed, group]

theorem Updates.adminData {w : World} {a : Act} {u : Update} (h : Updates w a u) (r : Jorb) :
    (u.set.set r).adminData = r.adminData := by
  cases h with
  | supervise s => cases s <;> rfl
  | worker exec s => cases s <;> rfl
  | rerunFresh | wakeSelf | wakeGroup => rfl

theorem Updates.sound {w : World} {a : Act} {u : Update} (h : Updates w a u) : u.Sound w := by
  cases h with
  | supervise s => exact s.sound w
  | rerunFresh jid allowed delay resetErrors => exact SupervisorStmt.sound w _
  | worker exec s => exact s.sound w _ _
  | wakeSelf => exact enqueueNextSelfFinished_sound w _
  | wakeGroup owed group =>
    exact enqueueNextIfPeerGroupIsFinished_sound (List.mem_of_getElem? owed) group

/-- The transactions a step can open or take one statement further. -/
inductive Opens (w : World) : Tx → Prop where
  | fence {session : Nat} {e r : Jorb} (idle : w.txs.find? session = none)
      (free : w.locked e.id = false) (mem : r ∈ w.db.jorb) (id : r.id = e.id)
      (epoch : r.runEpoch = e.runEpoch) : Opens w ⟨session, .compact e.id e.runEpoch⟩
  | begin {session : Nat} {args : ClaimArgs} (idle : w.txs.find? session = none) :
      Opens w ⟨session, .claim
        ⟨args, w.queue args.queue, w.clock,
          if (w.queue args.queue).any QueueRow.controlled then .waiting else .admitting .none⟩⟩
  | lock {session : Nat} {c : ClaimTx} (tx : w.claimTx session = some c)
      (phase : c.phase = .waiting) (free : w.queueLocked c.args.queue = false) :
      Opens w ⟨session, .claim { c with phase := .locked }⟩
  | capInFlight {session : Nat} {c : ClaimTx} {q : QueueRow} {lanes : Lanes}
      (tx : w.claimTx session = some c) (phase : c.phase = .locked) (control : c.control = some q)
      (check : q.capInFlight w.db c.args.queue = some lanes) :
      Opens w ⟨session, .claim { c with phase := .capped lanes }⟩
  | capRate {session : Nat} {c : ClaimTx} {q : QueueRow} {full lanes : Lanes}
      (tx : w.claimTx session = some c) (phase : c.phase = .capped full)
      (control : c.control = some q) (check : q.capRate w.db c.args.queue c.now = some lanes) :
      Opens w ⟨session, .claim { c with phase := .admitting (full.union lanes) }⟩
  | pick {session : Nat} {c : ClaimTx} {blocked : Lanes} {skip : Nat → Bool} {scan : Nat → Nat}
      {j : Jorb} (tx : w.claimTx session = some c) (phase : c.phase = .admitting blocked)
      (skips : ∀ i, w.locked i → skip i)
      (first : w.db.firstClaimable c.args c.now blocked skip scan = some j) :
      Opens w ⟨session, .claim { c with phase := .picked j.id }⟩

/-- What an act does to the worker registry. -/
inductive Registers (w : World) (a : Act) (db : Db) : Prop where
  | none (worker : db.worker = w.db.worker)
  | join (args : ClaimArgs) (act : a = .registerWorker args)
      (worker : db.worker = (w.db.registerWorker w.clock args).worker)
  | beat (wid : Nat) (act : a = .heartbeat wid)
      (worker : db.worker = (w.db.heartbeat w.clock wid).worker)

/-- What a step can do. -/
inductive Effect (w : World) (a : Act) : World → Prop where
  | quiet (db : Db) (clock : Int) (queue : String → Option QueueRow)
      (jorb : db.jorb = w.db.jorb) (clock_le : w.clock ≤ clock) (registry : Registers w a db) :
      Effect w a { w with db, clock, queue }
  | insert (j : NewJob) (act : a = .enqueue j)
      (free : w.db.jorb.rows.any (Db.keysCollide (j.row w.clock w.db.jorb.next)) = false) :
      Effect w a
        { w with db := { w.db with jorb := w.db.jorb.insert (j.row w.clock) fun _ => rfl } }
  | update (db : Db) (wakes : List Jorb) (u : Update)
      (jorb : db.jorb = w.db.jorb.update (u.cond w.db) u.set)
      (free : w.blocks (u.cond w.db) = false) (source : Updates w a u)
      (owed : ∀ e ∈ wakes, e ∈ w.wakes ∨ e ∈ w.execs ∧
        ∃ r ∈ w.db.jorb, r.id = e.id ∧ u.cond w.db r ∧ (u.set.set r).state = .finished)
      (worker : db.worker = w.db.worker) :
      Effect w a { w with db, wakes }
  | delete (batch : List Nat) (act : a = .delete batch)
      (free : w.blocks (fun r => r.id ∈ batch) = false) :
      Effect w a { w with db := w.db.deleteJobs batch }
  | close {db : Db} (session : Nat) (jorb : db.jorb = w.db.jorb)
      (worker : db.worker = w.db.worker) :
      Effect w a { w.closeTx session with db }
  | opens {t : Tx} (opens : Opens w t) : Effect w a (w.openTx t)
  | commit {session jid : Nat} {c : ClaimTx} {r : Jorb} {db : Db} {execs : List Jorb}
      (act : ∃ ack, a = .claimCommit session ack) (tx : w.claimTx session = some c)
      (phase : c.phase = .picked jid) (mem : r ∈ w.db.jorb) (id : r.id = jid)
      (jorb : db.jorb = w.db.jorb.update (fun r => r.id = jid) (c.args.claimed c.now))
      (acked : execs = w.execs ∨
        a = .claimCommit session true ∧ execs = w.execs ++ [(c.args.claimed c.now).set r])
      (worker : db.worker = w.db.worker) :
      Effect w a { w.closeTx session with
        db, execs, log := w.log ++ [⟨jid, r.queue, r.partitionKey, c.now⟩] }

namespace World

theorem update_eq_some {w w' : World} {u : Update} :
    w.update u = some w' ↔ w.blocks (u.cond w.db) = false ∧ { w with db := u.run w.db } = w' := by
  by_cases h : w.blocks (u.cond w.db) <;> simp [update, h]

theorem update_effect {w w' : World} {a : Act} {u : Update} (hu : Updates w a u)
    (h : w.update u = some w') : Effect w a w' := by
  obtain ⟨hfree, rfl⟩ := update_eq_some.mp h
  exact .update _ w.wakes u rfl hfree hu (fun _ he => .inl he) rfl

theorem worker_effect {w w' : World} {i : Nat} {e : Jorb} {s : WorkerStmt}
    (he : w.execs[i]? = some e) (h : w.worker e s = some w') : Effect w (.worker i s) w' := by
  have hsource : Updates w (.worker i s) (s.update w.clock e.id e.runEpoch) := .worker he s
  obtain ⟨w₁, hw₁, h⟩ := Option.map_eq_some_iff.mp h
  have plain : Effect w (.worker i s) w₁ := update_effect hsource hw₁
  cases s with
  | finished result =>
    obtain ⟨hfree, rfl⟩ := update_eq_some.mp hw₁
    dsimp only at h
    split at h
    · rename_i hany
      subst h
      refine .update _ _ _ rfl hfree hsource (fun e' he' => ?_) rfl
      rcases List.mem_append.mp he' with he' | he'
      · exact .inl he'
      · obtain ⟨r, hr, hc⟩ := List.any_eq_true.mp hany
        rw [List.mem_singleton.mp he']
        exact .inr ⟨List.mem_of_getElem? he, r, hr, (Jorb.attemptOf_iff.mp hc).1, hc, rfl⟩
    · exact h ▸ plain
  | _ => exact h ▸ plain

theorem rerunFresh_effect {w w' : World} {jid : Nat} {allowed : List JorbState}
    {delay : Int} {resetErrors : Bool}
    (h : w.rerunFresh jid allowed delay resetErrors = some w') :
    Effect w (.rerunFresh jid allowed delay resetErrors) w' := by
  have hsource := Updates.rerunFresh (w := w) jid allowed delay resetErrors
  obtain ⟨w₁, hw₁, h⟩ := Option.map_eq_some_iff.mp h
  obtain ⟨hfree, rfl⟩ := update_eq_some.mp hw₁
  split at h
  · subst h
    exact .update _ w.wakes _ rfl hfree hsource (fun _ he => .inl he) rfl
  · exact h ▸ update_effect hsource hw₁

theorem durable_effect {w w' : World} {a : Act} {e : Jorb} {s : DurableStmt}
    (h : w.durable e s = some w') : Effect w a w' := by
  simp only [durable] at h
  split at h
  · cases h
  · cases h
    exact .quiet _ w.clock w.queue (s.run_jorb _ _ _ _) le_rfl (.none (s.run_worker _ _ _ _))

theorem compactFence_effect {w w' : World} {a : Act} {session : Nat} {e : Jorb}
    (hidle : w.idleSession session) (h : w.compactFence session e = some w') : Effect w a w' := by
  simp only [compactFence] at h
  split at h
  · cases h
    exact .quiet w.db w.clock w.queue rfl le_rfl (.none rfl)
  · rename_i r hr
    split at h
    · cases h
    · rename_i hfree
      cases h
      obtain ⟨hmem, hid, hepoch⟩ := Db.fence_eq_some.mp hr
      exact .opens
        (.fence (by simpa [idleSession] using hidle) (by simpa using hfree) hmem hid hepoch)

theorem compactSteps_effect {w w' : World} {a : Act} {session : Nat}
    (h : w.compactSteps session = some w') : Effect w a w' := by
  obtain ⟨t, -, ht⟩ := Option.bind_eq_some_iff.mp h
  split at ht
  · cases ht
    exact .close session rfl rfl
  · cases ht

theorem claimBegin_effect {w : World} {a : Act} {session : Nat} {args : ClaimArgs}
    (hidle : w.idleSession session) : Effect w a (w.claimBegin session args) := by
  simp only [claimBegin]
  split
  · exact .quiet w.db w.clock w.queue rfl le_rfl (.none rfl)
  · exact .opens (.begin (by simpa [idleSession] using hidle))

theorem afterCheck_effect {w : World} {a : Act} {session : Nat} {c : ClaimTx} {lanes : Option Lanes}
    {phase : Lanes → ClaimPhase}
    (h : ∀ l, lanes = some l → Opens w ⟨session, .claim { c with phase := phase l }⟩) :
    Effect w a (w.afterCheck session c lanes phase) := by
  cases lanes with
  | none => exact .close session rfl rfl
  | some l => exact .opens (h l rfl)

theorem claim_effect {w w' : World} {a : Act} {session : Nat} {c : ClaimTx}
    (hc : w.claimTx session = some c)
    (h : w.claimLock session c = some w' ∨ w.claimCapInFlight session c = some w' ∨
      w.claimCapRate session c = some w' ∨
      (∃ busy scan, w.claimPick session c busy scan = some w') ∨
      ∃ ack, a = .claimCommit session ack ∧ w.claimCommit session c ack = some w') :
    Effect w a w' := by
  rcases h with h | h | h | ⟨busy, scan, h⟩ | ⟨ack, hact, h⟩
  · simp only [claimLock] at h
    split at h
    · split at h
      · cases h
      · rename_i hphase hfree
        cases h
        exact .opens (.lock hc hphase (by simpa using hfree))
    · cases h
  · simp only [claimCapInFlight] at h
    split at h
    · cases h
      exact afterCheck_effect fun l hl => .capInFlight hc ‹_› ‹_› hl
    · cases h
  · simp only [claimCapRate] at h
    split at h
    · cases h
      exact afterCheck_effect fun l hl => .capRate hc ‹_› ‹_› hl
    · cases h
  · simp only [claimPick] at h
    split at h
    · split at h
      · cases h
        exact .close session rfl rfl
      · cases h
        exact .opens (.pick hc ‹_› (fun _ hi => Bool.or_eq_true_iff.mpr (.inl hi)) ‹_›)
    · cases h
  · simp only [claimCommit] at h
    split at h
    · obtain ⟨r, hr, rfl⟩ := Option.map_eq_some_iff.mp h
      obtain ⟨hmem, hid⟩ := Serial.find?_eq_some.mp hr
      refine .commit (r := r) ⟨ack, hact⟩ hc ‹_› hmem hid rfl ?_ rfl
      cases ack
      · exact .inl rfl
      · exact .inr ⟨hact, rfl⟩
    · cases h

theorem step_effect {w w' : World} {a : Act} (h : w.step a = some w') : Effect w a w' := by
  cases a with
  | tick d =>
    cases h
    exact .quiet w.db _ w.queue rfl (Int.le_add_of_nonneg_right (Int.natCast_nonneg d)) (.none rfl)
  | setQueue q =>
    cases h
    exact .quiet w.db w.clock _ rfl le_rfl (.none rfl)
  | registerWorker args =>
    cases h
    exact .quiet _ w.clock w.queue rfl le_rfl (.join args rfl rfl)
  | heartbeat wid =>
    cases h
    exact .quiet _ w.clock w.queue rfl le_rfl (.beat wid rfl rfl)
  | enqueue job =>
    obtain ⟨db, hdb, rfl⟩ := Option.map_eq_some_iff.mp h
    simp only [Db.enqueue] at hdb
    split at hdb
    · cases hdb
    · rename_i hfree
      cases hdb
      exact .insert job rfl (by simpa using hfree)
  | delete batch =>
    simp only [step] at h
    split at h
    · cases h
    · rename_i hfree
      cases h
      exact .delete batch rfl (by simpa using hfree)
  | supervise s => exact update_effect (.supervise s) h
  | rerunFresh => exact rerunFresh_effect h
  | worker i s =>
    obtain ⟨e, he, h⟩ := Option.bind_eq_some_iff.mp h
    exact worker_effect he h
  | durable i s =>
    obtain ⟨e, -, h⟩ := Option.bind_eq_some_iff.mp h
    exact durable_effect h
  | wakeSelf i =>
    obtain ⟨e, he, h⟩ := Option.bind_eq_some_iff.mp h
    exact update_effect (.wakeSelf he) h
  | wakeGroup i =>
    obtain ⟨e, he, h⟩ := Option.bind_eq_some_iff.mp h
    simp only [wakeGroup] at h
    split at h
    · cases h
    · split at h
      · cases h
      · exact update_effect (.wakeGroup he ‹_›) h
  | compactFence session i =>
    simp only [step] at h
    split at h
    · obtain ⟨e, -, h⟩ := Option.bind_eq_some_iff.mp h
      exact compactFence_effect ‹_› h
    · cases h
  | compactSteps session => exact compactSteps_effect h
  | claimBegin session args =>
    simp only [step] at h
    split at h
    · cases h
      exact claimBegin_effect ‹_›
    · cases h
  | claimLock session =>
    obtain ⟨c, hc, h⟩ := Option.bind_eq_some_iff.mp h
    exact claim_effect hc (.inl h)
  | claimCapInFlight session =>
    obtain ⟨c, hc, h⟩ := Option.bind_eq_some_iff.mp h
    exact claim_effect hc (.inr (.inl h))
  | claimCapRate session =>
    obtain ⟨c, hc, h⟩ := Option.bind_eq_some_iff.mp h
    exact claim_effect hc (.inr (.inr (.inl h)))
  | claimPick session busy scan =>
    obtain ⟨c, hc, h⟩ := Option.bind_eq_some_iff.mp h
    exact claim_effect hc (.inr (.inr (.inr (.inl ⟨busy, scan, h⟩))))
  | claimCommit session ack =>
    obtain ⟨c, hc, h⟩ := Option.bind_eq_some_iff.mp h
    exact claim_effect hc (.inr (.inr (.inr (.inr ⟨ack, rfl, h⟩))))
  | rollback session =>
    cases h
    exact .close session rfl rfl

end World

end Pyjobby
