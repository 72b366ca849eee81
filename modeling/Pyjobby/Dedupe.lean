import Pyjobby.Invariant
import Pyjobby.Lib.Index

/-! The deduplication keys and their three partial unique indexes. A row leaves
and re-enters the deadline and the debounce index as its state changes; the
columns a statement clears on the way back keep it out of both. -/

namespace Pyjobby

open Relational Transition

namespace Jorb

/-- `jorb_deadline_idx ON jorb (deadline_key, queue)`. -/
def deadlineEntry (r : Jorb) : Option (String × String) :=
  if r.state = .queued then r.deadlineKey.map (·, r.queue) else none

/-- `jorb_identity_idx ON jorb (identity_key)`: every row that has one. -/
def identityEntry (r : Jorb) : Option String := r.identityKey

/-- `jorb_debounce_idx ON jorb (debounce_key)`: queued, and never claimed. -/
def debounceEntry (r : Jorb) : Option String :=
  if r.state = .queued ∧ r.runCount = 0 then r.debounceKey else none

end Jorb

structure Db.Unique (db : Db) : Prop where
  deadline : db.jorb.Unique Jorb.deadlineEntry
  identity : db.jorb.Unique Jorb.identityEntry
  debounce : db.jorb.Unique Jorb.debounceEntry

theorem Db.keysCollide_eq_false {a b : Jorb} (h : Db.keysCollide a b = false) :
    (∀ v, a.deadlineEntry = some v → b.deadlineEntry ≠ some v) ∧
      (∀ v, a.identityEntry = some v → b.identityEntry ≠ some v) ∧
      ∀ v, a.debounceEntry = some v → b.debounceEntry ≠ some v := by
  refine ⟨fun v ha hb => ?_, fun v ha hb => ?_, fun v ha hb => ?_⟩
  · simp only [Jorb.deadlineEntry, Option.ite_none_right_eq_some, Option.map_eq_some_iff] at ha hb
    obtain ⟨has, k, hak, rfl⟩ := ha
    obtain ⟨hbs, k', hbk, heq⟩ := hb
    obtain ⟨rfl, hq⟩ := Prod.mk.inj heq
    simp [Db.keysCollide, has, hbs, hak, hbk, hq] at h
  · simp only [Jorb.identityEntry] at ha hb
    simp [Db.keysCollide, ha, hb] at h
  · simp only [Jorb.debounceEntry, Option.ite_none_right_eq_some] at ha hb
    simp [Db.keysCollide, ha.1, hb.1, ha.2, hb.2] at h

/-- No index gains an entry where `r` becomes `r'`. -/
structure Narrows (r r' : Jorb) : Prop where
  deadline : ∀ v, r'.deadlineEntry = some v → r.deadlineEntry = some v
  identity : ∀ v, r'.identityEntry = some v → r.identityEntry = some v
  debounce : ∀ v, r'.debounceEntry = some v → r.debounceEntry = some v

namespace Narrows

variable {r r' : Jorb}

theorem leave (identity : r'.identityKey = r.identityKey)
    (h : r'.state ≠ .queued ∨ r'.deadlineKey = none ∧ r'.debounceKey = none) : Narrows r r' := by
  refine ⟨fun v hv => ?_, fun v hv => ?_, fun v hv => ?_⟩
  · simp only [Jorb.deadlineEntry, Option.ite_none_right_eq_some] at hv
    rcases h with h | h
    · exact absurd hv.1 h
    · simp [h.1] at hv
  · exact identity.symm.trans hv
  · simp only [Jorb.debounceEntry, Option.ite_none_right_eq_some] at hv
    rcases h with h | h
    · exact absurd hv.1.1 h
    · simp [h.2] at hv

theorem edit (identity : r'.identityKey = r.identityKey) (deadline : r'.deadlineKey = r.deadlineKey)
    (debounce : r'.debounceKey = r.debounceKey) (queue : r'.queue = r.queue)
    (state : r'.state = r.state) (runCount : r'.runCount = r.runCount) : Narrows r r' := by
  refine ⟨fun v hv => ?_, fun v hv => identity.symm.trans hv, fun v hv => ?_⟩
  · rwa [Jorb.deadlineEntry, state, deadline, queue] at hv
  · rwa [Jorb.debounceEntry, state, runCount, debounce] at hv

theorem claimed (a : ClaimArgs) (now : Int) (r : Jorb) : Narrows r ((a.claimed now).set r) :=
  .leave rfl (.inl (by simp [ClaimArgs.claimed]))

theorem wake {now : Int} (hwait : r.debounceKey = none) : Narrows r ((Jorb.wake now).set r) :=
  .leave rfl (.inr ⟨rfl, hwait⟩)

end Narrows

/-- Why `build_enqueue_row` turns a combination of keys down. -/
inductive KeyRefusal where
  | bothWaitfors
  | keysContradict (other : List String)
  | noDebounceWaitfor
  | deadlineWithoutDebounce
  | identityAndDeadline
  | noIdentityWaitfor
  | noDeadlineWaitfor
  deriving DecidableEq

namespace NewJob

/-- The keys a debounced enqueue may not carry. -/
def conflicting (j : NewJob) : List String :=
  (if j.identityKey.isSome then ["identity_key"] else []) ++
    if j.deadlineKey.isSome then ["deadline_key"] else []

/-- The checks of `build_enqueue_row` on the keys, in its order. -/
def keyChecks (j : NewJob) : List (Bool × KeyRefusal) :=
  [(truthy j.waitforJob && truthy j.waitforGroup, .bothWaitfors),
    (j.debounceKey.isSome && !j.conflicting.isEmpty, .keysContradict j.conflicting),
    (j.debounceKey.isSome && j.dependent, .noDebounceWaitfor),
    (j.debounceKey.isNone && j.debounceDeadline.isSome, .deadlineWithoutDebounce),
    (j.identityKey.isSome && j.deadlineKey.isSome, .identityAndDeadline),
    (j.identityKey.isSome && j.dependent, .noIdentityWaitfor),
    (j.deadlineKey.isSome && j.dependent, .noDeadlineWaitfor)]

def keyRefusal (j : NewJob) : Option KeyRefusal := (j.keyChecks.find? Prod.fst).map Prod.snd

theorem keyRefusal_eq_none {j : NewJob} : j.keyRefusal = none ↔ ∀ c ∈ j.keyChecks, c.1 = false := by
  simp [keyRefusal, List.find?_eq_none]

theorem debounceKey_of_dependent {j : NewJob} (h : j.keyRefusal = none) (hdep : j.dependent) :
    j.debounceKey = none := by
  have hcheck := keyRefusal_eq_none.mp h (j.debounceKey.isSome && j.dependent, .noDebounceWaitfor)
    (by simp [keyChecks])
  simpa [hdep] using hcheck

theorem debounceKey_of_identified {j : NewJob} (h : j.keyRefusal = none)
    (hid : j.identityKey.isSome) : j.debounceKey = none := by
  have hcheck := keyRefusal_eq_none.mp h
    (j.debounceKey.isSome && !j.conflicting.isEmpty, .keysContradict j.conflicting)
    (by simp [keyChecks])
  simpa [conflicting, hid] using hcheck

end NewJob

/-- The indexes hold, and no waiting row has a debounce key to come back with. -/
structure Deduped (db : Db) : Prop where
  unique : db.Unique
  waiting : ∀ r ∈ db.jorb, r.state = .waiting → r.debounceKey = none

theorem Updates.narrows {w : World} {a : Act} {u : Update} (h : Updates w a u)
    (hw : ∀ r ∈ w.db.jorb, r.state = .waiting → r.debounceKey = none) {r : Jorb}
    (hr : r ∈ w.db.jorb) (hc : u.cond w.db r) : Narrows r (u.set.set r) := by
  cases h with
  | supervise s =>
    change s.cond w.clock w.db r at hc
    cases s with
    | requeue | sweepDeadWorkerJobs | sweepStuckClaims | retryTimedOut =>
      exact .leave rfl (.inr ⟨rfl, rfl⟩)
    | cancel =>
      by_cases hpre : r.preClaim
      · exact .leave rfl (.inl (by simp [SupervisorStmt.update, SupervisorStmt.set, hpre]))
      · exact .edit rfl rfl rfl rfl (by simp [SupervisorStmt.update, SupervisorStmt.set, hpre]) rfl
    | updatePriority | updateAppVersion | setAwaited | bounce => exact .edit rfl rfl rfl rfl rfl rfl
    | deadletterTimedOut | cancelUnsatisfiableWaiters =>
      exact .leave rfl (.inl (by simp [SupervisorStmt.update, SupervisorStmt.set]))
    | wakeWaiters =>
      simp only [SupervisorStmt.cond, Jorb.stranded, Bool.and_eq_true, decide_eq_true_eq] at hc
      exact .wake (hw r hr hc.2.1)
  | rerunFresh => exact .leave rfl (.inr ⟨rfl, rfl⟩)
  | worker exec s =>
    cases s with
    | retry | reschedule => exact .leave rfl (.inr ⟨rfl, rfl⟩)
    | _ => exact .leave rfl (.inl (by simp [WorkerStmt.update, WorkerStmt.set]))
  | wakeSelf =>
    simp only [enqueueNextSelfFinished, Bool.and_eq_true, decide_eq_true_eq] at hc
    exact .wake (hw r hr hc.1.1.2)
  | wakeGroup =>
    simp only [enqueueNextIfPeerGroupIsFinished, Bool.and_eq_true, decide_eq_true_eq] at hc
    exact .wake (hw r hr hc.1.1.2)

theorem Updates.waiting {w : World} {a : Act} {u : Update} (h : Updates w a u) {r : Jorb}
    (hr : r.state = .waiting → r.debounceKey = none) (hwait : (u.set.set r).state = .waiting) :
    (u.set.set r).debounceKey = none := by
  cases h with
  | supervise s =>
    cases s with
    | requeue => rfl
    | cancel =>
      simp only [SupervisorStmt.update, SupervisorStmt.set] at hwait
      split at hwait
      · cases hwait
      · exact hr hwait
    | updatePriority | updateAppVersion | setAwaited | bounce => exact hr hwait
    | _ => cases hwait
  | rerunFresh => rfl
  | worker exec s => cases s <;> cases hwait
  | _ => cases hwait

theorem Db.Unique.update {db : Db} (h : db.Unique) {p : Jorb → Bool} {u : Rewrite Jorb.id}
    (hu : ∀ r ∈ db.jorb, p r → Narrows r (u.set r)) :
    ({ db with jorb := db.jorb.update p u } : Db).Unique :=
  ⟨h.deadline.update fun r hr hp => (hu r hr hp).deadline,
    h.identity.update fun r hr hp => (hu r hr hp).identity,
    h.debounce.update fun r hr hp => (hu r hr hp).debounce⟩

theorem Db.Unique.congr {db db' : Db} (h : db.Unique) (hjorb : db'.jorb = db.jorb) : db'.Unique :=
  ⟨hjorb ▸ h.deadline, hjorb ▸ h.identity, hjorb ▸ h.debounce⟩

namespace Deduped

theorem empty : Deduped .empty where
  unique := ⟨.empty 1, .empty 1, .empty 1⟩
  waiting := fun _ hr => absurd hr Serial.not_mem_empty

theorem step {w w' : World} {a : Act} (h : Deduped w.db) (he : Effect w a w')
    (hkeys : ∀ j, a = .enqueue j → j.keyRefusal = none) : Deduped w'.db := by
  cases he with
  | quiet db clock queue jorb => exact ⟨h.unique.congr jorb, fun r hr => h.waiting r (jorb ▸ hr)⟩
  | close session jorb => exact ⟨h.unique.congr jorb, fun r hr => h.waiting r (jorb ▸ hr)⟩
  | opens => exact h
  | delete batch =>
    exact ⟨⟨h.unique.deadline.delete _, h.unique.identity.delete _, h.unique.debounce.delete _⟩,
      fun r hr => h.waiting r (Serial.mem_delete.mp hr).1⟩
  | insert j act free =>
    have collide {s : Jorb} (hs : s ∈ w.db.jorb) :=
      Db.keysCollide_eq_false (by simpa using List.any_eq_false.mp free s hs)
    have hid (n : Nat) : (j.row w.clock n).id = n := rfl
    refine ⟨⟨h.unique.deadline.insert hid fun s hs => (collide hs).1,
      h.unique.identity.insert hid fun s hs => (collide hs).2.1,
      h.unique.debounce.insert hid fun s hs => (collide hs).2.2⟩, fun r hr hwait => ?_⟩
    rcases (Serial.mem_insert (h := fun _ => rfl)).mp hr with hr | rfl
    · exact h.waiting r hr hwait
    · refine NewJob.debounceKey_of_dependent (hkeys j act) ?_
      simp only [NewJob.row] at hwait
      split at hwait
      · rename_i hdep
        exact hdep
      · cases hwait
  | update db wakes u jorb free source =>
    refine ⟨(h.unique.update fun r hr => source.narrows h.waiting hr).congr jorb,
      fun r' hr' hwait => ?_⟩
    obtain ⟨r, hr, rfl⟩ := Serial.mem_update.mp (jorb ▸ hr')
    split at hwait
    · rename_i hc
      rw [if_pos hc]
      exact source.waiting (h.waiting r hr) hwait
    · rename_i hc
      rw [if_neg hc]
      exact h.waiting r hr hwait
  | @commit session jid c _ _ _ act tx phase mem id jorb =>
    refine ⟨(h.unique.update fun r _ _ => .claimed c.args c.now r).congr jorb,
      fun r' hr' hwait => ?_⟩
    obtain ⟨r, hr, rfl⟩ := Serial.mem_update.mp (jorb ▸ hr')
    split at hwait
    · cases hwait
    · rename_i hc
      rw [if_neg hc]
      exact h.waiting r hr hwait

end Deduped

/-- The statements that write to rows of `jorb`, the insertion of a job apart. -/
inductive Rewrites (w : World) : Update → Prop where
  | issued {a : Act} {u : Update} (h : Updates w a u) : Rewrites w u
  | claim (args : ClaimArgs) (now : Int) :
      Rewrites w ⟨fun _ r => args.admits now r, args.claimed now⟩

/-- In every reachable state the three indexes hold, and they hold after any
statement but an insertion, whichever of the rows it matches it has got to. -/
theorem only_enqueue_collides (ρ : History)
    (hρ : ∃ clock queue, ρ.state 0 = .init .empty clock queue)
    (hkeys : ∀ n < ρ.length, ∀ j, ρ.act n = .enqueue j → j.keyRefusal = none) :
    ∀ n ≤ ρ.length, (ρ.state n).db.Unique ∧
      ∀ u, Rewrites (ρ.state n) u → ∀ p : Jorb → Bool,
        ({ (ρ.state n).db with
          jorb := (ρ.state n).db.jorb.update (fun r => u.cond (ρ.state n).db r && p r) u.set } :
          Db).Unique := by
  obtain ⟨clock, queue, h0⟩ := hρ
  have hdeduped : ∀ n ≤ ρ.length, Deduped (ρ.state n).db :=
    ρ.invariant_of (P := fun w => Deduped w.db) hkeys (h0 ▸ Deduped.empty)
      fun h hok hstep => h.step (World.step_effect hstep) hok
  intro n hn
  obtain ⟨hunique, hwaiting⟩ := hdeduped n hn
  refine ⟨hunique, fun u hu p => hunique.update fun r hr hp => ?_⟩
  have hc : u.cond (ρ.state n).db r := (Bool.and_eq_true_iff.mp hp).1
  cases hu with
  | issued h => exact h.narrows hwaiting hr hc
  | claim args now => exact .claimed args now r

def parkedJob : NewJob := { NewJob.plain "q" with debounceKey := some "cart", runAfter := 60 }

/-- A parked job is cancelled, a new burst opens the window again, and the first
job is retried. -/
def reopenedActs : List Act :=
  [.enqueue parkedJob, .supervise (.cancel [1]), .enqueue parkedJob,
    .supervise (.requeue [1] JorbState.retryableStates 0 true)]

def reopenedRun : History := .ofList (.init .empty 0 fun _ => none) reopenedActs (by decide)

theorem only_enqueue_collides_reopened :
    (∀ r ∈ (reopenedRun.state 4).db.jorb.rows, r.state = .queued) ∧
      (reopenedRun.state 4).db.Unique := by
  refine ⟨by decide, (only_enqueue_collides reopenedRun ⟨_, _, rfl⟩
    (fun n hn j hj => ?_) 4 le_rfl).1⟩
  match n, hn, hj with
  | 0, _, hj | 2, _, hj =>
    have hjob : parkedJob = j := Act.enqueue.inj hj
    rw [← hjob]
    decide
  | 1, _, hj | 3, _, hj => cases hj

end Pyjobby
