import Pyjobby.Effect

/-! What a step does to the checkpoints, the streams and the mailbox, said once, as
`step_effect` says it of the job table. -/

namespace Pyjobby

open Relational

inductive Tables (w : World) (a : Act) (db : Db) : Prop where
  | kept (step : db.step = w.db.step) (stream : db.stream = w.db.stream)
      (mailbox : db.mailbox = w.db.mailbox)
  | durable {i : Nat} {e : Jorb} (stmt : DurableStmt) (act : a = .durable i stmt)
      (exec : w.execs[i]? = some e) (eq : db = stmt.run w.clock e.id e.runEpoch w.db)
  | delete (batch : List Nat) (act : a = .delete batch) (eq : db = w.db.deleteJobs batch)
  | wipe {jid : Nat} {allowed : List JorbState} {delay : Int} {resetErrors : Bool}
      (act : a = .rerunFresh jid allowed delay resetErrors)
      (step : db.step = w.db.step.delete fun s => s.jobId ∈ [jid])
      (stream : db.stream = w.db.stream.delete fun s => s.jobId ∈ [jid])
      (mailbox : db.mailbox = w.db.mailbox)
  | compact {session jid epoch : Nat} (act : a = .compactSteps session)
      (tx : ⟨session, .compact jid epoch⟩ ∈ w.txs)
      (step : db.step = w.db.step.delete fun s => s.jobId = jid)
      (stream : db.stream = w.db.stream) (mailbox : db.mailbox = w.db.mailbox)

namespace World

variable {w w' : World} {a : Act}

theorem update_tables {u : Update} (h : w.update u = some w') : Tables w a w'.db := by
  obtain ⟨-, rfl⟩ := update_eq_some.mp h
  exact .kept rfl rfl rfl

theorem afterCheck_tables {session : Nat} {c : ClaimTx} {lanes : Option Lanes}
    {phase : Lanes → ClaimPhase} : Tables w a (w.afterCheck session c lanes phase).db := by
  simp only [afterCheck]
  split <;> exact .kept rfl rfl rfl

theorem claim_tables {session : Nat} {c : ClaimTx}
    (h : w.claimLock session c = some w' ∨ w.claimCapInFlight session c = some w' ∨
      w.claimCapRate session c = some w' ∨
      (∃ busy scan, w.claimPick session c busy scan = some w') ∨
      ∃ ack, w.claimCommit session c ack = some w') : Tables w a w'.db := by
  rcases h with h | h | h | ⟨busy, scan, h⟩ | ⟨ack, h⟩
  · simp only [claimLock] at h
    split at h
    · split at h
      · cases h
      · cases h
        exact .kept rfl rfl rfl
    · cases h
  · simp only [claimCapInFlight] at h
    split at h
    · cases h
      exact afterCheck_tables
    · cases h
  · simp only [claimCapRate] at h
    split at h
    · cases h
      exact afterCheck_tables
    · cases h
  · simp only [claimPick] at h
    split at h
    · split at h <;>
      · cases h
        exact .kept rfl rfl rfl
    · cases h
  · simp only [claimCommit] at h
    split at h
    · obtain ⟨r, -, rfl⟩ := Option.map_eq_some_iff.mp h
      exact .kept rfl rfl rfl
    · cases h

theorem rerunFresh_tables {jid : Nat} {allowed : List JorbState} {delay : Int} {resetErrors : Bool}
    (h : w.rerunFresh jid allowed delay resetErrors = some w') :
    Tables w (.rerunFresh jid allowed delay resetErrors) w'.db := by
  obtain ⟨w₁, hw₁, rfl⟩ := Option.map_eq_some_iff.mp h
  obtain ⟨-, rfl⟩ := update_eq_some.mp hw₁
  split
  · exact .wipe rfl rfl rfl rfl
  · exact .kept rfl rfl rfl

theorem worker_tables {e : Jorb} {s : WorkerStmt} (h : w.worker e s = some w') :
    Tables w a w'.db := by
  obtain ⟨w₁, hw₁, rfl⟩ := Option.map_eq_some_iff.mp h
  obtain ⟨-, rfl⟩ := update_eq_some.mp hw₁
  cases s with
  | finished =>
    dsimp only
    split <;> exact .kept rfl rfl rfl
  | _ => exact .kept rfl rfl rfl

theorem step_tables (h : w.step a = some w') : Tables w a w'.db := by
  cases a with
  | tick | setQueue | registerWorker | heartbeat | rollback =>
    cases h
    exact .kept rfl rfl rfl
  | enqueue job =>
    obtain ⟨db, hdb, rfl⟩ := Option.map_eq_some_iff.mp h
    simp only [Db.enqueue] at hdb
    split at hdb
    · cases hdb
    · cases hdb
      exact .kept rfl rfl rfl
  | delete batch =>
    simp only [step] at h
    split at h
    · cases h
    · cases h
      exact .delete batch rfl rfl
  | supervise s => exact update_tables h
  | rerunFresh => exact rerunFresh_tables h
  | worker i s =>
    obtain ⟨e, -, h⟩ := Option.bind_eq_some_iff.mp h
    exact worker_tables h
  | durable i stmt =>
    obtain ⟨e, he, h⟩ := Option.bind_eq_some_iff.mp h
    simp only [durable] at h
    split at h
    · cases h
    · cases h
      exact .durable stmt rfl he rfl
  | wakeSelf i =>
    obtain ⟨e, -, h⟩ := Option.bind_eq_some_iff.mp h
    exact update_tables h
  | wakeGroup i =>
    obtain ⟨e, -, h⟩ := Option.bind_eq_some_iff.mp h
    simp only [wakeGroup] at h
    split at h
    · cases h
    · split at h
      · cases h
      · exact update_tables h
  | compactFence session i =>
    simp only [step] at h
    split at h
    · obtain ⟨e, -, h⟩ := Option.bind_eq_some_iff.mp h
      simp only [compactFence] at h
      split at h
      · cases h
        exact .kept rfl rfl rfl
      · split at h
        · cases h
        · cases h
          exact .kept rfl rfl rfl
    · cases h
  | compactSteps session =>
    obtain ⟨⟨s, body⟩, ht, h⟩ := Option.bind_eq_some_iff.mp h
    obtain ⟨hmem, rfl⟩ := Table.find?_eq_some.mp ht
    cases body with
    | claim => cases h
    | compact jid epoch =>
      cases h
      exact .compact rfl hmem rfl rfl rfl
  | claimBegin session args =>
    simp only [step] at h
    split at h
    · cases h
      simp only [claimBegin]
      split <;> exact .kept rfl rfl rfl
    · cases h
  | claimLock session =>
    obtain ⟨c, -, h⟩ := Option.bind_eq_some_iff.mp h
    exact claim_tables (.inl h)
  | claimCapInFlight session =>
    obtain ⟨c, -, h⟩ := Option.bind_eq_some_iff.mp h
    exact claim_tables (.inr (.inl h))
  | claimCapRate session =>
    obtain ⟨c, -, h⟩ := Option.bind_eq_some_iff.mp h
    exact claim_tables (.inr (.inr (.inl h)))
  | claimPick session busy scan =>
    obtain ⟨c, -, h⟩ := Option.bind_eq_some_iff.mp h
    exact claim_tables (.inr (.inr (.inr (.inl ⟨busy, scan, h⟩))))
  | claimCommit session ack =>
    obtain ⟨c, -, h⟩ := Option.bind_eq_some_iff.mp h
    exact claim_tables (.inr (.inr (.inr (.inr ⟨ack, h⟩))))

end World

end Pyjobby
