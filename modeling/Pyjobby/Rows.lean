import Pyjobby.Invariant

/-! Where the rows of the next state come from, and where those of the last one
go: the form in which the invariants over runs use a step. -/

namespace Pyjobby

open Relational

/-- Where a row found after a step from `w` to `w'` comes from. -/
inductive Origin (w w' : World) (r' : Jorb) : Prop where
  | born (j : NewJob) (eq : r' = j.row w.clock w.db.jorb.next)
  | kept (mem : r' ∈ w.db.jorb)
  | changed {r : Jorb} (mem : r ∈ w.db.jorb) (same : SameJob r r')
      (claimedAt : r'.claimedAt = r.claimedAt) (runCount : r'.runCount = r.runCount)
      (change : Change w r r')
  | claimed {session : Nat} {c : ClaimTx} {r : Jorb} (tx : ⟨session, .claim c⟩ ∈ w.txs)
      (phase : c.phase = .picked r.id) (mem : r ∈ w.db.jorb) (admits : c.args.admits c.now r)
      (ends : w'.txs = (w.closeTx session).txs)
      (eq : r' = (c.args.claimed c.now).set r)

theorem Db.enqueue_jorb {db db' : Db} {now : Int} {j : NewJob} (h : db.enqueue now j = some db')
    {r : Jorb} : r ∈ db'.jorb ↔ r ∈ db.jorb ∨ r = j.row now db.jorb.next := by
  simp only [Db.enqueue] at h
  split at h
  · cases h
  · cases h
    exact Serial.mem_insert (h := fun _ => rfl)

theorem ClaimArgs.claimed_same (a : ClaimArgs) (now : Int) (r : Jorb) :
    SameJob r ((a.claimed now).set r) := ⟨rfl, rfl, rfl, rfl, rfl, rfl⟩

theorem ClaimArgs.admits_queue {a : ClaimArgs} {now : Int} {r : Jorb} (h : a.admits now r) :
    r.queue = a.queue := by
  simp only [ClaimArgs.admits, Bool.and_eq_true, decide_eq_true_eq] at h
  exact h.1.1.1.1.1

theorem ClaimArgs.admits_queued {a : ClaimArgs} {now : Int} {r : Jorb} (h : a.admits now r) :
    r.state = .queued := by
  simp only [ClaimArgs.admits, Bool.and_eq_true, decide_eq_true_eq] at h
  exact h.2

theorem Locks.commit_admits {w : World} (hw : Locks w) {session jid : Nat} {c : ClaimTx}
    (tx : w.claimTx session = some c) (phase : c.phase = .picked jid) {r : Jorb}
    (mem : r ∈ w.db.jorb) (id : r.id = jid) : c.args.admits c.now r := by
  obtain ⟨s, hs, hid, hadmits⟩ := hw.picked (World.claimTx_eq_some.mp tx) phase
  exact Serial.eq_of_ident mem hs (id.trans hid.symm) ▸ hadmits

theorem Effect.origin {w w' : World} {a : Act} (h : Effect w a w') (hw : Locks w) {r' : Jorb}
    (hr' : r' ∈ w'.db.jorb) : Origin w w' r' := by
  cases h with
  | quiet db clock queue jorb => exact .kept (jorb ▸ hr')
  | close session jorb => exact .kept (jorb ▸ hr')
  | opens => exact .kept hr'
  | insert j =>
    rcases (Serial.mem_insert (h := fun _ => rfl)).mp hr' with hr' | rfl
    · exact .kept hr'
    · exact .born j rfl
  | update db wakes u jorb free source owed =>
    obtain ⟨r, hr, rfl⟩ := Serial.mem_update.mp (jorb ▸ hr')
    by_cases hc : u.cond w.db r
    · simp only [hc, if_true]
      obtain ⟨hsame, hat, hcount⟩ := source.sound.keeps r
      exact .changed hr hsame hat hcount (source.sound.change r hr hc)
    · simp only [hc]
      exact .kept hr
  | delete batch => exact .kept (Serial.mem_delete.mp hr').1
  | @commit session jid c r _ _ act tx phase mem id jorb =>
    obtain ⟨s, hs, rfl⟩ := Serial.mem_update.mp (jorb ▸ hr')
    by_cases hid : s.id = jid
    · obtain rfl := Serial.eq_of_ident hs mem (hid.trans id.symm)
      simp only [hid, decide_true, if_true]
      exact .claimed (World.claimTx_eq_some.mp tx) (id ▸ phase) hs
        (hw.commit_admits tx phase hs id) rfl rfl
    · simp only [hid, decide_false]
      exact .kept hs

theorem Effect.clock_le {w w' : World} {a : Act} (h : Effect w a w') : w.clock ≤ w'.clock := by
  cases h with
  | quiet db clock queue jorb clock_le => exact clock_le
  | _ => exact le_rfl

theorem Effect.next_le {w w' : World} {a : Act} (h : Effect w a w') :
    w.db.jorb.next ≤ w'.db.jorb.next := by
  cases h with
  | quiet db clock queue jorb => exact jorb ▸ le_rfl
  | close session jorb => exact jorb ▸ le_rfl
  | opens => exact le_rfl
  | insert j => exact Nat.le_succ _
  | update db wakes u jorb => exact jorb ▸ le_rfl
  | delete => exact le_rfl
  | commit act tx phase mem id jorb => exact jorb ▸ le_rfl

theorem Origin.source {w w' : World} {r' : Jorb} (h : Origin w w' r') :
    w.db.jorb.next ≤ r'.id ∨
      ∃ r ∈ w.db.jorb, SameJob r r' ∧ r.runEpoch ≤ r'.runEpoch := by
  cases h with
  | born j eq => exact .inl (eq ▸ le_rfl)
  | kept mem => exact .inr ⟨r', mem, ⟨rfl, rfl, rfl, rfl, rfl, rfl⟩, le_rfl⟩
  | changed mem same claimedAt runCount change =>
    refine .inr ⟨_, mem, same, ?_⟩
    cases change with
    | edit state epoch | start source state epoch => exact epoch.ge
    | leave source state epoch => exact epoch ▸ Nat.le_succ _
    | requeue state epoch => exact epoch ▸ Nat.le_succ _
    | wake source state epoch => exact epoch.ge
    | withdraw source state epoch => exact epoch.ge
  | @claimed session c r tx phase mem admits ends eq =>
    exact .inr ⟨r, mem, eq ▸ c.args.claimed_same c.now r, eq ▸ Nat.le_succ _⟩

end Pyjobby
