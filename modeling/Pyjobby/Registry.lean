import Pyjobby.World

/-! The worker registry: what a worker writes to its own row, the monitor's
retirement of silent workers, the retention of retired ones, and the gate of the
enqueue trigger. -/

namespace Pyjobby

open Relational

/-- The statements a registered worker issues on its own row. -/
inductive RegistryStmt where
  | heartbeat
  | publishIdle (idle : Bool)
  | shutdown

def RegistryStmt.set (now : Int) : RegistryStmt → WorkerRow → WorkerRow
  | heartbeat, w => { w with lastSeen := now }
  | publishIdle idle, w => { w with idle }
  | shutdown, w => { w with shutdownAt := some now, idle := false }

theorem RegistryStmt.set_shutdownAt (now : Int) (stmt : RegistryStmt) {r : WorkerRow}
    (h : r.shutdownAt ≠ none) : (stmt.set now r).shutdownAt ≠ none := by
  cases stmt with
  | shutdown => exact Option.some_ne_none now
  | _ => exact h

namespace WorkerRow

/-- The WHERE clause of `RETIRE_DEAD_WORKERS_SQL`. -/
def silent (now grace : Int) (w : WorkerRow) : Bool :=
  w.shutdownAt.isNone && w.lastSeen < now - grace

def retire (now : Int) : Rewrite WorkerRow.id :=
  ⟨fun w => { w with shutdownAt := some now, idle := false }, fun _ => rfl⟩

/-- The WHERE clause of `SWEEP_RETIRED_WORKERS_SQL`. -/
def expired (now retention : Int) (w : WorkerRow) : Bool :=
  w.shutdownAt.any (· < now - retention) && w.lastSeen < now - retention

end WorkerRow

namespace Db

def registry (db : Db) (now : Int) (wid : Nat) (s : RegistryStmt) : Db :=
  { db with
    worker := db.worker.update (fun w => w.id = wid) ⟨s.set now, fun w => by cases s <;> rfl⟩ }

def retireDeadWorkers (db : Db) (now grace : Int) : Db :=
  { db with worker := db.worker.update (WorkerRow.silent now grace) (WorkerRow.retire now) }

/-- Some job in flight names the worker as its claimer. -/
def ownsInFlight (db : Db) (wid : Nat) : Bool :=
  db.jorb.rows.any fun j => j.claimedBy = some wid && j.inFlight

/-- The probe and the delete, one transaction: `batch` are the rows the probe locked. -/
def sweepRetiredWorkers (db : Db) (now retention : Int) (batch : List Nat) : Db :=
  { db with
    worker := db.worker.delete fun w =>
      w.id ∈ batch && w.expired now retention && !db.ownsInFlight w.id }

/-- The `idle_worker` gate of `jorb_notify`. -/
def idleWorker (db : Db) (queue : String) : Bool :=
  db.worker.rows.any fun w => w.queue = queue && w.idle && w.shutdownAt.isNone

end Db

end Pyjobby
