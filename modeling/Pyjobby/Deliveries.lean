import Pyjobby.Follow

/-! The rows a move of an attempt inserts into the mailbox and into the job's
streams: one, when the transaction around a `send` or a `stream_write` commits. -/

namespace Pyjobby

open Relational Transition

/-- The call that inserts such a row. -/
def MailRow.prim (m : MailRow) : Prim := .send m.destJobId m.topic m.message

def StreamRow.prim (r : StreamRow) : Prim := .streamWrite r.key r.value

namespace Db

variable {jid : Nat} {db db' : Db}

/-- The rows of the mailbox and of the job's streams that `db'` has besides those of `db`. -/
def inserted (jid : Nat) (db db' : Db) : List Prim :=
  (db'.mailbox.rows.filter fun m => db.mailbox.next ≤ m.id).map MailRow.prim ++
    (db'.stream.rows.filter fun r => r.jobId = jid && (db.stream.find? r.pk).isNone).map
      StreamRow.prim

theorem newMail_eq_nil (h : ∀ m ∈ db'.mailbox, m.id < db.mailbox.next) :
    (db'.mailbox.rows.filter fun m => db.mailbox.next ≤ m.id) = [] := by
  refine List.filter_eq_nil_iff.mpr fun m hm => ?_
  simpa using h m hm

theorem newStream_eq_nil (h : ∀ r ∈ db'.stream, r ∈ db.stream) :
    (db'.stream.rows.filter fun r => r.jobId = jid && (db.stream.find? r.pk).isNone) = [] := by
  refine List.filter_eq_nil_iff.mpr fun r hr => ?_
  simp [Table.find?_self (h r hr)]

theorem inserted_eq_nil (hmail : ∀ m ∈ db'.mailbox, m.id < db.mailbox.next)
    (hstream : db'.stream = db.stream) : db.inserted jid db' = [] := by
  rw [inserted, newMail_eq_nil hmail, newStream_eq_nil fun r hr => hstream ▸ hr]
  rfl

@[simp]
theorem inserted_self (jid : Nat) (db : Db) : db.inserted jid db = [] :=
  inserted_eq_nil (fun _ => Serial.lt_next) rfl

end Db

namespace DurableStmt

def inserts : DurableStmt → Bool
  | streamAppend _ _ _ | send _ _ _ => true
  | _ => false

theorem run_mailbox_lt {now : Int} {jid epoch : Nat} {db : Db} {s : DurableStmt}
    (h : s.inserts = false) : ∀ m ∈ (s.run now jid epoch db).mailbox, m.id < db.mailbox.next := by
  cases s with
  | recordStep | setEvent =>
    simp only [run, Db.recordStep, Db.setEvent]
    split <;> exact fun _ => Serial.lt_next
  | streamAppend | send => cases h
  | recv =>
    simp only [run, Db.recv]
    repeat' split
    · exact fun _ => Serial.lt_next
    · exact fun _ => Serial.lt_next (t := db.mailbox.update _ _)
    · exact fun _ => Serial.lt_next

theorem run_stream {now : Int} {jid epoch : Nat} {db : Db} {s : DurableStmt}
    (h : s.inserts = false) : (s.run now jid epoch db).stream = db.stream := by
  cases s with
  | recordStep | setEvent =>
    simp only [run, Db.recordStep, Db.setEvent]
    split <;> rfl
  | streamAppend | send => cases h
  | recv =>
    simp only [run, Db.recv]
    repeat' split
    all_goals rfl

end DurableStmt

/-- Neither a row for the mailbox or a stream, nor an effect in the history. -/
structure InsertsNothing (w w' : World) (entries : List Entry) : Prop where
  mail : ∀ m ∈ w'.db.mailbox, m.id < w.db.mailbox.next
  stream : w'.db.stream = w.db.stream
  effects : entries.filterMap Entry.effect? = []

namespace InsertsNothing

variable {κ : Type} {a a' : Execution κ} {prog : Program κ} {w w' : World} {entries : List Entry}

theorem self (w : World) : InsertsNothing w w [] := ⟨fun _ => Serial.lt_next, rfl, rfl⟩

theorem durable {e : Jorb} {s : DurableStmt} (hs : s.inserts = false)
    (h : w.durable e s = some w') (heff : entries.filterMap Entry.effect? = []) :
    InsertsNothing w w' entries := by
  obtain ⟨-, rfl⟩ := World.durable_eq_some.mp h
  exact ⟨DurableStmt.run_mailbox_lt hs, DurableStmt.run_stream hs, heff⟩

theorem issue {next : Execution κ} {s : WorkerStmt} {ack : Bool}
    (h : a.issue next w s ack = some (w', a')) : InsertsNothing w w' [] := by
  obtain ⟨w₁, hw₁, heq⟩ := Option.map_eq_some_iff.mp h
  cases heq
  obtain ⟨wakes, rfl⟩ := World.worker_eq hw₁
  exact ⟨fun _ => Serial.lt_next (t := w.db.mailbox), rfl, rfl⟩

theorem record {started : Int} {ack : Bool} (h : a.record prog w started ack = some (w', a')) :
    InsertsNothing w w' [] := by
  unfold Execution.record at h
  split at h
  · obtain ⟨w₁, hw₁, heq⟩ := Option.map_eq_some_iff.mp h
    cases heq
    exact durable rfl hw₁ rfl
  · obtain ⟨w₁, hw₁, heq⟩ := Option.map_eq_some_iff.mp h
    cases heq
    exact durable rfl hw₁ rfl
  · split_ifs at h <;> cases h <;> exact self w
  · split at h
    · obtain ⟨w₁, hw₁, heq⟩ := Option.map_eq_some_iff.mp h
      cases heq
      exact durable rfl hw₁ rfl
    · cases h
  · cases h

theorem recv {started : Int} {ack expired : Bool}
    (h : a.recv w started ack expired = some (w', a', entries)) : InsertsNothing w w' entries := by
  unfold Execution.recv at h
  split at h
  · obtain ⟨w₁, hw₁, heq⟩ := Option.map_eq_some_iff.mp h
    cases heq
    refine durable rfl hw₁ ?_
    split
    · cases w.db.pendingMail a.row.id _ <;> rfl
    · rfl
  · cases h

theorem publish {ack : Bool} (h : a.publish prog w ack = some (w', a', entries)) :
    InsertsNothing w w' entries := by
  unfold Execution.publish at h
  split at h
  · split at h
    · obtain ⟨w₁, hw₁, heq⟩ := Option.map_eq_some_iff.mp h
      cases heq
      exact durable rfl hw₁ (by split <;> rfl)
    · cases h
  · cases h

theorem compact {lost : Option String} (h : a.compact w lost = some (w', a', entries)) :
    InsertsNothing w w' entries := by
  unfold Execution.compact at h
  split at h
  · rename_i key value next _
    cases h
    exact ⟨DurableStmt.run_mailbox_lt (s := .setEvent key value) rfl,
      DurableStmt.run_stream (s := .setEvent key value) rfl, rfl⟩
  · cases h

/-- Of all the moves only the COMMIT of a transaction inserts such a row. -/
theorem move {m : Move} (h : a.move prog w m = some (w', a', entries))
    (hm : ∀ started lost, m ≠ .commit started lost) : InsertsNothing w w' entries := by
  cases Execution.move_cases h with
  | start _ h₁ => exact issue h₁
  | record h₁ => exact record h₁
  | @commit started lost => exact absurd rfl (hm started lost)
  | recv h₁ => exact recv h₁
  | reschedule _ h₁ => exact issue h₁
  | publish h₁ => exact publish h₁
  | compact h₁ => exact compact h₁
  | finish _ _ _ h₁ => exact issue h₁
  | settle _ _ h₁ => exact issue h₁
  | _ => exact self w

end InsertsNothing

namespace Execution

variable {κ : Type} {a a' : Execution κ} {w w' : World} {m : Move} {entries : List Entry}

/-- The COMMIT of a `transaction()`, whose statements are the caller's own. -/
def transacted (a : Execution κ) : Move → List Prim
  | .commit _ _ =>
    match a.phase with
    | .recorded (.transaction name) _ _ => [.transaction name]
    | _ => []
  | _ => []

/-- What a move commits, for the call under way: the rows it inserts, and the
transaction of a `transaction()`. -/
def committed (a : Execution κ) (m : Move) (w w' : World) : List (Nat × Prim) :=
  (w.db.inserted a.row.id w'.db ++ a.transacted m).map fun p => (a.seq, p)

end Execution

namespace Sys

variable {κ : Type}

/-- What a step of the system commits for the job. -/
def committed (s : Sys κ) (e : Event) (s' : Sys κ) : List (Nat × Prim) :=
  match e with
  | .env _ => []
  | .attempt i m => (s.attempts[i]?.map fun a => a.committed m s.world s'.world).getD []

end Sys

end Pyjobby
