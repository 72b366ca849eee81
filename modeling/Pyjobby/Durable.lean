import Pyjobby.Schema
import Mathlib.Data.List.MinMax

/-! The durable-execution statements. Each takes the share lock of the writer's
job row at the writer's epoch and writes nothing where that row is not there. -/

namespace Pyjobby

open Relational

namespace Db

/-- `RECORD_STEP_SQL`: the columns of a checkpoint already recorded as a success
stand against an incoming error. -/
def mergeStep (new : StepRow) : Rewrite StepRow.key where
  set old :=
    if old.error.isNone && new.error.isSome then old
    else { new with jobId := old.jobId, stepSeq := old.stepSeq }
  key_set old := by split <;> rfl

def recordStep (db : Db) (now : Int) (jid seq : Nat) (name : String) (output : Option Json)
    (error : Option String) (epoch : Nat) (started : Int) : Db × Option Nat :=
  match db.fence jid epoch with
  | none => (db, none)
  | some _ =>
    let new : StepRow :=
      { jobId := jid, stepSeq := seq, name, output, error, runEpoch := epoch, started,
        finished := some now }
    ({ db with step := db.step.upsert new (mergeStep new) }, some seq)

theorem find?_recordStep_of_ne {db : Db} {now : Int} {jid seq epoch : Nat} {name : String}
    {output : Option Json} {error : Option String} {started : Int} {k : Nat × Nat}
    (h : k ≠ (jid, seq)) :
    (db.recordStep now jid seq name output error epoch started).1.step.find? k =
      db.step.find? k := by
  unfold recordStep
  split
  · rfl
  · exact Table.find?_upsert_of_ne h

theorem find?_recordStep_success {db : Db} {now : Int} {jid seq epoch : Nat} {name : String}
    {output : Option Json} {started : Int} (h : (db.fence jid epoch).isSome) :
    ∃ s, (db.recordStep now jid seq name output none epoch started).1.step.find? (jid, seq) =
      some s ∧ s.stepSeq = seq ∧ s.name = name ∧ s.output = output ∧ s.error = none := by
  obtain ⟨r, hr⟩ := Option.isSome_iff_exists.mp h
  simp only [recordStep, hr]
  refine ⟨_, Table.find?_upsert_self db.step _ _, ?_⟩
  cases hs : db.step.find? (jid, seq) with
  | none => simp [StepRow.key, hs]
  | some s =>
    have hkey : s.stepSeq = seq := congrArg Prod.snd (Table.find?_eq_some.mp hs).2
    simp [StepRow.key, hs, mergeStep, hkey]

theorem find?_recordStep_error {db : Db} {now : Int} {jid seq epoch : Nat} {name e : String}
    {started : Int} (h : (db.fence jid epoch).isSome) :
    ∃ s, (db.recordStep now jid seq name none (some e) epoch started).1.step.find? (jid, seq) =
      some s ∧ s.stepSeq = seq ∧
        (db.step.find? (jid, seq) = some s ∧ s.error = none ∨
          s.name = name ∧ s.output = none ∧ s.error = some e ∧
            ∀ t, db.step.find? (jid, seq) = some t → t.error ≠ none) := by
  obtain ⟨r, hr⟩ := Option.isSome_iff_exists.mp h
  simp only [recordStep, hr]
  refine ⟨_, Table.find?_upsert_self db.step _ _, ?_⟩
  cases hs : db.step.find? (jid, seq) with
  | none => simp [StepRow.key, hs]
  | some s =>
    have hkey : s.stepSeq = seq := congrArg Prod.snd (Table.find?_eq_some.mp hs).2
    cases he : s.error with
    | none => simp [StepRow.key, hs, mergeStep, hkey, he]
    | some e' => simp [StepRow.key, hs, mergeStep, hkey, he]

def setEvent (db : Db) (now : Int) (jid : Nat) (key : String) (value : Json) (epoch : Nat) :
    Db × Option String :=
  match db.fence jid epoch with
  | none => (db, none)
  | some _ =>
    let new : EventRow := { jobId := jid, key, value, updated := now }
    let merge : Rewrite EventRow.pk := ⟨fun old => { old with value, updated := now }, fun _ => rfl⟩
    ({ db with event := db.event.upsert new merge }, some key)

/-- `COALESCE((SELECT max(s.seq) ..), -1) + 1`. -/
def nextStreamSeq (db : Db) (jid : Nat) (key : String) : Nat :=
  ((db.stream.rows.filter fun s => s.jobId = jid ∧ s.key = key).map fun s => s.seq + 1).foldr max 0

theorem lt_nextStreamSeq {db : Db} {jid : Nat} {key : String} {r : StreamRow} (hr : r ∈ db.stream)
    (hjob : r.jobId = jid) (hkey : r.key = key) : r.seq < db.nextStreamSeq jid key := by
  have hmem : r.seq + 1 ∈ (db.stream.rows.filter fun s => s.jobId = jid ∧ s.key = key).map
      fun s => s.seq + 1 :=
    List.mem_map.mpr ⟨r, List.mem_filter.mpr ⟨hr, by simp [hjob, hkey]⟩, rfl⟩
  exact List.le_max_of_le' 0 hmem (Nat.le_refl _)

theorem find?_nextStreamSeq (db : Db) (jid : Nat) (key : String) :
    db.stream.find? (jid, key, db.nextStreamSeq jid key) = none := by
  refine Table.find?_eq_none.mpr fun r hr hpk => ?_
  simp only [StreamRow.pk, Prod.mk.injEq] at hpk
  exact Nat.ne_of_lt (lt_nextStreamSeq hr hpk.1 hpk.2.1) hpk.2.2

structure StreamReply where
  fenced : Bool
  alreadyClosed : Bool
  seq : Option Nat

def streamAppend (db : Db) (now : Int) (jid : Nat) (key : String) (value : Option Json)
    (closed : Bool) (epoch : Nat) : Db × StreamReply :=
  let shut := db.stream.rows.any fun s => s.jobId = jid && s.key = key && s.closed
  match db.fence jid epoch with
  | none => (db, ⟨false, shut, none⟩)
  | some _ =>
    if shut then (db, ⟨true, true, none⟩)
    else
      let seq := db.nextStreamSeq jid key
      let new : StreamRow :=
        { jobId := jid, key, seq, value, closed, runEpoch := epoch, created := now }
      ({ db with stream := db.stream.upsert new ⟨id, fun _ => rfl⟩ }, ⟨true, false, some seq⟩)

/-- `SEND_SQL`, fenced on the sender. A destination that is not there is a
foreign-key error: the statement writes nothing and returns no id. -/
def send (db : Db) (now : Int) (dest : Nat) (topic : Option String) (message : Json)
    (sender epoch : Nat) : Db × Option Nat :=
  match db.fence sender epoch, db.jorb.find? dest with
  | some _, some _ =>
    let mk (i : Nat) : MailRow :=
      { id := i, destJobId := dest, topic, message, created := now, consumedAt := none }
    ({ db with mailbox := db.mailbox.insert mk fun _ => rfl }, some db.mailbox.next)
  | _, _ => (db, none)

structure RecvReply where
  fenced : Bool
  replayed : Bool
  priorOutput : Option Json
  consumed : Bool
  message : Option Json

/-- The oldest unconsumed message: `ORDER BY id LIMIT 1`, the mailbox being
kept in id order. -/
def pendingMail (db : Db) (jid : Nat) (topic : Option String) : Option MailRow :=
  db.mailbox.rows.find? fun m =>
    m.destJobId = jid && (topic.isNone || m.topic = topic) && m.consumedAt.isNone

/-- `RECV_SQL`: consume one message and checkpoint it in one statement. -/
def recv (db : Db) (now : Int) (jid seq : Nat) (topic : Option String) (name : String)
    (epoch : Nat) (started : Int) : Db × RecvReply :=
  let prior := (db.step.find? (jid, seq)).filter fun s => s.error.isNone
  let fenced := (db.fence jid epoch).isSome
  let idle : Db × RecvReply :=
    (db, ⟨fenced, prior.isSome, prior.bind StepRow.output, false, none⟩)
  if fenced && prior.isNone then
    match db.pendingMail jid topic with
    | none => idle
    | some m =>
      let stamp : Rewrite MailRow.id := ⟨fun r => { r with consumedAt := some now }, fun _ => rfl⟩
      let new : StepRow :=
        { jobId := jid, stepSeq := seq, name, output := some m.message, error := none,
          runEpoch := epoch, started, finished := some now }
      let merge : Rewrite StepRow.key :=
        ⟨fun old => { old with
            output := some m.message, error := none, runEpoch := epoch, started,
            finished := some now }, fun _ => rfl⟩
      ({ db with
          mailbox := db.mailbox.update (fun r => r.id = m.id) stamp
          step := db.step.upsert new merge },
        ⟨true, false, none, true, some m.message⟩)
  else idle

/-- The success already recorded for this call, as `recv` looks it up. -/
def priorAnswer (db : Db) (jid seq : Nat) : Option StepRow :=
  (db.step.find? (jid, seq)).filter fun s => s.error.isNone

theorem recv_cases (db : Db) (now : Int) (jid seq : Nat) (topic : Option String) (name : String)
    (epoch : Nat) (started : Int) :
    db.recv now jid seq topic name epoch started =
        (db, ⟨(db.fence jid epoch).isSome, (db.priorAnswer jid seq).isSome,
          (db.priorAnswer jid seq).bind StepRow.output, false, none⟩) ∨
      (db.fence jid epoch).isSome ∧ db.priorAnswer jid seq = none ∧ ∃ m db',
        db.pendingMail jid topic = some m ∧
        db.recv now jid seq topic name epoch started =
          (db', ⟨true, false, none, true, some m.message⟩) ∧
        (∀ k, k ≠ (jid, seq) → db'.step.find? k = db.step.find? k) ∧
        ∃ s, db'.step.find? (jid, seq) = some s ∧ s.output = some m.message ∧ s.error = none ∧
          (s.name = name ∨ ∃ old, db.step.find? (jid, seq) = some old ∧ s.name = old.name) := by
  unfold recv priorAnswer
  dsimp only
  split
  · rename_i hlive
    rw [Bool.and_eq_true, Option.isNone_iff_eq_none] at hlive
    split
    · exact .inl rfl
    · rename_i m hm
      refine .inr ⟨hlive.1, hlive.2, m, _, hm, rfl, fun k hk => Table.find?_upsert_of_ne hk, _,
        Table.find?_upsert_self db.step _ _, ?_⟩
      cases hs : db.step.find? (jid, seq) with
      | none => simp [StepRow.key, hs]
      | some old => simp [StepRow.key, hs]
  · exact .inl rfl

def compactSteps (db : Db) (jid : Nat) : Db × Nat :=
  ({ db with step := db.step.delete fun s => s.jobId = jid },
    db.step.count fun s => s.jobId = jid)

def wipeDurableState (db : Db) (ids : List Nat) : Db :=
  { db with
    step := db.step.delete fun s => s.jobId ∈ ids
    stream := db.stream.delete fun s => s.jobId ∈ ids }

end Db

/-- The durable writes an execution issues one statement at a time. -/
inductive DurableStmt where
  | recordStep (seq : Nat) (name : String) (output : Option Json) (error : Option String)
      (started : Int)
  | setEvent (key : String) (value : Json)
  | streamAppend (key : String) (value : Option Json) (closed : Bool)
  | send (dest : Nat) (topic : Option String) (message : Json)
  | recv (seq : Nat) (topic : Option String) (name : String) (started : Int)

def DurableStmt.run (now : Int) (jid epoch : Nat) (db : Db) : DurableStmt → Db
  | recordStep seq name output error started =>
    (db.recordStep now jid seq name output error epoch started).1
  | setEvent key value => (db.setEvent now jid key value epoch).1
  | streamAppend key value closed => (db.streamAppend now jid key value closed epoch).1
  | send dest topic message => (db.send now dest topic message jid epoch).1
  | recv seq topic name started => (db.recv now jid seq topic name epoch started).1

theorem DurableStmt.run_of_fence {now : Int} {jid epoch : Nat} {db : Db}
    (h : db.fence jid epoch = none) (s : DurableStmt) : s.run now jid epoch db = db := by
  cases s <;>
    simp [DurableStmt.run, Db.recordStep, Db.setEvent, Db.streamAppend, Db.send, Db.recv, h]

theorem DurableStmt.run_jorb (now : Int) (jid epoch : Nat) (db : Db) (s : DurableStmt) :
    (s.run now jid epoch db).jorb = db.jorb := by
  cases s with
  | recordStep => simp only [DurableStmt.run, Db.recordStep]; split <;> rfl
  | setEvent => simp only [DurableStmt.run, Db.setEvent]; split <;> rfl
  | streamAppend =>
    simp only [DurableStmt.run, Db.streamAppend]
    split
    · rfl
    · split <;> rfl
  | send => simp only [DurableStmt.run, Db.send]; split <;> rfl
  | recv =>
    simp only [DurableStmt.run, Db.recv]
    split
    · split <;> rfl
    · rfl

theorem DurableStmt.run_worker (now : Int) (jid epoch : Nat) (db : Db) (s : DurableStmt) :
    (s.run now jid epoch db).worker = db.worker := by
  cases s with
  | recordStep => simp only [DurableStmt.run, Db.recordStep]; split <;> rfl
  | setEvent => simp only [DurableStmt.run, Db.setEvent]; split <;> rfl
  | streamAppend =>
    simp only [DurableStmt.run, Db.streamAppend]
    split
    · rfl
    · split <;> rfl
  | send => simp only [DurableStmt.run, Db.send]; split <;> rfl
  | recv =>
    simp only [DurableStmt.run, Db.recv]
    split
    · split <;> rfl
    · rfl

end Pyjobby
