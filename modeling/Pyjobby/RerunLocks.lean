import Pyjobby.Fencing
import Pyjobby.HeldRows
import Pyjobby.Tables

/-! A state-wiping rerun against the durable writes of executions that may have lost the
job, statement by statement: what a statement reads is the snapshot of its start, and one
that waits for the lock of the job row looks at the row again when it gets it. -/

namespace Pyjobby

open Relational Transition

/-- The statements that write checkpoints or stream rows. -/
inductive LogStmt where
  | recordStep (seq : Nat) (name : String) (output : Option Json) (error : Option String)
      (started : Int)
  | streamAppend (key : String) (value : Option Json) (closed : Bool)
  | recv (seq : Nat) (topic : Option String) (name : String) (started : Int)

def LogStmt.durable : LogStmt → DurableStmt
  | recordStep seq name output error started => .recordStep seq name output error started
  | streamAppend key value closed => .streamAppend key value closed
  | recv seq topic name started => .recv seq topic name started

def DurableStmt.logs : DurableStmt → Bool
  | recordStep .. | streamAppend .. | recv .. => true
  | setEvent .. | send .. => false

/-- A row written and not committed yet. -/
inductive Write where
  | step (new : StepRow) (merge : Rewrite StepRow.key)
  | stream (new : StreamRow)
  | consume (mid : Nat) (now : Int)

theorem MailRow.id_stamped (now : Int) (r : MailRow) :
    ({ r with consumedAt := some now } : MailRow).id = r.id := rfl

theorem StepRow.key_answered (message : Json) (epoch : Nat) (started : Int) (now : Int)
    (s : StepRow) :
    ({ s with
        output := some message, error := none, runEpoch := epoch, started,
        finished := some now } : StepRow).key = s.key := rfl

/-- The merge of an answer into the step that receives it. -/
def StepRow.answer (message : Json) (epoch : Nat) (started : Int) (now : Int) :
    Rewrite StepRow.key where
  set old :=
    { old with
      output := some message, error := none, runEpoch := epoch, started, finished := some now }
  key_set := StepRow.key_answered message epoch started now

namespace Write

def apply (db : Db) : Write → Db
  | step new merge => { db with step := db.step.upsert new merge }
  | stream new => { db with stream := db.stream.upsert new .same }
  | consume mid now =>
    { db with
      mailbox := db.mailbox.update (fun r => r.id = mid)
        ⟨fun r => { r with consumedAt := some now }, MailRow.id_stamped now⟩ }

/-- The two rows have one key: the later of them waits for the earlier. -/
def clashes : Write → Write → Bool
  | step a _, step b _ => a.key = b.key
  | stream a, stream b => a.pk = b.pk
  | _, _ => false

def consumes (mid : Nat) : Write → Bool
  | consume m _ => m = mid
  | _ => false

end Write

/-- The oldest unconsumed message, past those `SKIP LOCKED` leaves out. -/
def Db.unlockedMail (db : Db) (jid : Nat) (topic : Option String) (busy : Nat → Bool) :
    Option MailRow :=
  db.mailbox.rows.find? fun m =>
    m.destJobId = jid && (topic.isNone || m.topic = topic) && m.consumedAt.isNone && !busy m.id

theorem Db.unlockedMail_free (db : Db) (jid : Nat) (topic : Option String) :
    (db.unlockedMail jid topic fun _ => false) = db.pendingMail jid topic := by
  simp [unlockedMail, pendingMail]

/-- What a statement that has passed its fence writes; `db` is its snapshot with its own
transaction's writes in it, `busy` the messages it has to pass over. -/
def LogStmt.writes (now : Int) (jid epoch : Nat) (db : Db) (busy : Nat → Bool) :
    LogStmt → List Write
  | recordStep seq name output error started =>
    let new : StepRow :=
      { jobId := jid, stepSeq := seq, name, output, error, runEpoch := epoch, started,
        finished := some now }
    [.step new (Db.mergeStep new)]
  | streamAppend key value closed =>
    if db.stream.rows.any fun s => s.jobId = jid && s.key = key && s.closed then []
    else
      [.stream
        { jobId := jid, key, seq := db.nextStreamSeq jid key, value, closed, runEpoch := epoch,
          created := now }]
  | recv seq topic name started =>
    if (db.priorAnswer jid seq).isSome then []
    else
      match db.unlockedMail jid topic busy with
      | none => []
      | some m =>
        [.consume m.id now,
          .step
            { jobId := jid, stepSeq := seq, name, output := some m.message, error := none,
              runEpoch := epoch, started, finished := some now }
            (StepRow.answer m.message epoch started now)]

/-- Alone in the database, a statement and its commit are the statement as one step. -/
theorem LogStmt.writes_run {now : Int} {jid epoch : Nat} {db : Db}
    (h : (db.fence jid epoch).isSome) (s : LogStmt) :
    (s.writes now jid epoch db fun _ => false).foldl Write.apply db =
      s.durable.run now jid epoch db := by
  obtain ⟨r, hr⟩ := Option.isSome_iff_exists.mp h
  cases s with
  | recordStep => simp [writes, durable, DurableStmt.run, Db.recordStep, hr, Write.apply]
  | streamAppend key value closed =>
    simp only [writes, durable, DurableStmt.run, Db.streamAppend, hr]
    split <;> simp [Write.apply, Rewrite.same]
  | recv seq topic name started =>
    simp only [writes, durable, DurableStmt.run, Db.recv, Db.priorAnswer, Db.unlockedMail_free, hr]
    cases (db.step.find? (jid, seq)).filter fun s => s.error.isNone with
    | some s => rfl
    | none => cases db.pendingMail jid topic <;> rfl

/-- Where the transaction stands: between two statements, or in one that has started,
with the snapshot of its start, and then passed its fence. -/
inductive WritePhase where
  | idle
  | issued (stmt : LogStmt) (snapshot : Db)
  | fenced (stmt : LogStmt) (snapshot : Db)

/-- The transaction of durable writes of one execution: of a single statement, or of the
statements inside `Job.transaction`. `holds`: it has the share lock of its job row. -/
structure WriteTx where
  session : Nat
  exec : Jorb
  now : Int
  phase : WritePhase
  holds : Bool
  pending : List Write

/-- The transaction of a state-wiping `requeue_job`; from `requeued` on it has the job
row locked, and a wipe takes the rows its DELETE found. -/
inductive RerunPhase where
  | issued (snapshot : Db)
  | requeued
  | stepsWiped (steps : List (Nat × Nat))
  | wiped (steps : List (Nat × Nat)) (streams : List (Nat × String × Nat))

structure RerunTx where
  session : Nat
  jid : Nat
  allowed : List JorbState
  delay : Int
  resetErrors : Bool
  now : Int
  phase : RerunPhase

namespace RerunTx

def requeue (u : RerunTx) : Update :=
  (SupervisorStmt.requeue [u.jid] u.allowed u.delay u.resetErrors).update u.now

def holds (u : RerunTx) : Bool :=
  match u.phase with
  | .issued _ => false
  | _ => true

end RerunTx

structure Reruns where
  world : World
  writers : Table WriteTx.session
  reruns : Table RerunTx.session

inductive RerunAct where
  | env (a : Act)
  | begin (session i : Nat)
  | issue (session : Nat) (stmt : LogStmt)
  | lock (session : Nat)
  | write (session : Nat)
  | commit (session : Nat)
  | rollback (session : Nat)
  | rerun (session jid : Nat) (allowed : List JorbState) (delay : Int) (resetErrors : Bool)
  | requeue (session : Nat)
  | wipeSteps (session : Nat)
  | wipeStreams (session : Nat)
  | commitRerun (session : Nat)
  | rollbackRerun (session : Nat)

instance : Inhabited RerunAct := ⟨.env default⟩

namespace Reruns

def init (clock : Int) (queue : String → Option QueueRow) : Reruns :=
  ⟨.init .empty clock queue, .empty, .empty⟩

def shared (s : Reruns) (jid : Nat) : Bool :=
  s.writers.rows.any fun t => t.holds && t.exec.id = jid

def rerunning (s : Reruns) (jid : Nat) : Bool :=
  s.reruns.rows.any fun u => u.holds && u.jid = jid

def held (s : Reruns) (jid : Nat) : Bool := s.shared jid || s.rerunning jid

def setWriter (s : Reruns) (t : WriteTx) : Reruns := { s with writers := s.writers.put t }

def dropWriter (s : Reruns) (session : Nat) : Reruns :=
  { s with writers := s.writers.delete fun t => t.session = session }

def setRerun (s : Reruns) (u : RerunTx) (phase : RerunPhase) : Reruns :=
  { s with reruns := s.reruns.put { u with phase } }

def dropRerun (s : Reruns) (session : Nat) : Reruns :=
  { s with reruns := s.reruns.delete fun u => u.session = session }

/-- The share lock, and the epoch of the row as it is by then. A refused statement
returns nothing, whereupon the execution gives up. -/
def lock (s : Reruns) (t : WriteTx) : Option Reruns :=
  match t.phase with
  | .issued stmt snapshot =>
    if (snapshot.fence t.exec.id t.exec.runEpoch).isNone then some (s.dropWriter t.session)
    else if s.world.locked t.exec.id || s.rerunning t.exec.id then none
    else if (s.world.db.fence t.exec.id t.exec.runEpoch).isNone then some (s.dropWriter t.session)
    else some (s.setWriter { t with phase := .fenced stmt snapshot, holds := true })
  | _ => none

/-- A message another session is consuming, or has consumed since the snapshot. -/
def busy (s : Reruns) (session mid : Nat) : Bool :=
  (s.writers.rows.any fun t => t.session ≠ session && t.pending.any (Write.consumes mid)) ||
    s.world.db.mailbox.rows.any fun m => m.id = mid && m.consumedAt.isSome

/-- The row has to wait for another session's, or violates the primary key. -/
def refuses (s : Reruns) (session : Nat) (w : Write) : Bool :=
  (s.writers.rows.any fun t => t.session ≠ session && t.pending.any w.clashes) ||
    match w with
    | .stream new => (s.world.db.stream.find? new.pk).isSome
    | _ => false

def write (s : Reruns) (t : WriteTx) : Option Reruns :=
  match t.phase with
  | .fenced stmt snapshot =>
    let ws := stmt.writes t.now t.exec.id t.exec.runEpoch (t.pending.foldl Write.apply snapshot)
      (s.busy t.session)
    if ws.any (s.refuses t.session) then none
    else some (s.setWriter { t with phase := .idle, pending := t.pending ++ ws })
  | _ => none

def commit (s : Reruns) (t : WriteTx) : Option Reruns :=
  match t.phase with
  | .idle =>
    some { s.dropWriter t.session with
      world := { s.world with db := t.pending.foldl Write.apply s.world.db } }
  | _ => none

/-- Statement 1. Without a row in one of the allowed states `requeue_job` returns None. -/
def requeue (s : Reruns) (u : RerunTx) : Option Reruns :=
  match u.phase with
  | .issued snapshot =>
    if !snapshot.jorb.rows.any (u.requeue.cond snapshot) then some (s.dropRerun u.session)
    else if s.world.locked u.jid || s.held u.jid then none
    else if !s.world.db.jorb.rows.any (u.requeue.cond s.world.db) then some (s.dropRerun u.session)
    else some (s.setRerun u .requeued)
  | _ => none

/-- The first of `WIPE_DURABLE_STATE_SQL`; an uncommitted change of one of its rows it
would have to wait for. -/
def wipeSteps (s : Reruns) (u : RerunTx) : Option Reruns :=
  match u.phase with
  | .requeued =>
    let doomed := s.world.db.step.rows.filter fun c => c.jobId = u.jid
    if s.writers.rows.any fun t => t.pending.any fun w => doomed.any fun c =>
        w.clashes (.step c .same) then none
    else some (s.setRerun u (.stepsWiped (doomed.map StepRow.key)))
  | _ => none

def wipeStreams (s : Reruns) (u : RerunTx) : Option Reruns :=
  match u.phase with
  | .stepsWiped steps =>
    let doomed := s.world.db.stream.rows.filter fun c => c.jobId = u.jid
    some (s.setRerun u (.wiped steps (doomed.map StreamRow.pk)))
  | _ => none

/-- The row the requeue found, which its lock has kept as it was, and the doomed rows. -/
def commitRerun (s : Reruns) (u : RerunTx) : Option Reruns :=
  match u.phase with
  | .wiped steps streams =>
    let db := u.requeue.run s.world.db
    some { s.dropRerun u.session with
      world := { s.world with
        db := { db with
          step := db.step.delete fun c => c.key ∈ steps
          stream := db.stream.delete fun c => c.pk ∈ streams } } }
  | _ => none

/-- The act has to wait for a row lock, or is one of the statements modelled here. -/
def waits (s : Reruns) (a : Act) : Bool :=
  s.world.writesHeld s.held a ||
    match a with
    | .durable i stmt =>
      stmt.logs || s.world.execs[i]?.any fun e =>
        s.rerunning e.id && (s.world.db.fence e.id e.runEpoch).isSome
    | _ => false

def idleSession (s : Reruns) (session : Nat) : Bool :=
  (s.writers.find? session).isNone && (s.reruns.find? session).isNone

def step (s : Reruns) : RerunAct → Option Reruns
  | .env a =>
    if s.waits a then none
    else (s.world.step a).bind fun world =>
      if world.locksHeld s.held then none else some { s with world }
  | .begin session i =>
    if s.idleSession session then
      s.world.execs[i]?.map fun exec =>
        s.setWriter ⟨session, exec, s.world.clock, .idle, false, []⟩
    else none
  | .issue session stmt =>
    (s.writers.find? session).bind fun t =>
      match t.phase with
      | .idle => some (s.setWriter { t with phase := .issued stmt s.world.db })
      | _ => none
  | .lock session => (s.writers.find? session).bind s.lock
  | .write session => (s.writers.find? session).bind s.write
  | .commit session => (s.writers.find? session).bind s.commit
  | .rollback session => some (s.dropWriter session)
  | .rerun session jid allowed delay resetErrors =>
    if s.idleSession session then
      some { s with
        reruns := s.reruns.put
          ⟨session, jid, allowed, delay, resetErrors, s.world.clock, .issued s.world.db⟩ }
    else none
  | .requeue session => (s.reruns.find? session).bind s.requeue
  | .wipeSteps session => (s.reruns.find? session).bind s.wipeSteps
  | .wipeStreams session => (s.reruns.find? session).bind s.wipeStreams
  | .commitRerun session => (s.reruns.find? session).bind s.commitRerun
  | .rollbackRerun session => some (s.dropRerun session)

/-- The job has neither checkpoints nor stream rows. -/
def Blank (s : Reruns) (jid : Nat) : Prop :=
  (∀ c ∈ s.world.db.step, c.jobId ≠ jid) ∧ ∀ c ∈ s.world.db.stream, c.jobId ≠ jid

/-- By `s'` there is an execution of the job at this epoch, and it was claimed after every
execution there was at `s`. -/
def ClaimedSince (s s' : Reruns) (jid epoch : Nat) : Prop :=
  ∃ e ∈ s'.world.execs, e.id = jid ∧ e.runEpoch = epoch ∧
    ∀ e₀ ∈ s.world.execs, e₀.id = jid → e₀.runEpoch < epoch

end Reruns

abbrev RerunRun := Run Reruns.step

/-- The row bears the id and the epoch of the execution. -/
def Write.By (e : Jorb) : Write → Prop
  | .step new merge =>
    new.jobId = e.id ∧ new.runEpoch = e.runEpoch ∧ ∀ old : StepRow, old.key = new.key →
      merge.set old = old ∨ (merge.set old).jobId = e.id ∧ (merge.set old).runEpoch = e.runEpoch
  | .stream new => new.jobId = e.id ∧ new.runEpoch = e.runEpoch
  | .consume _ _ => True

theorem LogStmt.writes_by {now : Int} {e : Jorb} {db : Db} {busy : Nat → Bool} (s : LogStmt) :
    ∀ w ∈ s.writes now e.id e.runEpoch db busy, w.By e := by
  intro w hw
  cases s with
  | recordStep seq name output error started =>
    obtain rfl := List.mem_singleton.mp hw
    refine ⟨rfl, rfl, fun old hkey => ?_⟩
    simp only [Db.mergeStep]
    split
    · exact .inl rfl
    · exact .inr ⟨congrArg Prod.fst hkey, rfl⟩
  | streamAppend key value closed =>
    simp only [writes] at hw
    split at hw
    · cases hw
    · obtain rfl := List.mem_singleton.mp hw
      exact ⟨rfl, rfl⟩
  | recv seq topic name started =>
    simp only [writes] at hw
    split at hw
    · cases hw
    · split at hw
      · cases hw
      · rcases List.mem_cons.mp hw with rfl | hw
        · trivial
        · obtain rfl := List.mem_singleton.mp hw
          exact ⟨rfl, rfl, fun old hkey => .inr ⟨congrArg Prod.fst hkey, rfl⟩⟩

/-- Every row is an old one or bears the id and the epoch of the execution. -/
structure Adds (db db' : Db) (e : Jorb) : Prop where
  step : ∀ c ∈ db'.step, c ∈ db.step ∨ c.jobId = e.id ∧ c.runEpoch = e.runEpoch
  stream : ∀ c ∈ db'.stream, c ∈ db.stream ∨ c.jobId = e.id ∧ c.runEpoch = e.runEpoch
  jorb : db'.jorb = db.jorb
  worker : db'.worker = db.worker

namespace Write

theorem apply_adds {e : Jorb} {w : Write} (hw : w.By e) (db : Db) : Adds db (w.apply db) e := by
  cases w with
  | step new merge =>
    obtain ⟨hid, hepoch, hmerge⟩ := hw
    refine ⟨fun c hc => ?_, fun c hc => .inl hc, rfl, rfl⟩
    rcases Table.mem_upsert hc with hc | rfl | ⟨old, hold, hkey, rfl⟩
    · exact .inl hc
    · exact .inr ⟨hid, hepoch⟩
    · exact (hmerge old hkey).imp (fun heq => by rw [heq]; exact hold) id
  | stream new =>
    refine ⟨fun c hc => .inl hc, fun c hc => ?_, rfl, rfl⟩
    rcases Table.mem_upsert hc with hc | rfl | ⟨old, hold, hkey, rfl⟩
    · exact .inl hc
    · exact .inr hw
    · exact .inl hold
  | consume mid now => exact ⟨fun c hc => .inl hc, fun c hc => .inl hc, rfl, rfl⟩

theorem foldl_adds {e : Jorb} {ws : List Write} (hws : ∀ w ∈ ws, w.By e) (db : Db) :
    Adds db (ws.foldl apply db) e := by
  induction ws generalizing db with
  | nil => exact ⟨fun c hc => .inl hc, fun c hc => .inl hc, rfl, rfl⟩
  | cons w ws ih =>
    have hw := apply_adds (hws w List.mem_cons_self) db
    have hrest := ih (fun v hv => hws v (List.mem_cons_of_mem w hv)) (w.apply db)
    exact ⟨fun c hc => (hrest.step c hc).elim (hw.step c) .inr,
      fun c hc => (hrest.stream c hc).elim (hw.stream c) .inr, hrest.jorb.trans hw.jorb,
      hrest.worker.trans hw.worker⟩

end Write

/-- The environment writes no checkpoint and no stream row. -/
theorem Tables.shrinks {w : World} {a : Act} {db : Db} (h : Tables w a db)
    (ha : ∀ i stmt, a = .durable i stmt → stmt.logs = false) :
    (∀ c ∈ db.step, c ∈ w.db.step) ∧ ∀ c ∈ db.stream, c ∈ w.db.stream := by
  cases h with
  | kept step stream => exact ⟨fun c hc => step ▸ hc, fun c hc => stream ▸ hc⟩
  | durable stmt act exec eq =>
    have hlogs := ha _ stmt act
    subst eq
    cases stmt with
    | recordStep | streamAppend | recv => cases hlogs
    | setEvent key value =>
      simp only [DurableStmt.run, Db.setEvent]
      split <;> exact ⟨fun c hc => hc, fun c hc => hc⟩
    | send dest topic message =>
      simp only [DurableStmt.run, Db.send]
      split <;> exact ⟨fun c hc => hc, fun c hc => hc⟩
  | delete batch act eq =>
    subst eq
    exact ⟨fun c hc => (Table.mem_delete.mp hc).1, fun c hc => (Table.mem_delete.mp hc).1⟩
  | wipe act step stream =>
    exact ⟨fun c hc => (Table.mem_delete.mp (step ▸ hc)).1,
      fun c hc => (Table.mem_delete.mp (stream ▸ hc)).1⟩
  | compact act tx step stream =>
    exact ⟨fun c hc => (Table.mem_delete.mp (step ▸ hc)).1, fun c hc => stream ▸ hc⟩

/-- What the locks of a writer's transaction are good for. -/
structure WriteTx.Sound (s : Reruns) (t : WriteTx) : Prop where
  exec : t.exec ∈ s.world.execs
  locked : t.pending ≠ [] ∨ (∃ stmt snapshot, t.phase = .fenced stmt snapshot) → t.holds
  alone : t.holds → s.world.locked t.exec.id = false ∧ s.rerunning t.exec.id = false
  row : t.holds → ∃ r ∈ s.world.db.jorb, r.id = t.exec.id ∧ r.runEpoch = t.exec.runEpoch
  by_exec : ∀ w ∈ t.pending, w.By t.exec

/-- What the lock of a rerun is good for: once a wipe has looked, no row of the job is
left that it did not find. -/
structure RerunTx.Sound (s : Reruns) (u : RerunTx) : Prop where
  alone : u.holds → s.world.locked u.jid = false ∧ s.shared u.jid = false
  row : u.holds → ∃ r ∈ s.world.db.jorb, r.id = u.jid ∧ r.state ∈ u.allowed
  steps : ∀ steps, (u.phase = .stepsWiped steps ∨ ∃ streams, u.phase = .wiped steps streams) →
    ∀ c ∈ s.world.db.step, c.jobId = u.jid → c.key ∈ steps
  streams : ∀ steps streams, u.phase = .wiped steps streams →
    ∀ c ∈ s.world.db.stream, c.jobId = u.jid → c.pk ∈ streams

namespace Reruns

structure Sound (s : Reruns) : Prop where
  locks : Locks s.world
  fenced : Fenced s.world
  writers : ∀ t ∈ s.writers, t.Sound s
  reruns : ∀ u ∈ s.reruns, u.Sound s
  apart : ∀ u ∈ s.reruns, ∀ v ∈ s.reruns, u.holds → v.holds → u.jid = v.jid → u = v
  step : ∀ c ∈ s.world.db.step, ∃ e ∈ s.world.execs, e.id = c.jobId ∧ e.runEpoch = c.runEpoch
  stream : ∀ c ∈ s.world.db.stream, ∃ e ∈ s.world.execs, e.id = c.jobId ∧ e.runEpoch = c.runEpoch

variable {s s' : Reruns}

theorem shared_eq_false {jid : Nat} :
    s.shared jid = false ↔ ∀ t ∈ s.writers, t.holds → t.exec.id ≠ jid := by
  simp [shared, Table.mem_rows]

theorem rerunning_eq_false {jid : Nat} :
    s.rerunning jid = false ↔ ∀ u ∈ s.reruns, u.holds → u.jid ≠ jid := by
  simp [rerunning, Table.mem_rows]

theorem held_of_writer {t : WriteTx} (ht : t ∈ s.writers) (hholds : t.holds) :
    s.held t.exec.id := by
  refine Bool.or_eq_true_iff.mpr (.inl (List.any_eq_true.mpr ⟨t, ht, ?_⟩))
  simp [hholds]

theorem held_of_rerun {u : RerunTx} (hu : u ∈ s.reruns) (hholds : u.holds) : s.held u.jid := by
  refine Bool.or_eq_true_iff.mpr (.inr (List.any_eq_true.mpr ⟨u, hu, ?_⟩))
  simp [hholds]

namespace Sound

theorem init (clock : Int) (queue : String → Option QueueRow) : Sound (.init clock queue) where
  locks := Locks.init _ _ _
  fenced := Fenced.init _ _ _
  writers := fun _ ht => absurd ht Table.not_mem_empty
  reruns := fun _ hu => absurd hu Table.not_mem_empty
  apart := fun _ hu => absurd hu Table.not_mem_empty
  step := fun _ hc => absurd hc Table.not_mem_empty
  stream := fun _ hc => absurd hc Table.not_mem_empty

/-- A step of the world that keeps the rows of the transactions under way, takes none of
their locks, and adds no checkpoint or stream row of a job that a rerun has locked. -/
theorem world (h : s.Sound) {w' : World} (hlocks : Locks w') (hfenced : Fenced w')
    (hexecs : ∀ e ∈ s.world.execs, e ∈ w'.execs)
    (hfree : ∀ jid, s.held jid → s.world.locked jid = false → w'.locked jid = false)
    (hrow : ∀ r ∈ s.world.db.jorb, s.held r.id → s.world.locked r.id = false → r ∈ w'.db.jorb)
    (hstep : ∀ c ∈ w'.db.step, c ∈ s.world.db.step ∨
      s.rerunning c.jobId = false ∧ ∃ e ∈ w'.execs, e.id = c.jobId ∧ e.runEpoch = c.runEpoch)
    (hstream : ∀ c ∈ w'.db.stream, c ∈ s.world.db.stream ∨
      s.rerunning c.jobId = false ∧ ∃ e ∈ w'.execs, e.id = c.jobId ∧ e.runEpoch = c.runEpoch) :
    Sound { s with world := w' } where
  locks := hlocks
  fenced := hfenced
  writers := by
    intro t ht
    have htx := h.writers t ht
    refine ⟨hexecs _ htx.exec, htx.locked, fun hholds => ?_, fun hholds => ?_, htx.by_exec⟩
    · exact ⟨hfree _ (held_of_writer ht hholds) (htx.alone hholds).1, (htx.alone hholds).2⟩
    · obtain ⟨r, hr, hid, hepoch⟩ := htx.row hholds
      exact ⟨r, hrow r hr (hid ▸ held_of_writer ht hholds)
        (hid ▸ (htx.alone hholds).1), hid, hepoch⟩
  reruns := by
    intro u hu
    have htx := h.reruns u hu
    refine ⟨fun hholds => ?_, fun hholds => ?_, fun steps hphase c hc hid => ?_,
      fun steps streams hphase c hc hid => ?_⟩
    · exact ⟨hfree _ (held_of_rerun hu hholds) (htx.alone hholds).1, (htx.alone hholds).2⟩
    · obtain ⟨r, hr, hid, hstate⟩ := htx.row hholds
      exact ⟨r, hrow r hr (hid ▸ held_of_rerun hu hholds) (hid ▸ (htx.alone hholds).1), hid, hstate⟩
    · rcases hstep c hc with hc | ⟨hnone, -⟩
      · exact htx.steps steps hphase c hc hid
      · have hholds : u.holds := by
          rcases hphase with hphase | ⟨streams, hphase⟩ <;> simp [RerunTx.holds, hphase]
        exact absurd hid.symm (rerunning_eq_false.mp hnone u hu hholds)
    · rcases hstream c hc with hc | ⟨hnone, -⟩
      · exact htx.streams steps streams hphase c hc hid
      · exact absurd hid.symm (rerunning_eq_false.mp hnone u hu (by simp [RerunTx.holds, hphase]))
  apart := h.apart
  step := by
    intro c hc
    rcases hstep c hc with hc | ⟨-, hexec⟩
    · obtain ⟨e, he, hof⟩ := h.step c hc
      exact ⟨e, hexecs e he, hof⟩
    · exact hexec
  stream := by
    intro c hc
    rcases hstream c hc with hc | ⟨-, hexec⟩
    · obtain ⟨e, he, hof⟩ := h.stream c hc
      exact ⟨e, hexecs e he, hof⟩
    · exact hexec

theorem env (h : s.Sound) {a : Act} (hwaits : s.waits a = false) {w' : World}
    (hw : s.world.step a = some w') (hheld : w'.locksHeld s.held = false) :
    Sound { s with world := w' } := by
  have heffect := World.step_effect hw
  obtain ⟨hwrites, hlogs⟩ := Bool.or_eq_false_iff.mp hwaits
  have hshrinks := (World.step_tables hw).shrinks fun i stmt hact => by
    subst hact
    exact (Bool.or_eq_false_iff.mp hlogs).1
  refine h.world (h.locks.step heffect) (h.fenced.step h.locks heffect) (fun e he => ?_)
    (fun jid hjid _ => World.locksHeld_eq_false.mp hheld jid hjid)
    (fun r hr hjid hfree => World.step_keeps_held hwrites hw hr hjid hfree)
    (fun c hc => .inl (hshrinks.1 c hc)) (fun c hc => .inl (hshrinks.2 c hc))
  rcases heffect.execs_cases with heq | ⟨c, r, -, heq, -⟩
  · exact heq ▸ he
  · exact heq ▸ List.mem_append_left _ he

theorem setWriter (h : s.Sound) {t : WriteTx} (ht : t.Sound s) : Sound (s.setWriter t) where
  locks := h.locks
  fenced := h.fenced
  writers := by
    intro v hv
    rcases Table.mem_put.mp hv with rfl | ⟨hv, -⟩
    · exact ⟨ht.exec, ht.locked, ht.alone, ht.row, ht.by_exec⟩
    · have htx := h.writers v hv
      exact ⟨htx.exec, htx.locked, htx.alone, htx.row, htx.by_exec⟩
  reruns := by
    intro u hu
    have htx := h.reruns u hu
    refine ⟨fun hholds => ⟨(htx.alone hholds).1, ?_⟩, htx.row, htx.steps, htx.streams⟩
    refine shared_eq_false.mpr fun v hv hvholds => ?_
    rcases Table.mem_put.mp hv with rfl | ⟨hv, -⟩
    · exact (rerunning_eq_false.mp (ht.alone hvholds).2 u hu hholds).symm
    · exact shared_eq_false.mp (htx.alone hholds).2 v hv hvholds
  apart := h.apart
  step := h.step
  stream := h.stream

theorem dropWriter (h : s.Sound) (session : Nat) : Sound (s.dropWriter session) where
  locks := h.locks
  fenced := h.fenced
  writers := by
    intro v hv
    have htx := h.writers v (Table.mem_delete.mp hv).1
    exact ⟨htx.exec, htx.locked, htx.alone, htx.row, htx.by_exec⟩
  reruns := by
    intro u hu
    have htx := h.reruns u hu
    refine ⟨fun hholds => ⟨(htx.alone hholds).1, ?_⟩, htx.row, htx.steps, htx.streams⟩
    exact shared_eq_false.mpr fun v hv =>
      shared_eq_false.mp (htx.alone hholds).2 v (Table.mem_delete.mp hv).1
  apart := h.apart
  step := h.step
  stream := h.stream

theorem putRerun (h : s.Sound) {u : RerunTx} (hu : u.Sound s)
    (hapart : u.holds → ∀ v ∈ s.reruns, v.session ≠ u.session → v.holds → v.jid ≠ u.jid) :
    Sound { s with reruns := s.reruns.put u } where
  locks := h.locks
  fenced := h.fenced
  writers := by
    intro t ht
    have htx := h.writers t ht
    refine ⟨htx.exec, htx.locked, fun hholds => ⟨(htx.alone hholds).1, ?_⟩, htx.row, htx.by_exec⟩
    refine rerunning_eq_false.mpr fun v hv hvholds => ?_
    rcases Table.mem_put.mp hv with rfl | ⟨hv, -⟩
    · exact (shared_eq_false.mp (hu.alone hvholds).2 t ht hholds).symm
    · exact rerunning_eq_false.mp (htx.alone hholds).2 v hv hvholds
  reruns := by
    intro v hv
    rcases Table.mem_put.mp hv with rfl | ⟨hv, -⟩
    · exact ⟨hu.alone, hu.row, hu.steps, hu.streams⟩
    · have htx := h.reruns v hv
      exact ⟨htx.alone, htx.row, htx.steps, htx.streams⟩
  apart := by
    intro v hv v' hv' hholds hholds' hjid
    rcases Table.mem_put.mp hv with rfl | ⟨hold, hne⟩ <;>
      rcases Table.mem_put.mp hv' with rfl | ⟨hold', hne'⟩
    · rfl
    · exact absurd hjid.symm (hapart hholds v' hold' hne' hholds')
    · exact absurd hjid (hapart hholds' v hold hne hholds)
    · exact h.apart v hold v' hold' hholds hholds' hjid
  step := h.step
  stream := h.stream

theorem dropRerun (h : s.Sound) (session : Nat) : Sound (s.dropRerun session) where
  locks := h.locks
  fenced := h.fenced
  writers := by
    intro t ht
    have htx := h.writers t ht
    refine ⟨htx.exec, htx.locked, fun hholds => ⟨(htx.alone hholds).1, ?_⟩, htx.row, htx.by_exec⟩
    exact rerunning_eq_false.mpr fun v hv =>
      rerunning_eq_false.mp (htx.alone hholds).2 v (Table.mem_delete.mp hv).1
  reruns := by
    intro v hv
    have htx := h.reruns v (Table.mem_delete.mp hv).1
    exact ⟨htx.alone, htx.row, htx.steps, htx.streams⟩
  apart := fun v hv v' hv' =>
    h.apart v (Table.mem_delete.mp hv).1 v' (Table.mem_delete.mp hv').1
  step := h.step
  stream := h.stream

theorem lock (h : s.Sound) {t : WriteTx} (ht : t ∈ s.writers) (hs : s.lock t = some s') :
    s'.Sound := by
  unfold Reruns.lock at hs
  split at hs
  · split_ifs at hs with hsnapshot hwait hrow
    · cases hs
      exact h.dropWriter t.session
    · cases hs
      exact h.dropWriter t.session
    · cases hs
      have htx := h.writers t ht
      obtain ⟨hlocked, hrerun⟩ := Bool.or_eq_false_iff.mp (Bool.eq_false_iff.mpr hwait)
      obtain ⟨r, hr⟩ := Option.ne_none_iff_exists'.mp (mt Option.isNone_iff_eq_none.mpr hrow)
      obtain ⟨hmem, hid, hepoch⟩ := Db.fence_eq_some.mp hr
      exact h.setWriter ⟨htx.exec, fun _ => rfl, fun _ => ⟨hlocked, hrerun⟩,
        fun _ => ⟨r, hmem, hid, hepoch⟩, htx.by_exec⟩
  · cases hs

theorem write (h : s.Sound) {t : WriteTx} (ht : t ∈ s.writers) (hs : s.write t = some s') :
    s'.Sound := by
  unfold Reruns.write at hs
  split at hs
  · rename_i stmt snapshot hphase
    dsimp only at hs
    split at hs
    · cases hs
    · cases hs
      have htx := h.writers t ht
      refine h.setWriter ⟨htx.exec, fun _ => htx.locked (.inr ⟨stmt, snapshot, hphase⟩), htx.alone,
        htx.row, fun w hw => ?_⟩
      rcases List.mem_append.mp hw with hw | hw
      · exact htx.by_exec w hw
      · exact stmt.writes_by w hw
  · cases hs

theorem commit (h : s.Sound) {t : WriteTx} (ht : t ∈ s.writers) (hs : s.commit t = some s') :
    s'.Sound := by
  unfold Reruns.commit at hs
  split at hs
  · cases hs
    have htx := h.writers t ht
    have hadds := Write.foldl_adds htx.by_exec s.world.db
    have heffect : Effect s.world default
        { s.world with db := t.pending.foldl Write.apply s.world.db } :=
      .quiet _ s.world.clock s.world.queue hadds.jorb le_rfl (.none hadds.worker)
    have hrerun (hne : t.pending ≠ []) : s.rerunning t.exec.id = false :=
      (htx.alone (htx.locked (.inl hne))).2
    refine dropWriter (h.world (h.locks.step heffect) (h.fenced.step h.locks heffect)
      (fun e he => he) (fun _ _ hfree => hfree) (fun r hr _ _ => hadds.jorb ▸ hr) (fun c hc => ?_)
      fun c hc => ?_) t.session
    · by_cases hne : t.pending = []
      · exact .inl (by simpa [hne] using hc)
      · refine (hadds.step c hc).imp id fun hby => ?_
        exact ⟨hby.1 ▸ hrerun hne, t.exec, htx.exec, hby.1.symm, hby.2.symm⟩
    · by_cases hne : t.pending = []
      · exact .inl (by simpa [hne] using hc)
      · refine (hadds.stream c hc).imp id fun hby => ?_
        exact ⟨hby.1 ▸ hrerun hne, t.exec, htx.exec, hby.1.symm, hby.2.symm⟩
  · cases hs

theorem requeue (h : s.Sound) {u : RerunTx} (hs : s.requeue u = some s') :
    s'.Sound := by
  unfold Reruns.requeue at hs
  split at hs
  · split_ifs at hs with hsnapshot hwait hrow
    · cases hs
      exact h.dropRerun u.session
    · cases hs
      exact h.dropRerun u.session
    · cases hs
      obtain ⟨hlocked, hheld⟩ := Bool.or_eq_false_iff.mp (Bool.eq_false_iff.mpr hwait)
      obtain ⟨hshared, hrerun⟩ := Bool.or_eq_false_iff.mp hheld
      have hrow : s.world.db.jorb.rows.any (u.requeue.cond s.world.db) := by simpa using hrow
      obtain ⟨r, hr, hc⟩ := List.any_eq_true.mp hrow
      have hc : r.id = u.jid ∧ r.state ∈ u.allowed := by
        simpa [RerunTx.requeue, SupervisorStmt.update, SupervisorStmt.cond] using hc
      refine h.putRerun ⟨fun _ => ⟨hlocked, hshared⟩, fun _ => ⟨r, hr, hc⟩,
        fun steps hphase => ?_, fun steps streams hphase => (by cases hphase)⟩
        fun _ v hv _ hvholds => rerunning_eq_false.mp hrerun v hv hvholds
      rcases hphase with hphase | ⟨streams, hphase⟩ <;> cases hphase
  · cases hs

theorem wipeSteps (h : s.Sound) {u : RerunTx} (hu : u ∈ s.reruns) (hs : s.wipeSteps u = some s') :
    s'.Sound := by
  unfold Reruns.wipeSteps at hs
  split at hs
  · rename_i hphase
    dsimp only at hs
    split at hs
    · cases hs
    · cases hs
      have htx := h.reruns u hu
      have hholds : u.holds := by simp [RerunTx.holds, hphase]
      refine h.putRerun ⟨fun _ => htx.alone hholds, fun _ => htx.row hholds,
        fun steps hsteps c hc hid => ?_, fun steps streams hphase => (by cases hphase)⟩
        fun _ v hv hne hvholds hjid => ?_
      · rcases hsteps with hsteps | ⟨streams, hsteps⟩ <;> cases hsteps
        exact List.mem_map_of_mem (List.mem_filter.mpr ⟨hc, decide_eq_true hid⟩)
      · exact hne (show v.session = u.session by rw [h.apart v hv u hu hvholds hholds hjid])
  · cases hs

theorem wipeStreams (h : s.Sound) {u : RerunTx} (hu : u ∈ s.reruns)
    (hs : s.wipeStreams u = some s') : s'.Sound := by
  unfold Reruns.wipeStreams at hs
  split at hs
  · rename_i steps hphase
    cases hs
    have htx := h.reruns u hu
    have hholds : u.holds := by simp [RerunTx.holds, hphase]
    refine h.putRerun ⟨fun _ => htx.alone hholds, fun _ => htx.row hholds,
      fun steps' hsteps c hc hid => ?_, fun steps' streams hsteps c hc hid => ?_⟩
      fun _ v hv hne hvholds hjid => ?_
    · rcases hsteps with hsteps | ⟨streams, hsteps⟩ <;> cases hsteps
      exact htx.steps steps (.inl hphase) c hc hid
    · cases hsteps
      exact List.mem_map_of_mem (List.mem_filter.mpr ⟨hc, decide_eq_true hid⟩)
    · exact hne (show v.session = u.session by rw [h.apart v hv u hu hvholds hholds hjid])
  · cases hs

/-- The commit of the requeue is the UPDATE at the moment the transaction began: neither
locks nor fences know the time. -/
theorem committed (h : s.Sound) {u : RerunTx} (hu : u ∈ s.reruns) (hholds : u.holds) {db : Db}
    (hjorb : db.jorb = (u.requeue.run s.world.db).jorb) (hworker : db.worker = s.world.db.worker) :
    Locks { s.world with db } ∧ Fenced { s.world with db } := by
  let w₀ : World := { s.world with clock := u.now }
  have hlocks : Locks w₀ := ⟨h.locks.row, h.locks.queue, h.locks.picked, h.locks.compacting⟩
  have hfenced : Fenced w₀ := ⟨fun e he =>
    have ho := h.fenced.owned e he
    ⟨ho.known, ho.same, ho.bound, ho.flight⟩, h.fenced.distinct⟩
  have hfree : w₀.blocks (u.requeue.cond w₀.db) = false := by
    refine World.blocks_eq_false.mpr fun r _ hlocked => Bool.eq_false_iff.mpr fun hc => ?_
    have hid : r.id = u.jid := by
      simp only [RerunTx.requeue, SupervisorStmt.update, SupervisorStmt.cond, Bool.and_eq_true,
        decide_eq_true_eq, List.mem_singleton] at hc
      exact hc.1
    have hunlocked : w₀.locked u.jid = false := ((h.reruns u hu).alone hholds).1
    rw [hid, hunlocked] at hlocked
    cases hlocked
  have heffect : Effect w₀ (.rerunFresh u.jid u.allowed u.delay u.resetErrors) { w₀ with db } :=
    .update db w₀.wakes u.requeue hjorb hfree (.rerunFresh _ _ _ _) (fun e he => .inl he) hworker
  have hlocks' := hlocks.step heffect
  have hfenced' := hfenced.step hlocks heffect
  exact ⟨⟨hlocks'.row, hlocks'.queue, hlocks'.picked, hlocks'.compacting⟩, fun e he =>
    have ho := hfenced'.owned e he
    ⟨ho.known, ho.same, ho.bound, ho.flight⟩, hfenced'.distinct⟩

theorem commitRerun (h : s.Sound) {u : RerunTx} (hu : u ∈ s.reruns)
    (hs : s.commitRerun u = some s') : s'.Sound := by
  unfold Reruns.commitRerun at hs
  split at hs
  · rename_i steps streams hphase
    cases hs
    have hholds : u.holds := by simp [RerunTx.holds, hphase]
    let db : Db :=
      { u.requeue.run s.world.db with
        step := s.world.db.step.delete fun c => c.key ∈ steps
        stream := s.world.db.stream.delete fun c => c.pk ∈ streams }
    obtain ⟨hlocks, hfenced⟩ := h.committed hu hholds (show db.jorb = _ from rfl) rfl
    have hother : ∀ jid, (s.dropRerun u.session).held jid → jid ≠ u.jid := by
      rintro jid hjid rfl
      rcases Bool.or_eq_true_iff.mp hjid with hshared | hrerun
      · have : s.shared u.jid = false := ((h.reruns u hu).alone hholds).2
        exact absurd hshared (by simpa [shared, Reruns.dropRerun] using this)
      · obtain ⟨v, hv, hvjid⟩ := List.any_eq_true.mp hrerun
        obtain ⟨hv, hne⟩ := Table.mem_delete.mp hv
        simp only [Bool.and_eq_true, decide_eq_true_eq] at hvjid
        have := h.apart v hv u hu hvjid.1 hholds hvjid.2
        simp [this] at hne
    refine (h.dropRerun u.session).world hlocks hfenced (fun e he => he) (fun _ _ hfree => hfree)
      (fun r hr hheld _ => ?_) (fun c hc => .inl (Table.mem_delete.mp hc).1)
      fun c hc => .inl (Table.mem_delete.mp hc).1
    refine Serial.mem_update.mpr ⟨r, hr, ?_⟩
    have := hother r.id hheld
    simp [RerunTx.requeue, SupervisorStmt.update, SupervisorStmt.cond, this]
  · cases hs

theorem step_sound (h : s.Sound) {a : RerunAct} (hs : s.step a = some s') : s'.Sound := by
  cases a with
  | env a =>
    simp only [Reruns.step] at hs
    split at hs
    · cases hs
    · obtain ⟨w', hw', hs⟩ := Option.bind_eq_some_iff.mp hs
      split at hs
      · cases hs
      · cases hs
        exact h.env (Bool.eq_false_iff.mpr ‹_›) hw' (Bool.eq_false_iff.mpr ‹_›)
  | begin session i =>
    simp only [Reruns.step] at hs
    split at hs
    · obtain ⟨e, he, rfl⟩ := Option.map_eq_some_iff.mp hs
      refine h.setWriter ⟨List.mem_of_getElem? he, fun hlocked => ?_, nofun, nofun, nofun⟩
      rcases hlocked with hne | ⟨stmt, snapshot, hphase⟩
      · exact absurd rfl hne
      · cases hphase
    · cases hs
  | issue session stmt =>
    obtain ⟨t, ht, hs⟩ := Option.bind_eq_some_iff.mp hs
    have htx := h.writers t (Table.find?_eq_some.mp ht).1
    split at hs
    · cases hs
      refine h.setWriter ⟨htx.exec, fun hlocked => htx.locked (.inl ?_), htx.alone, htx.row,
        htx.by_exec⟩
      rcases hlocked with hne | ⟨stmt, snapshot, hphase⟩
      · exact hne
      · cases hphase
    · cases hs
  | lock session =>
    obtain ⟨t, ht, hs⟩ := Option.bind_eq_some_iff.mp hs
    exact h.lock (Table.find?_eq_some.mp ht).1 hs
  | write session =>
    obtain ⟨t, ht, hs⟩ := Option.bind_eq_some_iff.mp hs
    exact h.write (Table.find?_eq_some.mp ht).1 hs
  | commit session =>
    obtain ⟨t, ht, hs⟩ := Option.bind_eq_some_iff.mp hs
    exact h.commit (Table.find?_eq_some.mp ht).1 hs
  | rollback session =>
    cases hs
    exact h.dropWriter session
  | rerun session jid allowed delay resetErrors =>
    simp only [Reruns.step] at hs
    split at hs
    · cases hs
      refine h.putRerun ⟨nofun, nofun, fun steps hphase => ?_, nofun⟩ nofun
      rcases hphase with hphase | ⟨streams, hphase⟩ <;> cases hphase
    · cases hs
  | requeue session =>
    obtain ⟨u, hu, hs⟩ := Option.bind_eq_some_iff.mp hs
    exact h.requeue hs
  | wipeSteps session =>
    obtain ⟨u, hu, hs⟩ := Option.bind_eq_some_iff.mp hs
    exact h.wipeSteps (Table.find?_eq_some.mp hu).1 hs
  | wipeStreams session =>
    obtain ⟨u, hu, hs⟩ := Option.bind_eq_some_iff.mp hs
    exact h.wipeStreams (Table.find?_eq_some.mp hu).1 hs
  | commitRerun session =>
    obtain ⟨u, hu, hs⟩ := Option.bind_eq_some_iff.mp hs
    exact h.commitRerun (Table.find?_eq_some.mp hu).1 hs
  | rollbackRerun session =>
    cases hs
    exact h.dropRerun session

end Sound

end Reruns

end Pyjobby
