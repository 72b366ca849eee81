import Pyjobby.Retry
import Pyjobby.World

/-! An attempt at a job: the worker's side of `_process` and the durable
primitives of `Job`, statement by statement. The job's code is a program whose
control states say which primitive comes next. -/

namespace Pyjobby

open Relational

/-- The checkpointed primitives. What the function of a step or a transaction
does is the caller's own business. -/
inductive Prim where
  | step (name : String)
  | transaction (name : String)
  | send (dest : Nat) (topic : Option String) (message : Json)
  | streamWrite (key : String) (value : Option Json)
  | recv (topic : Option String)
  | sleep (interval : Int)

namespace Prim

def name : Prim → String
  | step name => name
  | transaction name => name
  | send dest topic _ => "dxe.send:" ++ toString dest ++ ":" ++ topic.getD ""
  | streamWrite key _ => "dxe.stream:" ++ key
  | recv topic => "dxe.recv:" ++ topic.getD ""
  | sleep _ => "dxe.sleep"

/-- The primitives that run through `transaction()`. -/
def atomic : Prim → Bool
  | transaction _ | send _ _ _ | streamWrite _ _ => true
  | _ => false

/-- The fenced statement a transaction of the platform's own makes. -/
def statement : Prim → Option DurableStmt
  | send dest topic message => some (.send dest topic message)
  | streamWrite key value => some (.streamAppend key value false)
  | _ => none

/-- The database turns the statement down: the destination is not there, or the
stream is closed. -/
def refused (db : Db) (jid : Nat) : Prim → Bool
  | send dest _ _ => (db.jorb.find? dest).isNone
  | streamWrite key _ => db.stream.rows.any fun s => s.jobId = jid && s.key = key && s.closed
  | _ => false

/-- What is recorded: the mailbox id or the stream position a row takes when its
transaction commits, and otherwise what the function returned. -/
def output (db : Db) (jid : Nat) (result : Option Json) : Prim → Option Json
  | send _ _ _ => some (.int db.mailbox.next)
  | streamWrite key _ => some (.int (db.nextStreamSeq jid key))
  | _ => result

/-- What the call returns to the job's code: `send` and `sleep` return nothing. -/
def reply : Prim → Option Json → Option Json
  | send _ _ _, _ => none
  | sleep _, _ => none
  | _, output => output

end Prim

/-- What the job's code does next. In `nest` the function of a step calls
primitives itself. -/
inductive Head (κ : Type) where
  | done (result : Option Json)
  | setEvent (key : String) (value : Json) (next : κ)
  | getEvent (key : String) (next : Option Json → κ)
  | call (p : Prim) (next : Option Json → κ)
  | nest (name : String) (fn : κ) (next : Option Json → κ)
  | commitPosition (key : String) (value : Json) (next : κ)

structure Program (κ : Type) where
  entry : κ
  head : κ → Head κ

/-- Where an attempt stands between two statements. Inside a transaction of
`transaction()` it is `inTx` when its function has returned and `recorded` once
the checkpoint is written, uncommitted. `failed` is about to write an error
checkpoint, `raised` has left the job's code with an exception. -/
inductive Phase (κ : Type) where
  | claimed
  | bound
  | code (c : κ)
  | running (p : Prim) (next : Option Json → κ)
  | inTx (p : Prim) (next : Option Json → κ) (result : Option Json)
  | recorded (p : Prim) (next : Option Json → κ) (result : Option Json)
  | checkpoint (p : Prim) (next : Option Json → κ) (result : Option Json)
  | failed (seq : Nat) (name error : String)
  | parked (delay : Int)
  | compacting (key : String) (value : Json) (next : κ)
  | raised
  | gone

/-- A step whose function is running and calls primitives. -/
structure Frame (κ : Type) where
  seq : Nat
  name : String
  next : Option Json → κ

/-- An attempt: the row its claim returned, the checkpoints `_dxe_bind` attached
and the sequence number last consumed. `answers`, `ran` and `diverged` are its
history: what each call returned, the calls whose function was run, and whether
a `NondeterminismError` was raised. -/
structure Execution (κ : Type) where
  row : Jorb
  steps : Option (List StepRow)
  seq : Nat
  phase : Phase κ
  frames : List (Frame κ)
  answers : List (Nat × Option Json)
  ran : List Nat
  diverged : Bool

/-- What a commit made visible, for the history. -/
inductive Entry where
  | effect (seq : Nat) (p : Prim)
  | consumed (m : MailRow)
  | event (key : String) (value : Json)
  | position (key : String) (value : Json)

def Entry.effect? : Entry → Option (Nat × Prim)
  | effect seq p => some (seq, p)
  | _ => none

/-- `lost` is the error a client sees when its commit took effect and the
acknowledgement never came; `ack` says that the answer of a statement arrived,
and `JobSystem.ex` issues it again where it did not. -/
inductive Move where
  | load
  | start (timeout : Option Int) (ack : Bool)
  | call
  | invoke (result : Except String (Option Json))
  | execute (error : String)
  | record (started : Int) (ack : Bool)
  | commit (started : Int) (lost : Option String)
  | rollback (error : String)
  | recv (started : Int) (ack expired : Bool)
  | reschedule (ack : Bool)
  | publish (ack : Bool)
  | read
  | compactFence
  | compact (lost : Option String)
  | finish (ack : Bool)
  | raise
  | settle (s : WorkerStmt) (ack : Bool)
  | crash

/-- The moves that are a statement of `_process` on the job's own row. -/
def Move.issues : Move → Bool
  | start _ _ | reschedule _ | finish _ | settle _ _ => true
  | _ => false

/-- The moves that write nothing and only decide where the attempt stands next. -/
def Move.decides : Move → Bool
  | load | call | read | raise => true
  | _ => false

/-- The statements `_process` ends a failed or cancelled attempt with. -/
def WorkerStmt.settles : WorkerStmt → Bool
  | retry _ _ _ | crashed _ _ | cancelled => true
  | _ => false

namespace World

def owns (w : World) (e : Jorb) : Bool := (w.db.fence e.id e.runEpoch).isSome

def applies (w : World) (e : Jorb) (s : WorkerStmt) : Bool :=
  w.db.jorb.rows.any ((s.update w.clock e.id e.runEpoch).cond w.db)

def cancelRequested (w : World) (e : Jorb) : Bool :=
  (w.db.jorb.find? e.id).any Jorb.cancelRequested

end World

/-- A fork is born with the checkpoints copied from its source. -/
def bornWithCheckpoints (adminData : Json) : Bool :=
  match (adminData.get? "fork").bind (Json.get? "steps_copied") with
  | some (.int n) => n ≠ 0
  | some (.bool b) => b
  | some (.float x) => x ≠ 0
  | some (.str s) => s ≠ ""
  | some (.arr xs) => !xs.isEmpty
  | some (.obj fields) => !fields.isEmpty
  | _ => false

/-- `save_result` is False, rather than anything falsy. -/
def savesResult (adminData : Json) : Bool :=
  match adminData.get? "save_result" with
  | some (.bool false) => false
  | _ => true

/-- A wake time, in the microseconds of the schema in place of its ISO text. -/
def wakeRecord (at_ : Int) : Json := .obj [("wake_at", .int at_)]

def wakeAt (output : Option Json) : Option Int :=
  match output.bind (Json.get? "wake_at") with
  | some (.int at_) => some at_
  | _ => none

namespace Execution

variable {κ : Type}

def new (row : Jorb) : Execution κ where
  row := row
  steps := none
  seq := 0
  phase := .claimed
  frames := []
  answers := []
  ran := []
  diverged := false

def locks (a : Execution κ) : Bool :=
  match a.phase with
  | .inTx p _ _ => p.statement.isSome
  | .recorded _ _ _ | .compacting _ _ _ => true
  | _ => false

def checkpoint? (a : Execution κ) (seq : Nat) : Option StepRow :=
  (a.steps.getD []).find? fun s => s.stepSeq = seq

def resumes (a : Execution κ) : Bool := 1 < a.row.runCount || bornWithCheckpoints a.row.adminData

def bind (a : Execution κ) (checkpoints : List StepRow) : Execution κ :=
  { a with steps := some checkpoints, phase := .bound }

def load (a : Execution κ) (db : Db) : Execution κ :=
  a.bind (if a.resumes then db.step.rows.filter fun s => s.jobId = a.row.id else [])

/-- Superseded, rescheduled, or the worker is no more. -/
def leave (a : Execution κ) : Execution κ := { a with phase := .gone, frames := [] }

def raise (a : Execution κ) : Execution κ := { a with phase := .raised, frames := [] }

/-- An exception leaves the primitive: the step around it records it as its own
failure, and with no step around it it leaves the job's code. -/
def throw (a : Execution κ) (error : String) : Execution κ :=
  match a.frames with
  | [] => a.raise
  | f :: fs => { a with phase := .failed f.seq f.name error, frames := fs }

/-- The call under way returns; `output` is what is recorded for it. -/
def answer (a : Execution κ) (p : Prim) (next : Option Json → κ) (output : Option Json) :
    Execution κ :=
  { a with phase := .code (next (p.reply output)), answers := a.answers ++ [(a.seq, output)] }

def diverge (a : Execution κ) : Execution κ := { a.raise with diverged := true }

/-- A primitive consumes the next sequence number and makes its replay decision. -/
def call (a : Execution κ) (now : Int) (p : Prim) (next : Option Json → κ) : Execution κ :=
  let a := { a with seq := a.seq + 1 }
  match a.checkpoint? a.seq with
  | none => { a with phase := .running p next }
  | some s =>
    if s.name ≠ p.name then a.diverge
    else
      match p with
      | .sleep _ =>
        match wakeAt s.output with
        | none => a.raise
        | some at_ =>
          if at_ ≤ now then a.answer p next s.output else { a with phase := .parked (at_ - now) }
      | _ =>
        if s.error.isNone then a.answer p next s.output else { a with phase := .running p next }

/-- As `call`, for a step whose function calls primitives. -/
def nest (a : Execution κ) (name : String) (fn : κ) (next : Option Json → κ) : Execution κ :=
  let a := { a with seq := a.seq + 1 }
  let enter : Execution κ :=
    { a with phase := .code fn, frames := ⟨a.seq, name, next⟩ :: a.frames, ran := a.ran ++ [a.seq] }
  match a.checkpoint? a.seq with
  | none => enter
  | some s =>
    if s.name ≠ name then a.diverge
    else if s.error.isNone then
      { a with phase := .code (next s.output), answers := a.answers ++ [(a.seq, s.output)] }
    else enter

/-- The function of a step or a transaction, run to its end. -/
def invoke (a : Execution κ) (now : Int) (p : Prim) (next : Option Json → κ)
    (result : Except String (Option Json)) : Option (Execution κ) :=
  let ran : Execution κ := { a with ran := a.ran ++ [a.seq] }
  match p, result with
  | .step _, .ok output => some { ran with phase := .checkpoint p next output }
  | .transaction _, .ok output => some { ran with phase := .inTx p next output }
  | .step _, .error e | .transaction _, .error e =>
    some { ran with phase := .failed a.seq p.name e }
  | .sleep interval, _ =>
    some { a with phase := .checkpoint p next (some (wakeRecord (now + interval))) }
  | _, _ => none

/-- The statement of `send` or `stream_write`, inside its transaction. -/
def execute (a : Execution κ) (w : World) (p : Prim) (next : Option Json → κ) (error : String) :
    Option (Execution κ) :=
  let ran : Execution κ := { a with ran := a.ran ++ [a.seq] }
  if p.statement.isNone then none
  else if !w.owns a.row then some ran.leave
  else if w.locked a.row.id then none
  else if p.refused w.db a.row.id then some { ran with phase := .failed a.seq p.name error }
  else some { ran with phase := .inTx p next none }

/-- A statement through `JobSystem.ex`, and where its answer leads. -/
def answered (a next : Execution κ) (w : World) (ack : Bool) : Execution κ :=
  if !ack then a else if w.owns a.row then next else a.leave

/-- `_dxe_record`. -/
def record (a : Execution κ) (prog : Program κ) (w : World) (started : Int) (ack : Bool) :
    Option (World × Execution κ) :=
  match a.phase with
  | .checkpoint p next output =>
    (w.durable a.row (.recordStep a.seq p.name output none started)).map fun w' =>
      let done : Execution κ :=
        match p with
        | .sleep interval => { a with phase := .parked interval }
        | _ => a.answer p next output
      (w', a.answered done w ack)
  | .failed seq name error =>
    (w.durable a.row (.recordStep seq name none (some error) started)).map fun w' =>
      (w', a.answered (a.throw error) w ack)
  | .inTx p next result =>
    if !w.owns a.row then some (w, a.leave)
    else if w.locked a.row.id then none
    else some (w, { a with phase := .recorded p next result })
  | .code c =>
    match prog.head c, a.frames with
    | .done result, f :: fs =>
      (w.durable a.row (.recordStep f.seq f.name result none started)).map fun w' =>
        let back : Execution κ :=
          { a with
            phase := .code (f.next result), frames := fs,
            answers := a.answers ++ [(f.seq, result)] }
        (w', a.answered back w ack)
    | _, _ => none
  | _ => none

/-- COMMIT: the statement and the checkpoint become visible at once. A client
that does not learn the outcome takes the error path. -/
def commit (a : Execution κ) (w : World) (started : Int) (lost : Option String) :
    Option (World × Execution κ × List Entry) :=
  match a.phase with
  | .recorded p next result =>
    let output := p.output w.db a.row.id result
    if p.refused w.db a.row.id then none
    else
      ((p.statement.elim (some w) (w.durable a.row)).bind fun w₁ =>
          w₁.durable a.row (.recordStep a.seq p.name output none started)).map fun w' =>
        let a' : Execution κ :=
          match lost with
          | none => a.answer p next output
          | some error => { a with phase := .failed a.seq p.name error }
        (w', a', [.effect a.seq p])
  | _ => none

/-- One poll of `recv`; `expired` says that its wait budget is spent. The statement is over
before it is issued again; `RecvTx` is the one that outlives its connection. -/
def recv (a : Execution κ) (w : World) (started : Int) (ack expired : Bool) :
    Option (World × Execution κ × List Entry) :=
  match a.phase with
  | .running (.recv topic) next =>
    let p : Prim := .recv topic
    let reply := (w.db.recv w.clock a.row.id a.seq topic p.name a.row.runEpoch started).2
    (w.durable a.row (.recv a.seq topic p.name started)).map fun w' =>
      let a' : Execution κ :=
        if !ack then a
        else if !reply.fenced then a.leave
        else if reply.replayed then a.answer p next reply.priorOutput
        else if reply.consumed then a.answer p next reply.message
        else if expired then { a with phase := .checkpoint p next none }
        else a
      (w', a',
        if reply.consumed then ((w.db.pendingMail a.row.id topic).map Entry.consumed).toList
        else [])
  | _ => none

def publish (a : Execution κ) (prog : Program κ) (w : World) (ack : Bool) :
    Option (World × Execution κ × List Entry) :=
  match a.phase with
  | .code c =>
    match prog.head c with
    | .setEvent key value next =>
      (w.durable a.row (.setEvent key value)).map fun w' =>
        (w', a.answered { a with phase := .code next } w ack,
          if w.owns a.row then [.event key value] else [])
    | _ => none
  | _ => none

/-- `commit_position`: the fence, taking the row exclusively. -/
def compactFence (a : Execution κ) (prog : Program κ) (w : World) : Option (Execution κ) :=
  match a.phase with
  | .code c =>
    match prog.head c with
    | .commitPosition key value next =>
      if !w.owns a.row then some a.leave
      else if w.locked a.row.id then none
      else some { a with phase := .compacting key value next }
    | _ => none
  | _ => none

def compact (a : Execution κ) (w : World) (lost : Option String) :
    Option (World × Execution κ × List Entry) :=
  match a.phase with
  | .compacting key value next =>
    let db := (w.db.setEvent w.clock a.row.id key value a.row.runEpoch).1
    let a' : Execution κ :=
      match lost with
      | none => { a with steps := some [], seq := 0, phase := .code next }
      | some error => a.throw error
    some ({ w with db := (db.compactSteps a.row.id).1 }, a', [.position key value])
  | _ => none

/-- A statement of `_process` on the job's own row. -/
def issue (a next : Execution κ) (w : World) (s : WorkerStmt) (ack : Bool) :
    Option (World × Execution κ) :=
  (w.worker a.row s).map fun w' => (w', if ack then next else a)

/-- claimed -> running. A cancel that landed before it is honored here. -/
def start (a : Execution κ) (prog : Program κ) (w : World) (timeout : Option Int) (ack : Bool) :
    Option (World × Execution κ) :=
  let next : Execution κ :=
    if !w.applies a.row (.run timeout) then a.leave
    else if w.cancelRequested a.row then a.raise
    else { a with phase := .code prog.entry }
  a.issue next w (.run timeout) ack

def move (a : Execution κ) (prog : Program κ) (w : World) :
    Move → Option (World × Execution κ × List Entry)
  | .load =>
    match a.phase with
    | .claimed => some (w, a.load w.db, [])
    | _ => none
  | .start timeout ack =>
    match a.phase with
    | .bound => (a.start prog w timeout ack).map fun (w', a') => (w', a', [])
    | _ => none
  | .call =>
    match a.phase with
    | .code c =>
      match prog.head c with
      | .call p next => some (w, a.call w.clock p next, [])
      | .nest name fn next => some (w, a.nest name fn next, [])
      | _ => none
    | _ => none
  | .invoke result =>
    match a.phase with
    | .running p next => (a.invoke w.clock p next result).map fun a' => (w, a', [])
    | _ => none
  | .execute error =>
    match a.phase with
    | .running p next => (a.execute w p next error).map fun a' => (w, a', [])
    | _ => none
  | .record started ack => (a.record prog w started ack).map fun (w', a') => (w', a', [])
  | .commit started lost => a.commit w started lost
  | .rollback error =>
    match a.phase with
    | .running p _ | .inTx p _ _ | .recorded p _ _ =>
      if p.atomic then some (w, { a with phase := .failed a.seq p.name error }, []) else none
    | .compacting _ _ _ => some (w, a.throw error, [])
    | _ => none
  | .recv started ack expired => a.recv w started ack expired
  | .reschedule ack =>
    match a.phase with
    | .parked delay => (a.issue a.leave w (.reschedule delay) ack).map fun (w', a') => (w', a', [])
    | _ => none
  | .publish ack => a.publish prog w ack
  | .read =>
    match a.phase with
    | .code c =>
      match prog.head c with
      | .getEvent key next =>
        some (w,
          { a with phase := .code (next ((w.db.event.find? (a.row.id, key)).map (·.value))) }, [])
      | _ => none
    | _ => none
  | .compactFence => (a.compactFence prog w).map fun a' => (w, a', [])
  | .compact lost => a.compact w lost
  | .finish ack =>
    match a.phase with
    | .code c =>
      match prog.head c, a.frames with
      | .done result, [] =>
        let kept := if savesResult a.row.adminData then result else none
        (a.issue a.leave w (.finished kept) ack).map fun (w', a') => (w', a', [])
      | _, _ => none
    | _ => none
  | .raise =>
    match a.phase with
    | .gone => none
    | _ => some (w, a.raise, [])
  | .settle s ack =>
    match a.phase with
    | .raised =>
      if s.settles then (a.issue a.leave w s ack).map fun (w', a') => (w', a', []) else none
    | _ => none
  | .crash => some (w, a.leave, [])

/-- A move, by what it has found and what it leaves. -/
inductive MoveCases (a : Execution κ) (prog : Program κ) (w : World) :
    Move → World → Execution κ → List Entry → Prop where
  | load (hphase : a.phase = .claimed) : MoveCases a prog w .load w (a.load w.db) []
  | start {timeout : Option Int} {ack : Bool} {w' : World} {a' : Execution κ}
      (hphase : a.phase = .bound) (h : a.start prog w timeout ack = some (w', a')) :
      MoveCases a prog w (.start timeout ack) w' a' []
  | call {c : κ} {p : Prim} {next : Option Json → κ} (hphase : a.phase = .code c)
      (hhead : prog.head c = .call p next) :
      MoveCases a prog w .call w (a.call w.clock p next) []
  | nest {c fn : κ} {name : String} {next : Option Json → κ} (hphase : a.phase = .code c)
      (hhead : prog.head c = .nest name fn next) :
      MoveCases a prog w .call w (a.nest name fn next) []
  | invoke {p : Prim} {next : Option Json → κ} {result : Except String (Option Json)}
      {a' : Execution κ}
      (hphase : a.phase = .running p next) (h : a.invoke w.clock p next result = some a') :
      MoveCases a prog w (.invoke result) w a' []
  | execute {p : Prim} {next : Option Json → κ} {error : String} {a' : Execution κ}
      (hphase : a.phase = .running p next) (h : a.execute w p next error = some a') :
      MoveCases a prog w (.execute error) w a' []
  | record {started : Int} {ack : Bool} {w' : World} {a' : Execution κ}
      (h : a.record prog w started ack = some (w', a')) :
      MoveCases a prog w (.record started ack) w' a' []
  | commit {started : Int} {lost : Option String} {w' : World} {a' : Execution κ}
      {entries : List Entry} (h : a.commit w started lost = some (w', a', entries)) :
      MoveCases a prog w (.commit started lost) w' a' entries
  | rollback {p : Prim} {error : String}
      (hphase : (∃ next, a.phase = .running p next) ∨
      (∃ next result, a.phase = .inTx p next result) ∨
        ∃ next result, a.phase = .recorded p next result)
      (hatomic : p.atomic) :
      MoveCases a prog w (.rollback error) w { a with phase := .failed a.seq p.name error } []
  | unwind {error key : String} {value : Json} {next : κ}
      (hphase : a.phase = .compacting key value next) :
      MoveCases a prog w (.rollback error) w (a.throw error) []
  | recv {started : Int} {ack expired : Bool} {w' : World} {a' : Execution κ}
      {entries : List Entry} (h : a.recv w started ack expired = some (w', a', entries)) :
      MoveCases a prog w (.recv started ack expired) w' a' entries
  | reschedule {delay : Int} {ack : Bool} {w' : World} {a' : Execution κ}
      (hphase : a.phase = .parked delay)
      (h : a.issue a.leave w (.reschedule delay) ack = some (w', a')) :
      MoveCases a prog w (.reschedule ack) w' a' []
  | publish {ack : Bool} {w' : World} {a' : Execution κ} {entries : List Entry}
      (h : a.publish prog w ack = some (w', a', entries)) :
      MoveCases a prog w (.publish ack) w' a' entries
  | read {c : κ} {key : String} {next : Option Json → κ} (hphase : a.phase = .code c)
      (hhead : prog.head c = .getEvent key next) :
      MoveCases a prog w .read w
        { a with phase := .code (next ((w.db.event.find? (a.row.id, key)).map (·.value))) } []
  | compactFence {a' : Execution κ} (h : a.compactFence prog w = some a') :
      MoveCases a prog w .compactFence w a' []
  | compact {lost : Option String} {w' : World} {a' : Execution κ} {entries : List Entry}
      (h : a.compact w lost = some (w', a', entries)) :
      MoveCases a prog w (.compact lost) w' a' entries
  | finish {c : κ} {result : Option Json} {ack : Bool} {w' : World} {a' : Execution κ}
      (hphase : a.phase = .code c) (hhead : prog.head c = .done result) (hframes : a.frames = [])
      (h : a.issue a.leave w
        (.finished (if savesResult a.row.adminData then result else none)) ack = some (w', a')) :
      MoveCases a prog w (.finish ack) w' a' []
  | raise (hlive : a.phase ≠ .gone) : MoveCases a prog w .raise w a.raise []
  | settle {s : WorkerStmt} {ack : Bool} {w' : World} {a' : Execution κ}
      (hphase : a.phase = .raised) (hsettles : s.settles)
      (h : a.issue a.leave w s ack = some (w', a')) :
      MoveCases a prog w (.settle s ack) w' a' []
  | crash : MoveCases a prog w .crash w a.leave []

section Cases

variable {a a' : Execution κ} {prog : Program κ} {w w' : World} {m : Move} {entries : List Entry}

theorem silent_eq_some {o : Option (World × Execution κ)}
    (h : (o.map fun (w', a') => (w', a', ([] : List Entry))) = some (w', a', entries)) :
    o = some (w', a') ∧ entries = [] := by
  obtain ⟨⟨w₁, a₁⟩, rfl, heq⟩ := Option.map_eq_some_iff.mp h
  cases heq
  exact ⟨rfl, rfl⟩

theorem inner_eq_some {o : Option (Execution κ)}
    (h : (o.map fun a' => (w, a', ([] : List Entry))) = some (w', a', entries)) :
    o = some a' ∧ w' = w ∧ entries = [] := by
  obtain ⟨a₁, rfl, heq⟩ := Option.map_eq_some_iff.mp h
  cases heq
  exact ⟨rfl, rfl, rfl⟩

theorem issue_cases (hm : m.issues) (h : a.move prog w m = some (w', a', entries)) :
    a.MoveCases prog w m w' a' entries := by
  cases m with
  | start =>
    dsimp only [move] at h
    split at h
    · rename_i hphase
      obtain ⟨h₁, rfl⟩ := silent_eq_some h
      exact .start hphase h₁
    · cases h
  | reschedule =>
    dsimp only [move] at h
    split at h
    · rename_i delay hphase
      obtain ⟨h₁, rfl⟩ := silent_eq_some h
      exact .reschedule hphase h₁
    · cases h
  | finish =>
    dsimp only [move] at h
    split at h
    · rename_i c hphase
      split at h
      · rename_i result hhead hframes
        obtain ⟨h₁, rfl⟩ := silent_eq_some h
        exact .finish hphase hhead hframes h₁
      · cases h
    · cases h
  | settle =>
    dsimp only [move] at h
    split at h
    · rename_i hphase
      split at h
      · rename_i hsettles
        obtain ⟨h₁, rfl⟩ := silent_eq_some h
        exact .settle hphase hsettles h₁
      · cases h
    · cases h
  | _ => cases hm

theorem decide_cases (hm : m.decides) (h : a.move prog w m = some (w', a', entries)) :
    a.MoveCases prog w m w' a' entries := by
  cases m with
  | load =>
    dsimp only [move] at h
    split at h
    · rename_i hphase
      cases h
      exact .load hphase
    · cases h
  | call =>
    dsimp only [move] at h
    split at h
    · rename_i c hphase
      split at h
      · rename_i p next hhead
        cases h
        exact .call hphase hhead
      · rename_i name fn next hhead
        cases h
        exact .nest hphase hhead
      · cases h
    · cases h
  | read =>
    dsimp only [move] at h
    split at h
    · rename_i c hphase
      split at h
      · rename_i key next hhead
        cases h
        exact .read hphase hhead
      · cases h
    · cases h
  | raise =>
    dsimp only [move] at h
    split at h
    · cases h
    · rename_i hlive
      cases h
      exact .raise hlive
  | _ => cases hm

theorem rollback_cases {error : String}
    (h : a.move prog w (.rollback error) = some (w', a', entries)) :
    a.MoveCases prog w (.rollback error) w' a' entries := by
  have failed {p : Prim}
      (hphase : (∃ next, a.phase = .running p next) ∨
        (∃ next result, a.phase = .inTx p next result) ∨
        ∃ next result, a.phase = .recorded p next result)
      (h : (if p.atomic then some (w, { a with phase := .failed a.seq p.name error }, [])
        else none) = some (w', a', entries)) :
      a.MoveCases prog w (.rollback error) w' a' entries := by
    split at h
    · rename_i hatomic
      cases h
      exact .rollback hphase hatomic
    · cases h
  dsimp only [move] at h
  split at h
  · rename_i p next hphase
    exact failed (.inl ⟨next, hphase⟩) h
  · rename_i p next result hphase
    exact failed (.inr (.inl ⟨next, result, hphase⟩)) h
  · rename_i p next result hphase
    exact failed (.inr (.inr ⟨next, result, hphase⟩)) h
  · rename_i key value next hphase
    cases h
    exact .unwind hphase
  · cases h

theorem move_cases (h : a.move prog w m = some (w', a', entries)) :
    a.MoveCases prog w m w' a' entries := by
  cases m with
  | load | call | read | raise => exact decide_cases rfl h
  | start | reschedule | finish | settle => exact issue_cases rfl h
  | rollback => exact rollback_cases h
  | invoke =>
    dsimp only [move] at h
    split at h
    · rename_i p next hphase
      obtain ⟨h₁, rfl, rfl⟩ := inner_eq_some h
      exact .invoke hphase h₁
    · cases h
  | execute =>
    dsimp only [move] at h
    split at h
    · rename_i p next hphase
      obtain ⟨h₁, rfl, rfl⟩ := inner_eq_some h
      exact .execute hphase h₁
    · cases h
  | record =>
    obtain ⟨h₁, rfl⟩ := silent_eq_some h
    exact .record h₁
  | commit => exact .commit h
  | recv => exact .recv h
  | publish => exact .publish h
  | compactFence =>
    obtain ⟨h₁, rfl, rfl⟩ := inner_eq_some h
    exact .compactFence h₁
  | compact => exact .compact h
  | crash =>
    cases h
    exact .crash

end Cases

end Execution

end Pyjobby
