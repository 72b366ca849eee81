import Pyjobby.Lib.CancelScope

/-! The one deadline of a job and the budgets of its steps, over whatever the job's code does
on the event loop: it may block it, catch its own cancellation, open deadlines of its own and
run steps inside steps. -/

namespace Pyjobby.Deadlines

open CancelScope

variable {α : Type}

/-- What job code raises. -/
inductive Fault where
  | cancelled
  | timeoutError
  | stepTimeout (name : String) (budget : Int)
  | staleExecution
  | nondeterminism
  | durableSleep
  | error (text : String)
  deriving DecidableEq

/-- Neither a `DXEError`, which is re-raised, nor a cancellation, which `except Exception`
does not catch. -/
def Fault.recorded : Fault → Bool
  | .cancelled | .staleExecution | .nondeterminism => false
  | _ => true

/-- A statement of the step's own. It raises `error`, in the database or in asyncpg before
anything is sent, when there is nothing to wait for; `effect` says whether it takes effect
although its answer is an error, or the wait for it is cancelled. -/
structure Stmt where
  wait : Option Wait
  error : Option String
  effect : Bool

/-- A checkpoint write; a fenced one finds the job superseded and writes nothing. -/
structure Write extends Stmt where
  fenced : Bool

/-- The BEGIN of a `transaction()`, and what it ends with. -/
structure TxStmts where
  begin_ : Stmt
  commit : Stmt
  rollback : Stmt

structure StepCall where
  name : String
  timeout : Option Int
  inTransaction : Option TxStmts
  record : Write
  recordError : Write

/-- Job code, by what it does on the event loop: it goes on after each thing it did as it
likes, told how that ended. -/
inductive Code (α : Type) where
  | done (r : Except Fault α)
  | block (takes : Nat) (next : Code α)
  | suspend (w : Wait) (k : Bool → Code α)
  | timeout (delay : Int) (body : Code α) (k : Bool → Except Fault α → Code α)
  | step (call : StepCall) (body : Code α) (k : Except Fault α → Code α)

structure Job where
  stepTimeout : Option Int
  deadline : Option Int

/-- `_dxe_budget`: a budget is armed only while it is strictly tighter than what the job has
left. -/
def Job.budget (job : Job) (timeout : Option Int) (now : Int) : Option Int :=
  match timeout.or job.stepTimeout with
  | none => none
  | some b =>
    if b = 0 then none
    else if job.deadline.any (fun d => d - now ≤ b) then none
    else some b

/-- What became of one step: `inner` is how its function itself ended, where its transaction
let it begin, `outcome` what `_dxe_invoke` made of that, `raised` what the step's own
statements raised, `result` what the caller got. -/
structure StepTrace (α : Type) where
  call : StepCall
  began : Int
  enclosing : List Scope
  budget : Option Int
  wakes : List Wake
  inner : Option (Except Fault α)
  outcome : Except Fault α
  raised : List Fault
  checkpoint : Option (Except Fault α)
  result : Except Fault α

structure Exec (α : Type) where
  task : Task
  log : List (StepTrace α)

namespace Exec

def wait (e : Exec α) (w : Wait) : Bool × Exec α :=
  ((e.task.suspend w).1, { e with task := (e.task.suspend w).2 })

def waitFor (e : Exec α) : Option Wait → Bool × Exec α
  | none => (false, e)
  | some w => e.wait w

def issue (e : Exec α) (q : Stmt) : Option Fault × Exec α :=
  let answered := e.waitFor q.wait
  (if answered.1 then some .cancelled else q.error.map .error, answered.2)

def block (e : Exec α) (takes : Nat) : Exec α := { e with task := e.task.block takes }

def enter (e : Exec α) (deadline : Int) : Exec α := { e with task := e.task.enter deadline }

def leave (e : Exec α) : Exec α := { e with task := e.task.leave.2 }

def trace (e : Exec α) (τ : StepTrace α) : Exec α := { e with log := e.log ++ [τ] }

end Exec

abbrev Body (α : Type) := Exec α → Except Fault α × Exec α

/-- How `async with asyncio.timeout_at(deadline)` ended: `inner` is how its body did. -/
structure Scoped (α : Type) where
  expired : Bool
  inner : Except Fault α
  result : Except Fault α
  exec : Exec α

/-- A scope turns the cancellation it claims into a `TimeoutError`. -/
def claim (claims : Bool) : Except Fault α → Except Fault α
  | .error .cancelled => .error (if claims then .timeoutError else .cancelled)
  | r => r

def withTimeout (deadline : Int) (body : Body α) (e : Exec α) : Scoped α :=
  let inside := body (e.enter deadline)
  let exit := inside.2.task.leave.1
  ⟨exit.expired, inside.1, claim exit.claims inside.1, inside.2.leave⟩

/-- What `_execute` and `_dxe_invoke` both do with their scope: once it has expired, a
`TimeoutError` out of it is its own, and a normal return out of it is refused. -/
def refuse {ε : Type} (expired : Bool) (expiry : ε) (lift : Fault → ε) :
    Except Fault α → Except ε α
  | .ok v => if expired then .error expiry else .ok v
  | .error .timeoutError => .error (if expired then expiry else lift .timeoutError)
  | .error f => .error (lift f)

structure Invoked (α : Type) where
  budget : Option Int
  inner : Except Fault α
  outcome : Except Fault α
  exec : Exec α

/-- `_dxe_invoke`. -/
def Job.invoke (job : Job) (call : StepCall) (body : Body α) (e : Exec α) : Invoked α :=
  match job.budget call.timeout e.task.clock with
  | none =>
    let ran := body e
    ⟨none, ran.1, ran.1, ran.2⟩
  | some b =>
    let bounded := withTimeout (e.task.clock + b) body e
    ⟨some b, bounded.inner, refuse bounded.expired (.stepTimeout call.name b) id bounded.result,
      bounded.exec⟩

structure Settled (α : Type) where
  raised : List Fault
  checkpoint : Option (Except Fault α)
  result : Except Fault α
  exec : Exec α

structure Written (α : Type) where
  fault : Option Fault
  effect : Bool
  exec : Exec α

/-- `_dxe_record`. -/
def Exec.write (e : Exec α) (q : Write) : Written α :=
  let answered := e.issue q.toStmt
  match answered.1 with
  | none => ⟨if q.fenced then some .staleExecution else none, !q.fenced, answered.2⟩
  | some f => ⟨some f, q.effect && !q.fenced, answered.2⟩

namespace StepCall

/-- The `except` clauses of `step()` and `transaction()`; an error does not replace the success
`stands` that is committed already. -/
def fail (call : StepCall) (e : Exec α) (raised : List Fault) (stands : Option α) (f : Fault) :
    Settled α :=
  if f.recorded then
    let written := e.write call.recordError
    { raised := raised ++ written.fault.toList
      checkpoint :=
        match stands with
        | some v => some (.ok v)
        | none => if written.effect then some (.error f) else none
      result := .error (written.fault.getD f)
      exec := written.exec }
  else ⟨raised, stands.map .ok, .error f, e⟩

/-- `transaction()` rolls back before the error gets a checkpoint of its own. -/
def rollBack (call : StepCall) (tx : TxStmts) (e : Exec α) (raised : List Fault) (f : Fault) :
    Settled α :=
  let back := e.issue tx.rollback
  match back.1 with
  | none => call.fail back.2 raised none f
  | some g => call.fail back.2 (raised ++ [g]) none g

/-- What `step()` and `transaction()` do once `_dxe_invoke` is back. -/
def settle (call : StepCall) (e : Exec α) (outcome : Except Fault α) : Settled α :=
  match call.inTransaction, outcome with
  | none, .error f => call.fail e [] none f
  | none, .ok v =>
    let written := e.write call.record
    { raised := written.fault.toList
      checkpoint := if written.effect then some (.ok v) else none
      result := written.fault.elim (.ok v) .error
      exec := written.exec }
  | some tx, .error f => call.rollBack tx e [] f
  | some tx, .ok v =>
    let written := e.write call.record
    match written.fault with
    | some f => call.rollBack tx written.exec [f] f
    | none =>
      let closed := written.exec.issue tx.commit
      match closed.1 with
      | none => ⟨[], some (.ok v), .ok v, closed.2⟩
      | some f => call.fail closed.2 [f] (if tx.commit.effect then some v else none) f

def begin_ (call : StepCall) (e : Exec α) : Option Fault × Exec α :=
  match call.inTransaction with
  | none => (none, e)
  | some tx => e.issue tx.begin_

end StepCall

/-- An executed `step()` or `transaction()`. -/
def Job.step (job : Job) (call : StepCall) (body : Body α) (e : Exec α) : Except Fault α × Exec α :=
  let begun := call.begin_ e
  let task := begun.2.task
  match begun.1 with
  | some f =>
    let settled := call.fail begun.2 [f] none f
    (settled.result, settled.exec.trace
      { call, began := task.clock, enclosing := task.scopes, budget := none
        wakes := [], inner := none, outcome := .error f, raised := settled.raised
        checkpoint := settled.checkpoint, result := settled.result })
  | none =>
    let ran := job.invoke call body begun.2
    let settled := call.settle ran.exec ran.outcome
    (settled.result, settled.exec.trace
      { call, began := task.clock, enclosing := task.scopes, budget := ran.budget
        wakes := ran.exec.task.wakes.drop task.wakes.length
        inner := some ran.inner, outcome := ran.outcome, raised := settled.raised
        checkpoint := settled.checkpoint, result := settled.result })

def Code.run (job : Job) : Code α → Body α
  | .done r, e => (r, e)
  | .block takes next, e => next.run job (e.block takes)
  | .suspend w k, e =>
    let woken := e.wait w
    (k woken.1).run job woken.2
  | .timeout delay body k, e =>
    let bounded := withTimeout (e.task.clock + delay) (body.run job) e
    (k bounded.expired bounded.result).run job bounded.exec
  | .step call body k, e =>
    let stepped := job.step call (body.run job) e
    (k stepped.1).run job stepped.2

/-- What comes out of `_execute`. -/
inductive Raised where
  | jobTimeout (limit : Int)
  | fault (f : Fault)
  deriving DecidableEq

/-- Somebody else cancels the task: an operator, or what shuts the worker down. -/
structure Request where
  at_ : Int
  operator : Bool

structure Attempt (α : Type) where
  code : Code α
  stepTimeout : Option Int
  jobTimeout : Option Int
  /-- When the deadline is set and the task created, and how long until the loop starts it. -/
  clock : Int
  startup : Wait
  requests : List Request

namespace Attempt

def deadline (a : Attempt α) : Option Int :=
  match a.jobTimeout with
  | none => none
  | some t => if t = 0 then none else some (a.clock + t)

def job (a : Attempt α) : Job := ⟨a.stepTimeout, a.deadline⟩

/-- The task before it starts: a request to cancel it is a timer that nobody takes back. -/
def created (a : Attempt α) : Exec α :=
  ⟨⟨a.clock, a.requests.map fun r => ⟨r.at_, 0, false⟩, 0, []⟩, []⟩

structure Executed (α : Type) where
  wakes : List Wake
  inner : Except Fault α
  result : Except Raised α
  exec : Exec α

/-- `_execute`, in the task `_process` creates for it. -/
def execute (a : Attempt α) : Executed α :=
  let started := a.created.wait a.startup
  if started.1 then ⟨[], .error .cancelled, .error (.fault .cancelled), started.2⟩
  else
    match a.deadline, a.jobTimeout with
    | some d, some limit =>
      let bounded := withTimeout d (a.code.run a.job) started.2
      ⟨bounded.exec.task.wakes.drop started.2.task.wakes.length, bounded.inner,
        refuse bounded.expired (.jobTimeout limit) .fault bounded.result, bounded.exec⟩
    | _, _ =>
      let ran := a.code.run a.job started.2
      ⟨ran.2.task.wakes.drop started.2.task.wakes.length, ran.1, ran.1.mapError .fault, ran.2⟩

/-- `_cancel_current`, which an operator's request sets as it cancels the task. -/
def cancelCurrent (a : Attempt α) : Bool :=
  (a.requests.zip a.execute.exec.task.scopes).any fun p => p.1.operator && p.2.fired

end Attempt

/-- Which arm of `_process` records the end of an attempt. -/
inductive Verdict (α : Type) where
  | finished (v : α)
  | slept
  | timedOut (limit : Int)
  | superseded
  | cancelled
  /-- A cancellation that is re-raised into the worker itself. -/
  | escaped
  | failed (f : Fault)

def Verdict.of (cancelCurrent : Bool) : Except Raised α → Verdict α
  | .ok v => .finished v
  | .error (.fault .durableSleep) => .slept
  | .error (.jobTimeout limit) => .timedOut limit
  | .error (.fault .staleExecution) => .superseded
  | .error (.fault .cancelled) => if cancelCurrent then .cancelled else .escaped
  | .error (.fault f) => .failed f

end Pyjobby.Deadlines
