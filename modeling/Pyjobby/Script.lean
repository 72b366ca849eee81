import Pyjobby.Lib.Run
import Pyjobby.Schema
import Mathlib.Data.List.Basic

/-! Code made of durable primitives, the steps of which may call primitives in turn,
and the attempts at it, one after the other over one log. A primitive takes the next
number when it is called; its checkpoint is found, and written, under that number. -/

namespace Pyjobby

namespace Script

open Transition

/-- What a primitive returns to the code that called it, or raises there. -/
abbrev Outcome := Except String (Option Json)

/-- What the code does next. `fn` is the function of a step that calls primitives
itself. -/
inductive Turn (κ : Type) where
  | ret (result : Option Json)
  | raise (error : String)
  | call (name : String) (fn : Option κ) (next : Outcome → κ)
  | commitPosition (value : Json) (next : κ)

/-- Deterministic code: it starts from the position it has published last, and goes on
by the outcomes of its primitives alone. -/
structure Code (κ : Type) where
  entry : Option Json → κ
  head : κ → Turn κ

/-- Which primitive of the code it is: how the code has come to call it, in the function
it is called in and in each function around that, the innermost first. -/
structure Site (κ : Type) where
  position : Option Json
  levels : List (List κ)

/-- A row of `jorb_step`, and where its primitive was called. -/
structure Checkpoint (κ : Type) where
  name : String
  output : Option Json
  error : Option String
  site : Site κ

abbrev Log (κ : Type) := Nat → Option (Checkpoint κ)

variable {κ : Type}

def Checkpoint.of (name : String) (site : Site κ) : Outcome → Checkpoint κ
  | .ok output => ⟨name, output, none, site⟩
  | .error e => ⟨name, none, some e, site⟩

/-- `RECORD_STEP_SQL`: an error does not overwrite a success. -/
def Log.write (log : Log κ) (seq : Nat) (row : Checkpoint κ) : Log κ := fun n =>
  if n = seq then
    match log seq with
    | some old => if old.error.isNone && row.error.isSome then some old else some row
    | none => some row
  else log n

/-- For the history: a number handed out, and the checkpoint found under it. -/
structure Allocation (κ : Type) where
  seq : Nat
  name : String
  site : Site κ
  found : Option (Checkpoint κ)

/-- For the history: a call that is over, and where the code goes on. It is `whole` unless
its function calls primitives and has been skipped, or cut short. -/
structure Done (κ : Type) where
  seq : Nat
  outcome : Outcome
  code : κ
  whole : Bool

inductive Mark (κ : Type) where
  | call
  | enter
  | done (code : κ)
  | cut (code : κ)

def Done.mark (d : Done κ) : Mark κ := if d.whole then .done d.code else .cut d.code

/-- A step whose function is running, and the way to it. -/
structure Frame (κ : Type) where
  seq : Nat
  name : String
  next : Outcome → κ
  passed : List κ

inductive Pos (κ : Type) where
  | code (c : κ)
  | called (name : String) (fn : Option κ) (next : Outcome → κ)

/-- Where the code stands; `seq` is the number taken last. `passed` is where it has gone
on after each call in the innermost function. -/
structure Control (κ : Type) where
  seq : Nat
  pos : Pos κ
  frames : List (Frame κ)
  passed : List κ

/-- An attempt: the checkpoints bound to it and where its code stands. The rest is
history: the calls that are over, where it has gone on after failures before it called
again, and what it has done so far. -/
structure Attempt (κ : Type) where
  steps : Log κ
  control : Control κ
  done : List (Done κ)
  wentOn : List (Nat × κ)
  marks : List (Mark κ)

/-- The job. `allocations` and `survived`, where earlier attempts have gone on after
failures, are history as far back as the log. -/
structure Job (κ : Type) where
  log : Log κ
  position : Option Json
  attempt : Option (Attempt κ)
  allocations : List (Allocation κ)
  survived : List (Nat × κ)
  diverged : Bool

/-- `write` says that the checkpoint was written, `lost` is the error raised when it was
not, or when the code was not told. A function is interrupted by its budget; a sleep leaves
once its checkpoint is written. -/
inductive Act where
  | start
  | call
  | enter
  | settle (result : Outcome) (write : Bool) (lost : Option String)
  | return_ (write : Bool) (lost : Option String)
  | interrupt (error : String) (write : Bool) (lost : Option String)
  | commit (answered : Bool)
  | leave

instance : Inhabited Act := ⟨.start⟩

def failures (done : List (Done κ)) : List (Nat × κ) :=
  done.filterMap fun d =>
    match d.outcome with
    | .error _ => some (d.seq, d.code)
    | .ok _ => none

/-- The end of the code's function. -/
def Turn.result : Turn κ → Option Outcome
  | ret result => some (.ok result)
  | raise e => some (.error e)
  | _ => none

namespace Control

def start (c : κ) : Control κ := ⟨0, .code c, [], []⟩

def levels (k : Control κ) : List (List κ) := k.passed :: k.frames.map Frame.passed

def allocate (k : Control κ) (name : String) (fn : Option κ) (next : Outcome → κ) : Control κ :=
  { k with seq := k.seq + 1, pos := .called name fn next }

def enter (k : Control κ) (name : String) (c : κ) (next : Outcome → κ) : Control κ :=
  { k with
    pos := .code c, frames := ⟨k.seq, name, next, k.passed⟩ :: k.frames, passed := [] }

def complete (k : Control κ) (c : κ) : Control κ :=
  { k with pos := .code c, passed := k.passed ++ [c] }

def pop (k : Control κ) (f : Frame κ) (fs : List (Frame κ)) (c : κ) : Control κ :=
  { k with pos := .code c, frames := fs, passed := f.passed ++ [c] }

end Control

namespace Attempt

def new (log : Log κ) (c : κ) : Attempt κ := ⟨log, .start c, [], [], []⟩

def call (a : Attempt κ) (name : String) (fn : Option κ) (next : Outcome → κ) : Attempt κ :=
  { a with
    control := a.control.allocate name fn next
    wentOn := failures a.done
    marks := a.marks ++ [.call] }

def complete (a : Attempt κ) (k : Control κ) (d : Done κ) : Attempt κ :=
  { a with control := k, done := a.done ++ [d], marks := a.marks ++ [d.mark] }

end Attempt

namespace Job

def leave (s : Job κ) (a : Attempt κ) : Job κ :=
  { s with attempt := none, survived := a.wentOn ++ s.survived }

/-- The number the attempt has just taken. -/
def allocate (s : Job κ) (a : Attempt κ) (name : String) : Job κ :=
  let k := a.control
  { s with
    allocations := s.allocations ++ [⟨k.seq, name, ⟨s.position, k.levels⟩, a.steps k.seq⟩] }

/-- `_dxe_resume`. A name mismatch ends the attempt. -/
def call (s : Job κ) (a : Attempt κ) (name : String) (fn : Option κ) (next : Outcome → κ) : Job κ :=
  let a := a.call name fn next
  let s := s.allocate a name
  let k := a.control
  match a.steps k.seq with
  | none => { s with attempt := some a }
  | some row =>
    if row.name ≠ name then { s.leave a with diverged := true }
    else if row.error.isNone then
      let c := next (.ok row.output)
      { s with
        attempt := some (a.complete (k.complete c) ⟨k.seq, .ok row.output, c, fn.isNone⟩) }
    else { s with attempt := some a }

/-- The function of a call is over; its checkpoint, and what the code is told. -/
def record (s : Job κ) (a : Attempt κ) (seq : Nat) (name : String) (levels : List (List κ))
    (whole : Bool) (result : Outcome) (write : Bool) (lost : Option String) (next : Outcome → κ)
    (go : κ → Control κ) : Option (Job κ) :=
  if lost.isNone && !write then none
  else
    let o : Outcome := lost.elim result .error
    let row := Checkpoint.of name ⟨s.position, levels⟩ result
    some
      { s with
        log := if write then s.log.write seq row else s.log
        attempt := some (a.complete (go (next o)) ⟨seq, o, next o, whole⟩) }

def settle (s : Job κ) (a : Attempt κ) (result : Outcome) (write : Bool) (lost : Option String) :
    Option (Job κ) :=
  let k := a.control
  match k.pos with
  | .called name none next =>
    s.record a k.seq name k.levels true result write lost next k.complete
  | _ => none

def return_ (code : Code κ) (s : Job κ) (a : Attempt κ) (write : Bool) (lost : Option String) :
    Option (Job κ) :=
  let k := a.control
  match k.pos, k.frames with
  | .code c, f :: fs =>
    (code.head c).result.bind fun result =>
      s.record a f.seq f.name (f.passed :: fs.map Frame.passed) true result write lost f.next
        (k.pop f fs)
  | _, _ => none

def interrupt (s : Job κ) (a : Attempt κ) (error : String) (write : Bool)
    (lost : Option String) : Option (Job κ) :=
  let k := a.control
  match k.pos, k.frames with
  | .code _, f :: fs =>
    s.record a f.seq f.name (f.passed :: fs.map Frame.passed) false (.error error) write lost
      f.next (k.pop f fs)
  | _, _ => none

/-- `commit_position`: the position is published, the log and the numbers start anew.
An exception out of it ends the attempt. -/
def commit (s : Job κ) (a : Attempt κ) (value : Json) (next : κ) (answered : Bool) : Job κ where
  log _ := none
  position := some value
  attempt :=
    if answered then
      some
        { steps := fun _ => none
          control := { a.control with seq := 0, pos := .code next, passed := [] }
          done := []
          wentOn := []
          marks := [] }
    else none
  allocations := []
  survived := []
  diverged := s.diverged

def step (code : Code κ) (s : Job κ) : Act → Option (Job κ)
  | .start =>
    match s.attempt with
    | none => some { s with attempt := some (.new s.log (code.entry s.position)) }
    | some _ => none
  | .call =>
    s.attempt.bind fun a =>
      match a.control.pos with
      | .code c =>
        match code.head c with
        | .call name fn next => some (s.call a name fn next)
        | _ => none
      | .called _ _ _ => none
  | .enter =>
    s.attempt.bind fun a =>
      match a.control.pos with
      | .called name (some c) next =>
        some
          { s with
            attempt := some
              { a with control := a.control.enter name c next, marks := a.marks ++ [.enter] } }
      | _ => none
  | .settle result write lost => s.attempt.bind fun a => s.settle a result write lost
  | .return_ write lost => s.attempt.bind fun a => s.return_ code a write lost
  | .interrupt error write lost => s.attempt.bind fun a => s.interrupt a error write lost
  | .commit answered =>
    s.attempt.bind fun a =>
      match a.control.pos with
      | .code c =>
        match code.head c with
        | .commitPosition value next => some (s.commit a value next answered)
        | _ => none
      | .called _ _ _ => none
  | .leave => s.attempt.map s.leave

/-- A job enqueued with these checkpoints. -/
def init (log : Log κ) : Job κ := ⟨log, none, none, [], [], false⟩

/-- A number belongs to one primitive and a primitive has one number, the checkpoint
found is the primitive's own, and no attempt finds the code to have changed. -/
def Stable (s : Job κ) : Prop :=
  s.diverged = false ∧ ∀ x ∈ s.allocations,
    (∀ y ∈ s.allocations, x.seq = y.seq ↔ x.site = y.site) ∧
      ∀ row, x.found = some row → row.name = x.name ∧ row.site = x.site

/-- The attempt has passed a call without its function having run to its end, or has gone
on elsewhere than an earlier attempt did after the failure of that call. -/
def Strays (s : Job κ) (a : Attempt κ) : Prop :=
  ∃ d ∈ a.done, d.whole = false ∨ ∃ c, (d.seq, c) ∈ s.survived ∧ d.code ≠ c

/-- No attempt calls after it has strayed; a position is committed outside of steps, and
the code goes on as it would start from there. -/
def Orderly (code : Code κ) (s : Job κ) : Act → Prop
  | .call => ∀ a, s.attempt = some a → ¬s.Strays a
  | .commit _ => ∀ a c value next, s.attempt = some a → a.control.pos = .code c →
      code.head c = .commitPosition value next →
        a.control.frames = [] ∧ next = code.entry (some value)
  | _ => True

end Job

end Script

end Pyjobby
