import Pyjobby.Execution
import Pyjobby.Fsm
import Pyjobby.Script

/-! `StateMachineJob`: a job whose code is the loop over a declared table. Its state is
the position it publishes, its progress the log, and its input a mailbox; the attempts at it
are those of any code, with the messages its `recv` takes. -/

namespace Pyjobby

/-- A message waiting for a job; the column takes no null. -/
structure Message where
  body : Json
  present : body ≠ .null

/-- What the code of an action or a hook does next. -/
inductive Task (κ : Type) where
  | ret (result : Option Json)
  | raise (error : String)
  | call (p : Prim) (next : Script.Outcome → κ)
  | nest (name : String) (fn : κ) (next : Script.Outcome → κ)

/-- A subclass of `StateMachineJob`, as its class creation accepts it. `body` is its own
code, `repr` what `str` makes of anything but a string. -/
structure StateMachineJob (κ : Type) where
  transitions : Fsm.TransitionSpec
  initial : String
  final : List String
  topic : String
  idleSeconds : Int
  action : String → Option (String → Json → κ)
  onUnhandled : String → String → Json → κ
  body : κ → Task κ
  repr : Json → String
  valid : Fsm.validate (Fsm.normalize transitions) initial final
    (some fun name => (action name).isSome) = .ok ()

/-- One turn: a transition, or an event that is dropped. -/
structure MachineTurn where
  source : String
  message : Json
  target : String

namespace StateMachineJob

/-- Where `task` stands. In `acting` it comes to the step of a transition; `hook` and
`inside` are the subclass's code, outside of any step and in the function of one. -/
inductive Place (κ : Type) where
  | loop (state : String)
  | idle (state : String)
  | acting (target name : String) (c : κ)
  | hook (state : String) (c : κ)
  | boundary (state : String)
  | inside (c : κ)
  | failed (error : String)

variable {κ : Type} (m : StateMachineJob κ)

def edges : Fsm.EdgeTable := Fsm.normalize m.transitions

def str : Json → String
  | .str s => s
  | x => m.repr x

def currentState (published : Option Json) : String :=
  match published.bind (Json.get? "state") with
  | some state => m.str state
  | none => m.initial

def position (state : String) : Json := .obj [("state", .str state)]

def event (payload : Json) : String :=
  match payload with
  | .obj fields => ((fields.lookup "event").map m.str).getD ""
  | _ => ""

def edge (state event : String) : Option Fsm.Transition :=
  (m.edges.lookup state).bind (List.lookup event)

/-- What follows the `recv` of the loop. -/
def received (state : String) : Script.Outcome → Place κ
  | .error e => .failed e
  | .ok none | .ok (some .null) => .idle state
  | .ok (some payload) =>
    let event := m.event payload
    match m.edge state event with
    | none => .hook state (m.onUnhandled state event payload)
    | some edge =>
      match edge.action with
      | none => .boundary edge.target
      | some name =>
        match m.action name with
        | some act =>
          .acting edge.target (state ++ "--" ++ event ++ "->" ++ edge.target) (act event payload)
        | none => .failed "AttributeError"

/-- An exception that leaves `task` ends the attempt. -/
def andThen (c : Place κ) : Script.Outcome → Place κ
  | .ok _ => c
  | .error e => .failed e

/-- `_turn_boundary`. At a final state it publishes without a turn of the script. -/
def turnBoundary (state : String) : Script.Turn (Place κ) :=
  if state ∈ m.final then .ret none else .commitPosition (position state) (.loop state)

def turn : Place κ → Script.Turn (Place κ)
  | .loop state =>
    if state ∈ m.final then .ret none
    else .call (Prim.recv (some m.topic)).name none (m.received state)
  | .idle state => .call (Prim.sleep m.idleSeconds).name none (andThen (.boundary state))
  | .acting target name c => .call name (some (.inside c)) (andThen (.boundary target))
  | .boundary state => m.turnBoundary state
  | .hook state c =>
    match m.body c with
    | .ret _ => m.turnBoundary state
    | .raise e => .raise e
    | .call p next => .call p.name none fun o => .hook state (next o)
    | .nest name fn next => .call name (some (.inside fn)) fun o => .hook state (next o)
  | .inside c =>
    match m.body c with
    | .ret result => .ret result
    | .raise e => .raise e
    | .call p next => .call p.name none fun o => .inside (next o)
    | .nest name fn next => .call name (some (.inside fn)) fun o => .inside (next o)
  | .failed e => .raise e

/-- `task`, after its entry publish. -/
def code : Script.Code (Place κ) := ⟨fun published => .loop (m.currentState published), m.turn⟩

/-- The primitive that the code calls here itself. -/
def asks : Place κ → Option Prim
  | .loop _ => some (.recv (some m.topic))
  | .idle _ => some (.sleep m.idleSeconds)
  | .hook _ c | .inside c =>
    match m.body c with
    | .call p _ => some p
    | _ => none
  | _ => none

/-- A `recv` that takes the messages of the machine's own topic. -/
def takes : Prim → Bool
  | .recv topic => topic.all (· = m.topic)
  | _ => false

/-- The declared machine: where a message leads to. An event without an edge is dropped. -/
def react (state : String) (x : Message) : String :=
  ((m.edge state (m.event x.body)).map (·.target)).getD state

def turnsFrom (state : String) : List Message → List MachineTurn
  | [] => []
  | x :: xs => ⟨state, x.body, m.react state x⟩ :: turnsFrom (m.react state x) xs

/-- Its turns, one for each message. -/
def turns (xs : List Message) : List MachineTurn := m.turnsFrom m.initial xs

def after (xs : List Message) : String := xs.foldl m.react m.initial

def takenFrom (state : String) : List Message → List Message
  | [] => []
  | x :: xs => if state ∈ m.final then [] else x :: takenFrom (m.react state x) xs

/-- The messages up to the one that leads to a final state. -/
def taken (xs : List Message) : List Message := m.takenFrom m.initial xs

end StateMachineJob

open StateMachineJob

/-- The job, the primitive its attempt has called last, and its topic's part of the mailbox.
`consumed` and `turns` are history: the messages taken, and the turns that were published. -/
structure Machine (κ : Type) where
  job : Script.Job (Place κ)
  asked : Option Prim
  pending : List Message
  consumed : List Message
  turns : List MachineTurn
  returned : Bool

/-- `write` says that a statement was committed, `lost` is the error of a connection that
did not tell. -/
inductive MachineAct where
  | arrive (x : Message)
  | script (a : Script.Act)
  | receive (timedOut write : Bool) (lost : Option String)
  | publish (answered : Bool)
  | finish

instance : Inhabited MachineAct := ⟨.finish⟩

namespace Machine

variable {κ : Type}

/-- A machine enqueued, with these messages waiting for it. -/
def init (xs : List Message) : Machine κ := ⟨.init fun _ => none, none, xs, [], [], false⟩

/-- The turn that the log explains, from the message its first checkpoint holds. -/
def explained (m : StateMachineJob κ) (s : Machine κ) (target : String) : List MachineTurn :=
  ((s.job.log 1).bind (·.output)).toList.map fun x =>
    ⟨m.currentState s.job.position, x, target⟩

/-- `current_state` and the entry publish, and the loop is entered. -/
def start (m : StateMachineJob κ) (s : Machine κ) : Option (Machine κ) :=
  if s.returned then none
  else
    let state := m.currentState s.job.position
    ({ s.job with position := some (position state) }.step m.code .start).map fun job =>
      { s with job }

/-- The primitive that the attempt's code calls next. -/
def asks (m : StateMachineJob κ) (s : Machine κ) : Option Prim :=
  s.job.attempt.bind fun a =>
    match a.control.pos with
    | .code c => m.asks c
    | .called _ _ _ => none

/-- A `sleep` writes its checkpoint and leaves, by raising. -/
def mayReturn (s : Machine κ) (lost : Option String) : Bool :=
  match s.asked with
  | some (.sleep _) => lost.isSome
  | _ => true

def scripted (m : StateMachineJob κ) (s : Machine κ) (a : Script.Act) : Option (Machine κ) :=
  match a with
  | .start => s.start m
  | .call => (s.job.step m.code a).map fun job => { s with job, asked := s.asks m }
  | .settle _ _ lost =>
    if s.asked.any m.takes || !s.mayReturn lost then none
    else (s.job.step m.code a).map fun job => { s with job }
  | .commit _ =>
    (s.job.step m.code a).map fun job =>
      { s with job, turns := s.turns ++ s.explained m (m.currentState job.position) }
  | _ => (s.job.step m.code a).map fun job => { s with job }

/-- `RECV_SQL`: the oldest message is consumed and checkpointed, in one statement. Where none
has been found until the timeout, a second one checkpoints that. -/
def receive (m : StateMachineJob κ) (s : Machine κ) (timedOut write : Bool)
    (lost : Option String) : Option (Machine κ) :=
  if s.asked.any m.takes then
    let x := if timedOut then none else s.pending.head?
    (s.job.step m.code (.settle (.ok (x.map Message.body)) write lost)).map fun job =>
      if write then
        { s with
          job
          pending := if timedOut then s.pending else s.pending.tail
          consumed := s.consumed ++ x.toList }
      else { s with job }
  else none

/-- The publish of a final state, which leaves the log alone. -/
def publish (m : StateMachineJob κ) (s : Machine κ) (answered : Bool) : Option (Machine κ) :=
  s.job.attempt.bind fun a =>
    match a.control.pos, a.control.frames with
    | .code (.boundary state), [] =>
      if state ∈ m.final then
        let a' : Script.Attempt (Place κ) :=
          { a with control := { a.control with pos := .code (.loop state) } }
        let job := { s.job with position := some (position state) }
        some
          { s with
            job := if answered then { job with attempt := some a' } else job.leave a
            turns := s.turns ++ s.explained m state }
      else none
    | _, _ => none

/-- `task` returns from its loop at a final state, and the job is finished. -/
def finish (m : StateMachineJob κ) (s : Machine κ) : Option (Machine κ) :=
  s.job.attempt.bind fun a =>
    match a.control.pos, a.control.frames with
    | .code (.loop state), [] =>
      if state ∈ m.final then some { s with job := s.job.leave a, returned := true } else none
    | _, _ => none

def step (m : StateMachineJob κ) (s : Machine κ) : MachineAct → Option (Machine κ)
  | .arrive x => some { s with pending := s.pending ++ [x] }
  | .script a => s.scripted m a
  | .receive timedOut write lost => s.receive m timedOut write lost
  | .publish answered => s.publish m answered
  | .finish => s.finish m

/-- No attempt calls after it has strayed, and the subclass's own code takes no message of
the machine's topic. -/
def Tidy (m : StateMachineJob κ) (s : Machine κ) : MachineAct → Prop
  | .script .call => ∀ a, s.job.attempt = some a → ¬s.job.Strays a ∧
      ∀ c, a.control.pos = .code c → (∀ state, c ≠ .loop state) → (m.asks c).all (!m.takes ·)
  | _ => True

/-- The log holds the answer `v` of the turn's `recv`. -/
def Answered (s : Machine κ) (v : Option Json) : Prop :=
  ∃ row, s.job.log 1 = some row ∧ row.error = none ∧ row.output = v

/-- The machine has come as far as its messages lead it. -/
def Ended (s : Machine κ) : Prop :=
  s.returned ∨ s.pending = [] ∧ ∀ x, ¬s.Answered (some x)

end Machine

end Pyjobby
