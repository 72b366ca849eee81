import Pyjobby.Lib.Binary64
import Pyjobby.Statements

/-! The retry settings a row carries: how `build_enqueue_row` merges them, and the
delay `retry_strategies` makes of them, with Python's arithmetic on whatever JSON
values they are. -/

namespace Pyjobby

open Ieee

/-- The exceptions that values of the wrong kind or size raise. -/
inductive PyError where
  | typeError
  | valueError
  | overflowError
  | dataError
  | cancelledError
  deriving DecidableEq

theorem bind_eq_ok {ε α β : Type} {x : Except ε α} {f : α → Except ε β} {b : β} :
    x >>= f = .ok b ↔ ∃ a, x = .ok a ∧ f a = .ok b := by
  cases x with
  | error e => simp [bind, Except.bind]
  | ok a => simp [bind, Except.bind]

/-- A Python number; a bool counts as an int. -/
inductive PyNum where
  | int (n : Int)
  | float (x : Binary64)

namespace PyNum

def toFloat : PyNum → Except PyError Binary64
  | float x => .ok x
  | int n =>
    match Binary64.round n with
    | .finite q => .ok (.finite q)
    | _ => .error .overflowError

def mul : PyNum → PyNum → Except PyError PyNum
  | int m, int n => .ok (int (m * n))
  | a, b => do return float ((← a.toFloat).mul (← b.toFloat))

/-- `n < self`; an int compares with a float by their exact values. -/
def exceeds (n : Int) : PyNum → Bool
  | int m => n < m
  | float (.finite q) => (n : Rat) < q
  | float (.inf s) => !s
  | float .nan => false

end PyNum

namespace Json

def get? (key : String) : Json → Option Json
  | obj fields => fields.lookup key
  | _ => none

/-- The value as an operand of arithmetic. A str or a list times an int is no
TypeError by itself, but the multiplication by 0.1 that follows is one. -/
def num? : Json → Option PyNum
  | bool b => some (.int b.toNat)
  | int n => some (.int n)
  | float x => some (.float (.finite x))
  | _ => none

def number (v : Json) : Except PyError PyNum :=
  match v.num? with
  | some n => .ok n
  | none => .error .typeError

end Json

inductive RetryStrategy where
  | fixed
  | quadratic
  | exponential
  | linear
  | fibonacci
  deriving DecidableEq

namespace RetryStrategy

def names : List (String × RetryStrategy) :=
  [("fixed", fixed), ("quadratic", quadratic), ("exponential", exponential), ("linear", linear),
    ("fibonacci", fibonacci)]

/-- Anything that is not the name of a strategy is treated as exponential. -/
def ofJson : Json → RetryStrategy
  | .str s => (names.lookup s).getD exponential
  | _ => exponential

end RetryStrategy

/-- The defaults of `retry_strategies`. -/
structure RetryDefaults where
  strategy : Json := .str "exponential"
  maxRetries : Json := .int 10
  initialRetryDelay : Json := .int 1
  maxRetryDelay : Json := .int 3600

structure RetryConfig where
  retryStrategy : Json
  maxRetries : Json
  initialRetryDelay : Json
  maxRetryDelay : Json

def getRetryConfig (adminData : Json) : RetryConfig :=
  let defaults : RetryDefaults := {}
  { retryStrategy := (adminData.get? "retry_strategy").getD defaults.strategy
    maxRetries := (adminData.get? "max_retries").getD defaults.maxRetries
    initialRetryDelay := (adminData.get? "initial_retry_delay").getD defaults.initialRetryDelay
    maxRetryDelay := (adminData.get? "max_retry_delay").getD defaults.maxRetryDelay }

/-- `on_timeout` asks for a retry. -/
def retriesOnTimeout (adminData : Json) : Bool :=
  match adminData.get? "on_timeout" with
  | none => true
  | some (.str s) => s = "retry"
  | some _ => false

def fibPair : Nat → Int × Int
  | 0 => (1, 1)
  | n + 1 => ((fibPair n).2, (fibPair n).1 + (fibPair n).2)

/-- 1, 1, 2, 3, 5, .. from `n = 1`. -/
def fib (n : Nat) : Int :=
  if n = 0 then 0 else if n ≤ 2 then 1 else (fibPair (n - 2)).2

/-- `2.0 ** n`. -/
def powTwo (n : Nat) : Except PyError Binary64 :=
  if n < 1024 then .ok (.finite ((2 : Rat) ^ n)) else .error .overflowError

/-- The delay before jitter and cap. -/
def baseDelay (errorCount : Nat) (strategy : RetryStrategy) (initialDelay : Json) :
    Except PyError PyNum :=
  match strategy with
  | .fixed => initialDelay.number
  | .quadratic => do (← initialDelay.number).mul (.int (Int.pow errorCount 2))
  | .linear => do (← initialDelay.number).mul (.int errorCount)
  | .fibonacci => do (← initialDelay.number).mul (.int (fib errorCount))
  | .exponential => do
    let p ← powTwo (errorCount - 1)
    (← initialDelay.number).mul (.float p)

/-- `min(x, y)`: the first unless the second is smaller. -/
def pyMin (x y : Binary64) : Binary64 := if y.lt x then y else x

/-- A timedelta in microseconds. The fraction of a second is scaled on its own. -/
def timedelta (seconds : Binary64) : Except PyError Int :=
  match seconds with
  | .nan => .error .valueError
  | .inf _ => .error .overflowError
  | .finite q =>
    let whole : Int := if q < 0 then q.ceil else q.floor
    match Binary64.round ((q - whole) * 1000000) with
    | .finite f =>
      let us := whole * 1000000 + roundEven f
      if (us / 86400000000).natAbs ≤ 999999999 then .ok us else .error .overflowError
    | _ => .error .overflowError

section Delay

-- What `float()` makes of a string, if it accepts it.
variable (floatOfStr : String → Option Binary64)

/-- `float(v)`. -/
def Json.toFloat : Json → Except PyError Binary64
  | .str s =>
    match floatOfStr s with
    | some x => .ok x
    | none => .error .valueError
  | v => do (← v.number).toFloat

/-- `draw` is the `random()` of the jitter. -/
def calculateRetryDelay (errorCount : Nat) (strategy : RetryStrategy) (initialDelay maxDelay : Json)
    (draw : Rat) : Except PyError Int := do
  let delay ← baseDelay errorCount strategy initialDelay
  let tenth := (← delay.toFloat).mul (.round (1 / 10))
  let jitter := (pyMin tenth (.finite 5)).mul (.finite draw)
  let delay := (← delay.toFloat).add jitter
  let cap ← maxDelay.toFloat floatOfStr
  timedelta (pyMin delay cap)

def calculateRetryFromJob (adminData : Json) (errorCount : Nat) (draw : Rat) : Except PyError Int :=
  let config := getRetryConfig adminData
  calculateRetryDelay floatOfStr errorCount (.ofJson config.retryStrategy) config.initialRetryDelay
    config.maxRetryDelay draw

end Delay

example : calculateRetryDelay (fun _ => none) 3 .exponential (.int 1) (.int 3600) (1 / 2) =
    .ok 4200000 := by
  decide +kernel

/-- The options of an enqueue that end up in `admin_data`. -/
structure RetryOptions where
  saveResult : Bool := true
  useResultFrom : Option Int := none
  retryStrategy : Json := .str "exponential"
  maxRetries : Json := .int 10
  initialRetryDelay : Json := .int 1
  maxRetryDelay : Json := .int 3600
  timeoutSeconds : Option Json := none
  onTimeout : String := "retry"

/-- Fields of a JSON object, as a dict. -/
abbrev Fields := List (String × Json)

namespace Fields

def set (fields : Fields) (key : String) (v : Json) : Fields :=
  (fields.filter fun f => f.1 ≠ key) ++ [(key, v)]

def setDefault (fields : Fields) (key : String) (v : Json) : Fields :=
  if (fields.lookup key).isSome then fields else fields ++ [(key, v)]

end Fields

inductive EnqueueError where
  | onTimeout
  | adminOnTimeout
  | retryStrategy

/-- The part of `build_enqueue_row` that makes the row's `admin_data`. -/
def enqueueAdminData (o : RetryOptions) (given : Fields) : Except EnqueueError Json :=
  if o.onTimeout ∉ ["retry", "fail"] then .error .onTimeout
  else
    let admin := if o.saveResult then given else Fields.set given "save_result" (.bool false)
    let admin := (o.useResultFrom.filter (· ≠ 0)).elim admin fun id =>
      Fields.set admin "use_result_from" (.int id)
    let admin := Fields.setDefault admin "retry_strategy" o.retryStrategy
    let admin := Fields.setDefault admin "max_retries" o.maxRetries
    let admin := Fields.setDefault admin "initial_retry_delay" o.initialRetryDelay
    let admin := Fields.setDefault admin "max_retry_delay" o.maxRetryDelay
    let admin := o.timeoutSeconds.elim admin fun t => Fields.set admin "timeout_seconds" t
    let admin := Fields.setDefault admin "on_timeout" (.str o.onTimeout)
    let named (key : String) (names : List String) : Bool :=
      match admin.lookup key with
      | some (.str s) => s ∈ names
      | _ => false
    if !named "on_timeout" ["retry", "fail"] then .error .adminOnTimeout
    else if !named "retry_strategy" (RetryStrategy.names.map Prod.fst) then .error .retryStrategy
    else .ok (.obj admin)

end Pyjobby
