import Pyjobby.Retry
import Mathlib.Algebra.Order.Field.Rat
import Mathlib.Data.Nat.Fib.Basic
import Mathlib.Tactic.Linarith

/-! `calculate_retry_delay` with float operations taken as exact, over attempts
without a bound: when the uncapped delay is too large to become a float. -/

namespace Pyjobby

open Ieee

namespace Exact

/-- A Python number whose float operations are exact. -/
inductive Num where
  | int (n : Int)
  | float (q : Rat)

/-- A float power, or an int made a float, is below it. -/
def floatLimit : Nat := 2 ^ 1024

namespace Num

def toFloat : Num → Except PyError Rat
  | int n => if n.natAbs < floatLimit then .ok n else .error .overflowError
  | float q => .ok q

def mul : Num → Num → Except PyError Num
  | int m, int n => .ok (int (m * n))
  | a, b => do return float ((← a.toFloat) * (← b.toFloat))

end Num

/-- `x ** n`, of an `x` other than zero. -/
def pow (x : Rat) (n : Int) : Except PyError Num :=
  if |x ^ n| < (floatLimit : Rat) then .ok (.float (x ^ n)) else .error .overflowError

/-- The delay before jitter and cap. -/
def baseDelay (errorCount : Nat) (strategy : RetryStrategy) (initialDelay : Int)
    (multiplier : Rat) : Except PyError Num :=
  match strategy with
  | .fixed => .ok (.int initialDelay)
  | .quadratic => (Num.int initialDelay).mul (.int (Int.pow errorCount 2))
  | .exponential => do (Num.int initialDelay).mul (← pow multiplier (errorCount - 1))
  | .linear => (Num.int initialDelay).mul (.int errorCount)
  | .fibonacci => (Num.int initialDelay).mul (.int (fib errorCount))

/-- A timedelta in microseconds. -/
def timedelta (seconds : Rat) : Except PyError Int :=
  let us := roundEven (seconds * 1000000)
  if (us / 86400000000).natAbs ≤ 999999999 then .ok us else .error .overflowError

def calculateRetryDelay (errorCount : Nat) (strategy : RetryStrategy) (initialDelay maxDelay : Int)
    (multiplier draw : Rat) : Except PyError Int := do
  let delay ← baseDelay errorCount strategy initialDelay multiplier
  let jitter := min ((← delay.toFloat) / 10) 5 * draw
  let delay := (← delay.toFloat) + jitter
  timedelta (min delay (← (Num.int maxDelay).toFloat))

end Exact

/-- The whole seconds of the longest timedelta. -/
def maxTimedelta : Nat := 86399999999999

/-- The law of a strategy: its delay in seconds, uncapped, before attempt `errorCount + 1`. -/
def RetryStrategy.law (strategy : RetryStrategy) (initialDelay errorCount : Nat) : Nat :=
  match strategy with
  | .fixed => initialDelay
  | .quadratic => initialDelay * errorCount ^ 2
  | .exponential => initialDelay * 2 ^ (errorCount - 1)
  | .linear => initialDelay * errorCount
  | .fibonacci => initialDelay * Nat.fib errorCount

/-- The attempts whose uncapped delay has a float. -/
def RetryStrategy.Representable (strategy : RetryStrategy) (initialDelay errorCount : Nat) : Prop :=
  match strategy with
  | .fixed => True
  | .quadratic => initialDelay * errorCount ^ 2 < 2 ^ 1024
  | .exponential => errorCount ≤ 1024
  | .linear => initialDelay * errorCount < 2 ^ 1024
  | .fibonacci => initialDelay * Nat.fib errorCount < 2 ^ 1024

theorem fibPair_eq (n : Nat) : fibPair n = ((Nat.fib (n + 1) : Int), (Nat.fib (n + 2) : Int)) := by
  induction n with
  | zero => rfl
  | succ n ih =>
    rw [fibPair, ih, Nat.fib_add_two (n := n + 1)]
    rfl

theorem fib_eq (n : Nat) : fib n = Nat.fib n := by
  unfold fib
  split
  · next h => rw [h]; rfl
  · next h =>
    split
    · next hle =>
      obtain rfl | rfl : n = 1 ∨ n = 2 := by omega
      all_goals rfl
    · next hgt =>
      rw [fibPair_eq, show n - 2 + 2 = n by omega]

namespace RetryStrategy

theorem law_mono (strategy : RetryStrategy) (initialDelay : Nat) {m n : Nat} (h : m ≤ n) :
    strategy.law initialDelay m ≤ strategy.law initialDelay n := by
  cases strategy with
  | fixed => exact le_rfl
  | quadratic => exact Nat.mul_le_mul_left _ (Nat.pow_le_pow_left h 2)
  | exponential => exact Nat.mul_le_mul_left _ (Nat.pow_le_pow_right (by decide) (by omega))
  | linear => exact Nat.mul_le_mul_left _ h
  | fibonacci => exact Nat.mul_le_mul_left _ (Nat.fib_mono h)

end RetryStrategy

namespace Exact

theorem small_lt_floatLimit {n : Nat} (h : n ≤ maxTimedelta) : n < floatLimit :=
  h.trans_lt (by decide +kernel)

theorem toFloat_natCast {n : Nat} (h : n < floatLimit) : (Num.int n).toFloat = .ok (n : Rat) := by
  rw [Num.toFloat, Int.natAbs_natCast, if_pos h]
  rfl

theorem toFloat_large {n : Nat} (h : floatLimit ≤ n) :
    (Num.int n).toFloat = .error .overflowError := by
  rw [Num.toFloat, Int.natAbs_natCast, if_neg (not_lt.mpr h)]

theorem pow_two (n : Nat) :
    pow 2 n = if n < 1024 then .ok (.float (2 ^ n)) else .error .overflowError := by
  have hiff : |(2 : Rat) ^ n| < (floatLimit : Rat) ↔ n < 1024 := by
    rw [abs_of_pos (by positivity), floatLimit, Nat.cast_pow, Nat.cast_ofNat]
    exact pow_lt_pow_iff_right₀ (by norm_num)
  simp only [pow, zpow_natCast, hiff]

variable {strategy : RetryStrategy} {errorCount initialDelay maxDelay : Nat} {draw : Rat}

theorem baseDelay_int (hlaw : strategy ≠ .exponential) :
    baseDelay errorCount strategy initialDelay 2 =
      .ok (.int (strategy.law initialDelay errorCount : Nat)) := by
  cases strategy with
  | exponential => exact absurd rfl hlaw
  | _ => simp [baseDelay, Num.mul, RetryStrategy.law, fib_eq]

theorem representable_int (hinitial : initialDelay ≤ maxTimedelta)
    (hlaw : strategy ≠ .exponential) : strategy.Representable initialDelay errorCount ↔
      strategy.law initialDelay errorCount < floatLimit := by
  cases strategy with
  | exponential => exact absurd rfl hlaw
  | fixed => exact iff_of_true trivial (small_lt_floatLimit hinitial)
  | _ => exact Iff.rfl

theorem int_mul_float {n : Nat} (h : n < floatLimit) (q : Rat) :
    (Num.int n).mul (.float q) = .ok (.float (n * q)) := by
  have hq : (Num.float q).toFloat = .ok q := rfl
  simp only [Num.mul, toFloat_natCast h, hq, bind, Except.bind, pure, Except.pure]

theorem baseDelay_exponential (hcount : 1 ≤ errorCount) (hinitial : initialDelay ≤ maxTimedelta) :
    baseDelay errorCount .exponential initialDelay 2 =
      if errorCount ≤ 1024 then
        .ok (.float (RetryStrategy.exponential.law initialDelay errorCount : Nat))
      else .error .overflowError := by
  have hexponent : (errorCount : Int) - 1 = (errorCount - 1 : Nat) := by omega
  have hiff : errorCount - 1 < 1024 ↔ errorCount ≤ 1024 := by omega
  simp only [baseDelay, hexponent, pow_two, hiff]
  by_cases hsmall : errorCount ≤ 1024
  · simp only [if_pos hsmall, bind, Except.bind, int_mul_float (small_lt_floatLimit hinitial)]
    simp [RetryStrategy.law]
  · simp only [if_neg hsmall, bind, Except.bind]

/-- A representable delay becomes a float. -/
theorem baseDelay_float (hcount : 1 ≤ errorCount) (hinitial : initialDelay ≤ maxTimedelta)
    (h : strategy.Representable initialDelay errorCount) :
    ∃ delay, baseDelay errorCount strategy initialDelay 2 = .ok delay ∧
      delay.toFloat = .ok (strategy.law initialDelay errorCount : Rat) := by
  by_cases hlaw : strategy = .exponential
  · subst hlaw
    exact ⟨_, (baseDelay_exponential hcount hinitial).trans (if_pos h), rfl⟩
  · exact ⟨_, baseDelay_int hlaw, toFloat_natCast ((representable_int hinitial hlaw).mp h)⟩

theorem calculateRetryDelay_raises (hcount : 1 ≤ errorCount)
    (hinitial : initialDelay ≤ maxTimedelta) (h : ¬strategy.Representable initialDelay errorCount) :
    calculateRetryDelay errorCount strategy initialDelay maxDelay 2 draw =
      .error .overflowError := by
  by_cases hlaw : strategy = .exponential
  · subst hlaw
    have hlarge : ¬errorCount ≤ 1024 := h
    simp only [calculateRetryDelay, baseDelay_exponential hcount hinitial, if_neg hlarge, bind,
      Except.bind]
  · have hlarge := toFloat_large (not_lt.mp (mt (representable_int hinitial hlaw).mpr h))
    simp only [calculateRetryDelay, baseDelay_int hlaw, bind, Except.bind, hlarge]

theorem timedelta_between {q : Rat} {lo hi : Nat} (hlo : (lo : Rat) ≤ q) (hhi : q ≤ (hi : Rat))
    (hmax : hi ≤ maxTimedelta) :
    ∃ d, timedelta q = .ok d ∧ (lo * 1000000 : Int) ≤ d ∧ d ≤ (hi * 1000000 : Int) := by
  have hd_lo : (lo * 1000000 : Int) ≤ roundEven (q * 1000000) :=
    le_roundEven (by push_cast; linarith)
  have hd_hi : roundEven (q * 1000000) ≤ (hi * 1000000 : Int) :=
    roundEven_le (by push_cast; linarith)
  refine ⟨_, if_pos ?_, hd_lo, hd_hi⟩
  unfold maxTimedelta at hmax
  omega

theorem calculateRetryDelay_between (hcount : 1 ≤ errorCount)
    (hinitial : initialDelay ≤ maxTimedelta) (hmax : maxDelay ≤ maxTimedelta)
    (h : strategy.Representable initialDelay errorCount) (hdraw : 0 ≤ draw) :
    ∃ d, calculateRetryDelay errorCount strategy initialDelay maxDelay 2 draw = .ok d ∧
      (min (strategy.law initialDelay errorCount) maxDelay * 1000000 : Nat) ≤ d ∧
        d ≤ (maxDelay * 1000000 : Nat) := by
  obtain ⟨delay, hdelay, hfloat⟩ := baseDelay_float hcount hinitial h
  have hcap := toFloat_natCast (small_lt_floatLimit hmax)
  let base : Rat := strategy.law initialDelay errorCount
  let jittered := base + min (base / 10) 5 * draw
  have hbase : 0 ≤ base := Nat.cast_nonneg _
  have hjitter : base ≤ jittered :=
    le_add_of_nonneg_right (mul_nonneg (le_min (by linarith) (by norm_num)) hdraw)
  have hlo : ((min (strategy.law initialDelay errorCount) maxDelay : Nat) : Rat) ≤
      min jittered maxDelay := by
    rw [Nat.cast_min]
    exact min_le_min_right _ hjitter
  obtain ⟨d, hd, hd_lo, hd_hi⟩ := timedelta_between hlo (min_le_right jittered maxDelay) hmax
  refine ⟨d, ?_, by push_cast at hd_lo ⊢; exact hd_lo, by push_cast at hd_hi ⊢; exact hd_hi⟩
  simp only [calculateRetryDelay, hdelay, hfloat, hcap, bind, Except.bind]
  exact hd

end Exact

/-- The delay lies between the capped law and the cap, and the capped law does not
fall, for every draw exactly if the uncapped delay has a float. -/
theorem retry_delay_usable (strategy : RetryStrategy) {errorCount initialDelay maxDelay : Nat}
    (hcount : 1 ≤ errorCount) (hinitial : initialDelay ≤ maxTimedelta)
    (hmax : maxDelay ≤ maxTimedelta) :
    ((∀ draw : Rat, 0 ≤ draw → draw ≤ 1 →
        ∃ d, Exact.calculateRetryDelay errorCount strategy initialDelay maxDelay 2 draw = .ok d ∧
          (min (strategy.law initialDelay errorCount) maxDelay * 1000000 : Nat) ≤ d ∧
            d ≤ (maxDelay * 1000000 : Nat)) ∧
      ∀ later ≥ errorCount, min (strategy.law initialDelay errorCount) maxDelay ≤
        min (strategy.law initialDelay later) maxDelay) ↔
      strategy.Representable initialDelay errorCount := by
  constructor
  · rintro ⟨h, -⟩
    by_contra hlarge
    obtain ⟨d, hd, -⟩ := h 0 le_rfl (by norm_num)
    rw [Exact.calculateRetryDelay_raises hcount hinitial hlarge] at hd
    cases hd
  · intro h
    exact ⟨fun draw hdraw _ => Exact.calculateRetryDelay_between hcount hinitial hmax h hdraw,
      fun later hlater => min_le_min_right _ (strategy.law_mono initialDelay hlater)⟩

/-- Of a thousand attempts the last still waits an hour. -/
theorem retry_delay_usable_thousandth :
    ∃ d, Exact.calculateRetryDelay 1000 .exponential (1 : Nat) (3600 : Nat) 2 (1 / 2) = .ok d ∧
      d ≤ 3600000000 := by
  have husable := (@retry_delay_usable .exponential 1000 1 3600 (by decide) (by decide)
    (by decide)).mpr (show 1000 ≤ 1024 by decide)
  obtain ⟨d, hd, -, hle⟩ := husable.1 (1 / 2) (by norm_num) (by norm_num)
  exact ⟨d, hd, hle⟩

/-- The 1025th failure of a job under the default settings. -/
theorem retry_delay_overflows :
    ¬∀ (strategy : RetryStrategy) (errorCount initialDelay maxDelay : Nat), 1 ≤ errorCount →
      initialDelay ≤ maxTimedelta → maxDelay ≤ maxTimedelta →
        ∀ draw : Rat, 0 ≤ draw → draw ≤ 1 →
          ∃ d, Exact.calculateRetryDelay errorCount strategy initialDelay maxDelay 2 draw = .ok d ∧
            (min (strategy.law initialDelay errorCount) maxDelay * 1000000 : Nat) ≤ d ∧
              d ≤ (maxDelay * 1000000 : Nat) := by
  intro h
  obtain ⟨d, hd, -⟩ := h .exponential 1025 1 3600 (by decide) (by decide) (by decide) 0 le_rfl
    (by norm_num)
  have hlarge : ¬RetryStrategy.exponential.Representable 1 1025 := show ¬1025 ≤ 1024 by decide
  rw [Exact.calculateRetryDelay_raises (by decide) (by decide) hlarge] at hd
  cases hd

end Pyjobby
