import Mathlib.Data.Rat.Init

/-! Binary64 numbers by their exact values. Every operation rounds its exact result
to nearest, ties to even; the sign of a zero is not kept. -/

namespace Ieee

/-- `q` to the nearest integer, ties to even. -/
def roundEven (q : Rat) : Int :=
  let n := q.floor
  if 2 * (q - n) < 1 ∨ 2 * (q - n) = 1 ∧ n % 2 = 0 then n else n + 1

theorem le_roundEven {n : Int} {q : Rat} (h : (n : Rat) ≤ q) : n ≤ roundEven q := by
  have hfloor : n ≤ q.floor := Rat.le_floor_iff.mpr h
  unfold roundEven
  dsimp only
  split <;> omega

theorem roundEven_le {n : Int} {q : Rat} (h : q ≤ (n : Rat)) : roundEven q ≤ n := by
  have hfloor : q.floor ≤ n := Rat.floor_intCast n ▸ Rat.floor_monotone h
  unfold roundEven
  dsimp only
  split
  · exact hfloor
  · next hfar =>
    rcases Int.lt_or_eq_of_le hfloor with hlt | heq
    · omega
    · -- then `q` is the integer `n` itself
      have hq : q = (q.floor : Rat) := Rat.le_antisymm (heq ▸ h) (Rat.floor_le q)
      refine absurd (.inl ?_) hfar
      rw [← hq, Rat.sub_self, Rat.mul_zero]
      decide

/-- The `e` with `2 ^ e ≤ |q| < 2 ^ (e + 1)`, for a `q` other than zero. -/
def exponent (q : Rat) : Int :=
  let e : Int := (q.num.natAbs.log2 : Int) - q.den.log2
  if (2 : Rat) ^ e ≤ q.abs then e else e - 1

def spacing (q : Rat) : Rat := (2 : Rat) ^ max (exponent q - 52) (-1074)

inductive Binary64 where
  | finite (q : Rat)
  | inf (negative : Bool)
  | nan
  deriving DecidableEq

namespace Binary64

def round (q : Rat) : Binary64 :=
  let v := if q = 0 then 0 else roundEven (q / spacing q) * spacing q
  if v.abs < (2 : Rat) ^ (1024 : Int) then finite v else inf (v < 0)

def add : Binary64 → Binary64 → Binary64
  | finite p, finite q => round (p + q)
  | finite _, inf s => inf s
  | inf s, finite _ => inf s
  | inf s, inf t => if s = t then inf s else nan
  | _, _ => nan

def mul : Binary64 → Binary64 → Binary64
  | finite p, finite q => round (p * q)
  | finite p, inf s => if p = 0 then nan else inf (decide (p < 0) != s)
  | inf s, finite q => if q = 0 then nan else inf (decide (q < 0) != s)
  | inf s, inf t => inf (s != t)
  | _, _ => nan

def lt : Binary64 → Binary64 → Bool
  | finite p, finite q => p < q
  | finite _, inf s => !s
  | inf s, finite _ => s
  | inf s, inf t => s && !t
  | _, _ => false

end Binary64

end Ieee
