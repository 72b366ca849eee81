import Mathlib.Data.List.Basic
import Mathlib.Data.Nat.Digits.Defs
import Mathlib.Tactic.Ring

/-! What Python's string methods say of a character. -/

namespace Text

/-- `str.isspace`. -/
def isSpace (c : Char) : Bool :=
  let n := c.toNat
  (9 ≤ n && n ≤ 13) || (28 ≤ n && n ≤ 32) || n = 133 || n = 160 || n = 5760 ||
    (8192 ≤ n && n ≤ 8202) || n = 8232 || n = 8233 || n = 8239 || n = 8287 || n = 12288

/-- `not s.strip()` -/
def isBlank (s : String) : Bool := s.toList.all isSpace

/-- What a version of Unicode says of digits. A superscript has a digit value and
is not decimal. -/
structure Digits where
  digit : Char → Option Nat
  decimal : Char → Option Nat
  digit_of_decimal : ∀ {c v}, decimal c = some v → digit c = some v
  ascii : ∀ {c : Char}, c.isDigit → decimal c = some (c.toNat - '0'.toNat)

namespace Digits

/-- The characters below 256. -/
def latin1 : Digits where
  digit c :=
    if c.isDigit then some (c.toNat - '0'.toNat)
    else if c = '¹' then some 1
    else if c = '²' then some 2
    else if c = '³' then some 3
    else none
  decimal c := if c.isDigit then some (c.toNat - '0'.toNat) else none
  digit_of_decimal h := by
    split at h
    · simpa [*] using h
    · cases h
  ascii h := if_pos h

variable (u : Digits)

/-- `str.isdigit`. -/
def isDigit (s : List Char) : Bool := s ≠ [] && s.all fun c => (u.digit c).isSome

def allDecimal (s : List Char) : Bool := s.all fun c => (u.decimal c).isSome

/-- The value of decimal characters, the first the most significant. -/
def value (s : List Char) : Nat := Nat.ofDigits 10 (s.map fun c => (u.decimal c).getD 0).reverse

/-- Digits that `int` converts at most. -/
def maxStrDigits : Nat := 4300

/-- `int` of characters that `isDigit` accepts, so no sign, blank or underscore is
among them; `none` is the `ValueError`. -/
def int (s : List Char) : Option Nat :=
  if s ≠ [] ∧ u.allDecimal s ∧ s.length ≤ maxStrDigits then
    some (s.foldl (fun n c => 10 * n + (u.decimal c).getD 0) 0)
  else none

variable {u}

theorem foldl_value (s : List Char) (n : Nat) :
    s.foldl (fun n c => 10 * n + (u.decimal c).getD 0) n = 10 ^ s.length * n + u.value s := by
  induction s generalizing n with
  | nil => simp [value]
  | cons c s ih =>
    have hvalue : u.value (c :: s) = u.value s + 10 ^ s.length * (u.decimal c).getD 0 := by
      simp [value, Nat.ofDigits_append]
    rw [List.foldl_cons, ih, hvalue, List.length_cons, pow_succ]
    ring

theorem int_eq {s : List Char} (hne : s ≠ []) (hdec : u.allDecimal s)
    (hlen : s.length ≤ maxStrDigits) : u.int s = some (u.value s) := by
  rw [int, if_pos ⟨hne, hdec, hlen⟩, foldl_value, Nat.mul_zero, Nat.zero_add]

theorem isDigit_of_allDecimal {s : List Char} (hne : s ≠ []) (hdec : u.allDecimal s) :
    u.isDigit s := by
  have hall : ∀ c ∈ s, (u.digit c).isSome := fun c hc => by
    obtain ⟨v, hv⟩ := Option.isSome_iff_exists.mp (List.all_eq_true.mp hdec c hc)
    rw [u.digit_of_decimal hv]
    rfl
  simpa [isDigit, hne] using hall

/-- The text of a number is decimal and reads back as the number. -/
theorem value_toDigits (n : Nat) :
    u.allDecimal (Nat.toDigits 10 n) ∧ u.value (Nat.toDigits 10 n) = n := by
  have hdigit : ∀ c ∈ Nat.toDigits 10 n, u.decimal c = some (c.toNat - '0'.toNat) :=
    fun c hc => u.ascii (Nat.isDigit_of_mem_toDigits (by decide) (by decide) hc)
  constructor
  · exact List.all_eq_true.mpr fun c hc => by rw [hdigit c hc]; rfl
  · have hfold := foldl_value (u := u) (Nat.toDigits 10 n) 0
    rw [Nat.mul_zero, Nat.zero_add] at hfold
    rw [← hfold]
    refine Eq.trans ?_ (Nat.ofDigitChars_ten_toDigits (n := n))
    exact List.foldl_ext _ _ _ fun _ c hc => by rw [hdigit c hc]; rfl

end Digits

end Text
