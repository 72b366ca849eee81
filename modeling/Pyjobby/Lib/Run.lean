import Mathlib.Data.List.Basic
import Mathlib.Order.Basic

/-! Runs of a partial step function, and the rules that carry a fact about one
step to every state of a run. -/

namespace Transition

variable {S A : Type*}

/-- A finite run: `length` enabled steps from `state 0`. -/
structure Run (step : S → A → Option S) where
  length : Nat
  state : Nat → S
  act : Nat → A
  next : ∀ n < length, step (state n) (act n) = some (state (n + 1))

namespace Run

variable {step : S → A → Option S} (ρ : Run step)

/-- A property that every enabled step preserves holds all along a run. -/
theorem invariant {P : S → Prop} (hinit : P (ρ.state 0))
    (hstep : ∀ {s a s'}, P s → step s a = some s' → P s') :
    ∀ n ≤ ρ.length, P (ρ.state n) := by
  intro n
  induction n with
  | zero => exact fun _ => hinit
  | succ n ih => exact fun hn => hstep (ih (Nat.le_of_succ_le hn)) (ρ.next n hn)

theorem invariant_of {P : S → Prop} {ok : S → A → Prop}
    (hok : ∀ n < ρ.length, ok (ρ.state n) (ρ.act n)) (hinit : P (ρ.state 0))
    (hstep : ∀ {s a s'}, P s → ok s a → step s a = some s' → P s') :
    ∀ n ≤ ρ.length, P (ρ.state n) := by
  intro n
  induction n with
  | zero => exact fun _ => hinit
  | succ n ih => exact fun hn => hstep (ih (Nat.le_of_succ_le hn)) (hok n hn) (ρ.next n hn)

/-- A reflexive and transitive relation that every step respects relates any
earlier state of a run to any later one. -/
theorem monotone {R : S → S → Prop} (hrefl : ∀ s, R s s)
    (htrans : ∀ {s t u}, R s t → R t u → R s u)
    (hstep : ∀ {s a s'}, step s a = some s' → R s s') :
    ∀ {n m}, n ≤ m → m ≤ ρ.length → R (ρ.state n) (ρ.state m) := by
  intro n m hnm
  induction hnm with
  | refl => exact fun _ => hrefl _
  | step _ ih => exact fun hm => htrans (ih (Nat.le_of_succ_le hm)) (hstep (ρ.next _ hm))

/-- How many of the steps from `n` up to `k` are of this kind. -/
def count (p : A → Bool) (n k : Nat) : Nat := (List.range' n (k - n)).countP fun j => p (ρ.act j)

@[simp]
theorem count_self (p : A → Bool) (n : Nat) : ρ.count p n n = 0 := by
  simp [count]

theorem count_succ (p : A → Bool) {n k : Nat} (hnk : n ≤ k) :
    ρ.count p n (k + 1) = ρ.count p n k + if p (ρ.act k) then 1 else 0 := by
  have hsub : k + 1 - n = k - n + 1 := Nat.succ_sub hnk
  have hlast : n + 1 * (k - n) = k := by omega
  rw [count, hsub, List.range'_concat, List.countP_append, hlast]
  simp [count, List.countP_singleton]

/-- How many of the steps from `n` up to `k` the predicate holds of, each in its state. -/
def tally (p : S → A → Bool) (n k : Nat) : Nat :=
  (List.range' n (k - n)).countP fun j => p (ρ.state j) (ρ.act j)

@[simp]
theorem tally_self (p : S → A → Bool) (n : Nat) : ρ.tally p n n = 0 := by
  simp [tally]

theorem tally_succ (p : S → A → Bool) {n k : Nat} (hnk : n ≤ k) :
    ρ.tally p n (k + 1) = ρ.tally p n k + if p (ρ.state k) (ρ.act k) then 1 else 0 := by
  have hsub : k + 1 - n = k - n + 1 := Nat.succ_sub hnk
  have hlast : n + 1 * (k - n) = k := by omega
  rw [tally, hsub, List.range'_concat, List.countP_append, hlast]
  simp [tally, List.countP_singleton]

/-- Steps that use up a resource, while the others leave it alone, are as many at most as
there was of it at first. -/
theorem count_le {P : S → Prop} {f : S → Nat} {p : A → Bool} {n : Nat} (hn : P (ρ.state n))
    (hstep : ∀ j, n ≤ j → j < ρ.length → P (ρ.state j) → P (ρ.state (j + 1)) ∧
      f (ρ.state (j + 1)) + (if p (ρ.act j) then 1 else 0) ≤ f (ρ.state j)) {k : Nat}
    (hnk : n ≤ k) (hk : k ≤ ρ.length) :
    P (ρ.state k) ∧ f (ρ.state k) + ρ.count p n k ≤ f (ρ.state n) := by
  induction hnk with
  | refl => exact ⟨hn, by simp⟩
  | @step k hnk ih =>
    obtain ⟨hP, hle⟩ := ih (Nat.le_of_succ_le hk)
    obtain ⟨hP', hle'⟩ := hstep k hnk hk hP
    show P (ρ.state (k + 1)) ∧ f (ρ.state (k + 1)) + ρ.count p n (k + 1) ≤ f (ρ.state n)
    rw [count_succ ρ p hnk]
    exact ⟨hP', by omega⟩

end Run

def exec (step : S → A → Option S) (s : S) : List A → Option S
  | [] => some s
  | a :: as => (step s a).bind fun s' => exec step s' as

theorem exec_append {step : S → A → Option S} {s : S} (as bs : List A) :
    exec step s (as ++ bs) = (exec step s as).bind fun s' => exec step s' bs := by
  induction as generalizing s with
  | nil => rfl
  | cons a as ih => cases h : step s a <;> simp [exec, h, ih]

/-- A run that comes back to where it began can be gone through any number of times. -/
theorem exec_cycle {step : S → A → Option S} {s : S} {as : List A} (h : exec step s as = some s)
    (n : Nat) : exec step s (List.replicate n as).flatten = some s := by
  induction n with
  | zero => rfl
  | succ n ih => rw [List.replicate_succ, List.flatten_cons, exec_append, h, Option.bind_some, ih]

def Run.ofList {step : S → A → Option S} [Inhabited A] (s : S) (as : List A)
    (h : (exec step s as).isSome) : Run step where
  length := as.length
  state n := (exec step s (as.take n)).getD s
  act n := as.getD n default
  next n hn := by
    have hsplit : as = as.take n ++ as[n] :: as.drop (n + 1) := by simp
    rw [hsplit, exec_append] at h
    obtain ⟨t, ht⟩ : ∃ t, exec step s (as.take n) = some t := by
      cases ht : exec step s (as.take n) with
      | none => simp [ht] at h
      | some t => exact ⟨t, rfl⟩
    rw [ht] at h
    obtain ⟨u, hu⟩ : ∃ u, step t as[n] = some u := by
      cases hu : step t as[n] with
      | none => simp [exec, hu] at h
      | some u => exact ⟨u, rfl⟩
    have hnext : exec step s (as.take (n + 1)) = some u := by
      rw [List.take_succ_eq_append_getElem hn, exec_append, ht]
      simp [exec, hu]
    simp [List.getD_eq_getElem?_getD, hn, ht, hu, hnext]

theorem Run.ofList_act_mem {step : S → A → Option S} [Inhabited A] {s : S} {as : List A}
    {h : (exec step s as).isSome} {n : Nat} (hn : n < as.length) :
    (Run.ofList s as h).act n ∈ as := by
  simp [Run.ofList, List.getD_eq_getElem?_getD, hn]

theorem Run.ofList_count {step : S → A → Option S} [Inhabited A] {s : S} {as : List A}
    (h : (exec step s as).isSome) (p : A → Bool) (n : Nat) :
    (Run.ofList s as h).count p n as.length = (as.drop n).countP p := by
  have hdrop : as.drop n = (List.range' n (as.length - n)).map fun j => as.getD j default := by
    refine List.ext_getElem (by simp) fun i hi _ => ?_
    rw [List.length_drop] at hi
    have hlt : n + i < as.length := by omega
    simp [List.getD_eq_getElem?_getD, hlt]
  rw [hdrop, List.countP_map]
  rfl

end Transition
