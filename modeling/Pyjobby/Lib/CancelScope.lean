import Mathlib.Data.List.Basic
import Mathlib.Algebra.Order.Ring.Int

/-! Cancel scopes with deadlines, as a cooperative event loop keeps them. A task can be
cancelled only where it is suspended; each timer that has gone off by the time the loop looks
cancels it once; and a scope that is left takes back the cancellation of its own timer. -/

namespace CancelScope

/-- A suspension: how long what is awaited takes, and how late the loop is to notice. -/
structure Wait where
  takes : Nat
  late : Nat

/-- The end of a suspension, and whether it was one by cancellation. -/
structure Wake where
  at_ : Int
  cancelled : Bool
  deriving DecidableEq

/-- A suspension ended at the deadline or past it. -/
def past (deadline : Int) (ws : List Wake) : Bool := ws.any fun w => deadline ≤ w.at_

@[simp] theorem past_nil (deadline : Int) : past deadline [] = false := rfl

@[simp] theorem past_append (deadline : Int) (ws vs : List Wake) :
    past deadline (ws ++ vs) = (past deadline ws || past deadline vs) := List.any_append

@[simp] theorem past_singleton (deadline : Int) (w : Wake) :
    past deadline [w] = decide (deadline ≤ w.at_) := Bool.or_false _

structure Scope where
  deadline : Int
  /-- The cancellations already asked of the task when it entered. -/
  cancelling : Nat
  fired : Bool
  deriving DecidableEq

namespace Scope

def due (now : Int) (s : Scope) : Bool := !s.fired && decide (s.deadline ≤ now)

def fire (now : Int) (s : Scope) : Scope := { s with fired := s.fired || decide (s.deadline ≤ now) }

/-- The timer goes off during suspensions that end in `ws`. -/
def lapses (ws : List Wake) (s : Scope) : Bool := !s.fired && past s.deadline ws

def after (ws : List Wake) (s : Scope) : Scope := { s with fired := s.fired || past s.deadline ws }

@[simp] theorem after_nil (s : Scope) : s.after [] = s := by simp [after]

@[simp] theorem lapses_nil (s : Scope) : s.lapses [] = false := by simp [lapses]

theorem after_after (ws vs : List Wake) (s : Scope) :
    (s.after ws).after vs = s.after (ws ++ vs) := by
  simp [after, Bool.or_assoc]

theorem lapses_append (ws vs : List Wake) (s : Scope) :
    s.lapses (ws ++ vs) = (s.lapses ws || (s.after ws).lapses vs) := by
  simp only [lapses, after, past_append]
  cases s.fired <;> cases past s.deadline ws <;> rfl

theorem lapses_once {ws : List Wake} {s : Scope} (h : s.lapses ws) (vs : List Wake) :
    (s.after ws).lapses vs = false := by
  simp only [lapses, Bool.and_eq_true] at h
  simp [lapses, after, h.2]

end Scope

/-- A task: its scopes from the innermost out, the cancellations asked of it and not taken
back, and the ends of its suspensions so far. -/
structure Task where
  clock : Int
  scopes : List Scope
  cancels : Nat
  wakes : List Wake

/-- What a scope says of itself once it is left. -/
structure Exit where
  expired : Bool
  /-- No one else has asked for a cancellation since it was entered. -/
  claims : Bool

namespace Task

/-- The loop looks at its timers once what the task awaits is there, or once the first of its
timers goes off, or later. -/
def notices (t : Task) (w : Wait) : Int :=
  ((t.scopes.filter (!·.fired)).map fun s => max t.clock s.deadline).foldl min
    (t.clock + w.takes) + w.late

def suspend (t : Task) (w : Wait) : Bool × Task :=
  let now := t.notices w
  let cancelled := t.scopes.any (·.due now)
  (cancelled,
    { clock := now
      scopes := t.scopes.map (·.fire now)
      cancels := t.cancels + t.scopes.countP (·.due now)
      wakes := t.wakes ++ [⟨now, cancelled⟩] })

def block (t : Task) (takes : Nat) : Task := { t with clock := t.clock + takes }

def enter (t : Task) (deadline : Int) : Task :=
  { t with scopes := ⟨deadline, t.cancels, false⟩ :: t.scopes }

def leave (t : Task) : Exit × Task :=
  match t.scopes with
  | [] => (⟨false, false⟩, t)
  | s :: rest =>
    if s.fired then
      (⟨true, decide (t.cancels - 1 ≤ s.cancelling)⟩,
        { t with scopes := rest, cancels := t.cancels - 1 })
    else (⟨false, false⟩, { t with scopes := rest })

theorem clock_le_foldl_min {c : Int} (xs : List Int) (hxs : ∀ x ∈ xs, c ≤ x) {b : Int}
    (hb : c ≤ b) : c ≤ xs.foldl min b := by
  induction xs generalizing b with
  | nil => exact hb
  | cons x xs ih =>
    exact ih (fun y hy => hxs y (List.mem_cons_of_mem x hy)) (le_min hb (hxs x List.mem_cons_self))

theorem clock_le_notices (t : Task) (w : Wait) : t.clock ≤ t.notices w := by
  have hsoonest : t.clock ≤ ((t.scopes.filter (!·.fired)).map fun s => max t.clock s.deadline).foldl
      min (t.clock + w.takes) := by
    refine clock_le_foldl_min _ (fun x hx => ?_) (by omega)
    obtain ⟨s, -, rfl⟩ := List.mem_map.mp hx
    exact le_max_left _ _
  unfold notices
  omega

end Task

/-- `t'` is `t` after work that has left every scope it entered, and came back from the
suspensions in `ws`. -/
structure Passed (t : Task) (ws : List Wake) (t' : Task) : Prop where
  clock : t.clock ≤ t'.clock
  within : ∀ w ∈ ws, t.clock ≤ w.at_ ∧ w.at_ ≤ t'.clock
  wakes : t'.wakes = t.wakes ++ ws
  scopes : t'.scopes = t.scopes.map (·.after ws)
  cancels : t'.cancels = t.cancels + t.scopes.countP (·.lapses ws)
  /-- A timer that goes off is felt at the first suspension that ends at its deadline or past it. -/
  told : ∀ s ∈ t.scopes, s.fired = false → ∀ w,
    ws.find? (s.deadline ≤ ·.at_) = some w → w.cancelled

namespace Passed

variable {t t' t'' : Task} {ws vs : List Wake}

theorem refl (t : Task) : Passed t [] t where
  clock := le_rfl
  within := nofun
  wakes := (List.append_nil _).symm
  scopes := by simp
  cancels := by simp
  told := nofun

theorem block (t : Task) (takes : Nat) : Passed t [] (t.block takes) where
  clock := by simp [Task.block]
  within := nofun
  wakes := (List.append_nil _).symm
  scopes := by simp [Task.block]
  cancels := by simp [Task.block]
  told := nofun

theorem suspend (t : Task) (w : Wait) :
    Passed t [⟨t.notices w, (t.suspend w).1⟩] (t.suspend w).2 where
  clock := t.clock_le_notices w
  within := by
    intro v hv
    obtain rfl := List.mem_singleton.mp hv
    exact ⟨t.clock_le_notices w, le_rfl⟩
  wakes := rfl
  scopes := by simp [Task.suspend, Scope.fire, Scope.after]
  cancels := by simp [Task.suspend, Scope.due, Scope.lapses]
  told s hs hfired v hv := by
    have hreached := List.find?_some hv
    obtain rfl := List.mem_singleton.mp (List.mem_of_find?_eq_some hv)
    simp only [Task.suspend]
    refine List.any_eq_true.mpr ⟨s, hs, ?_⟩
    simpa [Scope.due, hfired] using hreached

theorem countP_lapses_append (scopes : List Scope) :
    scopes.countP (·.lapses (ws ++ vs)) =
      scopes.countP (·.lapses ws) + (scopes.map (·.after ws)).countP (·.lapses vs) := by
  induction scopes with
  | nil => rfl
  | cons s scopes ih =>
    have hone : (if s.lapses (ws ++ vs) then 1 else 0) =
        (if s.lapses ws then 1 else 0) + if (s.after ws).lapses vs then 1 else 0 := by
      rw [s.lapses_append]
      cases h : s.lapses ws with
      | false => simp
      | true => simp [Scope.lapses_once h]
    simp only [List.map_cons, List.countP_cons, ih, hone]
    omega

theorem trans (h : Passed t ws t') (h' : Passed t' vs t'') : Passed t (ws ++ vs) t'' where
  clock := h.clock.trans h'.clock
  within w hw := by
    rcases List.mem_append.mp hw with hw | hw
    · exact ⟨(h.within w hw).1, (h.within w hw).2.trans h'.clock⟩
    · exact ⟨h.clock.trans (h'.within w hw).1, (h'.within w hw).2⟩
  wakes := by rw [h'.wakes, h.wakes, List.append_assoc]
  scopes := by
    rw [h'.scopes, h.scopes, List.map_map]
    exact List.map_congr_left fun s _ => s.after_after ws vs
  cancels := by
    rw [h'.cancels, h.cancels, h.scopes, countP_lapses_append]
    omega
  told s hs hfired w hw := by
    rw [List.find?_append] at hw
    cases hfirst : ws.find? (s.deadline ≤ ·.at_) with
    | some v =>
      simp only [hfirst, Option.some_or, Option.some.injEq] at hw
      exact hw ▸ h.told s hs hfired v hfirst
    | none =>
      rw [hfirst, Option.none_or] at hw
      have harmed : (s.after ws).fired = false := by
        simp only [Scope.after, hfired, Bool.false_or, past, List.any_eq_false]
        exact List.find?_eq_none.mp hfirst
      exact h'.told (s.after ws) (h.scopes ▸ List.mem_map_of_mem hs) harmed w hw

/-- Work in a scope of its own: seen from outside it only takes time; the scope has expired if
a suspension inside ended at its deadline or past it, and claims the cancellation as its own if
besides no timer of a scope further out has gone off meanwhile. -/
theorem leave {deadline : Int} (h : Passed (t.enter deadline) ws t') :
    Passed t ws t'.leave.2 ∧ t'.leave.1.expired = past deadline ws ∧
      t'.leave.1.claims = (past deadline ws && !t.scopes.any (·.lapses ws)) := by
  have hscopes : t'.scopes = ⟨deadline, t.cancels, past deadline ws⟩ ::
      t.scopes.map (·.after ws) := h.scopes
  have hcancels : t'.cancels = t.cancels + (t.scopes.countP (·.lapses ws) +
      if past deadline ws then 1 else 0) := by
    rw [h.cancels, Task.enter, List.countP_cons]
    rfl
  have hframe : ∀ s ∈ t.scopes, s.fired = false → ∀ w,
      ws.find? (s.deadline ≤ ·.at_) = some w → w.cancelled :=
    fun s hs => h.told s (List.mem_cons_of_mem _ hs)
  cases hpast : past deadline ws with
  | false =>
    have hleave : t'.leave = (⟨false, false⟩, { t' with scopes := t.scopes.map (·.after ws) }) := by
      rw [Task.leave, hscopes]
      simp only [hpast, Bool.false_eq_true, if_false]
    rw [hleave]
    refine ⟨⟨h.clock, h.within, h.wakes, rfl, ?_, hframe⟩, rfl, rfl⟩
    simpa [hpast] using hcancels
  | true =>
    rw [hpast, if_pos rfl] at hcancels
    have hback : t'.cancels - 1 = t.cancels + t.scopes.countP (·.lapses ws) := by
      rw [hcancels]
      rfl
    have hleave : t'.leave = (⟨true, decide (t'.cancels - 1 ≤ t.cancels)⟩,
        { t' with scopes := t.scopes.map (·.after ws), cancels := t'.cancels - 1 }) := by
      rw [Task.leave, hscopes]
      simp only [hpast, if_true]
    have houter : t'.cancels - 1 ≤ t.cancels ↔ t.scopes.any (·.lapses ws) = false := by
      have hcount : t.scopes.countP (·.lapses ws) = 0 ↔ t.scopes.any (·.lapses ws) = false := by
        simp [List.countP_eq_zero]
      rw [hback, ← hcount]
      omega
    rw [hleave]
    refine ⟨⟨h.clock, h.within, h.wakes, rfl, hback, hframe⟩, rfl, ?_⟩
    rw [Bool.true_and]
    cases hany : t.scopes.any (·.lapses ws) <;> simp [houter, hany]

end Passed

end CancelScope
