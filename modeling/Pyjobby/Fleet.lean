import Pyjobby.ExecutionFence

/-! The fleet: the executions of every job at once, with nothing the rest of the
system does left out. -/

namespace Pyjobby

open Relational Transition

namespace Sys

variable {κ : Type}

/-- As `step`, for the executions of every job; each runs the code of its row. -/
def advance (prog : Jorb → Program κ) (s : Sys κ) : Event → Option (Sys κ)
  | .env a =>
    (s.world.step a).bind fun w' =>
      if s.attempts.all fun b => !b.locks || w'.owns b.row then
        some { s with
          world := w',
          attempts := s.attempts ++ (w'.execs.drop s.world.execs.length).map .new }
      else none
  | .attempt i m =>
    s.attempts[i]?.bind fun a =>
      (a.move (prog a.row) s.world m).map fun (w', a', entries) =>
        ⟨w', s.attempts.set i a', s.log ++ entries⟩

variable {prog : Jorb → Program κ} {s s' : Sys κ}

theorem advance_env {a : Act} (h : s.advance prog (.env a) = some s') :
    s.world.step a = some s'.world ∧
      s'.attempts = s.attempts ++ (s'.world.execs.drop s.world.execs.length).map .new := by
  obtain ⟨w', hw', h⟩ := Option.bind_eq_some_iff.mp h
  split at h
  · cases h
    exact ⟨hw', rfl⟩
  · cases h

theorem advance_attempt {i : Nat} {m : Move} (h : s.advance prog (.attempt i m) = some s') :
    ∃ a a' entries, s.attempts[i]? = some a ∧
      a.move (prog a.row) s.world m = some (s'.world, a', entries) ∧
      s'.attempts = s.attempts.set i a' := by
  obtain ⟨a, ha, h⟩ := Option.bind_eq_some_iff.mp h
  obtain ⟨⟨w', a', entries⟩, hm, h⟩ := Option.map_eq_some_iff.mp h
  cases h
  exact ⟨a, a', entries, ha, hm, rfl⟩

end Sys

abbrev FleetRun {κ : Type} (prog : Jorb → Program κ) := Run (Sys.advance prog)

/-- A job that has nothing to do. -/
def FleetRun.emptyProgram : Program Unit := ⟨(), fun _ => .done none⟩

end Pyjobby
