import Pyjobby.Execution
import Pyjobby.Fencing

/-! One job in the system of `World`: every execution a claim of the job hands
out is an attempt that runs the job's code, and everybody else goes on as before. -/

namespace Pyjobby

open Relational Transition

/-- The attempts in the order of their claims, and the history of what they
committed. -/
structure Sys (κ : Type) where
  world : World
  attempts : List (Execution κ)
  log : List Entry

/-- What the rest of the system does beside the job's attempts: neither their
own statements, nor those that erase the job's checkpoints. -/
def World.foreign (w : World) (jid : Nat) : Act → Bool
  | .delete batch => jid ∉ batch
  | .rerunFresh j _ _ _ => j ≠ jid
  | .worker i _ | .durable i _ | .compactFence _ i => w.execs[i]?.all fun e => e.id ≠ jid
  | .compactSteps session =>
    (w.txs.find? session).all fun t =>
      match t.body with
      | .compact j _ => j ≠ jid
      | .claim _ => true
  | _ => true

inductive Event where
  | env (a : Act)
  | attempt (i : Nat) (m : Move)

instance : Inhabited Event := ⟨.env default⟩

namespace Sys

variable {κ : Type}

def init (db : Db) (clock : Int) (queue : String → Option QueueRow) : Sys κ :=
  ⟨.init db clock queue, [], []⟩

/-- The attempts of the executions a step added. -/
def claimed (w w' : World) (jid : Nat) : List (Execution κ) :=
  ((w'.execs.drop w.execs.length).filter fun e => e.id = jid).map .new

/-- An UPDATE that would advance the epoch waits for the row lock of an attempt. -/
def step (prog : Program κ) (jid : Nat) (s : Sys κ) : Event → Option (Sys κ)
  | .env a =>
    if s.world.foreign jid a then
      (s.world.step a).bind fun w' =>
        if s.attempts.all fun b => !b.locks || w'.owns b.row then
          some { s with world := w', attempts := s.attempts ++ claimed s.world w' jid }
        else none
    else none
  | .attempt i m =>
    s.attempts[i]?.bind fun a =>
      (a.move prog s.world m).map fun (w', a', entries) =>
        ⟨w', s.attempts.set i a', s.log ++ entries⟩

end Sys

namespace Execution

variable {κ : Type}

@[simp] theorem leave_row (a : Execution κ) : a.leave.row = a.row := rfl
@[simp] theorem raise_row (a : Execution κ) : a.raise.row = a.row := rfl

@[simp]
theorem throw_row (a : Execution κ) (error : String) : (a.throw error).row = a.row := by
  simp only [throw]
  split <;> rfl

@[simp] theorem leave_locks (a : Execution κ) : a.leave.locks = false := rfl
@[simp] theorem raise_locks (a : Execution κ) : a.raise.locks = false := rfl

@[simp]
theorem throw_locks (a : Execution κ) (error : String) : (a.throw error).locks = false := by
  simp only [throw]
  split <;> rfl

@[simp]
theorem throw_steps (a : Execution κ) (error : String) : (a.throw error).steps = a.steps := by
  simp only [throw]
  split <;> rfl

@[simp]
theorem answered_lost (a next : Execution κ) (w : World) : a.answered next w false = a := rfl

theorem answered_of_owns {a : Execution κ} {w : World} (h : w.owns a.row) (next : Execution κ) :
    a.answered next w true = next := by
  simp [answered, h]

theorem answered_of_stale {a : Execution κ} {w : World} (h : w.owns a.row = false)
    (next : Execution κ) : a.answered next w true = a.leave := by
  simp [answered, h]

theorem stepSeq_of_checkpoint? {a : Execution κ} {seq : Nat} {s : StepRow}
    (h : a.checkpoint? seq = some s) : s.stepSeq = seq := by
  simpa using List.find?_some h

theorem checkpoint?_load (a : Execution κ) (db : Db) (seq : Nat) :
    (a.load db).checkpoint? seq = if a.resumes then db.step.find? (a.row.id, seq) else none := by
  by_cases h : a.resumes
  · simp [load, bind, checkpoint?, h, Table.find?, StepRow.key, List.find?_filter]
  · simp [load, bind, checkpoint?, h]

theorem call_row (a : Execution κ) (now : Int) (p : Prim) (next : Option Json → κ) :
    (a.call now p next).row = a.row := by
  simp only [call]
  repeat' split
  all_goals rfl

theorem call_locks (a : Execution κ) (now : Int) (p : Prim) (next : Option Json → κ) :
    (a.call now p next).locks = false := by
  simp only [call]
  repeat' split
  all_goals rfl

theorem call_steps (a : Execution κ) (now : Int) (p : Prim) (next : Option Json → κ) :
    (a.call now p next).steps = a.steps := by
  simp only [call]
  repeat' split
  all_goals rfl

theorem nest_row (a : Execution κ) (name : String) (fn : κ) (next : Option Json → κ) :
    (a.nest name fn next).row = a.row := by
  simp only [nest]
  repeat' split
  all_goals rfl

theorem nest_locks (a : Execution κ) (name : String) (fn : κ) (next : Option Json → κ) :
    (a.nest name fn next).locks = false := by
  simp only [nest]
  repeat' split
  all_goals rfl

theorem nest_steps (a : Execution κ) (name : String) (fn : κ) (next : Option Json → κ) :
    (a.nest name fn next).steps = a.steps := by
  simp only [nest]
  repeat' split
  all_goals rfl

end Execution

/-- What a move of an attempt does to the world: a statement on its own row, or
a write to the durable tables, if anything. -/
inductive Issued (w : World) (e : Jorb) : World → Prop where
  | worker {w' : World} (s : WorkerStmt) (h : w.worker e s = some w') : Issued w e w'
  | data (db : Db) (jorb : db.jorb = w.db.jorb) (worker : db.worker = w.db.worker) :
      Issued w e { w with db }

theorem Issued.none (w : World) (e : Jorb) : Issued w e w := .data w.db rfl rfl

namespace World

theorem durable_eq_some {w w' : World} {e : Jorb} {s : DurableStmt} :
    w.durable e s = some w' ↔ (w.locked e.id && w.owns e) = false ∧
      { w with db := s.run w.clock e.id e.runEpoch w.db } = w' := by
  unfold durable owns
  by_cases h : (w.locked e.id && (w.db.fence e.id e.runEpoch).isSome) = true <;> simp [h]

theorem durable_issued {w w' : World} {e : Jorb} {s : DurableStmt}
    (h : w.durable e s = some w') : Issued w e w' := by
  obtain ⟨-, rfl⟩ := durable_eq_some.mp h
  exact .data _ (s.run_jorb _ _ _ _) (s.run_worker _ _ _ _)

end World

namespace Execution

variable {κ : Type}

/-- A lock is taken, or held on to, only by a move that writes nothing yet; the
checkpoints an attempt replays change where it loads them or wipes the log. -/
structure Moves (a : Execution κ) (w w' : World) (a' : Execution κ) : Prop where
  row : a'.row = a.row
  issued : Issued w a.row w'
  locks : a'.locks → w' = w ∧ w.owns a.row
  steps : a'.steps = a.steps ∨ a.phase = .claimed ∧ a' = a.load w.db ∨
    ∃ key value next, a.phase = .compacting key value next

theorem Moves.inner {a a' : Execution κ} {w : World} (hrow : a'.row = a.row)
    (hlocks : a'.locks = false) (hsteps : a'.steps = a.steps) : a.Moves w w a' :=
  ⟨hrow, .none w a.row, fun h => by simp [hlocks] at h, .inl hsteps⟩

theorem Moves.lock {a a' : Execution κ} {w : World} (hrow : a'.row = a.row)
    (howns : w.owns a.row) (hsteps : a'.steps = a.steps) : a.Moves w w a' :=
  ⟨hrow, .none w a.row, fun _ => ⟨rfl, howns⟩, .inl hsteps⟩

theorem Moves.durable {a a' : Execution κ} {w w' : World} {s : DurableStmt}
    (h : w.durable a.row s = some w') (hrow : a'.row = a.row) (hlocks : a'.locks = false)
    (hsteps : a'.steps = a.steps) : a.Moves w w' a' :=
  ⟨hrow, World.durable_issued h, fun h => by simp [hlocks] at h, .inl hsteps⟩

theorem Moves.answered {a next : Execution κ} {w w' : World} {s : DurableStmt} {ack : Bool}
    (h : w.durable a.row s = some w') (ha : a.locks = false) (hrow : next.row = a.row)
    (hlocks : next.locks = false) (hsteps : next.steps = a.steps) :
    a.Moves w w' (a.answered next w ack) := by
  refine .durable h ?_ ?_ ?_
  all_goals
    simp only [Execution.answered]
    split_ifs
  all_goals first | rfl | assumption

theorem Moves.issue {a next a' : Execution κ} {w w' : World} {s : WorkerStmt} {ack : Bool}
    (h : a.issue next w s ack = some (w', a')) (ha : a.locks = false) (hrow : next.row = a.row)
    (hlocks : next.locks = false) (hsteps : next.steps = a.steps) : a.Moves w w' a' := by
  obtain ⟨w₁, hw₁, h⟩ := Option.map_eq_some_iff.mp h
  cases h
  cases ack
  · exact ⟨rfl, .worker s hw₁, fun h => by simp [ha] at h, .inl rfl⟩
  · exact ⟨hrow, .worker s hw₁, fun h => by simp [hlocks] at h, .inl hsteps⟩

theorem record_moves {a a' : Execution κ} {prog : Program κ} {w w' : World} {started : Int}
    {ack : Bool} (h : a.record prog w started ack = some (w', a')) : a.Moves w w' a' := by
  unfold record at h
  split at h
  · rename_i p next output hphase
    obtain ⟨w₁, hw₁, h⟩ := Option.map_eq_some_iff.mp h
    cases h
    have ha : a.locks = false := by simp [locks, hphase]
    refine .answered hw₁ ha ?_ ?_ ?_ <;> split <;> rfl
  · rename_i seq name error hphase
    obtain ⟨w₁, hw₁, h⟩ := Option.map_eq_some_iff.mp h
    cases h
    have ha : a.locks = false := by simp [locks, hphase]
    exact .answered hw₁ ha (a.throw_row error) (a.throw_locks error) (a.throw_steps error)
  · rename_i p next result hphase
    split at h
    · cases h
      exact .inner rfl rfl rfl
    · rename_i howns
      split at h
      · cases h
      · cases h
        exact .lock rfl (by simpa using howns) rfl
  · rename_i c hphase
    split at h
    · obtain ⟨w₁, hw₁, h⟩ := Option.map_eq_some_iff.mp h
      cases h
      have ha : a.locks = false := by simp [locks, hphase]
      exact .answered hw₁ ha rfl rfl rfl
    · cases h
  · cases h

theorem commit_moves {a a' : Execution κ} {w w' : World} {started : Int} {lost : Option String}
    {entries : List Entry} (h : a.commit w started lost = some (w', a', entries)) :
    a.Moves w w' a' := by
  unfold commit at h
  split at h
  · rename_i p next result hphase
    dsimp only at h
    split at h
    · cases h
    · obtain ⟨w₂, hw₂, h⟩ := Option.map_eq_some_iff.mp h
      obtain ⟨w₁, hw₁, hw₂⟩ := Option.bind_eq_some_iff.mp hw₂
      obtain ⟨-, rfl⟩ := World.durable_eq_some.mp hw₂
      cases h
      refine ⟨by cases lost <;> rfl, ?_, fun h => ?_, .inl (by cases lost <;> rfl)⟩
      rotate_left
      · cases lost <;> cases h
      cases hs : p.statement with
      | none =>
        simp only [hs, Option.elim_none, Option.some.injEq] at hw₁
        subst hw₁
        exact .data _ (DurableStmt.run_jorb _ _ _ _ _) (DurableStmt.run_worker _ _ _ _ _)
      | some s =>
        have hw₁ : w.durable a.row s = some w₁ := by simpa [hs] using hw₁
        obtain ⟨-, rfl⟩ := World.durable_eq_some.mp hw₁
        exact .data _ ((DurableStmt.run_jorb _ _ _ _ _).trans (s.run_jorb _ _ _ _))
          ((DurableStmt.run_worker _ _ _ _ _).trans (s.run_worker _ _ _ _))
  · cases h

theorem recv_moves {a a' : Execution κ} {w w' : World} {started : Int} {ack expired : Bool}
    {entries : List Entry} (h : a.recv w started ack expired = some (w', a', entries)) :
    a.Moves w w' a' := by
  unfold recv at h
  split at h
  · rename_i topic next hphase
    obtain ⟨w₁, hw₁, h⟩ := Option.map_eq_some_iff.mp h
    cases h
    have ha : a.locks = false := by simp [locks, hphase]
    refine .durable hw₁ ?_ ?_ ?_
    · split_ifs <;> rfl
    · split_ifs <;> first | exact ha | rfl
    · split_ifs <;> rfl
  · cases h

theorem publish_moves {a a' : Execution κ} {prog : Program κ} {w w' : World} {ack : Bool}
    {entries : List Entry} (h : a.publish prog w ack = some (w', a', entries)) :
    a.Moves w w' a' := by
  unfold publish at h
  split at h
  · rename_i c hphase
    split at h
    · obtain ⟨w₁, hw₁, h⟩ := Option.map_eq_some_iff.mp h
      cases h
      have ha : a.locks = false := by simp [locks, hphase]
      exact .answered hw₁ ha rfl rfl rfl
    · cases h
  · cases h

theorem compactFence_moves {a a' : Execution κ} {prog : Program κ} {w : World}
    (h : a.compactFence prog w = some a') : a.Moves w w a' := by
  unfold compactFence at h
  split at h
  · split at h
    · split at h
      · cases h
        exact .inner rfl rfl rfl
      · rename_i howns
        split at h
        · cases h
        · cases h
          exact .lock rfl (by simpa using howns) rfl
    · cases h
  · cases h

theorem compact_moves {a a' : Execution κ} {w w' : World} {lost : Option String}
    {entries : List Entry} (h : a.compact w lost = some (w', a', entries)) :
    a.Moves w w' a' := by
  unfold compact at h
  split at h
  · rename_i key value next hphase
    cases h
    refine ⟨?_, .data _ ?_ ?_, fun h => ?_, .inr (.inr ⟨key, value, next, hphase⟩)⟩
    · cases lost with
      | none => rfl
      | some error => exact a.throw_row error
    · exact DurableStmt.run_jorb w.clock a.row.id a.row.runEpoch w.db (.setEvent key value)
    · exact DurableStmt.run_worker w.clock a.row.id a.row.runEpoch w.db (.setEvent key value)
    · cases lost with
      | none => cases h
      | some error => simp at h
  · cases h

theorem invoke_moves {a a' : Execution κ} {w : World} {p : Prim} {next : Option Json → κ}
    {result : Except String (Option Json)} (h : a.invoke w.clock p next result = some a') :
    a.Moves w w a' := by
  unfold invoke at h
  split at h
  all_goals cases h
  all_goals exact .inner rfl rfl rfl

theorem execute_moves {a a' : Execution κ} {w : World} {p : Prim} {next : Option Json → κ}
    {error : String} (h : a.execute w p next error = some a') : a.Moves w w a' := by
  unfold execute at h
  dsimp only at h
  split_ifs at h with _ howns
  all_goals cases h
  · exact .inner rfl rfl rfl
  · exact .inner rfl rfl rfl
  · exact .lock rfl (by simpa using howns) rfl

theorem move_moves {a a' : Execution κ} {prog : Program κ} {w w' : World} {m : Move}
    {entries : List Entry} (h : a.move prog w m = some (w', a', entries)) :
    a.Moves w w' a' := by
  cases move_cases h with
  | load hphase => exact ⟨rfl, .none w a.row, (by cases ·), .inr (.inl ⟨hphase, rfl⟩)⟩
  | start hphase h₁ =>
    refine .issue h₁ (by simp [locks, hphase]) ?_ ?_ ?_ <;> split_ifs <;> rfl
  | call => exact .inner (call_row _ _ _ _) (call_locks _ _ _ _) (call_steps _ _ _ _)
  | nest => exact .inner (nest_row _ _ _ _) (nest_locks _ _ _ _) (nest_steps _ _ _ _)
  | invoke _ h₁ => exact invoke_moves h₁
  | execute _ h₁ => exact execute_moves h₁
  | record h₁ => exact record_moves h₁
  | commit h₁ => exact commit_moves h₁
  | rollback => exact .inner rfl rfl rfl
  | unwind => exact .inner (a.throw_row _) (a.throw_locks _) (a.throw_steps _)
  | recv h₁ => exact recv_moves h₁
  | publish h₁ => exact publish_moves h₁
  | read => exact .inner rfl rfl rfl
  | compactFence h₁ => exact compactFence_moves h₁
  | compact h₁ => exact compact_moves h₁
  | reschedule hphase h₁ => exact .issue h₁ (by simp [locks, hphase]) rfl rfl rfl
  | finish hphase _ _ h₁ => exact .issue h₁ (by simp [locks, hphase]) rfl rfl rfl
  | settle hphase _ h₁ => exact .issue h₁ (by simp [locks, hphase]) rfl rfl rfl
  | raise => exact .inner rfl rfl rfl
  | crash => exact .inner rfl rfl rfl

end Execution

end Pyjobby
