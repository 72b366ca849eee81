import Pyjobby.Fork
import Pyjobby.SequenceNumbers
import Pyjobby.SingleLane
import Pyjobby.Durable

/-! A fork runs the code of its source over the checkpoints below one number. Where they
were recorded one after the other, outside of each other and without a failure among them,
the fork comes back to that number. -/

namespace Pyjobby

namespace Script

open Relational Transition

variable {κ : Type} {code : Code κ}

/-- These are the checkpoints of the job. -/
def Log.Stored (log : Log κ) (db : Db) (jid : Nat) : Prop :=
  ∀ n, (db.step.find? (jid, n)).map (fun r => (r.name, r.output, r.error)) =
    (log n).map fun row => (row.name, row.output, row.error)

def Log.below (log : Log κ) (fromStep : Nat) : Log κ := fun n =>
  if n < fromStep then log n else none

/-- Where the code is when the first `n` calls have had their recorded outcomes. -/
def Code.after (code : Code κ) (log : Log κ) : Nat → κ
  | 0 => code.entry none
  | n + 1 =>
    match code.head (code.after log n), log (n + 1) with
    | .call _ _ next, some row => next (.ok row.output)
    | _, _ => code.after log n

def Code.trail (code : Code κ) (log : Log κ) (n : Nat) : List κ :=
  (List.range n).map fun i => code.after log (i + 1)

/-- Every number below this one holds a success, of a call outside of steps that the code
has come to by the outcomes before it, from its first position. -/
def Straight (code : Code κ) (log : Log κ) (fromStep : Nat) : Prop :=
  ∀ n, n + 1 < fromStep → ∃ row, log (n + 1) = some row ∧ row.error = none ∧
    row.site = ⟨none, [code.trail log n]⟩

/-- No success was found, so the primitive has to run. -/
def Allocation.executes (x : Allocation κ) : Bool := x.found.all fun row => row.error.isSome

/-- Below this number every primitive is given the outcome recorded for it, and its
successor is called; the first one to execute has this number. -/
structure Resumes (code : Code κ) (log : Log κ) (fromStep : Nat) (s : Job κ) : Prop where
  returned : ∀ x ∈ s.allocations, x.seq < fromStep → ∃ row, x.found = some row ∧
    log x.seq = some row ∧ row.error = none ∧ row.name = x.name ∧ row.site = x.site
  first : ∀ x, s.allocations.find? Allocation.executes = some x → x.seq = fromStep
  next : ∀ a, s.attempt = some a → a.control.seq + 1 < fromStep → (s.step code .call).isSome

/-- So it is in every run of the fork, as long as it has published no position. -/
def ForkResumes (code : Code κ) (log : Log κ) (fromStep : Nat) : Prop :=
  ∀ ρ : Run (Job.step code), ρ.state 0 = .init (log.below fromStep) →
    ∀ n ≤ ρ.length, (ρ.state n).position = none → Resumes code log fromStep (ρ.state n)

theorem Job.call_cases (s : Job κ) (a : Attempt κ) (name : String) (fn : Option κ)
    (next : Outcome → κ) :
    (s.call a name fn next).log = s.log ∧ (s.call a name fn next).position = s.position ∧
      (s.call a name fn next).allocations = s.allocations ++
        [⟨a.control.seq + 1, name, ⟨s.position, a.control.levels⟩, a.steps (a.control.seq + 1)⟩] ∧
      ((s.call a name fn next).attempt = none ∧
          (∃ row, a.steps (a.control.seq + 1) = some row ∧ row.name ≠ name) ∨
        (s.call a name fn next).attempt = some (a.call name fn next) ∧
          (∀ row, a.steps (a.control.seq + 1) = some row → row.error ≠ none) ∨
        ∃ row, a.steps (a.control.seq + 1) = some row ∧ row.name = name ∧ row.error = none ∧
          (s.call a name fn next).attempt = some ((a.call name fn next).complete
            ((a.call name fn next).control.complete (next (.ok row.output)))
            ⟨a.control.seq + 1, .ok row.output, next (.ok row.output), fn.isNone⟩)) := by
  rcases Job.call_eq s a name fn next with ⟨row, hrow, hne, heq⟩ | ⟨herror, heq⟩ |
    ⟨row, hrow, hname, herror, heq⟩ <;> rw [heq]
  · exact ⟨rfl, rfl, rfl, .inl ⟨rfl, row, hrow, hne⟩⟩
  · exact ⟨rfl, rfl, rfl, .inr (.inl ⟨rfl, herror⟩)⟩
  · exact ⟨rfl, rfl, rfl, .inr (.inr ⟨row, hrow, hname, herror, rfl⟩)⟩

/-- A call outside of other steps is the one that the code comes to on its way. -/
structure Control.Follows (code : Code κ) (k : Control κ) : Prop where
  opens : ∀ x ∈ k.opens, ∀ l, x.levels = [l] →
    ∃ fn next, code.head (l.getLastD (code.entry none)) = .call x.name fn next
  code : k.frames = [] → ∀ c, k.pos = .code c → k.passed.getLastD (code.entry none) = c

theorem Control.Follows.mark {k k' : Control κ} {m : Mark κ} (h : k.Follows code)
    (hm : Control.mark code k m = some k') : k'.Follows code := by
  have hover : ∀ d,
      Control.mark code k (.done d) = some k' ∨ Control.mark code k (.cut d) = some k' → ∀ c,
        k'.pos = .code c → k'.passed.getLastD (code.entry none) = c := by
    intro d hm c hc
    rcases Control.mark_over hm with ⟨name, fn, next, -, rfl⟩ | ⟨c', f, fs, -, -, rfl⟩ <;>
      simpa [Control.complete, Control.pop] using hc
  have hopens : m ≠ .call → ∀ x ∈ k'.opens, x ∈ k.opens := by
    intro hne x hx
    rcases Control.mark_opens hm with ⟨-, -, -, h, -⟩ | ⟨-, -, h⟩ | ⟨-, -, y, h⟩
    · exact absurd h hne
    · rwa [← h]
    · simp [h, hx]
  cases m with
  | call =>
    obtain ⟨c, name, fn, next, hpos, hhead, rfl⟩ := Control.mark_call hm
    refine ⟨?_, fun _ c' hc' => by cases hc'⟩
    have hall : (k.allocate name fn next).opens = ⟨k.seq + 1, name, k.levels⟩ :: k.opens := by
      simp [Control.opens, Control.allocate, Control.levels, hpos]
    rw [hall, List.forall_mem_cons]
    refine ⟨fun l hl => ?_, h.opens⟩
    obtain ⟨rfl, hframes⟩ := List.cons.inj hl
    rw [h.code (List.map_eq_nil_iff.mp hframes) c hpos]
    exact ⟨fn, next, hhead⟩
  | enter =>
    obtain ⟨name, c, next, hpos, rfl⟩ := Control.mark_enter hm
    exact ⟨fun x hx => h.opens x (hopens (by simp) x hx), fun hframes => by cases hframes⟩
  | done d => exact ⟨fun x hx => h.opens x (hopens (by simp) x hx), fun _ => hover d (.inl hm)⟩
  | cut d => exact ⟨fun x hx => h.opens x (hopens (by simp) x hx), fun _ => hover d (.inr hm)⟩

/-- A checkpoint written outside of other steps bears the name the code gives there. -/
structure Named (code : Code κ) (s : Job κ) : Prop where
  position : ∀ n row, s.log n = some row → row.site.position = s.position
  log : s.position = none → ∀ n row l, s.log n = some row → row.site.levels = [l] →
    ∃ fn next, code.head (l.getLastD (code.entry none)) = .call row.name fn next
  attempt : s.position = none → ∀ a, s.attempt = some a → a.control.Follows code

theorem Named.step {s s' : Job κ} {act : Act} (h : Named code s)
    (hs : s.step code act = some s') : Named code s' := by
  cases Job.step_move hs with
  | start ha =>
    refine ⟨h.position, h.log, fun hnone a ha' => ?_⟩
    obtain rfl := Option.some.inj ha'
    have hnone : s.position = none := hnone
    constructor
    · simp [Attempt.new, Control.start, Control.opens, openFrames]
    · rintro - c ⟨⟩
      simp [Attempt.new, Control.start, hnone]
  | @call a c name fn next ha hpos hhead =>
    obtain ⟨hlog, hposition, -, hattempt⟩ := Job.call_cases s a name fn next
    refine ⟨hlog ▸ hposition ▸ h.position, hlog ▸ hposition ▸ h.log, fun hnone a' ha' => ?_⟩
    have hm : Control.mark code a.control .call = some (a.control.allocate name fn next) := by
      simp [Control.mark, hpos, hhead]
    have hcalled := (h.attempt (hposition ▸ hnone) a ha).mark hm
    rcases hattempt with ⟨hleft, -⟩ | ⟨hcall, -⟩ | ⟨row, -, -, -, hcall⟩
    · cases hleft.symm.trans ha'
    · obtain rfl := Option.some.inj (hcall.symm.trans ha')
      exact hcalled
    · obtain rfl := Option.some.inj (hcall.symm.trans ha')
      exact hcalled.mark (m := .cut (next (.ok row.output))) rfl
  | enter ha hpos =>
    refine ⟨h.position, h.log, fun hnone a ha' => ?_⟩
    obtain rfl := Option.some.inj ha'
    exact (h.attempt hnone _ ha).mark (m := .enter) (by simp [Control.mark, hpos])
  | @ended _ a x d k' log' ha hm hx hseq hcode hlog =>
    have hmem : x ∈ a.control.opens := by simp [hx]
    have hnew : ∀ n row, log' n = some row → s.log n = some row ∨
        row.name = x.name ∧ row.site = ⟨s.position, x.levels⟩ := by
      intro n row hn
      rcases hlog with ⟨rfl, -⟩ | ⟨result, rfl, -⟩
      · exact .inl hn
      · rcases eq_or_ne n x.seq with rfl | hne
        · rcases Log.write_self hn with hold | rfl
          · exact .inl hold
          · cases result <;> exact .inr ⟨rfl, rfl⟩
        · exact .inl ((Log.write_of_ne hne).symm.trans hn)
    refine ⟨fun n row hn => ?_, fun hnone n row l hn hl => ?_, fun hnone a' ha' => ?_⟩
    · rcases hnew n row hn with hold | ⟨-, hsite⟩
      · exact h.position n row hold
      · rw [hsite]
    · rcases hnew n row hn with hold | ⟨hname, hsite⟩
      · exact h.log hnone n row l hold hl
      · rw [hname]
        exact (h.attempt hnone a ha).opens x hmem l (by rw [← hl, hsite])
    · obtain rfl := Option.some.inj ha'
      exact (h.attempt hnone a ha).mark hm
  | commit ha hpos hhead =>
    refine ⟨fun n row hn => ?_, fun hnone => ?_, fun hnone => ?_⟩
    · cases hn
    · cases hnone
    · cases hnone
  | leave ha => exact ⟨h.position, h.log, fun _ a ha' => by cases ha'⟩

@[simp]
theorem trail_succ (log : Log κ) (n : Nat) :
    code.trail log (n + 1) = code.trail log n ++ [code.after log (n + 1)] := by
  simp [Code.trail, List.range_succ]

theorem trail_getLastD (log : Log κ) (n : Nat) :
    (code.trail log n).getLastD (code.entry none) = code.after log n := by
  cases n with
  | zero => rfl
  | succ n => simp

/-- Where the code stands after the recorded outcomes of the first `n` calls. -/
def Code.come (code : Code κ) (log : Log κ) (n : Nat) : Control κ :=
  ⟨n, .code (code.after log n), [], code.trail log n⟩

section Fork

variable {log : Log κ} {fromStep : Nat}

/-- The call with the next number, the outcome of which is recorded. -/
structure Recalled (code : Code κ) (log : Log κ) (n : Nat) (row : Checkpoint κ) (fn : Option κ)
    (next : Outcome → κ) : Prop where
  found : log (n + 1) = some row
  error : row.error = none
  site : row.site = ⟨none, [code.trail log n]⟩
  head : code.head (code.after log n) = .call row.name fn next
  after : code.after log (n + 1) = next (.ok row.output)

theorem Straight.recalled {s : Job κ} {n : Nat} (h : Straight code s.log fromStep)
    (hnamed : Named code s) (hn : n + 1 < fromStep) :
    ∃ row fn next, Recalled code s.log n row fn next := by
  obtain ⟨row, hrow, herror, hsite⟩ := h n hn
  have hposition : s.position = none := by rw [← hnamed.position _ row hrow, hsite]
  obtain ⟨fn, next, hhead⟩ :=
    hnamed.log hposition (n + 1) row (code.trail s.log n) hrow (by rw [hsite])
  rw [trail_getLastD] at hhead
  exact ⟨row, fn, next, hrow, herror, hsite, hhead, by simp [Code.after, hhead, hrow]⟩

/-- Either the attempt is on its way through the recorded outcomes, or it has come to the
first number that is not recorded. -/
structure Going (code : Code κ) (log : Log κ) (fromStep : Nat) (s : Job κ) (a : Attempt κ) :
    Prop where
  steps : ∀ n < fromStep, a.steps n = log n
  quiet : s.allocations.find? Allocation.executes = none →
    a.control.seq < fromStep ∧ ∀ n, fromStep ≤ n → a.steps n = none
  way : a.control.seq < fromStep ∧ a.control = code.come log a.control.seq ∨
    fromStep ≤ a.control.seq ∧ ∀ x ∈ a.control.opens, fromStep ≤ x.seq

structure Resuming (code : Code κ) (log : Log κ) (fromStep : Nat) (s : Job κ) : Prop where
  kept : ∀ n < fromStep, s.log n = log n
  returned : ∀ x ∈ s.allocations, x.seq < fromStep → ∃ row, x.found = some row ∧
    log x.seq = some row ∧ row.error = none ∧ row.name = x.name ∧ row.site = x.site
  first : ∀ x, s.allocations.find? Allocation.executes = some x → x.seq = fromStep
  quiet : s.allocations.find? Allocation.executes = none → ∀ n, fromStep ≤ n → s.log n = none
  going : ∀ a, s.attempt = some a → Going code log fromStep s a

variable {s s' : Job κ} {a : Attempt κ}

/-- A call whose outcome is recorded. -/
theorem Resuming.recall {n : Nat} {row : Checkpoint κ} {fn : Option κ} {next : Outcome → κ}
    (h : Resuming code log fromStep s) (ha : s.attempt = some a) (hposition : s.position = none)
    (hn : n + 1 < fromStep) (hcome : a.control = code.come log n)
    (hrow : Recalled code log n row fn next) :
    Resuming code log fromStep (s.call a row.name fn next) := by
  obtain ⟨hlog, hposition', halloc, hattempt⟩ := Job.call_cases s a row.name fn next
  have hg := h.going a ha
  have hseq : a.control.seq = n := by rw [hcome]; rfl
  have hfound : a.steps (a.control.seq + 1) = some row := by
    rw [hseq, hg.steps _ hn, hrow.found]
  have hquiet : (s.call a row.name fn next).allocations.find? Allocation.executes =
      s.allocations.find? Allocation.executes := by
    simp [halloc, List.find?_append, Allocation.executes, hfound, hrow.error]
  refine ⟨hlog ▸ h.kept, ?_, hquiet ▸ h.first, hquiet ▸ hlog ▸ h.quiet, fun a' ha' => ?_⟩
  · rw [halloc]
    refine List.forall_mem_append.mpr ⟨h.returned, List.forall_mem_singleton.mpr fun _ => ?_⟩
    refine ⟨row, hfound, ?_, hrow.error, rfl, ?_⟩
    · rw [hseq, hrow.found]
    · simp [hrow.site, hposition, hcome, Code.come, Control.levels]
  · rcases hattempt with ⟨-, r, hr, hne⟩ | ⟨-, herror⟩ | ⟨r, hr, -, -, hcall⟩
    · cases hfound.symm.trans hr
      exact absurd rfl hne
    · exact absurd hrow.error (herror row hfound)
    · cases hfound.symm.trans hr
      obtain rfl := Option.some.inj (hcall.symm.trans ha')
      refine ⟨hg.steps, fun hnone => ?_, .inl ?_⟩
      · rw [hquiet] at hnone
        exact ⟨by simpa [Attempt.complete, Attempt.call, Control.complete, Control.allocate, hseq]
          using hn, (hg.quiet hnone).2⟩
      · simp [Attempt.complete, Attempt.call, Control.complete, Control.allocate, hcome, Code.come,
          hrow.after, hn]

/-- A call that is the first to execute, or made after that one. -/
theorem Resuming.beyond {name : String} {fn : Option κ} {next : Outcome → κ} {x : Allocation κ}
    (h : Resuming code log fromStep s) (ha : s.attempt = some a)
    (hopens : ∀ y ∈ a.control.opens, fromStep ≤ y.seq) (hle : fromStep ≤ a.control.seq + 1)
    (hfirst : (s.call a name fn next).allocations.find? Allocation.executes = some x)
    (hx : x.seq = fromStep) {c : κ} (hpos : a.control.pos = .code c) :
    Resuming code log fromStep (s.call a name fn next) := by
  obtain ⟨hlog, -, halloc, hattempt⟩ := Job.call_cases s a name fn next
  have hg := h.going a ha
  have hrest : openFrames a.control.frames = a.control.opens := by simp [Control.opens, hpos]
  refine ⟨hlog ▸ h.kept, ?_, fun y hy => ?_, fun hnone => ?_, fun a' ha' => ?_⟩
  · rw [halloc]
    exact List.forall_mem_append.mpr ⟨h.returned,
      List.forall_mem_singleton.mpr fun hlt => absurd hlt hle.not_gt⟩
  · rwa [Option.some.inj (hy.symm.trans hfirst)]
  · cases hnone.symm.trans hfirst
  · rcases hattempt with ⟨hleft, -⟩ | ⟨hcall, -⟩ | ⟨row, -, -, -, hcall⟩
    · cases hleft.symm.trans ha'
    · obtain rfl := Option.some.inj (hcall.symm.trans ha')
      refine ⟨hg.steps, fun hnone => (by cases hnone.symm.trans hfirst), .inr ⟨hle, ?_⟩⟩
      rw [Job.opens_call hpos]
      exact List.forall_mem_cons.mpr ⟨hle, hopens⟩
    · obtain rfl := Option.some.inj (hcall.symm.trans ha')
      refine ⟨hg.steps, fun hnone => (by cases hnone.symm.trans hfirst), .inr ⟨hle, ?_⟩⟩
      show ∀ y ∈ openFrames a.control.frames, fromStep ≤ y.seq
      rwa [hrest]

/-- Where the code has come by the recorded outcomes it makes the next call. -/
theorem Resuming.next {s₀ : Job κ} (h : Resuming code s₀.log fromStep s)
    (hst : Straight code s₀.log fromStep) (hnamed : Named code s₀) (ha : s.attempt = some a)
    (hlt : a.control.seq + 1 < fromStep) : ∃ row fn next,
      a.control = code.come s₀.log a.control.seq ∧
        Recalled code s₀.log a.control.seq row fn next := by
  obtain ⟨row, fn, next, hrow⟩ := hst.recalled hnamed hlt
  rcases (h.going a ha).way with ⟨-, hcome⟩ | ⟨hle, -⟩
  · exact ⟨row, fn, next, hcome, hrow⟩
  · omega

theorem Resuming.call {s₀ : Job κ} {c : κ} {name : String} {fn : Option κ} {next : Outcome → κ}
    (h : Resuming code s₀.log fromStep s) (hst : Straight code s₀.log fromStep)
    (hnamed : Named code s₀) (hposition : s.position = none) (ha : s.attempt = some a)
    (hpos : a.control.pos = .code c) (hhead : code.head c = .call name fn next) :
    Resuming code s₀.log fromStep (s.call a name fn next) := by
  have hg := h.going a ha
  have halloc := (Job.call_cases s a name fn next).2.2.1
  rcases Nat.lt_or_ge (a.control.seq + 1) fromStep with hlt | hle
  · obtain ⟨row, fn', next', hcome, hrow⟩ := h.next hst hnamed ha hlt
    rw [hcome] at hpos
    obtain rfl : code.after s₀.log a.control.seq = c := Pos.code.inj hpos
    obtain ⟨rfl, rfl, rfl⟩ := Turn.call.inj (hhead.symm.trans hrow.head)
    exact h.recall ha hposition hlt hcome hrow
  · have hopens : ∀ y ∈ a.control.opens, fromStep ≤ y.seq := by
      rcases hg.way with ⟨-, hcome⟩ | ⟨-, hopens⟩
      · rw [hcome]
        simp [Control.opens, Code.come, openFrames]
      · exact hopens
    cases hfind : s.allocations.find? Allocation.executes with
    | some x =>
      exact h.beyond ha hopens hle (by rw [halloc, List.find?_append, hfind]; rfl)
        (h.first x hfind) hpos
    | none =>
      obtain ⟨hlt, hnone⟩ := hg.quiet hfind
      have hfirst : (s.call a name fn next).allocations.find? Allocation.executes =
          some ⟨a.control.seq + 1, name, ⟨s.position, a.control.levels⟩,
            a.steps (a.control.seq + 1)⟩ := by
        simp [halloc, List.find?_append, hfind, Allocation.executes, hnone _ hle]
      exact h.beyond ha hopens hle hfirst (Nat.le_antisymm hlt hle) hpos

theorem Resuming.step {s₀ : Job κ} {act : Act} (hst : Straight code s₀.log fromStep)
    (hnamed : Named code s₀) (hfrom : 0 < fromStep)
    (h : s.position = none → Resuming code s₀.log fromStep s) (hs : s.step code act = some s') :
    s'.position = none → Resuming code s₀.log fromStep s' := by
  intro hposition
  cases Job.step_move hs with
  | start ha =>
    have h := h hposition
    refine ⟨h.kept, h.returned, h.first, h.quiet, fun a ha' => ?_⟩
    obtain rfl := Option.some.inj ha'
    have hposition : s.position = none := hposition
    refine ⟨h.kept, fun hnone => ⟨hfrom, h.quiet hnone⟩, .inl ⟨hfrom, ?_⟩⟩
    rw [hposition]
    rfl
  | @call a c name fn next ha hpos hhead =>
    have hposition : s.position = none := (Job.call_cases s a name fn next).2.1.symm.trans hposition
    exact (h hposition).call hst hnamed hposition ha hpos hhead
  | @enter a c name next ha hpos =>
    have h := h hposition
    refine ⟨h.kept, h.returned, h.first, h.quiet, fun a' ha' => ?_⟩
    obtain rfl := Option.some.inj ha'
    have hg := h.going a ha
    refine ⟨hg.steps, hg.quiet, .inr ?_⟩
    rcases hg.way with ⟨-, hcome⟩ | ⟨hle, hopens⟩
    · rw [hcome] at hpos
      cases hpos
    · refine ⟨hle, ?_⟩
      have hsame : (a.control.enter name c next).opens = a.control.opens := by
        simp [Control.opens, Control.enter, Control.levels, openFrames, hpos]
      rwa [hsame]
  | @ended _ a x d k' log' ha hm hx hseq hcode hlog =>
    have h := h hposition
    have hg := h.going a ha
    obtain ⟨hle, hopens⟩ : fromStep ≤ a.control.seq ∧ ∀ x ∈ a.control.opens, fromStep ≤ x.seq := by
      rcases hg.way with ⟨-, hcome⟩ | hway
      · rw [hcome] at hx
        cases hx
      · exact hway
    have hbusy : s.allocations.find? Allocation.executes ≠ none := fun hnone =>
      hle.not_gt (hg.quiet hnone).1
    have hxle : fromStep ≤ x.seq := hopens x (by simp [hx])
    refine ⟨fun n hn => ?_, h.returned, h.first, fun hnone => absurd hnone hbusy, fun a' ha' => ?_⟩
    · rcases hlog with ⟨rfl, -⟩ | ⟨result, rfl, -⟩
      · exact h.kept n hn
      · exact (Log.write_of_ne (hn.trans_le hxle).ne).trans (h.kept n hn)
    · obtain rfl := Option.some.inj ha'
      refine ⟨hg.steps, fun hnone => absurd hnone hbusy, .inr ⟨?_, fun y hy => ?_⟩⟩
      · rwa [← Control.mark_seq hm] at hle
      · exact hopens y (by simp [hx, Attempt.complete] at hy ⊢; exact .inr hy)
  | commit ha hpos hhead => cases hposition
  | leave ha =>
    have h := h hposition
    exact ⟨h.kept, h.returned, h.first, h.quiet, fun a' ha' => by cases ha'⟩

theorem Resuming.init (log : Log κ) (fromStep : Nat) :
    Resuming code log fromStep (.init (log.below fromStep)) := by
  refine ⟨fun n hn => if_pos hn, ?_, ?_, fun _ n hn => if_neg hn.not_gt, ?_⟩ <;> simp [Job.init]

theorem Resuming.resumes {s₀ : Job κ} (h : Resuming code s₀.log fromStep s)
    (hst : Straight code s₀.log fromStep) (hnamed : Named code s₀) :
    Resumes code s₀.log fromStep s := by
  refine ⟨h.returned, h.first, fun a ha hlt => ?_⟩
  obtain ⟨row, fn, next, hcome, hrow⟩ := h.next hst hnamed ha hlt
  have hpos : a.control.pos = .code (code.after s₀.log a.control.seq) := by
    rw [hcome]
    rfl
  simp [Job.step, ha, hpos, hrow.head]

theorem ForkResumes.exec (h : ForkResumes code log fromStep) {acts : List Act}
    (hs : Transition.exec (Job.step code) (.init (log.below fromStep)) acts = some s)
    (hposition : s.position = none) : Resumes code log fromStep s := by
  let ρ := Run.ofList _ acts (Option.isSome_of_eq_some hs)
  have hstate : ρ.state acts.length = s := by simp [ρ, Run.ofList, hs]
  exact hstate ▸ h ρ rfl acts.length le_rfl (hstate ▸ hposition)

end Fork

/-- The fork's table holds the checkpoints below its first step. -/
theorem Log.Stored.fork {log : Log κ} {db : Db} {src : Jorb} (h : log.Stored db src.id) (now : Int)
    (fromStep : Nat) (o : ForkOptions) (hkey : ∀ s ∈ db.step, (db.jorb.find? s.jobId).isSome) :
    (log.below fromStep).Stored (db.fork now src fromStep o).1 db.jorb.next := by
  intro n
  rw [Db.find?_fork_step now fromStep o hkey n, Log.below]
  have hread := h n
  cases hfind : db.step.find? (src.id, n) with
  | none =>
    rw [hfind] at hread
    have hnone : log n = none := by simpa using hread.symm
    simp [hnone]
  | some r =>
    obtain ⟨-, hr⟩ := Table.find?_eq_some.mp hfind
    obtain rfl : r.stepSeq = n := (Prod.mk.inj hr).2
    rw [hfind] at hread
    by_cases hlt : r.stepSeq < fromStep
    · rw [if_pos hlt, Option.filter_some_pos (by simpa using hlt), Option.map_some]
      exact hread
    · simp [hlt, not_lt.mp hlt]

theorem Named.run {ρ : Run (Job.step code)} (hinit : ρ.state 0 = .init fun _ => none) {n : Nat}
    (hn : n ≤ ρ.length) : Named code (ρ.state n) := by
  refine ρ.invariant (P := Named code) ?_ Named.step n hn
  rw [hinit]
  exact ⟨fun n row h => (by cases h), fun _ n row l h => (by cases h), fun _ a h => by cases h⟩

end Script

end Pyjobby
