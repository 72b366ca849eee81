import Pyjobby.SequenceNumbers
import Pyjobby.StateMachine

/-! The turns of a machine, whatever ends the attempts at it: between two positions it is on
its way from one state to the one that the message in its log leads to. -/

namespace Pyjobby

open Script (Control Outcome)

namespace StateMachineJob

variable {κ : Type} {m : StateMachineJob κ}

/-- Where the turn that begins with this answer leads to. -/
def target (m : StateMachineJob κ) (state : String) (got : Option Message) : String :=
  got.elim state (m.react state)

theorem turnsFrom_append (state : String) (xs ys : List Message) :
    m.turnsFrom state (xs ++ ys) =
      m.turnsFrom state xs ++ m.turnsFrom (xs.foldl m.react state) ys := by
  induction xs generalizing state with
  | nil => rfl
  | cons x xs ih => exact congrArg _ (ih (m.react state x))

theorem turns_concat (xs : List Message) (x : Message) :
    m.turns (xs ++ [x]) = m.turns xs ++ [⟨m.after xs, x.body, m.react (m.after xs) x⟩] :=
  turnsFrom_append m.initial xs [x]

theorem after_concat (xs : List Message) (x : Message) :
    m.after (xs ++ [x]) = m.react (m.after xs) x := by
  simp [after]

theorem takenFrom_append (state : String) (xs ys : List Message)
    (h : m.takenFrom state xs = xs) :
    m.takenFrom state (xs ++ ys) = xs ++ m.takenFrom (xs.foldl m.react state) ys := by
  induction xs generalizing state with
  | nil => rfl
  | cons x xs ih =>
    simp only [takenFrom] at h
    split at h
    · cases h
    · rename_i hlive
      simp only [List.cons_append, takenFrom, if_neg hlive, List.foldl_cons]
      exact congrArg _ (ih (m.react state x) (List.cons.inj h).2)

theorem taken_append {xs : List Message} (h : m.taken xs = xs) (ys : List Message) :
    m.taken (xs ++ ys) = xs ++ m.takenFrom (m.after xs) ys :=
  takenFrom_append m.initial xs ys h

theorem takenFrom_live {state : String} (h : state ∉ m.final) (x : Message) (xs : List Message) :
    m.takenFrom state (x :: xs) = x :: m.takenFrom (m.react state x) xs := if_neg h

/-- A place outside of steps on the way to the boundary of `t`. -/
def Bound (t : String) : Place κ → Prop
  | .idle s | .hook s _ | .boundary s | .acting s _ _ => s = t
  | .failed _ => True
  | .loop _ | .inside _ => False

def Inner : Place κ → Prop
  | .inside _ => True
  | _ => False

/-- The places below these frames. -/
def Level (t : String) : List (Script.Frame (Place κ)) → Place κ → Prop
  | [] => Bound t
  | _ :: _ => Inner

theorem Level.not_loop {t state : String} {fs : List (Script.Frame (Place κ))}
    (h : Level t fs (.loop state)) : False := by
  cases fs <;> exact h

def Framed (t : String) : List (Script.Frame (Place κ)) → Prop
  | [] => True
  | f :: fs => 2 ≤ f.seq ∧ (∀ o, Level t fs (f.next o)) ∧ Framed t fs

/-- The attempt is on its way to the boundary of `t`, past the `recv` of its turn. -/
structure Within (t : String) (k : Control (Place κ)) : Prop where
  seq : 1 ≤ k.seq
  frames : Framed t k.frames
  code : ∀ c, k.pos = .code c → Level t k.frames c
  called : ∀ name fn next, k.pos = .called name fn next →
    2 ≤ k.seq ∧ (∀ o, Level t k.frames (next o)) ∧ ∀ c, fn = some c → Inner c

theorem received_bound (m : StateMachineJob κ) (state : String) (got : Option Message) :
    Bound (m.target state got) (m.received state (.ok (got.map Message.body))) := by
  cases got with
  | none => rfl
  | some x =>
    simp only [target, Option.elim_some, Option.map_some, react]
    unfold received
    split
    · rename_i h
      cases h
    · rename_i h
      cases h
    · rename_i h
      exact absurd (Option.some.inj (Except.ok.inj h)) x.present
    · rename_i payload _ h
      obtain rfl := Option.some.inj (Except.ok.inj h)
      dsimp only
      cases hedge : m.edge state (m.event x.body) with
      | none => rfl
      | some edge =>
        dsimp only
        cases edge.action with
        | none => rfl
        | some name =>
          dsimp only
          cases m.action name <;> first | rfl | exact trivial

theorem andThen_bound {t : String} {c : Place κ} (h : Bound t c) (o : Outcome) :
    Bound t (andThen c o) := by
  cases o with
  | ok => exact h
  | error => trivial

theorem turnBoundary_ne_call (m : StateMachineJob κ) (state : String) {name : String}
    {fn : Option (Place κ)} {next : Outcome → Place κ} :
    m.turnBoundary state ≠ .call name fn next := by
  unfold turnBoundary
  split <;> exact fun h => by cases h

/-- A call on the way leaves it nowhere else. -/
theorem turn_call {t : String} {fs : List (Script.Frame (Place κ))} {c : Place κ} {name : String}
    {fn : Option (Place κ)} {next : Outcome → Place κ} (hc : Level t fs c)
    (h : m.turn c = .call name fn next) :
    (∀ o, Level t fs (next o)) ∧ ∀ c, fn = some c → Inner c := by
  cases fs with
  | cons f fs =>
    cases c with
    | inside c =>
      simp only [turn] at h
      split at h <;> cases h
      · exact ⟨fun _ => trivial, fun _ hc => by cases hc⟩
      · exact ⟨fun _ => trivial, fun _ hc => by cases hc; trivial⟩
    | _ => exact hc.elim
  | nil =>
    cases c with
    | loop | inside => exact hc.elim
    | failed => cases h
    | boundary => exact absurd h (m.turnBoundary_ne_call _)
    | idle state =>
      cases h
      exact ⟨andThen_bound hc, fun _ hc => by cases hc⟩
    | acting state name c =>
      cases h
      exact ⟨andThen_bound hc, fun _ hc => by cases hc; trivial⟩
    | hook state c =>
      simp only [turn] at h
      split at h
      · exact absurd h (m.turnBoundary_ne_call _)
      · cases h
      · cases h
        exact ⟨fun _ => hc, fun _ hc => by cases hc⟩
      · cases h
        exact ⟨fun _ => hc, fun _ hc => by cases hc; trivial⟩

/-- A position is committed outside of steps, and is the one the turn leads to. -/
theorem turn_commit {t : String} {fs : List (Script.Frame (Place κ))} {c next : Place κ}
    {value : Json} (hc : Level t fs c) (h : m.turn c = .commitPosition value next) :
    fs = [] ∧ value = position t ∧ next = .loop t := by
  have hboundary {state : String} (h : m.turnBoundary state = .commitPosition value next) :
      value = position state ∧ next = .loop state := by
    unfold turnBoundary at h
    split at h
    · cases h
    · cases h
      exact ⟨rfl, rfl⟩
  cases fs with
  | cons f fs =>
    cases c with
    | inside c =>
      simp only [turn] at h
      split at h <;> cases h
    | _ => exact hc.elim
  | nil =>
    refine ⟨rfl, ?_⟩
    cases c with
    | loop | inside => exact hc.elim
    | failed | idle | acting => cases h
    | boundary state =>
      obtain rfl : state = t := hc
      exact hboundary h
    | hook state c =>
      obtain rfl : state = t := hc
      simp only [turn] at h
      split at h
      · exact hboundary h
      · cases h
      · cases h
      · cases h

namespace Within

variable {t : String} {k k' : Control (Place κ)}

theorem allocate {c : Place κ} {name : String} {fn : Option (Place κ)} {next : Outcome → Place κ}
    (h : Within t k) (hpos : k.pos = .code c) (hhead : m.turn c = .call name fn next) :
    Within t (k.allocate name fn next) where
  seq := Nat.le_add_left 1 k.seq
  frames := h.frames
  code _ hc := by cases hc
  called name' fn' next' hcalled := by
    cases hcalled
    exact ⟨Nat.succ_le_succ h.seq, turn_call (h.code c hpos) hhead⟩

theorem complete {name : String} {fn : Option (Place κ)} {next : Outcome → Place κ}
    (h : Within t k) (hpos : k.pos = .called name fn next) (o : Outcome) :
    Within t (k.complete (next o)) where
  seq := h.seq
  frames := h.frames
  code c hc := by
    cases hc
    exact (h.called name fn next hpos).2.1 o
  called _ _ _ hcalled := by cases hcalled

theorem pop {f : Script.Frame (Place κ)} {fs : List (Script.Frame (Place κ))} (h : Within t k)
    (hframes : k.frames = f :: fs) (o : Outcome) : Within t (k.pop f fs (f.next o)) := by
  have hframed := h.frames
  rw [hframes] at hframed
  refine ⟨h.seq, hframed.2.2, fun c hc => ?_, fun _ _ _ hcalled => by cases hcalled⟩
  cases hc
  exact hframed.2.1 o

theorem enter {name : String} {c : Place κ} {next : Outcome → Place κ} (h : Within t k)
    (hpos : k.pos = .called name (some c) next) : Within t (k.enter name c next) := by
  obtain ⟨hseq, hnext, hfn⟩ := h.called _ _ _ hpos
  refine ⟨h.seq, ⟨hseq, hnext, h.frames⟩, fun c' hc' => ?_, fun _ _ _ hcalled => by cases hcalled⟩
  cases hc'
  exact hfn c rfl

/-- So it is once the `recv` of the turn has its answer. -/
theorem received (m : StateMachineJob κ) (state : String) (x : Option Message)
    (hseq : 1 ≤ k.seq) (hframes : k.frames = []) :
    Within (m.target state x) (k.complete (m.received state (.ok (x.map Message.body)))) where
  seq := hseq
  frames := hframes ▸ trivial
  code _ hc := by
    cases hc
    exact hframes ▸ m.received_bound state x
  called _ _ _ hcalled := by cases hcalled

theorem opens (h : Within t k) : ∀ x ∈ k.opens, 2 ≤ x.seq := by
  have hframes : ∀ fs : List (Script.Frame (Place κ)), Framed t fs →
      ∀ x ∈ Script.openFrames fs, 2 ≤ x.seq := by
    intro fs
    induction fs with
    | nil => exact fun _ x hx => by cases hx
    | cons f fs ih =>
      intro hfs x hx
      rcases List.mem_cons.mp hx with rfl | hx
      · exact hfs.1
      · exact ih hfs.2.2 x hx
  intro x hx
  cases hpos : k.pos with
  | code c =>
    simp only [Control.opens, hpos] at hx
    exact hframes _ h.frames x hx
  | called name fn next =>
    simp only [Control.opens, hpos] at hx
    rcases List.mem_cons.mp hx with rfl | hx
    · exact (h.called _ _ _ hpos).1
    · exact hframes _ h.frames x hx

/-- A call on the way is over. -/
theorem ended {code : Script.Code (Place κ)} {d : Script.Done (Place κ)} (h : Within t k)
    (hm : Control.mark code k d.mark = some k') (hcode : k.resume d.outcome = some d.code) :
    Within t k' := by
  rcases Control.mark_ended hm with ⟨name, fn, next, hpos, rfl⟩ | ⟨c, f, fs, hpos, hframes, rfl⟩
  · have hnext : next d.outcome = d.code := by simpa [Control.resume, hpos] using hcode
    exact hnext ▸ h.complete hpos d.outcome
  · have hnext : f.next d.outcome = d.code := by simpa [Control.resume, hpos, hframes] using hcode
    exact hnext ▸ h.pop hframes d.outcome

end Within

end StateMachineJob

open StateMachineJob

namespace Machine

variable {κ : Type} {m : StateMachineJob κ} {s s' : Machine κ}

/-- Where the attempt stands in the turn from `state`. -/
inductive Stands (m : StateMachineJob κ) (asked : Option Prim) (got : Option (Option Message))
    (state : String) (k : Control (Place κ)) : Prop where
  | top (hpos : k.pos = .code (.loop state)) (hseq : k.seq = 0) (hframes : k.frames = [])
  | asking (hpos : k.pos = .called (Prim.recv (some m.topic)).name none (m.received state))
    (hseq : k.seq = 1) (hframes : k.frames = []) (hasked : asked = some (.recv (some m.topic)))
    (hlive : state ∉ m.final)
  | failed (e : String) (hpos : k.pos = .code (.failed e)) (hframes : k.frames = [])
  | within (x : Option Message) (hgot : got = some x) (h : Within (m.target state x) k)
    (hasked : ∀ name next, k.pos = .called name none next → asked.any m.takes = false)

/-- The machine has published the turns of `done`; `got` is what the log holds of the next
one, a message or that none has come. -/
structure Course (m : StateMachineJob κ) (s : Machine κ) (done : List Message)
    (got : Option (Option Message)) : Prop where
  numbered : ∃ H, Script.Numbered m.code s.job H
  published : s.job = .init (fun _ => none) ∧ done = [] ∨
    s.job.position = some (position (m.after done))
  turns : s.turns = m.turns done
  consumed : s.consumed = done ++ got.join.toList
  taken : m.taken done = done
  live : got ≠ none → m.after done ∉ m.final
  answer : ∀ v, s.Answered v ↔ got.map (Option.map Message.body) = some v
  returned : s.returned → m.after done ∈ m.final
  stands : ∀ a, s.job.attempt = some a → Stands m s.asked got (m.after done) a.control

/-- A final state has been published. -/
structure Over (m : StateMachineJob κ) (s : Machine κ) : Prop where
  same : s.job.diverged = false
  final : m.after s.consumed ∈ m.final
  published : s.job.position = some (position (m.after s.consumed))
  turns : s.turns = m.turns s.consumed
  taken : m.taken s.consumed = s.consumed
  stands : ∀ a, s.job.attempt = some a →
    a.control.pos = .code (.loop (m.after s.consumed)) ∧ a.control.frames = []

theorem Course.state {done : List Message} {got : Option (Option Message)}
    (h : Course m s done got) : m.currentState s.job.position = m.after done := by
  rcases h.published with ⟨hjob, rfl⟩ | hpos
  · rw [hjob]
    rfl
  · rw [hpos]
    rfl

end Machine

end Pyjobby
