import Pyjobby.MachineTurns
import Mathlib.Tactic.IntervalCases

/-! Runs of a machine with crashes: a turn goes on, or its position is committed with an
empty log, or a final state has been published. -/

namespace Pyjobby

open Transition StateMachineJob
open Script (Control Outcome)

namespace Machine

variable {κ : Type} {m : StateMachineJob κ} {s s' : Machine κ} {done : List Message}
  {got : Option (Option Message)}

variable {a : Script.Attempt (Place κ)}

theorem receive_cases {timedOut write : Bool} {lost : Option String}
    (hs : s.receive m timedOut write lost = some s') : s.asked.any m.takes = true ∧
      ∃ x job, (if timedOut then none else s.pending.head?) = x ∧
        s.job.step m.code (.settle (.ok (x.map Message.body)) write lost) = some job ∧
        s' = if write then
          { s with
            job
            pending := if timedOut then s.pending else s.pending.tail
            consumed := s.consumed ++ x.toList }
        else { s with job } := by
  simp only [Machine.receive] at hs
  split at hs
  · rename_i htakes
    obtain ⟨job, hjob, rfl⟩ := Option.map_eq_some_iff.mp hs
    exact ⟨htakes, _, job, rfl, hjob, rfl⟩
  · cases hs

theorem publish_cases {answered : Bool} (hs : s.publish m answered = some s') :
    ∃ a state, s.job.attempt = some a ∧ a.control.pos = .code (.boundary state) ∧
      a.control.frames = [] ∧ state ∈ m.final ∧
      s'.job.diverged = s.job.diverged ∧ s'.job.position = some (position state) ∧
      s'.consumed = s.consumed ∧ s'.turns = s.turns ++ s.explained m state ∧
      ∀ a', s'.job.attempt = some a' →
        a'.control.pos = .code (.loop state) ∧ a'.control.frames = [] := by
  obtain ⟨a, ha, hs⟩ := Option.bind_eq_some_iff.mp hs
  split at hs
  · rename_i state hpos hframes
    split at hs
    · rename_i hfinal
      obtain rfl := Option.some.inj hs
      refine ⟨a, state, ha, hpos, hframes, hfinal, ?_⟩
      cases answered with
      | false => exact ⟨rfl, rfl, rfl, rfl, fun a' ha' => by cases ha'⟩
      | true =>
        refine ⟨rfl, rfl, rfl, rfl, ?_⟩
        rintro a' ⟨⟩
        exact ⟨rfl, hframes⟩
    · cases hs
  · cases hs

theorem finish_cases (hs : s.finish m = some s') :
    ∃ a state, s.job.attempt = some a ∧ a.control.pos = .code (.loop state) ∧
      a.control.frames = [] ∧ state ∈ m.final ∧
      s' = { s with job := s.job.leave a, returned := true } := by
  obtain ⟨a, ha, hs⟩ := Option.bind_eq_some_iff.mp hs
  split at hs
  · rename_i state hpos hframes
    split at hs
    · rename_i hfinal
      exact ⟨a, state, ha, hpos, hframes, hfinal, (Option.some.inj hs).symm⟩
    · cases hs
  · cases hs

theorem Course.located (h : Course m s done got) (ha : s.job.attempt = some a) :
    s.job.position = some (position (m.after done)) := by
  refine h.published.resolve_left ?_
  rintro ⟨hjob, -⟩
  rw [hjob] at ha
  cases ha

/-- The turn goes on. -/
theorem Course.goOn (h : Course m s done got) {job : Script.Job (Place κ)} {asked : Option Prim}
    (hnumbered : ∃ H, Script.Numbered m.code job H) (hlog : job.log 1 = s.job.log 1)
    (hposition : job.position = some (position (m.after done)))
    (hstands : ∀ a, job.attempt = some a → Stands m asked got (m.after done) a.control) :
    Course m { s with job, asked } done got where
  numbered := hnumbered
  published := .inr hposition
  turns := h.turns
  consumed := h.consumed
  taken := h.taken
  live := h.live
  answer v := by
    rw [← h.answer v, Answered, Answered, hlog]
  returned := h.returned
  stands := hstands

/-- The entry publish leaves the position as it is, but for the first one. -/
theorem Course.entry (h : Course m s done got) : ∃ H, Script.Numbered m.code
    { s.job with position := some (position (m.after done)) } H := by
  rcases h.published with ⟨hjob, -⟩ | hposition
  · rw [hjob]
    exact ⟨[], .nil (fun _ => rfl) rfl rfl fun a ha => by cases ha⟩
  · rw [← hposition]
    exact h.numbered

theorem Course.start (h : Course m s done got) (hs : s.start m = some s') :
    Course m s' done got := by
  unfold Machine.start at hs
  split at hs
  · cases hs
  rw [h.state] at hs
  obtain ⟨job, hjob, rfl⟩ := Option.map_eq_some_iff.mp hs
  have hnumbered := Script.Numbered.step h.entry (by trivial) hjob
  obtain ⟨ha, rfl⟩ := Script.Job.step_start hjob
  refine h.goOn hnumbered rfl rfl ?_
  rintro a ⟨⟩
  exact .top rfl rfl rfl

/-- At the top of the loop the turn begins, or the answer of its `recv` is there already. -/
theorem Course.call_top (h : Course m s done got) (ha : s.job.attempt = some a)
    (hseq : a.control.seq = 0) (hframes : a.control.frames = []) (hlive : m.after done ∉ m.final)
    {a' : Script.Attempt (Place κ)}
    (ha' : (s.job.call a (Prim.recv (some m.topic)).name none (m.received (m.after done))).attempt =
      some a') :
    Stands m (some (.recv (some m.topic))) got (m.after done) a'.control := by
  obtain ⟨H, hnumbered⟩ := h.numbered
  have hsteps : a.steps (a.control.seq + 1) = s.job.log 1 := by
    rw [(hnumbered.playing a ha).1.ahead _ (Nat.lt_succ_self _), hseq]
  rcases s.job.call_eq a (Prim.recv (some m.topic)).name none (m.received (m.after done)) with
    ⟨-, -, -, heq⟩ | ⟨-, heq⟩ | ⟨row, hrow, -, herror, heq⟩
  · rw [heq] at ha'
    cases ha'
  · rw [heq] at ha'
    obtain rfl := Option.some.inj ha'
    exact .asking rfl (congrArg (· + 1) hseq) hframes rfl hlive
  · rw [heq] at ha'
    obtain rfl := Option.some.inj ha'
    obtain ⟨x, hgot, hx⟩ := Option.map_eq_some_iff.mp
      ((h.answer row.output).mp ⟨row, hsteps.symm.trans hrow, herror, rfl⟩)
    rw [← hx]
    exact .within x hgot (.received m _ x (Nat.le_add_left 1 _) hframes) fun _ _ h => by cases h

theorem Course.call (h : Course m s done got) (htidy : s.Tidy m (.script .call))
    (hs : s.scripted m .call = some s') : Course m s' done got := by
  obtain ⟨job, hjob, rfl⟩ := Option.map_eq_some_iff.mp hs
  have hnumbered : ∃ H, Script.Numbered m.code job H :=
    Script.Numbered.step h.numbered (by exact fun a ha => (htidy a ha).1) hjob
  obtain ⟨a, c, name, fn, next, ha, hpos, hhead, rfl⟩ := Script.Job.step_call hjob
  have hasks : s.asks m = m.asks c := by simp [Machine.asks, ha, hpos]
  obtain ⟨hlog, hposition⟩ := s.job.call_same a name fn next
  refine h.goOn hnumbered (by rw [hlog]) (hposition.trans (h.located ha)) fun a' ha' => ?_
  cases h.stands a ha with
  | top hpos' hseq hframes =>
    obtain rfl := Script.Pos.code.inj (hpos.symm.trans hpos')
    have hhead : m.turn (.loop (m.after done)) = .call name fn next := hhead
    simp only [turn] at hhead
    split at hhead
    · cases hhead
    · rename_i hlive
      cases hhead
      rw [hasks]
      exact h.call_top ha hseq hframes hlive ha'
  | asking hpos' => cases hpos.symm.trans hpos'
  | failed e hpos' =>
    obtain rfl := Script.Pos.code.inj (hpos.symm.trans hpos')
    cases hhead
  | within x hgot hwithin hasked =>
    have hcalled := hwithin.allocate hpos hhead
    rcases s.job.call_eq a name fn next with ⟨-, -, -, heq⟩ | ⟨-, heq⟩ | ⟨row, -, -, -, heq⟩
    · rw [heq] at ha'
      cases ha'
    · rw [heq] at ha'
      obtain rfl := Option.some.inj ha'
      refine .within x hgot hcalled fun name' next' hpos' => ?_
      have hloop : ∀ state, c ≠ .loop state := by
        rintro state rfl
        exact (hwithin.code _ hpos).not_loop
      have hnone := (htidy a ha).2 c hpos hloop
      rw [hasks]
      cases hp : m.asks c with
      | none => rfl
      | some p => simpa [hp] using hnone
    · rw [heq] at ha'
      obtain rfl := Option.some.inj ha'
      exact .within x hgot (hcalled.complete rfl _) fun _ _ h => by cases h

theorem Course.enter (h : Course m s done got) (hs : s.scripted m .enter = some s') :
    Course m s' done got := by
  obtain ⟨job, hjob, rfl⟩ := Option.map_eq_some_iff.mp hs
  have hnumbered : ∃ H, Script.Numbered m.code job H :=
    Script.Numbered.step h.numbered (by trivial) hjob
  obtain ⟨a, name, c, next, ha, hpos, rfl⟩ := Script.Job.step_enter hjob
  refine h.goOn hnumbered rfl (h.located ha) ?_
  rintro a' ⟨⟩
  cases h.stands a ha with
  | top hpos' | asking hpos' | failed _ hpos' => cases hpos.symm.trans hpos'
  | within x hgot hwithin => exact .within x hgot (hwithin.enter hpos) fun _ _ h => by cases h

theorem Course.leave (h : Course m s done got) (hs : s.scripted m .leave = some s') :
    Course m s' done got := by
  obtain ⟨job, hjob, rfl⟩ := Option.map_eq_some_iff.mp hs
  have hnumbered : ∃ H, Script.Numbered m.code job H :=
    Script.Numbered.step h.numbered (by trivial) hjob
  obtain ⟨a, ha, rfl⟩ := Option.map_eq_some_iff.mp hjob
  exact h.goOn hnumbered rfl (h.located ha) fun a' ha' => by cases ha'

/-- A call other than the `recv` of the loop is over. -/
theorem Course.ended {x : Script.Open (Place κ)} {d : Script.Done (Place κ)}
    {k' : Control (Place κ)} {log' : Script.Log (Place κ)} (h : Course m s done got)
    (ha : s.job.attempt = some a) (hm : Control.mark m.code a.control d.mark = some k')
    (hx : a.control.opens = x :: k'.opens) (hseq : d.seq = x.seq)
    (hcode : a.control.resume d.outcome = some d.code) (hlog : s.job.Writes x d.outcome log')
    (hasked : ∀ name next, a.control.pos = .called name none next →
      s.asked.any m.takes = false) :
    Course m { s with job := { s.job with log := log', attempt := some (a.complete k' d) } }
      done got := by
  have hnumbered : ∃ H, Script.Numbered m.code
      { s.job with log := log', attempt := some (a.complete k' d) } H :=
    h.numbered.imp fun H hH => hH.ended ha hm hx hseq hcode hlog
  have hnone {c : Place κ} (hpos : a.control.pos = .code c) (hframes : a.control.frames = []) :
      False := by
    simp [Control.opens, hpos, hframes, Script.openFrames] at hx
  cases h.stands a ha with
  | top hpos _ hframes => exact (hnone hpos hframes).elim
  | failed e hpos hframes => exact (hnone hpos hframes).elim
  | asking hpos _ _ hasked' =>
    have htakes := hasked _ _ hpos
    rw [hasked'] at htakes
    simp [takes] at htakes
  | within y hgot hwithin =>
    have hxseq : 1 ≠ x.seq := by
      have := hwithin.opens x (by simp [hx])
      omega
    refine h.goOn hnumbered ?_ (h.located ha) ?_
    · rcases hlog with ⟨rfl, -⟩ | ⟨result, rfl, -⟩
      · rfl
      · exact Script.Log.write_of_ne hxseq
    · rintro a' ⟨⟩
      refine .within y hgot (hwithin.ended hm hcode) fun name next hpos => ?_
      rcases Control.mark_ended hm with ⟨-, -, -, -, rfl⟩ | ⟨c, f, fs, -, -, rfl⟩ <;> cases hpos

theorem Course.settle {result : Outcome} {write : Bool} {lost : Option String}
    (h : Course m s done got) (hs : s.scripted m (.settle result write lost) = some s') :
    Course m s' done got := by
  simp only [scripted] at hs
  split at hs
  · cases hs
  · rename_i htakes
    obtain ⟨job, hjob, rfl⟩ := Option.map_eq_some_iff.mp hs
    cases Script.Job.step_move hjob with
    | ended ha hm hx hseq hcode hlog =>
      refine h.ended ha hm hx hseq hcode hlog fun _ _ _ => ?_
      simp only [Bool.or_eq_true, not_or, Bool.not_eq_true] at htakes
      exact htakes.1

theorem Course.return_ {write : Bool} {lost : Option String} (h : Course m s done got)
    (hs : s.scripted m (.return_ write lost) = some s') : Course m s' done got := by
  obtain ⟨job, hjob, rfl⟩ := Option.map_eq_some_iff.mp hs
  cases Script.Job.step_move hjob with
  | ended ha hm hx hseq hcode hlog =>
    refine h.ended ha hm hx hseq hcode hlog fun name next hpos => ?_
    simp [Script.Job.step, ha, Script.Job.return_, hpos] at hjob

theorem Course.interrupt {error : String} {write : Bool} {lost : Option String}
    (h : Course m s done got) (hs : s.scripted m (.interrupt error write lost) = some s') :
    Course m s' done got := by
  obtain ⟨job, hjob, rfl⟩ := Option.map_eq_some_iff.mp hs
  cases Script.Job.step_move hjob with
  | ended ha hm hx hseq hcode hlog =>
    refine h.ended ha hm hx hseq hcode hlog fun name next hpos => ?_
    simp [Script.Job.step, ha, Script.Job.interrupt, hpos] at hjob

/-- The turn that the log explains is the one of the message it holds. -/
theorem Course.explains {x : Option Message} (h : Course m s done (some x)) :
    s.explained m (m.target (m.after done) x) =
      x.toList.map fun y => ⟨m.after done, y.body, m.react (m.after done) y⟩ := by
  obtain ⟨row, hrow, -, hout⟩ := (h.answer (x.map Message.body)).mpr rfl
  rw [explained, hrow, Option.bind_some, hout, h.state]
  cases x <;> rfl

/-- What is published with the end of a turn. -/
theorem Course.next {x : Option Message} (h : Course m s done (some x)) :
    s.consumed = done ++ x.toList ∧
    m.after s.consumed = m.target (m.after done) x ∧
    s.turns ++ s.explained m (m.target (m.after done) x) = m.turns s.consumed ∧
    m.taken s.consumed = s.consumed := by
  have hconsumed : s.consumed = done ++ x.toList := h.consumed
  rw [h.explains, h.turns, hconsumed]
  cases x with
  | none =>
    rw [Option.toList_none, List.map_nil, List.append_nil, List.append_nil]
    exact ⟨rfl, rfl, rfl, h.taken⟩
  | some y =>
    refine ⟨rfl, m.after_concat done y, (m.turns_concat done y).symm, ?_⟩
    rw [Option.toList_some, taken_append h.taken, takenFrom_live (h.live (by simp))]
    rfl

theorem Course.commit {answered : Bool} (h : Course m s done got)
    (hs : s.scripted m (.commit answered) = some s') : Course m s' s'.consumed none := by
  obtain ⟨job, hjob, rfl⟩ := Option.map_eq_some_iff.mp hs
  obtain ⟨a, c, value, next, ha, hpos, hhead, rfl⟩ := Script.Job.step_commit hjob
  cases h.stands a ha with
  | top hpos' =>
    obtain rfl := Script.Pos.code.inj (hpos.symm.trans hpos')
    have hhead : m.turn (.loop (m.after done)) = .commitPosition value next := hhead
    simp only [turn] at hhead
    split at hhead <;> cases hhead
  | asking hpos' => cases hpos.symm.trans hpos'
  | failed e hpos' =>
    obtain rfl := Script.Pos.code.inj (hpos.symm.trans hpos')
    cases hhead
  | within x hgot hwithin =>
    subst hgot
    obtain ⟨hframes, rfl, rfl⟩ := turn_commit (hwithin.code c hpos) hhead
    obtain ⟨-, hafter, hturns, htaken⟩ := h.next
    obtain ⟨H, hnumbered⟩ := h.numbered
    exact {
      numbered := ⟨[], hnumbered.commit hframes rfl⟩
      published := .inr (hafter ▸ rfl)
      turns := hturns
      consumed := (List.append_nil _).symm
      taken := htaken
      live := fun hnone => absurd rfl hnone
      answer := fun v => by simp [Answered, Script.Job.commit]
      returned := fun hr => absurd (h.returned hr) (h.live (by simp))
      stands := by
        intro a' ha'
        cases answered with
        | false => cases ha'
        | true =>
          obtain rfl := Option.some.inj ha'
          exact .top (hafter ▸ rfl) rfl hframes }

/-- While a `recv` has no answer yet, the log holds none. -/
theorem Course.asked_first (h : Course m s done got) (ha : s.job.attempt = some a) {name : String}
    {fn : Option (Place κ)} {next : Outcome → Place κ} (hpos : a.control.pos = .called name fn next)
    (hseq : a.control.seq = 1) : got = none := by
  obtain ⟨H, hnumbered⟩ := h.numbered
  cases got with
  | none => rfl
  | some x =>
    have hunsaved := (hnumbered.playing a ha).2 ⟨a.control.seq, name, a.control.levels⟩
      (by simp [Control.opens, hpos]) (x.map Message.body)
    rw [hseq] at hunsaved
    exact absurd ((h.answer _).mpr rfl) hunsaved

theorem Course.receive {timedOut write : Bool} {lost : Option String} (h : Course m s done got)
    (hs : s.receive m timedOut write lost = some s') : ∃ got', Course m s' done got' := by
  obtain ⟨htakes, x, job, -, hjob, rfl⟩ := receive_cases hs
  have hnumbered : ∃ H, Script.Numbered m.code job H :=
    Script.Numbered.step h.numbered (by trivial) hjob
  obtain ⟨a, name, next, ha, hpos, hrecord⟩ := Script.Job.step_settle hjob
  cases h.stands a ha with
  | top hpos' | failed _ hpos' => cases hpos.symm.trans hpos'
  | within _ _ _ hasked => simp [hasked _ _ hpos] at htakes
  | asking hpos' hseq hframes hasked hlive =>
    obtain rfl := h.asked_first ha hpos hseq
    obtain ⟨rfl, -, rfl⟩ := Script.Pos.called.inj (hpos.symm.trans hpos')
    unfold Script.Job.record at hrecord
    split at hrecord
    · cases hrecord
    rename_i hwrite
    obtain rfl := Option.some.inj hrecord
    cases write with
    | false =>
      cases lost with
      | none => simp at hwrite
      | some e =>
        refine ⟨none, h.goOn hnumbered rfl (h.located ha) ?_⟩
        rintro a' ⟨⟩
        exact .failed e rfl hframes
    | true =>
      -- the message is consumed with its checkpoint, whether the code is told or not
      have hholds : (s.job.log.write a.control.seq
          (.of (Prim.recv (some m.topic)).name ⟨s.job.position, a.control.levels⟩
            (.ok (x.map Message.body)))).Holds a.control.seq (x.map Message.body) :=
        Script.Log.write_holds _ _ _
      rw [hseq] at hholds
      refine ⟨some x, hnumbered, .inr (h.located ha), h.turns, ?_, h.taken, fun _ => hlive,
        fun v => ?_, h.returned, ?_⟩
      · exact congrArg (· ++ x.toList) (h.consumed.trans (List.append_nil _))
      · rw [Answered, if_pos rfl, if_pos rfl, hseq]
        constructor
        · rintro ⟨row, hrow, -, rfl⟩
          obtain ⟨row', hrow', -, hout⟩ := hholds
          obtain rfl := Option.some.inj (hrow.symm.trans hrow')
          exact congrArg some hout.symm
        · intro hv
          exact Option.some.inj hv ▸ hholds
      · rintro a' ⟨⟩
        cases lost with
        | some e => exact .failed e rfl hframes
        | none => exact .within x rfl (.received m _ x hseq.ge hframes) fun _ _ h => by cases h

theorem Course.publish {answered : Bool} (h : Course m s done got)
    (hs : s.publish m answered = some s') : Over m s' := by
  obtain ⟨a, state, ha, hpos, hframes, hfinal, hsame, hposition, hconsumed, hturns, hstands⟩ :=
    publish_cases hs
  cases h.stands a ha with
  | top hpos' | asking hpos' | failed _ hpos' => cases hpos.symm.trans hpos'
  | within x hgot hwithin =>
    subst hgot
    have hlevel := hwithin.code _ hpos
    rw [hframes] at hlevel
    obtain rfl : state = m.target (m.after done) x := hlevel
    obtain ⟨-, hafter, hnext, htaken⟩ := h.next
    obtain ⟨H, hnumbered⟩ := h.numbered
    rw [← hafter] at hfinal hposition hstands
    rw [← hconsumed] at hfinal hposition hstands htaken
    exact ⟨hsame.trans hnumbered.recorded.same, hfinal, hposition,
      by rw [hturns, hnext, hconsumed], htaken, hstands⟩

theorem Course.finish (h : Course m s done got) (hs : s.finish m = some s') :
    Course m s' done got := by
  obtain ⟨a, state, ha, hpos, -, hfinal, rfl⟩ := finish_cases hs
  cases h.stands a ha with
  | asking hpos' | failed _ hpos' => cases hpos.symm.trans hpos'
  | within _ _ hwithin => exact (hwithin.code _ hpos).not_loop.elim
  | top hpos' =>
    cases hpos.symm.trans hpos'
    obtain ⟨H, hnumbered⟩ := h.numbered
    exact { h with
      numbered := ⟨H, hnumbered.leave ha⟩
      published := .inr (h.located ha)
      returned := fun _ => hfinal
      stands := fun a' ha' => by cases ha' }

theorem Course.step {act : MachineAct} (h : Course m s done got) (hact : s.Tidy m act)
    (hs : s.step m act = some s') : (∃ done got, Course m s' done got) ∨ Over m s' := by
  cases act with
  | arrive x =>
    obtain rfl := Option.some.inj hs
    exact .inl ⟨done, got, { h with }⟩
  | script a =>
    left
    cases a with
    | start => exact ⟨_, _, h.start hs⟩
    | call => exact ⟨_, _, h.call hact hs⟩
    | enter => exact ⟨_, _, h.enter hs⟩
    | settle result write lost => exact ⟨_, _, h.settle hs⟩
    | return_ write lost => exact ⟨_, _, h.return_ hs⟩
    | interrupt error write lost => exact ⟨_, _, h.interrupt hs⟩
    | commit answered => exact ⟨_, _, h.commit hs⟩
    | leave => exact ⟨_, _, h.leave hs⟩
  | receive timedOut write lost => exact .inl ⟨_, h.receive hs⟩
  | publish answered => exact .inr (h.publish hs)
  | finish => exact .inl ⟨_, _, h.finish hs⟩

theorem Over.state (h : Over m s) : m.currentState s.job.position = m.after s.consumed := by
  rw [h.published]
  rfl

/-- After a final state nothing is left to do but to return. -/
theorem Over.scripted {a : Script.Act} (h : Over m s) (hs : s.scripted m a = some s') :
    Over m s' := by
  have hnone {b : Script.Attempt (Place κ)} {x : Script.Open (Place κ)} {k' : Control (Place κ)}
      (hb : s.job.attempt = some b) (hx : b.control.opens = x :: k'.opens) : False := by
    obtain ⟨hpos, hframes⟩ := h.stands b hb
    simp [Control.opens, hpos, hframes, Script.openFrames] at hx
  have hend {b : Script.Attempt (Place κ)} {c : Place κ} {t : Script.Turn (Place κ)}
      (hb : s.job.attempt = some b) (hpos : b.control.pos = .code c) (hhead : m.turn c = t) :
      t = .ret none := by
    obtain rfl := Script.Pos.code.inj (hpos.symm.trans (h.stands b hb).1)
    exact hhead.symm.trans (if_pos h.final)
  cases a with
  | start =>
    simp only [Machine.scripted, Machine.start] at hs
    split at hs
    · cases hs
    rw [h.state] at hs
    obtain ⟨job, hjob, rfl⟩ := Option.map_eq_some_iff.mp hs
    obtain ⟨ha, rfl⟩ := Script.Job.step_start hjob
    refine ⟨h.same, h.final, rfl, h.turns, h.taken, ?_⟩
    rintro b ⟨⟩
    exact ⟨rfl, rfl⟩
  | call =>
    obtain ⟨job, hjob, rfl⟩ := Option.map_eq_some_iff.mp hs
    obtain ⟨b, c, name, fn, next, hb, hpos, hhead, rfl⟩ := Script.Job.step_call hjob
    cases hend hb hpos hhead
  | enter =>
    obtain ⟨job, hjob, rfl⟩ := Option.map_eq_some_iff.mp hs
    obtain ⟨b, name, c, next, hb, hpos, rfl⟩ := Script.Job.step_enter hjob
    cases hpos.symm.trans (h.stands b hb).1
  | settle result write lost =>
    simp only [Machine.scripted] at hs
    split at hs
    · cases hs
    obtain ⟨job, hjob, rfl⟩ := Option.map_eq_some_iff.mp hs
    cases Script.Job.step_move hjob with
    | ended hb _ hx => exact (hnone hb hx).elim
  | return_ write lost =>
    obtain ⟨job, hjob, rfl⟩ := Option.map_eq_some_iff.mp hs
    cases Script.Job.step_move hjob with
    | ended hb _ hx => exact (hnone hb hx).elim
  | interrupt error write lost =>
    obtain ⟨job, hjob, rfl⟩ := Option.map_eq_some_iff.mp hs
    cases Script.Job.step_move hjob with
    | ended hb _ hx => exact (hnone hb hx).elim
  | commit answered =>
    obtain ⟨job, hjob, rfl⟩ := Option.map_eq_some_iff.mp hs
    obtain ⟨b, c, value, next, hb, hpos, hhead, rfl⟩ := Script.Job.step_commit hjob
    cases hend hb hpos hhead
  | leave =>
    obtain ⟨job, hjob, rfl⟩ := Option.map_eq_some_iff.mp hs
    obtain ⟨b, hb, rfl⟩ := Option.map_eq_some_iff.mp hjob
    refine ⟨h.same, h.final, h.published, h.turns, h.taken, ?_⟩
    rintro b ⟨⟩

theorem Over.step {act : MachineAct} (h : Over m s) (hs : s.step m act = some s') : Over m s' := by
  cases act with
  | arrive x =>
    obtain rfl := Option.some.inj hs
    exact { h with }
  | script a => exact h.scripted hs
  | receive timedOut write lost =>
    obtain ⟨-, x, job, -, hjob, -⟩ := receive_cases hs
    obtain ⟨a, name, next, ha, hpos, -⟩ := Script.Job.step_settle hjob
    cases hpos.symm.trans (h.stands a ha).1
  | publish answered =>
    obtain ⟨a, state, ha, hpos, -⟩ := publish_cases hs
    cases hpos.symm.trans (h.stands a ha).1
  | finish =>
    obtain ⟨a, state, -, -, -, -, rfl⟩ := finish_cases hs
    exact ⟨h.same, h.final, h.published, h.turns, h.taken, fun a' ha' => by cases ha'⟩

/-- An order whose payment is charged in a transaction, inside the action. -/
def orderMachine : StateMachineJob Nat where
  transitions :=
    ⟨[("placed", [("pay", .pair "paid" (some "charge"))]), ("paid", [("ship", .bare "shipped")])],
      by decide, by decide⟩
  initial := "placed"
  final := ["shipped"]
  topic := "fsm"
  idleSeconds := 300
  action name := if name = "charge" then some fun _ _ => 0 else none
  onUnhandled _ _ _ := 1
  body c := if c = 0 then .call (.transaction "charge") fun _ => 1 else .ret none
  repr _ := ""
  valid := by decide +kernel

def orderEvent (event : String) : Message := ⟨.obj [("event", .str event)], fun h => by cases h⟩

def orderMail : List Message := [orderEvent "pay", orderEvent "ship"]

def chargeActs : List MachineAct :=
  [.script .start, .script .call, .receive false true none, .script .call, .script .enter,
    .script .call, .script (.settle (.ok none) true none), .script (.return_ true none)]

/-- It crashes after the charge, and then as the position is committed. -/
def orderRun : Run (Machine.step orderMachine) :=
  .ofList (.init orderMail)
    (chargeActs ++ [.script .leave, .script .start, .script .call, .script .call,
      .script (.commit false), .script .start, .script .call, .receive false true none,
      .publish true, .finish]) rfl

end Machine

end Pyjobby
