import Pyjobby.Replay

/-! One move of one attempt: it follows the answers recorded so far, and what it
records, if anything, is the answer to the next call. -/

namespace Pyjobby

open Relational Transition

/-- The call of sequence number `a.seq` is under way. -/
def OnCall (b : Body) (outs : List (Option Json)) (a : Execution Body) (p : Prim)
    (next : Option Json → Body) : Prop :=
  a.steps.isSome ∧ ∃ k, a.seq = k + 1 ∧ k ≤ outs.length ∧ b.after (outs.take k) = .call p next

def At (b : Body) (outs : List (Option Json)) (a : Execution Body) : Prop :=
  match a.phase with
  | .claimed => a.seq = 0 ∧ a.ran = []
  | .bound => a.steps.isSome ∧ a.seq = 0
  | .code c => a.steps.isSome ∧ a.seq ≤ outs.length ∧ c.settled = b.after (outs.take a.seq)
  | .running p next =>
    OnCall b outs a p next ∧ ∀ s, a.checkpoint? a.seq = some s → s.error ≠ none
  | .inTx p next _ | .recorded p next _ => OnCall b outs a p next ∧ p.atomic
  | .checkpoint p next _ => OnCall b outs a p next ∧ p.atomic = false
  | .failed seq name _ => seq = a.seq ∧ ∃ p next, OnCall b outs a p next ∧ p.name = name
  | .compacting _ _ _ => False
  | .parked _ | .raised | .gone => True

/-- What holds of every attempt, superseded or not: the checkpoints it loaded
and the answers its calls had are those of the job, and it ran no function whose
success it had loaded. -/
structure Follows (b : Body) (outs : List (Option Json)) (a : Execution Body) : Prop where
  steps : ∀ q s, a.checkpoint? q = some s → Fits b outs s
  answers : ∀ x ∈ a.answers, ∃ k, x.1 = k + 1 ∧ outs[k]? = some x.2
  frames : a.frames = []
  diverged : a.diverged = false
  ran : ∀ q ∈ a.ran, a.steps.isSome ∧ ∀ s, a.checkpoint? q = some s → s.error ≠ none
  at_ : At b outs a

/-- What holds besides of the attempt that has the row's epoch: no answer is
recorded that it has not loaded, or recorded itself. -/
def Upto (jid : Nat) (db : Db) (outs : List (Option Json)) (a : Execution Body) : Prop :=
  match a.phase with
  | .claimed => a.resumes ∨ ∀ seq, db.step.find? (jid, seq) = none
  | .bound | .code _ =>
    ∀ k, a.seq ≤ k → k < outs.length → ∃ s, a.checkpoint? (k + 1) = some s ∧ s.error = none
  | .running p _ =>
    match p with
    | .recv _ => outs.length ≤ a.seq
    | _ => outs.length < a.seq
  | .inTx _ _ _ | .recorded _ _ _ => outs.length < a.seq
  | .checkpoint _ _ output =>
    outs.length < a.seq ∨ outs.length = a.seq ∧ outs[a.seq - 1]? = some output
  | .failed _ _ _ => outs.length ≤ a.seq
  | .compacting _ _ _ | .parked _ | .raised | .gone => True

section Mono

variable {b : Body} {outs outs' : List (Option Json)} {a : Execution Body}

theorem Fits.extend {s : StepRow} (hpre : outs <+: outs') (h : Fits b outs s) :
    Fits b outs' s := by
  obtain ⟨vs, rfl⟩ := hpre
  exact h.mono

theorem OnCall.extend {p : Prim} {next : Option Json → Body} (hpre : outs <+: outs')
    (h : OnCall b outs a p next) : OnCall b outs' a p next := by
  obtain ⟨hsteps, k, hseq, hk, hafter⟩ := h
  exact ⟨hsteps, k, hseq, hk.trans hpre.length_le, Lists.take_extend hpre hk ▸ hafter⟩

theorem At.extend (hpre : outs <+: outs') (h : At b outs a) : At b outs' a := by
  unfold At at h ⊢
  split at h
  · exact h
  · exact h
  · obtain ⟨hsteps, hseq, hafter⟩ := h
    exact ⟨hsteps, hseq.trans hpre.length_le, Lists.take_extend hpre hseq ▸ hafter⟩
  · exact ⟨h.1.extend hpre, h.2⟩
  · exact ⟨h.1.extend hpre, h.2⟩
  · exact ⟨h.1.extend hpre, h.2⟩
  · exact ⟨h.1.extend hpre, h.2⟩
  · obtain ⟨hseq, p, next, hcall, hname⟩ := h
    exact ⟨hseq, p, next, hcall.extend hpre, hname⟩
  · exact h
  · trivial
  · trivial
  · trivial

theorem Follows.extend (hpre : outs <+: outs') (h : Follows b outs a) : Follows b outs' a where
  steps q s hs := (h.steps q s hs).extend hpre
  answers x hx := by
    obtain ⟨k, hk, hout⟩ := h.answers x hx
    exact ⟨k, hk, Lists.getElem?_extend hpre hout⟩
  frames := h.frames
  diverged := h.diverged
  ran := h.ran
  at_ := h.at_.extend hpre

theorem Upto.congr {jid : Nat} {db db' : Db}
    (heq : ∀ seq, db'.step.find? (jid, seq) = db.step.find? (jid, seq))
    (h : Upto jid db outs a) : Upto jid db' outs a := by
  unfold Upto at h ⊢
  split at h
  · exact h.imp_right fun hnone seq => (heq seq).trans (hnone seq)
  all_goals exact h

end Mono

/-- The job's code has been left, for good. -/
def Phase.isOut {κ : Type} : Phase κ → Bool
  | parked _ | raised | gone => true
  | _ => false

theorem Follows.out {b : Body} {outs : List (Option Json)} {a : Execution Body}
    (h : Follows b outs a) {seq : Nat} {phase : Phase Body} {frames : List (Frame Body)}
    (hframes : frames = []) (hphase : phase.isOut) :
    Follows b outs { a with seq, phase, frames } :=
  { h with
    frames := hframes
    at_ := by
      cases phase with
      | parked | raised | gone => trivial
      | _ => cases hphase }

theorem Upto.out {jid : Nat} {db : Db} {outs : List (Option Json)} {a : Execution Body}
    (h : a.phase.isOut) : Upto jid db outs a := by
  unfold Upto
  cases hphase : a.phase with
  | parked | raised | gone => trivial
  | _ => simp [hphase, Phase.isOut] at h

theorem after_answer {b : Body} {outs outs' : List (Option Json)} {k : Nat} {p : Prim}
    {next : Option Json → Body} {v : Option Json} (hpre : outs <+: outs') (hk : k ≤ outs.length)
    (hafter : b.after (outs.take k) = .call p next) (hout : outs'[k]? = some v) :
    b.after (outs'.take (k + 1)) = (next (p.reply v)).settled := by
  obtain ⟨hlt, hv⟩ := List.getElem?_eq_some_iff.mp hout
  rw [List.take_succ_eq_append_getElem hlt, hv, Lists.take_extend hpre hk]
  exact Body.after_concat hafter v

theorem Follows.answer {b : Body} {outs outs' : List (Option Json)} {a : Execution Body} {k : Nat}
    {p : Prim} {next : Option Json → Body} {v : Option Json} (h : Follows b outs a)
    (hpre : outs <+: outs') (hsteps : a.steps.isSome) (hk : k ≤ outs.length)
    (hafter : b.after (outs.take k) = .call p next) (hout : outs'[k]? = some v) {seq : Nat}
    (hseq : seq = k + 1) : Follows b outs' (Execution.answer { a with seq } p next v) := by
  subst hseq
  refine { h.extend hpre with answers := fun x hx => ?_, at_ := ⟨hsteps, ?_, ?_⟩ }
  · rcases List.mem_append.mp hx with hx | hx
    · exact (h.extend hpre).answers x hx
    · obtain rfl := List.mem_singleton.mp hx
      exact ⟨k, rfl, hout⟩
  · exact (List.getElem?_eq_some_iff.mp hout).1
  · exact (after_answer hpre hk hafter hout).symm

theorem Upto.answer {jid : Nat} {db : Db} {outs : List (Option Json)} {a : Execution Body}
    {p : Prim} {next : Option Json → Body} {v : Option Json} (h : outs.length ≤ a.seq) :
    Upto jid db outs (a.answer p next v) :=
  fun _ hk hlt => absurd (Nat.lt_of_le_of_lt hk hlt) (Nat.not_lt.mpr h)

theorem Checkpoints.answer {b : Body} {jid : Nat} {db db' : Db} {outs : List (Option Json)}
    {k : Nat} {p : Prim} {v : Option Json} {row : StepRow} (h : Checkpoints b jid db outs)
    (hcall : b.callAt (outs.take k) = some p)
    (hlen : outs.length = k ∨ outs.length = k + 1 ∧ outs[k]? = some v)
    (hother : ∀ q, q ≠ k + 1 → db'.step.find? (jid, q) = db.step.find? (jid, q))
    (hrow : db'.step.find? (jid, k + 1) = some row) (hname : row.name = p.name)
    (hout : row.output = v) (he : row.error = none) :
    ∃ outs', outs <+: outs' ∧ outs'.length = k + 1 ∧ outs'[k]? = some v ∧
      Checkpoints b jid db' outs' ∧
      b.effects outs' = b.effects outs ++
        if outs.length = k ∧ p.atomic then [(k + 1, p)] else [] := by
  subst hout
  rcases hlen with rfl | ⟨hlen, hv⟩
  · have hnew : (outs ++ [row.output])[outs.length]? = some row.output := by simp
    refine ⟨outs ++ [row.output], List.prefix_append _ _, by simp, hnew,
      h.success (Nat.le_refl _) hcall (List.prefix_append _ _)
        (by simp) hnew hother hrow hname he, ?_⟩
    rw [List.take_length] at hcall
    simpa using Body.effects_concat hcall row.output
  · refine ⟨outs, List.prefix_refl _, hlen, hv,
      h.success (by omega) hcall (List.prefix_refl _) hlen hv hother hrow hname he, ?_⟩
    simp [hlen]

def Done (jid : Nat) (w : World) : Prop := ∃ r ∈ w.db.jorb, r.id = jid ∧ r.state = .finished

structure Stands (b : Body) (jid : Nat) (w : World) (outs : List (Option Json))
    (a : Execution Body) : Prop where
  id : a.row.id = jid
  checkpoints : Checkpoints b jid w.db outs
  follows : Follows b outs a
  upto : w.owns a.row → Upto jid w.db outs a
  held : a.locks → w.owns a.row
  back : ∀ w', Issued w a.row w' → w'.owns a.row → w.owns a.row

/-- What a move comes to: it may record one more answer, together with its
effect where the call has one; only the owner of the row does so. -/
structure Progress (b : Body) (jid : Nat) (w : World) (outs : List (Option Json))
    (a : Execution Body) (w' : World) (a' : Execution Body) (entries : List Entry)
    (outs' : List (Option Json)) : Prop where
  grows : outs <+: outs'
  checkpoints : Checkpoints b jid w'.db outs'
  follows : Follows b outs' a'
  upto : w'.owns a.row → Upto jid w'.db outs' a'
  effects : b.effects outs' = b.effects outs ++ entries.filterMap Entry.effect?
  others : w.owns a.row ∨
    outs' = outs ∧ ∀ seq, w'.db.step.find? (jid, seq) = w.db.step.find? (jid, seq)
  done : Done jid w' → Done jid w ∨ ∃ result, b.after outs' = .done result

namespace Stands

variable {b : Body} {jid : Nat} {w w' : World} {outs : List (Option Json)} {a a' : Execution Body}
  {entries : List Entry}

theorem quiet (h : Stands b jid w outs a) (hstep : w'.db.step = w.db.step)
    (hjorb : w'.db.jorb = w.db.jorb) (hfollows : Follows b outs a')
    (hupto : w.owns a.row → Upto jid w.db outs a')
    (hentries : entries.filterMap Entry.effect? = []) :
    Progress b jid w outs a w' a' entries outs where
  grows := List.prefix_refl _
  checkpoints := h.checkpoints.congr fun _ => by rw [hstep]
  follows := hfollows
  upto howns := (hupto (World.owns_congr hjorb a.row ▸ howns)).congr fun _ => by rw [hstep]
  effects := by rw [hentries, List.append_nil]
  others := .inr ⟨rfl, fun _ => by rw [hstep]⟩
  done := fun ⟨r, hr, hd⟩ => .inl ⟨r, hjorb ▸ hr, hd⟩

theorem inner (h : Stands b jid w outs a) (hfollows : Follows b outs a')
    (hupto : w.owns a.row → Upto jid w.db outs a') : Progress b jid w outs a w a' [] outs :=
  h.quiet rfl rfl hfollows hupto rfl

theorem out (h : Stands b jid w outs a) {seq : Nat} {phase : Phase Body}
    {frames : List (Frame Body)} (hframes : frames = []) (hphase : phase.isOut) :
    Progress b jid w outs a w { a with seq, phase, frames } [] outs :=
  h.inner (h.follows.out hframes hphase) fun _ => Upto.out hphase

theorem issued (h : Stands b jid w outs a) {s : WorkerStmt} (hw : w.worker a.row s = some w')
    (hs : ∀ result, s = .finished result → ∃ result, b.after outs = .done result)
    (hfollows : Follows b outs a') (hupto : w.owns a.row → Upto jid w.db outs a') :
    Progress b jid w outs a w' a' [] outs := by
  have hstep : w'.db.step = w.db.step := by
    obtain ⟨wakes, rfl⟩ := World.worker_eq hw
    rfl
  refine ⟨List.prefix_refl _, h.checkpoints.congr fun _ => by rw [hstep], hfollows,
    fun howns => ?_, by simp, .inr ⟨rfl, fun _ => by rw [hstep]⟩, ?_⟩
  · exact (hupto (h.back w' (.worker s hw) howns)).congr fun _ => by rw [hstep]
  · rintro ⟨r, hr, hid, hfin⟩
    rcases World.worker_finished hw hr hfin with hr | ⟨-, result, rfl⟩
    · exact .inl ⟨r, hr, hid, hfin⟩
    · exact .inr (hs result rfl)

theorem issue (h : Stands b jid w outs a) {s : WorkerStmt} {next : Execution Body} {ack : Bool}
    (hw : a.issue next w s ack = some (w', a'))
    (hs : ∀ result, s = .finished result → ∃ result, b.after outs = .done result)
    (hfollows : Follows b outs next) (hupto : w.owns a.row → Upto jid w.db outs next) :
    Progress b jid w outs a w' a' [] outs := by
  obtain ⟨w₁, hw₁, heq⟩ := Option.map_eq_some_iff.mp hw
  cases heq
  cases ack
  · exact h.issued hw₁ hs h.follows h.upto
  · exact h.issued hw₁ hs hfollows hupto

theorem load (h : Stands b jid w outs a) (hphase : a.phase = .claimed) :
    Progress b jid w outs a w (a.load w.db) [] outs := by
  obtain ⟨hseq, hran⟩ : a.seq = 0 ∧ a.ran = [] := by simpa only [At, hphase] using h.follows.at_
  have hloaded := fun q => a.checkpoint?_load w.db q
  refine h.inner ?_ fun howns => ?_
  · refine { h.follows with steps := fun q s hs => ?_, ran := fun q hq => ?_, at_ := ⟨rfl, hseq⟩ }
    · rw [hloaded, h.id] at hs
      split at hs
      · exact h.checkpoints.fits q s hs
      · cases hs
    · rw [show (a.load w.db).ran = [] from hran] at hq
      cases hq
  · have hupto := h.upto howns
    simp only [Upto, hphase] at hupto
    intro k hk hlt
    obtain ⟨s, hs, he⟩ := h.checkpoints.total k hlt
    refine ⟨s, ?_, he⟩
    rw [hloaded, h.id]
    rcases hupto with hres | hnone
    · rw [if_pos hres, hs]
    · rw [hnone] at hs
      cases hs

theorem start (h : Stands b jid w outs a) {timeout : Option Int} {ack : Bool}
    (hphase : a.phase = .bound) (hm : a.start b.program w timeout ack = some (w', a')) :
    Progress b jid w outs a w' a' [] outs := by
  obtain ⟨hsteps, hseq⟩ : a.steps.isSome ∧ a.seq = 0 := by
    simpa only [At, hphase] using h.follows.at_
  refine h.issue hm (fun _ hs => by cases hs) ?_ fun howns => ?_
  · split_ifs
    · exact h.follows.out rfl rfl
    · exact h.follows.out rfl rfl
    · exact { h.follows with
        at_ := ⟨hsteps, by simp [hseq], by simp [hseq, Body.after, Body.program]⟩ }
  · split_ifs
    · trivial
    · trivial
    · have hupto := h.upto howns
      simp only [Upto, hphase] at hupto
      exact hupto

theorem onCall (h : Stands b jid w outs a) {c : Body} {p : Prim} {next : Option Json → Body}
    (hphase : a.phase = .code c) (hc : c = .call p next) :
    a.steps.isSome ∧ a.seq ≤ outs.length ∧ b.after (outs.take a.seq) = .call p next := by
  subst hc
  have hat : a.steps.isSome ∧ a.seq ≤ outs.length ∧
      (Body.call p next).settled = b.after (outs.take a.seq) := by
    simpa only [At, hphase] using h.follows.at_
  exact ⟨hat.1, hat.2.1, hat.2.2.symm⟩

theorem replays (h : Stands b jid w outs a) {p : Prim} {next : Option Json → Body} {s : StepRow}
    (hafter : b.after (outs.take a.seq) = .call p next)
    (hs : a.checkpoint? (a.seq + 1) = some s) :
    s.name = p.name ∧ (s.error = none → outs[a.seq]? = some s.output) ∧
      (s.error ≠ none → s.output = none) := by
  obtain ⟨k, hseq, hk, hname, hout⟩ := h.follows.steps _ s hs
  have := Execution.stepSeq_of_checkpoint? hs
  obtain rfl : k = a.seq := by omega
  rw [Body.callAt_eq_some.mpr ⟨next, hafter⟩] at hname
  exact ⟨(Option.some.inj hname).symm, hout⟩

theorem run (h : Stands b jid w outs a) {c : Body} {p : Prim} {next : Option Json → Body}
    (hphase : a.phase = .code c) (hc : c = .call p next)
    (hopen : ∀ s, a.checkpoint? (a.seq + 1) = some s → s.error ≠ none) :
    Progress b jid w outs a w { a with seq := a.seq + 1, phase := .running p next } [] outs := by
  obtain ⟨hsteps, hle, hafter⟩ := h.onCall hphase hc
  refine h.inner { h.follows with at_ := ⟨⟨hsteps, a.seq, rfl, hle, hafter⟩, hopen⟩ }
    fun howns => ?_
  have hupto : ∀ k, a.seq ≤ k → k < outs.length →
      ∃ s, a.checkpoint? (k + 1) = some s ∧ s.error = none := by
    simpa only [Upto, hphase] using h.upto howns
  have hlen : outs.length ≤ a.seq := by
    refine Nat.le_of_not_lt fun hlt => ?_
    obtain ⟨s, hs, he⟩ := hupto a.seq (Nat.le_refl _) hlt
    exact hopen s hs he
  cases p with
  | recv => exact Nat.le_succ_of_le hlen
  | _ => exact Nat.lt_succ_of_le hlen

theorem replay (h : Stands b jid w outs a) {c : Body} {p : Prim} {next : Option Json → Body}
    {s : StepRow} (hphase : a.phase = .code c) (hc : c = .call p next)
    (hs : a.checkpoint? (a.seq + 1) = some s) (he : s.error = none) :
    Progress b jid w outs a w (Execution.answer { a with seq := a.seq + 1 } p next s.output) []
      outs := by
  obtain ⟨hsteps, hle, hafter⟩ := h.onCall hphase hc
  have hout := (h.replays hafter hs).2.1 he
  refine h.inner (h.follows.answer (List.prefix_refl _) hsteps hle hafter hout rfl) fun howns => ?_
  have hupto : ∀ k, a.seq ≤ k → k < outs.length →
      ∃ s, a.checkpoint? (k + 1) = some s ∧ s.error = none := by
    simpa only [Upto, hphase] using h.upto howns
  exact fun k hk => hupto k (Nat.le_of_succ_le hk)

theorem call (h : Stands b jid w outs a) {c : Body} {p : Prim} {next : Option Json → Body}
    (hphase : a.phase = .code c) (hc : c = .call p next) :
    Progress b jid w outs a w (a.call w.clock p next) [] outs := by
  obtain ⟨hsteps, hle, hafter⟩ := h.onCall hphase hc
  have hlook : ∀ q, Execution.checkpoint? { a with seq := a.seq + 1 } q =
    a.checkpoint? q := fun _ => rfl
  simp only [Execution.call, hlook]
  cases hs : a.checkpoint? (a.seq + 1) with
  | none => exact h.run hphase hc fun s hs' => by simp [hs] at hs'
  | some s =>
    obtain ⟨hname, -, hnone⟩ := h.replays hafter hs
    have hrun : s.error ≠ none → Progress b jid w outs a w
        { a with seq := a.seq + 1, phase := .running p next } [] outs :=
      fun he => h.run hphase hc fun t ht => Option.some.inj (hs.symm.trans ht) ▸ he
    simp only [hname, ne_eq, not_true_eq_false, if_false]
    cases p with
    | sleep interval =>
      cases hwake : wakeAt s.output with
      | none => exact h.out rfl rfl
      | some at_ =>
        have he : s.error = none := Classical.byContradiction fun hne => by
          simp [hnone hne, wakeAt] at hwake
        simp only
        split
        · exact h.replay hphase hc hs he
        · exact h.out h.follows.frames rfl
    | _ =>
      simp only
      split
      · exact h.replay hphase hc hs (by simpa using ‹s.error.isNone›)
      · exact hrun (by simpa using ‹¬s.error.isNone›)

theorem running (h : Stands b jid w outs a) {p : Prim} {next : Option Json → Body}
    (hphase : a.phase = .running p next) :
    OnCall b outs a p next ∧ ∀ s, a.checkpoint? a.seq = some s → s.error ≠ none := by
  simpa only [At, hphase] using h.follows.at_

theorem ran (h : Stands b jid w outs a) {p : Prim} {next : Option Json → Body}
    (hphase : a.phase = .running p next) {phase : Phase Body}
    (hat : At b outs { a with ran := a.ran ++ [a.seq], phase }) :
    Follows b outs { a with ran := a.ran ++ [a.seq], phase } := by
  obtain ⟨hcall, hopen⟩ := h.running hphase
  refine { h.follows with ran := fun q hq => ?_, at_ := hat }
  rcases List.mem_append.mp hq with hq | hq
  · exact h.follows.ran q hq
  · obtain rfl := List.mem_singleton.mp hq
    exact ⟨hcall.1, hopen⟩

theorem invoke (h : Stands b jid w outs a) {p : Prim} {next : Option Json → Body}
    {result : Except String (Option Json)} (hphase : a.phase = .running p next)
    (hm : a.invoke w.clock p next result = some a') : Progress b jid w outs a w a' [] outs := by
  obtain ⟨hcall, -⟩ := h.running hphase
  have hupto : w.owns a.row → Upto jid w.db outs a := h.upto
  simp only [Upto, hphase] at hupto
  unfold Execution.invoke at hm
  split at hm
  · cases hm
    exact h.inner (h.ran hphase ⟨hcall, rfl⟩) fun howns => .inl (hupto howns)
  · cases hm
    exact h.inner (h.ran hphase ⟨hcall, rfl⟩) hupto
  · cases hm
    exact h.inner (h.ran hphase ⟨rfl, _, next, hcall, rfl⟩) fun howns => Nat.le_of_lt (hupto howns)
  · cases hm
    exact h.inner (h.ran hphase ⟨rfl, _, next, hcall, rfl⟩) fun howns => Nat.le_of_lt (hupto howns)
  · cases hm
    exact h.inner { h.follows with at_ := ⟨hcall, rfl⟩ } fun howns => .inl (hupto howns)
  · cases hm

theorem execute (h : Stands b jid w outs a) {p : Prim} {next : Option Json → Body} {error : String}
    (hphase : a.phase = .running p next) (hm : a.execute w p next error = some a') :
    Progress b jid w outs a w a' [] outs := by
  obtain ⟨hcall, -⟩ := h.running hphase
  have hatomic : p.statement.isSome → p.atomic ∧ (w.owns a.row → outs.length < a.seq) := by
    intro hs
    have hupto : w.owns a.row → Upto jid w.db outs a := h.upto
    simp only [Upto, hphase] at hupto
    cases p with
    | send | streamWrite => exact ⟨rfl, hupto⟩
    | _ => cases hs
  unfold Execution.execute at hm
  dsimp only at hm
  split_ifs at hm with hstmt howns
  all_goals
    obtain ⟨hp, hlt⟩ := hatomic (by simpa [Option.isSome_iff_ne_none] using hstmt)
    cases hm
  · have hran : Follows b outs { a with ran := a.ran ++ [a.seq], phase := .gone } :=
      h.ran hphase trivial
    exact h.inner { hran with frames := rfl } fun _ => trivial
  · exact h.inner (h.ran hphase ⟨rfl, p, next, hcall, rfl⟩) fun howns => Nat.le_of_lt (hlt howns)
  · exact h.inner (h.ran hphase ⟨hcall, hp⟩) hlt

theorem stale (h : Stands b jid w outs a) (howns : w.owns a.row = false) {s : DurableStmt}
    (hw : w.durable a.row s = some w') (next : Execution Body) (ack : Bool) :
    Progress b jid w outs a w' (a.answered next w ack) [] outs := by
  obtain rfl := World.durable_of_stale howns hw
  cases ack
  · exact h.inner h.follows h.upto
  · rw [Execution.answered_of_stale howns]
    exact h.out rfl rfl

theorem recorded (h : Stands b jid w outs a) {p : Prim} {next : Option Json → Body}
    {v : Option Json} {row : StepRow} (hcall : OnCall b outs a p next)
    (hlen : outs.length < a.seq ∨ outs.length = a.seq ∧ outs[a.seq - 1]? = some v)
    (howns : w.owns a.row) (hjorb : w'.db.jorb = w.db.jorb)
    (hother : ∀ q, q ≠ a.seq → w'.db.step.find? (jid, q) = w.db.step.find? (jid, q))
    (hrow : w'.db.step.find? (jid, a.seq) = some row) (hname : row.name = p.name)
    (hout : row.output = v) (he : row.error = none)
    (hentries : entries.filterMap Entry.effect? =
      if outs.length < a.seq ∧ p.atomic then [(a.seq, p)] else []) :
    ∃ outs', outs <+: outs' ∧ outs'.length = a.seq ∧ outs'[a.seq - 1]? = some v ∧
      Follows b outs' (a.answer p next v) ∧ ∀ a', Follows b outs' a' → Upto jid w'.db outs' a' →
        Progress b jid w outs a w' a' entries outs' := by
  obtain ⟨hsteps, k, hseq, hk, hafter⟩ := hcall
  rw [hseq] at hlen hother hrow hentries ⊢
  have hlen' : outs.length = k ∨ outs.length = k + 1 ∧ outs[k]? = some v :=
    hlen.imp_left fun hlt => by omega
  obtain ⟨outs', hpre, hlength, hv, hcheck, heff⟩ := h.checkpoints.answer
    (Body.callAt_eq_some.mpr ⟨next, hafter⟩) hlen' hother hrow hname hout he
  refine ⟨outs', hpre, hlength, hv, h.follows.answer hpre hsteps hk hafter hv hseq,
    fun a' hfollows hupto => ⟨hpre, hcheck, hfollows, fun _ => hupto, ?_, .inl howns,
      fun ⟨r, hr, hd⟩ => .inl ⟨r, hjorb ▸ hr, hd⟩⟩⟩
  rw [heff, hentries]
  have hiff : outs.length = k ↔ outs.length < k + 1 := by omega
  simp only [hiff]

theorem recordSuccess (h : Stands b jid w outs a) {p : Prim} {next : Option Json → Body}
    {output : Option Json} {started : Int} {ack : Bool}
    (hphase : a.phase = .checkpoint p next output)
    (hw : w.durable a.row (.recordStep a.seq p.name output none started) = some w')
    {done : Execution Body}
    (hdone : done = a.answer p next output ∨ ∃ delay, done = { a with phase := .parked delay }) :
    ∃ outs', Progress b jid w outs a w' (a.answered done w ack) [] outs' := by
  obtain ⟨hcall, hp⟩ : OnCall b outs a p next ∧ p.atomic = false := by
    simpa only [At, hphase] using h.follows.at_
  cases howns : w.owns a.row with
  | false => exact ⟨outs, h.stale howns hw done ack⟩
  | true =>
    have hlen : outs.length < a.seq ∨ outs.length = a.seq ∧ outs[a.seq - 1]? = some output := by
      simpa only [Upto, hphase] using h.upto howns
    obtain ⟨row, hrow, hname, hout, he⟩ := World.recordStep_success howns hw
    have hnone : ([] : List Entry).filterMap Entry.effect? =
        if outs.length < a.seq ∧ p.atomic then [(a.seq, p)] else [] := by simp [hp]
    obtain ⟨outs', hpre, hlength, hv, hans, hprog⟩ := h.recorded hcall hlen howns
      (World.durable_jorb hw) (fun q hq => World.recordStep_other hw (by simpa [h.id] using hq))
      (h.id ▸ hrow) hname hout he hnone
    refine ⟨outs', ?_⟩
    cases ack
    · refine hprog a (h.follows.extend hpre) ?_
      simp only [Upto, hphase]
      exact .inr ⟨hlength, hv⟩
    · rw [Execution.answered_of_owns howns]
      rcases hdone with rfl | ⟨delay, rfl⟩
      · exact hprog _ hans (Upto.answer (Nat.le_of_eq hlength))
      · exact hprog _ ((h.follows.extend hpre).out h.follows.frames rfl) trivial

theorem recordFailure (h : Stands b jid w outs a) {seq : Nat} {name error : String} {started : Int}
    {ack : Bool} (hphase : a.phase = .failed seq name error)
    (hw : w.durable a.row (.recordStep seq name none (some error) started) = some w') :
    Progress b jid w outs a w' (a.answered (a.throw error) w ack) [] outs := by
  obtain ⟨rfl, p, next, ⟨hsteps, k, hseq, hk, hafter⟩, rfl⟩ :
      seq = a.seq ∧ ∃ p next, OnCall b outs a p next ∧ p.name = name := by
    simpa only [At, hphase] using h.follows.at_
  cases howns : w.owns a.row with
  | false => exact h.stale howns hw _ ack
  | true =>
    have hle : outs.length ≤ a.seq := by simpa only [Upto, hphase] using h.upto howns
    have hother : ∀ q, q ≠ a.seq → w'.db.step.find? (jid, q) = w.db.step.find? (jid, q) :=
      fun q hq => World.recordStep_other hw (by simpa [h.id] using hq)
    obtain ⟨row, hrow, hcase⟩ := World.recordStep_error howns hw
    rw [h.id] at hrow hcase
    have hcheck : Checkpoints b jid w'.db outs := by
      rcases hcase with ⟨hold, -⟩ | ⟨hname, hout, he, hopen⟩
      · refine h.checkpoints.congr fun q => ?_
        by_cases hq : q = a.seq
        · rw [hq, hrow, hold]
        · exact hother q hq
      · have hlen : outs.length = k := by
          refine Nat.le_antisymm (Nat.le_of_not_lt fun hlt => ?_) hk
          obtain ⟨s, hs, hsuccess⟩ := h.checkpoints.total k hlt
          exact hopen s (hseq ▸ hs) hsuccess
        subst hlen
        rw [List.take_length] at hafter
        rw [hseq] at hother hrow
        exact h.checkpoints.failure (Body.callAt_eq_some.mpr ⟨next, hafter⟩) hother hrow hname hout
          (by simp [he])
    refine ⟨List.prefix_refl _, hcheck, ?_, fun _ => ?_, by simp, .inl howns,
      fun ⟨r, hr, hd⟩ => .inl ⟨r, World.durable_jorb hw ▸ hr, hd⟩⟩
    · cases ack
      · exact h.follows
      · rw [Execution.answered_of_owns howns]
        simp only [Execution.throw, h.follows.frames]
        exact h.follows.out rfl rfl
    · cases ack
      · simp only [Execution.answered_lost, Upto, hphase]
        exact hle
      · rw [Execution.answered_of_owns howns]
        simp only [Execution.throw, h.follows.frames]
        trivial

theorem record (h : Stands b jid w outs a) {started : Int} {ack : Bool}
    (hm : a.record b.program w started ack = some (w', a')) :
    ∃ outs', Progress b jid w outs a w' a' [] outs' := by
  unfold Execution.record at hm
  split at hm
  · rename_i p next output hphase
    obtain ⟨w₁, hw₁, heq⟩ := Option.map_eq_some_iff.mp hm
    cases heq
    refine h.recordSuccess hphase hw₁ ?_
    split
    · exact .inr ⟨_, rfl⟩
    · exact .inl rfl
  · rename_i seq name error hphase
    obtain ⟨w₁, hw₁, heq⟩ := Option.map_eq_some_iff.mp hm
    cases heq
    exact ⟨outs, h.recordFailure hphase hw₁⟩
  · rename_i p next result hphase
    split at hm
    · cases hm
      exact ⟨outs, h.out rfl rfl⟩
    · split at hm
      · cases hm
      · cases hm
        have hat : At b outs a := h.follows.at_
        have hupto : w.owns a.row → Upto jid w.db outs a := h.upto
        simp only [At, Upto, hphase] at hat hupto
        exact ⟨outs, h.inner { h.follows with at_ := hat } hupto⟩
  · split at hm
    · rename_i hframes
      rw [h.follows.frames] at hframes
      cases hframes
    · cases hm
  · cases hm

theorem commit (h : Stands b jid w outs a) {started : Int} {lost : Option String}
    (hm : a.commit w started lost = some (w', a', entries)) :
    ∃ outs', Progress b jid w outs a w' a' entries outs' := by
  unfold Execution.commit at hm
  split at hm
  · rename_i p next result hphase
    dsimp only at hm
    split at hm
    · cases hm
    · obtain ⟨w₂, hw₂, heq⟩ := Option.map_eq_some_iff.mp hm
      obtain ⟨w₁, hw₁, hw₂⟩ := Option.bind_eq_some_iff.mp hw₂
      cases heq
      obtain ⟨hcall, hp⟩ : OnCall b outs a p next ∧ p.atomic := by
        simpa only [At, hphase] using h.follows.at_
      have howns : w.owns a.row := h.held (by simp [Execution.locks, hphase])
      have hlt : outs.length < a.seq := by simpa only [Upto, hphase] using h.upto howns
      obtain ⟨hstep, hjorb⟩ := World.statement_frame hw₁
      obtain ⟨row, hrow, hname, hout, he⟩ :=
        World.recordStep_success (World.owns_congr hjorb a.row ▸ howns) hw₂
      have hother : ∀ q, q ≠ a.seq → w'.db.step.find? (jid, q) = w.db.step.find? (jid, q) := by
        intro q hq
        rw [← hstep]
        exact World.recordStep_other hw₂ (by simpa [h.id] using hq)
      have heff : [Entry.effect a.seq p].filterMap Entry.effect? =
          if outs.length < a.seq ∧ p.atomic then [(a.seq, p)] else [] := by
        simp [Entry.effect?, hlt, hp]
      obtain ⟨outs', hpre, hlength, hv, hans, hprog⟩ := h.recorded hcall (.inl hlt) howns
        ((World.durable_jorb hw₂).trans hjorb) hother (h.id ▸ hrow) hname hout he heff
      refine ⟨outs', ?_⟩
      cases lost with
      | none => exact hprog _ hans (Upto.answer (Nat.le_of_eq hlength))
      | some error =>
        refine hprog _ { h.follows.extend hpre with at_ := ?_ } (Nat.le_of_eq hlength)
        exact ⟨rfl, p, next, hcall.extend hpre, rfl⟩
  · cases hm

theorem rollback (h : Stands b jid w outs a) {p : Prim} {next : Option Json → Body} {error : String}
    (hcall : OnCall b outs a p next) (hlt : w.owns a.row → outs.length < a.seq) :
    Progress b jid w outs a w { a with phase := .failed a.seq p.name error } [] outs :=
  h.inner { h.follows with at_ := ⟨rfl, p, next, hcall, rfl⟩ } fun howns => Nat.le_of_lt (hlt howns)

theorem recvIdle (h : Stands b jid w outs a) {topic : Option String} {next : Option Json → Body}
    {ack expired : Bool} (hphase : a.phase = .running (.recv topic) next) {reply : Db.RecvReply}
    (hreply : reply = ⟨w.owns a.row, (w.db.priorAnswer jid a.seq).isSome,
      (w.db.priorAnswer jid a.seq).bind StepRow.output, false, none⟩) :
    Progress b jid w outs a w
      (if !ack then a
        else if !reply.fenced then a.leave
        else if reply.replayed then a.answer (.recv topic) next reply.priorOutput
        else if reply.consumed then a.answer (.recv topic) next reply.message
        else if expired then { a with phase := .checkpoint (.recv topic) next none }
        else a) [] outs := by
  obtain ⟨hcall, -⟩ := h.running hphase
  obtain ⟨hsteps, k, hseq, hk, hafter⟩ := hcall
  have hle : w.owns a.row → outs.length ≤ a.seq := by simpa only [Upto, hphase] using h.upto
  subst hreply
  simp only [Bool.false_eq_true, if_false]
  split_ifs with hack howns hprior hexpired
  · exact h.inner h.follows h.upto
  · exact h.out rfl rfl
  · obtain ⟨s, hs⟩ := Option.isSome_iff_exists.mp hprior
    obtain ⟨hfind, he⟩ := Option.filter_eq_some_iff.mp hs
    have hout : outs[k]? = some s.output :=
      h.checkpoints.output (hseq ▸ hfind) (by simpa using he)
    rw [hs]
    exact h.inner (h.follows.answer (List.prefix_refl _) hsteps hk hafter hout hseq)
      fun howns => Upto.answer (hle howns)
  · refine h.inner { h.follows with at_ := ⟨⟨hsteps, k, hseq, hk, hafter⟩, rfl⟩ }
      fun howns => .inl ?_
    refine Nat.lt_of_le_of_ne (hle howns) fun (hlen : outs.length = a.seq) => hprior ?_
    obtain ⟨s, hs, he⟩ := h.checkpoints.total k (by omega)
    rw [Db.priorAnswer, hseq, hs, Option.filter_some, he]
    rfl
  · exact h.inner h.follows h.upto

theorem recv (h : Stands b jid w outs a) {started : Int} {ack expired : Bool}
    (hm : a.recv w started ack expired = some (w', a', entries)) :
    ∃ outs', Progress b jid w outs a w' a' entries outs' := by
  unfold Execution.recv at hm
  split at hm
  · rename_i topic next hphase
    obtain ⟨w₁, hw₁, heq⟩ := Option.map_eq_some_iff.mp hm
    obtain ⟨-, rfl⟩ := World.durable_eq_some.mp hw₁
    cases heq
    rcases w.db.recv_cases w.clock a.row.id a.seq topic
      (Prim.recv topic).name a.row.runEpoch started
      with hidle | ⟨howns, hprior, m, db', hm, hrecv, hother, row, hrow, hout, he, hname⟩
    · simp only [DurableStmt.run, hidle]
      refine ⟨outs, ?_⟩
      exact h.recvIdle hphase (by rw [← h.id])
    · have hjorb : ({ w with db := db' } : World).db.jorb = w.db.jorb := by
        simpa only [DurableStmt.run, hrecv] using World.durable_jorb hw₁
      simp only [DurableStmt.run, hrecv, if_true]
      rw [h.id] at hprior hrow hother
      have hcall := (h.running hphase).1
      have hle : outs.length ≤ a.seq := by simpa only [Upto, hphase] using h.upto howns
      obtain ⟨-, k, hseq, -, hafter⟩ := hcall
      have hlt : outs.length < a.seq := by
        refine Nat.lt_of_le_of_ne hle fun hlen => ?_
        obtain ⟨s, hs, he⟩ := h.checkpoints.total k (by omega)
        rw [Db.priorAnswer, hseq, hs, Option.filter_some, he] at hprior
        cases hprior
      have hname : row.name = (Prim.recv topic).name := by
        rcases hname with hname | ⟨old, hold, hname⟩
        · exact hname
        · obtain ⟨k', hold', -, hcallAt, -⟩ := h.checkpoints.fits _ old (h.id ▸ hold)
          have := stepSeq_of_find? (h.id ▸ hold)
          obtain rfl : k' = k := by omega
          rw [Body.callAt_eq_some.mpr ⟨next, hafter⟩] at hcallAt
          exact hname.trans (Option.some.inj hcallAt).symm
      have heff : ((w.db.pendingMail a.row.id topic).map Entry.consumed).toList.filterMap
          Entry.effect? = if outs.length < a.seq ∧ (Prim.recv topic).atomic then
            [(a.seq, Prim.recv topic)] else [] := by
        simp [hm, Entry.effect?, Prim.atomic]
      have hother' : ∀ q, q ≠ a.seq → db'.step.find? (jid, q) = w.db.step.find? (jid, q) :=
        fun q hq => hother (jid, q) (by simpa using hq)
      obtain ⟨outs', hpre, hlength, hv, hans, hprog⟩ :=
        h.recorded (h.running hphase).1 (.inl hlt) howns hjorb hother'
          hrow hname hout he heff
      refine ⟨outs', ?_⟩
      cases ack
      · refine hprog a (h.follows.extend hpre) ?_
        simp only [Upto, hphase]
        exact Nat.le_of_eq hlength
      · exact hprog _ hans (Upto.answer (Nat.le_of_eq hlength))
  · cases hm

theorem publish (h : Stands b jid w outs a) {ack : Bool}
    (hm : a.publish b.program w ack = some (w', a', entries)) :
    Progress b jid w outs a w' a' entries outs := by
  unfold Execution.publish at hm
  split at hm
  · rename_i c hphase
    split at hm
    · rename_i key value next hc
      obtain ⟨w₁, hw₁, heq⟩ := Option.map_eq_some_iff.mp hm
      have hcode : c = .setEvent key value next := by
        cases c with
        | setEvent => cases hc; rfl
        | _ => cases hc
      subst hcode
      have hstep : w₁.db.step = w.db.step := by
        obtain ⟨-, rfl⟩ := World.durable_eq_some.mp hw₁
        simp only [DurableStmt.run, Db.setEvent]
        split <;> rfl
      have hentries : (if w.owns a.row then [Entry.event key value] else []).filterMap
          Entry.effect? = [] := by
        split <;> rfl
      have hat : At b outs { a with phase := .code next } := by
        have hat := h.follows.at_
        simp only [At, hphase] at hat
        exact hat
      have hupto : w.owns a.row → Upto jid w.db outs { a with phase := .code next } := by
        have hupto := h.upto
        simp only [Upto, hphase] at hupto
        exact hupto
      cases heq
      refine h.quiet hstep (World.durable_jorb hw₁) ?_ ?_ hentries
      · cases ack
        · exact h.follows
        · cases howns : w.owns a.row with
          | false => exact Execution.answered_of_stale howns _ ▸ h.follows.out rfl rfl
          | true => exact Execution.answered_of_owns howns _ ▸ { h.follows with at_ := hat }
      · intro howns
        cases ack
        · exact h.upto howns
        · exact Execution.answered_of_owns howns _ ▸ hupto howns
    · cases hm
  · cases hm

theorem atEnd (h : Stands b jid w outs a) {result : Option Json}
    (hphase : a.phase = .code (.done result)) : b.after outs = .done result := by
  obtain ⟨-, hle, hafter⟩ : a.steps.isSome ∧ a.seq ≤ outs.length ∧
      (Body.done result).settled = b.after (outs.take a.seq) := by
    simpa only [At, hphase] using h.follows.at_
  rcases Nat.lt_or_eq_of_le hle with hlt | heq
  · obtain ⟨p, hp⟩ := h.checkpoints.callAt hlt
    obtain ⟨next, hnext⟩ := Body.callAt_eq_some.mp hp
    rw [hnext] at hafter
    cases hafter
  · rw [heq, List.take_length] at hafter
    exact hafter.symm

theorem move (h : Stands b jid w outs a) {m : Move}
    (hm : a.move b.program w m = some (w', a', entries)) :
    ∃ outs', Progress b jid w outs a w' a' entries outs' := by
  cases Execution.move_cases hm with
  | load hphase => exact ⟨outs, h.load hphase⟩
  | start hphase h₁ => exact ⟨outs, h.start hphase h₁⟩
  | @call c p next hphase hhead =>
    refine ⟨outs, h.call hphase ?_⟩
    cases c with
    | call => cases hhead; rfl
    | _ => cases hhead
  | @nest c fn name next hphase hhead => cases c <;> cases hhead
  | invoke hphase h₁ => exact ⟨outs, h.invoke hphase h₁⟩
  | execute hphase h₁ => exact ⟨outs, h.execute hphase h₁⟩
  | record h₁ => exact h.record h₁
  | commit h₁ => exact h.commit h₁
  | @rollback p error hphase hatomic =>
    have hat := h.follows.at_
    have hupto := h.upto
    rcases hphase with ⟨next, hphase⟩ | ⟨next, result, hphase⟩ | ⟨next, result, hphase⟩
    · refine ⟨outs, h.rollback (h.running hphase).1 fun howns => ?_⟩
      simp only [Upto, hphase] at hupto
      cases p with
      | recv => cases hatomic
      | _ => exact hupto howns
    · simp only [At, Upto, hphase] at hat hupto
      exact ⟨outs, h.rollback hat.1 hupto⟩
    · simp only [At, Upto, hphase] at hat hupto
      exact ⟨outs, h.rollback hat.1 hupto⟩
  | unwind hphase =>
    have hat := h.follows.at_
    simp only [At, hphase] at hat
  | recv h₁ => exact h.recv h₁
  | reschedule _ h₁ =>
    exact ⟨outs, h.issue h₁ (fun _ hs => by cases hs) (h.follows.out rfl rfl) fun _ => trivial⟩
  | publish h₁ => exact ⟨outs, h.publish h₁⟩
  | @read c key next hphase hhead => cases c <;> cases hhead
  | compactFence h₁ =>
    unfold Execution.compactFence at h₁
    split at h₁
    · rename_i c hphase
      split at h₁
      · rename_i hc
        cases c <;> cases hc
      · cases h₁
    · cases h₁
  | compact h₁ =>
    unfold Execution.compact at h₁
    split at h₁
    · rename_i key value next hphase
      have hat := h.follows.at_
      simp only [At, hphase] at hat
    · cases h₁
  | @finish c result ack _ _ hphase hhead hframes h₁ =>
    have hcode : c = .done result := by
      cases c with
      | done => cases hhead; rfl
      | _ => cases hhead
    subst hcode
    exact ⟨outs, h.issue h₁ (fun _ _ => ⟨result, h.atEnd hphase⟩) (h.follows.out rfl rfl)
      fun _ => trivial⟩
  | raise => exact ⟨outs, h.out rfl rfl⟩
  | settle _ hsettles h₁ =>
    refine ⟨outs, h.issue h₁ (fun _ hs => ?_) (h.follows.out rfl rfl) fun _ => trivial⟩
    rw [hs] at hsettles
    cases hsettles
  | crash => exact ⟨outs, h.out rfl rfl⟩

end Stands

end Pyjobby
