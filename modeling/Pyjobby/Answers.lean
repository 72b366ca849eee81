import Pyjobby.ExecutionFence

/-! One move of one attempt, whatever its code: the answers that have been recorded stand
as they are, and whoever comes to a recorded call gets the recorded answer. -/

namespace Pyjobby

open Relational Transition

namespace Db

/-- The call of this number has a success recorded, of this name and with this output. -/
def Answered (db : Db) (jid q : Nat) (name : String) (output : Option Json) : Prop :=
  ∃ row, db.step.find? (jid, q) = some row ∧ row.error = none ∧ row.name = name ∧
    row.output = output

theorem Answered.eq {db : Db} {jid q : Nat} {name name' : String} {output output' : Option Json}
    (h : db.Answered jid q name output) (h' : db.Answered jid q name' output') :
    name = name' ∧ output = output' := by
  obtain ⟨row, hrow, -, rfl, rfl⟩ := h
  obtain ⟨row', hrow', -, rfl, rfl⟩ := h'
  rw [hrow] at hrow'
  cases hrow'
  exact ⟨rfl, rfl⟩

theorem Answered.congr {db db' : Db} {jid q : Nat} {name : String} {output : Option Json}
    (heq : db'.step.find? (jid, q) = db.step.find? (jid, q)) (h : db.Answered jid q name output) :
    db'.Answered jid q name output := by
  obtain ⟨row, hrow, hrest⟩ := h
  exact ⟨row, heq.trans hrow, hrest⟩

/-- The success recorded for a call is what RECV finds. -/
theorem Answered.prior {db : Db} {jid q : Nat} {name : String} {output : Option Json}
    (h : db.Answered jid q name output) :
    (db.priorAnswer jid q).isSome ∧ (db.priorAnswer jid q).bind StepRow.output = output := by
  obtain ⟨row, hrow, he, -, rfl⟩ := h
  simp [priorAnswer, hrow, he, Option.filter]

theorem priorAnswer_eq_none {db : Db} {jid q : Nat} :
    db.priorAnswer jid q = none ↔ ∀ n o, ¬db.Answered jid q n o := by
  refine ⟨fun h n o hans => by simpa [h] using hans.prior.1, fun h => ?_⟩
  refine Option.eq_none_iff_forall_ne_some.mpr fun row hrow => ?_
  obtain ⟨hfind, he⟩ := Option.filter_eq_some_iff.mp hrow
  exact h row.name row.output ⟨row, hfind, by simpa using he, rfl, rfl⟩

end Db

/-- The attempt gets no further answer: it records a failure at most. -/
def Phase.quits {κ : Type} : Phase κ → Bool
  | failed _ _ _ | parked _ | raised | gone => true
  | _ => false

namespace Execution

variable {κ : Type}

/-- The attempt has loaded a success for the call, of this name and with this output. -/
def Loaded (a : Execution κ) (q : Nat) (name : String) (output : Option Json) : Prop :=
  ∃ s, a.checkpoint? q = some s ∧ s.error = none ∧ s.name = name ∧ s.output = output

/-- Each step around the current one was called before those inside it. -/
def Nested (a : Execution κ) : Prop :=
  match a.phase with
  | .claimed | .bound => a.frames = []
  | .code _ | .compacting _ _ _ =>
    a.frames.Pairwise (fun f g => g.seq < f.seq) ∧ ∀ f ∈ a.frames, f.seq ≤ a.seq
  | .running _ _ | .inTx _ _ _ | .recorded _ _ _ | .checkpoint _ _ _ =>
    a.frames.Pairwise (fun f g => g.seq < f.seq) ∧ ∀ f ∈ a.frames, f.seq < a.seq
  | .failed _ _ _ | .parked _ | .raised | .gone => True

/-- The attempt will get this answer if it comes to the call, and it will not record
another one. It stands at the call itself only where it has recorded the answer and not
learned so. -/
def Bears (prog : Program κ) (q : Nat) (name : String) (output : Option Json) (a : Execution κ) :
    Prop :=
  match a.phase with
  | .claimed => a.resumes
  | .bound => a.Loaded q name output
  | .code c =>
    (a.seq < q → a.Loaded q name output) ∧
      ∀ f ∈ a.frames, f.seq = q →
        a.frames.head? = some f ∧ prog.head c = .done output ∧ f.name = name
  | .running p _ =>
    (a.seq < q → a.Loaded q name output) ∧ (a.seq = q → ∃ topic, p = .recv topic) ∧
      ∀ f ∈ a.frames, f.seq ≠ q
  | .inTx _ _ _ | .recorded _ _ _ =>
    (a.seq < q → a.Loaded q name output) ∧ a.seq ≠ q ∧ ∀ f ∈ a.frames, f.seq ≠ q
  | .checkpoint p _ result =>
    (a.seq < q → a.Loaded q name output) ∧ (a.seq = q → p.name = name ∧ result = output) ∧
      ∀ f ∈ a.frames, f.seq ≠ q
  | .compacting _ _ _ | .failed _ _ _ | .parked _ | .raised | .gone => True

end Execution

namespace World

variable {w w' : World} {e : Jorb}

/-- A success is recorded, or the writer has been superseded. -/
theorem recordStep_answered {seq : Nat} {name : String} {output : Option Json} {started : Int}
    (h : w.durable e (.recordStep seq name output none started) = some w') :
    (w.owns e → w'.db.Answered e.id seq name output) ∧
      (∀ q, q ≠ seq → w'.db.step.find? (e.id, q) = w.db.step.find? (e.id, q)) ∧
      (w.owns e = false → w' = w) := by
  refine ⟨fun howns => ?_, fun q hq => ?_, fun hs => durable_of_stale hs h⟩
  · obtain ⟨s, hs, hname, hout, he⟩ := recordStep_success howns h
    exact ⟨s, hs, he, hname, hout⟩
  · exact recordStep_other h fun heq => hq (congrArg Prod.snd heq)

/-- An error does not stand against a success. -/
theorem recordStep_error_iff {seq : Nat} {name error : String} {started : Int}
    (h : w.durable e (.recordStep seq name none (some error) started) = some w') (q : Nat)
    (n : String) (o : Option Json) :
    w'.db.Answered e.id q n o ↔ w.db.Answered e.id q n o := by
  by_cases hq : q = seq
  · subst hq
    cases howns : w.owns e with
    | false => rw [durable_of_stale howns h]
    | true =>
      obtain ⟨s, hs, hcase⟩ := recordStep_error howns h
      constructor
      · rintro ⟨row, hrow, he, hrest⟩
        rw [hs] at hrow
        cases hrow
        rcases hcase with ⟨hold, -⟩ | ⟨-, -, hfail, -⟩
        · exact ⟨s, hold, he, hrest⟩
        · simp [hfail] at he
      · rintro ⟨row, hrow, he, hrest⟩
        rcases hcase with ⟨hold, -⟩ | ⟨-, -, -, hopen⟩
        · rw [hold] at hrow
          cases hrow
          exact ⟨s, hs, he, hrest⟩
        · exact absurd he (hopen row hrow)
  · have hother := recordStep_other h (k := (e.id, q)) fun heq => hq (congrArg Prod.snd heq)
    exact ⟨fun hrow => hrow.congr hother.symm, fun hrow => hrow.congr hother⟩

end World

open Execution

/-- What a move comes to that does not discard the log. -/
structure Stable {κ : Type} (prog : Program κ) (jid : Nat) (w : World) (a : Execution κ)
    (w' : World) (a' : Execution κ) : Prop where
  nested : a'.Nested
  others : w.owns a.row ∨ ∀ q, w'.db.step.find? (jid, q) = w.db.step.find? (jid, q)
  kept : ∀ q name output, w.db.Answered jid q name output → a.Bears prog q name output →
    w'.db.Answered jid q name output ∧ a'.Bears prog q name output ∧
      ∀ v, (q, v) ∈ a'.answers → (q, v) ∈ a.answers ∨ v = output
  fresh : ∀ q name output, w'.db.Answered jid q name output →
    (∀ n o, ¬w.db.Answered jid q n o) → a'.Bears prog q name output

namespace Stable

variable {κ : Type} {prog : Program κ} {jid : Nat} {w w' : World} {a a' : Execution κ}

theorem quiet (hstep : w'.db.step = w.db.step) (hnested : a'.Nested)
    (hbears : ∀ q name output, w.db.Answered jid q name output → a.Bears prog q name output →
      a'.Bears prog q name output ∧ ∀ v, (q, v) ∈ a'.answers → (q, v) ∈ a.answers ∨ v = output) :
    Stable prog jid w a w' a' where
  nested := hnested
  others := .inr fun _ => by rw [hstep]
  kept q name output hrow hb := ⟨hrow.congr (by rw [hstep]), hbears q name output hrow hb⟩
  fresh q name output hrow hnone := absurd (hrow.congr (by rw [hstep])) (hnone name output)

end Stable

namespace Execution

variable {κ : Type} {prog : Program κ} {a : Execution κ}

theorem throw_quits (a : Execution κ) (error : String) : (a.throw error).phase.quits := by
  simp only [throw]
  split <;> rfl

theorem throw_answers (a : Execution κ) (error : String) : (a.throw error).answers = a.answers := by
  simp only [throw]
  split <;> rfl

theorem nested_of_quits (h : a.phase.quits) : a.Nested := by
  unfold Nested
  cases hphase : a.phase with
  | failed | parked | raised | gone => trivial
  | _ => simp [hphase, Phase.quits] at h

theorem bears_of_quits (h : a.phase.quits) (q : Nat) (name : String) (output : Option Json) :
    a.Bears prog q name output := by
  unfold Bears
  cases hphase : a.phase with
  | failed | parked | raised | gone => trivial
  | _ => simp [hphase, Phase.quits] at h

end Execution

namespace Stable

variable {κ : Type} {prog : Program κ} {jid : Nat} {w w' : World} {a a' : Execution κ}

theorem quits (hstep : w'.db.step = w.db.step) (hphase : a'.phase.quits)
    (hans : a'.answers = a.answers) : Stable prog jid w a w' a' :=
  .quiet hstep (nested_of_quits hphase) fun q name output _ _ =>
    ⟨bears_of_quits hphase q name output, fun _ hv => .inl (hans ▸ hv)⟩

/-- The answer to a statement is lost: the attempt is where it was. -/
theorem stays (hstep : w'.db.step = w.db.step) (hnested : a.Nested) : Stable prog jid w a w' a :=
  .quiet hstep hnested fun _ _ _ _ hb => ⟨hb, fun _ => .inl⟩

theorem issue {next : Execution κ} {s : WorkerStmt} {ack : Bool}
    (h : a.issue next w s ack = some (w', a')) (hnested : a.Nested)
    (hnext : ∀ w' : World, w'.db.step = w.db.step → Stable prog jid w a w' next) :
    Stable prog jid w a w' a' := by
  obtain ⟨w₁, hw₁, heq⟩ := Option.map_eq_some_iff.mp h
  cases heq
  have hstep : w'.db.step = w.db.step := by
    obtain ⟨wakes, rfl⟩ := World.worker_eq hw₁
    rfl
  cases ack
  · exact stays hstep hnested
  · exact hnext w' hstep

theorem load (hid : a.row.id = jid) (hphase : a.phase = .claimed) (hnested : a.Nested) :
    Stable prog jid w a w (a.load w.db) := by
  simp only [Nested, hphase] at hnested
  refine .quiet rfl hnested fun q name output hrow hb => ⟨?_, fun v => .inl⟩
  simp only [Bears, hphase] at hb
  obtain ⟨s, hs, hrest⟩ := hrow
  show Loaded (a.load w.db) q name output
  refine ⟨s, ?_, hrest⟩
  rw [checkpoint?_load, if_pos hb, hid, hs]

theorem start {timeout : Option Int} {ack : Bool} (hphase : a.phase = .bound)
    (hm : a.start prog w timeout ack = some (w', a')) (hnested : a.Nested) :
    Stable prog jid w a w' a' := by
  refine issue hm hnested fun w₁ hstep => ?_
  simp only [Nested, hphase] at hnested
  split_ifs
  · exact quits hstep rfl rfl
  · exact quits hstep rfl rfl
  · refine .quiet hstep (by simp [Nested, hnested]) fun q name output _ hb => ⟨?_, fun v => .inl⟩
    simp only [Bears, hphase] at hb
    refine ⟨fun _ => hb, fun f hf => ?_⟩
    simp [hnested] at hf

/-- In front of a call no step around it has an answer yet. -/
theorem bears_code {c : κ} {q : Nat} {name : String} {output : Option Json}
    (hphase : a.phase = .code c) (hhead : ∀ result, prog.head c ≠ .done result)
    (hb : a.Bears prog q name output) :
    (a.seq < q → a.Loaded q name output) ∧ ∀ f ∈ a.frames, f.seq ≠ q := by
  simp only [Bears, hphase] at hb
  exact ⟨hb.1, fun f hf hq => hhead _ (hb.2 f hf hq).2.1⟩

theorem nested_code {c : κ} (hphase : a.phase = .code c) (hnested : a.Nested) :
    a.frames.Pairwise (fun f g => g.seq < f.seq) ∧ ∀ f ∈ a.frames, f.seq ≤ a.seq := by
  simpa only [Nested, hphase] using hnested

theorem loaded_eq {q : Nat} {name : String} {output : Option Json} {s : StepRow}
    (h : a.Loaded q name output) (hs : a.checkpoint? q = some s) :
    s.error = none ∧ s.name = name ∧ s.output = output := by
  obtain ⟨t, ht, hrest⟩ := h
  rw [ht] at hs
  cases hs
  exact hrest

/-- A call that has its answer gets it. -/
theorem replay {c c' : κ} {s : StepRow} (hphase : a.phase = .code c)
    (hhead : ∀ result, prog.head c ≠ .done result) (hnested : a.Nested)
    (hs : a.checkpoint? (a.seq + 1) = some s) :
    Stable prog jid w a w
      { a with
        seq := a.seq + 1, phase := .code c', answers := a.answers ++ [(a.seq + 1, s.output)] } := by
  obtain ⟨hpair, hle⟩ := nested_code hphase hnested
  refine .quiet rfl ⟨hpair, fun f hf => Nat.le_succ_of_le (hle f hf)⟩ fun q name output _ hb => ?_
  obtain ⟨hload, hframes⟩ := bears_code hphase hhead hb
  refine ⟨⟨fun hlt => hload (Nat.lt_of_succ_lt hlt), fun f hf hq => absurd hq (hframes f hf)⟩, ?_⟩
  intro v hv
  rcases List.mem_append.mp hv with hv | hv
  · exact .inl hv
  · simp only [List.mem_singleton, Prod.mk.injEq] at hv
    obtain ⟨rfl, rfl⟩ := hv
    exact .inr (loaded_eq (hload (Nat.lt_succ_self _)) hs).2.2

theorem not_loaded {q : Nat} {name : String} {output : Option Json}
    (hopen : ∀ s, a.checkpoint? q = some s → s.error ≠ none) : ¬a.Loaded q name output :=
  fun ⟨s, hs, he, _⟩ => hopen s hs he

theorem run {c : κ} {p : Prim} {next : Option Json → κ} (hphase : a.phase = .code c)
    (hhead : prog.head c = .call p next) (hnested : a.Nested)
    (hopen : ∀ s, a.checkpoint? (a.seq + 1) = some s → s.error ≠ none) :
    Stable prog jid w a w { a with seq := a.seq + 1, phase := .running p next } := by
  obtain ⟨hpair, hle⟩ := nested_code hphase hnested
  refine .quiet rfl ⟨hpair, fun f hf => Nat.lt_succ_of_le (hle f hf)⟩ fun q name output _ hb => ?_
  obtain ⟨hload, hframes⟩ := bears_code hphase (by simp [hhead]) hb
  refine ⟨⟨fun hlt => hload (Nat.lt_of_succ_lt hlt), fun heq => ?_, hframes⟩, fun v => .inl⟩
  obtain rfl : a.seq + 1 = q := heq
  exact absurd (hload (Nat.lt_succ_self _)) (not_loaded hopen)

theorem enter {c fn : κ} {name : String} {next : Option Json → κ} (hphase : a.phase = .code c)
    (hhead : prog.head c = .nest name fn next) (hnested : a.Nested)
    (hopen : ∀ s, a.checkpoint? (a.seq + 1) = some s → s.error ≠ none) :
    Stable prog jid w a w
      { a with
        seq := a.seq + 1, phase := .code fn, frames := ⟨a.seq + 1, name, next⟩ :: a.frames,
        ran := a.ran ++ [a.seq + 1] } := by
  obtain ⟨hpair, hle⟩ := nested_code hphase hnested
  refine .quiet rfl ⟨List.pairwise_cons.mpr ⟨fun f hf => Nat.lt_succ_of_le (hle f hf), hpair⟩, ?_⟩
    fun q name output _ hb => ?_
  · intro f hf
    rcases List.mem_cons.mp hf with rfl | hf
    · exact Nat.le_refl _
    · exact Nat.le_succ_of_le (hle f hf)
  · obtain ⟨hload, hframes⟩ := bears_code hphase (by simp [hhead]) hb
    refine ⟨⟨fun hlt => hload (Nat.lt_of_succ_lt hlt), fun f hf hq => ?_⟩, fun v => .inl⟩
    rcases List.mem_cons.mp hf with rfl | hf
    · obtain rfl : a.seq + 1 = q := hq
      exact absurd (hload (Nat.lt_succ_self _)) (not_loaded hopen)
    · exact absurd hq (hframes f hf)

theorem call {c : κ} {p : Prim} {next : Option Json → κ} (now : Int) (hphase : a.phase = .code c)
    (hhead : prog.head c = .call p next) (hnested : a.Nested) :
    Stable prog jid w a w (a.call now p next) := by
  have hlook : Execution.checkpoint? { a with seq := a.seq + 1 } (a.seq + 1) =
      a.checkpoint? (a.seq + 1) := rfl
  have hdone (result : Option Json) : prog.head c ≠ .done result := by simp [hhead]
  simp only [Execution.call, hlook]
  split
  · rename_i hnone
    exact run hphase hhead hnested fun s hs => by simp [hnone] at hs
  · rename_i s hs
    split
    · exact quits rfl rfl rfl
    · split
      · split
        · exact quits rfl rfl rfl
        · split
          · exact replay hphase hdone hnested hs
          · exact quits rfl rfl rfl
      · split
        · exact replay hphase hdone hnested hs
        · rename_i he
          refine run hphase hhead hnested fun t ht => ?_
          rw [hs] at ht
          cases ht
          simpa using he

theorem nest {c fn : κ} {name : String} {next : Option Json → κ} (hphase : a.phase = .code c)
    (hhead : prog.head c = .nest name fn next) (hnested : a.Nested) :
    Stable prog jid w a w (a.nest name fn next) := by
  have hlook : Execution.checkpoint? { a with seq := a.seq + 1 } (a.seq + 1) =
      a.checkpoint? (a.seq + 1) := rfl
  simp only [Execution.nest, hlook]
  split
  · rename_i hnone
    exact enter hphase hhead hnested fun s hs => by simp [hnone] at hs
  · rename_i s hs
    split
    · exact quits rfl rfl rfl
    · split
      · exact replay hphase (by simp [hhead]) hnested hs
      · rename_i he
        refine enter hphase hhead hnested fun t ht => ?_
        rw [hs] at ht
        cases ht
        simpa using he

/-- The function of a call other than a `recv` has run: what is recorded is still to come. -/
theorem ran {p : Prim} {next : Option Json → κ} {phase : Phase κ} {seqs : List Nat}
    (hphase : a.phase = .running p next) (hnested : a.Nested) (hp : ∀ topic, p ≠ .recv topic)
    (hnew : (∃ result, phase = .inTx p next result) ∨ ∃ result, phase = .checkpoint p next result) :
    Stable prog jid w a w { a with ran := seqs, phase } := by
  have hnested' : Nested { a with ran := seqs, phase } := by
    simp only [Nested, hphase] at hnested
    rcases hnew with ⟨result, rfl⟩ | ⟨result, rfl⟩ <;> exact hnested
  refine .quiet rfl hnested' fun q name output _ hb => ⟨?_, fun v => .inl⟩
  simp only [Bears, hphase] at hb
  have hne : a.seq ≠ q := fun heq => by
    obtain ⟨topic, ht⟩ := hb.2.1 heq
    exact hp topic ht
  rcases hnew with ⟨result, rfl⟩ | ⟨result, rfl⟩
  · exact ⟨hb.1, hne, hb.2.2⟩
  · exact ⟨hb.1, fun heq => absurd heq hne, hb.2.2⟩

theorem invoke {p : Prim} {next : Option Json → κ} {now : Int}
    {result : Except String (Option Json)} (hphase : a.phase = .running p next)
    (hm : a.invoke now p next result = some a') (hnested : a.Nested) :
    Stable prog jid w a w a' := by
  unfold Execution.invoke at hm
  split at hm
  · cases hm
    exact ran hphase hnested nofun (.inr ⟨_, rfl⟩)
  · cases hm
    exact ran hphase hnested nofun (.inl ⟨_, rfl⟩)
  · cases hm
    exact quits rfl rfl rfl
  · cases hm
    exact quits rfl rfl rfl
  · cases hm
    exact ran hphase hnested nofun (.inr ⟨_, rfl⟩)
  · cases hm

theorem execute {p : Prim} {next : Option Json → κ} {error : String}
    (hphase : a.phase = .running p next) (hm : a.execute w p next error = some a')
    (hnested : a.Nested) : Stable prog jid w a w a' := by
  unfold Execution.execute at hm
  dsimp only at hm
  split_ifs at hm with hstmt
  · cases hm
    exact quits rfl rfl rfl
  · cases hm
    exact quits rfl rfl rfl
  · cases hm
    refine ran hphase hnested (fun topic heq => ?_) (.inl ⟨_, rfl⟩)
    simp [heq, Prim.statement] at hstmt

end Stable

/-- What becomes of an attempt that has recorded a success, whether or not it learns so. -/
structure Settles {κ : Type} (prog : Program κ) (seq : Nat) (name : String) (output : Option Json)
    (a a' : Execution κ) : Prop where
  nested : a'.Nested
  bears : ∀ q n o, a.Bears prog q n o → a'.Bears prog q n o ∧
    ∀ v, (q, v) ∈ a'.answers → (q, v) ∈ a.answers ∨ v = o
  fresh : a'.Bears prog seq name output

namespace Settles

variable {κ : Type} {prog : Program κ} {jid seq : Nat} {name : String} {output : Option Json}
  {w w' : World} {a a' : Execution κ}

theorem quits (hphase : a'.phase.quits) (hans : a'.answers = a.answers) :
    Settles prog seq name output a a' :=
  ⟨nested_of_quits hphase,
    fun q n o _ => ⟨bears_of_quits hphase q n o, fun _ hv => .inl (hans ▸ hv)⟩,
    bears_of_quits hphase seq name output⟩

theorem answered {ack : Bool} (hnested : a.Nested) (hbears : a.Bears prog seq name output)
    (h : Settles prog seq name output a a') :
    Settles prog seq name output a (a.answered a' w ack) := by
  simp only [Execution.answered]
  split_ifs
  · exact ⟨hnested, fun q n o hb => ⟨hb, fun v => .inl⟩, hbears⟩
  · exact h
  · exact quits rfl rfl

theorem stable (h : Settles prog seq name output a a') (hid : a.row.id = jid) {started : Int}
    (hw : w.durable a.row (.recordStep seq name output none started) = some w')
    (hsame : ∀ n o, a.Bears prog seq n o → n = name ∧ o = output) :
    Stable prog jid w a w' a' := by
  subst hid
  obtain ⟨hrow, hother, hstale⟩ := World.recordStep_answered hw
  refine ⟨h.nested, ?_, fun q n o hans hb => ?_, fun q n o hans hnone => ?_⟩
  · cases howns : w.owns a.row with
    | true => exact .inl rfl
    | false => exact .inr fun _ => by rw [hstale howns]
  · refine ⟨?_, h.bears q n o hb⟩
    cases howns : w.owns a.row with
    | false => exact (hstale howns).symm ▸ hans
    | true =>
      by_cases hq : q = seq
      · subst hq
        obtain ⟨rfl, rfl⟩ := hsame n o hb
        exact hrow howns
      · exact hans.congr (hother q hq)
  · cases howns : w.owns a.row with
    | false => exact absurd (hstale howns ▸ hans) (hnone n o)
    | true =>
      by_cases hq : q = seq
      · subst hq
        obtain ⟨rfl, rfl⟩ := hans.eq (hrow howns)
        exact h.fresh
      · exact absurd (hans.congr (hother q hq).symm) (hnone n o)

end Settles

namespace Stable

variable {κ : Type} {prog : Program κ} {jid : Nat} {w w' : World} {a a' : Execution κ}

theorem recordFailed {seq : Nat} {name error : String} {started : Int} {ack : Bool}
    (hid : a.row.id = jid) (hphase : a.phase = .failed seq name error)
    (hw : w.durable a.row (.recordStep seq name none (some error) started) = some w') :
    Stable prog jid w a w' (a.answered (a.throw error) w ack) := by
  subst hid
  have hiff := World.recordStep_error_iff hw
  have hquits : (a.answered (a.throw error) w ack).phase.quits ∧
      (a.answered (a.throw error) w ack).answers = a.answers := by
    simp only [Execution.answered]
    split_ifs
    · exact ⟨by simp [hphase, Phase.quits], rfl⟩
    · exact ⟨a.throw_quits error, a.throw_answers error⟩
    · exact ⟨rfl, rfl⟩
  refine ⟨nested_of_quits hquits.1, ?_, fun q n o hans _ => ⟨(hiff q n o).mpr hans,
    bears_of_quits hquits.1 q n o, fun v hv => .inl (hquits.2 ▸ hv)⟩,
    fun q n o _ _ => bears_of_quits hquits.1 q n o⟩
  cases howns : w.owns a.row with
  | true => exact .inl rfl
  | false => exact .inr fun _ => by rw [World.durable_of_stale howns hw]

/-- The call under way returns. -/
theorem answer_bears {p : Prim} {next : Option Json → κ} {q : Nat} {n : String}
    {output o : Option Json} (hload : a.seq < q → a.Loaded q n o) (hseq : a.seq = q → output = o)
    (hframes : ∀ f ∈ a.frames, f.seq ≠ q) :
    (a.answer p next output).Bears prog q n o ∧
      ∀ v, (q, v) ∈ (a.answer p next output).answers → (q, v) ∈ a.answers ∨ v = o := by
  refine ⟨⟨hload, fun f hf hq => absurd hq (hframes f hf)⟩, fun v hv => ?_⟩
  rcases List.mem_append.mp hv with hv | hv
  · exact .inl hv
  · simp only [List.mem_singleton, Prod.mk.injEq] at hv
    obtain ⟨rfl, rfl⟩ := hv
    exact .inr (hseq rfl)

theorem settles_answer {p : Prim} {next : Option Json → κ} {output : Option Json}
    {n : String} (hpair : a.frames.Pairwise fun f g => g.seq < f.seq)
    (hlt : ∀ f ∈ a.frames, f.seq < a.seq)
    (hbears : ∀ q n o, a.Bears prog q n o → (a.seq < q → a.Loaded q n o) ∧
      (a.seq = q → output = o) ∧ ∀ f ∈ a.frames, f.seq ≠ q) :
    Settles prog a.seq n output a (a.answer p next output) :=
  ⟨⟨hpair, fun f hf => Nat.le_of_lt (hlt f hf)⟩,
    fun q n o hb => answer_bears (hbears q n o hb).1 (hbears q n o hb).2.1 (hbears q n o hb).2.2,
    ⟨fun h => absurd h (Nat.lt_irrefl _), fun f hf hq => absurd hq (Nat.ne_of_lt (hlt f hf))⟩⟩

theorem recordCheckpoint {p : Prim} {next : Option Json → κ} {output : Option Json} {started : Int}
    {ack : Bool} {done : Execution κ} (hid : a.row.id = jid)
    (hphase : a.phase = .checkpoint p next output)
    (hw : w.durable a.row (.recordStep a.seq p.name output none started) = some w')
    (hdone : done = a.answer p next output ∨ ∃ delay, done = { a with phase := .parked delay })
    (hnested : a.Nested) : Stable prog jid w a w' (a.answered done w ack) := by
  have hnest : a.frames.Pairwise (fun f g => g.seq < f.seq) ∧ ∀ f ∈ a.frames, f.seq < a.seq := by
    simpa only [Nested, hphase] using hnested
  have hb (q : Nat) (n : String) (o : Option Json) (h : a.Bears prog q n o) :
      (a.seq < q → a.Loaded q n o) ∧ (a.seq = q → p.name = n ∧ output = o) ∧
        ∀ f ∈ a.frames, f.seq ≠ q := by
    simpa only [Bears, hphase] using h
  have hself : a.Bears prog a.seq p.name output := by
    simp only [Bears, hphase]
    exact ⟨fun h => absurd h (Nat.lt_irrefl _), fun _ => ⟨trivial, trivial⟩,
      fun f hf => Nat.ne_of_lt (hnest.2 f hf)⟩
  have hsettles : Settles prog a.seq p.name output a done := by
    rcases hdone with rfl | ⟨delay, rfl⟩
    · exact settles_answer hnest.1 hnest.2 fun q n o h =>
        ⟨(hb q n o h).1, fun heq => ((hb q n o h).2.1 heq).2, (hb q n o h).2.2⟩
    · exact .quits rfl rfl
  refine (hsettles.answered hnested hself).stable hid hw fun n o h => ?_
  obtain ⟨hname, hout⟩ := (hb _ n o h).2.1 rfl
  exact ⟨hname.symm, hout.symm⟩

/-- A step whose function calls primitives has come to the end of it. -/
theorem recordFrame {c : κ} {f : Frame κ} {fs : List (Frame κ)} {result : Option Json}
    {started : Int} {ack : Bool} (hid : a.row.id = jid) (hphase : a.phase = .code c)
    (hhead : prog.head c = .done result) (hframes : a.frames = f :: fs)
    (hw : w.durable a.row (.recordStep f.seq f.name result none started) = some w')
    (hnested : a.Nested) :
    Stable prog jid w a w'
      (a.answered
        { a with
          phase := .code (f.next result), frames := fs, answers := a.answers ++ [(f.seq, result)] }
        w ack) := by
  obtain ⟨hpair, hle⟩ := nested_code hphase hnested
  rw [hframes, List.pairwise_cons] at hpair
  have hlt : ∀ g ∈ fs, g.seq < f.seq := hpair.1
  have hmem : ∀ g ∈ fs, g ∈ a.frames := fun g hg => hframes ▸ List.mem_cons_of_mem _ hg
  have hf : f.seq ≤ a.seq := hle f (hframes ▸ List.mem_cons_self)
  have hb (q : Nat) (n : String) (o : Option Json) (h : a.Bears prog q n o) :
      (a.seq < q → a.Loaded q n o) ∧ (f.seq = q → f.name = n ∧ result = o) ∧
        ∀ g ∈ fs, g.seq ≠ q := by
    simp only [Bears, hphase] at h
    have hhere (g : Frame κ) (hg : g ∈ a.frames) (hq : g.seq = q) : g = f := by
      have := (h.2 g hg hq).1
      rw [hframes] at this
      exact (Option.some.inj this).symm
    refine ⟨h.1, fun hq => ?_, fun g hg hq => ?_⟩
    · obtain ⟨-, hdone, hname⟩ := h.2 f (hframes ▸ List.mem_cons_self) hq
      rw [hhead] at hdone
      cases hdone
      exact ⟨hname, rfl⟩
    · have := hlt g hg
      rw [hhere g (hmem g hg) hq] at this
      exact absurd this (Nat.lt_irrefl _)
  have hself : a.Bears prog f.seq f.name result := by
    simp only [Bears, hphase]
    refine ⟨fun h => absurd hf (Nat.not_le.mpr h), fun g hg hq => ?_⟩
    rw [hframes] at hg
    rcases List.mem_cons.mp hg with rfl | hg
    · exact ⟨by rw [hframes]; rfl, hhead, rfl⟩
    · exact absurd hq (Nat.ne_of_lt (hlt g hg))
  have hsettles : Settles prog f.seq f.name result a
      { a with
        phase := .code (f.next result), frames := fs,
        answers := a.answers ++ [(f.seq, result)] } := by
    refine ⟨⟨hpair.2, fun g hg => hle g (hmem g hg)⟩, fun q n o h => ?_,
      ⟨fun h => absurd hf (Nat.not_le.mpr h), fun g hg hq => absurd hq (Nat.ne_of_lt (hlt g hg))⟩⟩
    obtain ⟨hload, hhere, hrest⟩ := hb q n o h
    refine ⟨⟨hload, fun g hg hq => absurd hq (hrest g hg)⟩, fun v hv => ?_⟩
    rcases List.mem_append.mp hv with hv | hv
    · exact .inl hv
    · simp only [List.mem_singleton, Prod.mk.injEq] at hv
      obtain ⟨rfl, rfl⟩ := hv
      exact .inr (hhere rfl).2
  refine (hsettles.answered hnested hself).stable hid hw fun n o h => ?_
  obtain ⟨hname, hout⟩ := (hb _ n o h).2.1 rfl
  exact ⟨hname.symm, hout.symm⟩

theorem congr {w₁ : World} (h : Stable prog jid w₁ a w' a') (hstep : w₁.db.step = w.db.step)
    (hjorb : w₁.db.jorb = w.db.jorb) : Stable prog jid w a w' a' := by
  have hiff (q : Nat) (n : String) (o : Option Json) :
      w₁.db.Answered jid q n o ↔ w.db.Answered jid q n o :=
    ⟨fun hans => hans.congr (by rw [hstep]), fun hans => hans.congr (by rw [hstep])⟩
  refine ⟨h.nested, ?_, fun q n o hans => h.kept q n o ((hiff q n o).mpr hans),
    fun q n o hans hnone => h.fresh q n o hans fun n' o' h' => hnone n' o' ((hiff q n' o').mp h')⟩
  rw [← World.owns_congr hjorb, ← hstep]
  exact h.others

theorem record {started : Int} {ack : Bool} (hid : a.row.id = jid)
    (hm : a.record prog w started ack = some (w', a')) (hnested : a.Nested) :
    Stable prog jid w a w' a' := by
  unfold Execution.record at hm
  split at hm
  · rename_i p next output hphase
    obtain ⟨w₁, hw₁, hm⟩ := Option.map_eq_some_iff.mp hm
    cases hm
    refine recordCheckpoint hid hphase hw₁ ?_ hnested
    cases p with
    | sleep interval => exact .inr ⟨interval, rfl⟩
    | _ => exact .inl rfl
  · rename_i seq name error hphase
    obtain ⟨w₁, hw₁, hm⟩ := Option.map_eq_some_iff.mp hm
    cases hm
    exact recordFailed hid hphase hw₁
  · rename_i p next result hphase
    split at hm
    · cases hm
      exact quits rfl rfl rfl
    · split at hm
      · cases hm
      · cases hm
        refine .quiet rfl ?_ fun q n o _ hb => ⟨?_, fun v => .inl⟩
        · simpa only [Nested, hphase] using hnested
        · simp only [Bears, hphase] at hb
          exact hb
  · rename_i c hphase
    split at hm
    · rename_i result f fs hhead hframes
      obtain ⟨w₁, hw₁, hm⟩ := Option.map_eq_some_iff.mp hm
      cases hm
      exact recordFrame hid hphase hhead hframes hw₁ hnested
    · cases hm
  · cases hm

theorem commit {started : Int} {lost : Option String} {entries : List Entry}
    (hid : a.row.id = jid) (hm : a.commit w started lost = some (w', a', entries))
    (hnested : a.Nested) : Stable prog jid w a w' a' := by
  unfold Execution.commit at hm
  split at hm
  · rename_i p next result hphase
    dsimp only at hm
    split at hm
    · cases hm
    · obtain ⟨w₂, hw₂, hm⟩ := Option.map_eq_some_iff.mp hm
      obtain ⟨w₁, hw₁, hw₂⟩ := Option.bind_eq_some_iff.mp hw₂
      obtain ⟨hstep, hjorb⟩ := World.statement_frame hw₁
      cases hm
      have hnest : a.frames.Pairwise (fun f g => g.seq < f.seq) ∧
          ∀ f ∈ a.frames, f.seq < a.seq := by
        simpa only [Nested, hphase] using hnested
      have hb (q : Nat) (n : String) (o : Option Json) (h : a.Bears prog q n o) :
          (a.seq < q → a.Loaded q n o) ∧ a.seq ≠ q ∧ ∀ f ∈ a.frames, f.seq ≠ q := by
        simpa only [Bears, hphase] using h
      refine congr (Settles.stable ?_ hid hw₂ fun n o h => absurd rfl (hb _ n o h).2.1) hstep hjorb
      cases lost with
      | none =>
        exact settles_answer hnest.1 hnest.2 fun q n o h =>
          ⟨(hb q n o h).1, fun heq => absurd heq (hb q n o h).2.1, (hb q n o h).2.2⟩
      | some error => exact .quits rfl rfl
  · cases hm

section Recv

variable {topic : Option String} {next : Option Json → κ}

theorem nested_running {p : Prim} (hphase : a.phase = .running p next) (hnested : a.Nested) :
    a.frames.Pairwise (fun f g => g.seq < f.seq) ∧ ∀ f ∈ a.frames, f.seq < a.seq := by
  simpa only [Nested, hphase] using hnested

theorem bears_running {p : Prim} {q : Nat} {name : String} {output : Option Json}
    (hphase : a.phase = .running p next) (hb : a.Bears prog q name output) :
    (a.seq < q → a.Loaded q name output) ∧ ∀ f ∈ a.frames, f.seq ≠ q := by
  simp only [Bears, hphase] at hb
  exact ⟨hb.1, hb.2.2⟩

/-- The attempt gets an answer that was there. -/
theorem replied {output : Option Json} (hphase : a.phase = .running (.recv topic) next)
    (hnested : a.Nested) (hstep : w'.db.step = w.db.step)
    (hanswer : ∀ n o, w.db.Answered jid a.seq n o → output = o) :
    Stable prog jid w a w' (a.answer (.recv topic) next output) := by
  obtain ⟨hpair, hlt⟩ := nested_running hphase hnested
  refine .quiet hstep ⟨hpair, fun f hf => Nat.le_of_lt (hlt f hf)⟩ fun q n o hans hb => ?_
  obtain ⟨hload, hframes⟩ := bears_running hphase hb
  exact answer_bears hload (fun hq => hanswer n o (hq.symm ▸ hans)) hframes

/-- The wait of a `recv` without an answer is over: what is recorded is still to come. -/
theorem expires (hphase : a.phase = .running (.recv topic) next) (hnested : a.Nested)
    (hstep : w'.db.step = w.db.step) (hopen : ∀ n o, ¬w.db.Answered jid a.seq n o) :
    Stable prog jid w a w' { a with phase := .checkpoint (.recv topic) next none } := by
  have hnest := nested_running hphase hnested
  refine .quiet hstep hnest fun q n o hans hb => ⟨?_, fun v => .inl⟩
  obtain ⟨hload, hframes⟩ := bears_running hphase hb
  exact ⟨hload, fun hq => absurd (hq ▸ hans) (hopen n o), hframes⟩

/-- A message is recorded for the call, and the attempt may learn so. -/
theorem received (output : Option Json) (hphase : a.phase = .running (.recv topic) next)
    (hnested : a.Nested) (howns : w.owns a.row) (hopen : ∀ n o, ¬w.db.Answered jid a.seq n o)
    (hkeep : ∀ q, q ≠ a.seq → w'.db.step.find? (jid, q) = w.db.step.find? (jid, q))
    (ha' : a' = a ∨ a' = a.answer (.recv topic) next output) : Stable prog jid w a w' a' := by
  obtain ⟨hpair, hlt⟩ := nested_running hphase hnested
  have hne {q : Nat} {n : String} {o : Option Json} (hans : w.db.Answered jid q n o) :
      q ≠ a.seq := fun hq => hopen n o (hq ▸ hans)
  have hfresh {q : Nat} {n : String} {o : Option Json} (hans : w'.db.Answered jid q n o)
      (hno : ∀ n o, ¬w.db.Answered jid q n o) : q = a.seq := by
    by_contra hq
    exact hno n o (hans.congr (hkeep q hq).symm)
  rcases ha' with rfl | rfl
  · refine ⟨hnested, .inl howns,
      fun q n o hans hb => ⟨hans.congr (hkeep q (hne hans)), hb, fun v => .inl⟩,
      fun q n o hans hno => ?_⟩
    obtain rfl := hfresh hans hno
    simp only [Bears, hphase]
    exact ⟨fun h => absurd h (Nat.lt_irrefl _), fun _ => ⟨topic, rfl⟩,
      fun f hf => Nat.ne_of_lt (hlt f hf)⟩
  · refine ⟨⟨hpair, fun f hf => Nat.le_of_lt (hlt f hf)⟩, .inl howns,
      fun q n o hans hb => ⟨hans.congr (hkeep q (hne hans)), ?_⟩, fun q n o hans hno => ?_⟩
    · obtain ⟨hload, hframes⟩ := bears_running hphase hb
      exact answer_bears hload (fun hq => absurd hq.symm (hne hans)) hframes
    · obtain rfl := hfresh hans hno
      exact ⟨fun h => absurd h (Nat.lt_irrefl _),
        fun f hf hq => absurd hq (Nat.ne_of_lt (hlt f hf))⟩

/-- A message is recorded for a call that the attempt has left. -/
theorem left {q : Nat} (hphase : a.phase.quits) (howns : w.owns a.row)
    (hopen : ∀ n o, ¬w.db.Answered jid q n o)
    (hkeep : ∀ k, k ≠ q → w'.db.step.find? (jid, k) = w.db.step.find? (jid, k)) :
    Stable prog jid w a w' a := by
  refine ⟨nested_of_quits hphase, .inl howns, fun k n o hans hb => ⟨hans.congr (hkeep k ?_), hb,
    fun v => .inl⟩, fun k n o _ _ => bears_of_quits hphase k n o⟩
  rintro rfl
  exact hopen n o hans

end Recv

theorem recv {started : Int} {ack expired : Bool} {entries : List Entry} (hid : a.row.id = jid)
    (hm : a.recv w started ack expired = some (w', a', entries)) (hnested : a.Nested) :
    Stable prog jid w a w' a' := by
  subst hid
  unfold Execution.recv at hm
  split at hm
  · rename_i topic next hphase
    obtain ⟨w₁, hw₁, hm⟩ := Option.map_eq_some_iff.mp hm
    cases hm
    obtain ⟨-, rfl⟩ := World.durable_eq_some.mp hw₁
    rcases w.db.recv_cases w.clock a.row.id a.seq topic (Prim.recv topic).name a.row.runEpoch
      started with heq | ⟨hfence, hprior, m, db', -, heq, hother, -⟩
    · simp only [DurableStmt.run, heq, Bool.false_eq_true, if_false]
      split_ifs with hack hfenced hreplayed hexpired
      · exact stays rfl hnested
      · exact quits rfl rfl rfl
      · exact replied hphase hnested rfl fun n o hans => hans.prior.2
      · exact expires hphase hnested rfl fun n o hans => hreplayed hans.prior.1
      · exact stays rfl hnested
    · simp only [DurableStmt.run, heq, Bool.not_true, Bool.false_eq_true, if_false, if_true]
      refine received (some m.message) hphase hnested hfence (Db.priorAnswer_eq_none.mp hprior)
        (fun q hq => hother _ fun h => hq (congrArg Prod.snd h)) ?_
      split_ifs
      · exact .inl rfl
      · exact .inr rfl
  · cases hm

/-- A statement of the code other than a call. -/
theorem goes {c c' : κ} (hphase : a.phase = .code c) (hhead : ∀ result, prog.head c ≠ .done result)
    (hstep : w'.db.step = w.db.step) (hnested : a.Nested) :
    Stable prog jid w a w' { a with phase := .code c' } := by
  have hnest := nested_code hphase hnested
  refine .quiet hstep hnest fun q n o _ h => ⟨?_, fun v => .inl⟩
  obtain ⟨hload, hframes⟩ := bears_code hphase hhead h
  exact ⟨hload, fun f hf hq => absurd hq (hframes f hf)⟩

theorem publish {ack : Bool} {entries : List Entry}
    (hm : a.publish prog w ack = some (w', a', entries)) (hnested : a.Nested) :
    Stable prog jid w a w' a' := by
  unfold Execution.publish at hm
  split at hm
  · rename_i c hphase
    split at hm
    · rename_i key value next hhead
      obtain ⟨w₁, hw₁, hm⟩ := Option.map_eq_some_iff.mp hm
      cases hm
      have hstep : w'.db.step = w.db.step := by
        obtain ⟨-, rfl⟩ := World.durable_eq_some.mp hw₁
        simp only [DurableStmt.run, Db.setEvent]
        split <;> rfl
      simp only [Execution.answered]
      split_ifs
      · exact stays hstep hnested
      · exact goes hphase (by simp [hhead]) hstep hnested
      · exact quits hstep rfl rfl
    · cases hm
  · cases hm

theorem compactFence (hm : a.compactFence prog w = some a') (hnested : a.Nested) :
    Stable prog jid w a w a' := by
  unfold Execution.compactFence at hm
  split at hm
  · rename_i c hphase
    split at hm
    · split at hm
      · cases hm
        exact quits rfl rfl rfl
      · split at hm
        · cases hm
        · cases hm
          have hnest := nested_code hphase hnested
          exact .quiet rfl hnest fun q n o _ _ => ⟨trivial, fun v => .inl⟩
    · cases hm
  · cases hm

theorem move {m : Move} {entries : List Entry} (hid : a.row.id = jid)
    (h : a.move prog w m = some (w', a', entries)) (hm : ∀ lost, m ≠ .compact lost)
    (hnested : a.Nested) : Stable prog jid w a w' a' := by
  cases Execution.move_cases h with
  | load hphase => exact load hid hphase hnested
  | start hphase h₁ => exact start hphase h₁ hnested
  | call hphase hhead => exact call _ hphase hhead hnested
  | nest hphase hhead => exact nest hphase hhead hnested
  | invoke hphase h₁ => exact invoke hphase h₁ hnested
  | execute hphase h₁ => exact execute hphase h₁ hnested
  | record h₁ => exact record hid h₁ hnested
  | commit h₁ => exact commit hid h₁ hnested
  | rollback => exact quits rfl rfl rfl
  | unwind => exact quits rfl (a.throw_quits _) (a.throw_answers _)
  | recv h₁ => exact recv hid h₁ hnested
  | publish h₁ => exact publish h₁ hnested
  | read hphase hhead => exact goes hphase (by simp [hhead]) rfl hnested
  | compactFence h₁ => exact compactFence h₁ hnested
  | compact => exact absurd rfl (hm _)
  | reschedule _ h₁ => exact issue h₁ hnested fun w₂ hstep => quits hstep rfl rfl
  | finish _ _ _ h₁ => exact issue h₁ hnested fun w₂ hstep => quits hstep rfl rfl
  | settle _ _ h₁ => exact issue h₁ hnested fun w₂ hstep => quits hstep rfl rfl
  | raise => exact quits rfl rfl rfl
  | crash => exact quits rfl rfl rfl

end Stable

/-- Where the log is discarded between steps, no answer is left and every number is free. -/
theorem Execution.compact_clears {κ : Type} {a a' : Execution κ} {w w' : World}
    {lost : Option String} {entries : List Entry}
    (hm : a.compact w lost = some (w', a', entries)) (hframes : a.frames = []) :
    a'.Nested ∧ ∀ q, w'.db.step.find? (a.row.id, q) = none := by
  unfold Execution.compact at hm
  split at hm
  · cases hm
    constructor
    · cases lost with
      | none => simp [Nested, hframes]
      | some error => exact nested_of_quits (a.throw_quits error)
    · intro q
      refine Table.find?_eq_none.mpr fun r hr hkey => ?_
      obtain ⟨-, hgone⟩ := Table.mem_delete.mp hr
      simp only [decide_eq_false_iff_not] at hgone
      exact hgone (congrArg Prod.fst hkey)
  · cases hm

end Pyjobby
