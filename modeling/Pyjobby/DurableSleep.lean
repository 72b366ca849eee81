import Pyjobby.ExactlyOnce

/-! Durable sleeps of a replayed job: the wake time that the first attempt to get that far
records, and what every attempt does about it. -/

namespace Pyjobby

open Relational Transition

theorem Body.eq_call {c : Body} {p : Prim} {next : Option Json → Body}
    (h : c.head = .call p next) : c = .call p next := by
  cases c with
  | call =>
    cases h
    rfl
  | _ => cases h

namespace Execution

variable {κ : Type}

/-- How many of its calls have returned to the job's code. -/
def heard (a : Execution κ) : Nat :=
  match a.phase with
  | .code _ => a.seq
  | _ => a.seq - 1

section Jorb

variable {a a' : Execution κ} {prog : Program κ} {w w' : World} {started : Int} {ack : Bool}
  {entries : List Entry}

theorem record_jorb (h : a.record prog w started ack = some (w', a')) : w'.db.jorb = w.db.jorb := by
  unfold record at h
  split at h
  · obtain ⟨w₁, hw₁, heq⟩ := Option.map_eq_some_iff.mp h
    cases heq
    exact World.durable_jorb hw₁
  · obtain ⟨w₁, hw₁, heq⟩ := Option.map_eq_some_iff.mp h
    cases heq
    exact World.durable_jorb hw₁
  · split_ifs at h <;> cases h
    all_goals rfl
  · split at h
    · obtain ⟨w₁, hw₁, heq⟩ := Option.map_eq_some_iff.mp h
      cases heq
      exact World.durable_jorb hw₁
    · cases h
  · cases h

theorem commit_jorb {lost : Option String} (h : a.commit w started lost = some (w', a', entries)) :
    w'.db.jorb = w.db.jorb := by
  unfold commit at h
  split at h
  · dsimp only at h
    split at h
    · cases h
    · obtain ⟨w₂, hw₂, heq⟩ := Option.map_eq_some_iff.mp h
      obtain ⟨w₁, hw₁, hw₂⟩ := Option.bind_eq_some_iff.mp hw₂
      cases heq
      exact (World.durable_jorb hw₂).trans (World.statement_frame hw₁).2
  · cases h

theorem recv_jorb {expired : Bool} (h : a.recv w started ack expired = some (w', a', entries)) :
    w'.db.jorb = w.db.jorb := by
  unfold recv at h
  split at h
  · obtain ⟨w₁, hw₁, heq⟩ := Option.map_eq_some_iff.mp h
    cases heq
    exact World.durable_jorb hw₁
  · cases h

theorem publish_jorb (h : a.publish prog w ack = some (w', a', entries)) :
    w'.db.jorb = w.db.jorb := by
  unfold publish at h
  split at h
  · split at h
    · obtain ⟨w₁, hw₁, heq⟩ := Option.map_eq_some_iff.mp h
      cases heq
      exact World.durable_jorb hw₁
    · cases h
  · cases h

end Jorb

theorem heard_of_code {a : Execution κ} {c : κ} (h : a.phase = .code c) : a.heard = a.seq := by
  simp only [heard, h]

theorem pred_le_heard (a : Execution κ) : a.seq - 1 ≤ a.heard := by
  unfold heard
  split
  · exact Nat.sub_le ..
  · exact le_rfl

end Execution

/-- Neither in its code, nor about to record a sleep, nor parked by one. -/
def Phase.awake {κ : Type} : Phase κ → Bool
  | .code _ | .checkpoint (.sleep _) _ _ | .parked _ => false
  | _ => true

/-- What a move of an attempt comes to as far as sleeps go. -/
inductive Turn (b : Body) (outs : List (Option Json)) (w w' : World) (a : Execution Body)
    (m : Move) : Execution Body → Prop where
  | keep : Turn b outs w w' a m a
  | onward {a' : Execution Body} (answers : a'.answers = a.answers) (seq : a'.seq = a.seq)
      (phase : a'.phase.awake) : Turn b outs w w' a m a'
  | code {a' : Execution Body} (answers : a'.answers = a.answers) (heard : a'.heard = a.heard)
      (phase : ∃ c, a'.phase = .code c) : Turn b outs w w' a m a'
  | enter {c : Body} {a' : Execution Body} (source : a.phase = .code c)
      (answers : a'.answers = a.answers) (seq : a'.seq = a.seq + 1) (phase : a'.phase.awake) :
      Turn b outs w w' a m a'
  | answer {k : Nat} {p : Prim} {next : Option Json → Body} {v : Option Json} {a' : Execution Body}
      (heard : a.heard = k) (seq : a'.seq = k + 1) (le : k ≤ outs.length)
      (after : b.after (outs.take k) = .call p next) (phase : ∃ c, a'.phase = .code c)
      (answers : a'.answers = a.answers ++ [(k + 1, v)])
      (woken : ∀ interval, p = .sleep interval → ∃ t, wakeAt v = some t ∧ t ≤ w.clock) :
      Turn b outs w w' a m a'
  | invoked {interval : Int} {next : Option Json → Body} (move : ∃ result, m = .invoke result)
      (source : a.phase = .running (.sleep interval) next) :
      Turn b outs w w' a m
        { a with
          phase := .checkpoint (.sleep interval) next (some (wakeRecord (w.clock + interval))) }
  | parked {c : Body} {interval : Int} {next : Option Json → Body} {s : StepRow} {t : Int}
      (source : a.phase = .code c) (le : a.seq ≤ outs.length)
      (after : b.after (outs.take a.seq) = .call (.sleep interval) next)
      (recorded : outs[a.seq]? = some s.output) (wakes : wakeAt s.output = some t) :
      Turn b outs w w' a m { a with seq := a.seq + 1, phase := .parked (t - w.clock) }
  | asleep {interval : Int} {next : Option Json → Body} {output : Option Json}
      (source : a.phase = .checkpoint (.sleep interval) next output)
      (recorded : ∃ row, w'.db.step.find? (a.row.id, a.seq) = some row ∧ row.output = output ∧
        row.error = none) :
      Turn b outs w w' a m { a with phase := .parked interval }

namespace Turn

variable {b : Body} {outs : List (Option Json)} {w w' : World} {a next : Execution Body} {m : Move}

theorem leave : Turn b outs w w' a m a.leave := .onward rfl rfl rfl

theorem raise : Turn b outs w w' a m a.raise := .onward rfl rfl rfl

theorem throw (hframes : a.frames = []) (error : String) :
    Turn b outs w w' a m (a.throw error) := by
  simp only [Execution.throw, hframes]
  exact raise

theorem answered (h : w.owns a.row → Turn b outs w w' a m next) (ack : Bool) :
    Turn b outs w w' a m (a.answered next w ack) := by
  unfold Execution.answered
  split
  · exact keep
  · split
    · exact h ‹_›
    · exact leave

theorem issue {w₁ : World} {a' : Execution Body} {s : WorkerStmt} {ack : Bool}
    (h : a.issue next w s ack = some (w₁, a')) (hnext : Turn b outs w w' a m next) :
    Turn b outs w w' a m a' := by
  obtain ⟨w₂, -, heq⟩ := Option.map_eq_some_iff.mp h
  cases heq
  cases ack
  · exact keep
  · exact hnext

/-- A call that was under way returns to the code. -/
theorem of_answer {p : Prim} {next : Option Json → Body}
    (hcall : OnCall b outs a p next) (hcode : ∀ c, a.phase ≠ .code c)
    (hp : ∀ interval, p ≠ .sleep interval) (v : Option Json) :
    Turn b outs w w' a m (a.answer p next v) := by
  obtain ⟨-, k, hseq, hk, hafter⟩ := hcall
  have hheard : a.heard = k := by
    unfold Execution.heard
    split
    · next c hphase => exact absurd hphase (hcode c)
    · omega
  exact .answer hheard hseq hk hafter ⟨_, rfl⟩ (congrArg (fun q => a.answers ++ [(q, v)]) hseq)
    fun interval heq => absurd heq (hp interval)

theorem of_invoke {a' : Execution Body} {p : Prim} {next : Option Json → Body}
    {result : Except String (Option Json)} (hphase : a.phase = .running p next)
    (hm : a.invoke w.clock p next result = some a') :
    Turn b outs w w' a (.invoke result) a' := by
  unfold Execution.invoke at hm
  split at hm <;> cases hm
  all_goals first | exact .invoked ⟨_, rfl⟩ hphase | exact .onward rfl rfl rfl

end Turn

/-- The one checkpoint that a move may write: that of the call under way. The success of a
sleep is what the attempt had made ready. -/
structure Writes (b : Body) (outs : List (Option Json)) (jid : Nat) (w w' : World)
    (a : Execution Body) (p : Prim) (next : Option Json → Body) : Prop where
  call : OnCall b outs a p next
  outside : ∀ c, a.phase ≠ .code c
  others : ∀ q, q ≠ a.seq → w'.db.step.find? (jid, q) = w.db.step.find? (jid, q)
  success : ∀ row, w'.db.step.find? (jid, a.seq) = some row → row.error = none →
    w.db.step.find? (jid, a.seq) = some row ∨
      ∀ interval, p = .sleep interval → a.phase = .checkpoint p next row.output

def MayWrite (b : Body) (outs : List (Option Json)) (jid : Nat) (w w' : World)
    (a : Execution Body) : Prop :=
  (∀ q, w'.db.step.find? (jid, q) = w.db.step.find? (jid, q)) ∨
    ∃ p next, Writes b outs jid w w' a p next

theorem MayWrite.same {b : Body} {outs : List (Option Json)} {jid : Nat} {w w' : World}
    {a : Execution Body} (h : w'.db.step = w.db.step) : MayWrite b outs jid w w' a :=
  .inl fun q => by rw [h]

theorem MayWrite.issue {b : Body} {outs : List (Option Json)} {jid : Nat} {w w' : World}
    {a a' next : Execution Body} {s : WorkerStmt} {ack : Bool}
    (h : a.issue next w s ack = some (w', a')) : MayWrite b outs jid w w' a := by
  obtain ⟨w₁, hw₁, heq⟩ := Option.map_eq_some_iff.mp h
  cases heq
  obtain ⟨wakes, rfl⟩ := World.worker_eq hw₁
  exact .same rfl

namespace Stands

variable {b : Body} {jid : Nat} {w w' : World} {outs : List (Option Json)} {a a' : Execution Body}

theorem turn_call (h : Stands b jid w outs a) {c : Body} {p : Prim} {next : Option Json → Body}
    (hphase : a.phase = .code c) (hc : c = .call p next) {m : Move} :
    Turn b outs w w' a m (a.call w.clock p next) := by
  obtain ⟨-, hle, hafter⟩ := h.onCall hphase hc
  have hlook : ∀ q, Execution.checkpoint? { a with seq := a.seq + 1 } q =
    a.checkpoint? q := fun _ => rfl
  simp only [Execution.call, hlook]
  cases hs : a.checkpoint? (a.seq + 1) with
  | none => exact .enter hphase rfl rfl rfl
  | some s =>
    obtain ⟨hname, hout, hnone⟩ := h.replays hafter hs
    simp only [hname, ne_eq, not_true_eq_false, if_false]
    have hreturn (hwoken : ∀ interval, p = .sleep interval →
        ∃ t, wakeAt s.output = some t ∧ t ≤ w.clock) :
        Turn b outs w w' a m (Execution.answer { a with seq := a.seq + 1 } p next s.output) :=
      .answer (Execution.heard_of_code hphase) rfl hle hafter ⟨_, rfl⟩ rfl hwoken
    cases p with
    | sleep interval =>
      cases hwake : wakeAt s.output with
      | none => exact .enter hphase rfl rfl rfl
      | some t =>
        have he : s.error = none := Classical.byContradiction fun hne => by
          simp [hnone hne, wakeAt] at hwake
        simp only
        split
        · next hle => exact hreturn fun _ _ => ⟨t, hwake, hle⟩
        · exact .parked hphase hle hafter (hout he) hwake
    | _ =>
      simp only
      split
      · exact hreturn fun _ heq => by cases heq
      · exact .enter hphase rfl rfl rfl

theorem turn_record (h : Stands b jid w outs a) {started : Int} {ack : Bool} {m : Move}
    (hm : a.record b.program w started ack = some (w', a')) : Turn b outs w w' a m a' := by
  unfold Execution.record at hm
  split at hm
  · next p next output hphase =>
    obtain ⟨w₁, hw₁, heq⟩ := Option.map_eq_some_iff.mp hm
    cases heq
    obtain ⟨hcall, -⟩ : OnCall b outs a p next ∧ p.atomic = false := by
      simpa only [At, hphase] using h.follows.at_
    refine .answered (fun howns => ?_) ack
    cases p with
    | sleep interval =>
      obtain ⟨row, hrow, -, hout, he⟩ := World.recordStep_success howns hw₁
      exact .asleep hphase ⟨row, hrow, hout, he⟩
    | _ => exact .of_answer hcall (fun c => by simp [hphase]) (fun _ heq => by cases heq) output
  · obtain ⟨w₁, -, heq⟩ := Option.map_eq_some_iff.mp hm
    cases heq
    exact .answered (fun _ => .throw h.follows.frames _) ack
  · split at hm
    · cases hm
      exact .leave
    · split at hm
      · cases hm
      · cases hm
        exact .onward rfl rfl rfl
  · split at hm
    · next hframes =>
      rw [h.follows.frames] at hframes
      cases hframes
    · cases hm
  · cases hm

theorem turn_commit (h : Stands b jid w outs a) {started : Int} {lost : Option String} {m : Move}
    {entries : List Entry} (hm : a.commit w started lost = some (w', a', entries)) :
    Turn b outs w w' a m a' := by
  unfold Execution.commit at hm
  split at hm
  · next p next result hphase =>
    dsimp only at hm
    split at hm
    · cases hm
    · obtain ⟨w₁, -, heq⟩ := Option.map_eq_some_iff.mp hm
      cases heq
      obtain ⟨hcall, hp⟩ : OnCall b outs a p next ∧ p.atomic := by
        simpa only [At, hphase] using h.follows.at_
      cases lost with
      | none =>
        refine .of_answer hcall (fun c => by simp [hphase]) (fun interval heq => ?_) _
        rw [heq] at hp
        cases hp
      | some error => exact .onward rfl rfl rfl
  · cases hm

theorem turn_recv (h : Stands b jid w outs a) {started : Int} {ack expired : Bool} {m : Move}
    {entries : List Entry} (hm : a.recv w started ack expired = some (w', a', entries)) :
    Turn b outs w w' a m a' := by
  unfold Execution.recv at hm
  split at hm
  · next topic next hphase =>
    obtain ⟨w₁, -, heq⟩ := Option.map_eq_some_iff.mp hm
    obtain ⟨-, heq, -⟩ := Prod.mk.injEq .. ▸ Prod.mk.injEq .. ▸ heq
    have hanswer (v : Option Json) : Turn b outs w w' a m (a.answer (.recv topic) next v) :=
      .of_answer (h.running hphase).1 (fun c => by simp [hphase]) (fun _ heq => by cases heq) v
    subst heq
    split_ifs
    · exact .keep
    · exact .leave
    · exact hanswer _
    · exact hanswer _
    · exact .onward rfl rfl rfl
    · exact .keep
  · cases hm

theorem turn (h : Stands b jid w outs a) {m : Move} {entries : List Entry}
    (hm : a.move b.program w m = some (w', a', entries)) : Turn b outs w w' a m a' := by
  have hat := h.follows.at_
  cases Execution.move_cases hm with
  | load hphase => exact .onward rfl rfl rfl
  | start hphase hstart =>
    refine .issue hstart ?_
    split_ifs
    · exact .leave
    · exact .raise
    · obtain ⟨-, hseq⟩ : a.steps.isSome ∧ a.seq = 0 := by simpa only [At, hphase] using hat
      exact .code rfl (by simp [Execution.heard, hphase, hseq]) ⟨_, rfl⟩
  | call hphase hhead => exact h.turn_call hphase (Body.eq_call hhead)
  | @nest c fn name next hphase hhead => cases c <;> cases hhead
  | invoke hphase hinvoke => exact .of_invoke hphase hinvoke
  | execute hphase hexecute =>
    unfold Execution.execute at hexecute
    dsimp only at hexecute
    split_ifs at hexecute <;> cases hexecute
    all_goals exact .onward rfl rfl rfl
  | record hrecord => exact h.turn_record hrecord
  | commit hcommit => exact h.turn_commit hcommit
  | rollback => exact .onward rfl rfl rfl
  | unwind => exact .throw h.follows.frames _
  | recv hrecv => exact h.turn_recv hrecv
  | reschedule hphase hissue => exact .issue hissue .leave
  | publish hpublish =>
    unfold Execution.publish at hpublish
    split at hpublish
    · next c hphase =>
      split at hpublish
      · next key value rest hhead =>
        obtain ⟨w₁, -, heq⟩ := Option.map_eq_some_iff.mp hpublish
        cases heq
        have hcode {m : Move} : Turn b outs w w' a m { a with phase := .code rest } :=
          .code rfl (by simp only [Execution.heard, hphase]) ⟨rest, rfl⟩
        exact .answered (fun _ => hcode) _
      · cases hpublish
    · cases hpublish
  | @read c key next hphase hhead => cases c <;> cases hhead
  | compactFence hfence =>
    unfold Execution.compactFence at hfence
    split at hfence
    · next c hphase => cases c <;> cases hfence
    · cases hfence
  | compact hcompact =>
    unfold Execution.compact at hcompact
    split at hcompact
    · next hphase => simp only [At, hphase] at hat
    · cases hcompact
  | finish hphase hhead hframes hissue => exact .issue hissue .leave
  | raise => exact .raise
  | settle hphase hsettles hissue => exact .issue hissue .leave
  | crash => exact .leave

theorem writes_record (h : Stands b jid w outs a) {started : Int} {ack : Bool}
    (hm : a.record b.program w started ack = some (w', a')) : MayWrite b outs jid w w' a := by
  have hat := h.follows.at_
  unfold Execution.record at hm
  split at hm
  · next p next output hphase =>
    obtain ⟨w₁, hw₁, heq⟩ := Option.map_eq_some_iff.mp hm
    cases heq
    obtain ⟨hcall, -⟩ : OnCall b outs a p next ∧ p.atomic = false := by
      simpa only [At, hphase] using hat
    cases howns : w.owns a.row with
    | false => exact .same (World.durable_of_stale howns hw₁ ▸ rfl)
    | true =>
      obtain ⟨row, hrow, -, hout, -⟩ := World.recordStep_success howns hw₁
      rw [h.id] at hrow
      refine .inr ⟨p, next, hcall, fun c => by simp [hphase],
        fun q hq => World.recordStep_other hw₁ (by simpa [h.id] using hq), fun s hs _ => .inr ?_⟩
      rintro interval rfl
      rw [hphase, ← hout, Option.some.inj (hrow.symm.trans hs)]
  · next seq name error hphase =>
    obtain ⟨w₁, hw₁, heq⟩ := Option.map_eq_some_iff.mp hm
    cases heq
    obtain ⟨rfl, p, next, hcall, rfl⟩ :
        seq = a.seq ∧ ∃ p next, OnCall b outs a p next ∧ p.name = name := by
      simpa only [At, hphase] using hat
    cases howns : w.owns a.row with
    | false => exact .same (World.durable_of_stale howns hw₁ ▸ rfl)
    | true =>
      obtain ⟨row, hrow, hcase⟩ := World.recordStep_error howns hw₁
      rw [h.id] at hrow hcase
      refine .inr ⟨p, next, hcall, fun c => by simp [hphase],
        fun q hq => World.recordStep_other hw₁ (by simpa [h.id] using hq), fun s hs he => .inl ?_⟩
      obtain rfl := Option.some.inj (hrow.symm.trans hs)
      rcases hcase with ⟨hold, -⟩ | ⟨-, -, herror, -⟩
      · exact hold
      · rw [he] at herror
        cases herror
  · split at hm
    · cases hm
      exact .same rfl
    · split at hm
      · cases hm
      · cases hm
        exact .same rfl
  · split at hm
    · next hframes =>
      rw [h.follows.frames] at hframes
      cases hframes
    · cases hm
  · cases hm

theorem writes_commit (h : Stands b jid w outs a) {started : Int} {lost : Option String}
    {entries : List Entry} (hm : a.commit w started lost = some (w', a', entries)) :
    MayWrite b outs jid w w' a := by
  unfold Execution.commit at hm
  split at hm
  · next p next result hphase =>
    dsimp only at hm
    split at hm
    · cases hm
    · obtain ⟨w₂, hw₂, heq⟩ := Option.map_eq_some_iff.mp hm
      obtain ⟨w₁, hw₁, hw₂⟩ := Option.bind_eq_some_iff.mp hw₂
      cases heq
      obtain ⟨hcall, hp⟩ : OnCall b outs a p next ∧ p.atomic := by
        simpa only [At, hphase] using h.follows.at_
      obtain ⟨hstep, -⟩ := World.statement_frame hw₁
      refine .inr ⟨p, next, hcall, fun c => by simp [hphase], fun q hq => ?_, fun s _ _ => .inr ?_⟩
      · rw [← hstep]
        exact World.recordStep_other hw₂ (by simpa [h.id] using hq)
      · rintro interval rfl
        cases hp
  · cases hm

theorem writes_recv (h : Stands b jid w outs a) {started : Int} {ack expired : Bool}
    {entries : List Entry} (hm : a.recv w started ack expired = some (w', a', entries)) :
    MayWrite b outs jid w w' a := by
  unfold Execution.recv at hm
  split at hm
  · next topic next hphase =>
    obtain ⟨w₁, hw₁, heq⟩ := Option.map_eq_some_iff.mp hm
    obtain ⟨-, rfl⟩ := World.durable_eq_some.mp hw₁
    cases heq
    rcases w.db.recv_cases w.clock a.row.id a.seq topic
      (Prim.recv topic).name a.row.runEpoch started with hidle | ⟨-, -, m, db', -, hrecv, hother, -⟩
    · exact .same (by simp only [DurableStmt.run, hidle])
    · refine .inr ⟨.recv topic, next, (h.running hphase).1, fun c => by simp [hphase],
        fun q hq => ?_, fun s _ _ => .inr fun _ heq => by cases heq⟩
      simp only [DurableStmt.run, hrecv]
      exact hother (jid, q) (by simpa [h.id] using hq)
  · cases hm

theorem writes (h : Stands b jid w outs a) {m : Move} {entries : List Entry}
    (hm : a.move b.program w m = some (w', a', entries)) : MayWrite b outs jid w w' a := by
  cases Execution.move_cases hm with
  | start hphase hissue => exact .issue hissue
  | record hrecord => exact h.writes_record hrecord
  | commit hcommit => exact h.writes_commit hcommit
  | recv hrecv => exact h.writes_recv hrecv
  | reschedule hphase hissue => exact .issue hissue
  | publish hpublish =>
    unfold Execution.publish at hpublish
    split at hpublish
    · split at hpublish
      · obtain ⟨w₁, hw₁, heq⟩ := Option.map_eq_some_iff.mp hpublish
        cases heq
        obtain ⟨-, rfl⟩ := World.durable_eq_some.mp hw₁
        refine .same ?_
        simp only [DurableStmt.run, Db.setEvent]
        split <;> rfl
      · cases hpublish
    · cases hpublish
  | compact hcompact =>
    have hat := h.follows.at_
    unfold Execution.compact at hcompact
    split at hcompact
    · next hphase => simp only [At, hphase] at hat
    · cases hcompact
  | finish hphase hhead hframes hissue => exact .issue hissue
  | settle hphase hsettles hissue => exact .issue hissue
  | load | call | nest | invoke | execute | rollback | unwind | read | compactFence | raise
  | crash =>
    exact .same rfl

/-- An attempt finishes its job from the end of the code. -/
theorem finishes (h : Stands b jid w outs a) {m : Move} {entries : List Entry}
    (hm : a.move b.program w m = some (w', a', entries)) (hdone : Done jid w') :
    Done jid w ∨ ∃ result, a.phase = .code (.done result) := by
  obtain ⟨r, hr, hid, hfinished⟩ := hdone
  have hsame (hjorb : w'.db.jorb = w.db.jorb) : Done jid w := ⟨r, hjorb ▸ hr, hid, hfinished⟩
  have hissue {next : Execution Body} {s : WorkerStmt} {ack : Bool}
      (hm : a.issue next w s ack = some (w', a')) (hs : ∀ result, s ≠ .finished result) :
      Done jid w := by
    obtain ⟨w₁, hw₁, heq⟩ := Option.map_eq_some_iff.mp hm
    cases heq
    rcases World.worker_finished hw₁ hr hfinished with hr | ⟨-, result, hresult⟩
    · exact ⟨r, hr, hid, hfinished⟩
    · exact absurd hresult (hs result)
  cases Execution.move_cases hm with
  | start hphase hstart => exact .inl (hissue hstart nofun)
  | record hrecord => exact .inl (hsame (Execution.record_jorb hrecord))
  | commit hcommit => exact .inl (hsame (Execution.commit_jorb hcommit))
  | recv hrecv => exact .inl (hsame (Execution.recv_jorb hrecv))
  | reschedule hphase hstmt => exact .inl (hissue hstmt nofun)
  | publish hpublish => exact .inl (hsame (Execution.publish_jorb hpublish))
  | compact hcompact =>
    have hat := h.follows.at_
    unfold Execution.compact at hcompact
    split at hcompact
    · next hphase => simp only [At, hphase] at hat
    · cases hcompact
  | @finish c result ack w' a' hphase hhead =>
    cases c with
    | done result => exact .inr ⟨result, hphase⟩
    | _ => cases hhead
  | settle hphase hsettles hstmt =>
    exact .inl (hissue hstmt fun result heq => by subst heq; cases hsettles)
  | load | call | nest | invoke | execute | rollback | unwind | read | compactFence | raise
  | crash =>
    exact .inl (hsame rfl)

end Stands

end Pyjobby
