import Pyjobby.Executions
import Pyjobby.Lib.Lists
import Pyjobby.Tables

/-! What holds of the attempts at a job whatever its code does: the epoch fence
lets one of them write at a time, and everybody else leaves the checkpoints of
the job alone. -/

namespace Pyjobby

open Relational Transition

/-- What a step of everybody else leaves alone. -/
structure Aside (jid : Nat) (w w' : World) : Prop where
  step : ∀ seq, w'.db.step.find? (jid, seq) = w.db.step.find? (jid, seq)
  finished : ∀ r' ∈ w'.db.jorb, r'.id = jid → r'.state = .finished →
    ∃ r ∈ w.db.jorb, r.id = jid ∧ r.state = .finished

theorem DurableStmt.find?_step_of_ne {now : Int} {j epoch : Nat} {db : Db} {jid : Nat}
    (h : j ≠ jid) (s : DurableStmt) (seq : Nat) :
    (s.run now j epoch db).step.find? (jid, seq) = db.step.find? (jid, seq) := by
  have hkey {r : StepRow} (hr : r.jobId = j) : ((jid, seq) : Nat × Nat) ≠ r.key := by
    intro heq
    exact h (hr.symm.trans (congrArg Prod.fst heq).symm)
  cases s with
  | recordStep n name output error started =>
    simp only [DurableStmt.run, Db.recordStep]
    split
    · rfl
    · exact Table.find?_upsert_of_ne (hkey rfl)
  | setEvent key value =>
    simp only [DurableStmt.run, Db.setEvent]
    split <;> rfl
  | streamAppend key value closed =>
    simp only [DurableStmt.run, Db.streamAppend]
    repeat' split
    all_goals rfl
  | send dest topic message =>
    simp only [DurableStmt.run, Db.send]
    split <;> rfl
  | recv n topic name started =>
    simp only [DurableStmt.run, Db.recv]
    repeat' split
    · rfl
    · exact Table.find?_upsert_of_ne (hkey rfl)
    · rfl

theorem SupervisorStmt.finished_of_set {now : Int} {s : SupervisorStmt} {r : Jorb}
    (h : (s.set now r).state = .finished) : r.state = .finished := by
  cases s with
  | requeue =>
    simp only [set, Jorb.requeueState] at h
    split at h <;> cases h
  | cancel =>
    simp only [set] at h
    split at h
    · cases h
    · exact h
  | updatePriority | updateAppVersion | setAwaited | bounce => exact h
  | _ => cases h

namespace World

theorem step_checkpoints_aside {jid : Nat} {w w' : World} {a : Act} (hf : w.foreign jid a)
    (h : w.step a = some w') (seq : Nat) :
    w'.db.step.find? (jid, seq) = w.db.step.find? (jid, seq) := by
  have hdelete {p : StepRow → Bool} (hp : ∀ s : StepRow, s.jobId = jid → p s = false) :
      (w.db.step.delete p).find? (jid, seq) = w.db.step.find? (jid, seq) :=
    Table.find?_delete_of_key fun s hs => hp s (congrArg Prod.fst hs)
  cases step_tables h with
  | kept hstep => rw [hstep]
  | @durable i e stmt hact hexec heq =>
    subst hact
    have hne : e.id ≠ jid := by simpa [foreign, hexec] using hf
    rw [heq]
    exact stmt.find?_step_of_ne hne seq
  | delete batch hact heq =>
    subst hact
    have hne : jid ∉ batch := by simpa [foreign] using hf
    rw [heq]
    exact hdelete fun s hs => by simp [hs, hne]
  | @wipe j allowed delay resetErrors hact hstep =>
    subst hact
    have hne : j ≠ jid := by simpa [foreign] using hf
    rw [hstep]
    exact hdelete fun s hs => by simp [hs, hne.symm]
  | @compact session j epoch hact htx hstep =>
    subst hact
    have hne : j ≠ jid := by simpa [foreign, Table.find?_eq_some.mpr ⟨htx, rfl⟩] using hf
    rw [hstep]
    exact hdelete fun s hs => by simp [hs, hne.symm]

theorem finished_of_updates {jid : Nat} {w : World} {a : Act} {u : Update} {r : Jorb}
    (hu : Updates w a u) (hf : w.foreign jid a) (hc : u.cond w.db r) (hid : r.id = jid)
    (hfin : (u.set.set r).state = .finished) : r.state = .finished := by
  cases hu with
  | supervise s => exact s.finished_of_set hfin
  | rerunFresh j allowed delay resetErrors =>
    exact SupervisorStmt.finished_of_set (s := .requeue [j] allowed delay resetErrors) hfin
  | worker hexec s =>
    have hne := by simpa [foreign, hexec] using hf
    exact absurd ((Jorb.attemptOf_iff.mp hc).1.symm.trans hid) hne
  | wakeSelf => cases hfin
  | wakeGroup => cases hfin

theorem step_aside {jid : Nat} {w w' : World} {a : Act} (hf : w.foreign jid a)
    (h : w.step a = some w') : Aside jid w w' := by
  refine ⟨step_checkpoints_aside hf h, fun r' hr' hid hfin => ?_⟩
  cases step_effect h with
  | quiet _ _ _ hjorb => exact ⟨r', hjorb ▸ hr', hid, hfin⟩
  | close _ hjorb => exact ⟨r', hjorb ▸ hr', hid, hfin⟩
  | opens => exact ⟨r', hr', hid, hfin⟩
  | delete => exact ⟨r', (Serial.mem_delete.mp hr').1, hid, hfin⟩
  | insert =>
    rcases (Serial.mem_insert (h := fun _ => rfl)).mp hr' with hr' | rfl
    · exact ⟨r', hr', hid, hfin⟩
    · simp only [NewJob.row] at hfin
      split at hfin <;> cases hfin
  | update db wakes u hjorb _ hsource =>
    obtain ⟨r, hr, rfl⟩ := Serial.mem_update.mp (hjorb ▸ hr')
    by_cases hc : u.cond w.db r
    · rw [if_pos hc] at hid hfin
      rw [u.set.key_set] at hid
      exact ⟨r, hr, hid, finished_of_updates hsource hf hc hid hfin⟩
    · rw [if_neg hc] at hid hfin
      exact ⟨r, hr, hid, hfin⟩
  | commit _ _ _ _ _ hjorb =>
    obtain ⟨r, hr, rfl⟩ := Serial.mem_update.mp (hjorb ▸ hr')
    split at hfin
    · cases hfin
    · rename_i hne
      rw [if_neg hne] at hid
      exact ⟨r, hr, hid, hfin⟩

theorem owns_iff {w : World} {e : Jorb} :
    w.owns e ↔ ∃ r ∈ w.db.jorb, r.id = e.id ∧ r.runEpoch = e.runEpoch := by
  simp [owns, Option.isSome_iff_exists, Db.fence_eq_some]

theorem owns_of_step {w w' : World} {a : Act} {e : Jorb} (hw : Locks w) (ho : Owned w e)
    (h : Effect w a w') (howns : w'.owns e) : w.owns e := by
  obtain ⟨r', hr', hid, hepoch⟩ := owns_iff.mp howns
  rcases (h.origin hw hr').source with hborn | ⟨r, hr, hsame, hle⟩
  · have := ho.known
    omega
  · have hrid : r.id = e.id := hsame.id.symm.trans hid
    have := ho.bound r hr hrid
    exact owns_iff.mpr ⟨r, hr, hrid, by omega⟩

theorem owns_congr {w w' : World} (h : w'.db.jorb = w.db.jorb) (e : Jorb) :
    w'.owns e = w.owns e := by
  simp [owns, Db.fence, h]

theorem durable_of_stale {w w' : World} {e : Jorb} {s : DurableStmt} (hs : w.owns e = false)
    (h : w.durable e s = some w') : w' = w := by
  obtain ⟨-, rfl⟩ := durable_eq_some.mp h
  have hfence : w.db.fence e.id e.runEpoch = none := by simpa [owns] using hs
  rw [s.run_of_fence hfence]

theorem durable_jorb {w w' : World} {e : Jorb} {s : DurableStmt}
    (h : w.durable e s = some w') : w'.db.jorb = w.db.jorb := by
  obtain ⟨-, rfl⟩ := durable_eq_some.mp h
  exact s.run_jorb _ _ _ _

theorem recordStep_other {w w' : World} {e : Jorb} {seq : Nat} {name : String}
    {output : Option Json} {error : Option String} {started : Int}
    (h : w.durable e (.recordStep seq name output error started) = some w') {k : Nat × Nat}
    (hk : k ≠ (e.id, seq)) : w'.db.step.find? k = w.db.step.find? k := by
  obtain ⟨-, rfl⟩ := durable_eq_some.mp h
  exact Db.find?_recordStep_of_ne hk

theorem recordStep_success {w w' : World} {e : Jorb} {seq : Nat} {name : String}
    {output : Option Json} {started : Int} (howns : w.owns e)
    (h : w.durable e (.recordStep seq name output none started) = some w') :
    ∃ s, w'.db.step.find? (e.id, seq) = some s ∧ s.name = name ∧ s.output = output ∧
      s.error = none := by
  obtain ⟨-, rfl⟩ := durable_eq_some.mp h
  obtain ⟨s, hs, -, hrow⟩ := Db.find?_recordStep_success howns
  exact ⟨s, hs, hrow⟩

theorem recordStep_error {w w' : World} {e : Jorb} {seq : Nat} {name error : String}
    {started : Int} (howns : w.owns e)
    (h : w.durable e (.recordStep seq name none (some error) started) = some w') :
    ∃ s, w'.db.step.find? (e.id, seq) = some s ∧
      (w.db.step.find? (e.id, seq) = some s ∧ s.error = none ∨
        s.name = name ∧ s.output = none ∧ s.error = some error ∧
          ∀ t, w.db.step.find? (e.id, seq) = some t → t.error ≠ none) := by
  obtain ⟨-, rfl⟩ := durable_eq_some.mp h
  obtain ⟨s, hs, -, hrow⟩ := Db.find?_recordStep_error howns
  exact ⟨s, hs, hrow⟩

theorem statement_frame {w w' : World} {e : Jorb} {p : Prim}
    (h : p.statement.elim (some w) (w.durable e) = some w') :
    w'.db.step = w.db.step ∧ w'.db.jorb = w.db.jorb := by
  cases p with
  | send dest topic message =>
    refine ⟨?_, durable_jorb h⟩
    obtain ⟨-, rfl⟩ := durable_eq_some.mp h
    simp only [DurableStmt.run, Db.send]
    split <;> rfl
  | streamWrite key value =>
    refine ⟨?_, durable_jorb h⟩
    obtain ⟨-, rfl⟩ := durable_eq_some.mp h
    simp only [DurableStmt.run, Db.streamAppend]
    repeat' split
    all_goals rfl
  | _ =>
    cases h
    exact ⟨rfl, rfl⟩

theorem worker_eq {w w' : World} {e : Jorb} {s : WorkerStmt} (h : w.worker e s = some w') :
    ∃ wakes, w' = { w with db := (s.update w.clock e.id e.runEpoch).run w.db, wakes } := by
  obtain ⟨w₁, hw₁, h⟩ := Option.map_eq_some_iff.mp h
  obtain ⟨-, rfl⟩ := update_eq_some.mp hw₁
  cases s with
  | finished result =>
    dsimp only at h
    split at h <;> exact ⟨_, h.symm⟩
  | _ => exact ⟨_, h.symm⟩

theorem worker_jorb_of_stale {w w' : World} {e : Jorb} {s : WorkerStmt} (hs : w.owns e = false)
    (h : w.worker e s = some w') : w'.db.jorb = w.db.jorb := by
  obtain ⟨wakes, rfl⟩ := worker_eq h
  have hun : (s.update w.clock e.id e.runEpoch).run w.db = w.db :=
    Update.run_of_unmatched fun r hr => Bool.eq_false_iff.mpr fun hc => by
      obtain ⟨hid, -, hepoch⟩ := Jorb.attemptOf_iff.mp hc
      exact Bool.eq_false_iff.mp hs (owns_iff.mpr ⟨r, hr, hid, hepoch⟩)
  exact congrArg Db.jorb hun

theorem worker_finished {w w' : World} {e : Jorb} {s : WorkerStmt} (h : w.worker e s = some w')
    {r' : Jorb} (hr' : r' ∈ w'.db.jorb) (hfin : r'.state = .finished) :
    r' ∈ w.db.jorb ∨ r'.id = e.id ∧ ∃ result, s = .finished result := by
  obtain ⟨wakes, rfl⟩ := worker_eq h
  obtain ⟨r, hr, rfl⟩ := Serial.mem_update.mp hr'
  by_cases hc : (s.update w.clock e.id e.runEpoch).cond w.db r
  · rw [if_pos hc] at hfin ⊢
    refine .inr ⟨((s.update w.clock e.id e.runEpoch).set.key_set r).trans
      (Jorb.attemptOf_iff.mp hc).1, ?_⟩
    cases s with
    | finished result => exact ⟨result, rfl⟩
    | _ => cases hfin
  · rw [if_neg hc] at hfin ⊢
    exact .inl hr

end World

namespace Issued

variable {w w' : World} {e : Jorb}

theorem effect (he : e ∈ w.execs) (h : Issued w e w') : ∃ a, Effect w a w' := by
  cases h with
  | worker s h =>
    obtain ⟨i, hi⟩ := List.mem_iff_getElem?.mp he
    exact ⟨_, World.worker_effect hi h⟩
  | data db jorb worker => exact ⟨default, .quiet db w.clock w.queue jorb le_rfl (.none worker)⟩

theorem next (h : Issued w e w') : w'.db.jorb.next = w.db.jorb.next := by
  cases h with
  | worker s h =>
    obtain ⟨wakes, rfl⟩ := World.worker_eq h
    rfl
  | data db jorb => exact congrArg Serial.next jorb

theorem execs (h : Issued w e w') : w'.execs = w.execs := by
  cases h with
  | worker s h =>
    obtain ⟨wakes, rfl⟩ := World.worker_eq h
    rfl
  | data => rfl

theorem jorb_of_stale (h : Issued w e w') (hs : w.owns e = false) : w'.db.jorb = w.db.jorb := by
  cases h with
  | worker s h => exact World.worker_jorb_of_stale hs h
  | data db jorb => exact jorb

end Issued

/-- The attempts are the executions of the job, in order; one that holds the row
lock has the row's epoch; and a claimed job counts its runs from 1. -/
structure Sound {κ : Type} (jid : Nat) (s : Sys κ) : Prop where
  locks : Locks s.world
  fenced : Fenced s.world
  rows : s.attempts.map Execution.row = s.world.execs.filter fun e => e.id = jid
  held : ∀ a ∈ s.attempts, a.locks → s.world.owns a.row
  counted : s.attempts ≠ [] → ∀ r ∈ s.world.db.jorb, r.id = jid → 1 ≤ r.runCount

namespace Sound

variable {κ : Type} {jid : Nat} {s s' : Sys κ}

theorem init (db : Db) (clock : Int) (queue : String → Option QueueRow) :
    Sound jid (Sys.init (κ := κ) db clock queue) where
  locks := Locks.init db clock queue
  fenced := Fenced.init db clock queue
  rows := rfl
  held := fun _ ha => by cases ha
  counted := fun h => absurd rfl h

/-- An attempt after the first one loads the log it finds. -/
theorem resumes (hs : Sound jid s) (hne : s.attempts ≠ []) {c : ClaimTx} {r : Jorb}
    (hr : r ∈ s.world.db.jorb) (hid : r.id = jid) :
    (Execution.new (κ := κ) ((c.args.claimed c.now).set r)).resumes := by
  have hcount : 1 ≤ r.runCount := hs.counted hne r hr hid
  have hnew : 1 < ((c.args.claimed c.now).set r).runCount := Nat.lt_succ_of_le hcount
  simp [Execution.resumes, Execution.new, hnew]

theorem row_mem (hs : Sound jid s) {a : Execution κ} (ha : a ∈ s.attempts) :
    a.row ∈ s.world.execs ∧ a.row.id = jid := by
  have h : a.row ∈ s.world.execs.filter fun e => e.id = jid :=
    hs.rows ▸ List.mem_map_of_mem ha
  simpa using h

theorem owned (hs : Sound jid s) {a : Execution κ} (ha : a ∈ s.attempts) : Owned s.world a.row :=
  hs.fenced.owned _ (hs.row_mem ha).1

theorem owner_unique (hs : Sound jid s) {i j : Nat} {a b : Execution κ}
    (hi : s.attempts[i]? = some a) (hj : s.attempts[j]? = some b) (ha : s.world.owns a.row)
    (hb : s.world.owns b.row) : i = j := by
  have hnd : (s.attempts.map fun a => (a.row.id, a.row.runEpoch)).Nodup := by
    have hrows : (s.attempts.map Execution.row).Sublist s.world.execs :=
      hs.rows ▸ List.filter_sublist
    have hsub := hrows.map fun e : Jorb => (e.id, e.runEpoch)
    rw [List.map_map] at hsub
    exact hs.fenced.distinct.sublist hsub
  obtain ⟨r, hr, hrid, hre⟩ := World.owns_iff.mp ha
  obtain ⟨t, ht, htid, hte⟩ := World.owns_iff.mp hb
  have haid := (hs.row_mem (List.mem_of_getElem? hi)).2
  have hbid := (hs.row_mem (List.mem_of_getElem? hj)).2
  obtain rfl := Serial.eq_of_ident hr ht (by omega)
  have hi' : (s.attempts.map fun a => (a.row.id, a.row.runEpoch))[i]? = some (jid, r.runEpoch) := by
    simp [hi, haid, hre]
  have hj' : (s.attempts.map fun a => (a.row.id, a.row.runEpoch))[j]? = some (jid, r.runEpoch) := by
    simp [hj, hbid, hte]
  obtain ⟨hlt, -⟩ := List.getElem?_eq_some_iff.mp hi'
  exact (List.getElem?_inj hlt hnd).mp (hi'.trans hj'.symm)

end Sound

namespace Sys

variable {κ : Type} {prog : Program κ} {jid : Nat} {s s' : Sys κ}

theorem step_env {a : Act} (h : s.step prog jid (.env a) = some s') :
    ∃ w', s.world.foreign jid a ∧ s.world.step a = some w' ∧
      (∀ b ∈ s.attempts, b.locks → w'.owns b.row) ∧
      s' = { s with world := w', attempts := s.attempts ++ claimed s.world w' jid } := by
  simp only [step] at h
  split at h
  · rename_i hforeign
    obtain ⟨w', hw', h⟩ := Option.bind_eq_some_iff.mp h
    split at h
    · rename_i hheld
      refine ⟨w', hforeign, hw', fun b hb hlocks => ?_, (Option.some.inj h).symm⟩
      have := List.all_eq_true.mp hheld b hb
      simpa [hlocks] using this
    · cases h
  · cases h

theorem step_attempt {i : Nat} {m : Move} (h : s.step prog jid (.attempt i m) = some s') :
    ∃ a w' a' entries, s.attempts[i]? = some a ∧ a.move prog s.world m = some (w', a', entries) ∧
      s' = ⟨w', s.attempts.set i a', s.log ++ entries⟩ := by
  obtain ⟨a, ha, h⟩ := Option.bind_eq_some_iff.mp h
  obtain ⟨⟨w', a', entries⟩, hm, h⟩ := Option.map_eq_some_iff.mp h
  exact ⟨a, w', a', entries, ha, hm, h.symm⟩

theorem claimed_cases {w w' : World} {a : Act} (h : Effect w a w') (jid : Nat) :
    (w'.execs.filter fun e => e.id = jid) = (w.execs.filter fun e => e.id = jid) ++
        (claimed (κ := κ) w w' jid).map Execution.row ∧
      (claimed (κ := κ) w w' jid = [] ∨ ∃ c : ClaimTx, ∃ r ∈ w.db.jorb, r.id = jid ∧
        claimed (κ := κ) w w' jid = [.new ((c.args.claimed c.now).set r)] ∧
        (c.args.claimed c.now).set r ∈ w'.db.jorb) := by
  rcases h.execs_cases with heq | ⟨c, r, hr, heq, hmem⟩
  · simp [claimed, heq]
  · have hid : ((c.args.claimed c.now).set r).id = r.id := rfl
    by_cases hj : r.id = jid
    · refine ⟨by simp [claimed, heq, hid, hj, Execution.new], .inr ⟨c, r, hr, hj, ?_, hmem⟩⟩
      simp [claimed, heq, hid, hj]
    · simp [claimed, heq, hid, hj]

end Sys

namespace Sound

variable {κ : Type} {prog : Program κ} {jid : Nat} {s s' : Sys κ}

theorem counted_step (hs : Sound jid s) {w' : World} {a : Act} (h : Effect s.world a w')
    (hne : s.attempts ≠ []) {r' : Jorb} (hr' : r' ∈ w'.db.jorb) (hid : r'.id = jid) :
    1 ≤ r'.runCount := by
  cases h.origin hs.locks hr' with
  | born j eq =>
    obtain ⟨b, hb⟩ := List.exists_mem_of_ne_nil _ hne
    have hknown := (hs.owned hb).known
    have hnext : r'.id = s.world.db.jorb.next := by rw [eq]; rfl
    have := (hs.row_mem hb).2
    omega
  | kept mem => exact hs.counted hne r' mem hid
  | changed mem same claimedAt runCount change =>
    exact runCount ▸ hs.counted hne _ mem (same.id.symm.trans hid)
  | @claimed session c r tx phase mem admits ends eq =>
    rw [eq]
    exact Nat.le_add_left 1 r.runCount

theorem counted_env (hs : Sound jid s) {w' : World} {a : Act} (h : Effect s.world a w')
    (hne : s.attempts ++ Sys.claimed s.world w' jid ≠ []) :
    ∀ r ∈ w'.db.jorb, r.id = jid → 1 ≤ r.runCount := by
  intro r' hr' hid
  obtain ⟨-, hnil | ⟨c, r, hr, hrid, -, hmem⟩⟩ := Sys.claimed_cases (κ := κ) h jid
  · exact hs.counted_step h (by simpa [hnil] using hne) hr' hid
  · obtain rfl := Serial.eq_of_ident hr' hmem (hid.trans hrid.symm)
    exact Nat.le_add_left 1 r.runCount

theorem env (hs : Sound jid s) {a : Act} (h : s.step prog jid (.env a) = some s') :
    Sound jid s' := by
  obtain ⟨w', -, hw', hheld, rfl⟩ := Sys.step_env h
  have heff := World.step_effect hw'
  obtain ⟨hrows, hnew⟩ := Sys.claimed_cases (κ := κ) heff jid
  refine ⟨hs.locks.step heff, hs.fenced.step hs.locks heff, ?_, fun b hb hlocks => ?_,
    hs.counted_env heff⟩
  · rw [List.map_append, hs.rows, hrows]
  · rcases List.mem_append.mp hb with hb | hb
    · exact hheld b hb hlocks
    · rcases hnew with hnil | ⟨c, r, -, -, hone, -⟩
      · simp [hnil] at hb
      · rw [hone, List.mem_singleton] at hb
        rw [hb] at hlocks
        cases hlocks

theorem attempt (hs : Sound jid s) {i : Nat} {m : Move}
    (h : s.step prog jid (.attempt i m) = some s') : Sound jid s' := by
  obtain ⟨a, w', a', entries, ha, hm, rfl⟩ := Sys.step_attempt h
  have hmem : a ∈ s.attempts := List.mem_of_getElem? ha
  have hmoves := Execution.move_moves hm
  obtain ⟨_, heff⟩ := hmoves.issued.effect (hs.row_mem hmem).1
  refine ⟨hs.locks.step heff, hs.fenced.step hs.locks heff, ?_, fun b hb hlocks => ?_,
    fun _ r' hr' hid => hs.counted_step heff (List.ne_nil_of_mem hmem) hr' hid⟩
  · obtain ⟨hi, rfl⟩ := List.getElem?_eq_some_iff.mp ha
    rw [List.map_set, hmoves.row, hmoves.issued.execs, ← hs.rows, ← List.map_set,
      List.set_getElem_self]
  · rcases Lists.mem_set_cases hb with rfl | ⟨j, hj, hne⟩
    · obtain ⟨rfl, howns⟩ := hmoves.locks hlocks
      exact hmoves.row ▸ howns
    · have hbowns := hs.held b (List.mem_of_getElem? hj) hlocks
      cases haowns : s.world.owns a.row with
      | false => rwa [World.owns_congr (hmoves.issued.jorb_of_stale haowns)]
      | true => exact absurd (hs.owner_unique hj ha hbowns haowns) hne

end Sound

end Pyjobby
