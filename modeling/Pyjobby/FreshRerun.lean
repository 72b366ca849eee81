import Pyjobby.RerunLocks

/-! A fresh rerun leaves nothing of the old run behind, whatever is in flight while its
requeue and its wipe take their turns. -/

namespace Pyjobby

open Relational Transition

namespace Reruns

variable {s s' : Reruns}

/-- What a rerun of the job at this epoch leaves behind it for good. -/
structure Wiped (jid epoch : Nat) (s : Reruns) : Prop where
  known : jid < s.world.db.jorb.next
  row : ∀ r ∈ s.world.db.jorb, r.id = jid → epoch < r.runEpoch
  step : ∀ c ∈ s.world.db.step, c.jobId = jid → epoch < c.runEpoch
  stream : ∀ c ∈ s.world.db.stream, c.jobId = jid → epoch < c.runEpoch

/-- The writers' and the reruns' statements change nothing others can see; commits do. -/
theorem step_world {a : RerunAct} (hs : s.step a = some s') :
    (∃ b, a = .env b ∧ s.waits b = false ∧ s.world.step b = some s'.world) ∨
      (∃ session t, a = .commit session ∧ s.writers.find? session = some t ∧ s.commit t = some s') ∨
      (∃ session u, a = .commitRerun session ∧ s.reruns.find? session = some u ∧
        s.commitRerun u = some s') ∨ s'.world = s.world := by
  cases a with
  | env a =>
    simp only [Reruns.step] at hs
    split at hs
    · cases hs
    · obtain ⟨w', hw', hs⟩ := Option.bind_eq_some_iff.mp hs
      split at hs
      · cases hs
      · cases hs
        exact .inl ⟨a, rfl, Bool.eq_false_iff.mpr ‹_›, hw'⟩
  | begin session i =>
    simp only [Reruns.step] at hs
    split at hs
    · obtain ⟨e, -, rfl⟩ := Option.map_eq_some_iff.mp hs
      exact .inr (.inr (.inr rfl))
    · cases hs
  | issue session stmt =>
    obtain ⟨t, -, hs⟩ := Option.bind_eq_some_iff.mp hs
    split at hs <;> cases hs
    exact .inr (.inr (.inr rfl))
  | lock session =>
    obtain ⟨t, -, hs⟩ := Option.bind_eq_some_iff.mp hs
    unfold Reruns.lock at hs
    split at hs
    · split_ifs at hs <;> cases hs <;> exact .inr (.inr (.inr rfl))
    · cases hs
  | write session =>
    obtain ⟨t, -, hs⟩ := Option.bind_eq_some_iff.mp hs
    unfold Reruns.write at hs
    split at hs
    · dsimp only at hs
      split at hs <;> cases hs
      exact .inr (.inr (.inr rfl))
    · cases hs
  | commit session =>
    obtain ⟨t, ht, hs⟩ := Option.bind_eq_some_iff.mp hs
    exact .inr (.inl ⟨session, t, rfl, ht, hs⟩)
  | rollback session | rollbackRerun session =>
    cases hs
    exact .inr (.inr (.inr rfl))
  | rerun session jid allowed delay resetErrors =>
    simp only [Reruns.step] at hs
    split at hs <;> cases hs
    exact .inr (.inr (.inr rfl))
  | requeue session =>
    obtain ⟨u, -, hs⟩ := Option.bind_eq_some_iff.mp hs
    unfold Reruns.requeue at hs
    split at hs
    · split_ifs at hs <;> cases hs <;> exact .inr (.inr (.inr rfl))
    · cases hs
  | wipeSteps session =>
    obtain ⟨u, -, hs⟩ := Option.bind_eq_some_iff.mp hs
    unfold Reruns.wipeSteps at hs
    split at hs
    · dsimp only at hs
      split at hs <;> cases hs
      exact .inr (.inr (.inr rfl))
    · cases hs
  | wipeStreams session =>
    obtain ⟨u, -, hs⟩ := Option.bind_eq_some_iff.mp hs
    unfold Reruns.wipeStreams at hs
    split at hs <;> cases hs
    exact .inr (.inr (.inr rfl))
  | commitRerun session =>
    obtain ⟨u, hu, hs⟩ := Option.bind_eq_some_iff.mp hs
    exact .inr (.inr (.inl ⟨session, u, rfl, hu, hs⟩))

/-- A writer with something to commit has its job row as its claim left it. -/
theorem Sound.commit_epoch (h : s.Sound) {t : WriteTx} (ht : t ∈ s.writers) (hne : t.pending ≠ [])
    {jid epoch : Nat} (hw : Wiped jid epoch s) (hid : t.exec.id = jid) :
    epoch < t.exec.runEpoch := by
  have htx := h.writers t ht
  obtain ⟨r, hr, hrid, hepoch⟩ := htx.row (htx.locked (.inl hne))
  exact hepoch ▸ hw.row r hr (hrid.trans hid)

namespace Wiped

variable {jid epoch : Nat}

theorem env (h : Wiped jid epoch s) (hs : s.Sound) {a : Act} (hwaits : s.waits a = false)
    {w' : World} (hw : s.world.step a = some w') : Wiped jid epoch { s with world := w' } := by
  have heffect := World.step_effect hw
  obtain ⟨-, hlogs⟩ := Bool.or_eq_false_iff.mp hwaits
  have hshrinks := (World.step_tables hw).shrinks fun i stmt hact => by
    subst hact
    exact (Bool.or_eq_false_iff.mp hlogs).1
  refine ⟨h.known.trans_le heffect.next_le, fun r' hr' hid => ?_,
    fun c hc => h.step c (hshrinks.1 c hc), fun c hc => h.stream c (hshrinks.2 c hc)⟩
  rcases (heffect.origin hs.locks hr').source with hborn | ⟨r, hr, hsame, hle⟩
  · have := h.known
    omega
  · exact (h.row r hr (hsame.id.symm.trans hid)).trans_le hle

theorem commit (h : Wiped jid epoch s) (hs : s.Sound) {t : WriteTx} (ht : t ∈ s.writers)
    (hcommit : s.commit t = some s') : Wiped jid epoch s' := by
  unfold Reruns.commit at hcommit
  split at hcommit
  · cases hcommit
    have hadds := Write.foldl_adds (hs.writers t ht).by_exec s.world.db
    refine ⟨hadds.jorb ▸ h.known, fun r hr => h.row r (hadds.jorb ▸ hr), fun c hc hid => ?_,
      fun c hc hid => ?_⟩
    · by_cases hne : t.pending = []
      · exact h.step c (by simpa [hne] using hc) hid
      · rcases hadds.step c hc with hold | ⟨hjob, hepoch⟩
        · exact h.step c hold hid
        · exact hepoch ▸ hs.commit_epoch ht hne h (hjob.symm.trans hid)
    · by_cases hne : t.pending = []
      · exact h.stream c (by simpa [hne] using hc) hid
      · rcases hadds.stream c hc with hold | ⟨hjob, hepoch⟩
        · exact h.stream c hold hid
        · exact hepoch ▸ hs.commit_epoch ht hne h (hjob.symm.trans hid)
  · cases hcommit

theorem commitRerun (h : Wiped jid epoch s) {u : RerunTx} (hcommit : s.commitRerun u = some s') :
    Wiped jid epoch s' := by
  unfold Reruns.commitRerun at hcommit
  split at hcommit
  · cases hcommit
    refine ⟨h.known, fun r' hr' hid => ?_, fun c hc => h.step c (Table.mem_delete.mp hc).1,
      fun c hc => h.stream c (Table.mem_delete.mp hc).1⟩
    obtain ⟨r, hr, rfl⟩ := Serial.mem_update.mp hr'
    split at hid
    · have := h.row r hr ((u.requeue.set.key_set r).symm.trans hid)
      rename_i hc
      simp only [hc, if_true]
      exact this.trans (Nat.lt_succ_self _)
    · rename_i hc
      simp only [hc]
      exact h.row r hr hid
  · cases hcommit

theorem next (h : Wiped jid epoch s) (hs : s.Sound) {a : RerunAct} (hstep : s.step a = some s') :
    Wiped jid epoch s' := by
  rcases step_world hstep with ⟨b, -, hwaits, hw⟩ | ⟨session, t, -, ht, hcommit⟩ |
    ⟨session, u, -, -, hcommit⟩ | hsame
  · have henv := h.env hs hwaits hw
    exact ⟨henv.known, henv.row, henv.step, henv.stream⟩
  · exact h.commit hs (Table.find?_eq_some.mp ht).1 hcommit
  · exact h.commitRerun hcommit
  · exact ⟨hsame ▸ h.known, hsame ▸ h.row, hsame ▸ h.step, hsame ▸ h.stream⟩

end Wiped

/-- The commit itself: the doomed rows were all there were, and the row moves past every
execution claimed so far. -/
theorem Sound.wipes (h : s.Sound) {u : RerunTx} (hu : u ∈ s.reruns)
    (hcommit : s.commitRerun u = some s') :
    s'.Blank u.jid ∧ ∃ epoch, Wiped u.jid epoch s' ∧
      ∀ e ∈ s.world.execs, e.id = u.jid → e.runEpoch ≤ epoch := by
  unfold Reruns.commitRerun at hcommit
  split at hcommit
  · rename_i steps streams hphase
    cases hcommit
    have htx := h.reruns u hu
    obtain ⟨r, hr, hid, hstate⟩ := htx.row (by simp [RerunTx.holds, hphase])
    have hstep {c : StepRow} (hc : c ∈ s.world.db.step.delete fun c => c.key ∈ steps) :
        c.jobId ≠ u.jid := fun hjob => by
      obtain ⟨hc, hkept⟩ := Table.mem_delete.mp hc
      exact of_decide_eq_false hkept (htx.steps steps (.inr ⟨streams, hphase⟩) c hc hjob)
    have hstream {c : StreamRow} (hc : c ∈ s.world.db.stream.delete fun c => c.pk ∈ streams) :
        c.jobId ≠ u.jid := fun hjob => by
      obtain ⟨hc, hkept⟩ := Table.mem_delete.mp hc
      exact of_decide_eq_false hkept (htx.streams steps streams hphase c hc hjob)
    have hknown : u.jid < s.world.db.jorb.next := hid ▸ Serial.lt_next hr
    refine ⟨⟨fun c hc => hstep hc, fun c hc => hstream hc⟩, r.runEpoch, ⟨hknown,
      fun r' hr' hid' => ?_, fun c hc hjob => absurd hjob (hstep hc),
      fun c hc hjob => absurd hjob (hstream hc)⟩,
      fun e he heid => (h.fenced.owned e he).bound r hr (hid.trans heid.symm)⟩
    obtain ⟨t, ht, rfl⟩ := Serial.mem_update.mp hr'
    have hsame : t.id = u.jid := by
      split at hid'
      · exact (u.requeue.set.key_set t).symm.trans hid'
      · exact hid'
    obtain rfl := Serial.eq_of_ident ht hr (hsame.trans hid.symm)
    have hc : u.requeue.cond s.world.db t := by
      simp [RerunTx.requeue, SupervisorStmt.update, SupervisorStmt.cond, hid, hstate]
    simp only [hc, if_true]
    exact Nat.lt_succ_self _
  · cases hcommit

end Reruns

/-- Once a fresh rerun has committed, the job has no checkpoint and no stream row, and
from then on none but those of executions claimed later; nothing that an execution claimed
before still has to commit reaches the database. -/
theorem fresh_rerun_leaves_nothing (ρ : RerunRun)
    (hρ : ∃ clock queue, ρ.state 0 = .init clock queue) {n session : Nat} {u : RerunTx}
    (hn : n < ρ.length) (hact : ρ.act n = .commitRerun session)
    (hu : (ρ.state n).reruns.find? session = some u) :
    (ρ.state (n + 1)).Blank u.jid ∧ ∀ m, n < m → m ≤ ρ.length →
      (∀ c ∈ (ρ.state m).world.db.step, c.jobId = u.jid →
        Reruns.ClaimedSince (ρ.state n) (ρ.state m) c.jobId c.runEpoch) ∧
      (∀ c ∈ (ρ.state m).world.db.stream, c.jobId = u.jid →
        Reruns.ClaimedSince (ρ.state n) (ρ.state m) c.jobId c.runEpoch) ∧
      ∀ i t, ρ.act m = .commit i → (ρ.state m).writers.find? i = some t → t.exec.id = u.jid →
        t.pending ≠ [] → Reruns.ClaimedSince (ρ.state n) (ρ.state m) t.exec.id t.exec.runEpoch := by
  obtain ⟨clock, queue, h0⟩ := hρ
  have hsound : ∀ m ≤ ρ.length, (ρ.state m).Sound :=
    ρ.invariant (h0 ▸ .init clock queue) fun h hstep => h.step_sound hstep
  have hcommit : (ρ.state n).commitRerun u = some (ρ.state (n + 1)) := by
    have hnext := ρ.next n hn
    rw [hact] at hnext
    simpa only [Reruns.step, hu, Option.bind_some] using hnext
  obtain ⟨hblank, epoch, hwiped, hbound⟩ :=
    (hsound n hn.le).wipes (Table.find?_eq_some.mp hu).1 hcommit
  have hafter : ∀ m, n < m → m ≤ ρ.length → Reruns.Wiped u.jid epoch (ρ.state m) := by
    intro m hm
    induction hm with
    | refl => exact fun _ => hwiped
    | @step m hm ih =>
      exact fun hlen => (ih (Nat.le_of_succ_le hlen)).next (hsound m (Nat.le_of_succ_le hlen))
        (ρ.next m hlen)
  have hsince {m epoch' : Nat} {e : Jorb} (he : e ∈ (ρ.state m).world.execs) (hid : e.id = u.jid)
      (hepoch : e.runEpoch = epoch') (hlt : epoch < epoch') :
      Reruns.ClaimedSince (ρ.state n) (ρ.state m) u.jid epoch' :=
    ⟨e, he, hid, hepoch, fun e₀ he₀ hid₀ => (hbound e₀ he₀ hid₀).trans_lt hlt⟩
  refine ⟨hblank, fun m hnm hm => ⟨fun c hc hjob => ?_, fun c hc hjob => ?_,
    fun i t _ ht hid hne => ?_⟩⟩
  · obtain ⟨e, he, hid, hepoch⟩ := (hsound m hm).step c hc
    exact hjob ▸ hsince he (hid.trans hjob) hepoch ((hafter m hnm hm).step c hc hjob)
  · obtain ⟨e, he, hid, hepoch⟩ := (hsound m hm).stream c hc
    exact hjob ▸ hsince he (hid.trans hjob) hepoch ((hafter m hnm hm).stream c hc hjob)
  · have hmem := (Table.find?_eq_some.mp ht).1
    exact hid ▸ hsince ((hsound m hm).writers t hmem).exec hid rfl
      ((hsound m hm).commit_epoch hmem hne (hafter m hnm hm) hid)

def startedActs : List Act :=
  .enqueue (.plain "q") :: Act.claim 1 (.plain "q") ++ [.worker 0 (.run (some 5))]

/-- Execution 0 writes a checkpoint, stalls past its deadline, and has a second one under
way when the rerun begins; it gets its lock after the rerun, and writes nothing. -/
def rerunActs : List RerunAct :=
  startedActs.map .env ++
    [.begin 10 0, .issue 10 (.recordStep 1 "charge" none none 0), .lock 10, .write 10, .commit 10,
      .begin 10 0, .issue 10 (.recordStep 2 "mail" none none 0), .env (.tick 10),
      .env (.supervise (.deadletterTimedOut 1 "late")),
      .rerun 20 1 JorbState.rerunnableStates 0 true, .requeue 20, .wipeSteps 20, .wipeStreams 20,
      .commitRerun 20, .lock 10] ++
    (Act.claim 1 (.plain "q")).map .env ++
    [.begin 10 1, .issue 10 (.recordStep 1 "charge" none none 0), .lock 10, .write 10, .commit 10]

def rerunRun : RerunRun :=
  .ofList (.init 0 fun _ => none) rerunActs (by decide)

theorem fresh_rerun_leaves_nothing_stalled :
    (rerunRun.state 18).world.db.step.rows.length = 1 ∧ (rerunRun.state 19).Blank 1 ∧
      (rerunRun.state 28).world.db.step.rows.length = 1 ∧
      ∀ c ∈ (rerunRun.state 28).world.db.step, c.jobId = 1 →
        Reruns.ClaimedSince (rerunRun.state 18) (rerunRun.state 28) c.jobId c.runEpoch := by
  obtain ⟨u, hu, hjid⟩ : ∃ u, (rerunRun.state 18).reruns.find? 20 = some u ∧ u.jid = 1 :=
    ⟨_, rfl, rfl⟩
  obtain ⟨hblank, hsince⟩ :=
    fresh_rerun_leaves_nothing rerunRun ⟨_, _, rfl⟩ (by decide) rfl hu
  exact ⟨by decide, hjid ▸ hblank, by decide,
    hjid ▸ (hsince 28 (by decide) (by decide)).1⟩

end Pyjobby
