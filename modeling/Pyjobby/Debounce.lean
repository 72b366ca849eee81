import Pyjobby.Speculative

/-! Debounce windows. A bounce restates the predicate of the index, so a row that
has left its window is not written to any more; an insert opens a window only
where the index has none. -/

namespace Pyjobby

open Relational Transition

def Jorb.Clamped (r : Jorb) : Prop :=
  r.debounceEntry.isSome → ∀ d, r.debounceDeadline = some d → r.runAfter ≤ d

def Jorb.unclaimed (r : Jorb) : Bool := r.state = .queued && r.runCount = 0

/-- What a debounced job's `run_after` is in the row, the cap of its window applied. -/
def Jorb.firesAt (r : Jorb) (runAfter : Int) : Int :=
  r.debounceDeadline.elim runAfter (min runAfter)

theorem Updates.window {w : World} {a : Act} {u : Update} (h : Updates w a u) (ha : a.keyless)
    {r : Jorb} (hr : r.state = .waiting → r.debounceKey = none) (hc : u.cond w.db r)
    (hopen : (u.set.set r).debounceEntry.isSome) :
    (u.set.set r).runAfter = r.runAfter ∧ (u.set.set r).debounceDeadline = r.debounceDeadline := by
  have hclosed (hleft : (u.set.set r).state ≠ .queued ∨ (u.set.set r).debounceKey = none) :
      False := by
    rcases hleft with hleft | hleft <;> simp [Jorb.debounceEntry, hleft] at hopen
  cases h with
  | supervise s =>
    change s.cond w.clock w.db r at hc
    cases s with
    | bounce => cases ha
    | requeue | sweepDeadWorkerJobs | sweepStuckClaims | retryTimedOut =>
      exact (hclosed (.inr rfl)).elim
    | deadletterTimedOut | cancelUnsatisfiableWaiters =>
      exact (hclosed (.inl (by simp [SupervisorStmt.update, SupervisorStmt.set]))).elim
    | wakeWaiters =>
      simp only [SupervisorStmt.cond, Jorb.stranded, Bool.and_eq_true, decide_eq_true_eq] at hc
      exact (hclosed (.inr (hr hc.2.1))).elim
    | _ => exact ⟨rfl, rfl⟩
  | rerunFresh => exact (hclosed (.inr rfl)).elim
  | worker exec s =>
    cases s with
    | retry | reschedule => exact (hclosed (.inr rfl)).elim
    | _ => exact (hclosed (.inl (by simp [WorkerStmt.update, WorkerStmt.set]))).elim
  | wakeSelf =>
    simp only [enqueueNextSelfFinished, Bool.and_eq_true, decide_eq_true_eq] at hc
    exact (hclosed (.inr (hr hc.1.1.2))).elim
  | wakeGroup =>
    simp only [enqueueNextIfPeerGroupIsFinished, Bool.and_eq_true, decide_eq_true_eq] at hc
    exact (hclosed (.inr (hr hc.1.1.2))).elim

theorem Updates.kwargs {w : World} {a : Act} {u : Update} (h : Updates w a u) (ha : a.keyless)
    (r : Jorb) : (u.set.set r).kwargs = r.kwargs := by
  cases h with
  | supervise s =>
    cases s with
    | bounce => cases ha
    | _ => rfl
  | worker exec s => cases s <;> rfl
  | _ => rfl

theorem Updates.debounceKey {w : World} {a : Act} {u : Update} (h : Updates w a u) (r : Jorb) :
    (u.set.set r).debounceKey.isSome → r.debounceKey.isSome := by
  cases h with
  | supervise s => cases s <;> first | exact fun h => h | exact nofun
  | worker exec s => cases s <;> first | exact fun h => h | exact nofun
  | rerunFresh => exact nofun
  | _ => exact fun h => h

/-- Every window is capped, and every call is one that its checks let through. -/
structure Capped (s : Clients) : Prop where
  deduped : Deduped s.world.db
  clamped : ∀ r ∈ s.world.db.jorb, r.Clamped
  keys : ∀ c ∈ s.calls, c.job.keyRefusal = none
  capped : ∀ c ∈ s.calls, ∀ d, c.job.debounceDeadline = some d → c.job.runAfter ≤ d
  identified : ∀ c ∈ s.calls, ∀ held, c.phase = .identify ∨ c.phase = .identifying held →
    c.job.debounceKey = none

theorem Act.keys_of_keyless {a : Act} (ha : a.keyless) {j : NewJob} (hj : a = .enqueue j) :
    j.keyRefusal = none ∧ j.debounceKey = none ∧ j.identityKey = none := by
  subst hj
  simpa [Act.keyless, and_assoc] using ha

namespace Capped

variable {s s' : Clients}

theorem init (clock : Int) (queue : String → Option QueueRow) : Capped (.init clock queue) where
  deduped := Deduped.empty
  clamped := fun _ hr => absurd hr Serial.not_mem_empty
  keys := fun _ hc => absurd hc List.not_mem_nil
  capped := fun _ hc => absurd hc List.not_mem_nil
  identified := fun _ hc => absurd hc List.not_mem_nil

theorem clamped_env (h : Capped s) {w' : World} {a : Act} (ha : a.keyless)
    (he : Effect s.world a w') : ∀ r ∈ w'.db.jorb, r.Clamped := by
  intro r' hr'
  cases he with
  | quiet db clock queue jorb => exact h.clamped r' (jorb ▸ hr')
  | close session jorb => exact h.clamped r' (jorb ▸ hr')
  | opens => exact h.clamped r' hr'
  | delete => exact h.clamped r' (Serial.mem_delete.mp hr').1
  | insert j act =>
    rcases (Serial.mem_insert (h := fun _ => rfl)).mp hr' with hr' | rfl
    · exact h.clamped r' hr'
    · intro hopen
      simp [Jorb.debounceEntry, NewJob.row, (Act.keys_of_keyless ha act).2.1] at hopen
  | update db wakes u jorb free source =>
    obtain ⟨r, hr, rfl⟩ := Serial.mem_update.mp (jorb ▸ hr')
    split
    · rename_i hc
      intro hopen d hd
      obtain ⟨v, hv⟩ := Option.isSome_iff_exists.mp hopen
      obtain ⟨hrun, hdeadline⟩ := source.window ha (h.deduped.waiting r hr) hc hopen
      have hold : r.debounceEntry = some v := (source.narrows h.deduped.waiting hr hc).debounce v hv
      rw [hrun]
      exact h.clamped r hr (Option.isSome_iff_exists.mpr ⟨v, hold⟩) d (hdeadline ▸ hd)
    · exact h.clamped r hr
  | @commit session jid c _ _ _ _ _ _ _ _ jorb =>
    obtain ⟨r, hr, rfl⟩ := Serial.mem_update.mp (jorb ▸ hr')
    split
    · intro hopen
      simp [Jorb.debounceEntry, ClaimArgs.claimed] at hopen
    · exact h.clamped r hr

theorem env (h : Capped s) {a : Act} (ha : a.keyless) {w' : World}
    (hw : s.world.step a = some w') : Capped { s with world := w' } :=
  ⟨h.deduped.step (World.step_effect hw) fun _ hj => (Act.keys_of_keyless ha hj).1,
    h.clamped_env ha (World.step_effect hw), h.keys, h.capped, h.identified⟩

theorem ran (h : Capped s) {c : Call} (hc : c ∈ s.calls) {w' : World} {phase : CallPhase}
    (hran : c.Ran s.world w' phase) :
    Deduped w'.db ∧ ∀ r ∈ w'.db.jorb, r.Clamped := by
  cases hran with
  | insert | again | mismatch | held => exact ⟨h.deduped, h.clamped⟩
  | @bounced id key r hkey mem hr =>
    refine ⟨⟨h.deduped.unique.update fun t _ _ => .edit rfl rfl rfl rfl rfl rfl,
      fun t' ht' hwait => ?_⟩, fun t' ht' => ?_⟩
    · obtain ⟨t, ht, rfl⟩ := Serial.mem_update.mp ht'
      split at hwait <;> rename_i hcond
      · rw [if_pos hcond]
        exact h.deduped.waiting t ht hwait
      · rw [if_neg hcond]
        exact h.deduped.waiting t ht hwait
    · obtain ⟨t, ht, rfl⟩ := Serial.mem_update.mp ht'
      split
      · intro _ d hd
        have hd : t.debounceDeadline = some d := hd
        simp only [NewJob.bounce, SupervisorStmt.update, SupervisorStmt.set, hd, Option.elim_some]
        exact min_le_right _ _
      · exact h.clamped t ht
  | @created db henq =>
    have hstep : s.world.step (.enqueue c.job) = some { s.world with db } := by
      simp [World.step, henq]
    refine ⟨h.deduped.step (World.step_effect hstep) fun j hj => ?_, fun r hr => ?_⟩
    · exact Act.enqueue.inj hj ▸ h.keys c hc
    · rcases (Db.enqueue_jorb henq).mp hr with hr | rfl
      · exact h.clamped r hr
      · exact fun _ d hd => h.capped c hc d hd

theorem firstPhase_identify {j : NewJob} {held : Option (Nat × String)}
    (h : j.firstPhase = .identify ∨ j.firstPhase = .identifying held) : j.debounceKey = none := by
  by_contra hkey
  simp [NewJob.firstPhase, Option.isSome_iff_ne_none.mpr hkey] at h

theorem ran_identify {c : Call} {w w' : World} {phase : CallPhase} (hran : c.Ran w w' phase)
    {held : Option (Nat × String)} (h : phase = .identify ∨ phase = .identifying held) :
    c.job.debounceKey = none := by
  cases hran with
  | again =>
    unfold Call.again at h
    split at h
    · exact firstPhase_identify h
    · simp at h
  | _ => simp at h

theorem call (h : Capped s) {job : NewJob} (hkeys : job.keyRefusal = none)
    (hcapped : ∀ d, job.debounceDeadline = some d → job.runAfter ≤ d) : Capped (s.call job) where
  deduped := h.deduped
  clamped := h.clamped
  keys := fun c hc => by
    rcases List.mem_append.mp hc with hc | hc
    · exact h.keys c hc
    · exact List.mem_singleton.mp hc ▸ hkeys
  capped := fun c hc => by
    rcases List.mem_append.mp hc with hc | hc
    · exact h.capped c hc
    · exact List.mem_singleton.mp hc ▸ hcapped
  identified := fun c hc held hphase => by
    rcases List.mem_append.mp hc with hc | hc
    · exact h.identified c hc held hphase
    · obtain rfl := List.mem_singleton.mp hc
      exact firstPhase_identify hphase

theorem set (h : Capped s) {i : Nat} {c c' : Call} (hc : c ∈ s.calls) (hjob : c'.job = c.job)
    (hidentified : ∀ held, c'.phase = .identify ∨ c'.phase = .identifying held →
      c.job.debounceKey = none) {w' : World} (hdeduped : Deduped w'.db)
    (hclamped : ∀ r ∈ w'.db.jorb, r.Clamped) : Capped ⟨w', s.calls.set i c'⟩ where
  deduped := hdeduped
  clamped := hclamped
  keys := fun b hb => by
    rcases List.mem_or_eq_of_mem_set hb with hb | rfl
    · exact h.keys b hb
    · exact hjob ▸ h.keys c hc
  capped := fun b hb => by
    rcases List.mem_or_eq_of_mem_set hb with hb | rfl
    · exact h.capped b hb
    · exact hjob ▸ h.capped c hc
  identified := fun b hb held hphase => by
    rcases List.mem_or_eq_of_mem_set hb with hb | rfl
    · exact h.identified b hb held hphase
    · exact hjob ▸ hidentified held hphase

theorem step (h : Capped s) {a : ClientAct} (hstep : s.Stepped a s') : Capped s' := by
  cases hstep with
  | env keyless step => exact h.env keyless step
  | @call _ job act keys capped =>
    refine h.call keys fun d hd => ?_
    cases hkey : job.debounceKey with
    | some key => exact capped (by simp [hkey]) d hd
    | none =>
      -- a cap without a key is refused
      have := NewJob.keyRefusal_eq_none.mp keys
        (job.debounceKey.isNone && job.debounceDeadline.isSome, .deadlineWithoutDebounce)
        (by simp [NewJob.keyChecks])
      simp [hkey, hd] at this
  | @snapshot i c c' mem snap =>
    have hc := List.mem_of_getElem? mem
    refine h.set hc (Call.snapshot_job snap) (fun held hphase => ?_) h.deduped h.clamped
    unfold Call.snapshot at snap
    split at snap
    · cases snap
      simp at hphase
    · rename_i hold
      exact h.identified c hc none (.inl hold)
    · cases snap
  | @run i c c' world mem run =>
    have hc := List.mem_of_getElem? mem
    have hran := Call.run_ran run
    obtain ⟨hdeduped, hclamped⟩ := h.ran hc hran
    exact h.set hc (Call.run_job run) (fun held hphase => ran_identify hran hphase)
      hdeduped hclamped

end Capped

theorem ClientRun.capped {ρ : ClientRun} (hρ : ∃ clock queue, ρ.state 0 = .init clock queue) :
    ∀ n ≤ ρ.length, Capped (ρ.state n) := by
  obtain ⟨clock, queue, h0⟩ := hρ
  exact ρ.invariant (h0 ▸ Capped.init clock queue)
    fun h hstep => h.step (Clients.step_stepped hstep)

/-- The row holds what the call asked for, and nobody has claimed it. -/
def World.Carries (w : World) (c : Call) (id : Nat) : Prop :=
  ∃ r ∈ w.db.jorb, r.id = id ∧ r.unclaimed ∧ r.kwargs = c.job.kwargs ∧
    r.runAfter = r.firesAt c.job.runAfter

theorem Call.again_ne_returned {c : Call} {id : Nat} {created : Bool} :
    c.again.phase ≠ .returned id created := by
  unfold Call.again NewJob.firstPhase
  split
  · split <;> simp
  · simp

theorem Capped.wrote {s : Clients} (h : Capped s) {c : Call} (hc : c ∈ s.calls)
    (hkey : c.job.debounceKey.isSome) {w' : World} {id : Nat} {created : Bool}
    (hran : c.Ran s.world w' (.returned id created)) : w'.Carries c id := by
  generalize hphase : CallPhase.returned id created = phase at hran
  cases hran with
  | insert | mismatch => cases hphase
  | again => exact absurd hphase.symm Call.again_ne_returned
  | held hidentify =>
    have := h.identified c hc _ (.inr hidentify)
    simp [this] at hkey
  | @bounced jid key r _ mem hr =>
    cases hphase
    refine ⟨_, Serial.mem_update.mpr ⟨r, mem, rfl⟩, ?_⟩
    rw [if_pos hr]
    simp only [NewJob.bounce, SupervisorStmt.cond, Bool.and_eq_true, decide_eq_true_eq] at hr
    obtain ⟨rfl, ⟨⟨-, hstate⟩, hcount⟩, -⟩ := hr
    refine ⟨rfl, ?_, rfl, rfl⟩
    simp [Jorb.unclaimed, NewJob.bounce, SupervisorStmt.update, SupervisorStmt.set, hstate, hcount]
  | created henq =>
    cases hphase
    refine ⟨_, (Db.enqueue_jorb henq).mpr (.inr rfl), rfl, ?_, rfl, ?_⟩
    · have hdep : c.job.dependent = false := by
        by_contra hdep
        have := NewJob.debounceKey_of_dependent (h.keys c hc) (by simpa using hdep)
        simp [this] at hkey
      simp [Jorb.unclaimed, NewJob.row, hdep]
    · cases hd : c.job.debounceDeadline with
      | none => simp [Jorb.firesAt, NewJob.row, hd]
      | some d => simp [Jorb.firesAt, NewJob.row, hd, h.capped c hc d hd]

theorem Call.ran_quiet {c : Call} {w w' : World} {phase : CallPhase} (hran : c.Ran w w' phase) :
    w' = w ∨ ∃ id created, phase = .returned id created := by
  cases hran with
  | bounced | created => exact .inr ⟨_, _, rfl⟩
  | _ => exact .inl rfl

def Clients.Writes (a : ClientAct) (s' : Clients) (c : Call) (id : Nat) : Prop :=
  (∃ i, a = .run i ∧ s'.calls[i]? = some c) ∧ (∃ created, c.phase = .returned id created) ∧
    c.job.debounceKey.isSome

theorem Clients.Stepped.rewritten {s s' : Clients} {a : ClientAct} (h : s.Stepped a s') {r' : Jorb}
    (hr' : r' ∈ s'.world.db.jorb) :
    (∃ r ∈ s.world.db.jorb, r.id = r'.id ∧ r'.kwargs = r.kwargs ∧
        (r'.debounceKey.isSome → r.debounceKey.isSome)) ∨
      (r'.id = s.world.db.jorb.next ∧ r'.debounceKey = none) ∨ ∃ c, Writes a s' c r'.id := by
  have keep (hmem : r' ∈ s.world.db.jorb) :
      ∃ r ∈ s.world.db.jorb, r.id = r'.id ∧ r'.kwargs = r.kwargs ∧
        (r'.debounceKey.isSome → r.debounceKey.isSome) := ⟨r', hmem, rfl, rfl, fun h => h⟩
  cases h with
  | @env a world keyless step =>
    cases World.step_effect step with
    | quiet db clock queue jorb => exact .inl (keep (jorb ▸ hr'))
    | close session jorb => exact .inl (keep (jorb ▸ hr'))
    | opens => exact .inl (keep hr')
    | delete => exact .inl (keep (Serial.mem_delete.mp hr').1)
    | insert j act =>
      rcases (Serial.mem_insert (h := fun _ => rfl)).mp hr' with hr' | rfl
      · exact .inl (keep hr')
      · exact .inr (.inl ⟨rfl, (Act.keys_of_keyless keyless act).2.1⟩)
    | update db wakes u jorb free source =>
      obtain ⟨r, hr, rfl⟩ := Serial.mem_update.mp (jorb ▸ hr')
      refine .inl ⟨r, hr, ?_⟩
      split
      · exact ⟨(u.set.key_set r).symm, source.kwargs keyless r, source.debounceKey r⟩
      · exact ⟨rfl, rfl, fun h => h⟩
    | @commit session jid c _ _ _ _ _ _ _ _ jorb =>
      obtain ⟨r, hr, rfl⟩ := Serial.mem_update.mp (jorb ▸ hr')
      refine .inl ⟨r, hr, ?_⟩
      split <;> exact ⟨rfl, rfl, fun h => h⟩
  | call => exact .inl (keep hr')
  | snapshot => exact .inl (keep hr')
  | @run i c c' world mem run =>
    have hjob := Call.run_job run
    have hself : (s.calls.set i c')[i]? = some c' :=
      List.getElem?_set_self (List.getElem?_eq_some_iff.mp mem).1
    have hran := Call.run_ran run
    generalize hphase : c'.phase = phase at hran
    cases hran with
    | insert | again | mismatch | held => exact .inl (keep hr')
    | @bounced id key r hkey _ hr =>
      obtain ⟨t, ht, rfl⟩ := Serial.mem_update.mp hr'
      split
      · rename_i hc
        have hid : t.id = id := by
          simp only [NewJob.bounce, Bool.and_eq_true, decide_eq_true_eq] at hc
          exact hc.1
        exact .inr (.inr ⟨c', ⟨i, rfl, hself⟩, ⟨false, hid ▸ hphase⟩, by simp [hjob, hkey]⟩)
      · exact .inl ⟨t, ht, rfl, rfl, fun h => h⟩
    | created henq =>
      rcases (Db.enqueue_jorb henq).mp hr' with hr' | rfl
      · exact .inl (keep hr')
      · cases hkey : c.job.debounceKey with
        | none => exact .inr (.inl ⟨rfl, hkey⟩)
        | some key => exact .inr (.inr ⟨c', ⟨i, rfl, hself⟩, ⟨true, hphase⟩, by simp [hjob, hkey]⟩)

theorem Clients.Stepped.next_le {s s' : Clients} {a : ClientAct} (h : s.Stepped a s') :
    s.world.db.jorb.next ≤ s'.world.db.jorb.next := by
  cases h with
  | env keyless step => exact (World.step_effect step).next_le
  | call => exact le_rfl
  | snapshot => exact le_rfl
  | @run i c c' world mem run =>
    have hran := Call.run_ran run
    generalize c'.phase = phase at hran
    cases hran with
    | insert | again | mismatch | held => exact le_rfl
    | bounced => exact le_rfl
    | created henq =>
      simp only [Db.enqueue] at henq
      split at henq
      · cases henq
      · cases henq
        exact Nat.le_succ _

namespace ClientRun

variable {ρ : ClientRun}

theorem next_le {n m : Nat} (hnm : n ≤ m) (hm : m ≤ ρ.length) :
    (ρ.state n).world.db.jorb.next ≤ (ρ.state m).world.db.jorb.next :=
  ρ.monotone (R := fun s t => s.world.db.jorb.next ≤ t.world.db.jorb.next) (fun _ => le_rfl)
    Nat.le_trans (fun h => (Clients.step_stepped h).next_le) hnm hm

/-- The last of the debounced calls to have returned the job before moment `n`. -/
def LastWrote (ρ : ClientRun) (n id : Nat) (c : Call) : Prop :=
  ∃ m < n, Clients.Writes (ρ.act m) (ρ.state (m + 1)) c id ∧
    ∀ k, m < k → k < n → ∀ b, ¬ Clients.Writes (ρ.act k) (ρ.state (k + 1)) b id

theorem LastWrote.succ {n id : Nat} {c : Call} (h : ρ.LastWrote n id c)
    (hquiet : ∀ b, ¬ Clients.Writes (ρ.act n) (ρ.state (n + 1)) b id) :
    ρ.LastWrote (n + 1) id c := by
  obtain ⟨m, hm, hwrites, hlast⟩ := h
  refine ⟨m, Nat.lt_succ_of_lt hm, hwrites, fun k hmk hk => ?_⟩
  rcases Nat.lt_succ_iff_lt_or_eq.mp hk with hk | rfl
  · exact hlast k hmk hk
  · exact hquiet

theorem writes_carries {n : Nat} (hcap : Capped (ρ.state n)) (hn : n < ρ.length) {c : Call}
    {id : Nat} (h : Clients.Writes (ρ.act n) (ρ.state (n + 1)) c id) :
    (ρ.state (n + 1)).world.Carries c id := by
  obtain ⟨⟨i, hact, hc⟩, ⟨created, hphase⟩, hkey⟩ := h
  obtain ⟨b, c', hb, hc', hrun⟩ := Clients.Stepped.run_call (hact ▸ ρ.stepped hn)
  obtain rfl := Option.some.inj (hc.symm.trans hc')
  have hjob := Call.run_job hrun
  have hcarries := hcap.wrote (List.mem_of_getElem? hb) (hjob ▸ hkey) (hphase ▸ Call.run_ran hrun)
  simpa only [World.Carries, hjob] using hcarries

theorem lastWrote_of_debounceKey (h0 : (ρ.state 0).world.db.jorb = .empty 1) {n : Nat}
    (hn : n ≤ ρ.length) {r : Jorb} (hr : r ∈ (ρ.state n).world.db.jorb)
    (hkey : r.debounceKey.isSome) : ∃ c, ρ.LastWrote n r.id c := by
  induction n generalizing r with
  | zero => exact absurd (h0 ▸ hr) Serial.not_mem_empty
  | succ n ih =>
    by_cases hquiet : ∃ b, Clients.Writes (ρ.act n) (ρ.state (n + 1)) b r.id
    · obtain ⟨b, hb⟩ := hquiet
      exact ⟨b, n, Nat.lt_succ_self n, hb, fun k hnk hk => absurd hk (by omega)⟩
    · rcases (ρ.stepped hn).rewritten hr with ⟨t, ht, hid, -, hkeep⟩ | ⟨-, hnone⟩ | hwrites
      · obtain ⟨c, hlast⟩ := ih (Nat.le_of_succ_le hn) ht (hkeep hkey)
        exact ⟨c, (hid ▸ hlast).succ fun b hb => hquiet ⟨b, hb⟩⟩
      · simp [hnone] at hkey
      · exact absurd hwrites hquiet

theorem kwargs_of_lastWrote (hcap : ∀ n ≤ ρ.length, Capped (ρ.state n)) {n : Nat}
    (hn : n ≤ ρ.length) {r : Jorb} (hr : r ∈ (ρ.state n).world.db.jorb) {c : Call}
    (h : ρ.LastWrote n r.id c) : r.kwargs = c.job.kwargs := by
  induction n generalizing r with
  | zero =>
    obtain ⟨m, hm, -⟩ := h
    exact absurd hm (Nat.not_lt_zero m)
  | succ n ih =>
    obtain ⟨m, hm, hwrites, hlast⟩ := h
    rcases Nat.lt_succ_iff_lt_or_eq.mp hm with hm | rfl
    · have hquiet := hlast n hm (Nat.lt_succ_self n)
      rcases (ρ.stepped hn).rewritten hr with ⟨t, ht, hid, hkwargs, -⟩ | ⟨hnew, -⟩ | ⟨b, hb⟩
      · refine hkwargs.trans (ih (Nat.le_of_succ_le hn) ht
          ⟨m, hm, hid ▸ hwrites, fun k hmk hk => ?_⟩)
        exact hid ▸ hlast k hmk (Nat.lt_succ_of_lt hk)
      · -- the id had been handed out when the call wrote
        obtain ⟨t, ht, hid, -⟩ :=
          writes_carries (hcap m (by omega)) (show m < ρ.length by omega) hwrites
        have hlt := Serial.lt_next ht
        have hle := ρ.next_le (show m + 1 ≤ n by omega) (Nat.le_of_succ_le hn)
        omega
      · exact absurd hb (hquiet b)
    · obtain ⟨t, ht, hid, -, hkwargs, -⟩ := writes_carries
        (hcap m (Nat.le_of_succ_le hn)) hn hwrites
      rw [← Serial.eq_of_ident ht hr hid]
      exact hkwargs

theorem raised_quiet {n m i : Nat} (hmn : m < n) (hn : n ≤ ρ.length) {c : Call}
    (hc : (ρ.state n).calls[i]? = some c) (hraised : c.raised) (hact : ρ.act m = .run i) :
    (ρ.state (m + 1)).world = (ρ.state m).world := by
  have hm : m < ρ.length := by omega
  obtain ⟨b, b', -, hb', hrun⟩ := Clients.Stepped.run_call (hact ▸ ρ.stepped hm)
  rcases Call.ran_quiet (Call.run_ran hrun) with hquiet | ⟨id, created, hphase⟩
  · exact hquiet
  · obtain ⟨c', hc', -, hover⟩ := ρ.call_later (show m + 1 ≤ n by omega) hn hb'
    obtain rfl := Option.some.inj (hc.symm.trans hc')
    rw [hover (by simp [Call.ended, hphase]), Call.raised, hphase] at hraised
    cases hraised

end ClientRun

/-- Debounce windows, in every run of any number of calls: one open window a key
at most, never past its cap; a call that returns a job had its own arguments in
it before anybody claimed it; the row of a window carries those of the last call
to have written; a call that raises writes nothing. -/
theorem debounce_windows (ρ : ClientRun) (hρ : ∃ clock queue, ρ.state 0 = .init clock queue) :
    ∀ n ≤ ρ.length,
      (ρ.state n).world.db.jorb.Unique Jorb.debounceEntry ∧
      (∀ r ∈ (ρ.state n).world.db.jorb, r.Clamped) ∧
      (∀ i c id created, (ρ.state n).calls[i]? = some c → c.job.debounceKey.isSome →
        c.phase = .returned id created →
        ∃ m < n, ρ.act m = .run i ∧ (ρ.state (m + 1)).world.Carries c id) ∧
      (∀ r ∈ (ρ.state n).world.db.jorb,
        (r.debounceKey.isSome → ∃ c, ρ.LastWrote n r.id c) ∧
          ∀ c, ρ.LastWrote n r.id c → r.kwargs = c.job.kwargs) ∧
      ∀ i c, (ρ.state n).calls[i]? = some c → c.raised →
        ∀ m < n, ρ.act m = .run i → (ρ.state (m + 1)).world = (ρ.state m).world := by
  have hcap := ClientRun.capped hρ
  obtain ⟨clock, queue, h0⟩ := hρ
  intro n hn
  refine ⟨(hcap n hn).deduped.unique.debounce, (hcap n hn).clamped,
    fun i c id created hc hkey hphase => ?_,
    fun r hr => ⟨ρ.lastWrote_of_debounceKey (by rw [h0]; rfl) hn hr,
      fun c => ρ.kwargs_of_lastWrote hcap hn hr⟩,
    fun i c hc hraised m hmn hact => ρ.raised_quiet hmn hn hc hraised hact⟩
  obtain ⟨m, hm, hact, hc', -⟩ :=
    ρ.last_statement (by rw [h0]; rfl) hn hc (by simp [Call.ended, hphase])
  exact ⟨m, hm, hact, ClientRun.writes_carries (hcap m (by omega)) (by omega)
    ⟨⟨i, hact, hc'⟩, ⟨created, hphase⟩, hkey⟩⟩

/-- Two calls on one key; a worker claims the first window while the second call's
bounce waits for it. -/
def bouncedActs : List ClientAct :=
  [.debounce (.plain "q") "cart" 0 60 none, .snapshot 0, .run 0, .run 0,
    .debounce (.plain "q") "cart" 10 60 (some 30), .snapshot 1, .env (.tick 60),
    .env (.claimBegin 1 (.plain "q")), .env (.claimPick 1 [] []), .env (.claimCommit 1 true),
    .run 1, .run 1]

def bouncedRun : ClientRun := .ofList (.init 0 fun _ => none) bouncedActs (by decide)

theorem debounce_windows_bounced :
    (bouncedRun.state 12).calls.map Call.phase = [.returned 1 true, .returned 2 true] ∧
      (bouncedRun.state 12).world.db.jorb.Unique Jorb.debounceEntry ∧
      ∀ r ∈ (bouncedRun.state 12).world.db.jorb, r.Clamped :=
  ⟨by decide, (debounce_windows bouncedRun ⟨_, _, rfl⟩ 12 (by decide)).1,
    (debounce_windows bouncedRun ⟨_, _, rfl⟩ 12 (by decide)).2.1⟩

end Pyjobby
