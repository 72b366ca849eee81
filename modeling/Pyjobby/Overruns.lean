import Pyjobby.Deadlines

/-! What the deadline of a job and the budget of a step come to, whatever the code does. -/

namespace Pyjobby.Deadlines

open CancelScope

variable {α : Type}

/-- Once its timer has gone off, a scope reports its own expiry in place of the end `r` of what
ran in it; a cancellation it does not when someone else interrupted as well. -/
def givesIn (interrupted : Bool) : Except Fault α → Bool
  | .ok _ => true
  | .error .timeoutError => true
  | .error .cancelled => !interrupted
  | .error _ => false

theorem refuse_claim {ε : Type} (late interrupted : Bool) (expiry : ε) (lift : Fault → ε)
    (r : Except Fault α) :
    refuse late expiry lift (claim (late && !interrupted) r) =
      if late && givesIn interrupted r then .error expiry else r.mapError lift := by
  cases r with
  | ok v => cases late <;> rfl
  | error f => cases late <;> cases interrupted <;> cases f <;> rfl

/-- What `step()` and `transaction()` record: an error that `except Exception` catches, and
every value. -/
def recordedEnd : Except Fault α → Bool
  | .ok _ => true
  | .error f => f.recorded

namespace StepCall

/-- The errors that the statements of the step raise. -/
def errors (call : StepCall) : List String :=
  (call.record.toStmt :: call.recordError.toStmt ::
    call.inTransaction.elim [] fun tx => [tx.begin_, tx.commit, tx.rollback]).filterMap Stmt.error

/-- What the statements of the step can raise. -/
def Raises (call : StepCall) (f : Fault) : Prop :=
  f = .cancelled ∨ f = .staleExecution ∨ ∃ text ∈ call.errors, f = .error text

theorem Raises.recorded {call : StepCall} {f : Fault} (h : call.Raises f) (hf : f.recorded) :
    ∃ text, f = .error text := by
  rcases h with rfl | rfl | ⟨text, -, rfl⟩
  · cases hf
  · cases hf
  · exact ⟨text, rfl⟩

end StepCall

/-- What a step leaves behind, given the end `outcome` of its function and what its own
statements raised: it comes back with the last of that, if there is any; its checkpoint is an
end it has had; and without one it has come back with a cancellation, a signal of the
platform's own, or an error of one of its statements. -/
structure Settlement (call : StepCall) (outcome : Except Fault α) (raised : List Fault)
    (checkpoint : Option (Except Fault α)) (result : Except Fault α) : Prop where
  raises : ∀ f ∈ raised, call.Raises f
  last : result = raised.getLast?.elim outcome .error
  clean : raised = [] → checkpoint = if recordedEnd outcome then some outcome else none
  stored : ∀ r, checkpoint = some r → recordedEnd r ∧ (r = outcome ∨ ∃ f ∈ raised, r = .error f)
  unstored : checkpoint = none → ∃ f, result = .error f ∧ (f.recorded → f ∈ raised)
  cancelled : outcome = .error .cancelled → (∀ f ∈ raised, f.recorded = false) →
    result = .error .cancelled

namespace StepTrace

variable (τ : StepTrace α)

/-- A timer of a scope around the step went off while its function ran. -/
def interrupted : Bool := τ.enclosing.any (·.lapses τ.wakes)

/-- The budget ended while the function ran, and the function, which ended in `r`, gives in. -/
def overran (r : Except Fault α) : Bool :=
  τ.budget.any fun b => past (τ.began + b) τ.wakes && givesIn τ.interrupted r

structure Exact (job : Job) : Prop extends
    Settlement τ.call τ.outcome τ.raised τ.checkpoint τ.result where
  ran : ∀ r, τ.inner = some r → τ.budget = job.budget τ.call.timeout τ.began ∧
    τ.outcome = if τ.overran r then .error (.stepTimeout τ.call.name (τ.budget.getD 0)) else r
  unran : τ.inner = none → τ.budget = none ∧ ∃ f ∈ τ.raised, τ.outcome = .error f

/-- The step ran inside the scopes of `t`. -/
def Under (t : Task) : Prop :=
  ∃ before inner, τ.enclosing = inner ++ t.scopes.map (·.after before) ∧
    ∀ w ∈ before, w.at_ ≤ τ.began

variable {τ} {t t' : Task} {ws : List Wake}

theorem Under.earlier (h : τ.Under t') (hp : Passed t ws t') (hbegan : t'.clock ≤ τ.began) :
    τ.Under t := by
  obtain ⟨before, inner, henclosing, hbefore⟩ := h
  refine ⟨ws ++ before, inner, ?_, fun w hw => ?_⟩
  · rw [henclosing, hp.scopes, List.map_map]
    exact congrArg (inner ++ ·) (List.map_congr_left fun s _ => s.after_after ws before)
  · rcases List.mem_append.mp hw with hw | hw
    · exact (hp.within w hw).2.trans hbegan
    · exact hbefore w hw

theorem Under.outer {deadline : Int} (h : τ.Under (t.enter deadline)) : τ.Under t := by
  obtain ⟨before, inner, henclosing, hbefore⟩ := h
  refine ⟨before, inner ++ [Scope.after before ⟨deadline, t.cancels, false⟩], ?_, hbefore⟩
  rw [henclosing, List.append_assoc]
  rfl

end StepTrace

/-- From `e` to `e'` the code came back from the suspensions in `ws` and left every scope it
entered, and every step it ran is accounted for. -/
structure Ran (job : Job) (e : Exec α) (ws : List Wake) (e' : Exec α) : Prop where
  passed : Passed e.task ws e'.task
  log : ∃ traces, e'.log = e.log ++ traces ∧
    ∀ τ ∈ traces, e.task.clock ≤ τ.began ∧ τ.Under e.task ∧ τ.Exact job

namespace Ran

variable {job : Job} {e e' e'' : Exec α} {ws vs : List Wake}

theorem quiet (hp : Passed e.task ws e'.task) (hlog : e'.log = e.log) : Ran job e ws e' :=
  ⟨hp, [], by rw [hlog, List.append_nil], fun _ hτ => absurd hτ List.not_mem_nil⟩

theorem refl (job : Job) (e : Exec α) : Ran job e [] e := quiet (.refl _) rfl

theorem wait (job : Job) (e : Exec α) (w : Wait) :
    Ran job e [⟨e.task.notices w, (e.wait w).1⟩] (e.wait w).2 :=
  quiet (.suspend _ w) rfl

theorem block (job : Job) (e : Exec α) (takes : Nat) : Ran job e [] (e.block takes) :=
  quiet (.block _ takes) rfl

theorem waitFor (job : Job) (e : Exec α) (w : Option Wait) :
    ∃ ws, Ran job e ws (e.waitFor w).2 := by
  cases w with
  | none => exact ⟨_, refl job e⟩
  | some w => exact ⟨_, wait job e w⟩

theorem trans (h : Ran job e ws e') (h' : Ran job e' vs e'') : Ran job e (ws ++ vs) e'' := by
  obtain ⟨xs, hxs, hx⟩ := h.log
  obtain ⟨ys, hys, hy⟩ := h'.log
  refine ⟨h.passed.trans h'.passed, xs ++ ys, by rw [hys, hxs, List.append_assoc], fun τ hτ => ?_⟩
  rcases List.mem_append.mp hτ with hτ | hτ
  · exact hx τ hτ
  · obtain ⟨hbegan, hunder, hexact⟩ := hy τ hτ
    exact ⟨h.passed.clock.trans hbegan, hunder.earlier h.passed hbegan, hexact⟩

theorem leave {deadline : Int} (h : Ran job (e.enter deadline) ws e') :
    Ran job e ws e'.leave := by
  obtain ⟨traces, hlog, htraces⟩ := h.log
  refine ⟨h.passed.leave.1, traces, hlog, fun τ hτ => ?_⟩
  obtain ⟨hbegan, hunder, hexact⟩ := htraces τ hτ
  exact ⟨hbegan, hunder.outer, hexact⟩

end Ran

def Body.Sound (job : Job) (body : Body α) : Prop := ∀ e, ∃ ws, Ran job e ws (body e).2

section Spec

variable {job : Job} {body : Body α}

theorem withTimeout_spec (hbody : Body.Sound job body) (deadline : Int) (e : Exec α) :
    ∃ ws, Ran job (e.enter deadline) ws (body (e.enter deadline)).2 ∧
      (withTimeout deadline body e).expired = past deadline ws ∧
      (withTimeout deadline body e).result =
        claim (past deadline ws && !e.task.scopes.any (·.lapses ws))
          (withTimeout deadline body e).inner := by
  obtain ⟨ws, hran⟩ := hbody (e.enter deadline)
  obtain ⟨-, hexpired, hclaims⟩ := hran.passed.leave
  refine ⟨ws, hran, hexpired, ?_⟩
  simp only [withTimeout, hclaims]

theorem Job.invoke_spec (hbody : Body.Sound job body) (call : StepCall) (e : Exec α) :
    ∃ ws, Ran job e ws (job.invoke call body e).exec ∧
      (job.invoke call body e).budget = job.budget call.timeout e.task.clock ∧
      (job.invoke call body e).outcome =
        if (job.invoke call body e).budget.any fun b => past (e.task.clock + b) ws &&
            givesIn (e.task.scopes.any (·.lapses ws)) (job.invoke call body e).inner then
          .error (.stepTimeout call.name ((job.invoke call body e).budget.getD 0))
        else (job.invoke call body e).inner := by
  unfold Job.invoke
  cases hbudget : job.budget call.timeout e.task.clock with
  | none =>
    obtain ⟨ws, hran⟩ := hbody e
    exact ⟨ws, hran, rfl, rfl⟩
  | some b =>
    obtain ⟨ws, hran, hexpired, hresult⟩ := withTimeout_spec hbody (e.task.clock + b) e
    refine ⟨ws, hran.leave, rfl, ?_⟩
    simp only [hexpired, hresult, refuse_claim, Option.any_some, Option.getD_some]
    congr 1
    cases (withTimeout (e.task.clock + b) body e).inner <;> rfl

def Settled.Sound (call : StepCall) (s : Settled α) (outcome : Except Fault α) : Prop :=
  Settlement call outcome s.raised s.checkpoint s.result

theorem Exec.waitFor_log (e : Exec α) (w : Option Wait) : (e.waitFor w).2.log = e.log := by
  cases w <;> rfl

theorem Exec.issue_spec (job : Job) (e : Exec α) (q : Stmt) :
    ∃ ws, Ran job e ws (e.issue q).2 ∧ (e.issue q).2.log = e.log ∧
      ∀ f, (e.issue q).1 = some f → f = .cancelled ∨ ∃ text, q.error = some text ∧
      f = .error text := by
  obtain ⟨ws, hran⟩ := Ran.waitFor job e q.wait
  refine ⟨ws, hran, Exec.waitFor_log e q.wait, fun f hf => ?_⟩
  simp only [Exec.issue] at hf
  split at hf
  · exact .inl (Option.some.inj hf).symm
  · obtain ⟨text, htext, rfl⟩ := Option.map_eq_some_iff.mp hf
    exact .inr ⟨text, htext, rfl⟩

theorem Exec.write_spec (job : Job) (e : Exec α) (q : Write) :
    ∃ ws, Ran job e ws (e.write q).exec ∧ (e.write q).exec.log = e.log ∧
      ((e.write q).fault = none → (e.write q).effect) ∧
      ∀ f, (e.write q).fault = some f →
        f = .cancelled ∨ f = .staleExecution ∨ ∃ text, q.error = some text ∧ f = .error text := by
  obtain ⟨ws, hran, hlog, hraised⟩ := Exec.issue_spec job e q.toStmt
  unfold Exec.write
  dsimp only
  split
  · refine ⟨ws, hran, hlog, fun hnone => ?_, fun f hf => ?_⟩
    · cases hfenced : q.fenced
      · rfl
      · simp [hfenced] at hnone
    · simp only at hf
      split at hf
      · exact .inr (.inl (Option.some.inj hf).symm)
      · cases hf
  · next f hf =>
    refine ⟨ws, hran, hlog, (by cases ·), fun g hg => ?_⟩
    obtain rfl := Option.some.inj hg
    exact (hraised f hf).imp_right .inr

namespace StepCall

theorem mem_errors {call : StepCall} {text : String} : text ∈ call.errors ↔
    call.record.error = some text ∨ call.recordError.error = some text ∨
      ∃ tx, call.inTransaction = some tx ∧ (tx.begin_.error = some text ∨
        tx.commit.error = some text ∨ tx.rollback.error = some text) := by
  cases htx : call.inTransaction <;> simp [errors, htx, List.mem_filterMap]

theorem fail_spec (job : Job) (call : StepCall) (e : Exec α) (raised : List Fault)
    (stands : Option α) (outcome : Except Fault α) {f : Fault}
    (hraises : ∀ g ∈ raised, call.Raises g)
    (hlast : raised.getLast?.elim outcome .error = .error f)
    (hstands : ∀ v, stands = some v → outcome = .ok v)
    (hcancelled : outcome = .error .cancelled → (∀ g ∈ raised, g.recorded = false) →
      f = .cancelled) :
    ∃ ws, Ran job e ws (call.fail e raised stands f).exec ∧
      (call.fail e raised stands f).exec.log = e.log ∧
      Settled.Sound call (call.fail e raised stands f) outcome := by
  have hown : raised ≠ [] → f ∈ raised := fun hne => by
    rw [List.getLast?_eq_some_getLast hne] at hlast
    exact Except.error.inj hlast ▸ List.getLast_mem hne
  have hbare : raised = [] → outcome = .error f ∧ stands = none := by
    rintro rfl
    refine ⟨hlast, Option.eq_none_iff_forall_ne_some.mpr fun v hv => ?_⟩
    cases (hstands v hv).symm.trans hlast
  have hend : Except.error f = outcome ∨ ∃ g ∈ raised, (Except.error f : Except Fault α) =
    .error g := by
    by_cases hnil : raised = []
    · exact .inl (hbare hnil).1.symm
    · exact .inr ⟨f, hown hnil, rfl⟩
  obtain ⟨ws, hran, hlog, heffect, hfault⟩ := Exec.write_spec job e call.recordError
  unfold fail
  dsimp only
  generalize e.write call.recordError = written at hran hlog heffect hfault ⊢
  split
  · next hf =>
    refine ⟨ws, hran, hlog, ?_⟩
    refine ⟨fun g hg => ?_, ?_, fun hnil => ?_, fun r hr => ?_, fun hnone => ?_,
      fun hout hall => ?_⟩
    · rcases List.mem_append.mp hg with hg | hg
      · exact hraises g hg
      · rcases hfault g (by simpa using hg) with rfl | rfl | ⟨text, htext, rfl⟩
        · exact .inl rfl
        · exact .inr (.inl rfl)
        · exact .inr (.inr ⟨text, mem_errors.mpr (.inr (.inl htext)), rfl⟩)
    · cases hwritten : written.fault with
      | none => simpa [hwritten] using hlast.symm
      | some g => simp
    · obtain ⟨hnil, hnone⟩ := List.append_eq_nil_iff.mp hnil
      obtain ⟨rfl, rfl⟩ := hbare hnil
      simp [heffect (by simpa using hnone), recordedEnd, hf]
    · cases stands with
      | some v =>
        obtain rfl := Option.some.inj hr
        exact ⟨rfl, .inl (hstands v rfl).symm⟩
      | none =>
        simp only at hr
        split at hr
        · obtain rfl := Option.some.inj hr
          exact ⟨hf, hend.imp_right fun ⟨g, hg, heq⟩ => ⟨g, List.mem_append_left _ hg, heq⟩⟩
        · cases hr
    · cases hwritten : written.fault with
      | none => cases stands <;> simp [heffect hwritten] at hnone
      | some g => exact ⟨g, by simp, fun _ => by simp⟩
    · have hraised : ∀ g ∈ raised, g.recorded = false := fun g hg =>
        hall g (List.mem_append_left _ hg)
      rw [hcancelled hout hraised] at hf
      cases hf
  · next hf =>
    refine ⟨[], Ran.refl job e, rfl, hraises, hlast.symm, fun hnil => ?_, fun r hr => ?_,
      fun _ => ⟨f, rfl, fun h => absurd h hf⟩, fun hout hall => by rw [hcancelled hout hall]⟩
    · obtain ⟨rfl, rfl⟩ := hbare hnil
      simp [recordedEnd, hf]
    · obtain ⟨v, hv, rfl⟩ := Option.map_eq_some_iff.mp hr
      exact ⟨rfl, .inl (hstands v hv).symm⟩

theorem rollBack_spec (job : Job) (call : StepCall) {tx : TxStmts}
    (htx : call.inTransaction = some tx) (e : Exec α) (raised : List Fault)
    (outcome : Except Fault α) {f : Fault} (hraises : ∀ g ∈ raised, call.Raises g)
    (hlast : raised.getLast?.elim outcome .error = .error f)
    (hcancelled : outcome = .error .cancelled → (∀ g ∈ raised, g.recorded = false) →
      f = .cancelled) :
    ∃ ws, Ran job e ws (call.rollBack tx e raised f).exec ∧
      (call.rollBack tx e raised f).exec.log = e.log ∧
      Settled.Sound call (call.rollBack tx e raised f) outcome := by
  obtain ⟨ws, hran, hlog, hfault⟩ := Exec.issue_spec job e tx.rollback
  unfold rollBack
  dsimp only
  split
  · obtain ⟨vs, hran', hlog', hsound⟩ :=
      call.fail_spec job (e.issue tx.rollback).2 raised none outcome hraises hlast
        (fun v hv => by cases hv) hcancelled
    exact ⟨_, hran.trans hran', hlog'.trans hlog, hsound⟩
  · next g hg =>
    have hg' : g = .cancelled ∨ ∃ text ∈ call.errors, g = .error text :=
      (hfault g hg).imp_right fun ⟨text, htext, heq⟩ =>
        ⟨text, mem_errors.mpr (.inr (.inr ⟨tx, htx, .inr (.inr htext)⟩)), heq⟩
    have hraises' : ∀ g' ∈ raised ++ [g], call.Raises g' := by
      intro g' hg₁
      rcases List.mem_append.mp hg₁ with hg₁ | hg₁
      · exact hraises g' hg₁
      · exact List.mem_singleton.mp hg₁ ▸ hg'.imp_right .inr
    have hcancelled' : outcome = .error .cancelled → (∀ g' ∈ raised ++ [g], g'.recorded = false) →
        g = .cancelled := by
      intro _ hall
      rcases hg' with rfl | ⟨text, -, rfl⟩
      · rfl
      · cases hall _ (List.mem_append_right _ (List.mem_singleton.mpr rfl))
    obtain ⟨vs, hran', hlog', hsound⟩ := call.fail_spec job (e.issue tx.rollback).2 (raised ++ [g])
      none outcome hraises' (by simp) (fun v hv => by cases hv) hcancelled'
    exact ⟨_, hran.trans hran', hlog'.trans hlog, hsound⟩

theorem settle_spec (job : Job) (call : StepCall) (e : Exec α) (outcome : Except Fault α) :
    ∃ ws, Ran job e ws (call.settle e outcome).exec ∧ (call.settle e outcome).exec.log = e.log ∧
      Settled.Sound call (call.settle e outcome) outcome := by
  obtain ⟨ws, hran, hlog, heffect, hfault⟩ := Exec.write_spec job e call.record
  have hraises : ∀ g, (e.write call.record).fault = some g → call.Raises g := fun g hg =>
    (hfault g hg).imp_right (Or.imp_right fun ⟨text, htext, heq⟩ =>
      ⟨text, mem_errors.mpr (.inl htext), heq⟩)
  unfold settle
  dsimp only
  generalize e.write call.record = written at hran hlog heffect hraises ⊢
  split
  · -- `step()`: its function failed
    exact call.fail_spec job e [] none _ (fun g hg => absurd hg List.not_mem_nil) rfl
      (fun v hv => by cases hv) fun hout _ => Except.error.inj hout
  · -- `step()`: its function returned, and the checkpoint is written outside the `try`
    refine ⟨ws, hran, hlog, fun g hg => hraises g (by simpa using hg), ?_, fun hnil => ?_,
      fun r hr => ?_, fun hnone => ?_, fun hout => by cases hout⟩
    · cases written.fault <;> simp
    · simp [heffect (by simpa using hnil), recordedEnd]
    · simp only at hr
      split at hr
      · exact Option.some.inj hr ▸ ⟨rfl, .inl rfl⟩
      · cases hr
    · cases hwritten : written.fault with
      | none => simp [heffect hwritten] at hnone
      | some g => exact ⟨g, by simp, fun _ => by simp⟩
  · next tx f htx =>
    exact call.rollBack_spec job htx e [] _ (fun g hg => absurd hg List.not_mem_nil) rfl
      fun hout _ => Except.error.inj hout
  · next tx v htx =>
    split
    · next f hf =>
      obtain ⟨vs, hran', hlog', hsound⟩ := call.rollBack_spec job htx written.exec
        [f] (.ok v) (by simpa using hraises f hf) rfl fun hout => by cases hout
      exact ⟨_, hran.trans hran', hlog'.trans hlog, hsound⟩
    · obtain ⟨vs, hclose, hclog, hcfault⟩ := Exec.issue_spec job written.exec tx.commit
      generalize written.exec.issue tx.commit = closed at hclose hclog hcfault ⊢
      split
      · refine ⟨_, hran.trans hclose, hclog.trans hlog, ?_⟩
        exact ⟨fun g hg => absurd hg List.not_mem_nil, rfl, fun _ => rfl,
          fun r hr => Option.some.inj hr ▸ ⟨rfl, .inl rfl⟩, (by cases ·), (by cases ·)⟩
      · next f hf =>
        have hcommit : call.Raises f := (hcfault f hf).imp_right fun ⟨text, htext, heq⟩ =>
          .inr ⟨text, mem_errors.mpr (.inr (.inr ⟨tx, htx, .inr (.inl htext)⟩)), heq⟩
        obtain ⟨us, hran', hlog', hsound⟩ := call.fail_spec job closed.2 [f]
          (if tx.commit.effect then some v else none) (.ok v)
          (by simpa using hcommit) rfl (fun u hu => by split at hu <;> cases hu; rfl)
          fun hout => by cases hout
        exact ⟨_, (hran.trans hclose).trans hran', (hlog'.trans hclog).trans hlog, hsound⟩

theorem begin_spec (job : Job) (call : StepCall) (e : Exec α) :
    ∃ ws, Ran job e ws (call.begin_ e).2 ∧ ∀ f, (call.begin_ e).1 = some f → call.Raises f := by
  unfold begin_
  split
  · exact ⟨[], Ran.refl job e, fun f hf => by cases hf⟩
  · next tx htx =>
    obtain ⟨ws, hran, -, hfault⟩ := Exec.issue_spec job e tx.begin_
    refine ⟨ws, hran, fun f hf => (hfault f hf).imp_right fun ⟨text, htext, heq⟩ => .inr ?_⟩
    exact ⟨text, mem_errors.mpr (.inr (.inr ⟨tx, htx, .inl htext⟩)), heq⟩

end StepCall

theorem Job.step_sound (hbody : Body.Sound job body) (call : StepCall) :
    Body.Sound job (job.step call body) := by
  intro e
  obtain ⟨us, hbegin, hfault⟩ := call.begin_spec job e
  unfold Job.step
  dsimp only
  generalize call.begin_ e = begun at hbegin hfault ⊢
  split
  · next f hf =>
    obtain ⟨vs, hran, hlog, hsound⟩ := call.fail_spec job begun.2 [f] (none : Option α)
      (.error f) (by simpa using hfault f hf) rfl (fun v hv => by cases hv)
      fun hout _ => Except.error.inj hout
    refine ⟨_, hbegin.trans ⟨hran.passed, [_], congrArg (· ++ [_]) hlog, fun τ hτ => ?_⟩⟩
    obtain rfl := List.mem_singleton.mp hτ
    refine ⟨le_rfl, ⟨[], [], by simp, nofun⟩, hsound, fun r hr => (by cases hr),
      fun _ => ⟨rfl, f, ?_, rfl⟩⟩
    simp only [StepCall.fail]
    split <;> simp
  · obtain ⟨ws, hran, hbudget, houtcome⟩ := Job.invoke_spec hbody call begun.2
    obtain ⟨vs, hsettle, hslog, hsound⟩ :=
      call.settle_spec job (job.invoke call body begun.2).exec
        (job.invoke call body begun.2).outcome
    refine ⟨_, hbegin.trans ⟨(hran.trans hsettle).passed, ?_⟩⟩
    obtain ⟨traces, hlog, htraces⟩ := hran.log
    refine ⟨traces ++ [_], by simp only [Exec.trace, hslog, hlog, List.append_assoc]; rfl,
      fun τ hτ => ?_⟩
    rcases List.mem_append.mp hτ with hτ | hτ
    · exact htraces τ hτ
    · obtain rfl := List.mem_singleton.mp hτ
      refine ⟨le_rfl, ⟨[], [], by simp, nofun⟩, hsound, fun r hr => ⟨hbudget, ?_⟩,
        fun hnone => (by cases hnone)⟩
      obtain rfl := Option.some.inj hr
      simpa only [StepTrace.overran, StepTrace.interrupted, hran.passed.wakes,
        List.drop_left] using houtcome

/-- By induction on the code. -/
theorem Code.run_sound (job : Job) (code : Code α) : Body.Sound job (code.run job) := by
  induction code with
  | done r => exact fun e => ⟨_, Ran.refl job e⟩
  | block takes next ih =>
    intro e
    obtain ⟨ws, hran⟩ := ih (e.block takes)
    exact ⟨_, (Ran.block job e takes).trans hran⟩
  | suspend w k ih =>
    intro e
    obtain ⟨ws, hran⟩ := ih (e.wait w).1 (e.wait w).2
    exact ⟨_, (Ran.wait job e w).trans hran⟩
  | timeout delay body k ihbody ihk =>
    intro e
    obtain ⟨ws, hran, -, -⟩ := withTimeout_spec ihbody (e.task.clock + delay) e
    obtain ⟨vs, hnext⟩ := ihk _ _ (withTimeout (e.task.clock + delay) (body.run job) e).exec
    exact ⟨_, hran.leave.trans hnext⟩
  | step call body k ihbody ihk =>
    intro e
    obtain ⟨ws, hran⟩ := Job.step_sound ihbody call e
    obtain ⟨vs, hnext⟩ := ihk _ (job.step call (body.run job) e).2
    exact ⟨_, hran.trans hnext⟩

end Spec

namespace Attempt

variable (a : Attempt α)

def overran : Bool := a.deadline.any fun d => past d a.execute.wakes

/-- Somebody else cancelled the task while it executed. -/
def interrupted : Bool := a.requests.any fun r => past r.at_ a.execute.wakes

def enclosed : Task :=
  match a.deadline with
  | none => (a.created.wait a.startup).2.task
  | some d => (a.created.wait a.startup).2.task.enter d

/-- What `_execute` comes to, once the wait for the task to start has ended in `start`. -/
structure Ended (start : Wake) : Prop where
  ran : Ran a.job a.created (start :: a.execute.wakes) a.execute.exec
  traces : ∀ τ ∈ a.execute.exec.log, τ.Under a.enclosed ∧ τ.Exact a.job
  result : a.execute.result =
    if a.overran && givesIn a.interrupted a.execute.inner then
      .error (.jobTimeout (a.jobTimeout.getD 0))
    else a.execute.inner.mapError .fault
  apart : a.execute.wakes ≠ [] → ∀ r ∈ a.requests, past r.at_ [start] = false
  told : ∀ d, a.deadline = some d → ∀ w, a.execute.wakes.find? (d ≤ ·.at_) = some w → w.cancelled

variable {a}

theorem deadline_eq_some {d : Int} :
    a.deadline = some d ↔ ∃ limit, a.jobTimeout = some limit ∧ limit ≠ 0 ∧ a.clock + limit = d := by
  unfold deadline
  cases a.jobTimeout with
  | none => simp
  | some limit => by_cases h : limit = 0 <;> simp [h]

theorem scopes_interrupted {start : Wake}
    (h : ∀ r ∈ a.requests, past r.at_ [start] = false) (ws : List Wake) :
    (a.created.task.scopes.map (·.after [start])).any (·.lapses ws) =
      a.requests.any fun r => past r.at_ ws := by
  simp only [created, List.map_map, List.any_map]
  rw [Bool.eq_iff_iff, List.any_eq_true, List.any_eq_true]
  refine exists_congr fun r => and_congr_right fun hr => ?_
  have hstart := h r hr
  simp only [past_singleton] at hstart
  simp [Scope.lapses, Scope.after, hstart]

theorem ended : ∃ start, a.Ended start := by
  have hstart := Ran.wait a.job a.created a.startup
  refine ⟨⟨a.created.task.notices a.startup, (a.created.wait a.startup).1⟩, ?_⟩
  set start : Wake := ⟨a.created.task.notices a.startup, (a.created.wait a.startup).1⟩
  cases hc : (a.created.wait a.startup).1 with
  | true =>
    have hexecute : a.execute = ⟨[], .error .cancelled, .error (.fault .cancelled),
        (a.created.wait a.startup).2⟩ := by
      simp [execute, hc]
    have hoverran : a.overran = false := by
      unfold overran
      rw [hexecute]
      cases a.deadline <;> rfl
    refine ⟨?_, ?_, ?_, ?_, ?_⟩
    · rw [hexecute]
      exact hstart
    · rw [hexecute]
      exact fun τ hτ => absurd hτ List.not_mem_nil
    · rw [hoverran, hexecute]
      rfl
    · rw [hexecute]
      exact fun h => absurd rfl h
    · rw [hexecute]
      exact fun _ _ _ hw => nomatch hw
  | false =>
    have hapart : ∀ r ∈ a.requests, past r.at_ [start] = false := by
      intro r hr
      have hnone : a.created.task.scopes.any (·.due start.at_) = false := hc
      have hr' := List.any_eq_false.mp hnone ⟨r.at_, 0, false⟩ (List.mem_map.mpr ⟨r, hr, rfl⟩)
      simpa [Scope.due] using hr'
    have hscopes := hstart.passed.scopes
    cases hdeadline : a.deadline with
    | none =>
      obtain ⟨ws, hran⟩ := a.code.run_sound a.job (a.created.wait a.startup).2
      have hexecute : a.execute = ⟨ws, (a.code.run a.job (a.created.wait a.startup).2).1,
          (a.code.run a.job (a.created.wait a.startup).2).1.mapError .fault,
          (a.code.run a.job (a.created.wait a.startup).2).2⟩ := by
        simp [execute, hc, hdeadline, hran.passed.wakes]
      refine ⟨?_, ?_, ?_, fun _ => hapart, ?_⟩
      · rw [hexecute]
        exact hstart.trans hran
      · obtain ⟨traces, heq, htraces⟩ := hran.log
        rw [hexecute]
        intro τ hτ
        rw [heq] at hτ
        simp only [enclosed, hdeadline]
        exact (htraces τ hτ).2
      · simp [overran, hdeadline, hexecute]
      · simp [hdeadline]
    | some d =>
      obtain ⟨limit, hlimit, -, -⟩ := deadline_eq_some.mp hdeadline
      obtain ⟨ws, hran, hexpired, hresult⟩ :=
        withTimeout_spec (a.code.run_sound a.job) d (a.created.wait a.startup).2
      set bounded := withTimeout d (a.code.run a.job) (a.created.wait a.startup).2
      have hleft : Ran a.job (a.created.wait a.startup).2 ws bounded.exec := hran.leave
      have hexecute : a.execute = ⟨ws, bounded.inner,
          refuse bounded.expired (.jobTimeout limit) .fault bounded.result, bounded.exec⟩ := by
        have hdrop : bounded.exec.task.wakes.drop (a.created.wait a.startup).2.task.wakes.length =
            ws := by
          rw [hleft.passed.wakes, List.drop_left]
        simpa [execute, hc, hdeadline, hlimit, bounded] using hdrop
      refine ⟨?_, ?_, ?_, fun _ => hapart, ?_⟩
      · rw [hexecute]
        exact hstart.trans hleft
      · obtain ⟨traces, heq, htraces⟩ := hran.log
        rw [hexecute]
        intro τ hτ
        simp only [enclosed, hdeadline]
        change τ ∈ (a.code.run a.job ((a.created.wait a.startup).2.enter d)).2.log at hτ
        rw [heq] at hτ
        exact (htraces τ hτ).2
      · rw [hexpired, hresult] at hexecute
        have hinterrupted := scopes_interrupted hapart ws
        rw [← hscopes] at hinterrupted
        simp only [overran, interrupted, hdeadline, hexecute, Option.any_some, hlimit,
          Option.getD_some, refuse_claim, hinterrupted]
      · rw [hexecute]
        rintro d' hd' w hw
        obtain rfl := Option.some.inj (hdeadline.symm.trans hd')
        exact hran.passed.told ⟨d, _, false⟩ List.mem_cons_self rfl w hw

end Attempt

namespace Verdict

variable {ordered : Bool} {r : Except Fault α}

end Verdict

/-- A step that began before the deadline of its job is interrupted by it. -/
theorem StepTrace.Under.interrupted {a : Attempt α} {τ : StepTrace α} (h : τ.Under a.enclosed)
    {d : Int} (hd : a.deadline = some d) (hbegan : τ.began < d) (hpast : past d τ.wakes) :
    τ.interrupted := by
  obtain ⟨before, inner, henclosing, hbefore⟩ := h
  have harmed : past d before = false := by
    refine List.any_eq_false.mpr fun w hw => ?_
    have := hbefore w hw
    simp only [decide_eq_true_eq]
    omega
  simp only [Attempt.enclosed, hd, Task.enter, List.map_cons] at henclosing
  refine List.any_eq_true.mpr ⟨_, henclosing ▸ List.mem_append_right inner List.mem_cons_self, ?_⟩
  simp [Scope.lapses, Scope.after, harmed, hpast]

end Pyjobby.Deadlines
