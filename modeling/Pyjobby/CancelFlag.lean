import Pyjobby.Dependents
import Pyjobby.Fleet

/-! A cancel is not forgotten. Every statement that puts an attempt's row back
into the queue leaves the flag as it is, and every later attempt reads it between
its claim and the job's code. -/

namespace Pyjobby

open Relational Transition

/-- What `cancel_job` answers. -/
inductive CancelReply where
  | cancelled
  | cancelRequested
  deriving DecidableEq

/-- `cancel_job`: the statement, and the state it returned. -/
def Db.cancelJob (db : Db) (now : Int) (jid : Nat) : Db × Option CancelReply :=
  let u := (SupervisorStmt.cancel [jid]).update now
  (u.run db,
    ((db.jorb.find? jid).filter (u.cond db)).map fun r =>
      if (u.set.set r).state = .cancelled then .cancelled else .cancelRequested)

def Db.Flagged (db : Db) (jid : Nat) : Prop := ∀ r ∈ db.jorb, r.id = jid → r.cancelRequested

theorem Jorb.inFlight_of_live {r : Jorb} (h : r.live) (hpre : r.preClaim = false) : r.inFlight := by
  cases hs : r.state <;>
    simp_all [Jorb.live, Jorb.preClaim, Jorb.inFlight, JorbState.liveStates, JorbState.jobStates,
      JorbState.terminalStates, JorbState.preClaimStates, JorbState.inFlightStates]

theorem Db.cancelJob_requested {db : Db} {now : Int} {jid : Nat}
    (h : (db.cancelJob now jid).2 = some .cancelRequested) :
    ∃ r ∈ (db.cancelJob now jid).1.jorb, r.id = jid ∧ r.cancelRequested := by
  obtain ⟨r, hr, hreply⟩ := Option.map_eq_some_iff.mp h
  obtain ⟨hfind, hc⟩ := Option.filter_eq_some_iff.mp hr
  obtain ⟨hmem, hid⟩ := Serial.find?_eq_some.mp hfind
  have hlive : r.live := by
    simp only [SupervisorStmt.update, SupervisorStmt.cond, Bool.and_eq_true] at hc
    exact hc.2
  have hpre : r.preClaim = false := by
    by_contra hpre
    simp [SupervisorStmt.update, SupervisorStmt.set, hpre] at hreply
  refine ⟨_, Serial.mem_update.mpr ⟨r, hmem, rfl⟩, ?_⟩
  rw [if_pos hc]
  exact ⟨hid, by simp [SupervisorStmt.update, SupervisorStmt.set, Jorb.inFlight_of_live hlive hpre]⟩

theorem WorkerStmt.set_cancelRequested (now : Int) (s : WorkerStmt) (r : Jorb) :
    (s.set now r).cancelRequested = r.cancelRequested := by
  cases s <;> rfl

theorem Updates.cancelRequested {w : World} {a : Act} {u : Update} (h : Updates w a u) {r : Jorb}
    (hc : u.cond w.db r) (hr : r.cancelRequested) :
    (u.set.set r).cancelRequested ∨
      ∃ batch allowed, Requeues a batch allowed ∧ r.id ∈ batch ∧ r.state ∈ allowed := by
  cases h with
  | supervise s =>
    cases s with
    | requeue batch allowed delay resetErrors =>
      refine .inr ⟨batch, allowed, .requeue batch allowed delay resetErrors, ?_⟩
      simpa [SupervisorStmt.update, SupervisorStmt.cond] using hc
    | cancel batch => exact .inl (by simp [SupervisorStmt.update, SupervisorStmt.set, hr])
    | _ => exact .inl hr
  | rerunFresh jid allowed delay resetErrors =>
    refine .inr ⟨[jid], allowed, .rerunFresh jid allowed delay resetErrors, ?_⟩
    simpa [SupervisorStmt.update, SupervisorStmt.cond] using hc
  | worker exec s => exact .inl ((s.set_cancelRequested w.clock r).trans hr)
  | wakeSelf | wakeGroup => exact .inl hr

namespace World

variable {w w' : World}

theorem step_cancelRequested {a : Act} (h : w.step a = some w') {r' : Jorb}
    (hr' : r' ∈ w'.db.jorb) :
    w.db.jorb.next ≤ r'.id ∨ ∃ r ∈ w.db.jorb, r.id = r'.id ∧ (r.cancelRequested →
      r'.cancelRequested ∨
        ∃ batch allowed, Requeues a batch allowed ∧ r.id ∈ batch ∧ r.state ∈ allowed) := by
  have kept (hmem : r' ∈ w.db.jorb) : ∃ r ∈ w.db.jorb, r.id = r'.id ∧ (r.cancelRequested →
      r'.cancelRequested ∨
        ∃ batch allowed, Requeues a batch allowed ∧ r.id ∈ batch ∧ r.state ∈ allowed) :=
    ⟨r', hmem, rfl, .inl⟩
  cases step_effect h with
  | quiet db clock queue jorb => exact .inr (kept (jorb ▸ hr'))
  | close session jorb => exact .inr (kept (jorb ▸ hr'))
  | opens => exact .inr (kept hr')
  | delete => exact .inr (kept (Serial.mem_delete.mp hr').1)
  | insert j =>
    rcases (Serial.mem_insert (h := fun _ => rfl)).mp hr' with hr' | rfl
    · exact .inr (kept hr')
    · exact .inl le_rfl
  | update db wakes u jorb free source =>
    obtain ⟨r, hr, rfl⟩ := Serial.mem_update.mp (jorb ▸ hr')
    refine .inr ⟨r, hr, ?_⟩
    split
    · exact ⟨(u.set.key_set r).symm, source.cancelRequested ‹_›⟩
    · exact ⟨rfl, .inl⟩
  | @commit _ jid c _ _ _ _ _ _ _ _ jorb =>
    obtain ⟨r, hr, rfl⟩ := Serial.mem_update.mp (jorb ▸ hr')
    refine .inr ⟨r, hr, ?_⟩
    split
    · exact ⟨((c.args.claimed c.now).key_set r).symm, .inl⟩
    · exact ⟨rfl, .inl⟩

theorem issued_cancelRequested {e : Jorb} (h : Issued w e w') {r' : Jorb}
    (hr' : r' ∈ w'.db.jorb) :
    ∃ r ∈ w.db.jorb, r.id = r'.id ∧ r'.cancelRequested = r.cancelRequested := by
  cases h with
  | data db jorb => exact ⟨r', jorb ▸ hr', rfl, rfl⟩
  | worker s h =>
    obtain ⟨wakes, rfl⟩ := worker_eq h
    obtain ⟨r, hr, rfl⟩ := Serial.mem_update.mp hr'
    refine ⟨r, hr, ?_⟩
    split
    · exact ⟨((s.update w.clock e.id e.runEpoch).set.key_set r).symm,
        s.set_cancelRequested w.clock r⟩
    · exact ⟨rfl, rfl⟩

end World

namespace Execution

variable {κ : Type}

def unstarted (a : Execution κ) : Bool :=
  match a.phase with
  | .claimed | .bound | .raised | .gone => true
  | _ => false

theorem start_unstarted {a a' : Execution κ} {prog : Program κ} {w w' : World}
    {timeout : Option Int} {ack : Bool} (hflag : w.db.Flagged a.row.id) (ha : a.unstarted)
    (h : a.start prog w timeout ack = some (w', a')) : a'.unstarted := by
  obtain ⟨w₁, -, h⟩ := Option.map_eq_some_iff.mp h
  cases h
  cases ack with
  | false => exact ha
  | true =>
    simp only [if_true]
    split
    · rfl
    · rename_i happlies
      have happlies : w.applies a.row (.run timeout) := by simpa using happlies
      obtain ⟨r, hr, hc⟩ := List.any_eq_true.mp happlies
      have hid : r.id = a.row.id := (Jorb.attemptOf_iff.mp hc).1
      have hreq : w.cancelRequested a.row := by
        simp only [World.cancelRequested, ← hid, Serial.find?_self hr, Option.any_some]
        exact hflag r hr hid
      simp [hreq, unstarted, raise]

theorem move_unstarted {a a' : Execution κ} {prog : Program κ} {w w' : World} {m : Move}
    {entries : List Entry} (hflag : w.db.Flagged a.row.id) (ha : a.unstarted)
    (h : a.move prog w m = some (w', a', entries)) : a'.unstarted := by
  cases m with
  | load =>
    simp only [move] at h
    split at h
    · cases h
      simp only [load]
      split <;> rfl
    · cases h
  | start timeout ack =>
    simp only [move] at h
    split at h
    · obtain ⟨⟨w₁, a₁⟩, hstart, h⟩ := Option.map_eq_some_iff.mp h
      cases h
      exact start_unstarted hflag ha hstart
    · cases h
  | raise =>
    simp only [move] at h
    split at h
    · cases h
    · cases h
      rfl
  | settle s ack =>
    simp only [move] at h
    split at h
    · split at h
      · obtain ⟨⟨w₁, a₁⟩, hissue, h⟩ := Option.map_eq_some_iff.mp h
        cases h
        obtain ⟨w₂, -, h⟩ := Option.map_eq_some_iff.mp hissue
        cases h
        cases ack
        · exact ha
        · rfl
      · cases h
    · cases h
  | crash =>
    cases h
    rfl
  | _ =>
    exfalso
    revert h
    cases hp : a.phase <;> simp [unstarted, hp] at ha <;>
      simp [move, record, commit, recv, publish, compactFence, compact, hp]

end Execution

/-- The cancel of a job stands: its row carries the flag, and no execution from
the `since`-th claim on has entered the job's code. -/
structure CancelStands {κ : Type} (jid since : Nat) (s : Sys κ) : Prop where
  known : jid < s.world.db.jorb.next
  flagged : s.world.db.Flagged jid
  unstarted : ∀ i a, since ≤ i → s.attempts[i]? = some a → a.row.id = jid → a.unstarted

def Sys.RequeuedBy {κ : Type} (s : Sys κ) (jid : Nat) (ev : Event) (allowed : List JorbState) :
    Prop :=
  ∃ a batch, ev = .env a ∧ Requeues a batch allowed ∧ jid ∈ batch ∧
    ∃ r ∈ s.world.db.jorb, r.id = jid ∧ r.cancelRequested ∧ r.state ∈ allowed

namespace CancelStands

variable {κ : Type} {prog : Jorb → Program κ} {s s' : Sys κ} {jid since : Nat}

theorem env (h : CancelStands jid since s) {a : Act} (hstep : s.advance prog (.env a) = some s') :
    CancelStands jid since s' ∨ ∃ allowed, s.RequeuedBy jid (.env a) allowed := by
  obtain ⟨hw, hattempts⟩ := Sys.advance_env hstep
  by_cases hreq : ∃ allowed, s.RequeuedBy jid (.env a) allowed
  · exact .inr hreq
  · refine .inl ⟨h.known.trans_le (World.step_effect hw).next_le, fun r' hr' hid => ?_,
      fun i b hi hb hid => ?_⟩
    · rcases World.step_cancelRequested hw hr' with hborn | ⟨r, hr, hrid, hkeep⟩
      · have := h.known
        omega
      · have hset := h.flagged r hr (hrid.trans hid)
        rcases hkeep hset with hkept | ⟨batch, allowed, ha, hbatch, hstate⟩
        · exact hkept
        · have hjid : r.id = jid := hrid.trans hid
          exact absurd ⟨allowed, a, batch, rfl, ha, hjid ▸ hbatch, r, hr, hjid, hset, hstate⟩ hreq
    · rw [hattempts] at hb
      rcases Nat.lt_or_ge i s.attempts.length with hlt | hge
      · rw [List.getElem?_append_left hlt] at hb
        exact h.unstarted i b hi hb hid
      · rw [List.getElem?_append_right hge, List.getElem?_map] at hb
        obtain ⟨e, -, rfl⟩ := Option.map_eq_some_iff.mp hb
        rfl

theorem attempt (h : CancelStands jid since s) {i : Nat} {m : Move}
    (hstep : s.advance prog (.attempt i m) = some s') : CancelStands jid since s' := by
  obtain ⟨a, a', entries, ha, hm, hattempts⟩ := Sys.advance_attempt hstep
  have hmoves := Execution.move_moves hm
  refine ⟨?_, fun r' hr' hid => ?_, fun j b hj hb hid => ?_⟩
  · rw [hmoves.issued.next]
    exact h.known
  · obtain ⟨r, hr, hrid, heq⟩ := World.issued_cancelRequested hmoves.issued hr'
    exact heq.trans (h.flagged r hr (hrid.trans hid))
  · rw [hattempts, List.getElem?_set] at hb
    split at hb
    · rename_i hij
      split at hb
      · cases hb
        have haid : a.row.id = jid := hmoves.row ▸ hid
        exact Execution.move_unstarted (haid ▸ h.flagged)
          (h.unstarted i a (hij ▸ hj) ha haid) hm
      · cases hb
    · exact h.unstarted j b hj hb hid

theorem step (h : CancelStands jid since s) {ev : Event} (hstep : s.advance prog ev = some s') :
    CancelStands jid since s' ∨ ∃ allowed, s.RequeuedBy jid ev allowed := by
  cases ev with
  | env a => exact h.env hstep
  | attempt i m => exact .inl (h.attempt hstep)

end CancelStands

namespace FleetRun

variable {κ : Type} {prog : Jorb → Program κ} (ρ : FleetRun prog)

/-- Operators requeue through the retry and rerun verbs, which name terminal states. -/
def Verbs : Prop :=
  ∀ n < ρ.length, ∀ a batch allowed, ρ.act n = .env a → Requeues a batch allowed →
    allowed ⊆ JorbState.rerunnableStates

/-- Step `k` requeues the job, whose row is terminal and carries the flag. -/
def Cleared (k jid : Nat) : Prop :=
  ∃ a batch allowed, ρ.act k = .env a ∧ Requeues a batch allowed ∧ jid ∈ batch ∧
    ∃ r ∈ (ρ.state k).world.db.jorb, r.id = jid ∧ r.cancelRequested ∧
      r.state ∈ JorbState.terminalStates

variable {ρ}

theorem Verbs.cleared (hρ : ρ.Verbs) {k : Nat} (hk : k < ρ.length) {jid : Nat}
    {allowed : List JorbState} (h : (ρ.state k).RequeuedBy jid (ρ.act k) allowed) :
    ρ.Cleared k jid := by
  obtain ⟨a, batch, hact, hreq, hbatch, r, hr, hid, hset, hstate⟩ := h
  refine ⟨a, batch, allowed, hact, hreq, hbatch, r, hr, hid, hset, ?_⟩
  have hterminal : ∀ t ∈ JorbState.rerunnableStates, t ∈ JorbState.terminalStates := by decide
  exact hterminal _ (hρ k hk a batch allowed hact hreq hstate)

theorem cancelStands_of_reply {n : Nat} (hn : n < ρ.length) {jid : Nat}
    (hact : ρ.act n = .env (.supervise (.cancel [jid])))
    (hreply : ((ρ.state n).world.db.cancelJob (ρ.state n).world.clock jid).2 =
      some .cancelRequested) :
    CancelStands jid (ρ.state n).attempts.length (ρ.state (n + 1)) := by
  have hnext := ρ.next n hn
  rw [hact] at hnext
  obtain ⟨hw, hattempts⟩ := Sys.advance_env hnext
  obtain ⟨-, hdb⟩ := World.update_eq_some.mp hw
  obtain ⟨r, hr, hid, hset⟩ := Db.cancelJob_requested hreply
  have hrow : r ∈ (ρ.state (n + 1)).world.db.jorb := hdb ▸ hr
  have hexecs : (ρ.state (n + 1)).world.execs = (ρ.state n).world.execs := hdb ▸ rfl
  refine ⟨hid ▸ Serial.lt_next hrow, fun r' hr' hid' => ?_, fun i a hi ha _ => ?_⟩
  · exact Serial.eq_of_ident hrow hr' (hid.trans hid'.symm) ▸ hset
  · rw [hattempts, hexecs] at ha
    simp only [List.drop_length, List.map_nil, List.append_nil] at ha
    obtain ⟨hlt, -⟩ := List.getElem?_eq_some_iff.mp ha
    omega

/-- Once `cancel_job` has answered `cancel_requested`, and until an operator
requeues the terminal row, the row carries the flag and no execution claimed
since enters the job's code; nothing but such a requeue takes a flag away. -/
theorem cancel_never_forgotten (ρ : FleetRun prog) (hρ : ρ.Verbs) :
    (∀ n < ρ.length, ∀ jid, ∀ r ∈ (ρ.state n).world.db.jorb, r.id = jid → r.cancelRequested →
      ∀ r' ∈ (ρ.state (n + 1)).world.db.jorb, r'.id = jid → r'.cancelRequested = false →
        ρ.Cleared n jid) ∧
    (∀ n < ρ.length, ∀ jid, ρ.act n = .env (.supervise (.cancel [jid])) →
      ((ρ.state n).world.db.cancelJob (ρ.state n).world.clock jid).2 = some .cancelRequested →
      ∀ m, n < m → m ≤ ρ.length →
        (∃ k, n < k ∧ k < m ∧ ρ.Cleared k jid) ∨
          (ρ.state m).world.db.Flagged jid ∧
            ∀ i a, (ρ.state n).attempts.length ≤ i → (ρ.state m).attempts[i]? = some a →
              a.row.id = jid → a.unstarted) := by
  refine ⟨fun n hn jid r hr hid hset r' hr' hid' hclear => ?_,
    fun n hn jid hact hreply m hnm => ?_⟩
  · -- the flag alone stands, whatever executions there are
    have hstands : CancelStands jid ((ρ.state n).attempts.length) (ρ.state n) :=
      ⟨hid ▸ Serial.lt_next hr,
        fun s hs hsid => Serial.eq_of_ident hr hs (hid.trans hsid.symm) ▸ hset,
        fun i a hi ha _ => by
          obtain ⟨hlt, -⟩ := List.getElem?_eq_some_iff.mp ha
          omega⟩
    rcases hstands.step (ρ.next n hn) with hkept | ⟨allowed, hreq⟩
    · simp [hkept.flagged r' hr' hid'] at hclear
    · exact hρ.cleared hn hreq
  · suffices h : m ≤ ρ.length → (∃ k, n < k ∧ k < m ∧ ρ.Cleared k jid) ∨
        CancelStands jid (ρ.state n).attempts.length (ρ.state m) by
      exact fun hm => (h hm).imp_right fun hs => ⟨hs.flagged, hs.unstarted⟩
    induction hnm with
    | refl => exact fun _ => .inr (cancelStands_of_reply hn hact hreply)
    | @step m hnm ih =>
      intro hm
      rcases ih (Nat.le_of_succ_le hm) with ⟨k, hk, hkm, hcleared⟩ | hs
      · exact .inl ⟨k, hk, Nat.lt_succ_of_lt hkm, hcleared⟩
      · rcases hs.step (ρ.next m hm) with hkept | ⟨allowed, hreq⟩
        · exact .inr hkept
        · exact .inl ⟨m, hnm, Nat.lt_succ_self m, hρ.cleared hm hreq⟩

/-- The cancel meets a claim whose worker dies; the sweep requeues the job, and the
next execution reads the flag. -/
def cancelledActs : List Act :=
  [.enqueue (.plain "q")] ++ Act.claim 0 (.plain "q") ++
    [.supervise (.cancel [1]), .tick 10, .supervise (.sweepStuckClaims [1] 5)] ++
    Act.claim 0 (.plain "q")

def cancelledRun : FleetRun fun _ => emptyProgram :=
  .ofList (.init .empty 0 fun _ => none)
    (cancelledActs.map .env ++ [.attempt 1 .load, .attempt 1 (.start none true)]) (by decide)

theorem cancelledRun_requeues {n : Nat} (hn : n < 12) {a : Act} {batch : List Nat}
    {allowed : List JorbState} (hact : cancelledRun.act n = .env a) :
    ¬Requeues a batch allowed := by
  intro hreq
  have hnone : ∀ n < 12, ∀ a ∈ (match cancelledRun.act n with | .env a => some a | _ => none),
      (match a with | .supervise (.requeue ..) | .rerunFresh .. => true | _ => false) = false := by
    decide
  have := hnone n hn a (by simp [hact])
  cases hreq <;> cases this

theorem cancel_never_forgotten_stuck :
    (cancelledRun.state 12).world.db.Flagged 1 ∧
      ∀ a, (cancelledRun.state 12).attempts[1]? = some a → a.unstarted := by
  have hverbs : cancelledRun.Verbs := fun n hn a batch allowed hact hreq =>
    absurd hreq (cancelledRun_requeues hn hact)
  rcases (cancel_never_forgotten cancelledRun hverbs).2 4 (by decide) 1 rfl (by decide) 12
    (by decide) le_rfl with ⟨k, -, hk, a, batch, allowed, hact, hreq, -⟩ | ⟨hflag, hunstarted⟩
  · exact absurd hreq (cancelledRun_requeues hk hact)
  · have hid : ∀ a ∈ (cancelledRun.state 12).attempts[1]?, a.row.id = 1 := by decide
    exact ⟨hflag, fun a ha => hunstarted 1 a (by decide) ha (hid a ha)⟩

end FleetRun

end Pyjobby
