import Pyjobby.Concurrency
import Pyjobby.Fleet

/-! Whose attempt a row in flight is. The columns of a claim stand until the row
leaves the attempt, and nobody but its execution makes the row `running`. -/

namespace Pyjobby

open Relational Transition

variable {w w' : World} {a : Act} {u : Update}

theorem Updates.claimedBy (h : Updates w a u) (r : Jorb) :
    (u.set.set r).claimedBy = r.claimedBy := by
  cases h with
  | supervise s => cases s <;> rfl
  | worker exec s => cases s <;> rfl
  | _ => rfl

theorem Updates.running (h : Updates w a u) {r : Jorb} (hc : u.cond w.db r)
    (hrun : (u.set.set r).state = .running) :
    r.state = .running ∧ (u.set.set r).runEpoch = r.runEpoch ∨
      ∃ e ∈ w.execs, (u.set.set r).heldBy e := by
  cases h with
  | supervise s =>
    cases s with
    | requeue =>
      simp only [SupervisorStmt.update, SupervisorStmt.set, Jorb.requeueState] at hrun
      split at hrun <;> cases hrun
    | cancel =>
      simp only [SupervisorStmt.update, SupervisorStmt.set] at hrun
      split at hrun
      · cases hrun
      · exact .inl ⟨hrun, rfl⟩
    | updatePriority | updateAppVersion | setAwaited | bounce => exact .inl ⟨hrun, rfl⟩
    | _ => cases hrun
  | rerunFresh =>
    simp only [SupervisorStmt.update, SupervisorStmt.set, Jorb.requeueState] at hrun
    split at hrun <;> cases hrun
  | @worker i e exec s =>
    obtain ⟨hid, -, hepoch⟩ := Jorb.attemptOf_iff.mp hc
    cases s with
    | run => exact .inr ⟨e, List.mem_of_getElem? exec, Jorb.heldBy_iff.mpr ⟨hid.symm, hepoch.symm⟩⟩
    | _ => cases hrun
  | _ => cases hrun

theorem Updates.updated (h : Updates w a u) (r : Jorb) :
    (u.set.set r).updated = w.clock ∨
      (u.set.set r).updated = r.updated ∧ (u.set.set r).state = r.state := by
  cases h with
  | supervise s =>
    cases s with
    | updatePriority | updateAppVersion | setAwaited => exact .inr ⟨rfl, rfl⟩
    | _ => exact .inl rfl
  | worker exec s => cases s <;> exact .inl rfl
  | _ => exact .inl rfl

/-- What the row of an attempt under way says of its claim. -/
structure Attributed (w : World) : Prop where
  locks : Locks w
  fenced : Fenced w
  began : ∀ s c, ⟨s, .claim c⟩ ∈ w.txs → c.now ≤ w.clock
  claimer : ∀ e ∈ w.execs, ∀ r ∈ w.db.jorb, r.heldBy e → r.claimedBy = e.claimedBy
  running : ∀ r ∈ w.db.jorb, r.state = .running → ∃ e ∈ w.execs, r.heldBy e
  updated : ∀ r ∈ w.db.jorb, r.inFlight → r.updated ≤ w.clock

namespace Attributed

theorem init (clock : Int) (queue : String → Option QueueRow) :
    Attributed (World.init .empty clock queue) where
  locks := Locks.init .empty clock queue
  fenced := Fenced.init .empty clock queue
  began := fun _ _ ht => absurd ht Table.not_mem_empty
  claimer := fun _ he => absurd he List.not_mem_nil
  running := fun _ hr => absurd hr Serial.not_mem_empty
  updated := fun _ hr => absurd hr Serial.not_mem_empty

theorem began_step (h : Attributed w) (he : Effect w a w') :
    ∀ s c, ⟨s, .claim c⟩ ∈ w'.txs → c.now ≤ w'.clock := by
  intro s c ht
  refine le_trans ?_ he.clock_le
  rcases he.tx_cases ht with ht₀ | ⟨hopens, -⟩
  · exact h.began s c ht₀
  · rcases hopens.claim_cases with ⟨-, hnow, -⟩ | ⟨d, hd, -, -, hnow⟩
    · exact hnow.le
    · exact hnow ▸ h.began s d hd

/-- The facts about one row, for the executions there were. -/
structure Row (w : World) (r : Jorb) : Prop where
  claimer : ∀ e ∈ w.execs, r.heldBy e → r.claimedBy = e.claimedBy
  running : r.state = .running → ∃ e ∈ w.execs, r.heldBy e
  updated : r.inFlight → r.updated ≤ w.clock

theorem row (h : Attributed w) {r : Jorb} (hr : r ∈ w.db.jorb) : Row w r :=
  ⟨fun e he => h.claimer e he r hr, h.running r hr, h.updated r hr⟩

theorem row_update (h : Attributed w) (hu : Updates w a u) {r : Jorb} (hr : r ∈ w.db.jorb)
    (hc : u.cond w.db r) : Row w (u.set.set r) := by
  refine ⟨fun e he hheld => ?_, fun hrun => ?_, fun hflight => ?_⟩
  · obtain ⟨hid, hepoch⟩ := Jorb.heldBy_iff.mp hheld
    rw [u.set.key_set] at hid
    have hle := (h.fenced.owned e he).bound r hr hid.symm
    have hmono : r.runEpoch ≤ (u.set.set r).runEpoch := by
      cases hu.sound.change r hr hc <;> omega
    rw [hu.claimedBy]
    exact h.claimer e he r hr (Jorb.heldBy_iff.mpr ⟨hid, by omega⟩)
  · rcases hu.running hc hrun with ⟨hstate, hepoch⟩ | hheld
    · obtain ⟨e, he, hheld⟩ := h.running r hr hstate
      obtain ⟨hid, hre⟩ := Jorb.heldBy_iff.mp hheld
      exact ⟨e, he, Jorb.heldBy_iff.mpr ⟨hid.trans (u.set.key_set r).symm, hre.trans hepoch.symm⟩⟩
    · exact hheld
  · rcases hu.updated r with hnow | ⟨hsame, hstate⟩
    · exact hnow.le
    · refine hsame.trans_le (h.updated r hr ?_)
      rwa [Jorb.inFlight, hstate] at hflight

theorem row_claimed (h : Attributed w) {session : Nat} {c : ClaimTx}
    (tx : w.claimTx session = some c) {r : Jorb} (hr : r ∈ w.db.jorb) :
    Row w ((c.args.claimed c.now).set r) := by
  refine ⟨fun e he hheld => ?_, (by cases ·), fun _ => h.began _ _ (World.claimTx_eq_some.mp tx)⟩
  obtain ⟨hid, hepoch⟩ := Jorb.heldBy_iff.mp hheld
  have hle := (h.fenced.owned e he).bound r hr hid.symm
  have hsucc : ((c.args.claimed c.now).set r).runEpoch = r.runEpoch + 1 := rfl
  omega

theorem row_step (h : Attributed w) (he : Effect w a w') {r' : Jorb} (hr' : r' ∈ w'.db.jorb) :
    Row w r' := by
  cases he with
  | quiet db clock queue jorb => exact h.row (jorb ▸ hr')
  | close session jorb => exact h.row (jorb ▸ hr')
  | opens => exact h.row hr'
  | delete => exact h.row (Serial.mem_delete.mp hr').1
  | insert j =>
    rcases (Serial.mem_insert (h := fun _ => rfl)).mp hr' with hr' | rfl
    · exact h.row hr'
    · refine ⟨fun e he hheld => ?_, fun hrun => ?_, fun _ => le_rfl⟩
      · have hid : e.id = w.db.jorb.next := (Jorb.heldBy_iff.mp hheld).1
        exact absurd (h.fenced.owned e he).known (by omega)
      · simp only [NewJob.row] at hrun
        split at hrun <;> cases hrun
  | update db wakes u jorb free source =>
    obtain ⟨r, hr, rfl⟩ := Serial.mem_update.mp (jorb ▸ hr')
    split
    · exact h.row_update source hr ‹_›
    · exact h.row hr
  | @commit session jid c _ _ _ _ tx _ _ _ jorb =>
    obtain ⟨r, hr, rfl⟩ := Serial.mem_update.mp (jorb ▸ hr')
    split
    · exact h.row_claimed tx hr
    · exact h.row hr

theorem step (h : Attributed w) (he : Effect w a w') : Attributed w' where
  locks := h.locks.step he
  fenced := h.fenced.step h.locks he
  began := h.began_step he
  claimer := by
    intro e hexec r' hr' hheld
    rcases he.execs_cases with heq | ⟨c, r, hr, heq, hmem⟩
    · exact (h.row_step he hr').claimer e (heq ▸ hexec) hheld
    · rcases List.mem_append.mp (heq ▸ hexec) with hold | hnew
      · exact (h.row_step he hr').claimer e hold hheld
      · obtain rfl := List.mem_singleton.mp hnew
        exact congrArg Jorb.claimedBy
          (Serial.eq_of_ident hr' hmem (Jorb.heldBy_iff.mp hheld).1.symm)
  running := by
    intro r' hr' hrun
    obtain ⟨e, hexec, hheld⟩ := (h.row_step he hr').running hrun
    refine ⟨e, ?_, hheld⟩
    rcases he.execs_cases with heq | ⟨c, r, hr, heq, -⟩
    · exact heq ▸ hexec
    · exact heq ▸ List.mem_append_left _ hexec
  updated := fun _ hr' hflight => ((h.row_step he hr').updated hflight).trans he.clock_le

theorem withWorker (h : Attributed w) (worker : Serial WorkerRow.id) :
    Attributed { w with db := { w.db with worker } } where
  locks := ⟨h.locks.row, h.locks.queue, h.locks.picked, h.locks.compacting⟩
  fenced :=
    ⟨fun e he =>
      let ho := h.fenced.owned e he
      ⟨ho.known, ho.same, ho.bound, ho.flight⟩, h.fenced.distinct⟩
  began := h.began
  claimer := h.claimer
  running := h.running
  updated := h.updated

end Attributed

theorem World.owns_of_ended {e : Jorb} {s : WorkerStmt}
    (hs : ∀ r, (s.set w.clock r).runEpoch = r.runEpoch + 1) (ho : Owned w e)
    (h : w.worker e s = some w') : w'.owns e = false := by
  obtain ⟨wakes, rfl⟩ := World.worker_eq h
  refine Bool.eq_false_iff.mpr fun howns => ?_
  obtain ⟨r', hr', hid, hepoch⟩ := World.owns_iff.mp howns
  obtain ⟨r, hr, rfl⟩ := Serial.mem_update.mp hr'
  split at hepoch
  · rename_i hc
    have hsucc : (s.set w.clock r).runEpoch = e.runEpoch := hepoch
    have := (Jorb.attemptOf_iff.mp hc).2.2
    have := hs r
    omega
  · rename_i hc
    rw [if_neg hc] at hid
    have hflight := ho.flight r hr (Jorb.heldBy_iff.mpr ⟨hid.symm, hepoch.symm⟩)
    exact hc (Jorb.attemptOf_iff.mpr ⟨hid, hflight, hepoch⟩)

namespace Execution

variable {κ : Type} {e e' : Execution κ} {prog : Program κ}

def gone (a : Execution κ) : Bool :=
  match a.phase with
  | .gone => true
  | _ => false

theorem gone_of_throw {error : String} (h : (e.throw error).gone) : False := by
  unfold throw at h
  split at h <;> cases h

theorem answered_gone {next : Execution κ} {ack : Bool} (he : e.gone = false)
    (hnext : next.gone = false) (h : (e.answered next w ack).gone) : w.owns e.row = false := by
  simp only [answered] at h
  split_ifs at h with hack howns
  · simp [he] at h
  · simp [hnext] at h
  · simpa using howns

theorem issue_gone {next : Execution κ} {s : WorkerStmt} {ack : Bool} (ho : Owned w e.row)
    (hs : ∀ r, (s.set w.clock r).runEpoch = r.runEpoch + 1) (he : e.gone = false)
    (h : e.issue next w s ack = some (w', e')) (hgone : e'.gone) : w'.owns e.row = false := by
  obtain ⟨w₁, hw₁, h⟩ := Option.map_eq_some_iff.mp h
  cases h
  cases ack with
  | false => simp [he] at hgone
  | true => exact World.owns_of_ended hs ho hw₁

theorem start_gone {timeout : Option Int} {ack : Bool} (ho : Owned w e.row) (he : e.gone = false)
    (h : e.start prog w timeout ack = some (w', e')) (hgone : e'.gone) : w'.owns e.row = false := by
  obtain ⟨w₁, hw₁, h⟩ := Option.map_eq_some_iff.mp h
  cases h
  cases ack with
  | false => simp [he] at hgone
  | true =>
    simp only [if_true] at hgone
    split_ifs at hgone with happlies hcancel
    · -- the statement matched no row, so the attempt has none
      have hstale : w.owns e.row = false := by
        refine Bool.eq_false_iff.mpr fun howns => ?_
        obtain ⟨r, hr, hid, hepoch⟩ := World.owns_iff.mp howns
        have hflight := ho.flight r hr (Jorb.heldBy_iff.mpr ⟨hid.symm, hepoch.symm⟩)
        have : w.applies e.row (.run timeout) :=
          List.any_eq_true.mpr ⟨r, hr, Jorb.attemptOf_iff.mpr ⟨hid, hflight, hepoch⟩⟩
        simp [this] at happlies
      rw [World.owns_congr (World.worker_jorb_of_stale hstale hw₁)]
      exact hstale
    · cases hgone
    · cases hgone

theorem record_gone {started : Int} {ack : Bool} (h : e.record prog w started ack = some (w', e'))
    (hgone : e'.gone) : w'.owns e.row = false := by
  unfold record at h
  split at h
  · rename_i p next output hphase
    obtain ⟨w₁, hw₁, h⟩ := Option.map_eq_some_iff.mp h
    cases h
    rw [World.owns_congr (World.durable_jorb hw₁)]
    refine answered_gone (by simp [gone, hphase]) ?_ hgone
    split <;> rfl
  · rename_i hphase
    obtain ⟨w₁, hw₁, h⟩ := Option.map_eq_some_iff.mp h
    cases h
    rw [World.owns_congr (World.durable_jorb hw₁)]
    exact answered_gone (by simp [gone, hphase]) (Bool.eq_false_iff.mpr gone_of_throw) hgone
  · split at h
    · cases h
      simpa using ‹(!w.owns e.row) = true›
    · split at h
      · cases h
      · cases h
        cases hgone
  · rename_i hphase
    split at h
    · obtain ⟨w₁, hw₁, h⟩ := Option.map_eq_some_iff.mp h
      cases h
      rw [World.owns_congr (World.durable_jorb hw₁)]
      exact answered_gone (by simp [gone, hphase]) rfl hgone
    · cases h
  · cases h

theorem recv_gone {started : Int} {ack expired : Bool} {entries : List Entry}
    (h : e.recv w started ack expired = some (w', e', entries)) (hgone : e'.gone) :
    w'.owns e.row = false := by
  unfold recv at h
  split at h
  · rename_i topic next hphase
    have hlive : e.gone = false := by simp [gone, hphase]
    obtain ⟨w₁, hw₁, h⟩ := Option.map_eq_some_iff.mp h
    cases h
    rw [World.owns_congr (World.durable_jorb hw₁)]
    split_ifs at hgone with hack hfenced
    · simp [hlive] at hgone
    · rcases Db.recv_cases w.db w.clock e.row.id e.seq topic (Prim.name (.recv topic))
        e.row.runEpoch started with heq | ⟨-, -, m, db', -, heq, -⟩
      · simpa [heq, World.owns] using hfenced
      · simp [heq] at hfenced
    all_goals first | cases hgone | simp [hlive] at hgone
  · cases h

theorem publish_gone {ack : Bool} {entries : List Entry}
    (h : e.publish prog w ack = some (w', e', entries)) (hgone : e'.gone) :
    w'.owns e.row = false := by
  unfold publish at h
  split at h
  · rename_i hphase
    split at h
    · obtain ⟨w₁, hw₁, h⟩ := Option.map_eq_some_iff.mp h
      cases h
      rw [World.owns_congr (World.durable_jorb hw₁)]
      exact answered_gone (by simp [gone, hphase]) rfl hgone
    · cases h
  · cases h

theorem execute_gone {p : Prim} {next : Option Json → κ} {error : String}
    (h : e.execute w p next error = some e') (hgone : e'.gone) : w.owns e.row = false := by
  unfold execute at h
  dsimp only at h
  split_ifs at h with hstmt howns <;> cases h
  · simpa using howns
  · cases hgone
  · cases hgone

theorem compactFence_gone (h : e.compactFence prog w = some e') (hgone : e'.gone) :
    w.owns e.row = false := by
  unfold compactFence at h
  split at h
  · split at h
    · split_ifs at h with howns <;> cases h
      · simpa using howns
      · cases hgone
    · cases h
  · cases h

theorem call_gone {now : Int} {p : Prim} {next : Option Json → κ} (h : (e.call now p next).gone) :
    False := by
  unfold call at h
  dsimp only at h
  repeat' split at h
  all_goals cases h

theorem nest_gone {name : String} {fn : κ} {next : Option Json → κ}
    (h : (e.nest name fn next).gone) : False := by
  unfold nest at h
  dsimp only at h
  repeat' split at h
  all_goals cases h

theorem invoke_gone {now : Int} {p : Prim} {next : Option Json → κ}
    {result : Except String (Option Json)} (h : e.invoke now p next result = some e')
    (hgone : e'.gone) : False := by
  unfold invoke at h
  dsimp only at h
  split at h <;> cases h <;> cases hgone

theorem commit_gone {started : Int} {lost : Option String} {entries : List Entry}
    (h : e.commit w started lost = some (w', e', entries)) (hgone : e'.gone) : False := by
  unfold commit at h
  split at h
  · dsimp only at h
    split at h
    · cases h
    · obtain ⟨w₁, -, h⟩ := Option.map_eq_some_iff.mp h
      cases h
      cases lost <;> cases hgone
  · cases h

theorem compact_gone {lost : Option String} {entries : List Entry}
    (h : e.compact w lost = some (w', e', entries)) (hgone : e'.gone) : False := by
  unfold compact at h
  split at h
  · cases h
    cases lost with
    | none => cases hgone
    | some error => exact gone_of_throw hgone
  · cases h

theorem move_gone {m : Move} {entries : List Entry} (ho : Owned w e.row) (hm : m ≠ .crash)
    (h : e.move prog w m = some (w', e', entries)) (hgone : e'.gone) : w'.owns e.row = false := by
  cases move_cases h with
  | crash => exact absurd rfl hm
  | load => cases hgone
  | start hphase hstart => exact start_gone ho (by simp [gone, hphase]) hstart hgone
  | call => exact (call_gone hgone).elim
  | nest => exact (nest_gone hgone).elim
  | invoke _ h₁ => exact (invoke_gone h₁ hgone).elim
  | execute _ h₁ => exact execute_gone h₁ hgone
  | record h₁ => exact record_gone h₁ hgone
  | commit h₁ => exact (commit_gone h₁ hgone).elim
  | rollback => cases hgone
  | unwind => exact (gone_of_throw hgone).elim
  | recv h₁ => exact recv_gone h₁ hgone
  | publish h₁ => exact publish_gone h₁ hgone
  | read => cases hgone
  | compactFence h₁ => exact compactFence_gone h₁ hgone
  | compact h₁ => exact (compact_gone h₁ hgone).elim
  | reschedule hphase h₁ =>
    exact issue_gone ho (fun _ => rfl) (by simp [gone, hphase]) h₁ hgone
  | finish hphase _ _ h₁ =>
    exact issue_gone ho (fun _ => rfl) (by simp [gone, hphase]) h₁ hgone
  | raise => cases hgone
  | @settle s ack _ _ hphase hsettles h₁ =>
    have hends : ∀ r, (s.set w.clock r).runEpoch = r.runEpoch + 1 := by
      cases s with
      | retry | crashed | cancelled => exact fun _ => rfl
      | run | finished | reschedule => cases hsettles
    exact issue_gone ho hends (by simp [gone, hphase]) h₁ hgone

end Execution

end Pyjobby
