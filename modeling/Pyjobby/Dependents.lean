import Pyjobby.Fencing

/-! Dependents never run early. Five statements release or park waiters, each
with its own wording of a satisfied dependency; over a whole run they agree. -/

namespace Pyjobby

open Relational Transition

def History.FromEmpty (ρ : History) : Prop :=
  ∃ clock queue, ρ.state 0 = World.init .empty clock queue

theorem History.FromEmpty.fresh {ρ : History} (h : ρ.FromEmpty) : ρ.Fresh :=
  ⟨.empty, h⟩

def History.GroupHasFinished (ρ : History) (n : Nat) (g : Int) : Prop :=
  ∃ m ≤ n, ∃ r ∈ (ρ.state m).db.jorb, r.runGroup = some g ∧ r.state = .finished

def History.Satisfied (ρ : History) (n : Nat) (r : Jorb) : Prop :=
  (∃ j, r.waitforJob = some j ∧ ∃ u ∈ (ρ.state n).db.jorb, (u.id : Int) = j ∧ u.state = .finished) ∨
    ∃ g, r.waitforGroup = some g ∧
      (∀ m ∈ (ρ.state n).db.jorb, m.runGroup = some g → m.state = .finished) ∧
      ρ.GroupHasFinished n g

theorem SameJob.dependent {r r' : Jorb} (h : SameJob r r') : r'.dependent = r.dependent := by
  simp [Jorb.dependent, h.waitforJob, h.waitforGroup]

theorem SameJob.satisfied {ρ : History} {n : Nat} {r r' : Jorb} (h : SameJob r r')
    (hs : ρ.Satisfied n r) : ρ.Satisfied n r' := by
  simpa only [History.Satisfied, h.waitforJob, h.waitforGroup] using hs

/-- The row was inserted `waiting`. -/
def Jorb.parked (r : Jorb) : Bool := truthy r.waitforJob || truthy r.waitforGroup

theorem Jorb.dependent_of_parked {r : Jorb} (h : r.parked) : r.dependent := by
  rw [parked, Bool.or_eq_true] at h
  rw [dependent, Bool.or_eq_true]
  exact h.imp isSome_of_truthy isSome_of_truthy

theorem SameJob.parked {r r' : Jorb} (h : SameJob r r') : r'.parked = r.parked := by
  simp [Jorb.parked, h.waitforJob, h.waitforGroup]

theorem NewJob.row_state (j : NewJob) (now : Int) (id : Nat) :
    (j.row now id).state = if (j.row now id).parked then .waiting else .queued := rfl

theorem History.wakes_backed {ρ : History} (hρ : ρ.Fresh) :
    ∀ n ≤ ρ.length, ∀ e ∈ (ρ.state n).wakes, ∀ g, e.runGroup = some g →
      ρ.GroupHasFinished n g := by
  have hfenced := History.fenced hρ
  intro n
  induction n with
  | zero =>
    obtain ⟨db, clock, queue, h0⟩ := hρ
    simp [h0, World.init]
  | succ n ih =>
    intro hn e he g hg
    have hlater (h : ρ.GroupHasFinished n g) : ρ.GroupHasFinished (n + 1) g := by
      obtain ⟨m, hm, hr⟩ := h
      exact ⟨m, Nat.le_succ_of_le hm, hr⟩
    have hold := fun h => hlater (ih (Nat.le_of_succ_le hn) e h g hg)
    have hstep := World.step_effect (ρ.next n hn)
    generalize hw' : ρ.state (n + 1) = w' at hstep he
    cases hstep with
    | update db wakes u jorb free source owed =>
      rcases owed e he with he | ⟨hexec, r, hr, hid, hc, hfin⟩
      · exact hold he
      · have hsame := ((hfenced n (Nat.le_of_succ_le hn)).owned e hexec).same r hr hid
        have hgroup : (u.set.set r).runGroup = some g :=
          (source.sound.keeps r).1.runGroup.trans (hsame.runGroup.trans hg)
        refine ⟨n + 1, le_rfl, u.set.set r, ?_, hgroup, hfin⟩
        rw [hw']
        exact jorb ▸ Serial.mem_update.mpr ⟨r, hr, by simp [hc]⟩
    | _ => exact hold he

theorem History.released_satisfied {ρ : History} (hρ : ρ.Fresh) {n : Nat} (hn : n ≤ ρ.length)
    {r : Jorb} (h : Released (ρ.state n) r) : ρ.Satisfied n r := by
  rcases h with ⟨j, hj, hfin⟩ | ⟨g, hg, hun, hone⟩
  · exact .inl ⟨j, hj, Db.jobFinished_iff.mp hfin⟩
  · have hall := Db.groupUnfinished_eq_false.mp hun
    refine .inr ⟨g, hg, hall, ?_⟩
    rcases hone with hex | ⟨e, he, heg⟩
    · obtain ⟨m, hm, hmg⟩ := Db.groupExists_iff.mp hex
      exact ⟨n, le_rfl, m, hm, hmg, hall m hm hmg⟩
    · exact History.wakes_backed hρ n hn e he g heg

theorem History.waiting_dependent {ρ : History} (hρ : ρ.FromEmpty) :
    ∀ n ≤ ρ.length, ∀ r ∈ (ρ.state n).db.jorb, r.state = .waiting → r.dependent := by
  have hlocks := History.locks hρ.fresh
  intro n
  induction n with
  | zero =>
    obtain ⟨clock, queue, h0⟩ := hρ
    intro _ r hr
    rw [h0] at hr
    exact absurd hr Table.not_mem_empty
  | succ n ih =>
    intro hn r' hr' hwait
    have hle := Nat.le_of_succ_le hn
    cases (World.step_effect (ρ.next n hn)).origin (hlocks n hle) hr' with
    | born j eq =>
      rw [eq, NewJob.row_state] at hwait
      rw [eq]
      apply Jorb.dependent_of_parked
      by_contra hdep
      simp [hdep] at hwait
    | kept mem => exact ih hle r' mem hwait
    | @changed r mem same claimedAt runCount change =>
      rw [same.dependent]
      cases change with
      | edit state => exact ih hle r mem (state ▸ hwait)
      | start source state => simp [state] at hwait
      | leave source state => simp [hwait] at state
      | requeue state =>
        rw [state, Jorb.requeueState] at hwait
        by_contra hdep
        simp [hdep] at hwait
      | wake source state => simp [state] at hwait
      | withdraw source state => simp [state] at hwait
    | claimed tx phase mem admits ends eq =>
      rw [eq] at hwait
      cases hwait

theorem History.wake_satisfied {ρ : History} (hρ : ρ.FromEmpty) {n : Nat} (hn : n < ρ.length)
    {r r' : Jorb} (hr : r ∈ (ρ.state n).db.jorb) (hr' : r' ∈ (ρ.state (n + 1)).db.jorb)
    (hid : r'.id = r.id) (hwait : r.state = .waiting) (hqueued : r'.state = .queued) :
    ρ.Satisfied n r := by
  have hlocks := History.locks hρ.fresh
  cases (World.step_effect (ρ.next n hn)).origin (hlocks n hn.le) hr' with
  | born j eq =>
    have hnext : r'.id = (ρ.state n).db.jorb.next := by rw [eq]; rfl
    exact absurd (Serial.lt_next hr) (by omega)
  | kept mem =>
    obtain rfl := Serial.eq_of_ident hr mem hid.symm
    simp [hwait] at hqueued
  | @changed s mem same claimedAt runCount change =>
    obtain rfl := Serial.eq_of_ident mem hr (same.id.symm.trans hid)
    cases change with
    | edit state => simp [state, hwait] at hqueued
    | start source => simp [Jorb.inFlight_iff, hwait] at source
    | leave source => simp [Jorb.inFlight_iff, hwait] at source
    | requeue state =>
      have hdep := History.waiting_dependent hρ n hn.le s mem hwait
      simp [state, Jorb.requeueState, hdep] at hqueued
    | wake source state epoch released =>
      exact History.released_satisfied hρ.fresh hn.le released
    | withdraw source state => simp [state] at hqueued
  | claimed tx phase mem admits ends eq =>
    rw [eq] at hqueued
    cases hqueued

/-- At some moment before `n` the row was waiting with its dependency satisfied,
the next step queued it, and it has not been waiting since. -/
def History.ReleasedBefore (ρ : History) (n : Nat) (r : Jorb) : Prop :=
  ∃ k < n, (∃ s ∈ (ρ.state k).db.jorb, s.id = r.id ∧ s.state = .waiting) ∧ ρ.Satisfied k r ∧
    (∃ s ∈ (ρ.state (k + 1)).db.jorb, s.id = r.id ∧ s.state = .queued) ∧
    ∀ m, k < m → m ≤ n → ∀ s ∈ (ρ.state m).db.jorb, s.id = r.id → s.state ≠ .waiting

theorem History.ReleasedBefore.succ {ρ : History} {n : Nat} {r r' : Jorb}
    (h : ρ.ReleasedBefore n r) (same : SameJob r r') (hr' : r' ∈ (ρ.state (n + 1)).db.jorb)
    (hstate : r'.state ≠ .waiting) : ρ.ReleasedBefore (n + 1) r' := by
  obtain ⟨k, hk, ⟨s, hs, hsid, hwait⟩, hsat, ⟨u, hu, huid, hqueued⟩, hsince⟩ := h
  refine ⟨k, Nat.lt_succ_of_lt hk, ⟨s, hs, hsid.trans same.id.symm, hwait⟩, same.satisfied hsat,
    ⟨u, hu, huid.trans same.id.symm, hqueued⟩, fun m hkm hm t ht htid => ?_⟩
  rcases Nat.lt_or_ge n m with hnm | hmn
  · obtain rfl : m = n + 1 := by omega
    exact Serial.eq_of_ident ht hr' htid ▸ hstate
  · exact hsince m hkm hmn t ht (htid.trans same.id)

theorem History.released_before {ρ : History} (hρ : ρ.FromEmpty) :
    ∀ n ≤ ρ.length, ∀ r ∈ (ρ.state n).db.jorb, r.parked →
      r.state = .queued ∨ r.inFlight → ρ.ReleasedBefore n r := by
  have hlocks := History.locks hρ.fresh
  intro n
  induction n with
  | zero =>
    obtain ⟨clock, queue, h0⟩ := hρ
    intro _ r hr
    rw [h0] at hr
    exact absurd hr Table.not_mem_empty
  | succ n ih =>
    intro hn r' hr' hdep hactive
    have hle := Nat.le_of_succ_le hn
    have hnot : r'.state ≠ .waiting := by
      rintro hwait
      simp [Jorb.inFlight_iff, hwait] at hactive
    have carry {r : Jorb} (mem : r ∈ (ρ.state n).db.jorb) (same : SameJob r r')
        (hact : r.state = .queued ∨ r.inFlight) : ρ.ReleasedBefore (n + 1) r' :=
      (ih hle r mem (same.parked ▸ hdep) hact).succ same hr' hnot
    cases (World.step_effect (ρ.next n hn)).origin (hlocks n hle) hr' with
    | born j eq =>
      rw [eq, NewJob.row_state, ← eq, hdep] at hnot
      exact absurd rfl hnot
    | kept mem => exact carry mem ⟨rfl, rfl, rfl, rfl, rfl, rfl⟩ hactive
    | @changed r mem same claimedAt runCount change =>
      cases change with
      | edit state => exact carry mem same (by simpa only [Jorb.inFlight, state] using hactive)
      | start source => exact carry mem same (.inr source)
      | leave source => exact carry mem same (.inr source)
      | requeue state =>
        have hdependent := Jorb.dependent_of_parked (same.parked ▸ hdep)
        exact absurd (state.trans (by simp [Jorb.requeueState, hdependent])) hnot
      | wake source state epoch released =>
        refine ⟨n, Nat.lt_succ_self n, ⟨r, mem, same.id.symm, source⟩,
          same.satisfied (History.released_satisfied hρ.fresh hle released),
          ⟨r', hr', rfl, state⟩, fun m hm hmn t ht htid => ?_⟩
        obtain rfl : m = n + 1 := by omega
        exact Serial.eq_of_ident ht hr' htid ▸ hnot
      | withdraw source state => simp [Jorb.inFlight_iff, state] at hactive
    | @claimed session c r tx phase mem admits ends eq =>
      exact carry mem (eq ▸ c.args.claimed_same c.now r) (.inl (ClaimArgs.admits_queued admits))

/-- The requeue statements, with the rows each of them names. -/
inductive Requeues : Act → List Nat → List JorbState → Prop where
  | requeue (batch : List Nat) (allowed : List JorbState) (delay : Int) (resetErrors : Bool) :
      Requeues (.supervise (.requeue batch allowed delay resetErrors)) batch allowed
  | rerunFresh (jid : Nat) (allowed : List JorbState) (delay : Int) (resetErrors : Bool) :
      Requeues (.rerunFresh jid allowed delay resetErrors) [jid] allowed

theorem Requeues.requeueState {w w' : World} {a : Act} {batch : List Nat}
    {allowed : List JorbState} (ha : Requeues a batch allowed) (h : w.step a = some w') {r : Jorb}
    (hr : r ∈ w.db.jorb) (hid : r.id ∈ batch) (hstate : r.state ∈ allowed) :
    ∃ r' ∈ w'.db.jorb, r'.id = r.id ∧ r'.state = r.requeueState := by
  have matched {delay : Int} {resetErrors : Bool} {db : Db}
      (hdb : db.jorb = w.db.jorb.update
        (((SupervisorStmt.requeue batch allowed delay resetErrors).update w.clock).cond w.db)
        ((SupervisorStmt.requeue batch allowed delay resetErrors).update w.clock).set) :
      ∃ r' ∈ db.jorb, r'.id = r.id ∧ r'.state = r.requeueState := by
    refine ⟨_, hdb ▸ Serial.mem_update.mpr ⟨r, hr, rfl⟩, ?_⟩
    have hc :
        ((SupervisorStmt.requeue batch allowed delay resetErrors).update w.clock).cond w.db r := by
      simp [SupervisorStmt.update, SupervisorStmt.cond, hid, hstate]
    rw [if_pos hc]
    exact ⟨rfl, rfl⟩
  cases ha with
  | requeue =>
    obtain ⟨-, rfl⟩ := World.update_eq_some.mp h
    exact matched rfl
  | rerunFresh =>
    obtain ⟨w₁, hw₁, h⟩ := Option.map_eq_some_iff.mp h
    obtain ⟨-, rfl⟩ := World.update_eq_some.mp hw₁
    split at h
    · exact h ▸ matched rfl
    · exact h ▸ matched rfl

theorem cancelUnsatisfiable_target {w w' : World} {batch : List Nat}
    (h : w.step (.supervise (.cancelUnsatisfiableWaiters batch)) = some w') {r r' : Jorb}
    (hr : r ∈ w.db.jorb) (hr' : r' ∈ w'.db.jorb) (hid : r'.id = r.id)
    (hwait : r.state = .waiting) (hcancelled : r'.state = .cancelled) :
    (∃ j, r.waitforJob = some j ∧ ∀ u ∈ w.db.jorb, (u.id : Int) ≠ j) ∨
      ∃ g, r.waitforGroup = some g ∧ ∀ m ∈ w.db.jorb, m.runGroup ≠ some g := by
  obtain ⟨-, rfl⟩ := World.update_eq_some.mp h
  obtain ⟨s, hs, hset⟩ := Serial.mem_update.mp hr'
  have hsid : s.id = r.id := by
    rw [← hid, ← hset]
    split
    · exact (Rewrite.key_set _ s).symm
    · rfl
  obtain rfl := Serial.eq_of_ident hs hr hsid
  split at hset
  · rename_i hc
    simp only [SupervisorStmt.update, SupervisorStmt.cond, Jorb.unsatisfiable, Bool.and_eq_true,
      Bool.or_eq_true, Option.any_eq_true, Bool.not_eq_true'] at hc
    rcases hc.2.2 with ⟨j, hj, hno⟩ | ⟨g, hg, hno⟩
    · exact .inl ⟨j, hj, Db.jobExists_eq_false.mp hno⟩
    · exact .inr ⟨g, hg, Db.groupExists_eq_false.mp hno⟩
  · rw [← hset, hwait] at hcancelled
    cases hcancelled

/-- In every run from an empty table, a waiter enters the queue only when its
dependency is satisfied, a requeue parks a terminal dependent again, a waiter is
cancelled as unsatisfiable only when its target is gone, and no row that was
inserted waiting is claimed before it was released. -/
theorem dependents_never_early (ρ : History) (hρ : ρ.FromEmpty) :
    (∀ n < ρ.length, ∀ r ∈ (ρ.state n).db.jorb, ∀ r' ∈ (ρ.state (n + 1)).db.jorb,
      r'.id = r.id → r.state = .waiting → r'.state = .queued → ρ.Satisfied n r) ∧
    (∀ n < ρ.length, ∀ batch allowed, Requeues (ρ.act n) batch allowed →
      ∀ r ∈ (ρ.state n).db.jorb, r.id ∈ batch → r.state ∈ allowed → r.dependent →
        ∃ r' ∈ (ρ.state (n + 1)).db.jorb, r'.id = r.id ∧ r'.state = .waiting) ∧
    (∀ n < ρ.length, ∀ batch, ρ.act n = .supervise (.cancelUnsatisfiableWaiters batch) →
      ∀ r ∈ (ρ.state n).db.jorb, ∀ r' ∈ (ρ.state (n + 1)).db.jorb, r'.id = r.id →
        r.state = .waiting → r'.state = .cancelled →
          (∃ j, r.waitforJob = some j ∧ ∀ u ∈ (ρ.state n).db.jorb, (u.id : Int) ≠ j) ∨
            ∃ g, r.waitforGroup = some g ∧ ∀ m ∈ (ρ.state n).db.jorb, m.runGroup ≠ some g) ∧
    (∀ n < ρ.length, ∀ r ∈ (ρ.state n).db.jorb, ∀ r' ∈ (ρ.state (n + 1)).db.jorb,
      r'.id = r.id → r.state = .queued → r'.state = .claimed → r.parked →
        ρ.ReleasedBefore n r) := by
  refine ⟨fun n hn r hr r' hr' => History.wake_satisfied hρ hn hr hr',
    fun n hn batch allowed ha r hr hid hstate hdep => ?_,
    fun n hn batch ha r hr r' hr' => cancelUnsatisfiable_target (ha ▸ ρ.next n hn) hr hr',
    fun n hn r hr r' hr' hid hqueued hclaimed hdep =>
      History.released_before hρ n hn.le r hr hdep (.inl hqueued)⟩
  obtain ⟨r', hr', hid', hstate'⟩ := ha.requeueState (ρ.next n hn) hr hid hstate
  exact ⟨r', hr', hid', hstate'.trans (by simp [Jorb.requeueState, hdep])⟩

def chainActs : List Act :=
  [.enqueue (.plain "q"), .enqueue { NewJob.plain "q" with waitforJob := some 1 }] ++
    Act.claim 0 (.plain "q") ++ [.worker 0 (.run none), .worker 0 (.finished none), .wakeSelf 0] ++
    Act.claim 0 (.plain "q")

def chainRun : History := .ofList (.init .empty 0 fun _ => none) chainActs (by decide)

theorem dependents_never_early_chain :
    ∃ r ∈ (chainRun.state 10).db.jorb, r.id = 2 ∧ chainRun.ReleasedBefore 10 r := by
  obtain ⟨r, hr⟩ : ∃ r, (chainRun.state 10).db.jorb.find? 2 = some r := ⟨_, rfl⟩
  obtain ⟨r', hr'⟩ : ∃ r', (chainRun.state 11).db.jorb.find? 2 = some r' := ⟨_, rfl⟩
  have hrow : ∀ r ∈ (chainRun.state 10).db.jorb.find? 2, r.state = .queued ∧ r.parked := by decide
  have hrow' : ∀ r ∈ (chainRun.state 11).db.jorb.find? 2, r.state = .claimed := by decide
  obtain ⟨hmem, hid⟩ := Serial.find?_eq_some.mp hr
  obtain ⟨hmem', hid'⟩ := Serial.find?_eq_some.mp hr'
  exact ⟨r, hmem, hid, (dependents_never_early chainRun ⟨_, _, rfl⟩).2.2.2 10 (by decide) r hmem r'
    hmem' (hid'.trans hid.symm) (hrow r hr).1 (hrow' r' hr') (hrow r hr).2⟩

end Pyjobby
