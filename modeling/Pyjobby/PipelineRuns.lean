import Pyjobby.Pipelines

/-! Pipelines in runs: the stages go one after another, whoever claims, requeues, sweeps and
wakes, and each finds the result of the one before it. -/

namespace Pyjobby

open Relational Transition Pipelines

namespace History

variable {ρ : History}

/-- A row is the same job as the row that had its id before, with the same options. -/
theorem same_later (hρ : ρ.Fresh) {n k : Nat} (hnk : n ≤ k) (hk : k ≤ ρ.length) {r r' : Jorb}
    (hr : r ∈ (ρ.state n).db.jorb) (hr' : r' ∈ (ρ.state k).db.jorb) (hid : r'.id = r.id) :
    SameJob r r' ∧ r'.adminData = r.adminData := by
  have hlocks := History.locks hρ
  have hsource : ∀ r' ∈ (ρ.state k).db.jorb, (ρ.state n).db.jorb.next ≤ r'.id ∨
      ∃ r ∈ (ρ.state n).db.jorb, SameJob r r' ∧ r'.adminData = r.adminData := by
    clear hr' hid
    induction hnk with
    | refl => exact fun r' hr' => .inr ⟨r', hr', .refl r', rfl⟩
    | @step k hnk ih =>
      intro r' hr'
      have hle := Nat.le_of_succ_le hk
      have hnext := ρ.monotone (R := fun s t => s.db.jorb.next ≤ t.db.jorb.next)
        (fun _ => le_rfl) Nat.le_trans (fun h => (World.step_effect h).next_le) hnk hle
      rcases World.step_dependencies (hlocks k hle) (ρ.next k hk) hr' with
        ⟨j, -, rfl⟩ | ⟨s, hs, hsame, hadmin, -⟩
      · exact .inl hnext
      · rcases ih hle s hs with hborn | ⟨r, hr, hrs, hdata⟩
        · exact .inl (hsame.id ▸ hborn)
        · exact .inr ⟨r, hr, hrs.trans hsame, hadmin.trans hdata⟩
  rcases hsource r' hr' with hborn | ⟨s, hs, hsame, hadmin⟩
  · exact absurd (Serial.lt_next hr) (by omega)
  · obtain rfl := Serial.eq_of_ident hr hs (hid.symm.trans hsame.id)
    exact ⟨hsame, hadmin⟩

theorem id_ne_zero (hρ : ρ.FromEmpty) :
    ∀ n ≤ ρ.length, ∀ r ∈ (ρ.state n).db.jorb, r.id ≠ 0 := by
  have hlocks := History.locks hρ.fresh
  have hnext : ∀ n ≤ ρ.length, 1 ≤ (ρ.state n).db.jorb.next := by
    obtain ⟨clock, queue, h0⟩ := hρ
    exact ρ.invariant (P := fun w => 1 ≤ w.db.jorb.next) (by rw [h0]; exact le_rfl)
      fun h hstep => h.trans (World.step_effect hstep).next_le
  intro n
  induction n with
  | zero =>
    obtain ⟨clock, queue, h0⟩ := hρ
    intro _ r hr
    rw [h0] at hr
    exact absurd hr Table.not_mem_empty
  | succ n ih =>
    intro hn r' hr'
    have hle := Nat.le_of_succ_le hn
    rcases World.step_dependencies (hlocks n hle) (ρ.next n hn) hr' with
      ⟨j, -, rfl⟩ | ⟨r, hr, hsame, -⟩
    · exact Nat.ne_of_gt (hnext n hle)
    · exact hsame.id ▸ ih hle r hr

/-- A finished job was in flight before. -/
theorem flight_before_finished (hρ : ρ.FromEmpty) :
    ∀ n ≤ ρ.length, ∀ r ∈ (ρ.state n).db.jorb, r.state = .finished →
      ∃ k < n, ∃ s ∈ (ρ.state k).db.jorb, SameJob s r ∧ s.inFlight := by
  have hlocks := History.locks hρ.fresh
  intro n
  induction n with
  | zero =>
    obtain ⟨clock, queue, h0⟩ := hρ
    intro _ r hr
    rw [h0] at hr
    exact absurd hr Table.not_mem_empty
  | succ n ih =>
    intro hn r' hr' hfinished
    have hle := Nat.le_of_succ_le hn
    have carry {r : Jorb} (mem : r ∈ (ρ.state n).db.jorb) (same : SameJob r r')
        (hstate : r.state = .finished) :
        ∃ k < n + 1, ∃ s ∈ (ρ.state k).db.jorb, SameJob s r' ∧ s.inFlight := by
      obtain ⟨k, hk, s, hs, hsame, hflight⟩ := ih hle r mem hstate
      exact ⟨k, Nat.lt_succ_of_lt hk, s, hs, hsame.trans same, hflight⟩
    cases (World.step_effect (ρ.next n hn)).origin (hlocks n hle) hr' with
    | born j eq =>
      rw [eq, NewJob.row_state] at hfinished
      split at hfinished <;> cases hfinished
    | kept mem => exact carry mem (.refl r') hfinished
    | @changed r mem same claimedAt runCount change =>
      cases change with
      | edit state => exact carry mem same (state.symm.trans hfinished)
      | start source => exact ⟨n, Nat.lt_succ_self n, r, mem, same, source⟩
      | leave source => exact ⟨n, Nat.lt_succ_self n, r, mem, same, source⟩
      | requeue state =>
        rw [state, Jorb.requeueState] at hfinished
        split at hfinished <;> cases hfinished
      | wake source state => simp [state] at hfinished
      | withdraw source state => simp [state] at hfinished
    | claimed tx phase mem admits ends eq =>
      rw [eq] at hfinished
      cases hfinished

/-- A finished job stays finished until it is requeued, wiped or removed. -/
theorem finished_stays (hρ : ρ.Fresh) {k n : Nat} (hkn : k ≤ n) (hn : n ≤ ρ.length) {u : Jorb}
    (hu : u ∈ (ρ.state k).db.jorb) (hfinished : u.state = .finished)
    (hcalm : ∀ j, k ≤ j → j < n → (ρ.state j).resets u.id (ρ.act j) = false) :
    ∃ u' ∈ (ρ.state n).db.jorb, u'.id = u.id ∧ u'.state = .finished := by
  have hlocks := History.locks hρ
  induction hkn with
  | refl => exact ⟨u, hu, rfl, hfinished⟩
  | @step n hkn ih =>
    have hle := Nat.le_of_succ_le hn
    obtain ⟨s, hs, hsid, hstate⟩ := ih hle fun j hkj hj => hcalm j hkj (Nat.lt_succ_of_lt hj)
    have hterminal : (ρ.state n).db.jobTerminal u.id := ⟨s, hs, hsid, by rw [hstate]; rfl⟩
    obtain ⟨s', hs', hsid', hterm⟩ :=
      World.terminal_stays (hlocks n hle) (ρ.next n hn) (hcalm n hkn (Nat.lt_succ_self n)) hterminal
    refine ⟨s', hs', hsid', ?_⟩
    cases (World.step_effect (ρ.next n hn)).origin (hlocks n hle) hs' with
    | born j eq =>
      have hnext : s'.id = (ρ.state n).db.jorb.next := by rw [eq]; rfl
      exact absurd (Serial.lt_next hs) (by omega)
    | kept mem => exact Serial.eq_of_ident mem hs (hsid'.trans hsid.symm) ▸ hstate
    | @changed r mem same claimedAt runCount change =>
      obtain rfl := Serial.eq_of_ident mem hs (same.id.symm.trans (hsid'.trans hsid.symm))
      cases change with
      | edit state => exact state.trans hstate
      | start source => simp [Jorb.inFlight_iff, hstate] at source
      | leave source => simp [Jorb.inFlight_iff, hstate] at source
      | requeue state =>
        rw [state, Jorb.requeueState] at hterm
        split at hterm <;> cases hterm
      | wake source => simp [hstate] at source
      | withdraw source => simp [Jorb.preClaim_iff, hstate] at source
    | @claimed session c r tx phase mem admits ends eq =>
      have hid : r.id = s.id := by
        rw [hsid, ← hsid', eq]
        exact (c.args.claimed_same c.now r).id.symm
      obtain rfl := Serial.eq_of_ident mem hs hid
      simp [ClaimArgs.admits_queued admits] at hstate

end History

namespace Pipelines

/-- At step `m` of the run the transaction of a chain commits: its rows appear one after another
with nothing in between. -/
structure Placed (ρ : History) (m : Nat) (o : ChainOptions) (stages : List Stage) (c : Chain) :
    Prop where
  chain : createChain o (ρ.state m).clock (ρ.state m).db stages = .ok c
  inside : m + c.inserted.length ≤ ρ.length
  acts : ∀ (i : Nat) (job : NewJob), c.inserted[i]? = some job → ρ.act (m + i) = .enqueue job

theorem db_after_enqueues {ρ : History} {db : Db} {jobs : List NewJob} {k : Nat}
    (hinside : k + jobs.length ≤ ρ.length)
    (hacts : ∀ (i : Nat) (job : NewJob), jobs[i]? = some job → ρ.act (k + i) = .enqueue job)
    (hdb : jobs.foldlM (fun db job => db.enqueue (ρ.state k).clock job) (ρ.state k).db = some db) :
    (ρ.state (k + jobs.length)).db = db := by
  induction jobs generalizing k with
  | nil => exact Option.some.inj hdb
  | cons job jobs ih =>
    rw [List.length_cons] at hinside ⊢
    have hstep := ρ.next k (by omega)
    rw [show ρ.act k = .enqueue job from hacts 0 job rfl] at hstep
    obtain ⟨db₁, henqueue, hstate⟩ := Option.map_eq_some_iff.mp hstep
    rw [List.foldlM_cons, henqueue] at hdb
    rw [show k + (jobs.length + 1) = k + 1 + jobs.length by omega]
    refine ih (by omega) (fun i job' hi => ?_) ?_
    · rw [show k + 1 + i = k + (i + 1) by omega]
      exact hacts (i + 1) job' hi
    · rw [← hstate]
      exact hdb

namespace Placed

variable {ρ : History} {m : Nat} {o : ChainOptions} {stages : List Stage} {c : Chain}

theorem grown (h : Placed ρ m o stages c)
    (hgroup : ∀ s ∈ stages, s.given.waitforGroup ≠ some 0) :
    Grown o (ρ.state m).clock (ρ.state m).db stages c := by
  simpa using Grown.start.addAll hgroup h.chain

theorem db (h : Placed ρ m o stages c)
    (hgroup : ∀ s ∈ stages, s.given.waitforGroup ≠ some 0) :
    (ρ.state (m + c.inserted.length)).db = c.db :=
  db_after_enqueues h.inside h.acts (h.grown hgroup).inserts

/-- A stage, wherever the run has come, waits for the one before it. -/
theorem linked (h : Placed ρ m o stages c) (hρ : ρ.FromEmpty)
    (hgroup : ∀ s ∈ stages, s.given.waitforGroup ≠ some 0) {i a : Nat} {t : Stage}
    (ha : c.jobIds[i]? = some a) (ht : stages[i]? = some t) {n : Nat} (hn : n ≤ ρ.length) {r : Jorb}
    (hr : r ∈ (ρ.state n).db.jorb) (hid : c.jobIds[i + 1]? = some r.id) :
    a ≠ 0 ∧ (ρ.state m).db.jorb.next ≤ r.id ∧ r.waitforJob = some (a : Int) ∧
      r.waitforGroup = none ∧
      (o.passes && t.saveResult → r.adminData.get? "use_result_from" = some (.int a)) := by
  have hgrown := h.grown hgroup
  have hdb := h.db hgroup
  obtain ⟨u, hu, rfl⟩ := hgrown.rows a (List.mem_of_getElem? ha)
  have hne : u.id ≠ 0 := History.id_ne_zero hρ _ h.inside u (hdb ▸ hu)
  obtain ⟨hnew, s, hs, hsid, hwait, hnone, huse⟩ := hgrown.linked i u.id r.id t ha hid ht hne
  rw [← hdb] at hs
  rcases Nat.le_total n (m + c.inserted.length) with hle | hle
  · obtain ⟨hsame, hadmin⟩ := History.same_later hρ.fresh hle h.inside hr hs hsid
    exact ⟨hne, hnew, hsame.waitforJob ▸ hwait, hsame.waitforGroup ▸ hnone, hadmin ▸ huse⟩
  · obtain ⟨hsame, hadmin⟩ := History.same_later hρ.fresh hle hn hs hr hsid.symm
    exact ⟨hne, hnew, hsame.waitforJob.trans hwait, hsame.waitforGroup.trans hnone,
      fun hpassed => hadmin ▸ huse hpassed⟩

/-- The step that lets a stage go: the one before it has finished, and it goes from waiting
to queued. -/
def LetGo (ρ : History) (c : Chain) (i k : Nat) : Prop :=
  (∃ u ∈ (ρ.state k).db.jorb, c.jobIds[i]? = some u.id ∧ u.state = .finished) ∧
    ∃ v ∈ (ρ.state k).db.jorb, c.jobIds[i + 1]? = some v.id ∧ v.state = .waiting ∧
      ∃ v' ∈ (ρ.state (k + 1)).db.jorb, v'.id = v.id ∧ v'.state = .queued

/-- While the chain is written no row changes. -/
theorem quiet (h : Placed ρ m o stages c) {k : Nat} (hmk : m ≤ k)
    (hkm : k < m + c.inserted.length) {v v' : Jorb} (hv : v ∈ (ρ.state k).db.jorb)
    (hv' : v' ∈ (ρ.state (k + 1)).db.jorb) (hid : v'.id = v.id) : v'.state = v.state := by
  obtain ⟨i, rfl⟩ := Nat.exists_eq_add_of_le hmk
  have hi : i < c.inserted.length := by omega
  have hstep := ρ.next (m + i) (by have := h.inside; omega)
  rw [h.acts i _ (List.getElem?_eq_getElem hi)] at hstep
  obtain ⟨db, henqueue, hstate⟩ := Option.map_eq_some_iff.mp hstep
  rw [← hstate] at hv'
  rcases (Db.enqueue_jorb henqueue).mp hv' with hold | rfl
  · rw [Serial.eq_of_ident hold hv hid]
  · exact absurd (Serial.lt_next hv) (by rw [← hid]; exact Nat.lt_irrefl _)

theorem letGo (h : Placed ρ m o stages c) (hρ : ρ.FromEmpty)
    (hgroup : ∀ s ∈ stages, s.given.waitforGroup ≠ some 0) {i n : Nat}
    (hn : n ≤ ρ.length) {r : Jorb}
    (hr : r ∈ (ρ.state n).db.jorb) (hid : c.jobIds[i + 1]? = some r.id)
    (hstate : r.inFlight ∨ r.state = .finished) :
    ∃ k, m < k ∧ m + c.inserted.length ≤ k ∧ k < n ∧ LetGo ρ c i k := by
  have hgrown := h.grown hgroup
  obtain ⟨hlt, -⟩ := List.getElem?_eq_some_iff.mp hid
  obtain ⟨a, ha⟩ : ∃ a, c.jobIds[i]? = some a :=
    ⟨_, List.getElem?_eq_getElem (Nat.lt_of_succ_lt hlt)⟩
  obtain ⟨t, ht⟩ : ∃ t, stages[i]? = some t :=
    ⟨_, List.getElem?_eq_getElem (hgrown.length ▸ Nat.lt_of_succ_lt hlt)⟩
  obtain ⟨hne, hnew, hwait, hnone, -⟩ := h.linked hρ hgroup ha ht hn hr hid
  have hparked : r.parked := by
    have htruthy : truthy (some (a : Int)) := by simpa [truthy] using hne
    rw [Jorb.parked, hwait, htruthy, Bool.true_or]
  have hflight : ∃ j ≤ n, ∃ s ∈ (ρ.state j).db.jorb, SameJob s r ∧ s.inFlight := by
    rcases hstate with hflight | hfinished
    · exact ⟨n, le_rfl, r, hr, .refl r, hflight⟩
    · obtain ⟨j, hj, s, hs, hsame, hflight⟩ := History.flight_before_finished hρ n hn r hr hfinished
      exact ⟨j, hj.le, s, hs, hsame, hflight⟩
  obtain ⟨j, hj, s, hs, hsame, hflight⟩ := hflight
  obtain ⟨k, hk, ⟨v, hv, hvid, hvwait⟩, hsatisfied, ⟨v', hv', hvid', hqueued⟩, -⟩ :=
    History.released_before hρ j (hj.trans hn) s hs (hsame.parked ▸ hparked) (.inr hflight)
  have hvr : v.id = r.id := hvid.trans hsame.id.symm
  have hvv : v'.id = v.id := hvid'.trans hvid.symm
  have hmk : m < k := by
    by_contra hkm
    have hnext := ρ.monotone (R := fun s t => s.db.jorb.next ≤ t.db.jorb.next)
      (fun _ => le_rfl) Nat.le_trans (fun h => (World.step_effect h).next_le) (Nat.le_of_not_lt hkm)
      (by have := h.inside; omega)
    exact absurd (Serial.lt_next hv) (by omega)
  have hwritten : m + c.inserted.length ≤ k := by
    by_contra hkm
    have hquiet := h.quiet hmk.le (Nat.lt_of_not_le hkm) hv hv' hvv
    rw [hvwait, hqueued] at hquiet
    cases hquiet
  refine ⟨k, hmk, hwritten, by omega, ?_, v, hv, hvr ▸ hid, hvwait, v', hv', hvv, hqueued⟩
  rcases hsatisfied with ⟨b, hb, u, hu, hub, hfinished⟩ | ⟨g, hg, -⟩
  · rw [← hsame.waitforJob, hwait] at hb
    refine ⟨u, hu, ?_, hfinished⟩
    rw [ha]
    exact congrArg some (Int.ofNat.inj ((Option.some.inj hb).trans hub.symm))
  · rw [← hsame.waitforGroup, hnone] at hg
    cases hg

end Placed

/-- Whoever claims, requeues, sweeps or wakes, and however often: a stage that runs or has
finished was let go after the stage before it, and so back to the first. -/
theorem pipeline_in_order (ρ : History) (hρ : ρ.FromEmpty) (m : Nat) (o : ChainOptions)
    (stages : List Stage) (c : Chain) (h : Placed ρ m o stages c)
    (hgroup : ∀ s ∈ stages, s.given.waitforGroup ≠ some 0) :
    ∀ n ≤ ρ.length, ∀ (s : Nat), ∀ r ∈ (ρ.state n).db.jorb, c.jobIds[s]? = some r.id →
      r.inFlight ∨ r.state = .finished →
      ∃ t : Nat → Nat, t s = n ∧
        ∀ i < s, m + c.inserted.length ≤ t i ∧ t i < t (i + 1) ∧ Placed.LetGo ρ c i (t i) := by
  intro n hn s
  induction s generalizing n with
  | zero => exact fun r hr hid hstate => ⟨fun _ => n, rfl,
      fun i hi => absurd hi (Nat.not_lt_zero i)⟩
  | succ s ih =>
    intro r hr hid hstate
    obtain ⟨k, -, hwritten, hkn, hletgo⟩ := h.letGo hρ hgroup hn hr hid hstate
    obtain ⟨u, hu, huid, hfinished⟩ := hletgo.1
    obtain ⟨t, hts, ht⟩ := ih k (by omega) u hu huid (.inr hfinished)
    refine ⟨fun i => if i ≤ s then t i else n, by simp, fun i hi => ?_⟩
    rcases Nat.lt_succ_iff_lt_or_eq.mp hi with hlt | rfl
    · simpa [hlt.le, Nat.succ_le_of_lt hlt] using ht i hlt
    · simpa [hts] using ⟨hwritten, hkn, hletgo⟩

def fetchAndStore : List Stage :=
  [⟨{ jobClass := "app.jobs.Fetch", queue := "q" }, true⟩,
    ⟨{ jobClass := "app.jobs.Store", queue := "q" }, true⟩]

def fetchChain : Chain :=
  ((createChain ⟨true, none, none⟩ 0 .empty fetchAndStore).toOption).getD (.start .empty)

def pipelineActs : List Act :=
  fetchChain.inserted.map .enqueue ++ Act.claim 0 (.plain "q") ++
    [.worker 0 (.run none), .worker 0 (.finished (some (.int 7))), .wakeSelf 0] ++
    Act.claim 0 (.plain "q")

def pipelineRun : History := .ofList (.init .empty 0 fun _ => none) pipelineActs (by decide)

theorem pipelineRun_placed : Placed pipelineRun 0 ⟨true, none, none⟩ fetchAndStore fetchChain where
  chain := rfl
  inside := by decide
  acts i job h := by
    match i with
    | 0 => exact Option.some.inj h ▸ rfl
    | 1 => exact Option.some.inj h ▸ rfl
    | i + 2 => cases h

theorem pipeline_in_order_fetched : ∃ k, k < 11 ∧ Placed.LetGo pipelineRun fetchChain 0 k := by
  have hgroup : ∀ s ∈ fetchAndStore, s.given.waitforGroup ≠ some 0 := by decide
  obtain ⟨r, hr⟩ : ∃ r, (pipelineRun.state 11).db.jorb.find? 2 = some r := ⟨_, rfl⟩
  have hflight : ∀ r ∈ (pipelineRun.state 11).db.jorb.find? 2, r.inFlight := by decide
  obtain ⟨hmem, hid⟩ := Serial.find?_eq_some.mp hr
  obtain ⟨t, ht, hbefore⟩ := pipeline_in_order pipelineRun ⟨_, _, rfl⟩ 0 _ fetchAndStore fetchChain
    pipelineRun_placed hgroup 11 le_rfl 1 r hmem (hid ▸ rfl) (.inl (hflight r hr))
  obtain ⟨-, hlt, hletgo⟩ := hbefore 0 Nat.zero_lt_one
  exact ⟨t 0, ht ▸ hlt, hletgo⟩

/-- Until the job of a stage whose result is passed on is requeued, wiped or removed, the next
stage runs with the result that job has stored, and finds it finished. -/
theorem pipeline_passes_results (ρ : History) (hρ : ρ.FromEmpty) (m : Nat) (o : ChainOptions)
    (ho : o.passes) (stages : List Stage) (c : Chain) (h : Placed ρ m o stages c)
    (hgroup : ∀ s ∈ stages, s.given.waitforGroup ≠ some 0) :
    ∀ n ≤ ρ.length, ∀ (i a : Nat) (t : Stage), c.jobIds[i]? = some a → stages[i]? = some t →
      t.saveResult → ∀ r ∈ (ρ.state n).db.jorb, c.jobIds[i + 1]? = some r.id → r.inFlight →
      (∀ j, m < j → j < n → (ρ.state j).resets a (ρ.act j) = false) →
      ∃ u ∈ (ρ.state n).db.jorb, u.id = a ∧ u.state = .finished ∧
        runKwargs (ρ.state n).db r = .ok (withUpstreamResult r.kwargs u.result) := by
  intro n hn i a t ha ht hsave r hr hid hflight hcalm
  obtain ⟨hne, -, -, -, huse⟩ := h.linked hρ hgroup ha ht hn hr hid
  obtain ⟨k, hmk, -, hkn, ⟨u, hu, huid, hfinished⟩, -⟩ := h.letGo hρ hgroup hn hr hid (.inl hflight)
  obtain rfl : a = u.id := Option.some.inj (ha.symm.trans huid)
  obtain ⟨u', hu', hid', hfinished'⟩ := History.finished_stays hρ.fresh hkn.le hn hu hfinished
    fun j hkj hj => hcalm j (by omega) hj
  refine ⟨u', hu', hid', hfinished', ?_⟩
  have hfind : (ρ.state n).db.jorb.rows.find? (fun v => (v.id : Int) = u.id) = some u' := by
    cases hv : (ρ.state n).db.jorb.rows.find? fun v => (v.id : Int) = u.id with
    | none =>
      have hnone := List.find?_eq_none.mp hv u' (Serial.mem_rows.mpr hu')
      exact absurd hid' (by simpa using hnone)
    | some v =>
      have hvid := List.find?_some hv
      simp only [decide_eq_true_eq, Nat.cast_inj] at hvid
      exact congrArg some (Serial.eq_of_ident
        (Serial.mem_rows.mp (List.mem_of_find?_eq_some hv)) hu' (hvid.trans hid'.symm))
  have hnonzero : (u.id : Int) ≠ 0 := Int.natCast_ne_zero.mpr hne
  simp only [runKwargs, huse (by rw [ho, hsave]; rfl), hnonzero, hfind, hfinished', ne_eq,
    not_true_eq_false, if_false]

theorem pipeline_passes_results_fetched :
    ∃ r ∈ (pipelineRun.state 11).db.jorb,
      runKwargs (pipelineRun.state 11).db r = .ok (.obj [("upstream_result", .int 7)]) := by
  have hgroup : ∀ s ∈ fetchAndStore, s.given.waitforGroup ≠ some 0 := by decide
  have hcalm : ∀ j < 11, (pipelineRun.state j).resets 1 (pipelineRun.act j) = false := by decide
  have hflight : ∀ r ∈ (pipelineRun.state 11).db.jorb.find? 2, r.inFlight := by decide
  obtain ⟨r, hr, hkwargs⟩ : ∃ r, (pipelineRun.state 11).db.jorb.find? 2 = some r ∧
      r.kwargs = .obj [] := ⟨_, rfl, rfl⟩
  obtain ⟨v, hv, hresult⟩ : ∃ v, (pipelineRun.state 11).db.jorb.find? 1 = some v ∧
      v.result = some (.int 7) := ⟨_, rfl, rfl⟩
  obtain ⟨hmem, hid⟩ := Serial.find?_eq_some.mp hr
  obtain ⟨hvmem, hvid⟩ := Serial.find?_eq_some.mp hv
  obtain ⟨u, hu, huid, -, hrun⟩ := pipeline_passes_results pipelineRun ⟨_, _, rfl⟩ 0 _ rfl
    fetchAndStore fetchChain pipelineRun_placed hgroup 11 le_rfl 0 1
    ⟨{ jobClass := "app.jobs.Fetch", queue := "q" }, true⟩ rfl rfl rfl r hmem (hid ▸ rfl)
    (hflight r hr) fun j _ hj => hcalm j hj
  obtain rfl := Serial.eq_of_ident hu hvmem (huid.trans hvid.symm)
  refine ⟨r, hmem, ?_⟩
  rw [hrun, hkwargs, hresult]
  rfl

end Pipelines

end Pyjobby
