import Pyjobby.Rows

/-! Epoch fencing. An execution keeps the epoch its claim returned, and every
way into or out of an attempt advances the row's: an execution the row has moved
past can write nothing. -/

namespace Pyjobby

open Relational Transition

def Jorb.heldBy (r e : Jorb) : Bool := e.id = r.id && e.runEpoch = r.runEpoch

theorem Jorb.heldBy_iff {r e : Jorb} : r.heldBy e ↔ e.id = r.id ∧ e.runEpoch = r.runEpoch := by
  simp [Jorb.heldBy]

/-- No row stands at the epoch the execution remembers. -/
def Stale (w : World) (e : Jorb) : Prop := ∀ r ∈ w.db.jorb, r.id = e.id → r.runEpoch ≠ e.runEpoch

/-- The state-changing statements of an execution. -/
inductive Issues (w : World) (e : Jorb) : Act → Prop where
  | worker {i : Nat} (exec : w.execs[i]? = some e) (s : WorkerStmt) : Issues w e (.worker i s)
  | durable {i : Nat} (exec : w.execs[i]? = some e) (s : DurableStmt) : Issues w e (.durable i s)
  | compactFence {i : Nat} (exec : w.execs[i]? = some e) (session : Nat) :
      Issues w e (.compactFence session i)
  | compactSteps {session : Nat} (tx : ⟨session, .compact e.id e.runEpoch⟩ ∈ w.txs) :
      Issues w e (.compactSteps session)

/-- An execution is never ahead of its row, and one that has its row's epoch
owns an attempt in flight. -/
structure Owned (w : World) (e : Jorb) : Prop where
  known : e.id < w.db.jorb.next
  same : ∀ r ∈ w.db.jorb, r.id = e.id → SameJob e r
  bound : ∀ r ∈ w.db.jorb, r.id = e.id → e.runEpoch ≤ r.runEpoch
  flight : ∀ r ∈ w.db.jorb, r.heldBy e → r.inFlight

structure Fenced (w : World) : Prop where
  owned : ∀ e ∈ w.execs, Owned w e
  distinct : (w.execs.map fun e => (e.id, e.runEpoch)).Nodup

theorem Fenced.init (db : Db) (clock : Int) (queue : String → Option QueueRow) :
    Fenced (World.init db clock queue) := by
  constructor <;> simp [World.init]

theorem ClaimArgs.claimed_inFlight (a : ClaimArgs) (now : Int) (r : Jorb) :
    ((a.claimed now).set r).inFlight :=
  Jorb.inFlight_iff.mpr (.inl rfl)

theorem Change.inFlight_of_epoch {w : World} {r r' : Jorb} (h : Change w r r')
    (hr : r.inFlight) (he : r'.runEpoch = r.runEpoch) : r'.inFlight := by
  rw [Jorb.inFlight_iff] at hr ⊢
  cases h with
  | edit state => exact state ▸ hr
  | start source state => exact .inr state
  | leave source state epoch => omega
  | requeue state epoch => omega
  | wake source state => simp [source] at hr
  | withdraw source state =>
    rw [Jorb.preClaim_iff] at source
    rcases source with h | h <;> simp [h] at hr

theorem Owned.step {w w' : World} {a : Act} {e : Jorb} (ho : Owned w e) (hw : Locks w)
    (h : Effect w a w') : Owned w' e := by
  have row {r' : Jorb} (hr' : r' ∈ w'.db.jorb) (hid : r'.id = e.id) :
      e.runEpoch ≤ r'.runEpoch ∧ (r'.runEpoch = e.runEpoch → r'.inFlight) := by
    cases h.origin hw hr' with
    | born j eq =>
      have hnext : r'.id = w.db.jorb.next := by rw [eq]; rfl
      exact absurd ho.known (by omega)
    | kept mem =>
      exact ⟨ho.bound r' mem hid,
        fun heq => ho.flight r' mem (Jorb.heldBy_iff.mpr ⟨hid.symm, heq.symm⟩)⟩
    | @changed r mem same claimedAt runCount change =>
      have hrid : r.id = e.id := same.id.symm.trans hid
      have hle := ho.bound r mem hrid
      have hmono : r.runEpoch ≤ r'.runEpoch := by cases change <;> omega
      refine ⟨hle.trans hmono, fun heq => ?_⟩
      have hre : r.runEpoch = e.runEpoch := by omega
      have hflight := ho.flight r mem (Jorb.heldBy_iff.mpr ⟨hrid.symm, hre.symm⟩)
      exact change.inFlight_of_epoch hflight (heq.trans hre.symm)
    | @claimed session c r tx phase mem admits ends eq =>
      have hrid : r.id = e.id := by rw [← hid, eq]; rfl
      have hle := ho.bound r mem hrid
      have hsucc : r'.runEpoch = r.runEpoch + 1 := by rw [eq]; rfl
      exact ⟨by omega, fun heq => by omega⟩
  have same {r' : Jorb} (hr' : r' ∈ w'.db.jorb) (hid : r'.id = e.id) : SameJob e r' := by
    rcases (h.origin hw hr').source with hborn | ⟨r, hr, hsame, -⟩
    · exact absurd ho.known (by omega)
    · exact (ho.same r hr (hsame.id.symm.trans hid)).trans hsame
  refine ⟨ho.known.trans_le h.next_le, fun r' => same, fun r' hr' hid => (row hr' hid).1,
    fun r' hr' hheld => ?_⟩
  obtain ⟨hid, hepoch⟩ := Jorb.heldBy_iff.mp hheld
  exact (row hr' hid.symm).2 hepoch.symm

theorem Effect.execs_cases {w w' : World} {a : Act} (h : Effect w a w') :
    w'.execs = w.execs ∨ ∃ c : ClaimTx, ∃ r ∈ w.db.jorb,
      w'.execs = w.execs ++ [(c.args.claimed c.now).set r] ∧
        (c.args.claimed c.now).set r ∈ w'.db.jorb := by
  cases h with
  | @commit session jid c r _ _ act tx phase mem id jorb acked =>
    refine acked.imp_right fun ⟨_, h⟩ => ⟨c, r, mem, h, jorb ▸ ?_⟩
    exact Serial.mem_update.mpr ⟨r, mem, by simp [id]⟩
  | _ => exact .inl rfl

theorem Fenced.new {w w' : World} (hf : Fenced w) {c : ClaimTx} {r : Jorb} (hr : r ∈ w.db.jorb)
    (hmem : (c.args.claimed c.now).set r ∈ w'.db.jorb) :
    Owned w' ((c.args.claimed c.now).set r) ∧
      (r.id, r.runEpoch + 1) ∉ w.execs.map fun e => (e.id, e.runEpoch) := by
  have unique {r' : Jorb} (hr' : r' ∈ w'.db.jorb) (hid : r'.id = r.id) :
      r' = (c.args.claimed c.now).set r :=
    Serial.eq_of_ident hr' hmem hid
  refine ⟨⟨Serial.lt_next hmem, fun r' hr' hid => ?_, fun r' hr' hid => unique hr' hid ▸ le_rfl,
    fun r' hr' hheld => ?_⟩, fun hold => ?_⟩
  · exact unique hr' hid ▸ ⟨rfl, rfl, rfl, rfl, rfl, rfl⟩
  · exact unique hr' (Jorb.heldBy_iff.mp hheld).1.symm ▸ c.args.claimed_inFlight c.now r
  · obtain ⟨e, he, heq⟩ := List.mem_map.mp hold
    obtain ⟨hid, hepoch⟩ := Prod.mk.inj heq
    have := (hf.owned e he).bound r hr hid.symm
    omega

theorem Fenced.step {w w' : World} {a : Act} (hf : Fenced w) (hw : Locks w)
    (h : Effect w a w') : Fenced w' := by
  have old {e : Jorb} (he : e ∈ w.execs) : Owned w' e := (hf.owned e he).step hw h
  rcases h.execs_cases with heq | ⟨c, r, hr, heq, hmem⟩
  · exact ⟨fun e he => old (heq ▸ he), heq ▸ hf.distinct⟩
  · obtain ⟨howned, hfresh⟩ := hf.new hr hmem
    refine ⟨fun e he => ?_, ?_⟩
    · rcases List.mem_append.mp (heq ▸ he) with he | he
      · exact old he
      · exact List.mem_singleton.mp he ▸ howned
    · rw [heq, List.map_append]
      refine List.nodup_append.mpr ⟨hf.distinct, List.nodup_singleton _, ?_⟩
      rintro _ hx _ hy rfl
      have hnew : (_ : Nat × Nat) = (r.id, r.runEpoch + 1) := List.mem_singleton.mp hy
      exact hfresh (hnew ▸ hx)

theorem History.fenced {ρ : History} (hρ : ρ.Fresh) : ∀ n ≤ ρ.length, Fenced (ρ.state n) := by
  have hlocks := History.locks hρ
  obtain ⟨db, clock, queue, h0⟩ := hρ
  intro n
  induction n with
  | zero => exact fun _ => h0 ▸ Fenced.init db clock queue
  | succ n ih =>
    exact fun hn => (ih (Nat.le_of_succ_le hn)).step (hlocks n (Nat.le_of_succ_le hn))
      (World.step_effect (ρ.next n hn))

theorem History.epoch_mono {ρ : History} (hρ : ρ.Fresh) {n m : Nat} (hnm : n ≤ m)
    (hm : m ≤ ρ.length) {r r' : Jorb} (hr : r ∈ (ρ.state n).db.jorb)
    (hr' : r' ∈ (ρ.state m).db.jorb) (hid : r'.id = r.id) : r.runEpoch ≤ r'.runEpoch := by
  have hlocks := History.locks hρ
  have hsource : ∀ r' ∈ (ρ.state m).db.jorb, (ρ.state n).db.jorb.next ≤ r'.id ∨
      ∃ r ∈ (ρ.state n).db.jorb, r.id = r'.id ∧ r.runEpoch ≤ r'.runEpoch := by
    clear hr' hid
    induction hnm with
    | refl => exact fun r' hr' => .inr ⟨r', hr', rfl, le_rfl⟩
    | @step m hnm ih =>
      intro r' hr'
      have hnext := ρ.monotone (R := fun s t => s.db.jorb.next ≤ t.db.jorb.next)
        (fun _ => le_rfl) Nat.le_trans (fun h => (World.step_effect h).next_le) hnm
        (Nat.le_of_succ_le hm)
      rcases ((World.step_effect (ρ.next m hm)).origin
        (hlocks m (Nat.le_of_succ_le hm)) hr').source with hborn | ⟨s, hs, hsame, hle⟩
      · exact .inl (hnext.trans hborn)
      · rcases ih (Nat.le_of_succ_le hm) s hs with hborn | ⟨r, hr, hrs, hrle⟩
        · exact .inl (hsame.id ▸ hborn)
        · exact .inr ⟨r, hr, hrs.trans hsame.id.symm, hrle.trans hle⟩
  rcases hsource r' hr' with hborn | ⟨s, hs, hsid, hle⟩
  · exact absurd (Serial.lt_next hr) (by omega)
  · exact Serial.eq_of_ident hr hs (hid.symm.trans hsid.symm) ▸ hle

theorem Update.run_of_unmatched {u : Update} {db : Db} (h : ∀ r ∈ db.jorb, u.cond db r = false) :
    u.run db = db := by
  simp [Update.run, Serial.update_eq_self h]

theorem Stale.fence {w : World} {e : Jorb} (h : Stale w e) :
    w.db.fence e.id e.runEpoch = none := by
  refine Option.eq_none_iff_forall_ne_some.mpr fun r hr => ?_
  obtain ⟨hmem, hid, hepoch⟩ := Db.fence_eq_some.mp hr
  exact h r hmem hid hepoch

theorem Stale.unchanged {w w' : World} {e : Jorb} {a : Act} (hw : Locks w) (hs : Stale w e)
    (ha : Issues w e a) (h : w.step a = some w') : w'.db = w.db := by
  cases ha with
  | worker exec s =>
    simp only [World.step, exec, Option.bind_some] at h
    obtain ⟨w₁, hw₁, h⟩ := Option.map_eq_some_iff.mp h
    obtain ⟨-, rfl⟩ := World.update_eq_some.mp hw₁
    have hun : (s.update w.clock e.id e.runEpoch).run w.db = w.db :=
      Update.run_of_unmatched fun r hr => Bool.eq_false_iff.mpr fun hc => by
        obtain ⟨hid, -, hepoch⟩ := Jorb.attemptOf_iff.mp hc
        exact hs r hr hid hepoch
    cases s with
    | finished =>
      dsimp only at h
      split at h <;> exact h ▸ hun
    | _ => exact h ▸ hun
  | durable exec s =>
    simp only [World.step, exec, Option.bind_some, World.durable, hs.fence] at h
    simp only [Option.isSome_none, Bool.and_false] at h
    cases h
    exact s.run_of_fence hs.fence
  | compactFence exec session =>
    simp only [World.step, exec, Option.bind_some, World.compactFence, hs.fence] at h
    split at h
    · cases h
      rfl
    · cases h
  | compactSteps tx =>
    obtain ⟨r, hr, hid, hepoch⟩ := hw.compacting tx
    exact absurd hepoch (hs r hr hid)

theorem Fenced.holders_le_one {w : World} (hf : Fenced w) (r : Jorb) :
    (w.execs.filter r.heldBy).length ≤ 1 := by
  have hnd : ((w.execs.filter r.heldBy).map fun e => (e.id, e.runEpoch)).Nodup :=
    hf.distinct.sublist (List.filter_sublist.map _)
  have hall : ∀ x ∈ (w.execs.filter r.heldBy).map fun e => (e.id, e.runEpoch),
      x = (r.id, r.runEpoch) := by
    intro x hx
    obtain ⟨e, he, rfl⟩ := List.mem_map.mp hx
    obtain ⟨hid, hepoch⟩ := Jorb.heldBy_iff.mp (List.mem_filter.mp he).2
    exact Prod.ext hid hepoch
  have hrep := List.eq_replicate_of_mem hall
  rw [hrep, List.nodup_replicate, List.length_map] at hnd
  exact hnd

/-- Epochs never go down; a row's epoch is held by at most one execution, and by
none unless the row is claimed or running; and a statement of an execution whose
epoch is not the row's changes no table. -/
theorem epoch_fencing (ρ : History) (hρ : ρ.Fresh) :
    (∀ n m, n ≤ m → m ≤ ρ.length → ∀ r ∈ (ρ.state n).db.jorb, ∀ r' ∈ (ρ.state m).db.jorb,
      r'.id = r.id → r.runEpoch ≤ r'.runEpoch) ∧
    (∀ n ≤ ρ.length, ∀ r ∈ (ρ.state n).db.jorb,
      ((ρ.state n).execs.filter r.heldBy).length ≤ 1 ∧
        (r.inFlight = false → (ρ.state n).execs.filter r.heldBy = [])) ∧
    (∀ n ≤ ρ.length, ∀ e a w', Issues (ρ.state n) e a → Stale (ρ.state n) e →
      (ρ.state n).step a = some w' → w'.db = (ρ.state n).db) := by
  have hlocks := History.locks hρ
  have hfenced := History.fenced hρ
  refine ⟨fun n m hnm hm r hr r' hr' => History.epoch_mono hρ hnm hm hr hr',
    fun n hn r hr => ⟨(hfenced n hn).holders_le_one r, fun hidle => ?_⟩,
    fun n hn e a w' ha hs => Stale.unchanged (hlocks n hn) hs ha⟩
  refine List.filter_eq_nil_iff.mpr fun e he hheld => ?_
  have := ((hfenced n hn).owned e he).flight r hr hheld
  simp [hidle] at this

/-- A worker stalls past its deadline, the sweep requeues the job, a second
worker claims it, and the first comes back to finish it. -/
def supersededActs : List Act :=
  [.enqueue (.plain "q")] ++ Act.claim 0 (.plain "q") ++
    [.worker 0 (.run (some 5)), .tick 10, .supervise (.retryTimedOut 1 "late" 0)] ++
    Act.claim 0 (.plain "q") ++ [.worker 0 (.finished none)]

def supersededRun : History :=
  .ofList (.init .empty 0 fun _ => none) supersededActs (by decide)

theorem epoch_fencing_superseded :
    (supersededRun.state 10).execs.length = 2 ∧
      (supersededRun.state 11).db = (supersededRun.state 10).db := by
  refine ⟨by decide, ?_⟩
  obtain ⟨e, he⟩ : ∃ e, (supersededRun.state 10).execs[0]? = some e := ⟨_, rfl⟩
  refine (epoch_fencing supersededRun ⟨_, _, _, rfl⟩).2.2 10 (by decide) e _ _
    (.worker he (.finished none)) ?_ (supersededRun.next 10 (by decide))
  have hrows : ∀ r ∈ (supersededRun.state 10).db.jorb.rows,
      ∀ e ∈ (supersededRun.state 10).execs[0]?, r.id = e.id → r.runEpoch ≠ e.runEpoch := by
    decide
  exact fun r hr => hrows r hr e he

end Pyjobby
