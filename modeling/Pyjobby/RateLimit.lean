import Pyjobby.Concurrency

/-! The rate limit. Admissions are not logged: a claim counts the rows whose
`claimed_at` lies in its window, so the law needs every row that still carries
an admission of the window to keep it. -/

namespace Pyjobby

open Relational Transition

/-- The admissions a rate limit of the queue counts for `lane`. -/
def Admission.counted (e : Admission) (queue : String) (ctl : QueueRow) (lane : Option String) :
    Bool :=
  e.queue = queue && (!ctl.partitioned || e.lane = lane)

namespace World

/-- How many claims of the queue (of its lane, where the limits are per lane)
have been admitted at times in `window`. -/
def admissions (w : World) (queue : String) (ctl : QueueRow) (lane : Option String)
    (window : Int → Bool) : Nat :=
  w.log.countP fun e => e.counted queue ctl lane && window e.at_

/-- No claim on the queue, open now or begun later, counts an admission at `t`. -/
def past (w : World) (queue : String) (period : Int) (t : Int) : Bool :=
  t + period ≤ w.clock && w.txs.rows.all fun tx =>
    match tx.body with
    | .claim c => c.args.queue ≠ queue || t + period ≤ c.now
    | .compact _ _ => true

def spent (w : World) (queue : String) (period : Int) (r : Jorb) : Bool :=
  r.claimedAt.all (w.past queue period)

theorem past_iff {w : World} {queue : String} {period : Int} {t : Int} :
    w.past queue period t ↔ t + period ≤ w.clock ∧
      ∀ s c, ⟨s, .claim c⟩ ∈ w.txs → c.args.queue = queue → t + period ≤ c.now := by
  simp only [past, Bool.and_eq_true, decide_eq_true_eq, List.all_eq_true]
  refine and_congr_right fun _ => ⟨fun h s c hc hq => ?_, fun h tx htx => ?_⟩
  · simpa [hq] using h _ hc
  · obtain ⟨s, c | _⟩ := tx
    · by_cases hq : c.args.queue = queue
      · simpa [hq] using h s c htx hq
      · simp [hq]
    · rfl

end World

/-- The step overwrites or deletes the admission the row carries. -/
def Act.erases (w : World) (r : Jorb) : Act → Bool
  | .delete batch => r.id ∈ batch
  | .claimCommit session _ => (w.claimTx session).any fun c => c.row = some r.id
  | _ => false

theorem Effect.keeps_admission {w w' : World} {a : Act} (h : Effect w a w') {r : Jorb}
    (hr : r ∈ w.db.jorb) :
    a.erases w r ∨ ∃ r' ∈ w'.db.jorb, SameJob r r' ∧ r'.claimedAt = r.claimedAt := by
  have stays : SameJob r r ∧ r.claimedAt = r.claimedAt := ⟨⟨rfl, rfl, rfl, rfl, rfl, rfl⟩, rfl⟩
  cases h with
  | quiet db clock queue jorb => exact .inr ⟨r, jorb ▸ hr, stays⟩
  | close session jorb => exact .inr ⟨r, jorb ▸ hr, stays⟩
  | opens => exact .inr ⟨r, hr, stays⟩
  | insert j => exact .inr ⟨r, Serial.mem_insert_of_mem (h := fun _ => rfl) hr, stays⟩
  | update db wakes u jorb free source =>
    refine .inr ⟨_, jorb ▸ Serial.mem_update.mpr ⟨r, hr, rfl⟩, ?_⟩
    split
    · exact ⟨(source.sound.keeps r).1, (source.sound.keeps r).2.1⟩
    · exact stays
  | delete batch act =>
    by_cases hb : r.id ∈ batch
    · exact .inl (by simp [act, Act.erases, hb])
    · exact .inr ⟨r, Serial.mem_delete.mpr ⟨hr, by simpa using hb⟩, stays⟩
  | @commit session jid c s _ _ act tx phase mem id jorb =>
    obtain ⟨ack, rfl⟩ := act
    by_cases hid : r.id = jid
    · exact .inl (by simp [Act.erases, tx, ClaimTx.row, phase, hid])
    · exact .inr ⟨r, jorb ▸ Serial.mem_update.mpr ⟨r, hr, by simp [hid]⟩, stays⟩

/-- What a committing claim writes to the log, and the row it leaves behind. -/
structure Admits (w w' : World) (s : Nat) (c : ClaimTx) (e : Admission) : Prop where
  tx : ⟨s, .claim c⟩ ∈ w.txs
  phase : c.phase = .picked e.jid
  queue : c.args.queue = e.queue
  at_ : e.at_ = c.now
  lane : ∃ r ∈ w.db.jorb, r.id = e.jid ∧ r.partitionKey = e.lane
  row : ∃ r ∈ w'.db.jorb, r.id = e.jid ∧ r.queue = e.queue ∧ r.partitionKey = e.lane ∧
    r.claimedAt = some e.at_
  ends : w'.txs = (w.closeTx s).txs
  log : w'.log = w.log ++ [e]

theorem Effect.log_cases {w w' : World} {a : Act} (h : Effect w a w') (hw : Locks w) :
    w'.log = w.log ∨ ∃ s c e, Admits w w' s c e ∧
      ∀ r ∈ w.db.jorb, r.id = e.jid → a.erases w r := by
  cases h with
  | @commit session jid c r _ _ act tx phase mem id jorb =>
    have hadmits := hw.commit_admits tx phase mem id
    obtain ⟨ack, rfl⟩ := act
    refine .inr ⟨session, c, ⟨jid, r.queue, r.partitionKey, c.now⟩, ⟨World.claimTx_eq_some.mp tx,
      phase, (ClaimArgs.admits_queue hadmits).symm, rfl, ⟨r, mem, id, rfl⟩, ?_, rfl, rfl⟩, ?_⟩
    · exact ⟨(c.args.claimed c.now).set r, jorb ▸ Serial.mem_update.mpr ⟨r, mem, by simp [id]⟩,
        id, rfl, rfl, rfl⟩
    · intro s _ hs
      simp [Act.erases, tx, ClaimTx.row, phase, hs]
  | _ => exact .inl rfl

section Rate

variable {queue : String} {ctl : QueueRow} {limit : Int}

theorem past_step {w w' : World} {a : Act} {period : Int} {t : Int} (h : Effect w a w')
    (ht : w.past queue period t) : w'.past queue period t := by
  obtain ⟨hclock, htx⟩ := World.past_iff.mp ht
  refine World.past_iff.mpr ⟨hclock.trans h.clock_le, fun s c hc hq => ?_⟩
  rcases h.tx_cases hc with hc | ⟨hopens, -⟩
  · exact htx s c hc hq
  · rcases hopens.claim_cases with ⟨-, hnow, -⟩ | ⟨d, hd, hargs, -, hnow⟩
    · exact hnow ▸ hclock
    · exact hnow ▸ htx s d hd (hargs ▸ hq)

/-- Every admission that still counts is the `claimed_at` of its row, and of no
two such admissions is one the other's row. -/
structure Backed (w : World) (queue : String) (period : Int) : Prop where
  row : ∀ e ∈ w.log, e.queue = queue → w.past queue period e.at_ ∨
    ∃ r ∈ w.db.jorb, r.id = e.jid ∧ r.queue = queue ∧ r.partitionKey = e.lane ∧
      r.claimedAt = some e.at_
  distinct : w.log.Pairwise fun e f => e.queue = queue → f.queue = queue → e.jid = f.jid →
    w.past queue period e.at_

theorem Backed.step {w w' : World} {a : Act} {period : Int} (hb : Backed w queue period)
    (hw : Locks w) (h : Effect w a w')
    (hkept : ∀ r ∈ w.db.jorb, r.queue = queue → a.erases w r → w.spent queue period r) :
    Backed w' queue period := by
  have old {e : Admission} (he : e ∈ w.log) (hq : e.queue = queue) :
      w'.past queue period e.at_ ∨ ∃ r ∈ w'.db.jorb, r.id = e.jid ∧ r.queue = queue ∧
        r.partitionKey = e.lane ∧ r.claimedAt = some e.at_ := by
    rcases hb.row e he hq with hpast | ⟨r, hr, hid, hrq, hlane, hat⟩
    · exact .inl (past_step h hpast)
    · rcases h.keeps_admission hr with herase | ⟨r', hr', same, hat'⟩
      · have hspent := hkept r hr hrq herase
        simp only [World.spent, hat, Option.all_some] at hspent
        exact .inl (past_step h hspent)
      · exact .inr ⟨r', hr', same.id.trans hid, same.queue.trans hrq, same.lane.trans hlane,
          hat'.trans hat⟩
  have olds : w.log.Pairwise fun e f => e.queue = queue → f.queue = queue → e.jid = f.jid →
      w'.past queue period e.at_ :=
    hb.distinct.imp fun hef he hf hid => past_step h (hef he hf hid)
  rcases h.log_cases hw with hlog | ⟨s, c, e, hadm, herases⟩
  · exact ⟨fun e he => old (hlog ▸ he), hlog ▸ olds⟩
  refine ⟨fun f hf hq => ?_, ?_⟩
  · rcases List.mem_append.mp (hadm.log ▸ hf) with hf | hf
    · exact old hf hq
    · obtain rfl := List.mem_singleton.mp hf
      obtain ⟨r, hr, hid, hrq, hrest⟩ := hadm.row
      exact .inr ⟨r, hr, hid, hrq.trans hq, hrest⟩
  · rw [hadm.log, List.pairwise_append]
    refine ⟨olds, List.pairwise_singleton _ _, fun f hf g hg hfq hgq hid => ?_⟩
    obtain rfl := List.mem_singleton.mp hg
    rcases hb.row f hf hfq with hpast | ⟨r, hr, hrid, hrq, -, hat⟩
    · exact past_step h hpast
    · have hspent := hkept r hr hrq (herases r hr (hrid.trans hid))
      simp only [World.spent, hat, Option.all_some] at hspent
      exact past_step h hspent

theorem Backed.admissions_le {w : World} (hb : Backed w queue ctl.ratePeriod) {s : Nat}
    {c : ClaimTx} (hc : ⟨s, .claim c⟩ ∈ w.txs) (hq : c.args.queue = queue)
    (lane : Option String) :
    w.admissions queue ctl lane (c.now - ctl.ratePeriod < ·) ≤
      w.db.jorb.count (ctl.counted (Db.admittedOn queue ctl.ratePeriod c.now) lane) := by
  have live {e : Admission} (he : c.now - ctl.ratePeriod < e.at_) :
      ¬w.past queue ctl.ratePeriod e.at_ := fun hpast => by
    have := (World.past_iff.mp hpast).2 s c hc hq
    omega
  rw [World.admissions, List.countP_eq_length_filter]
  refine Table.length_le_count (f := Admission.jid) ?_ fun e he => ?_
  · refine List.pairwise_map.mpr ((hb.distinct.filter _).imp_of_mem fun {e f} he hf hef hid => ?_)
    obtain ⟨-, hin⟩ := List.mem_filter.mp he
    obtain ⟨-, hin'⟩ := List.mem_filter.mp hf
    simp only [Admission.counted, Bool.and_eq_true, decide_eq_true_eq] at hin hin'
    exact live hin.2 (hef hin.1.1 hin'.1.1 hid)
  · obtain ⟨hmem, hin⟩ := List.mem_filter.mp he
    simp only [Admission.counted, Bool.and_eq_true, decide_eq_true_eq] at hin
    rcases hb.row e hmem hin.1.1 with hpast | ⟨r, hr, hid, hrq, hlane, hat⟩
    · exact absurd hpast (live hin.2)
    · refine ⟨r, hr, ?_, hid⟩
      simp only [QueueRow.counted, Db.admittedOn, hat, hlane, hrq, Option.any_some,
        Bool.and_eq_true, decide_eq_true_eq]
      exact ⟨⟨trivial, hin.2⟩, hin.1.2⟩

def ClaimTx.rateChecked (c : ClaimTx) : Prop :=
  (∃ blocked, c.phase = .admitting blocked) ∨ ∃ jid, c.phase = .picked jid

/-- A claim past the rate check that lets a lane through has room in its window. -/
def RateRoom (w : World) (queue : String) (ctl : QueueRow) (limit : Int) : Prop :=
  ∀ s c lane, ⟨s, .claim c⟩ ∈ w.txs → c.args.queue = queue → c.Lets w lane → c.rateChecked →
    (w.admissions queue ctl lane (c.now - ctl.ratePeriod < ·) : Int) < limit

theorem QueueRow.controlled_of_rate (hctl : ctl.rateLimit = some limit) : ctl.controlled := by
  simp [QueueRow.controlled, hctl]

theorem admissions_append {w w' : World} {e : Admission} (hlog : w'.log = w.log ++ [e])
    (lane : Option String) (window : Int → Bool) :
    w'.admissions queue ctl lane window = w.admissions queue ctl lane window +
      if e.counted queue ctl lane && window e.at_ then 1 else 0 := by
  simp [World.admissions, hlog, List.countP_append, List.countP_singleton]

theorem RateRoom.opens {w : World} (hr : RateRoom w queue ctl limit)
    (hb : Backed w queue ctl.ratePeriod) (hctl : ctl.rateLimit = some limit) (hlimit : 1 ≤ limit)
    (hcr : ControlRead w queue ctl) (hq : w.queue queue = some ctl) {s : Nat} {c : ClaimTx}
    (h : Opens w ⟨s, .claim c⟩) (hqueue : c.args.queue = queue) {lane : Option String}
    (hl : c.Lets (w.openTx ⟨s, .claim c⟩) lane) (hchecked : c.rateChecked) :
    (w.admissions queue ctl lane (c.now - ctl.ratePeriod < ·) : Int) < limit := by
  cases h with
  | begin =>
    subst hqueue
    simp [ClaimTx.Lets, hq, QueueRow.controlled_of_rate hctl] at hl
  | lock => exact hl.elim
  | capInFlight => simp [ClaimTx.rateChecked] at hchecked
  | @capRate _ c q full lanes tx phase control check =>
    have hmem := World.claimTx_eq_some.mp tx
    obtain rfl : q = ctl := Option.some.inj (control.symm.trans (hcr s c hmem hqueue))
    have hlanes : lanes.has lane = false := by
      simp only [ClaimTx.Lets, Lanes.has_union, Bool.or_eq_false_iff] at hl
      exact hl.2
    have hle := hb.admissions_le hmem hqueue lane
    rw [QueueRow.capRate, hctl] at check
    subst hqueue
    have hlt := QueueRow.check_headroom hlimit check hlanes
    exact lt_of_le_of_lt (Int.ofNat_le.mpr hle) hlt
  | @pick _ c blocked skip scan j tx phase skips first =>
    obtain ⟨hmem, -, hlane, -⟩ := Db.mem_claimable.mp (Db.firstClaimable_mem first)
    obtain ⟨r, hr', hid, hrl⟩ := hl
    obtain rfl : r = j := Serial.eq_of_ident hr' hmem hid
    subst hrl
    exact hr s c _ (World.claimTx_eq_some.mp tx) hqueue (by simpa [ClaimTx.Lets, phase])
      (.inl ⟨blocked, phase⟩)

theorem RateRoom.step {w w' : World} {a : Act} (hr : RateRoom w queue ctl limit) (hw : Locks w)
    (hb : Backed w queue ctl.ratePeriod) (hctl : ctl.rateLimit = some limit) (hlimit : 1 ≤ limit)
    (hcr : ControlRead w queue ctl) (hq : w.queue queue = some ctl) (h : Effect w a w') :
    RateRoom w' queue ctl limit := by
  intro s c lane ht hqueue hl hchecked
  rcases h.tx_cases ht with ht₀ | ⟨hopens, rfl⟩
  · have hlets := hl.before hw h ht₀
    have hlt := hr s c lane ht₀ hqueue hlets hchecked
    rcases h.log_cases hw with hlog | ⟨t, d, e, hadm, -⟩
    · simpa only [World.admissions, hlog] using hlt
    · have hother : e.queue ≠ queue := by
        intro heq
        obtain ⟨rfl, rfl⟩ := hw.claim_unique hcr (QueueRow.controlled_of_rate hctl) ht₀ hadm.tx
          hqueue (hadm.queue.trans heq) hlets.past (by simp [hadm.phase])
        exact (World.mem_closeTx.mp (hadm.ends ▸ ht)).2 rfl
      rw [admissions_append hadm.log]
      simpa [Admission.counted, hother] using hlt
  · exact hr.opens hb hctl hlimit hcr hq hopens hqueue hl hchecked

/-- No window of the period's length holds more than `limit` admissions. -/
def WithinLimit (w : World) (queue : String) (ctl : QueueRow) (limit : Int) : Prop :=
  ∀ lane from_, (w.admissions queue ctl lane
    (fun t => from_ ≤ t && t < from_ + ctl.ratePeriod) : Int) ≤ limit

theorem WithinLimit.step {w w' : World} {a : Act} (hl : WithinLimit w queue ctl limit)
    (hr : RateRoom w queue ctl limit) (hw : Locks w) (h : Effect w a w') :
    WithinLimit w' queue ctl limit := by
  intro lane from_
  rcases h.log_cases hw with hlog | ⟨s, c, e, hadm, -⟩
  · simpa only [World.admissions, hlog] using hl lane from_
  rw [admissions_append hadm.log]
  split
  · rename_i hin
    simp only [Admission.counted, Bool.and_eq_true, Bool.or_eq_true, decide_eq_true_eq] at hin
    obtain ⟨⟨hqueue, hlane⟩, hfrom, hto⟩ := hin
    have hroom := hr s c e.lane hadm.tx (hadm.queue.trans hqueue)
      (by simpa only [ClaimTx.Lets, hadm.phase] using hadm.lane) (.inr ⟨_, hadm.phase⟩)
    have hle : w.admissions queue ctl lane (fun t => from_ ≤ t && t < from_ + ctl.ratePeriod) ≤
        w.admissions queue ctl e.lane (c.now - ctl.ratePeriod < ·) := by
      refine List.countP_mono_left fun f _ hf => ?_
      simp only [Admission.counted, Bool.and_eq_true, Bool.or_eq_true, decide_eq_true_eq] at hf ⊢
      have := hadm.at_
      refine ⟨⟨hf.1.1, ?_⟩, by omega⟩
      rcases hlane with hplain | hlane
      · exact .inl hplain
      · exact hf.1.2.imp_right fun hfl => hfl.trans hlane.symm
    omega
  · simpa using hl lane from_

theorem History.within_limit {ρ : History} (hρ : ρ.Fresh) (hfix : ρ.ControlFixed queue ctl)
    (hctl : ctl.rateLimit = some limit) (hlimit : 1 ≤ limit)
    (hkept : ∀ n < ρ.length, ∀ r ∈ (ρ.state n).db.jorb, r.queue = queue →
      (ρ.act n).erases (ρ.state n) r → (ρ.state n).spent queue ctl.ratePeriod r) :
    ∀ n ≤ ρ.length, Backed (ρ.state n) queue ctl.ratePeriod ∧
      RateRoom (ρ.state n) queue ctl limit ∧ WithinLimit (ρ.state n) queue ctl limit := by
  have hlocks := History.locks hρ
  have hcr := History.controlRead hρ hfix
  intro n
  induction n with
  | zero =>
    obtain ⟨db, clock, queues, h0⟩ := hρ
    rw [h0]
    refine fun _ => ⟨⟨by simp [World.init], .nil⟩, by simp [RateRoom, World.init],
      fun lane from_ => ?_⟩
    simp only [World.admissions, World.init, List.countP_nil]
    omega
  | succ n ih =>
    intro hn
    have hle := Nat.le_of_succ_le hn
    obtain ⟨hb, hr, hl⟩ := ih hle
    have hstep := World.step_effect (ρ.next n hn)
    exact ⟨hb.step (hlocks n hle) hstep (hkept n hn),
      hr.step (hlocks n hle) hb hctl hlimit (hcr n hle) (hfix n hle) hstep,
      hl.step hr (hlocks n hle) hstep⟩

end Rate

/-- In a run none of whose steps re-claims or deletes a row of the queue while its
admission can still be counted, no window of one rate period holds more than
`limit` claims of the queue, or of any one of its lanes where limits are per lane. -/
theorem rate_limit_exact (ρ : History) (hρ : ρ.Fresh) (queue : String) (ctl : QueueRow)
    (hfix : ρ.ControlFixed queue ctl) (limit : Int) (hctl : ctl.rateLimit = some limit)
    (hlimit : 1 ≤ limit)
    (hkept : ∀ n < ρ.length, ∀ r ∈ (ρ.state n).db.jorb, r.queue = queue →
      (ρ.act n).erases (ρ.state n) r → (ρ.state n).spent queue ctl.ratePeriod r) :
    ∀ n ≤ ρ.length, ∀ lane from_, ((ρ.state n).admissions queue ctl lane
      (fun t => from_ ≤ t && t < from_ + ctl.ratePeriod) : Int) ≤ limit :=
  fun n hn => (History.within_limit hρ hfix hctl hlimit hkept n hn).2.2

def rateControl : QueueRow := ⟨"q", false, none, some 2, 60000000, false⟩

/-- Three jobs: two claimed at once, the third when the minute is over. -/
def rateActs : List Act :=
  [.enqueue (.plain "q"), .enqueue (.plain "q"), .enqueue (.plain "q")] ++
    Act.controlledClaim 0 (.plain "q") ++ Act.controlledClaim 0 (.plain "q") ++ [.tick 60000000] ++
    Act.controlledClaim 0 (.plain "q")

def rateRun : History := .ofList (.init .empty 0 fun _ => some rateControl) rateActs (by decide)

theorem rate_limit_exact_three :
    (rateRun.state 22).log.length = 3 ∧ ∀ n ≤ 22, ∀ lane from_,
      ((rateRun.state n).admissions "q" rateControl lane
        (fun t => from_ ≤ t && t < from_ + 60000000) : Int) ≤ 2 := by
  refine ⟨by decide, rate_limit_exact rateRun ⟨_, _, _, rfl⟩ "q" rateControl
    (by unfold History.ControlFixed; decide) 2 rfl (by decide) ?_⟩
  have hkept : ∀ n < 22, ∀ r ∈ (rateRun.state n).db.jorb.rows, r.queue = "q" →
      (rateRun.act n).erases (rateRun.state n) r → (rateRun.state n).spent "q" 60000000 r := by
    decide
  exact hkept

/-- One job that fails and is retried at once: each claim overwrites the last one's time. -/
def retriedActs : List Act :=
  [.enqueue (.plain "q")] ++ Act.controlledClaim 0 (.plain "q") ++
    [.worker 0 (.run none), .tick 1000000, .worker 0 (.retry 0 "boom" "")] ++
    Act.controlledClaim 0 (.plain "q") ++
    [.worker 1 (.run none), .tick 1000000, .worker 1 (.retry 0 "boom" "")] ++
    Act.controlledClaim 0 (.plain "q")

def retriedRun : History :=
  .ofList (.init .empty 0 fun _ => some rateControl) retriedActs (by decide)

theorem rate_limit_exceeded :
    ¬∀ ρ : History, ρ.Fresh → ∀ queue ctl, ρ.ControlFixed queue ctl → ∀ limit,
      ctl.rateLimit = some limit → 1 ≤ limit → ∀ n ≤ ρ.length, ∀ lane from_,
        ((ρ.state n).admissions queue ctl lane
          (fun t => from_ ≤ t && t < from_ + ctl.ratePeriod) : Int) ≤ limit := by
  intro h
  have hle := h retriedRun ⟨_, _, _, rfl⟩ "q" rateControl
    (by unfold History.ControlFixed; decide) 2 rfl (by decide) 25 (by decide) none 0
  have hthree : (retriedRun.state 25).admissions "q" rateControl none
      (fun t => 0 ≤ t && t < 0 + rateControl.ratePeriod) = 3 := by decide
  omega

end Pyjobby
