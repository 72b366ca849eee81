import Pyjobby.ClaimJorb
import Pyjobby.Rows

/-! A queue all of whose rows are in one lane, its limits counted by lane and
counted over the queue. -/

namespace Pyjobby

open Relational

/-- The arguments of `set_queue_control`: `none` leaves a column alone, and a
limit can be set to NULL. -/
structure QueueControl where
  paused : Option Bool
  maxConcurrency : Option (Option Int)
  rateLimit : Option (Option Int)
  ratePeriod : Option Int
  partitionLimits : Option Bool

namespace QueueRow

def defaultRatePeriod : Int := 60 * 1000000

/-- The defaults of a queue without a control row. -/
def unlimited (name : String) : QueueRow where
  name := name
  paused := false
  maxConcurrency := none
  rateLimit := none
  ratePeriod := defaultRatePeriod
  partitionLimits := false

/-- `set_queue_control`: the control row it inserts, or what it makes of the one
there is. -/
def setQueueControl (name : String) (c : QueueControl) : Option QueueRow → QueueRow
  | none =>
    { name
      paused := c.paused.getD false
      maxConcurrency := c.maxConcurrency.join
      rateLimit := c.rateLimit.join
      ratePeriod := c.ratePeriod.getD defaultRatePeriod
      partitionLimits := c.partitionLimits.getD false }
  | some q =>
    { q with
      paused := c.paused.getD q.paused
      maxConcurrency := c.maxConcurrency.getD q.maxConcurrency
      rateLimit := c.rateLimit.getD q.rateLimit
      ratePeriod := c.ratePeriod.getD q.ratePeriod
      partitionLimits := c.partitionLimits.getD q.partitionLimits }

/-- `set_queue_control(name, partition_limits=flag)` on the control row `q`. -/
def setPartitionLimits (q : QueueRow) (flag : Bool) : QueueRow :=
  setQueueControl q.name ⟨none, none, none, none, some flag⟩ (some q)

theorem claimJorb_unlimited (db : Db) (a : ClaimArgs) (now : Int) (locked : Nat → Bool)
    (scan : Nat → Nat) :
    db.claimJorb (some (unlimited a.queue)) a now locked scan =
      db.claimJorb none a now locked scan := rfl

theorem controlled_of_mem_limits {q : QueueRow} {queue : String} {now : Int} {l : Limit}
    (h : l ∈ q.limits queue now) : q.controlled := by
  by_contra hq
  rw [limits_of_not_controlled (by simpa using hq)] at h
  cases h

theorem queue_of_counts {q : QueueRow} {queue : String} {now : Int} {l : Limit}
    (h : l ∈ q.limits queue now) {r : Jorb} (hr : l.counts r) : r.queue = queue := by
  revert r
  revert l
  rw [forall_limits]
  constructor
  · intro cap _ r hr
    simp only [Db.inFlightOn, Bool.and_eq_true, decide_eq_true_eq] at hr
    exact hr.1
  · intro cap _ r hr
    simp only [Db.admittedOn, Bool.and_eq_true, decide_eq_true_eq] at hr
    exact hr.1

end QueueRow

namespace Db

def SingleLane (db : Db) (queue : String) (lane : Option String) : Prop :=
  ∀ r ∈ db.jorb, r.queue = queue → r.partitionKey = lane

section SingleLane

variable {db : Db} {a : ClaimArgs} {now : Int} {locked : Nat → Bool} {scan : Nat → Nat}
  {lane : Option String} {q : QueueRow}

theorem SingleLane.count (h : db.SingleLane a.queue lane) {l : Limit}
    (hl : l ∈ q.limits a.queue now) (c : QueueRow) :
    db.jorb.count (c.counted l.counts lane) = db.jorb.count l.counts := by
  refine List.countP_congr fun r hr => ?_
  have hlane : l.counts r → r.partitionKey = lane :=
    fun hc => h r hr (QueueRow.queue_of_counts hl hc)
  cases hc : l.counts r with
  | false => simp [QueueRow.counted, hc]
  | true => simp [QueueRow.counted, hc, hlane hc]

theorem SingleLane.claimable_of_has (h : db.SingleLane a.queue lane) {blocked : Lanes}
    (hb : blocked.has lane) : db.claimable a now blocked locked = [] := by
  refine List.eq_nil_iff_forall_not_mem.mpr fun r hr => ?_
  obtain ⟨hmem, hadmits, hfree, -⟩ := mem_claimable.mp hr
  have hqueue : r.queue = a.queue := ClaimArgs.admits_queue hadmits
  rw [h r hmem hqueue, hb] at hfree
  cases hfree

theorem SingleLane.claimable_of_not_has (h : db.SingleLane a.queue lane) {blocked : Lanes}
    (hb : blocked.has lane = false) :
    db.claimable a now blocked locked = db.claimable a now .none locked := by
  refine List.filter_congr fun r hr => ?_
  cases hadmits : a.admits now r with
  | false => simp
  | true => simp [h r hr (ClaimArgs.admits_queue hadmits), hb]

theorem SingleLane.claimJorb_barred (h : db.SingleLane a.queue lane)
    (hbar : ∃ l ∈ q.limits a.queue now, q.Bars db lane l) :
    db.claimJorb (some q) a now locked scan = (db, none) := by
  cases hp : q.paused with
  | true => exact claimJorb_paused hp db a now locked scan
  | false =>
    have hnot : ¬∃ blocked, q.blockedLanes db a.queue now = some blocked ∧
        blocked.has lane = false := by
      rw [QueueRow.blockedLanes_passes]
      push Not
      exact hbar
    rw [claimJorb_unpaused hp]
    cases hb : q.blockedLanes db a.queue now with
    | none => rfl
    | some blocked =>
      have hhas : blocked.has lane := by
        by_contra hf
        exact hnot ⟨blocked, hb, by simpa using hf⟩
      exact claimFirst_of_nil (h.claimable_of_has hhas)

theorem SingleLane.claimJorb_open (h : db.SingleLane a.queue lane) (hp : q.paused = false)
    (hopen : ∀ l ∈ q.limits a.queue now, ¬q.Bars db lane l) :
    db.claimJorb (some q) a now locked scan = db.claimFirst a now .none locked scan := by
  obtain ⟨blocked, hb, hhas⟩ := QueueRow.blockedLanes_passes.mpr hopen
  rw [claimJorb_unpaused hp, hb]
  show db.claimFirst a now blocked locked scan = _
  rw [claimFirst, firstClaimable, h.claimable_of_not_has hhas]
  rfl

theorem SingleLane.bars_partitioned (h : db.SingleLane a.queue lane) {l : Limit}
    (hl : l ∈ q.limits a.queue now) :
    (q.setPartitionLimits true).Bars db lane l ↔
      l.cap ≤ db.jorb.count l.counts ∧ 0 < db.jorb.count l.counts := by
  have hpart : (q.setPartitionLimits true).partitioned := QueueRow.controlled_of_mem_limits hl
  rw [QueueRow.Bars, h.count hl]
  simp [hpart]

theorem SingleLane.bars_plain (h : db.SingleLane a.queue lane) {l : Limit}
    (hl : l ∈ q.limits a.queue now) :
    (q.setPartitionLimits false).Bars db lane l ↔ l.cap ≤ db.jorb.count l.counts := by
  have hplain : (q.setPartitionLimits false).partitioned = false := rfl
  rw [QueueRow.Bars, h.count hl]
  simp [hplain]

end SingleLane

end Db

/-- The two claims of a queue with one lane come to the same, but for a limit of
zero or less that counts no row: the queue over, it refuses every row, and by
lane none. -/
theorem partitioned_claim_eq_plain_iff {db : Db} {a : ClaimArgs} {lane : Option String}
    (h : db.SingleLane a.queue lane) (c : QueueControl) (old : Option QueueRow) (now : Int)
    (locked : Nat → Bool) (scan : Nat → Nat) :
    let q := QueueRow.setQueueControl a.queue c old
    db.claimJorb (some (q.setPartitionLimits true)) a now locked scan =
        db.claimJorb (some (q.setPartitionLimits false)) a now locked scan ↔
      q.paused ∨
        (∀ l ∈ q.limits a.queue now, l.cap ≤ 0 → 0 < db.jorb.count l.counts) ∨
        (∃ l ∈ q.limits a.queue now,
          0 < db.jorb.count l.counts ∧ l.cap ≤ db.jorb.count l.counts) ∨
        ∀ r ∈ db.jorb, a.admits now r → locked r.id := by
  intro q
  cases hp : q.paused with
  | true =>
    have hon : (q.setPartitionLimits true).paused := hp
    have hoff : (q.setPartitionLimits false).paused := hp
    simp [Db.claimJorb_paused hon, Db.claimJorb_paused hoff]
  | false =>
    have hon : (q.setPartitionLimits true).paused = false := hp
    have hoff : (q.setPartitionLimits false).paused = false := hp
    by_cases hreached : ∃ l ∈ q.limits a.queue now,
        0 < db.jorb.count l.counts ∧ l.cap ≤ db.jorb.count l.counts
    · obtain ⟨l, hl, hpos, hcap⟩ := hreached
      rw [h.claimJorb_barred (q := q.setPartitionLimits true)
          ⟨l, hl, (h.bars_partitioned hl).mpr ⟨hcap, hpos⟩⟩,
        h.claimJorb_barred (q := q.setPartitionLimits false)
          ⟨l, hl, (h.bars_plain hl).mpr hcap⟩]
      exact ⟨fun _ => .inr (.inr (.inl ⟨l, hl, hpos, hcap⟩)), fun _ => rfl⟩
    · have hlane : ∀ l ∈ q.limits a.queue now, ¬(q.setPartitionLimits true).Bars db lane l := by
        intro l hl hbar
        obtain ⟨hcap, hpos⟩ := (h.bars_partitioned hl).mp hbar
        exact hreached ⟨l, hl, hpos, hcap⟩
      rw [h.claimJorb_open hon hlane]
      by_cases hspent : ∃ l ∈ q.limits a.queue now, l.cap ≤ 0 ∧ db.jorb.count l.counts = 0
      · obtain ⟨l, hl, hcap, hzero⟩ := hspent
        have hbar : (q.setPartitionLimits false).Bars db lane l :=
          (h.bars_plain hl).mpr (by omega)
        rw [h.claimJorb_barred (q := q.setPartitionLimits false) ⟨l, hl, hbar⟩,
          Db.claimFirst_eq_self, Db.claimable_none_eq_nil]
        constructor
        · exact fun hall => .inr (.inr (.inr hall))
        · rintro (hcontra | hcounted | hcontra | hall)
          · cases hcontra
          · exact absurd (hcounted l hl hcap) (by omega)
          · exact absurd hcontra hreached
          · exact hall
      · push Not at hreached hspent
        have hplain : ∀ l ∈ q.limits a.queue now,
            ¬(q.setPartitionLimits false).Bars db lane l := by
          intro l hl hbar
          have hcap := (h.bars_plain hl).mp hbar
          have hnotReached := hreached l hl
          have hnotSpent := hspent l hl
          omega
        rw [h.claimJorb_open hoff hplain]
        refine ⟨fun _ => .inr (.inl fun l hl hcap => ?_), fun _ => rfl⟩
        exact Nat.pos_of_ne_zero (hspent l hl hcap)

def oneJobDb : Db := (Db.empty.enqueue 0 (.plain "q")).getD .empty

theorem oneJobDb_singleLane : oneJobDb.SingleLane "q" none := by
  intro r hr _
  have hall : ∀ r ∈ oneJobDb.jorb.rows, r.partitionKey = none := by decide
  exact hall r hr

def QueueControl.cap (cap : Int) : QueueControl := ⟨none, some (some cap), none, none, none⟩

theorem partitioned_claim_eq_plain_of_headroom :
    let q := QueueRow.setQueueControl "q" (.cap 1) none
    let claim flag :=
      oneJobDb.claimJorb (some (q.setPartitionLimits flag)) (.plain "q") 5 (fun _ => false) id
    claim true = claim false ∧ (claim true).2.isSome := by
  refine ⟨(partitioned_claim_eq_plain_iff oneJobDb_singleLane _ none 5 _ id).mpr ?_, by decide⟩
  refine .inr (.inl ?_)
  rw [QueueRow.forall_limits]
  constructor
  · intro cap hcap hle
    cases hcap
    exact absurd hle (by decide)
  · intro cap hcap
    cases hcap

/-- With a cap of zero the plain claim refuses the job and the partitioned one
takes it. -/
theorem zero_cap_claimed_by_lane :
    ¬∀ (db : Db) (a : ClaimArgs) (lane : Option String), db.SingleLane a.queue lane →
      ∀ (c : QueueControl) (old : Option QueueRow) (now : Int) (locked : Nat → Bool)
        (scan : Nat → Nat),
        let q := QueueRow.setQueueControl a.queue c old
        db.claimJorb (some (q.setPartitionLimits true)) a now locked scan =
          db.claimJorb (some (q.setPartitionLimits false)) a now locked scan := by
  intro h
  have hsame := h oneJobDb (.plain "q") none oneJobDb_singleLane (.cap 0) none 5
    (fun _ => false) id
  have hsome := congrArg (fun called => called.2.isSome) hsame
  revert hsome
  decide

end Pyjobby
