import Pyjobby.Explain

/-! `unclaimable_jobs`: over the whole fleet, the jobs that no live worker of
their queue accepts, and how the sweep agrees with `explain_job`. -/

namespace Pyjobby

open Relational

/-- `UNCLAIMABLE_REASONS`, in the order of the report. -/
def unclaimableReasons : List ExplainReason :=
  [.aboveWorkerCeiling, .capabilityUnmet, .appVersionUnmet]

/-- `array_agg(DISTINCT ..)`. -/
def distinctTexts (texts : List String) : List String := texts.dedup.insertionSort (· ≤ ·)

theorem mem_distinctTexts {texts : List String} {t : String} :
    t ∈ distinctTexts texts ↔ t ∈ texts := by
  rw [distinctTexts, (List.perm_insertionSort _ _).mem_iff, List.mem_dedup]

/-- A row of `fleet`: what the live workers of one queue accept among them. -/
structure FleetRow where
  queue : String
  liveWorkers : Nat
  maxCeiling : Option Int
  advertised : List String
  versions : List String

namespace FleetRow

/-- The condition of an arm of `blocked`; a later arm restates the complement of
those before it. -/
def blocks (f : FleetRow) (reason : ExplainReason) (j : Jorb) : Bool :=
  match reason with
  | .aboveWorkerCeiling => f.maxCeiling.any (· < j.prio)
  | .capabilityUnmet => f.maxCeiling.any (j.prio ≤ ·) && j.capability.any (· ∉ f.advertised)
  | .appVersionUnmet =>
    f.maxCeiling.any (j.prio ≤ ·) && j.capability.all (· ∈ f.advertised) &&
      j.appVersion.any (· ∉ f.versions)
  | _ => false

def slice (f : FleetRow) (now : Int) (reason : ExplainReason) (j : Jorb) : Bool :=
  j.queue = f.queue && j.state = .queued && j.runAfter ≤ now && f.blocks reason j

end FleetRow

structure BlockedRow where
  fleet : FleetRow
  reason : ExplainReason
  job : Jorb

inductive UnclaimableDetails where
  | ceiling (maxLiveCeiling lowestBlockedPrio highestBlockedPrio : Option Int)
  | capability (missing advertised : List String)
  | appVersion (missing advertised : List String)

/-- A record of the report, one for each queue and cause. -/
structure UnclaimableRecord where
  queue : String
  reason : ExplainReason
  count : Nat
  countCapped : Bool
  liveWorkers : Nat
  sampleJobIds : List Nat
  details : UnclaimableDetails

namespace FleetRow

def unclaimableDetails (f : FleetRow) (reason : ExplainReason) (jobs : List Jorb) :
    UnclaimableDetails :=
  match reason with
  | .aboveWorkerCeiling =>
    .ceiling f.maxCeiling (jobs.map Jorb.prio).min? (jobs.map Jorb.prio).max?
  | .appVersionUnmet => .appVersion (distinctTexts (jobs.filterMap Jorb.appVersion)) f.versions
  | _ => .capability (distinctTexts (jobs.filterMap Jorb.capability)) f.advertised

/-- A group without a row gives no record. -/
def record (f : FleetRow) (scanLimit sampleLimit : Nat) (reason : ExplainReason)
    (jobs : List Jorb) : Option UnclaimableRecord :=
  if jobs = [] then none
  else
    some
      { queue := f.queue
        reason := reason
        count := jobs.length
        countCapped := scanLimit ≤ jobs.length
        liveWorkers := f.liveWorkers
        sampleJobIds :=
          ((jobs.insertionSort fun j k => toLex (j.prio, j.id) ≤ toLex (k.prio, k.id)).map
            Jorb.id).take sampleLimit
        details := f.unclaimableDetails reason jobs }

end FleetRow

namespace Db

def fleetOn (db : Db) (now grace : Int) (queue : String) : FleetRow :=
  let live := db.worker.rows.filter (·.liveOn queue now grace)
  { queue := queue
    liveWorkers := live.length
    maxCeiling := (live.map WorkerRow.maxPrio).max?
    advertised := distinctTexts (live.flatMap WorkerRow.capabilities)
    versions := distinctTexts (live.filterMap WorkerRow.appVersion) }

/-- `GROUP BY w.queue`: a queue without a live worker has no row. -/
def fleet (db : Db) (now grace : Int) : List FleetRow :=
  (distinctTexts ((db.worker.rows.filter (·.live now grace)).map WorkerRow.queue)).map
    (db.fleetOn now grace)

/-- Rows of one `prio` and `run_after` come in the order of the table. -/
def arm (db : Db) (now : Int) (scanLimit : Nat) (reason : ExplainReason) (f : FleetRow) :
    List Jorb :=
  ((db.jorb.rows.filter (f.slice now reason)).insertionSort fun j k =>
    toLex (j.prio, j.runAfter) ≤ toLex (k.prio, k.runAfter)).take scanLimit

def blocked (db : Db) (now grace : Int) (scanLimit : Nat) : List BlockedRow :=
  unclaimableReasons.flatMap fun reason => (db.fleet now grace).flatMap fun f =>
    (db.arm now scanLimit reason f).map fun j => ⟨f, reason, j⟩

/-- The jobs of `blocked` in the group of `queue` and `reason`. -/
def group (db : Db) (now grace : Int) (scanLimit : Nat) (queue : String) (reason : ExplainReason) :
    List Jorb :=
  ((db.blocked now grace scanLimit).filter fun b =>
    b.fleet.queue = queue && b.reason = reason).map BlockedRow.job

def unclaimableJobs (db : Db) (now grace : Int) (scanLimit sampleLimit : Nat) :
    List UnclaimableRecord :=
  (db.fleet now grace).flatMap fun f => unclaimableReasons.filterMap fun reason =>
    f.record scanLimit sampleLimit reason (db.group now grace scanLimit f.queue reason)

/-- The sweep counts the job under `reason`. -/
def CountedUnder (db : Db) (now grace : Int) (scanLimit : Nat) (r : Jorb) (reason : ExplainReason) :
    Prop :=
  ∃ b ∈ db.blocked now grace scanLimit, b.job = r ∧ b.reason = reason

/-- The job is due on the queue and under some cause blocked there. -/
def blockedOn (db : Db) (now grace : Int) (queue : String) (j : Jorb) : Bool :=
  unclaimableReasons.any fun reason => (db.fleetOn now grace queue).slice now reason j

def explainedAs (db : Db) (queues : String → Option QueueRow) (now grace : Int) (queue : String)
    (reason : ExplainReason) (j : Jorb) : Bool :=
  j.queue = queue && (db.explainJob queues now grace j.id).any (·.reason = reason)

section Unclaimable

variable {db : Db} {now grace : Int} {scanLimit sampleLimit : Nat} {r : Jorb}
  {reason : ExplainReason}

theorem any_max_lt_iff {live : List WorkerRow} (hlive : live.length ≠ 0) :
    (live.map WorkerRow.maxPrio).max?.any (· < r.prio) ↔ live.countP (·.atPrio r) = 0 := by
  cases hmax : (live.map WorkerRow.maxPrio).max? with
  | none => simp_all
  | some m =>
    have hle := List.max?_le_iff hmax (x := r.prio - 1)
    simp only [List.mem_map, forall_exists_index, and_imp, forall_apply_eq_imp_iff₂] at hle
    simp only [Option.any_some, decide_eq_true_eq, List.countP_eq_zero, WorkerRow.atPrio, not_le]
    constructor
    · intro h w hw
      have := hle.mp (by omega) w hw
      omega
    · intro h
      have := hle.mpr fun w hw => by have := h w hw; omega
      omega

theorem any_le_max_iff {live : List WorkerRow} (hlive : live.length ≠ 0) :
    (live.map WorkerRow.maxPrio).max?.any (r.prio ≤ ·) ↔ live.countP (·.atPrio r) ≠ 0 := by
  have hmax := any_max_lt_iff (r := r) hlive
  cases h : (live.map WorkerRow.maxPrio).max? with
  | none => simp_all
  | some m =>
    rw [h] at hmax
    rw [ne_eq, ← hmax]
    simp

theorem capability_unmet_iff {live : List WorkerRow} :
    r.capability.any (· ∉ distinctTexts (live.flatMap WorkerRow.capabilities)) ↔
      (r.capability.isSome && live.countP (·.capable r) = 0) := by
  cases hcap : r.capability with
  | none => simp
  | some c => simp [mem_distinctTexts, WorkerRow.capable, hcap, List.countP_eq_zero]

theorem version_unmet_iff {live : List WorkerRow} :
    r.appVersion.any (· ∉ distinctTexts (live.filterMap WorkerRow.appVersion)) ↔
      (r.appVersion.isSome && live.countP (·.versioned r) = 0) := by
  cases hver : r.appVersion with
  | none => simp
  | some v => simp [mem_distinctTexts, WorkerRow.versioned, hver, List.countP_eq_zero,
      @eq_comm _ (some v)]

theorem all_mem_iff (req : Option String) (texts : List String) :
    req.all (· ∈ texts) ↔ ¬req.any (· ∉ texts) := by
  cases req <;> simp

/-- The aggregates of the fleet say what the counts over its workers say, for
the first cause that applies. -/
theorem blocks_iff {live : List WorkerRow}
    (heq : live = db.worker.rows.filter (·.liveOn r.queue now grace)) (hlive : live.length ≠ 0) :
    let above := live.countP (·.atPrio r) = 0
    let unequipped := r.capability.isSome && live.countP (·.capable r) = 0
    let unpinned := r.appVersion.isSome && live.countP (·.versioned r) = 0
    let f := db.fleetOn now grace r.queue
    (f.blocks .aboveWorkerCeiling r ↔ above) ∧
      (f.blocks .capabilityUnmet r ↔ ¬above ∧ unequipped) ∧
      (f.blocks .appVersionUnmet r ↔ ¬above ∧ ¬unequipped ∧ unpinned) := by
  intro above unequipped unpinned f
  have hf : f = ⟨r.queue, live.length, (live.map WorkerRow.maxPrio).max?,
      distinctTexts (live.flatMap WorkerRow.capabilities),
      distinctTexts (live.filterMap WorkerRow.appVersion)⟩ := by
    rw [heq]
    rfl
  rw [hf]
  simp only [above, unequipped, unpinned, FleetRow.blocks, Bool.and_eq_true, any_max_lt_iff hlive,
    any_le_max_iff hlive, all_mem_iff, capability_unmet_iff, version_unmet_iff, and_assoc, ne_eq,
    and_self]

theorem explainQueued_iff (hreason : reason ∈ unclaimableReasons) (hdue : r.runAfter ≤ now)
    {control : Option QueueRow} (hpaused : (control.getD (.unlimited r.queue)).paused = false)
    (hlive : (db.worker.rows.filter (·.liveOn r.queue now grace)).length ≠ 0) :
    (db.explainQueued control now grace r).reason = reason ↔
      (db.fleetOn now grace r.queue).blocks reason r := by
  obtain ⟨habove, hunequipped, hunpinned⟩ := blocks_iff rfl hlive
  simp only [unclaimableReasons, List.mem_cons, List.not_mem_nil, or_false] at hreason
  simp only [explainQueued, not_lt.mpr hdue, hpaused, hlive, if_false, Bool.false_eq_true]
  split
  · next hprio =>
    rcases hreason with rfl | rfl | rfl
    · exact iff_of_true rfl (habove.mpr hprio)
    · exact iff_of_false (fun h => by cases h) fun h => (hunequipped.mp h).1 hprio
    · exact iff_of_false (fun h => by cases h) fun h => (hunpinned.mp h).1 hprio
  next hprio =>
  split
  · next hcap =>
    rcases hreason with rfl | rfl | rfl
    · exact iff_of_false (fun h => by cases h) fun h => hprio (habove.mp h)
    · exact iff_of_true rfl (hunequipped.mpr ⟨hprio, hcap⟩)
    · exact iff_of_false (fun h => by cases h) fun h => (hunpinned.mp h).2.1 hcap
  next hcap =>
  split
  · next hver =>
    rcases hreason with rfl | rfl | rfl
    · exact iff_of_false (fun h => by cases h) fun h => hprio (habove.mp h)
    · exact iff_of_false (fun h => by cases h) fun h => hcap (hunequipped.mp h).2
    · exact iff_of_true rfl (hunpinned.mpr ⟨hprio, hcap, hver⟩)
  next hver =>
  have hnone : ¬(db.fleetOn now grace r.queue).blocks reason r := by
    rcases hreason with rfl | rfl | rfl
    · exact fun h => hprio (habove.mp h)
    · exact fun h => hcap (hunequipped.mp h).2
    · exact fun h => hver (hunpinned.mp h).2.2
  rw [iff_false_right hnone]
  -- the causes left are not of the sweep
  split
  · rcases hreason with rfl | rfl | rfl <;> exact fun h => by cases h
  split <;> rcases hreason with rfl | rfl | rfl <;> exact fun h => by cases h

theorem explainWaiting_not_mem : (db.explainWaiting now r).reason ∉ unclaimableReasons := by
  unfold explainWaiting
  split <;> simp [unclaimableReasons]

theorem explainJob_iff {queues : String → Option QueueRow} (hr : r ∈ db.jorb)
    (hreason : reason ∈ unclaimableReasons)
    (hpaused : ((queues r.queue).getD (.unlimited r.queue)).paused = false)
    (hlive : (db.worker.rows.filter (·.liveOn r.queue now grace)).length ≠ 0) :
    (∃ e, db.explainJob queues now grace r.id = some e ∧ e.reason = reason) ↔
      (db.fleetOn now grace r.queue).slice now reason r := by
  have hslice : (db.fleetOn now grace r.queue).slice now reason r ↔
      r.state = .queued ∧ r.runAfter ≤ now ∧
        (db.fleetOn now grace r.queue).blocks reason r := by
    simp [FleetRow.slice, fleetOn, and_assoc]
  rw [hslice]
  by_cases hqueued : r.state = .queued
  · rw [explainJob_queued hr hqueued]
    by_cases hdue : r.runAfter ≤ now
    · simp [hqueued, hdue, explainQueued_iff hreason hdue hpaused hlive]
    · have hdeferred : (db.explainQueued (queues r.queue) now grace r).reason = .deferred := by
        simp [explainQueued, not_le.mp hdue]
      refine iff_of_false ?_ fun h => hdue h.2.1
      rintro ⟨e, he, rfl⟩
      obtain rfl := Option.some.inj he
      rw [hdeferred] at hreason
      exact absurd hreason (by decide)
  · refine iff_of_false ?_ fun h => hqueued h.1
    rintro ⟨e, he, rfl⟩
    rw [explainJob, show r.id = Jorb.id r from rfl, Serial.find?_self hr] at he
    simp only [Option.map_some, Option.some.injEq] at he
    revert hreason
    rw [imp_false, ← he]
    cases hstate : r.state with
    | queued => exact absurd hstate hqueued
    | waiting => exact explainWaiting_not_mem
    | _ => simp [Jorb.explainTerminal, explainInFlight, unclaimableReasons]

theorem mem_fleet {f : FleetRow} :
    f ∈ db.fleet now grace ↔
      (∃ w ∈ db.worker, w.liveOn f.queue now grace) ∧ f = db.fleetOn now grace f.queue := by
  simp only [fleet, List.mem_map, mem_distinctTexts, List.mem_filter, Serial.mem_rows]
  constructor
  · rintro ⟨queue, ⟨w, ⟨hw, hlive⟩, rfl⟩, rfl⟩
    exact ⟨⟨w, hw, by simpa [WorkerRow.liveOn, fleetOn] using hlive⟩, rfl⟩
  · rintro ⟨⟨w, hw, hlive⟩, heq⟩
    simp only [WorkerRow.liveOn, Bool.and_eq_true, decide_eq_true_eq] at hlive
    exact ⟨f.queue, ⟨w, ⟨hw, hlive.2⟩, hlive.1⟩, heq.symm⟩

theorem fleet_nodup : ((db.fleet now grace).map FleetRow.queue).Nodup := by
  have hqueue : FleetRow.queue ∘ db.fleetOn now grace = id := rfl
  rw [fleet, List.map_map, hqueue, List.map_id, distinctTexts,
    (List.perm_insertionSort _ _).nodup_iff]
  exact List.nodup_dedup _

theorem arm_perm {f : FleetRow} (h : db.jorb.count (f.slice now reason) ≤ scanLimit) :
    (db.arm now scanLimit reason f).Perm (db.jorb.rows.filter (f.slice now reason)) := by
  have hlength : (db.jorb.rows.filter (f.slice now reason)).length ≤ scanLimit := by
    rwa [← List.countP_eq_length_filter]
  rw [arm, List.take_of_length_le (by rwa [List.length_insertionSort])]
  exact List.perm_insertionSort _ _

theorem mem_blocked {b : BlockedRow} :
    b ∈ db.blocked now grace scanLimit ↔
      b.reason ∈ unclaimableReasons ∧ b.fleet ∈ db.fleet now grace ∧
        b.job ∈ db.arm now scanLimit b.reason b.fleet := by
  simp only [blocked, List.mem_flatMap, List.mem_map]
  constructor
  · rintro ⟨reason, hreason, f, hf, j, hj, rfl⟩
    exact ⟨hreason, hf, hj⟩
  · rintro ⟨hreason, hf, hj⟩
    exact ⟨b.reason, hreason, b.fleet, hf, b.job, hj, rfl⟩

theorem slice_of_mem_arm {f : FleetRow} {j : Jorb} (h : j ∈ db.arm now scanLimit reason f) :
    j ∈ db.jorb ∧ f.slice now reason j :=
  List.mem_filter.mp ((List.perm_insertionSort _ _).mem_iff.mp (List.mem_of_mem_take h))

theorem blocks_disjoint {f : FleetRow} {reason' : ExplainReason}
    (hreason : reason ∈ unclaimableReasons)
    (hreason' : reason' ∈ unclaimableReasons) (h : f.blocks reason r) (h' : f.blocks reason' r) :
    reason = reason' := by
  have hprio : f.maxCeiling.any (· < r.prio) → ¬f.maxCeiling.any (r.prio ≤ ·) := by
    cases f.maxCeiling <;> simp
  have hcap := all_mem_iff r.capability f.advertised
  simp only [unclaimableReasons, List.mem_cons, List.not_mem_nil, or_false] at hreason hreason'
  rcases hreason with rfl | rfl | rfl <;> rcases hreason' with rfl | rfl | rfl <;>
    simp only [FleetRow.blocks, Bool.and_eq_true] at h h' <;> first | rfl | tauto

/-- Only the element with the key of `a` has rows that pass. -/
theorem filter_flatMap_key {α β κ : Type} {key : α → κ} {l : List α}
    (hnd : (l.map key).Nodup) {a : α} (ha : a ∈ l) {g : α → List β} {p : β → Bool}
    (hp : ∀ c ∈ l, ∀ b ∈ g c, p b → key c = key a) : (l.flatMap g).filter p = (g a).filter p := by
  induction l with
  | nil => cases ha
  | cons c l ih =>
    obtain ⟨hc, hnd⟩ := List.nodup_cons.mp hnd
    rw [List.flatMap_cons, List.filter_append]
    rcases List.mem_cons.mp ha with rfl | ha
    · have hrest : (l.flatMap g).filter p = [] := by
        refine List.filter_eq_nil_iff.mpr fun b hb hpb => ?_
        obtain ⟨c, hcl, hbc⟩ := List.mem_flatMap.mp hb
        exact hc (hp c (List.mem_cons_of_mem _ hcl) b hbc hpb ▸ List.mem_map_of_mem hcl)
      rw [hrest, List.append_nil]
    · have hfirst : (g c).filter p = [] := by
        refine List.filter_eq_nil_iff.mpr fun b hb hpb => hc ?_
        exact hp c List.mem_cons_self b hb hpb ▸ List.mem_map_of_mem ha
      rw [hfirst, List.nil_append]
      exact ih hnd ha fun d hd => hp d (List.mem_cons_of_mem _ hd)

theorem group_eq {f : FleetRow} (hf : f ∈ db.fleet now grace)
    (hreason : reason ∈ unclaimableReasons) :
    db.group now grace scanLimit f.queue reason = db.arm now scanLimit reason f := by
  have hreasons : (unclaimableReasons.map id).Nodup := by decide
  have hself : ((db.arm now scanLimit reason f).map fun j => (⟨f, reason, j⟩ : BlockedRow)).filter
      (fun b => b.fleet.queue = f.queue && b.reason = reason) =
        (db.arm now scanLimit reason f).map fun j => ⟨f, reason, j⟩ := by
    simp [List.filter_eq_self]
  rw [group, blocked, filter_flatMap_key hreasons hreason, filter_flatMap_key fleet_nodup hf, hself,
    List.map_map]
  · exact List.map_id _
  · intro c hc b hb hpass
    obtain ⟨j, -, rfl⟩ := List.mem_map.mp hb
    simpa using hpass
  · intro c hc b hb hpass
    obtain ⟨g, -, hb⟩ := List.mem_flatMap.mp hb
    obtain ⟨j, -, rfl⟩ := List.mem_map.mp hb
    simpa using (Bool.and_eq_true_iff.mp hpass).2

theorem mem_unclaimableJobs {u : UnclaimableRecord} :
    u ∈ db.unclaimableJobs now grace scanLimit sampleLimit ↔
      ∃ f ∈ db.fleet now grace, ∃ reason ∈ unclaimableReasons,
        f.record scanLimit sampleLimit reason (db.arm now scanLimit reason f) = some u := by
  simp only [unclaimableJobs, List.mem_flatMap, List.mem_filterMap]
  refine exists_congr fun f => and_congr_right fun hf => exists_congr fun reason =>
    and_congr_right fun hreason => ?_
  rw [group_eq hf hreason]

theorem slice_le (h : db.jorb.count (db.blockedOn now grace r.queue) < scanLimit)
    (hreason : reason ∈ unclaimableReasons) :
    db.jorb.count ((db.fleetOn now grace r.queue).slice now reason) ≤ scanLimit := by
  have hmono : db.jorb.count ((db.fleetOn now grace r.queue).slice now reason) ≤
      db.jorb.count (db.blockedOn now grace r.queue) :=
    List.countP_mono_left fun j _ hj => List.any_eq_true.mpr ⟨reason, hreason, hj⟩
  exact hmono.trans h.le

theorem countedUnder_iff (hlive : ∃ w ∈ db.worker, w.liveOn r.queue now grace) (hr : r ∈ db.jorb)
    (hlimit : db.jorb.count (db.blockedOn now grace r.queue) < scanLimit)
    (hreason : reason ∈ unclaimableReasons) :
    db.CountedUnder now grace scanLimit r reason ↔
      (db.fleetOn now grace r.queue).slice now reason r := by
  constructor
  · rintro ⟨b, hb, rfl, rfl⟩
    obtain ⟨-, hf, hj⟩ := mem_blocked.mp hb
    have hslice := (slice_of_mem_arm hj).2
    have hqueue : b.job.queue = b.fleet.queue := by
      simp only [FleetRow.slice, Bool.and_eq_true, decide_eq_true_eq] at hslice
      exact hslice.1.1.1
    rwa [(mem_fleet.mp hf).2, ← hqueue] at hslice
  · intro hslice
    refine ⟨⟨db.fleetOn now grace r.queue, reason, r⟩, mem_blocked.mpr ⟨hreason, ?_, ?_⟩, rfl, rfl⟩
    · exact mem_fleet.mpr ⟨hlive, rfl⟩
    · exact (arm_perm (slice_le hlimit hreason)).mem_iff.mpr (List.mem_filter.mpr ⟨hr, hslice⟩)

theorem live_ne_zero (hlive : ∃ w ∈ db.worker, w.liveOn r.queue now grace) :
    (db.worker.rows.filter (·.liveOn r.queue now grace)).length ≠ 0 := by
  obtain ⟨w, hw, hwlive⟩ := hlive
  exact (List.length_pos_of_mem (List.mem_filter.mpr ⟨hw, hwlive⟩)).ne'

theorem record_key {f : FleetRow} {jobs : List Jorb} {u : UnclaimableRecord}
    (h : f.record scanLimit sampleLimit reason jobs = some u) :
    u.queue = f.queue ∧ u.reason = reason := by
  unfold FleetRow.record at h
  split at h
  · cases h
  · obtain rfl := Option.some.inj h
    exact ⟨rfl, rfl⟩

theorem count_record_iff (f : FleetRow) (sampleLimit : Nat) {jobs : List Jorb} {n : Nat} :
    (∃ u, f.record scanLimit sampleLimit reason jobs = some u ∧ u.queue = f.queue ∧
      u.reason = reason ∧ u.count = n) ↔ 0 < n ∧ jobs.length = n := by
  by_cases hnil : jobs = []
  · simp [FleetRow.record, hnil]
    omega
  · have := List.length_pos_iff.mpr hnil
    simp only [FleetRow.record, hnil, if_false, Option.some.injEq, exists_eq_left', true_and]
    omega

/-- No row of the job table is on two queues, so two rows of `blocked` with one
job come from one row of the fleet. -/
theorem CountedUnder.unique {reason' : ExplainReason}
    (h : db.CountedUnder now grace scanLimit r reason)
    (h' : db.CountedUnder now grace scanLimit r reason') : reason = reason' := by
  obtain ⟨b, hb, rfl, rfl⟩ := h
  obtain ⟨b', hb', hjob, rfl⟩ := h'
  obtain ⟨hreason, hf, hj⟩ := mem_blocked.mp hb
  obtain ⟨hreason', hf', hj'⟩ := mem_blocked.mp hb'
  have hslice := (slice_of_mem_arm hj).2
  have hslice' := (slice_of_mem_arm hj').2
  simp only [FleetRow.slice, Bool.and_eq_true, decide_eq_true_eq] at hslice hslice'
  have hqueue : b'.fleet.queue = b.fleet.queue := by
    rw [← hslice.1.1.1, ← hslice'.1.1.1, hjob]
  have hfleet : b'.fleet = b.fleet := by
    rw [(mem_fleet.mp hf').2, (mem_fleet.mp hf).2, hqueue]
  rw [hjob, hfleet] at hslice'
  exact blocks_disjoint hreason hreason' hslice.2 hslice'.2

theorem count_explained {queues : String → Option QueueRow} (hreason : reason ∈ unclaimableReasons)
    (hpaused : ((queues r.queue).getD (.unlimited r.queue)).paused = false)
    (hlive : (db.worker.rows.filter (·.liveOn r.queue now grace)).length ≠ 0) :
    db.jorb.count (db.explainedAs queues now grace r.queue reason) =
      db.jorb.count ((db.fleetOn now grace r.queue).slice now reason) := by
  refine List.countP_congr fun j hj => ?_
  by_cases hqueue : j.queue = r.queue
  · have hiff := explainJob_iff hj hreason (hqueue ▸ hpaused) (hqueue ▸ hlive)
    rw [hqueue] at hiff
    simp [explainedAs, hqueue, ← hiff, Option.any_eq_true]
  · simp [explainedAs, FleetRow.slice, fleetOn, hqueue]

theorem exists_record_iff (hlive : ∃ w ∈ db.worker, w.liveOn r.queue now grace)
    (hlimit : db.jorb.count (db.blockedOn now grace r.queue) < scanLimit)
    (hreason : reason ∈ unclaimableReasons) {n : Nat} :
    (∃ u ∈ db.unclaimableJobs now grace scanLimit sampleLimit,
      u.queue = r.queue ∧ u.reason = reason ∧ u.count = n) ↔
      0 < n ∧ db.jorb.count ((db.fleetOn now grace r.queue).slice now reason) = n := by
  have hcount : (db.arm now scanLimit reason (db.fleetOn now grace r.queue)).length =
      db.jorb.count ((db.fleetOn now grace r.queue).slice now reason) := by
    rw [(arm_perm (slice_le hlimit hreason)).length_eq, ← List.countP_eq_length_filter]
    rfl
  rw [← hcount, ← count_record_iff (db.fleetOn now grace r.queue) sampleLimit]
  constructor
  · rintro ⟨u, hu, hqueue, hu_reason, hn⟩
    obtain ⟨f, hf, found, -, hrecord⟩ := mem_unclaimableJobs.mp hu
    obtain ⟨hfqueue, hfreason⟩ := record_key hrecord
    have hfleet : f = db.fleetOn now grace r.queue := by
      rw [(mem_fleet.mp hf).2, ← hfqueue, hqueue]
    rw [hfleet, ← hfreason, hu_reason] at hrecord
    exact ⟨u, hrecord, hqueue, hu_reason, hn⟩
  · rintro ⟨u, hrecord, hkey⟩
    refine ⟨u, mem_unclaimableJobs.mpr ⟨_, mem_fleet.mpr ⟨hlive, rfl⟩, reason, hreason,
      hrecord⟩, hkey⟩

end Unclaimable

end Db

/-- The sweep agrees with `explain_job` over every row of a queue that is not
paused and has a live worker, as long as it does not run into its limit. -/
theorem unclaimable_jobs_agree {db : Db} {queues : String → Option QueueRow} {now grace : Int}
    {scanLimit : Nat} {r : Jorb} (hr : r ∈ db.jorb)
    (hpaused : ((queues r.queue).getD (.unlimited r.queue)).paused = false)
    (hlive : ∃ w ∈ db.worker, w.liveOn r.queue now grace)
    (hlimit : db.jorb.count (db.blockedOn now grace r.queue) < scanLimit) :
    (∀ reason ∈ unclaimableReasons, db.CountedUnder now grace scanLimit r reason ↔
      ∃ e, db.explainJob queues now grace r.id = some e ∧ e.reason = reason) ∧
    (∀ reason reason', db.CountedUnder now grace scanLimit r reason →
      db.CountedUnder now grace scanLimit r reason' → reason = reason') ∧
    ∀ reason ∈ unclaimableReasons, ∀ sampleLimit n,
      (∃ u ∈ db.unclaimableJobs now grace scanLimit sampleLimit,
        u.queue = r.queue ∧ u.reason = reason ∧ u.count = n) ↔
        0 < n ∧ db.jorb.count (db.explainedAs queues now grace r.queue reason) = n := by
  have hlength := Db.live_ne_zero hlive
  refine ⟨fun reason hreason => ?_, fun reason reason' h h' => ?_,
    fun reason hreason sampleLimit n => ?_⟩
  · rw [Db.countedUnder_iff hlive hr hlimit hreason, Db.explainJob_iff hr hreason hpaused hlength]
  · exact Db.CountedUnder.unique h h'
  · rw [Db.exists_record_iff hlive hlimit hreason,
      Db.count_explained hreason hpaused hlength]

/-- A worker without capabilities, a job below its ceiling that wants one
and is pinned, and a job above it that wants the same. -/
def blindFleetDb : Db :=
  let pinned : NewJob := { gpuJob with appVersion := some "v1" }
  let db := (Db.empty.enqueue 0 pinned).getD .empty
  let db := (db.enqueue 0 { gpuJob with prio := 500 }).getD db
  db.registerWorker 0 { ClaimArgs.plain "q" with maxPrio := 200 }

theorem unclaimable_jobs_agree_blind :
    ∃ r ∈ blindFleetDb.jorb, ∃ r' ∈ blindFleetDb.jorb,
      blindFleetDb.CountedUnder 5 60 1000 r .capabilityUnmet ∧
        blindFleetDb.CountedUnder 5 60 1000 r' .aboveWorkerCeiling := by
  let r := { gpuJob with appVersion := some "v1" }.row 0 1
  let r' := { gpuJob with prio := 500 }.row 0 2
  have hr : r ∈ blindFleetDb.jorb := List.mem_cons_self
  have hr' : r' ∈ blindFleetDb.jorb := List.mem_cons_of_mem _ (List.mem_singleton_self _)
  have hlive : ∃ w ∈ blindFleetDb.worker, w.liveOn "q" 5 60 :=
    ⟨⟨1, "localhost", 1, "q", [], 200, none, 0, none, false⟩, List.mem_singleton_self _, by decide⟩
  have hlimit : blindFleetDb.jorb.count (blindFleetDb.blockedOn 5 60 "q") < 1000 := by decide
  have hcapability : (blindFleetDb.explainJob (fun _ => none) 5 60 r.id).map Explanation.reason =
      some .capabilityUnmet := by decide
  have hceiling : (blindFleetDb.explainJob (fun _ => none) 5 60 r'.id).map Explanation.reason =
      some .aboveWorkerCeiling := by decide
  have agree := @unclaimable_jobs_agree blindFleetDb (fun _ => none) 5 60 1000
  refine ⟨r, hr, r', hr', ((agree hr rfl hlive hlimit).1 _ (by decide)).mpr ?_,
    ((agree hr' rfl hlive hlimit).1 _ (by decide)).mpr ?_⟩
  · exact Option.map_eq_some_iff.mp hcapability
  · exact Option.map_eq_some_iff.mp hceiling

end Pyjobby
