import Pyjobby.Schema
import Mathlib.Data.List.Dedup
import Mathlib.Data.List.MinMax
import Mathlib.Data.Prod.Lex
import Mathlib.Order.Lattice

/-! `claim_jorb` statement by statement: the counts its caps are checked
against, the lane sets of a partitioned queue, and the claiming UPDATE. -/

namespace Pyjobby

open Relational

/-- The parameters of `claim_jorb`: what one worker will accept. -/
structure ClaimArgs where
  queue : String
  capabilities : List String
  maxPrio : Int
  appVersion : Option String
  workerPid : Int
  workerHost : String
  workerId : Option Nat

/-- The WHERE clause of the claim, lanes and locks apart. -/
def ClaimArgs.admits (a : ClaimArgs) (now : Int) (j : Jorb) : Bool :=
  j.queue = a.queue && j.capability.all (· ∈ a.capabilities) &&
    j.appVersion.all (fun v => some v = a.appVersion) && j.prio ≤ a.maxPrio && j.runAfter ≤ now &&
    j.state = .queued

def ClaimArgs.claimed (a : ClaimArgs) (now : Int) : Rewrite Jorb.id :=
  ⟨fun r =>
    { r with
      state := .claimed, workerPid := some a.workerPid, workerHost := some a.workerHost,
      claimedBy := a.workerId, claimedAt := some now, runCount := r.runCount + 1,
      runEpoch := r.runEpoch + 1, updated := now }, fun _ => rfl⟩

/-- A set of lanes: an array of keys, and a flag for the NULL lane. -/
structure Lanes where
  keys : List String
  null : Bool

namespace Lanes

def none : Lanes := ⟨[], false⟩

/-- The `CASE WHEN j.partition_key IS NULL` of the partitioned claim. -/
def has (l : Lanes) : Option String → Bool
  | .none => l.null
  | some k => k ∈ l.keys

/-- `full_keys || rated_keys` and `full_null OR rated_null`. -/
def union (l m : Lanes) : Lanes := ⟨l.keys ++ m.keys, l.null || m.null⟩

/-- `array_agg(..) FILTER (WHERE .. IS NOT NULL)` and `bool_or(.. IS NULL)`. -/
def ofGroups (groups : List (Option String)) : Lanes :=
  ⟨groups.filterMap id, groups.any Option.isNone⟩

@[simp]
theorem has_none (lane : Option String) : none.has lane = false := by
  cases lane <;> simp [has, none]

@[simp]
theorem has_union (l m : Lanes) (lane : Option String) :
    (l.union m).has lane = (l.has lane || m.has lane) := by
  cases lane <;> simp [has, union]

@[simp]
theorem has_ofGroups (groups : List (Option String)) (lane : Option String) :
    (ofGroups groups).has lane = decide (lane ∈ groups) := by
  cases lane with
  | none =>
    rw [Bool.eq_iff_iff]
    simp only [has, ofGroups, List.any_eq_true, decide_eq_true_eq, Option.isNone_iff_eq_none]
    exact ⟨fun ⟨_, h, e⟩ => e ▸ h, fun h => ⟨_, h, rfl⟩⟩
  | some k => simp [has, ofGroups]

end Lanes

namespace Db

def inFlightOn (queue : String) (r : Jorb) : Bool := r.queue = queue && r.inFlight

def admittedOn (queue : String) (period : Int) (now : Int) (r : Jorb) : Bool :=
  r.queue = queue && r.claimedAt.any (now - period < ·)

def inLane (p : Jorb → Bool) (lane : Option String) (r : Jorb) : Bool :=
  p r && r.partitionKey = lane

/-- `SELECT partition_key .. GROUP BY partition_key HAVING count(*) >= cap`. A
lane without a row is no group. -/
def saturatedLanes (db : Db) (p : Jorb → Bool) (cap : Int) : Lanes :=
  .ofGroups <|
    ((db.jorb.rows.filter p).map Jorb.partitionKey).dedup.filter fun lane =>
      cap ≤ db.jorb.count (inLane p lane)

theorem saturatedLanes_has {db : Db} {p : Jorb → Bool} {cap : Int} {lane : Option String} :
    (db.saturatedLanes p cap).has lane ↔
      0 < db.jorb.count (inLane p lane) ∧ cap ≤ db.jorb.count (inLane p lane) := by
  rw [saturatedLanes, Lanes.has_ofGroups, decide_eq_true_iff]
  simp only [List.mem_filter, List.mem_dedup, List.mem_map, decide_eq_true_eq, Table.count,
    List.countP_pos_iff, inLane, Bool.and_eq_true]
  constructor
  · rintro ⟨⟨r, hr, rfl⟩, hcap⟩
    exact ⟨⟨r, hr.1, hr.2, rfl⟩, of_decide_eq_true hcap⟩
  · rintro ⟨⟨r, hr, hp, hlane⟩, hcap⟩
    exact ⟨⟨r, ⟨hr, hp⟩, hlane⟩, decide_eq_true hcap⟩

def claimable (db : Db) (a : ClaimArgs) (now : Int) (blocked : Lanes) (locked : Nat → Bool) :
    List Jorb :=
  db.jorb.rows.filter fun j => a.admits now j && !blocked.has j.partitionKey && !locked j.id

/-- The lexicographic order of claim keys, spelled out to be computable. -/
instance claimKeyPreorder : Preorder (Int ×ₗ Int ×ₗ Nat) :=
  @Prod.Lex.instPreorder Int (Int ×ₗ Nat) Int.instLinearOrder.toPreorder
    (@Prod.Lex.instPreorder Int Nat Int.instLinearOrder.toPreorder Nat.instPreorder)

/-- `ORDER BY j.prio, j.run_after`; among equals the scan order decides. -/
def claimOrder (scan : Nat → Nat) (j : Jorb) : Int ×ₗ Int ×ₗ Nat :=
  toLex (j.prio, toLex (j.runAfter, scan j.id))

/-- The subselect of the claim: `ORDER BY .. FOR UPDATE SKIP LOCKED LIMIT 1`. -/
def firstClaimable (db : Db) (a : ClaimArgs) (now : Int) (blocked : Lanes) (locked : Nat → Bool)
    (scan : Nat → Nat) : Option Jorb :=
  (db.claimable a now blocked locked).argmin (claimOrder scan)

theorem mem_claimable {db : Db} {a : ClaimArgs} {now : Int} {blocked : Lanes}
    {locked : Nat → Bool} {j : Jorb} :
    j ∈ db.claimable a now blocked locked ↔
      j ∈ db.jorb ∧ a.admits now j ∧ blocked.has j.partitionKey = false ∧ locked j.id = false := by
  simp [claimable, Serial.mem_rows, and_assoc]

theorem firstClaimable_mem {db : Db} {a : ClaimArgs} {now : Int} {blocked : Lanes}
    {locked : Nat → Bool} {scan : Nat → Nat} {j : Jorb}
    (h : db.firstClaimable a now blocked locked scan = some j) :
    j ∈ db.claimable a now blocked locked :=
  List.argmin_mem h

theorem firstClaimable_eq_none {db : Db} {a : ClaimArgs} {now : Int} {blocked : Lanes}
    {locked : Nat → Bool} {scan : Nat → Nat} :
    db.firstClaimable a now blocked locked scan = none ↔
      db.claimable a now blocked locked = [] :=
  List.argmin_eq_none

theorem firstClaimable_le {db : Db} {a : ClaimArgs} {now : Int} {blocked : Lanes}
    {locked : Nat → Bool} {scan : Nat → Nat} {j k : Jorb}
    (h : db.firstClaimable a now blocked locked scan = some j)
    (hk : k ∈ db.claimable a now blocked locked) :
    toLex (j.prio, j.runAfter) ≤ toLex (k.prio, k.runAfter) := by
  have hle : claimOrder scan j ≤ claimOrder scan k := List.le_of_mem_argmin hk h
  simp only [claimOrder, Prod.Lex.toLex_le_toLex] at hle
  rcases hle with hp | ⟨hp, hr | ⟨hr, -⟩⟩
  · exact Prod.Lex.toLex_le_toLex.mpr (.inl hp)
  · exact Prod.Lex.toLex_le_toLex.mpr (.inr ⟨hp, hr.le⟩)
  · exact Prod.Lex.toLex_le_toLex.mpr (.inr ⟨hp, hr.le⟩)

end Db

namespace QueueRow

def controlled (q : QueueRow) : Bool := q.maxConcurrency.isSome || q.rateLimit.isSome

def partitioned (q : QueueRow) : Bool := q.partitionLimits && q.controlled

/-- One limit checked against one count: `none` returns no row, `some lanes`
goes on without the lanes in `lanes`. -/
def check (q : QueueRow) (db : Db) (p : Jorb → Bool) : Option Int → Option Lanes
  | none => some .none
  | some cap =>
    if q.partitioned then some (db.saturatedLanes p cap)
    else if cap ≤ db.jorb.count p then none else some .none

def capInFlight (q : QueueRow) (db : Db) (queue : String) : Option Lanes :=
  q.check db (Db.inFlightOn queue) q.maxConcurrency

def capRate (q : QueueRow) (db : Db) (queue : String) (now : Int) : Option Lanes :=
  q.check db (Db.admittedOn queue q.ratePeriod now) q.rateLimit

def counted (q : QueueRow) (p : Jorb → Bool) (lane : Option String) (r : Jorb) : Bool :=
  p r && (!q.partitioned || r.partitionKey = lane)

theorem counted_partitioned {q : QueueRow} (h : q.partitioned) (p : Jorb → Bool)
    (lane : Option String) : q.counted p lane = Db.inLane p lane := by
  funext r
  simp [counted, Db.inLane, h]

theorem counted_plain {q : QueueRow} (h : q.partitioned = false) (p : Jorb → Bool)
    (lane : Option String) : q.counted p lane = p := by
  funext r
  simp [counted, h]

theorem check_has {q : QueueRow} {db : Db} {p : Jorb → Bool} {limit : Option Int} {lanes : Lanes}
    {lane : Option String} (hq : q.partitioned) (h : q.check db p limit = some lanes) :
    lanes.has lane ↔ ∃ cap, limit = some cap ∧ 0 < db.jorb.count (Db.inLane p lane) ∧
      cap ≤ db.jorb.count (Db.inLane p lane) := by
  cases limit with
  | none => simp [← Option.some.inj h]
  | some cap =>
    simp only [check, hq, if_true, Option.some.injEq] at h
    rw [← h, Db.saturatedLanes_has]
    simp

theorem check_headroom {q : QueueRow} {db : Db} {p : Jorb → Bool} {cap : Int} {lanes : Lanes}
    {lane : Option String} (hcap : 1 ≤ cap) (h : q.check db p (some cap) = some lanes)
    (hlane : lanes.has lane = false) : (db.jorb.count (q.counted p lane) : Int) < cap := by
  cases hq : q.partitioned with
  | true =>
    rw [counted_partitioned hq]
    by_contra hle
    have : lanes.has lane := (check_has hq h).mpr ⟨cap, rfl, by omega, by omega⟩
    simp [hlane] at this
  | false =>
    rw [counted_plain hq]
    simp only [check, hq] at h
    by_contra hle
    simp [not_lt.mp hle] at h

end QueueRow

end Pyjobby
