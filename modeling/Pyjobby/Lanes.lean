import Pyjobby.Concurrency

/-! Lane fairness. A partitioned claim counts the lanes of its queue over two
snapshots behind the lock, and then takes the first row of the lanes left. -/

namespace Pyjobby

open Relational Transition

def QueueRow.FlightHeadroom (ctl : QueueRow) (queue : String) (flight : Db)
    (lane : Option String) : Prop :=
  ∀ cap, ctl.maxConcurrency = some cap →
    (flight.jorb.count (Db.inLane (Db.inFlightOn queue) lane) : Int) < cap

def Db.laneAdmissions (db : Db) (ctl : QueueRow) (queue : String) (now : Int)
    (lane : Option String) : Nat :=
  db.jorb.count (Db.inLane (Db.admittedOn queue ctl.ratePeriod now) lane)

def QueueRow.RateHeadroom (ctl : QueueRow) (queue : String) (now : Int) (rate : Db)
    (lane : Option String) : Prop :=
  ∀ limit, ctl.rateLimit = some limit → (rate.laneAdmissions ctl queue now lane : Int) < limit

/-- An unlocked row that the claim's predicate accepts. -/
def ClaimTx.Accepts (w : World) (c : ClaimTx) (busy : List Nat) (r : Jorb) : Prop :=
  r ∈ w.db.jorb ∧ c.args.admits c.now r ∧ w.locked r.id = false ∧ r.id ∉ busy

/-- The rows a partitioned claim is to choose among. -/
def ClaimTx.Eligible (w : World) (c : ClaimTx) (busy : List Nat) (ctl : QueueRow)
    (flight rate : Db) (r : Jorb) : Prop :=
  c.Accepts w busy r ∧ ctl.FlightHeadroom c.args.queue flight r.partitionKey ∧
    ctl.RateHeadroom c.args.queue c.now rate r.partitionKey

/-- The claim of session `s` takes the first of the rows in (prio, run_after)
order, or ends without one where there is none. -/
def ClaimTx.TakesFirst (c : ClaimTx) (w' : World) (s : Nat) (rows : Jorb → Prop) : Prop :=
  (∃ j, rows j ∧ w'.claimTx s = some { c with phase := .picked j.id } ∧
      ∀ r, rows r → toLex (j.prio, j.runAfter) ≤ toLex (r.prio, r.runAfter)) ∨
    (∀ r, ¬rows r) ∧ w'.claimTx s = none

/-- The claim of session `s` took its two counts, behind the lock, in states
`k₁` and `k₂`. -/
structure History.CountedAt (ρ : History) (n s : Nat) (c : ClaimTx) (k₁ k₂ : Nat) (full : Lanes) :
    Prop where
  order : k₁ < k₂
  before : k₂ < n
  flight : (ρ.state k₁).claimTx s = some { c with phase := .locked }
  rate : (ρ.state k₂).claimTx s = some { c with phase := .capped full }

/-- What the lane sets of an open claim were computed from. -/
def History.Snapshots (ρ : History) (n s : Nat) (c : ClaimTx) (ctl : QueueRow) : Prop :=
  match c.phase with
  | .capped full => ∃ k₁ < n, (ρ.state k₁).claimTx s = some { c with phase := .locked } ∧
      ctl.capInFlight (ρ.state k₁).db c.args.queue = some full
  | .admitting blocked => ∃ k₁ k₂ full rated, ρ.CountedAt n s c k₁ k₂ full ∧
      ctl.capInFlight (ρ.state k₁).db c.args.queue = some full ∧
      ctl.capRate (ρ.state k₂).db c.args.queue c.now = some rated ∧ blocked = full.union rated
  | _ => True

theorem ClaimTx.with_phase {c : ClaimTx} {p : ClaimPhase} (h : c.phase = p) :
    { c with phase := p } = c := by
  cases c
  cases h
  rfl

theorem History.Snapshots.succ {ρ : History} {n s : Nat} {c : ClaimTx} {ctl : QueueRow}
    (h : ρ.Snapshots n s c ctl) : ρ.Snapshots (n + 1) s c ctl := by
  unfold Snapshots at h ⊢
  split at h
  · obtain ⟨k₁, hk₁, h⟩ := h
    exact ⟨k₁, Nat.lt_succ_of_lt hk₁, h⟩
  · obtain ⟨k₁, k₂, full, rated, hk, h⟩ := h
    exact ⟨k₁, k₂, full, rated, ⟨hk.order, Nat.lt_succ_of_lt hk.before, hk.flight, hk.rate⟩, h⟩
  · trivial

theorem History.snapshots {ρ : History} (hρ : ρ.Fresh) {queue : String} {ctl : QueueRow}
    (hfix : ρ.ControlFixed queue ctl) (hctl : ctl.controlled) :
    ∀ n ≤ ρ.length, ∀ s c, ⟨s, .claim c⟩ ∈ (ρ.state n).txs → c.args.queue = queue →
      ρ.Snapshots n s c ctl := by
  have hcr := History.controlRead hρ hfix
  intro n
  induction n with
  | zero =>
    obtain ⟨db, clock, queues, h0⟩ := hρ
    simp [h0, World.init]
  | succ n ih =>
    intro hn s c ht hqueue
    have hle := Nat.le_of_succ_le hn
    rcases (World.step_effect (ρ.next n hn)).tx_cases ht with ht₀ | ⟨hopens, -⟩
    · exact (ih hle s c ht₀ hqueue).succ
    cases hopens with
    | @begin _ args =>
      have hread : (ρ.state n).queue args.queue = some ctl := hqueue ▸ hfix n hle
      simp [Snapshots, hread, hctl]
    | lock => trivial
    | @capInFlight _ c q lanes tx phase control check =>
      have hread := hcr n hle s c (World.claimTx_eq_some.mp tx) hqueue
      obtain rfl : q = ctl := Option.some.inj (control.symm.trans hread)
      exact ⟨n, Nat.lt_succ_self n, tx.trans (congrArg some (ClaimTx.with_phase phase).symm), check⟩
    | @capRate _ c q full lanes tx phase control check =>
      have hmem := World.claimTx_eq_some.mp tx
      have hread := hcr n hle s c hmem hqueue
      obtain rfl : q = ctl := Option.some.inj (control.symm.trans hread)
      have hsnap := ih hle s c hmem hqueue
      simp only [Snapshots, phase] at hsnap
      obtain ⟨k₁, hk₁, hflight, hfull⟩ := hsnap
      exact ⟨k₁, n, full, lanes, ⟨hk₁, Nat.lt_succ_self n, hflight,
        tx.trans (congrArg some (ClaimTx.with_phase phase).symm)⟩, hfull, check, rfl⟩
    | pick => trivial

section Lanes

variable {w w' : World} {s : Nat} {c : ClaimTx} {busy scan : List Nat} {ctl : QueueRow}
  {flight rate : Db} {full rated : Lanes}

theorem blocked_iff {lane : Option String} (hpart : ctl.partitioned) {cap : Int}
    (hctl : ctl.maxConcurrency = some cap) (hcap : 1 ≤ cap)
    (hfull : ctl.capInFlight flight c.args.queue = some full)
    (hrated : ctl.capRate rate c.args.queue c.now = some rated) :
    (full.union rated).has lane = false ↔
      ctl.FlightHeadroom c.args.queue flight lane ∧
        ∀ limit, ctl.rateLimit = some limit → rate.laneAdmissions ctl c.args.queue c.now lane = 0 ∨
          (rate.laneAdmissions ctl c.args.queue c.now lane : Int) < limit := by
  rw [Lanes.has_union, Bool.or_eq_false_iff, Bool.eq_false_iff, Bool.eq_false_iff, ne_eq, ne_eq,
    QueueRow.check_has hpart hfull, QueueRow.check_has hpart hrated]
  refine and_congr ?_ ?_
  · simp only [QueueRow.FlightHeadroom, hctl, Option.some.injEq]
    constructor
    · rintro h _ rfl
      by_contra hle
      exact h ⟨cap, rfl, by omega, by omega⟩
    · rintro h ⟨_, rfl, -, hle⟩
      exact absurd (h cap rfl) (by omega)
  · simp only [Db.laneAdmissions]
    constructor
    · intro h limit hlimit
      by_contra hno
      exact h ⟨limit, hlimit, by omega, by omega⟩
    · rintro h ⟨limit, hlimit, hpos, hle⟩
      have := h limit hlimit
      omega

theorem claimPick_takesFirst {blocked : Lanes} (hphase : c.phase = .admitting blocked)
    (h : w.claimPick s c busy scan = some w') :
    c.TakesFirst w' s fun r => c.Accepts w busy r ∧ blocked.has r.partitionKey = false := by
  have hrows (r : Jorb) : (c.Accepts w busy r ∧ blocked.has r.partitionKey = false) ↔
      r ∈ w.db.claimable c.args c.now blocked fun i => w.locked i || i ∈ busy := by
    simp only [ClaimTx.Accepts, Db.mem_claimable, Bool.or_eq_false_iff, decide_eq_false_iff_not]
    tauto
  simp only [World.claimPick, hphase] at h
  split at h
  · rename_i hnone
    refine .inr ⟨fun r hr => ?_, ?_⟩
    · have := (hrows r).mp hr
      simp [Db.firstClaimable_eq_none.mp hnone] at this
    · obtain rfl := Option.some.inj h
      refine Option.eq_none_iff_forall_ne_some.mpr fun d hd => ?_
      exact (World.mem_closeTx.mp (World.claimTx_eq_some.mp hd)).2 rfl
  · rename_i j hj
    obtain rfl := Option.some.inj h
    refine .inl ⟨j, (hrows j).mpr (Db.firstClaimable_mem hj),
      World.claimTx_eq_some.mpr (World.mem_openTx.mpr (.inl rfl)), fun r hr => ?_⟩
    exact Db.firstClaimable_le hj ((hrows r).mp hr)

/-- Every lane of an accepted row with room to run has an admission in the
window, where the rate limit leaves no room at all. -/
def ClaimTx.Metered (w : World) (c : ClaimTx) (busy : List Nat) (ctl : QueueRow)
    (flight rate : Db) : Prop :=
  (∀ limit, ctl.rateLimit = some limit → 1 ≤ limit) ∨
    ∀ r, c.Accepts w busy r → ctl.FlightHeadroom c.args.queue flight r.partitionKey →
      rate.laneAdmissions ctl c.args.queue c.now r.partitionKey ≠ 0

theorem takesFirst_iff {cap : Int} (hpart : ctl.partitioned) (hctl : ctl.maxConcurrency = some cap)
    (hcap : 1 ≤ cap) (hfull : ctl.capInFlight flight c.args.queue = some full)
    (hrated : ctl.capRate rate c.args.queue c.now = some rated)
    (hphase : c.phase = .admitting (full.union rated))
    (h : w.claimPick s c busy scan = some w') :
    c.TakesFirst w' s (c.Eligible w busy ctl flight rate) ↔ c.Metered w busy ctl flight rate := by
  have htakes := claimPick_takesFirst hphase h
  have hblocked (lane : Option String) : (full.union rated).has lane = false ↔
      ctl.FlightHeadroom c.args.queue flight lane ∧
        ∀ limit, ctl.rateLimit = some limit → rate.laneAdmissions ctl c.args.queue c.now lane = 0 ∨
          (rate.laneAdmissions ctl c.args.queue c.now lane : Int) < limit :=
    blocked_iff hpart hctl hcap hfull hrated
  by_cases hlimit : ∀ limit, ctl.rateLimit = some limit → 1 ≤ limit
  · have heq : (fun r => c.Accepts w busy r ∧ (full.union rated).has r.partitionKey = false) =
        c.Eligible w busy ctl flight rate := by
      funext r
      refine propext (and_congr_right fun _ => (hblocked _).trans (and_congr_right fun _ => ?_))
      refine forall₂_congr fun limit hl => ⟨fun hr => ?_, .inr⟩
      have := hlimit limit hl
      omega
    exact ⟨fun _ => .inl hlimit, fun _ => heq ▸ htakes⟩
  · obtain ⟨limit, hl, hlt⟩ : ∃ limit, ctl.rateLimit = some limit ∧ ¬1 ≤ limit := by
      simpa only [not_forall, exists_prop] using hlimit
    have hnone (r : Jorb) : ¬c.Eligible w busy ctl flight rate r := fun he => by
      have := he.2.2 limit hl
      omega
    have hmetered : c.Metered w busy ctl flight rate ↔
        ∀ r, ¬(c.Accepts w busy r ∧ (full.union rated).has r.partitionKey = false) := by
      refine ⟨fun hm r hr => ?_, fun hm => .inr fun r hr hf h0 => ?_⟩
      · rcases hm with hm | hm
        · exact absurd (hm limit hl) (by omega)
        · obtain ⟨hf, hrate⟩ := (hblocked _).mp hr.2
          have := hm r hr.1 hf
          have := hrate limit hl
          omega
      · exact hm r ⟨hr, (hblocked _).mpr ⟨hf, fun _ _ => .inl h0⟩⟩
    rw [hmetered]
    constructor
    · rintro (⟨j, hj, -⟩ | ⟨-, hend⟩)
      · exact absurd hj (hnone j)
      · rcases htakes with ⟨j, -, hpick, -⟩ | ⟨hno, -⟩
        · rw [hend] at hpick
          cases hpick
        · exact hno
    · intro hno
      rcases htakes with ⟨j, hj, -⟩ | ⟨-, hend⟩
      · exact absurd hj (hno j)
      · exact .inr ⟨hnone, hend⟩

end Lanes

/-- A partitioned claim on the queue, at its claiming UPDATE in step `n`. -/
structure History.Picks (ρ : History) (n s : Nat) (c : ClaimTx) (busy : List Nat) (queue : String) :
    Prop where
  step : n < ρ.length
  act : ∃ scan, ρ.act n = .claimPick s busy scan
  tx : (ρ.state n).claimTx s = some c
  queue : c.args.queue = queue

/-- Behind the lock, over two snapshots of its own, the claim serves the first
eligible row. -/
def History.ServesFirst (ρ : History) (n s : Nat) (c : ClaimTx) (busy : List Nat) (ctl : QueueRow)
    (k₁ k₂ : Nat) : Prop :=
  c.TakesFirst (ρ.state (n + 1)) s
    (c.Eligible (ρ.state n) busy ctl (ρ.state k₁).db (ρ.state k₂).db)

/-- On a queue capped at `cap`, no claim takes its lane above the cap, and a
partitioned claim serves the first eligible row exactly when the rate limit is
unset or positive, or each lane it could take from has an admission to count. -/
theorem concurrency_and_lanes (ρ : History) (hρ : ρ.Fresh) (queue : String) (ctl : QueueRow)
    (hfix : ρ.ControlFixed queue ctl) (cap : Int) (hctl : ctl.maxConcurrency = some cap)
    (hcap : 1 ≤ cap) :
    (∀ n < ρ.length, ∀ a, (ρ.state (n + 1)).log = (ρ.state n).log ++ [a] → a.queue = queue →
      ((ρ.state (n + 1)).flightCount queue ctl a.lane : Int) ≤ cap) ∧
    (ctl.partitioned → ∀ n s c busy, ρ.Picks n s c busy queue →
      ∃ k₁ k₂ full, ρ.CountedAt n s c k₁ k₂ full ∧
        (ρ.ServesFirst n s c busy ctl k₁ k₂ ↔
          c.Metered (ρ.state n) busy ctl (ρ.state k₁).db (ρ.state k₂).db)) := by
  have hlocks := History.locks hρ
  have hhead := History.headroom hρ hfix hctl hcap
  have hcontrolled := QueueRow.controlled_of_cap hctl
  refine ⟨fun n hn a hlog hqueue => ?_, fun hpart n s c busy hp => ?_⟩
  · exact (hhead n hn.le).commit_le (hlocks n hn.le) (World.step_effect (ρ.next n hn)) hlog hqueue
  · obtain ⟨hn, ⟨scan, hact⟩, hc, hqueue⟩ := hp
    have hstep := ρ.next n hn
    simp only [hact, World.step, hc, Option.bind_some] at hstep
    obtain ⟨blocked, hphase⟩ : ∃ blocked, c.phase = .admitting blocked := by
      unfold World.claimPick at hstep
      split at hstep
      · exact ⟨_, ‹_›⟩
      · cases hstep
    have hsnap := History.snapshots hρ hfix hcontrolled n hn.le s c
      (World.claimTx_eq_some.mp hc) hqueue
    simp only [History.Snapshots, hphase] at hsnap
    obtain ⟨k₁, k₂, full, rated, hk, hfull, hrated, rfl⟩ := hsnap
    exact ⟨k₁, k₂, full, hk, takesFirst_iff hpart hctl hcap hfull hrated hphase hstep⟩

/-- One lane is at its cap, the NULL lane is not, and the second claim serves it. -/
def lanesControl : QueueRow := ⟨"q", false, some 1, none, 60000000, true⟩

def lanesActs : List Act :=
  [.setQueue lanesControl, .enqueue { NewJob.plain "q" with partitionKey := some "a" },
    .enqueue { NewJob.plain "q" with partitionKey := some "a" }, .enqueue (.plain "q")] ++
    Act.controlledClaim 0 (.plain "q") ++ Act.controlledClaim 1 (.plain "q")

def lanesRun : History :=
  .ofList (.init .empty 0 fun _ => some lanesControl) lanesActs (by decide)

theorem concurrency_and_lanes_null :
    (lanesRun.state 16).log.map Admission.lane = [some "a", none] ∧
      ∃ c k₁ k₂ full, lanesRun.CountedAt 14 1 c k₁ k₂ full ∧
        lanesRun.ServesFirst 14 1 c [] lanesControl k₁ k₂ := by
  refine ⟨by decide, ?_⟩
  obtain ⟨c, hc⟩ : ∃ c, (lanesRun.state 14).claimTx 1 = some c := ⟨_, rfl⟩
  have hqueue : ∀ c ∈ (lanesRun.state 14).claimTx 1, c.args.queue = "q" := by decide
  obtain ⟨k₁, k₂, full, hk, hserves⟩ := (concurrency_and_lanes lanesRun ⟨_, _, _, rfl⟩ "q"
    lanesControl (by unfold History.ControlFixed; decide) 1 rfl (by decide)).2 rfl 14 1 c []
    ⟨by decide, ⟨[], rfl⟩, hc, hqueue c hc⟩
  exact ⟨c, k₁, k₂, full, hk, hserves.mpr (.inl nofun)⟩

/-- A partitioned queue that may start nothing: its rate limit is zero. -/
def zeroRateControl : QueueRow := ⟨"q", false, some 1, some 0, 60000000, true⟩

def zeroRateRun : History :=
  .ofList (.init .empty 0 fun _ => some zeroRateControl)
    (.enqueue (.plain "q") :: Act.controlledClaim 0 (.plain "q")) (by decide)

theorem lanes_serve_without_headroom :
    ¬∀ ρ : History, ρ.Fresh → ∀ queue ctl, ρ.ControlFixed queue ctl →
      ∀ cap, ctl.maxConcurrency = some cap → 1 ≤ cap → ctl.partitioned →
        ∀ n s c busy, ρ.Picks n s c busy queue →
          ∃ k₁ k₂ full, ρ.CountedAt n s c k₁ k₂ full ∧ ρ.ServesFirst n s c busy ctl k₁ k₂ := by
  intro h
  obtain ⟨c, hc⟩ : ∃ c, (zeroRateRun.state 5).claimTx 0 = some c := ⟨_, rfl⟩
  have hqueue : ∀ c ∈ (zeroRateRun.state 5).claimTx 0, c.args.queue = "q" := by decide
  obtain ⟨k₁, k₂, -, -, hserves⟩ := h zeroRateRun ⟨_, _, _, rfl⟩ "q" zeroRateControl
    (by unfold History.ControlFixed; decide) 1 rfl (by decide) rfl 5 0 c []
    ⟨by decide, ⟨[], rfl⟩, hc, hqueue c hc⟩
  have htaken : ((zeroRateRun.state 6).claimTx 0).isSome := by decide
  rcases hserves with ⟨j, hj, -⟩ | ⟨-, hend⟩
  · have := hj.2.2 0 rfl
    omega
  · simp [hend] at htaken

end Pyjobby
