import Pyjobby.Rows

/-! The concurrency cap. Only claims put rows in flight, and the claims of one
controlled queue follow one another under its advisory lock. -/

namespace Pyjobby

open Relational Transition

def History.ControlFixed (ρ : History) (queue : String) (ctl : QueueRow) : Prop :=
  ∀ n ≤ ρ.length, (ρ.state n).queue queue = some ctl

def World.flightCount (w : World) (queue : String) (ctl : QueueRow) (lane : Option String) : Nat :=
  w.db.jorb.count (ctl.counted (Db.inFlightOn queue) lane)

/-- A claim on the queue reads the queue's control row once, at its begin. -/
def ControlRead (w : World) (queue : String) (ctl : QueueRow) : Prop :=
  ∀ s c, ⟨s, .claim c⟩ ∈ w.txs → c.args.queue = queue → c.control = some ctl

theorem Opens.claim_cases {w : World} {s : Nat} {c : ClaimTx} (h : Opens w ⟨s, .claim c⟩) :
    (c.control = w.queue c.args.queue ∧ c.now = w.clock ∧
        (c.phase = .waiting ∨ c.phase = .admitting .none ∧
        c.control.any QueueRow.controlled = false)) ∨
      ∃ d, ⟨s, .claim d⟩ ∈ w.txs ∧ c.args = d.args ∧ c.control = d.control ∧ c.now = d.now := by
  cases h with
  | @begin _ args =>
    refine .inl ⟨rfl, rfl, ?_⟩
    by_cases hc : (w.queue args.queue).any QueueRow.controlled <;> simp [hc]
  | lock tx | capInFlight tx | capRate tx | pick tx =>
    exact .inr ⟨_, World.claimTx_eq_some.mp tx, rfl, rfl, rfl⟩

theorem ControlRead.step {w w' : World} {a : Act} {queue : String} {ctl : QueueRow}
    (hc : ControlRead w queue ctl) (hq : w.queue queue = some ctl) (h : Effect w a w') :
    ControlRead w' queue ctl := by
  intro s c ht hqueue
  rcases h.tx_cases ht with ht₀ | ⟨hopens, -⟩
  · exact hc s c ht₀ hqueue
  · rcases hopens.claim_cases with ⟨hctl, -⟩ | ⟨d, hd, hargs, hctl, -⟩
    · exact hctl.trans (hqueue ▸ hq)
    · exact hctl.trans (hc s d hd (hargs ▸ hqueue))

theorem History.controlRead {ρ : History} (hρ : ρ.Fresh) {queue : String} {ctl : QueueRow}
    (hfix : ρ.ControlFixed queue ctl) : ∀ n ≤ ρ.length, ControlRead (ρ.state n) queue ctl := by
  intro n
  induction n with
  | zero =>
    obtain ⟨db, clock, queues, h0⟩ := hρ
    simp [ControlRead, h0, World.init]
  | succ n ih =>
    exact fun hn => (ih (Nat.le_of_succ_le hn)).step (hfix n (Nat.le_of_succ_le hn))
      (World.step_effect (ρ.next n hn))

theorem ClaimTx.queueLock_of_control {c : ClaimTx} {ctl : QueueRow} (hctl : c.control = some ctl)
    (hcontrolled : ctl.controlled) (hphase : c.phase ≠ .waiting) :
    c.queueLock = some c.args.queue := by
  unfold ClaimTx.queueLock
  split
  · exact absurd ‹_› hphase
  · simp [hctl, hcontrolled]

theorem Locks.claim_unique {w : World} (hw : Locks w) {queue : String} {ctl : QueueRow}
    (hcr : ControlRead w queue ctl) (hcontrolled : ctl.controlled) {s t : Nat} {c d : ClaimTx}
    (hc : ⟨s, .claim c⟩ ∈ w.txs) (hd : ⟨t, .claim d⟩ ∈ w.txs) (hcq : c.args.queue = queue)
    (hdq : d.args.queue = queue) (hcp : c.phase ≠ .waiting) (hdp : d.phase ≠ .waiting) :
    s = t ∧ c = d := by
  have hlock := ClaimTx.queueLock_of_control (hcr s c hc hcq) hcontrolled hcp
  have hlock' := ClaimTx.queueLock_of_control (hcr t d hd hdq) hcontrolled hdp
  have heq := hw.queue _ hc _ hd queue (hcq ▸ hlock) (hdq ▸ hlock')
  simpa using heq

theorem counted_flight_iff {ctl : QueueRow} {queue : String} {lane : Option String} {r : Jorb} :
    ctl.counted (Db.inFlightOn queue) lane r ↔
      r.queue = queue ∧ r.inFlight ∧ (ctl.partitioned → r.partitionKey = lane) := by
  cases h : ctl.partitioned <;> simp [QueueRow.counted, Db.inFlightOn, h, and_assoc]

theorem Origin.flight {w w' : World} {r' : Jorb} (h : Origin w w' r') (hflight : r'.inFlight) :
    (∃ r ∈ w.db.jorb, SameJob r r' ∧ r.inFlight) ∨
      ∃ s c, ⟨s, .claim c⟩ ∈ w.txs ∧ c.phase = .picked r'.id ∧ r'.queue = c.args.queue ∧
        w'.txs = (w.closeTx s).txs := by
  cases h with
  | born j eq =>
    rw [Jorb.inFlight_iff, eq] at hflight
    simp only [NewJob.row] at hflight
    split at hflight <;> simp at hflight
  | kept mem => exact .inl ⟨r', mem, ⟨rfl, rfl, rfl, rfl, rfl, rfl⟩, hflight⟩
  | @changed r mem same claimedAt runCount change =>
    refine .inl ⟨r, mem, same, ?_⟩
    cases change with
    | edit state => simpa only [Jorb.inFlight, state] using hflight
    | start source => exact source
    | leave source => exact source
    | requeue state =>
      rw [Jorb.inFlight_iff, state, Jorb.requeueState] at hflight
      split at hflight <;> simp at hflight
    | wake source state => simp [Jorb.inFlight_iff, state] at hflight
    | withdraw source state => simp [Jorb.inFlight_iff, state] at hflight
  | @claimed session c r tx phase mem admits ends eq =>
    refine .inr ⟨session, c, tx, by rw [phase, eq]; rfl, ?_, ends⟩
    rw [eq, ← ClaimArgs.admits_queue admits]
    rfl

theorem Effect.flightCount_le {w w' : World} {a : Act} (h : Effect w a w') (hw : Locks w)
    {queue : String} {ctl : QueueRow} {lane : Option String}
    (hno : ∀ s c, ⟨s, .claim c⟩ ∈ w.txs → c.phase ≠ .waiting → c.args.queue = queue →
      w'.txs ≠ (w.closeTx s).txs) :
    w'.flightCount queue ctl lane ≤ w.flightCount queue ctl lane := by
  refine Table.count_le_of_keys fun r' hr' hc => ?_
  obtain ⟨hqueue, hflight, hlane⟩ := counted_flight_iff.mp hc
  rcases (h.origin hw hr').flight hflight with ⟨r, hr, same, hf⟩ | ⟨s, c, hs, hp, hq, hends⟩
  · exact ⟨r, hr, counted_flight_iff.mpr
      ⟨same.queue ▸ hqueue, hf, fun hpart => same.lane ▸ hlane hpart⟩, same.id.symm⟩
  · exact absurd hends (hno s c hs (by simp [hp]) (hq ▸ hqueue))

def ClaimTx.Lets (w : World) (c : ClaimTx) (lane : Option String) : Prop :=
  match c.phase with
  | .waiting => False
  | .locked => False
  | .capped full => full.has lane = false
  | .admitting blocked => blocked.has lane = false
  | .picked jid => ∃ r ∈ w.db.jorb, r.id = jid ∧ r.partitionKey = lane

theorem ClaimTx.Lets.past {w : World} {c : ClaimTx} {lane : Option String} (h : c.Lets w lane) :
    c.phase ≠ .waiting := fun hp => by simp [Lets, hp] at h

theorem ClaimTx.Lets.before {w w' : World} {a : Act} (hw : Locks w) (h : Effect w a w') {s : Nat}
    {c : ClaimTx} (hs : ⟨s, .claim c⟩ ∈ w.txs) {lane : Option String} (hl : c.Lets w' lane) :
    c.Lets w lane := by
  unfold Lets at hl ⊢
  split <;> rename_i hp <;> simp only [hp] at hl
  · exact hl
  · exact hl
  · obtain ⟨r', hr', hid, hlane⟩ := hl
    obtain ⟨r, hr, hrid, -⟩ := hw.picked hs hp
    rcases (h.origin hw hr').source with hborn | ⟨t, ht, same, -⟩
    · exact absurd (Serial.lt_next hr) (by omega)
    · exact ⟨t, ht, same.id.symm.trans hid, same.lane.symm.trans hlane⟩

/-- A claim that lets a lane through has counted it below the cap. -/
def Headroom (w : World) (queue : String) (ctl : QueueRow) (cap : Int) : Prop :=
  ∀ s c lane, ⟨s, .claim c⟩ ∈ w.txs → c.args.queue = queue → c.Lets w lane →
    (w.flightCount queue ctl lane : Int) < cap

section Cap

variable {queue : String} {ctl : QueueRow} {cap : Int}

theorem QueueRow.controlled_of_cap (hctl : ctl.maxConcurrency = some cap) : ctl.controlled := by
  simp [QueueRow.controlled, hctl]

theorem Headroom.opens {w : World} (hh : Headroom w queue ctl cap)
    (hctl : ctl.maxConcurrency = some cap) (hcap : 1 ≤ cap) (hcr : ControlRead w queue ctl)
    (hq : w.queue queue = some ctl) {s : Nat} {c : ClaimTx} (h : Opens w ⟨s, .claim c⟩)
    (hqueue : c.args.queue = queue) {lane : Option String}
    (hl : c.Lets (w.openTx ⟨s, .claim c⟩) lane) : (w.flightCount queue ctl lane : Int) < cap := by
  cases h with
  | begin =>
    subst hqueue
    simp [ClaimTx.Lets, hq, QueueRow.controlled_of_cap hctl] at hl
  | lock => exact hl.elim
  | @capInFlight _ c q lanes tx phase control check =>
    have hread := hcr s c (World.claimTx_eq_some.mp tx) hqueue
    obtain rfl : q = ctl := Option.some.inj (control.symm.trans hread)
    subst hqueue
    rw [QueueRow.capInFlight, hctl] at check
    exact QueueRow.check_headroom hcap check hl
  | @capRate _ c q full lanes tx phase control check =>
    have hfull : full.has lane = false := by
      simp only [ClaimTx.Lets, Lanes.has_union, Bool.or_eq_false_iff] at hl
      exact hl.1
    exact hh s c lane (World.claimTx_eq_some.mp tx) hqueue (by simpa [ClaimTx.Lets, phase])
  | @pick _ c blocked skip scan j tx phase skips first =>
    obtain ⟨hmem, -, hlane, -⟩ := Db.mem_claimable.mp (Db.firstClaimable_mem first)
    obtain ⟨r, hr, hid, hrl⟩ := hl
    obtain rfl : r = j := Serial.eq_of_ident hr hmem hid
    subst hrl
    exact hh s c _ (World.claimTx_eq_some.mp tx) hqueue (by simpa [ClaimTx.Lets, phase])

theorem Headroom.step {w w' : World} {a : Act} (hh : Headroom w queue ctl cap) (hw : Locks w)
    (hctl : ctl.maxConcurrency = some cap) (hcap : 1 ≤ cap) (hcr : ControlRead w queue ctl)
    (hq : w.queue queue = some ctl) (h : Effect w a w') : Headroom w' queue ctl cap := by
  intro s c lane ht hqueue hl
  rcases h.tx_cases ht with ht₀ | ⟨hopens, rfl⟩
  · have hlets := hl.before hw h ht₀
    have hlt := hh s c lane ht₀ hqueue hlets
    have hle : w'.flightCount queue ctl lane ≤ w.flightCount queue ctl lane := by
      refine h.flightCount_le hw fun t d hd hdp hdq hends => ?_
      obtain ⟨rfl, rfl⟩ := hw.claim_unique hcr (QueueRow.controlled_of_cap hctl) ht₀ hd hqueue hdq
        hlets.past hdp
      have := World.mem_closeTx.mp (hends ▸ ht)
      exact this.2 rfl
    omega
  · exact hh.opens hctl hcap hcr hq hopens hqueue hl

theorem History.headroom {ρ : History} (hρ : ρ.Fresh) (hfix : ρ.ControlFixed queue ctl)
    (hctl : ctl.maxConcurrency = some cap) (hcap : 1 ≤ cap) :
    ∀ n ≤ ρ.length, Headroom (ρ.state n) queue ctl cap := by
  have hlocks := History.locks hρ
  have hcr := History.controlRead hρ hfix
  intro n
  induction n with
  | zero =>
    obtain ⟨db, clock, queues, h0⟩ := hρ
    simp [Headroom, h0, World.init]
  | succ n ih =>
    intro hn
    have hle := Nat.le_of_succ_le hn
    exact (ih hle).step (hlocks n hle) hctl hcap (hcr n hle) (hfix n hle)
      (World.step_effect (ρ.next n hn))

theorem Headroom.commit_le {w w' : World} {a : Act} (hh : Headroom w queue ctl cap)
    (hw : Locks w) (h : Effect w a w') {e : Admission} (hlog : w'.log = w.log ++ [e])
    (hqueue : e.queue = queue) : (w'.flightCount queue ctl e.lane : Int) ≤ cap := by
  have same (h : w.log = w.log ++ [e]) : False := by simpa using congrArg List.length h
  cases h with
  | @commit session jid c r db _ act tx phase mem id jorb =>
    obtain rfl : e = ⟨jid, r.queue, r.partitionKey, c.now⟩ := by simpa using hlog.symm
    have hadmits := hw.commit_admits tx phase mem id
    have hlt : (w.db.jorb.count (ctl.counted (Db.inFlightOn queue) r.partitionKey) : Int) < cap :=
      hh session c r.partitionKey (World.claimTx_eq_some.mp tx)
        ((ClaimArgs.admits_queue hadmits).symm.trans hqueue) (by
          simpa only [ClaimTx.Lets, phase] using ⟨r, mem, id, rfl⟩)
    have hle := w.db.jorb.toTable.count_update_key_le jid
      (ctl.counted (Db.inFlightOn queue) r.partitionKey) (c.args.claimed c.now)
    change (db.jorb.count (ctl.counted (Db.inFlightOn queue) r.partitionKey) : Int) ≤ cap
    rw [jorb]
    change ((w.db.jorb.toTable.update (fun r => r.id = jid) (c.args.claimed c.now)).count
      (ctl.counted (Db.inFlightOn queue) r.partitionKey) : Int) ≤ cap
    omega
  | _ => exact (same hlog).elim

end Cap

end Pyjobby
