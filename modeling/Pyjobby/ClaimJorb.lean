import Pyjobby.Invariant

/-! One call of `claim_jorb` from its first statement to its return, and the
limits of a queue as the call enforces them on one lane. -/

namespace Pyjobby

open Relational Transition

structure Limit where
  cap : Int
  counts : Jorb → Bool

namespace QueueRow

def limits (q : QueueRow) (queue : String) (now : Int) : List Limit :=
  (q.maxConcurrency.map fun cap => ⟨cap, Db.inFlightOn queue⟩).toList ++
    (q.rateLimit.map fun cap => ⟨cap, Db.admittedOn queue q.ratePeriod now⟩).toList

/-- The cap checks of the call: `none` returns no row, `some lanes` goes on
without the lanes in `lanes`. -/
def blockedLanes (q : QueueRow) (db : Db) (queue : String) (now : Int) : Option Lanes :=
  if q.controlled then
    (q.capInFlight db queue).bind fun full => (q.capRate db queue now).map full.union
  else some .none

end QueueRow

namespace Db

/-- The claiming UPDATE, which returns the row it wrote. -/
def claimFirst (db : Db) (a : ClaimArgs) (now : Int) (blocked : Lanes) (locked : Nat → Bool)
    (scan : Nat → Nat) : Db × Option Jorb :=
  match db.firstClaimable a now blocked locked scan with
  | none => (db, none)
  | some j =>
    ({ db with jorb := db.jorb.update (fun r => r.id = j.id) (a.claimed now) },
      some ((a.claimed now).set j))

/-- `claim_jorb`, the advisory lock free or not needed. -/
def claimJorb (db : Db) (control : Option QueueRow) (a : ClaimArgs) (now : Int)
    (locked : Nat → Bool) (scan : Nat → Nat) : Db × Option Jorb :=
  match control with
  | none => db.claimFirst a now .none locked scan
  | some q =>
    if q.paused then (db, none)
    else
      match q.blockedLanes db a.queue now with
      | none => (db, none)
      | some blocked => db.claimFirst a now blocked locked scan

theorem claimJorb_paused {q : QueueRow} (h : q.paused) (db : Db) (a : ClaimArgs) (now : Int)
    (locked : Nat → Bool) (scan : Nat → Nat) :
    db.claimJorb (some q) a now locked scan = (db, none) :=
  if_pos h

theorem claimJorb_unpaused {q : QueueRow} (h : q.paused = false) (db : Db) (a : ClaimArgs)
    (now : Int) (locked : Nat → Bool) (scan : Nat → Nat) :
    db.claimJorb (some q) a now locked scan =
      match q.blockedLanes db a.queue now with
      | none => (db, none)
      | some blocked => db.claimFirst a now blocked locked scan :=
  if_neg (by simp [h])

theorem claimFirst_of_nil {db : Db} {a : ClaimArgs} {now : Int} {blocked : Lanes}
    {locked : Nat → Bool} {scan : Nat → Nat} (h : db.claimable a now blocked locked = []) :
    db.claimFirst a now blocked locked scan = (db, none) := by
  simp [claimFirst, firstClaimable_eq_none.mpr h]

theorem claimFirst_isNone {db : Db} {a : ClaimArgs} {now : Int} {blocked : Lanes}
    {locked : Nat → Bool} {scan : Nat → Nat} :
    (db.claimFirst a now blocked locked scan).2 = none ↔
      db.claimable a now blocked locked = [] := by
  have hnil : db.firstClaimable a now blocked locked scan = none ↔ _ := firstClaimable_eq_none
  rw [← hnil, claimFirst]
  cases db.firstClaimable a now blocked locked scan <;> simp

theorem claimFirst_eq_self {db : Db} {a : ClaimArgs} {now : Int} {blocked : Lanes}
    {locked : Nat → Bool} {scan : Nat → Nat} :
    db.claimFirst a now blocked locked scan = (db, none) ↔
      db.claimable a now blocked locked = [] :=
  ⟨fun h => claimFirst_isNone.mp (congrArg Prod.snd h), claimFirst_of_nil⟩

theorem claimable_none_eq_nil {db : Db} {a : ClaimArgs} {now : Int} {locked : Nat → Bool} :
    db.claimable a now .none locked = [] ↔ ∀ r ∈ db.jorb, a.admits now r → locked r.id := by
  simp [List.eq_nil_iff_forall_not_mem, mem_claimable]

end Db

namespace QueueRow

/-- A limit that keeps the rows of `lane` from being claimed. A lane set holds
no lane without a counted row. -/
def Bars (q : QueueRow) (db : Db) (lane : Option String) (l : Limit) : Prop :=
  l.cap ≤ db.jorb.count (q.counted l.counts lane) ∧
    (q.partitioned → 0 < db.jorb.count (q.counted l.counts lane))

theorem check_passes {q : QueueRow} {db : Db} {p : Jorb → Bool} {limit : Option Int}
    {lane : Option String} :
    (∃ lanes, q.check db p limit = some lanes ∧ lanes.has lane = false) ↔
      ∀ cap, limit = some cap → ¬q.Bars db lane ⟨cap, p⟩ := by
  cases limit with
  | none => simp [check]
  | some cap =>
    cases hq : q.partitioned with
    | true =>
      have hhas : (db.saturatedLanes p cap).has lane ↔ _ := Db.saturatedLanes_has
      simp [check, hq, Bars, counted_partitioned hq, ← Bool.not_eq_true, hhas]
      omega
    | false =>
      simp [check, hq, Bars, counted_plain hq]

theorem limits_of_not_controlled {q : QueueRow} (h : q.controlled = false) (queue : String)
    (now : Int) : q.limits queue now = [] := by
  simp only [controlled, Bool.or_eq_false_iff, Option.isSome_eq_false_iff,
    Option.isNone_iff_eq_none] at h
  simp [limits, h.1, h.2]

theorem forall_limits {q : QueueRow} {queue : String} {now : Int} {P : Limit → Prop} :
    (∀ l ∈ q.limits queue now, P l) ↔
      (∀ cap, q.maxConcurrency = some cap → P ⟨cap, Db.inFlightOn queue⟩) ∧
        ∀ cap, q.rateLimit = some cap → P ⟨cap, Db.admittedOn queue q.ratePeriod now⟩ := by
  cases hc : q.maxConcurrency <;> cases hr : q.rateLimit <;> simp [limits, hc, hr]

/-- The call goes on with a row of `lane` exactly when no limit bars the lane. -/
theorem blockedLanes_passes {q : QueueRow} {db : Db} {queue : String} {now : Int}
    {lane : Option String} :
    (∃ blocked, q.blockedLanes db queue now = some blocked ∧ blocked.has lane = false) ↔
      ∀ l ∈ q.limits queue now, ¬q.Bars db lane l := by
  cases hq : q.controlled with
  | false => simp [blockedLanes, hq, limits_of_not_controlled hq]
  | true =>
    rw [forall_limits, ← check_passes, ← check_passes]
    simp only [blockedLanes, hq, if_true]
    constructor
    · rintro ⟨blocked, h, hlane⟩
      obtain ⟨full, hfull, h⟩ := Option.bind_eq_some_iff.mp h
      obtain ⟨rated, hrated, rfl⟩ := Option.map_eq_some_iff.mp h
      rw [Lanes.has_union, Bool.or_eq_false_iff] at hlane
      exact ⟨⟨full, hfull, hlane.1⟩, ⟨rated, hrated, hlane.2⟩⟩
    · rintro ⟨⟨full, hfull, h₁⟩, ⟨rated, hrated, h₂⟩⟩
      refine ⟨full.union rated, ?_, by simp [h₁, h₂]⟩
      exact Option.bind_eq_some_iff.mpr
        ⟨full, hfull, Option.map_eq_some_iff.mpr ⟨rated, hrated, rfl⟩⟩

end QueueRow

namespace Db

section Takes

variable {db : Db} {a : ClaimArgs} {now : Int} {locked : Nat → Bool} {scan : Nat → Nat}
  {q : QueueRow}

theorem claimJorb_isSome :
    (db.claimJorb (some q) a now locked scan).2.isSome ↔
      q.paused = false ∧ ∃ j ∈ db.jorb, a.admits now j ∧ locked j.id = false ∧
        ∀ l ∈ q.limits a.queue now, ¬q.Bars db j.partitionKey l := by
  cases hp : q.paused with
  | true => simp [claimJorb_paused hp]
  | false =>
    rw [claimJorb_unpaused hp]
    cases hb : q.blockedLanes db a.queue now with
    | none =>
      have hnot : ∀ lane, ¬∀ l ∈ q.limits a.queue now, ¬q.Bars db lane l := by
        intro lane hopen
        obtain ⟨blocked, hsome, -⟩ := QueueRow.blockedLanes_passes.mpr hopen
        exact absurd (hb.symm.trans hsome) (by simp)
      simp only [Option.isSome_none, Bool.false_eq_true, true_and, false_iff]
      rintro ⟨j, -, -, -, hopen⟩
      exact hnot j.partitionKey hopen
    | some blocked =>
      have hlane : ∀ lane, (∀ l ∈ q.limits a.queue now, ¬q.Bars db lane l) ↔
          blocked.has lane = false := by
        intro lane
        rw [← QueueRow.blockedLanes_passes, hb]
        simp
      rw [← Option.ne_none_iff_isSome, Ne, claimFirst_isNone, List.eq_nil_iff_forall_not_mem]
      simp only [mem_claimable, hlane]
      push Not
      exact ⟨fun ⟨j, hj, hadmits, hhas, hfree⟩ => ⟨trivial, j, hj, hadmits, hfree, hhas⟩,
        fun ⟨_, j, hj, hadmits, hfree, hhas⟩ => ⟨j, hj, hadmits, hhas, hfree⟩⟩

theorem claimJorb_free {control : Option QueueRow} {r : Jorb}
    (h : (db.claimJorb control a now locked scan).2 = some r) : locked r.id = false := by
  have hfirst : ∀ blocked, (db.claimFirst a now blocked locked scan).2 = some r →
      locked r.id = false := by
    intro blocked h
    unfold claimFirst at h
    split at h
    · cases h
    · next j hj =>
      cases h
      exact (mem_claimable.mp (firstClaimable_mem hj)).2.2.2
  cases control with
  | none => exact hfirst _ h
  | some q =>
    cases hp : q.paused with
    | true =>
      rw [claimJorb_paused hp] at h
      cases h
    | false =>
      rw [claimJorb_unpaused hp] at h
      split at h
      · cases h
      · exact hfirst _ h

end Takes

end Db

namespace QueueRow

theorem blockedLanes_controlled {q : QueueRow} (h : q.controlled) (db : Db) (queue : String)
    (now : Int) : q.blockedLanes db queue now =
      (q.capInFlight db queue).bind fun full => (q.capRate db queue now).map full.union :=
  if_pos h

end QueueRow

namespace World

theorem idleSession_iff {w : World} {s : Nat} : w.idleSession s ↔ ∀ t ∈ w.txs, t.session ≠ s := by
  simp [idleSession, Table.find?_eq_none]

theorem idleSession_closeTx (w : World) (s : Nat) : (w.closeTx s).idleSession s :=
  idleSession_iff.mpr fun _ ht => (mem_closeTx.mp ht).2

/-- `v` is `w` but for the claim transaction that `s` has opened, which has
locked no row yet. -/
structure Calling (w v : World) (s : Nat) (c : ClaimTx) : Prop where
  db : v.db = w.db
  execs : v.execs = w.execs
  claimTx : v.claimTx s = some c
  row : c.row = none
  others : ∀ t, t.session ≠ s → (t ∈ v.txs ↔ t ∈ w.txs)

namespace Calling

variable {w v : World} {s : Nat} {c : ClaimTx}

theorem opened (hrow : c.row = none) :
    w.Calling (w.openTx ⟨s, .claim c⟩) s c where
  db := rfl
  execs := rfl
  claimTx := claimTx_eq_some.mpr (mem_openTx.mpr (.inl rfl))
  row := hrow
  others := by
    intro t ht
    rw [mem_openTx]
    constructor
    · rintro (rfl | ⟨h, -⟩)
      · exact absurd rfl ht
      · exact h
    · exact fun h => .inr ⟨h, ht⟩

theorem setPhase (h : w.Calling v s c) {phase : ClaimPhase}
    (hrow : ({ c with phase } : ClaimTx).row = none) :
    w.Calling (v.setPhase s c phase) s { c with phase } where
  db := h.db
  execs := h.execs
  claimTx := claimTx_eq_some.mpr (mem_openTx.mpr (.inl rfl))
  row := hrow
  others := by
    intro t ht
    rw [← h.others t ht, World.setPhase, mem_openTx]
    constructor
    · rintro (rfl | ⟨h, -⟩)
      · exact absurd rfl ht
      · exact h
    · exact fun h => .inr ⟨h, ht⟩

theorem mine (h : w.Calling v s c) {t : Tx} (ht : t ∈ v.txs) (hs : t.session = s) :
    t = ⟨s, .claim c⟩ :=
  Table.eq_of_key ht (claimTx_eq_some.mp h.claimTx) hs

theorem locked (h : w.Calling v s c) (hidle : w.idleSession s) : v.locked = w.locked := by
  funext i
  rw [Bool.eq_iff_iff, locked_iff, locked_iff]
  constructor
  · rintro ⟨t, ht, hrow⟩
    by_cases hs : t.session = s
    · rw [h.mine ht hs] at hrow
      exact absurd (h.row.symm.trans hrow) (by simp)
    · exact ⟨t, (h.others t hs).mp ht, hrow⟩
  · rintro ⟨t, ht, hrow⟩
    exact ⟨t, (h.others t (idleSession_iff.mp hidle t ht)).mpr ht, hrow⟩

end Calling

structure Called (w w' : World) (s : Nat) (called : Db × Option Jorb) : Prop where
  db : w'.db = called.1
  execs : w'.execs = w.execs ++ called.2.toList
  ended : w'.idleSession s

section Call

variable {w v : World} {s : Nat} {c : ClaimTx}

theorem Calling.closed (h : w.Calling v s c) : w.Called (v.closeTx s) s (w.db, none) :=
  ⟨h.db, by simp [closeTx, h.execs], v.idleSession_closeTx s⟩

theorem Calling.commit (h : w.Calling v s c) {j : Jorb} (hmem : j ∈ w.db.jorb) :
    ∃ w', (v.setPhase s c (.picked j.id)).step (.claimCommit s true) = some w' ∧
      w.Called w' s
        ({ w.db with jorb := w.db.jorb.update (fun r => r.id = j.id) (c.args.claimed c.now) },
          some ((c.args.claimed c.now).set j)) := by
  have htx : (v.setPhase s c (.picked j.id)).claimTx s = some { c with phase := .picked j.id } :=
    claimTx_eq_some.mpr (mem_openTx.mpr (.inl rfl))
  have hfind : (v.setPhase s c (.picked j.id)).db.jorb.find? j.id = some j := by
    rw [World.setPhase, openTx, h.db]
    exact Serial.find?_self hmem
  simp only [step, htx, Option.bind_some, claimCommit, hfind, Option.map_some]
  refine ⟨_, rfl, ?_, ?_, idleSession_closeTx _ s⟩
  · simp [World.setPhase, openTx, h.db]
  · simp [World.setPhase, openTx, h.execs]

theorem Calling.pick (h : w.Calling v s c) (hidle : w.idleSession s) {blocked : Lanes}
    (hphase : c.phase = .admitting blocked) :
    ∃ acts w', acts <+: [.claimPick s [] [], .claimCommit s true] ∧
      exec World.step v acts = some w' ∧
      w.Called w' s (w.db.claimFirst c.args c.now blocked w.locked ([].idxOf ·)) := by
  have hskip : (fun i => v.locked i || decide (i ∈ ([] : List Nat))) = w.locked := by
    funext i
    simp [h.locked hidle]
  have hfirst : v.db.firstClaimable c.args c.now blocked
      (fun i => v.locked i || decide (i ∈ ([] : List Nat))) ([].idxOf ·) =
      w.db.firstClaimable c.args c.now blocked w.locked ([].idxOf ·) := by
    rw [hskip, h.db]
  cases hj : w.db.firstClaimable c.args c.now blocked w.locked ([].idxOf ·) with
  | none =>
    have hpick : v.step (.claimPick s [] []) = some (v.closeTx s) := by
      simp only [step, h.claimTx, Option.bind_some, claimPick, hphase, hfirst, hj]
    refine ⟨[.claimPick s [] []], v.closeTx s, ⟨_, rfl⟩, by simp [exec, hpick], ?_⟩
    simp only [Db.claimFirst, hj]
    exact h.closed
  | some j =>
    have hpick : v.step (.claimPick s [] []) = some (v.setPhase s c (.picked j.id)) := by
      simp only [step, h.claimTx, Option.bind_some, claimPick, hphase, hfirst, hj]
    have hmem : j ∈ w.db.jorb := (Db.mem_claimable.mp (Db.firstClaimable_mem hj)).1
    obtain ⟨w', hcommit, hcalled⟩ := h.commit hmem
    refine ⟨_, w', List.prefix_rfl, by simp [exec, hpick, hcommit], ?_⟩
    simp only [Db.claimFirst, hj]
    exact hcalled

theorem Calling.capRate (h : w.Calling v s c) (hidle : w.idleSession s) {q : QueueRow}
    {full : Lanes} (hq : c.control = some q) (hphase : c.phase = .capped full) :
    ∃ acts w', acts <+: [.claimCapRate s, .claimPick s [] [], .claimCommit s true] ∧
      exec World.step v acts = some w' ∧
      w.Called w' s
        (match (q.capRate w.db c.args.queue c.now).map full.union with
          | none => (w.db, none)
          | some blocked => w.db.claimFirst c.args c.now blocked w.locked ([].idxOf ·)) := by
  have hstep : v.step (.claimCapRate s) =
      some (v.afterCheck s c (q.capRate w.db c.args.queue c.now)
        fun rated => .admitting (full.union rated)) := by
    simp [step, h.claimTx, claimCapRate, hphase, hq, h.db]
  cases hrate : q.capRate w.db c.args.queue c.now with
  | none =>
    rw [hrate] at hstep
    exact ⟨[.claimCapRate s], v.closeTx s, ⟨_, rfl⟩, by simp [exec, hstep, afterCheck], h.closed⟩
  | some rated =>
    rw [hrate] at hstep
    have hnext : w.Calling _ s { c with phase := .admitting (full.union rated) } := h.setPhase rfl
    obtain ⟨acts, w', hpre, hexec, hcalled⟩ := hnext.pick hidle rfl
    refine ⟨.claimCapRate s :: acts, w', List.cons_prefix_cons.mpr ⟨rfl, hpre⟩, ?_, hcalled⟩
    simpa [exec, hstep, afterCheck] using hexec

theorem Calling.capInFlight (h : w.Calling v s c) (hidle : w.idleSession s) {q : QueueRow}
    (hq : c.control = some q) (hctl : q.controlled) (hphase : c.phase = .locked) :
    ∃ acts w', acts <+: [.claimCapInFlight s, .claimCapRate s, .claimPick s [] [],
        .claimCommit s true] ∧
      exec World.step v acts = some w' ∧
      w.Called w' s
        (match q.blockedLanes w.db c.args.queue c.now with
          | none => (w.db, none)
          | some blocked => w.db.claimFirst c.args c.now blocked w.locked ([].idxOf ·)) := by
  have hstep : v.step (.claimCapInFlight s) =
      some (v.afterCheck s c (q.capInFlight w.db c.args.queue) .capped) := by
    simp [step, h.claimTx, claimCapInFlight, hphase, hq, h.db]
  rw [QueueRow.blockedLanes_controlled hctl]
  cases hfull : q.capInFlight w.db c.args.queue with
  | none =>
    rw [hfull] at hstep
    exact ⟨[.claimCapInFlight s], v.closeTx s, ⟨_, rfl⟩, by simp [exec, hstep, afterCheck],
      h.closed⟩
  | some full =>
    rw [hfull] at hstep
    have hnext : w.Calling _ s { c with phase := .capped full } := h.setPhase rfl
    obtain ⟨acts, w', hpre, hexec, hcalled⟩ := hnext.capRate hidle hq rfl
    refine ⟨.claimCapInFlight s :: acts, w', List.cons_prefix_cons.mpr ⟨rfl, hpre⟩, ?_, hcalled⟩
    simpa [exec, hstep, afterCheck] using hexec

/-- An undisturbed call: its statements end, having done what `claimJorb` says. -/
theorem claim_runs {a : ClaimArgs} (hidle : w.idleSession s)
    (hfree : w.queueLocked a.queue = false) :
    ∃ acts w', (acts <+: Act.claim s a ∨ acts <+: Act.controlledClaim s a) ∧
      exec World.step w acts = some w' ∧
      w.Called w' s
        (w.db.claimJorb (w.queue a.queue) a w.clock w.locked ([].idxOf ·)) := by
  have hstep : w.step (.claimBegin s a) = some (w.claimBegin s a) := by simp [step, hidle]
  cases hq : w.queue a.queue with
  | none =>
    have hbegin : w.claimBegin s a =
        w.openTx ⟨s, .claim ⟨a, none, w.clock, .admitting .none⟩⟩ := by
      simp [claimBegin, hq]
    have hopened : w.Calling (w.claimBegin s a) s ⟨a, none, w.clock, .admitting .none⟩ :=
      hbegin ▸ .opened rfl
    obtain ⟨acts, w', hpre, hexec, hcalled⟩ := hopened.pick hidle rfl
    refine ⟨.claimBegin s a :: acts, w', .inl (List.cons_prefix_cons.mpr ⟨rfl, hpre⟩), ?_, hcalled⟩
    simpa [exec, hstep] using hexec
  | some q =>
    cases hpaused : q.paused with
    | true =>
      rw [Db.claimJorb_paused hpaused]
      refine ⟨[.claimBegin s a], w, .inl ⟨_, rfl⟩, ?_, rfl, by simp, hidle⟩
      simp [exec, hstep, claimBegin, hq, hpaused]
    | false =>
      rw [Db.claimJorb_unpaused hpaused]
      cases hctl : q.controlled with
      | false =>
        have hbegin : w.claimBegin s a =
            w.openTx ⟨s, .claim ⟨a, some q, w.clock, .admitting .none⟩⟩ := by
          simp [claimBegin, hq, hpaused, hctl]
        have hopened : w.Calling (w.claimBegin s a) s ⟨a, some q, w.clock, .admitting .none⟩ :=
          hbegin ▸ .opened rfl
        obtain ⟨acts, w', hpre, hexec, hcalled⟩ := hopened.pick hidle rfl
        refine ⟨.claimBegin s a :: acts, w', .inl (List.cons_prefix_cons.mpr ⟨rfl, hpre⟩), ?_, ?_⟩
        · simpa [exec, hstep] using hexec
        · simpa [QueueRow.blockedLanes, hctl] using hcalled
      | true =>
        have hbegin : w.claimBegin s a = w.openTx ⟨s, .claim ⟨a, some q, w.clock, .waiting⟩⟩ := by
          simp [claimBegin, hq, hpaused, hctl]
        have hopened : w.Calling (w.claimBegin s a) s ⟨a, some q, w.clock, .waiting⟩ :=
          hbegin ▸ .opened rfl
        have hfree' : (w.claimBegin s a).queueLocked a.queue = false := by
          rw [← Bool.not_eq_true, queueLocked_iff] at hfree ⊢
          rintro ⟨t, ht, hlock⟩
          by_cases hs : t.session = s
          · rw [hopened.mine ht hs] at hlock
            cases hlock
          · exact hfree ⟨t, (hopened.others t hs).mp ht, hlock⟩
        have hlock : (w.claimBegin s a).step (.claimLock s) =
            some ((w.claimBegin s a).setPhase s ⟨a, some q, w.clock, .waiting⟩ .locked) := by
          simp [step, hopened.claimTx, claimLock, hfree']
        have hlocked : w.Calling _ s ⟨a, some q, w.clock, .locked⟩ := hopened.setPhase rfl
        obtain ⟨acts, w', hpre, hexec, hcalled⟩ := hlocked.capInFlight hidle rfl hctl rfl
        refine ⟨.claimBegin s a :: .claimLock s :: acts, w',
          .inr (List.cons_prefix_cons.mpr ⟨rfl, List.cons_prefix_cons.mpr ⟨rfl, hpre⟩⟩), ?_,
          hcalled⟩
        simpa [exec, hstep, hlock] using hexec

end Call

end World

end Pyjobby
