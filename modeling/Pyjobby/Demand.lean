import Pyjobby.Registry
import Pyjobby.Wakeup

/-! A worker's demand for wakeups, in its memory and in its registry row. Two
others write to the row: the monitor, which retires silent workers, and the
worker's own heartbeat, which does not take a retirement back. -/

namespace Pyjobby

open Relational Transition

/-- A worker process and the registry. `args` are its startup constants, `idle`
and `workerId` the attributes `_idle` and `worker_id`. Of `beaten` the worker
knows nothing: its last heartbeat succeeded, and the monitor has made no
retirement pass since. -/
structure Station where
  db : Db
  clock : Int
  args : ClaimArgs
  workerId : Option Nat
  idle : Bool
  sleepytime : Bool
  pos : LoopPos
  beaten : Bool

/-- `statement` is the UPDATE that the position awaits; without `ack` its answer
is lost and `ex` issues it again. A heartbeat that `commits` without `ack` looks
failed to the worker. -/
inductive StationAct where
  | tick (d : Nat)
  | join (args : ClaimArgs)
  | peer (wid : Nat) (s : RegistryStmt)
  | retire (grace : Int)
  | sweepRetired (retention : Int) (batch : List Nat)
  | beat (commits ack : Bool)
  | park
  | proceed (refuse : Bool)
  | claim (found report : Bool)
  | statement (ack : Bool)
  | resume

instance : Inhabited StationAct := ⟨.tick 0⟩

namespace Station

def init (db : Db) (clock : Int) (args : ClaimArgs) : Station where
  db := db
  clock := clock
  args := args
  workerId := none
  idle := false
  sleepytime := false
  pos := .top
  beaten := false

/-- One round of `_heartbeat_loop`: the registration as long as there is none. -/
def beat (s : Station) (commits ack : Bool) : Station :=
  if !commits then { s with beaten := false }
  else
    match s.workerId with
    | none =>
      let db := s.db.registerWorker s.clock s.args
      if ack then
        { s with db, workerId := some s.db.worker.next, idle := false, beaten := true }
      else { s with db, beaten := false }
    | some wid => { s with db := s.db.registry s.clock wid .heartbeat, beaten := ack }

def setIdle (s : Station) (idle : Bool) (awaiting next : LoopPos) : Station :=
  if s.idle = idle then { s with pos := next }
  else
    match s.workerId with
    | none => { s with idle, pos := next }
    | some _ => { s with pos := awaiting }

def publish (s : Station) (wid : Nat) (idle : Bool) (next : LoopPos) (ack : Bool) : Station :=
  let written : Station := { s with db := s.db.registry s.clock wid (.publishIdle idle) }
  if ack then { written with idle, pos := next } else written

def step (s : Station) : StationAct → Option Station
  | .tick d => some { s with clock := s.clock + d }
  | .join args => some { s with db := s.db.registerWorker s.clock args }
  | .peer wid stmt =>
    if s.workerId = some wid then none else some { s with db := s.db.registry s.clock wid stmt }
  | .retire grace =>
    some { s with db := s.db.retireDeadWorkers s.clock grace, beaten := false }
  | .sweepRetired retention batch =>
    some { s with db := s.db.sweepRetiredWorkers s.clock retention batch }
  | .beat commits ack => some (s.beat commits ack)
  | .park => if s.pos = .top ∧ s.sleepytime then some { s with pos := .waiting } else none
  | .proceed refuse =>
    if s.pos = .top ∨ s.pos = .waiting then
      if refuse then some ({ s with sleepytime := true }.setIdle false .refusing .top)
      else some { s with pos := .claiming false }
    else none
  | .claim found report =>
    match s.pos with
    | .claiming again =>
      if found then some ({ s with sleepytime := false }.setIdle false .withdrawing .processing)
      else if !again && !s.idle then some (s.setIdle true (.publishing false) (.claiming true))
      else some { s with sleepytime := true, pos := if report then .reporting else .top }
    | _ => none
  | .statement ack =>
    match s.pos, s.workerId with
    | .publishing _, some wid => some (s.publish wid true (.claiming true) ack)
    | .withdrawing, some wid => some (s.publish wid false .processing ack)
    | .refusing, some wid => some (s.publish wid false .top ack)
    | _, _ => none
  | .resume =>
    match s.pos with
    | .reporting | .processing => some { s with pos := .top }
    | _ => none

/-- Parked, registered under `wid`, and sure of its published demand; its last
heartbeat succeeded after the last retirement pass. -/
def Parked (s : Station) (wid : Nat) : Prop :=
  s.pos = .waiting ∧ s.workerId = some wid ∧ s.idle ∧ s.beaten

def Published (s : Station) (wid : Nat) : Prop :=
  ∃ r ∈ s.db.worker, r.id = wid ∧ r.queue = s.args.queue ∧ r.idle ∧ r.shutdownAt = none

/-- A retirement pass leaves the worker's own row alone. -/
def Spared (s : Station) : StationAct → Prop
  | .retire grace =>
    ∀ r ∈ s.db.worker, s.workerId = some r.id → r.silent s.clock grace = false
  | _ => True

def Withdrawing (s : Station) : Prop := s.pos = .withdrawing ∨ s.pos = .refusing

/-- The row as the worker takes it to be. -/
def Trusts (s : Station) (r : WorkerRow) : Prop :=
  r.queue = s.args.queue ∧ r.shutdownAt = none ∧ (s.idle → ¬s.Withdrawing → r.idle)

/-- The worker's row is there, and no retirement has touched it. -/
def Faithful (s : Station) : Prop :=
  ∀ wid, s.workerId = some wid → ∃ r ∈ s.db.worker, r.id = wid ∧ s.Trusts r

variable {s s' : Station}

theorem Trusts.congr {r : WorkerRow} (h : s.Trusts r) (hargs : s'.args = s.args)
    (hidle : s'.idle → ¬s'.Withdrawing → s.idle ∧ ¬s.Withdrawing) : s'.Trusts r :=
  ⟨hargs ▸ h.1, h.2.1, fun hi hw => h.2.2 (hidle hi hw).1 (hidle hi hw).2⟩

theorem Faithful.move (h : s.Faithful) (hdb : s'.db = s.db) (hid : s'.workerId = s.workerId)
    (hargs : s'.args = s.args)
    (hidle : s'.idle → ¬s'.Withdrawing → s.idle ∧ ¬s.Withdrawing) : s'.Faithful := by
  intro wid hwid
  obtain ⟨r, hr, hrid, htrusts⟩ := h wid (hid ▸ hwid)
  exact ⟨r, hdb ▸ hr, hrid, htrusts.congr hargs hidle⟩

theorem Faithful.write (h : s.Faithful) {db : Db} {beaten : Bool}
    (hrow : ∀ r ∈ s.db.worker, s.workerId = some r.id → s.Trusts r →
      ∃ r' ∈ db.worker, r'.id = r.id ∧ s.Trusts r') :
    ({ s with db, beaten } : Station).Faithful := by
  intro wid hwid
  obtain ⟨r, hr, rfl, htrusts⟩ := h wid hwid
  obtain ⟨r', hr', hid, htrusts'⟩ := hrow r hr hwid htrusts
  exact ⟨r', hr', hid, htrusts'⟩

theorem Faithful.setIdle (h : s.Faithful) (hpos : ¬s.Withdrawing) (idle : Bool)
    (awaiting next : LoopPos) : (s.setIdle idle awaiting next).Faithful := by
  unfold Station.setIdle
  split
  · exact h.move rfl rfl rfl fun hi _ => ⟨hi, hpos⟩
  · split
    · rename_i hnone
      intro wid hwid
      simp [hnone] at hwid
    · exact h.move rfl rfl rfl fun hi _ => ⟨hi, hpos⟩

theorem Faithful.publish (h : s.Faithful) {wid : Nat} (hwid : s.workerId = some wid) {idle : Bool}
    (hpos : idle = false → s.Withdrawing) (next : LoopPos) (ack : Bool) :
    (s.publish wid idle next ack).Faithful := by
  obtain ⟨r, hr, rfl, hqueue, hshut, -⟩ := h wid hwid
  have hmem : { r with idle } ∈ (s.db.registry s.clock r.id (.publishIdle idle)).worker :=
    Serial.mem_update.mpr ⟨r, hr, by simp [RegistryStmt.set]⟩
  intro wid' hwid'
  have heq : r.id = wid' := by
    cases ack <;> exact Option.some.inj (hwid.symm.trans hwid')
  cases ack with
  | true => exact ⟨_, hmem, heq, hqueue, hshut, fun hi _ => hi⟩
  | false =>
    refine ⟨_, hmem, heq, hqueue, hshut, fun _ hw => ?_⟩
    by_contra hidle
    exact hw (hpos (by simpa using hidle))

theorem Faithful.beat (h : s.Faithful) (commits ack : Bool) : (s.beat commits ack).Faithful := by
  unfold Station.beat
  split
  · exact h.move rfl rfl rfl fun hi hw => ⟨hi, hw⟩
  · split
    · rename_i hnone
      split
      · intro wid hwid
        obtain rfl := Option.some.inj hwid
        exact ⟨_, Serial.mem_insert.mpr (.inr rfl), rfl, rfl, rfl, nofun⟩
      · intro wid hwid
        simp [hnone] at hwid
    · rename_i wid hsome
      refine h.write fun r hr hid htrusts => ?_
      have heq : r.id = wid := Option.some.inj (hid.symm.trans hsome)
      exact ⟨{ r with lastSeen := s.clock },
        Serial.mem_update.mpr ⟨r, hr, by simp [heq, RegistryStmt.set]⟩, rfl, htrusts⟩

theorem Faithful.step (h : s.Faithful) {a : StationAct} (hspared : s.Spared a)
    (hstep : s.step a = some s') : s'.Faithful := by
  cases a with
  | tick d =>
    cases hstep
    exact h.move rfl rfl rfl fun hi hw => ⟨hi, hw⟩
  | join args =>
    cases hstep
    exact h.write fun r hr _ htrusts => ⟨r, Serial.mem_insert.mpr (.inl hr), rfl, htrusts⟩
  | peer wid stmt =>
    simp only [Station.step] at hstep
    split at hstep
    · cases hstep
    · rename_i hne
      cases hstep
      refine h.write fun r hr hid htrusts => ⟨r, Serial.mem_update.mpr ⟨r, hr, ?_⟩, rfl, htrusts⟩
      have : r.id ≠ wid := fun heq => hne (heq ▸ hid)
      simp [this]
  | retire grace =>
    cases hstep
    refine h.write fun r hr hid htrusts => ⟨r, Serial.mem_update.mpr ⟨r, hr, ?_⟩, rfl, htrusts⟩
    simp [hspared r hr hid]
  | sweepRetired retention batch =>
    cases hstep
    refine h.write fun r hr _ htrusts => ⟨r, Serial.mem_delete.mpr ⟨hr, ?_⟩, rfl, htrusts⟩
    simp [WorkerRow.expired, htrusts.2.1]
  | beat commits ack =>
    cases hstep
    exact h.beat commits ack
  | park =>
    simp only [Station.step] at hstep
    split at hstep
    · rename_i hpos
      cases hstep
      exact h.move rfl rfl rfl fun hi _ => ⟨hi, by simp [Withdrawing, hpos.1]⟩
    · cases hstep
  | proceed refuse =>
    simp only [Station.step] at hstep
    split at hstep
    · rename_i hpos
      have hnot : ¬s.Withdrawing := by
        rcases hpos with hpos | hpos <;> simp [Withdrawing, hpos]
      split at hstep
      · cases hstep
        have hsleepy : ({ s with sleepytime := true } : Station).Faithful :=
          h.move rfl rfl rfl fun hi _ => ⟨hi, hnot⟩
        exact hsleepy.setIdle hnot _ _ _
      · cases hstep
        exact h.move rfl rfl rfl fun hi _ => ⟨hi, hnot⟩
    · cases hstep
  | claim found report =>
    simp only [Station.step] at hstep
    split at hstep
    · rename_i again hpos
      have hnot : ¬s.Withdrawing := by simp [Withdrawing, hpos]
      split at hstep
      · cases hstep
        have hbusy : ({ s with sleepytime := false } : Station).Faithful :=
          h.move rfl rfl rfl fun hi _ => ⟨hi, hnot⟩
        exact hbusy.setIdle hnot _ _ _
      · split at hstep
        · cases hstep
          exact h.setIdle hnot _ _ _
        · cases hstep
          exact h.move rfl rfl rfl fun hi _ => ⟨hi, hnot⟩
    · cases hstep
  | statement ack =>
    simp only [Station.step] at hstep
    split at hstep
    · rename_i hwid
      cases hstep
      exact h.publish hwid (by simp) _ ack
    · rename_i hpos hwid
      cases hstep
      exact h.publish hwid (fun _ => .inl hpos) _ ack
    · rename_i hpos hwid
      cases hstep
      exact h.publish hwid (fun _ => .inr hpos) _ ack
    · cases hstep
  | resume =>
    simp only [Station.step] at hstep
    split at hstep
    · rename_i hpos
      cases hstep
      exact h.move rfl rfl rfl fun hi _ => ⟨hi, by simp [Withdrawing, hpos]⟩
    · rename_i hpos
      cases hstep
      exact h.move rfl rfl rfl fun hi _ => ⟨hi, by simp [Withdrawing, hpos]⟩
    · cases hstep

/-- A retirement of the worker's row that nothing takes back. -/
structure Discounted (s : Station) (wid : Nat) : Prop where
  workerId : s.workerId = some wid
  known : wid < s.db.worker.next
  shut : ∀ r ∈ s.db.worker, r.id = wid → r.shutdownAt ≠ none

theorem Discounted.update {wid : Nat} (h : s.Discounted wid) {p : WorkerRow → Bool}
    {u : Rewrite WorkerRow.id} (hu : ∀ r, r.shutdownAt ≠ none → (u.set r).shutdownAt ≠ none)
    {r' : WorkerRow} (hr' : r' ∈ s.db.worker.update p u) (hid : r'.id = wid) :
    r'.shutdownAt ≠ none := by
  obtain ⟨r, hr, rfl⟩ := Serial.mem_update.mp hr'
  split at hid
  · rename_i hp
    rw [if_pos hp]
    exact hu r (h.shut r hr ((u.key_set r).symm.trans hid))
  · rename_i hp
    rw [if_neg hp]
    exact h.shut r hr hid

theorem Discounted.register {wid : Nat} (h : s.Discounted wid) (args : ClaimArgs) {r : WorkerRow}
    (hr : r ∈ (s.db.registerWorker s.clock args).worker) (hid : r.id = wid) :
    r.shutdownAt ≠ none := by
  rcases Serial.mem_insert.mp hr with hr | rfl
  · exact h.shut r hr hid
  · exact absurd h.known (Nat.not_lt.mpr (Nat.le_of_eq hid))

theorem Discounted.setIdle {wid : Nat} (h : s.Discounted wid) (idle : Bool)
    (awaiting next : LoopPos) : (s.setIdle idle awaiting next).Discounted wid := by
  unfold Station.setIdle
  repeat' split
  all_goals exact ⟨h.workerId, h.known, h.shut⟩

theorem Discounted.publish {wid : Nat} (h : s.Discounted wid) (stmtWid : Nat) (idle : Bool)
    (next : LoopPos) (ack : Bool) : (s.publish stmtWid idle next ack).Discounted wid := by
  have hshut : ∀ r ∈ (s.db.registry s.clock stmtWid (.publishIdle idle)).worker,
      r.id = wid → r.shutdownAt ≠ none := fun r hr hid =>
    h.update (fun _ => RegistryStmt.set_shutdownAt s.clock _) hr hid
  cases ack <;> exact ⟨h.workerId, h.known, hshut⟩

theorem Discounted.step {wid : Nat} (h : s.Discounted wid) {a : StationAct}
    (hstep : s.step a = some s') : s'.Discounted wid := by
  cases a with
  | tick d =>
    cases hstep
    exact ⟨h.workerId, h.known, h.shut⟩
  | join args =>
    cases hstep
    exact ⟨h.workerId, Nat.lt_succ_of_lt h.known, fun r hr hid => h.register args hr hid⟩
  | peer wid' stmt =>
    simp only [Station.step] at hstep
    split at hstep
    · cases hstep
    · cases hstep
      exact ⟨h.workerId, h.known, fun r hr hid =>
        h.update (fun _ => RegistryStmt.set_shutdownAt s.clock stmt) hr hid⟩
  | retire grace =>
    cases hstep
    exact ⟨h.workerId, h.known, fun r hr hid =>
      h.update (fun _ _ => Option.some_ne_none s.clock) hr hid⟩
  | sweepRetired retention batch =>
    cases hstep
    exact ⟨h.workerId, h.known, fun r hr hid => h.shut r (Serial.mem_delete.mp hr).1 hid⟩
  | beat commits ack =>
    cases hstep
    simp only [Station.beat, h.workerId]
    split
    · exact ⟨rfl, h.known, h.shut⟩
    · exact ⟨rfl, h.known, fun r hr hid =>
        h.update (fun _ => RegistryStmt.set_shutdownAt s.clock .heartbeat) hr hid⟩
  | park =>
    simp only [Station.step] at hstep
    split at hstep <;> cases hstep
    exact ⟨h.workerId, h.known, h.shut⟩
  | proceed refuse =>
    simp only [Station.step] at hstep
    repeat' split at hstep
    all_goals cases hstep
    · exact Discounted.setIdle (s := { s with sleepytime := true })
        ⟨h.workerId, h.known, h.shut⟩ _ _ _
    · exact ⟨h.workerId, h.known, h.shut⟩
  | claim found report =>
    simp only [Station.step] at hstep
    repeat' split at hstep
    all_goals cases hstep
    · exact Discounted.setIdle (s := { s with sleepytime := false })
        ⟨h.workerId, h.known, h.shut⟩ _ _ _
    · exact h.setIdle _ _ _
    · exact ⟨h.workerId, h.known, h.shut⟩
    · exact ⟨h.workerId, h.known, h.shut⟩
  | statement ack =>
    simp only [Station.step] at hstep
    split at hstep
    all_goals cases hstep
    all_goals exact h.publish _ _ _ ack
  | resume =>
    simp only [Station.step] at hstep
    split at hstep <;> cases hstep
    all_goals exact ⟨h.workerId, h.known, h.shut⟩

theorem discounted_of_retire {a : StationAct} (hspared : ¬s.Spared a) (hstep : s.step a = some s') :
    ∃ wid, s'.Discounted wid := by
  cases a with
  | retire grace =>
    simp only [Spared, not_forall] at hspared
    obtain ⟨r, hr, hid, hsilent⟩ := hspared
    cases hstep
    have hknown : r.id < s.db.worker.next := Serial.lt_next hr
    refine ⟨r.id, hid, hknown, fun r' hr' hid' => ?_⟩
    obtain ⟨t, ht, rfl⟩ := Serial.mem_update.mp hr'
    split at hid'
    · rename_i ht'
      rw [if_pos ht']
      exact Option.some_ne_none s.clock
    · rename_i ht'
      obtain rfl := Serial.eq_of_ident ht hr hid'
      exact absurd (Bool.not_eq_true _ ▸ ht') hsilent
  | _ => exact absurd trivial hspared

theorem Faithful.init (db : Db) (clock : Int) (args : ClaimArgs) : (init db clock args).Faithful :=
  nofun

end Station

abbrev StationRun := Run Station.step

/-- In every state of every run: a worker that is parked, registered and sure of
its demand is published as idle and live, and counted by the gate of the enqueue
trigger, if and only if no retirement pass so far has retired its row. -/
theorem demand_published (ρ : StationRun) (hρ : ∃ db clock args, ρ.state 0 = .init db clock args)
    {n : Nat} (hn : n ≤ ρ.length) {wid : Nat} (hparked : (ρ.state n).Parked wid) :
    ((ρ.state n).Published wid ↔ ∀ k < n, (ρ.state k).Spared (ρ.act k)) ∧
      ((ρ.state n).Published wid → (ρ.state n).db.idleWorker (ρ.state n).args.queue) := by
  obtain ⟨db, clock, args, h0⟩ := hρ
  obtain ⟨hpos, hwid, hidle, -⟩ := hparked
  refine ⟨⟨fun hpub k hk => ?_, fun hspared => ?_⟩, ?_⟩
  · by_contra hnot
    obtain ⟨wid', hlost⟩ := Station.discounted_of_retire hnot (ρ.next k (hk.trans_le hn))
    have hstill : ∀ m, k < m → m ≤ ρ.length → (ρ.state m).Discounted wid' := by
      intro m hkm
      induction hkm with
      | refl => exact fun _ => hlost
      | step _ ih => exact fun hm => (ih (Nat.le_of_succ_le hm)).step (ρ.next _ hm)
    have hd := hstill n hk hn
    obtain ⟨r, hr, hid, -, -, hshut⟩ := hpub
    exact hd.shut r hr (hid.trans (Option.some.inj (hwid.symm.trans hd.workerId))) hshut
  · have hfaithful : ∀ m ≤ n, (ρ.state m).Faithful := by
      intro m
      induction m with
      | zero => exact fun _ => h0 ▸ Station.Faithful.init db clock args
      | succ m ih =>
        exact fun hm =>
          (ih (Nat.le_of_succ_le hm)).step (hspared m hm) (ρ.next m (Nat.lt_of_lt_of_le hm hn))
    obtain ⟨r, hr, hid, hqueue, hshut, hrow⟩ := hfaithful n le_rfl wid hwid
    exact ⟨r, hr, hid, hqueue, hrow hidle (by simp [Station.Withdrawing, hpos]), hshut⟩
  · rintro ⟨r, hr, -, hqueue, hrow, hshut⟩
    exact List.any_eq_true.mpr ⟨r, hr, by simp [hqueue, hrow, hshut]⟩

def parkActs : List StationAct :=
  [.beat true true, .proceed false, .claim false false, .statement true, .claim false false, .park]

def parkedRun : StationRun :=
  .ofList (.init .empty 0 (.plain "q")) (parkActs ++ [.tick 30, .retire 60, .beat true true])
    (by decide)

theorem demand_published_parked :
    (parkedRun.state 9).Published 1 ∧ (parkedRun.state 9).db.idleWorker "q" := by
  have hparked : (parkedRun.state 9).Parked 1 := ⟨by decide, by decide, by decide, by decide⟩
  obtain ⟨hiff, hgate⟩ := demand_published parkedRun ⟨_, _, _, rfl⟩ (by decide) hparked
  have hpub := hiff.mpr fun k hk => by
    match k, hk with
    | 7, _ =>
      have hrows : ∀ r ∈ (parkedRun.state 7).db.worker.rows, r.silent 30 60 = false := by decide
      exact fun r hr _ => hrows r hr
    | 0, _ | 1, _ | 2, _ | 3, _ | 4, _ | 5, _ | 6, _ | 8, _ => exact trivial
  exact ⟨hpub, hgate hpub⟩

/-- The heartbeat fails for longer than the grace while the worker is parked. -/
def stalledRun : StationRun :=
  .ofList (.init .empty 0 (.plain "q")) (parkActs ++ [.tick 100, .retire 60, .beat true true])
    (by decide)

theorem demand_lost :
    ¬∀ ρ : StationRun, (∃ db clock args, ρ.state 0 = .init db clock args) →
      ∀ n ≤ ρ.length, ∀ wid, (ρ.state n).Parked wid → (ρ.state n).Published wid := by
  intro h
  obtain ⟨r, hr, -, -, hidle, -⟩ :=
    h stalledRun ⟨_, _, _, rfl⟩ 9 (by decide) 1 ⟨by decide, by decide, by decide, by decide⟩
  have hrows : ∀ r ∈ (stalledRun.state 9).db.worker.rows, r.idle = false := by decide
  simp [hrows r hr] at hidle

end Pyjobby
