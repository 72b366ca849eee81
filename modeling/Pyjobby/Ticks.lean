import Pyjobby.Scheduler

/-! Every tick of a schedule is accounted for once. What a transaction has fired it
has fired from the row it holds locked, and the `next_run` it leaves lies beyond
all of it. -/

namespace Pyjobby

open Relational Transition

/-- The row is of a firing, and not the summary of ticks that were not fired. -/
def ScheduleLogRow.firing (e : ScheduleLogRow) : Bool := e.result.skipReason ≠ some .backfillLimit

/-- The ticks of a schedule that the log has firings of. -/
def firedTicks (sid : Nat) (log : List ScheduleLogRow) : List Int :=
  (log.filter fun e => e.scheduleId = sid && e.firing).map ScheduleLogRow.scheduledTime

@[simp]
theorem firedTicks_nil (sid : Nat) : firedTicks sid [] = [] := rfl

@[simp]
theorem firedTicks_append (sid : Nat) (log log' : List ScheduleLogRow) :
    firedTicks sid (log ++ log') = firedTicks sid log ++ firedTicks sid log' := by
  simp [firedTicks]

theorem firedTicks_of_ne {sid : Nat} {log : List ScheduleLogRow}
    (h : ∀ e ∈ log, e.scheduleId ≠ sid) : firedTicks sid log = [] := by
  rw [firedTicks, List.filter_eq_nil_iff.mpr fun e he => by simp [h e he], List.map_nil]

/-- The two rows are of one schedule and one definition. -/
structure SameSchedule (r r' : ScheduleRow) : Prop where
  id : r'.id = r.id
  cronExpr : r'.cronExpr = r.cronExpr
  timezone : r'.timezone = r.timezone

namespace ScheduleRow

variable (schedule : ScheduleRow) (now : Int) (allowJitter : Bool) (env : Readings)
  (row : ScheduleRow)

theorem execute_same : SameSchedule row (schedule.execute now allowJitter env row).2 := by
  unfold execute
  iterate 3
    split
    · exact ⟨rfl, rfl, rfl⟩
  cases env.enqueue <;> exact ⟨rfl, rfl, rfl⟩

theorem execute_firing :
    (schedule.execute now allowJitter env row).1.skipReason ≠ some .backfillLimit := by
  unfold execute
  iterate 3
    split
    · simp [ExecutionResult.skipped]
  cases env.enqueue <;> simp [ExecutionResult.skipped, ExecutionResult.failure]

/-- The summary of the ticks a recovery drops, if it drops any. -/
def summaries (old : List Fire) : List ScheduleLogRow :=
  match droppedWindow old with
  | some (oldest, newest) => [schedule.summary old.length oldest newest]
  | none => []

@[simp]
theorem firedTicks_summaries (sid : Nat) (old : List Fire) :
    firedTicks sid (schedule.summaries old) = [] := by
  unfold summaries
  split <;> simp [firedTicks, ScheduleLogRow.firing, summary, ExecutionResult.skipped]

@[simp]
theorem filter_summaries (old : List Fire) :
    ((schedule.summaries old).filter fun e => !e.firing) = schedule.summaries old := by
  unfold summaries
  split <;> simp [ScheduleLogRow.firing, summary, ExecutionResult.skipped]

end ScheduleRow

/-- The ticks after `next_run` and up to `now` are those dropped and then those
kept; the log has the firings of the due tick and of the kept ones, newest first,
and one summary that counts the dropped. -/
structure Recovery (c : Croniter) (now : Int) (s : ScheduleRow) (log : List ScheduleLogRow)
    (old kept : List Fire) : Prop where
  between : c.Between s.cronExpr s.nextRun now (old ++ kept)
  bound : (kept.length : Int) ≤ s.backfillLimit
  full : old ≠ [] → (kept.length : Int) = s.backfillLimit
  fired : firedTicks s.id log = s.nextRun :: kept.reverse.map Fire.instant
  summary : (log.filter fun e => !e.firing) = s.summaries old

/-- What a transaction has logged accounts for the ticks it found due. -/
structure Accounts (c : Croniter) (now : Int) (s : ScheduleRow) (log : List ScheduleLogRow) :
    Prop where
  backfill : 0 < s.backfillLimit → ∃ old kept, Recovery c now s log old kept
  plain : s.backfillLimit ≤ 0 →
    firedTicks s.id log = [s.nextRun] ∧ (log.filter fun e => !e.firing) = []

namespace Accounts

variable {c : Croniter} {now : Int} {s : ScheduleRow} {log : List ScheduleLogRow}

theorem mem_fired (h : Accounts c now s log) (hdue : s.nextRun ≤ now) {t : Int}
    (ht : t ∈ firedTicks s.id log) : s.nextRun ≤ t ∧ t ≤ now := by
  by_cases hlimit : 0 < s.backfillLimit
  · obtain ⟨old, kept, hrec⟩ := h.backfill hlimit
    rw [hrec.fired] at ht
    rcases List.mem_cons.mp ht with rfl | ht
    · exact ⟨le_rfl, hdue⟩
    · obtain ⟨f, hf, rfl⟩ := List.mem_map.mp ht
      have hmem := (hrec.between.mem f).mp (List.mem_append_right old (List.mem_reverse.mp hf))
      exact ⟨hmem.2.1.le, hmem.2.2⟩
  · rw [(h.plain (not_lt.mp hlimit)).1, List.mem_singleton] at ht
    subst ht
    exact ⟨le_rfl, hdue⟩

theorem nodup_fired (h : Accounts c now s log) : (firedTicks s.id log).Nodup := by
  by_cases hlimit : 0 < s.backfillLimit
  · obtain ⟨old, kept, hrec⟩ := h.backfill hlimit
    rw [hrec.fired, List.nodup_cons]
    constructor
    · intro hmem
      obtain ⟨f, hf, heq⟩ := List.mem_map.mp hmem
      have := (hrec.between.mem f).mp (List.mem_append_right old (List.mem_reverse.mp hf))
      omega
    · rw [List.map_reverse, List.nodup_reverse]
      have hsorted := (List.pairwise_append.mp hrec.between.sorted).2.1
      exact (List.pairwise_map.mpr hsorted).imp fun hlt => ne_of_lt hlt
  · rw [(h.plain (not_lt.mp hlimit)).1]
    exact List.nodup_singleton _

end Accounts

namespace Firing

/-- What holds of a transaction from its lock on. -/
structure Opened (f : Firing) (now : Int) : Prop where
  due : f.schedule.nextRun ≤ now
  same : SameSchedule f.schedule f.row
  own : ∀ e ∈ f.log, e.scheduleId = f.schedule.id

/-- The `next_run` it is to leave is the first tick after its `now()`. -/
def Resolves (cron : CronLib) (now : Int) (f : Firing) : Prop :=
  ∀ c, cron f.schedule.cronExpr f.schedule.timezone = some c →
    ∃ g, c.First f.schedule.cronExpr now g ∧ g.instant = f.nextRun

/-- The log of the transaction accounts for the ticks, whatever they are. -/
def Accounted (cron : CronLib) (now : Int) (f : Firing) : Prop :=
  ∀ c, cron f.schedule.cronExpr f.schedule.timezone = some c → Accounts c now f.schedule f.log

variable {f : Firing} {now : Int}

@[simp]
theorem fire_schedule (f : Firing) (now tick : Int) (allowJitter : Bool) (env : Readings) :
    (f.fire now tick allowJitter env).schedule = f.schedule := rfl

@[simp]
theorem fire_nextRun (f : Firing) (now tick : Int) (allowJitter : Bool) (env : Readings) :
    (f.fire now tick allowJitter env).nextRun = f.nextRun := rfl

theorem Opened.fire (h : f.Opened now) (tick : Int) (allowJitter : Bool) (env : Readings) :
    (f.fire now tick allowJitter env).Opened now := by
  have hsame := f.schedule.execute_same now allowJitter env f.row
  refine ⟨h.due, ⟨hsame.id.trans h.same.id, hsame.cronExpr.trans h.same.cronExpr,
    hsame.timezone.trans h.same.timezone⟩, fun e he => ?_⟩
  rcases List.mem_append.mp he with he | he
  · exact h.own e he
  · rw [List.mem_singleton.mp he]
    rfl

theorem firedTicks_fire (f : Firing) (now tick : Int) (allowJitter : Bool) (env : Readings) :
    firedTicks f.schedule.id (f.fire now tick allowJitter env).log =
      firedTicks f.schedule.id f.log ++ [tick] := by
  have hfiring := f.schedule.execute_firing now allowJitter env f.row
  simp [Firing.fire, firedTicks, ScheduleLogRow.firing, hfiring]

theorem filter_fire (f : Firing) (now tick : Int) (allowJitter : Bool) (env : Readings) :
    ((f.fire now tick allowJitter env).log.filter fun e => !e.firing) =
      f.log.filter fun e => !e.firing := by
  have hfiring := f.schedule.execute_firing now allowJitter env f.row
  simp [Firing.fire, ScheduleLogRow.firing, hfiring]

@[simp]
theorem summarize_schedule (f : Firing) (m : MissedRuns) :
    (f.summarize m).schedule = f.schedule := by
  unfold Firing.summarize
  split <;> rfl

@[simp]
theorem summarize_nextRun (f : Firing) (m : MissedRuns) : (f.summarize m).nextRun = f.nextRun := by
  unfold Firing.summarize
  split <;> rfl

theorem Opened.summarize (h : f.Opened now) (m : MissedRuns) : (f.summarize m).Opened now := by
  unfold Firing.summarize
  split
  · refine ⟨h.due, ⟨h.same.id, h.same.cronExpr, h.same.timezone⟩, fun e he => ?_⟩
    rcases List.mem_append.mp he with he | he
    · exact h.own e he
    · rw [List.mem_singleton.mp he]
      rfl
  · exact h

theorem summarize_log (f : Firing) {m : MissedRuns} {old : List Fire}
    (hdropped : m.dropped = old.length) (hwindow : m.droppedWindow = droppedWindow old) :
    (f.summarize m).log = f.log ++ f.schedule.summaries old := by
  unfold Firing.summarize ScheduleRow.summaries
  rw [hwindow, hdropped]
  cases droppedWindow old <;> simp

end Firing

/-- What a transaction has done by the time it is in a phase. -/
def FiringPhase.Sound (cron : CronLib) (now : Int) : FiringPhase → Prop
  | .begun _ => True
  | .due f => f.Opened now ∧ f.Resolves cron now ∧ f.log = []
  | .backfill f ticks m => f.Opened now ∧ f.Resolves cron now ∧ 0 < f.schedule.backfillLimit ∧
      (f.log.filter fun e => !e.firing) = [] ∧
      ∃ done, m.kept.reverse = done ++ ticks ∧
        firedTicks f.schedule.id f.log = f.schedule.nextRun :: done.map Fire.instant ∧
        ∀ c, cron f.schedule.cronExpr f.schedule.timezone = some c → ∃ old,
          c.Between f.schedule.cronExpr f.schedule.nextRun now (old ++ m.kept) ∧
          m.dropped = old.length ∧ m.droppedWindow = droppedWindow old ∧
          (m.kept.length : Int) ≤ f.schedule.backfillLimit ∧
          (old ≠ [] → (m.kept.length : Int) = f.schedule.backfillLimit)
  | .advance f => f.Opened now ∧ f.Resolves cron now ∧ f.Accounted cron now
  | .closing f => f.Opened now ∧
      ∀ c, cron f.schedule.cronExpr f.schedule.timezone = some c →
        Accounts c now f.schedule f.log ∧
          ∃ g, c.First f.schedule.cronExpr now g ∧ g.instant = f.row.nextRun

namespace FiringTx

variable {cron : CronLib} {now : Int}

theorem resolve_sound {schedule : ScheduleRow} (hdue : schedule.nextRun ≤ now) :
    (resolve cron now schedule).Sound cron now ∧
      ∃ f, (resolve cron now schedule).firing = some f ∧ f.schedule = schedule := by
  unfold resolve
  cases hc : cron schedule.cronExpr schedule.timezone with
  | none =>
    have hnone : nextCronRun cron schedule.cronExpr schedule.timezone (max now schedule.nextRun) =
        none := by simp [nextCronRun, hc]
    rw [hnone]
    refine ⟨⟨⟨hdue, ⟨rfl, rfl, rfl⟩, fun e he => ?_⟩, fun c hsome => ?_⟩, _, rfl, rfl⟩
    · rw [List.mem_singleton.mp he]
    · cases hc.symm.trans hsome
  | some c =>
    obtain ⟨g, hg, hfirst⟩ := nextCronRun_spec hc (max now schedule.nextRun)
    rw [hg]
    rw [max_eq_left hdue] at hfirst
    refine ⟨⟨⟨hdue, ⟨rfl, rfl, rfl⟩, fun _ he => absurd he List.not_mem_nil⟩,
      fun c' hc' => ?_, rfl⟩, _, rfl, rfl⟩
    obtain rfl := Option.some.inj (hc.symm.trans hc')
    exact ⟨g, hfirst, rfl⟩

theorem go_schedule {tx tx' : FiringTx} {env : Readings} (h : tx.go cron env = some tx') :
    tx'.now = tx.now ∧ ∃ f f', tx.phase.firing = some f ∧ tx'.phase.firing = some f' ∧
      f'.schedule = f.schedule := by
  obtain ⟨now, phase⟩ := tx
  unfold go at h
  dsimp only at h
  split at h
  · rename_i f
    split at h
    · cases h
      exact ⟨rfl, f, _, rfl, rfl, rfl⟩
    · obtain ⟨m, -, rfl⟩ := Option.map_eq_some_iff.mp h
      exact ⟨rfl, f, _, rfl, rfl, rfl⟩
  · cases h
    exact ⟨rfl, _, _, rfl, rfl, rfl⟩
  · cases h
    refine ⟨rfl, _, _, rfl, rfl, ?_⟩
    unfold Firing.summarize
    split <;> rfl
  · cases h
    exact ⟨rfl, _, _, rfl, rfl, rfl⟩
  · cases h

theorem go_sound {tx tx' : FiringTx} {env : Readings} (hs : tx.phase.Sound cron tx.now)
    (h : tx.go cron env = some tx') : tx'.phase.Sound cron tx'.now := by
  obtain ⟨now, phase⟩ := tx
  unfold go at h
  dsimp only at h hs
  split at h
  · -- the due tick
    rename_i f
    obtain ⟨hopen, hres, hlog⟩ := hs
    have hfired := f.firedTicks_fire now f.schedule.nextRun true env
    have hfilter := f.filter_fire now f.schedule.nextRun true env
    simp only [hlog, firedTicks_nil, List.nil_append, List.filter_nil] at hfired hfilter
    have hopen' := hopen.fire f.schedule.nextRun true env
    split at h
    · rename_i hlimit
      cases h
      exact ⟨hopen', hres, fun c _ =>
        ⟨fun hpos => absurd hpos (not_lt.mpr hlimit), fun _ => ⟨hfired, hfilter⟩⟩⟩
    · rename_i hlimit
      obtain ⟨m, hm, rfl⟩ := Option.map_eq_some_iff.mp h
      refine ⟨hopen', hres, not_le.mp hlimit, hfilter, [], rfl, hfired, fun c hc => ?_⟩
      obtain ⟨old, m', hm', hspec⟩ := missedCronRuns_spec hc f.schedule.nextRun now
        f.schedule.backfillLimit
      obtain rfl := Option.some.inj (hm.symm.trans hm')
      have hmax : max f.schedule.backfillLimit 0 = f.schedule.backfillLimit :=
        max_eq_left (not_le.mp hlimit).le
      rw [hmax] at hspec
      exact ⟨old, hspec⟩
  · -- a missed tick
    rename_i f tick ticks m
    cases h
    obtain ⟨hopen, hres, hlimit, hfilter, done, hdone, hfired, hmissed⟩ := hs
    refine ⟨hopen.fire _ _ _, hres, hlimit, (f.filter_fire _ _ _ _).trans hfilter,
      done ++ [tick], ?_, ?_, hmissed⟩
    · simp [hdone]
    · simp [f.firedTicks_fire, hfired]
  · -- the summary
    rename_i f m
    cases h
    obtain ⟨hopen, hres, hlimit, hfilter, done, hdone, hfired, hmissed⟩ := hs
    rw [List.append_nil] at hdone
    refine ⟨hopen.summarize m, fun c hc => ?_, fun c hc => ⟨fun _ => ?_, fun hle => ?_⟩⟩
    · rw [f.summarize_schedule] at hc ⊢
      rw [f.summarize_nextRun]
      exact hres c hc
    · rw [f.summarize_schedule] at hc ⊢
      obtain ⟨old, hbetween, hdropped, hwindow, hbound, hfull⟩ := hmissed c hc
      have hlog := f.summarize_log hdropped hwindow
      refine ⟨old, m.kept, hbetween, hbound, hfull, ?_, ?_⟩
      · simp [hlog, hfired, hdone]
      · simp [hlog, hfilter]
    · rw [f.summarize_schedule] at hle
      omega
  · cases h
    obtain ⟨hopen, hres, hacc⟩ := hs
    refine ⟨⟨hopen.due, ?_, hopen.own⟩, fun c hc => ⟨hacc c hc, hres c hc⟩⟩
    exact ⟨hopen.same.id, hopen.same.cronExpr, hopen.same.timezone⟩
  · cases h

end FiringTx

/-- What a process has done of its transaction. -/
def SchedulerWorker.Sound (cron : CronLib) (w : SchedulerWorker) : Prop :=
  ∀ tx, w.tx = some tx → tx.phase.Sound cron tx.now

/-- The schedule a process has locked, as it was when it locked it. -/
def SchedulerWorker.schedule (w : SchedulerWorker) : Option ScheduleRow :=
  (w.tx.bind fun tx => tx.phase.firing).map Firing.schedule

theorem SchedulerWorker.locks_eq (w : SchedulerWorker) :
    w.locks = w.schedule.map ScheduleRow.id := by
  simp [locks, schedule, Option.map_map, Function.comp_def]

/-- The `next_run` of a schedule is one of its ticks, and the first that it has
not fired; a locked schedule stays as its holder read it. -/
structure Schedulers.Ledger (cron : CronLib) (s : Schedulers) : Prop where
  tick : ∀ r ∈ s.db.schedule, ∀ c, cron r.cronExpr r.timezone = some c →
    ∃ g, c.Tick r.cronExpr g ∧ g.instant = r.nextRun
  once : ∀ r ∈ s.db.schedule, (cron r.cronExpr r.timezone).isSome →
    (firedTicks r.id s.db.log).Nodup ∧ ∀ t ∈ firedTicks r.id s.db.log, t < r.nextRun
  fresh : ∀ e ∈ s.db.log, e.scheduleId < s.db.schedule.next
  sound : ∀ w ∈ s.workers, w.Sound cron
  held : ∀ w ∈ s.workers, ∀ r, w.schedule = some r → r ∈ s.db.schedule
  alone : ∀ (i j : Nat) (w v : SchedulerWorker), s.workers[i]? = some w →
    s.workers[j]? = some v → ∀ sid, w.locks = some sid → v.locks = some sid → i = j

namespace Schedulers.Ledger

variable {cron : CronLib} {s s' : Schedulers}

theorem init (workers : Nat) (clock : Int) : Ledger cron (.init workers clock) where
  tick := fun _ hr => absurd hr Serial.not_mem_empty
  once := fun _ hr => absurd hr Serial.not_mem_empty
  fresh := fun _ he => absurd he List.not_mem_nil
  sound := fun w hw tx htx => by
    rw [(List.mem_replicate.mp hw).2] at htx
    cases htx
  held := fun w hw r hr => by
    rw [(List.mem_replicate.mp hw).2] at hr
    cases hr
  alone := fun i j w v hw hv sid hsid => by
    rw [(List.mem_replicate.mp (List.mem_of_getElem? hw)).2] at hsid
    cases hsid

theorem setWorker_cases {i j : Nat} {w w' : SchedulerWorker}
    (hw : (s.setWorker i w').workers[j]? = some w) :
    j ≠ i ∧ s.workers[j]? = some w ∨ j = i ∧ w = w' := by
  have hset : (s.workers.set i w')[j]? = some w := hw
  by_cases hij : i = j
  · subst hij
    have hlt : i < (s.workers.set i w').length := (List.getElem?_eq_some_iff.mp hset).1
    rw [List.length_set] at hlt
    exact .inr ⟨rfl, (Option.some.inj ((List.getElem?_set_self hlt).symm.trans hset)).symm⟩
  · exact .inl ⟨Ne.symm hij, (List.getElem?_set_ne hij).symm.trans hset⟩

theorem setWorker (h : Ledger cron s) {i : Nat} {w' : SchedulerWorker} (hsound : w'.Sound cron)
    (hheld : ∀ r, w'.schedule = some r → r ∈ s.db.schedule)
    (hfree : ∀ sid, w'.locks = some sid → ∀ j v, s.workers[j]? = some v → v.locks = some sid →
      j = i) : Ledger cron (s.setWorker i w') where
  tick := h.tick
  once := h.once
  fresh := h.fresh
  sound := fun w hw => by
    rcases List.mem_or_eq_of_mem_set hw with hw | rfl
    · exact h.sound w hw
    · exact hsound
  held := fun w hw => by
    rcases List.mem_or_eq_of_mem_set hw with hw | rfl
    · exact h.held w hw
    · exact hheld
  alone := fun j k w v hw hv sid hwsid hvsid => by
    rcases setWorker_cases hw with ⟨-, hwold⟩ | ⟨rfl, rfl⟩ <;>
      rcases setWorker_cases hv with ⟨-, hvold⟩ | ⟨rfl, rfl⟩
    · exact h.alone j k w v hwold hvold sid hwsid hvsid
    · exact hfree sid hvsid j w hwold hwsid
    · exact (hfree sid hwsid k v hvold hvsid).symm
    · rfl

theorem idle (h : Ledger cron s) {i : Nat} {w : SchedulerWorker} (hw : w.Sound cron)
    (hnone : w.schedule = none) : Ledger cron (s.setWorker i w) := by
  refine h.setWorker hw (fun r hr => ?_) fun sid hsid => ?_
  · cases hnone.symm.trans hr
  · rw [w.locks_eq, hnone] at hsid
    cases hsid

theorem create (h : Ledger cron s) {n : NewSchedule} {next : Fire} {after : Int}
    (hnext : nextCronRun cron n.cronExpr n.timezone after = some next) :
    Ledger cron { s with
      db := { s.db with schedule := s.db.schedule.insert (n.row next.instant) fun _ => rfl } } where
  tick := fun r hr c hc => by
    rcases (Serial.mem_insert (h := fun _ => rfl)).mp hr with hr | rfl
    · exact h.tick r hr c hc
    · obtain ⟨g, hg, hfirst⟩ := nextCronRun_spec hc after
      obtain rfl := Option.some.inj (hnext.symm.trans hg)
      exact ⟨_, hfirst.tick, rfl⟩
  once := fun r hr hsome => by
    rcases (Serial.mem_insert (h := fun _ => rfl)).mp hr with hr | rfl
    · exact h.once r hr hsome
    · have hnone : firedTicks s.db.schedule.next s.db.log = [] :=
        firedTicks_of_ne fun e he => (h.fresh e he).ne
      have hid : (n.row next.instant s.db.schedule.next).id = s.db.schedule.next := rfl
      rw [hid, hnone]
      exact ⟨List.nodup_nil, fun _ ht => absurd ht List.not_mem_nil⟩
  fresh := fun e he => Nat.lt_succ_of_lt (h.fresh e he)
  sound := h.sound
  held := fun w hw r hr => Serial.mem_insert_of_mem (h := fun _ => rfl) (h.held w hw r hr)
  alone := h.alone

theorem edit (h : Ledger cron s) {sid : Nat} (hfree : s.locked sid = false) (enabled : Bool)
    (failures : Int) :
    Ledger cron { s with
      db := { s.db with
        schedule := s.db.schedule.update (fun r => r.id = sid)
          ⟨fun r => { r with enabled, consecutiveFailures := failures }, fun _ => rfl⟩ } } where
  tick := fun r' hr' => by
    obtain ⟨r, hr, rfl⟩ := Serial.mem_update.mp hr'
    split <;> exact h.tick r hr
  once := fun r' hr' => by
    obtain ⟨r, hr, rfl⟩ := Serial.mem_update.mp hr'
    split <;> exact h.once r hr
  fresh := h.fresh
  sound := h.sound
  held := fun w hw r hr => by
    have hne : r.id ≠ sid := by
      intro hid
      have hlocks : w.locks = some sid := by rw [w.locks_eq, hr, Option.map_some, hid]
      have := List.any_eq_false.mp hfree w hw
      simp [hlocks] at this
    refine Serial.mem_update.mpr ⟨r, h.held w hw r hr, ?_⟩
    simp [hne]
  alone := h.alone

theorem lockDue_eq_some {now : Int} {sid : Nat} {r : ScheduleRow}
    (h : s.lockDue now sid = some r) :
    r ∈ s.db.schedule ∧ r.id = sid ∧ r.nextRun ≤ now ∧ s.locked sid = false := by
  obtain ⟨hfind, hdue⟩ := Option.filter_eq_some_iff.mp h
  obtain ⟨hmem, hid⟩ := Serial.find?_eq_some.mp hfind
  simp only [Bool.and_eq_true, decide_eq_true_eq, Bool.not_eq_true'] at hdue
  exact ⟨hmem, hid, hdue.1.2, hdue.2⟩

theorem not_locks {sid : Nat} (h : s.locked sid = false) {w : SchedulerWorker}
    (hw : w ∈ s.workers) : w.locks ≠ some sid := by
  simpa using List.any_eq_false.mp h w hw

theorem lock (h : Ledger cron s) {i : Nat} {w : SchedulerWorker} {now : Int} {sid : Nat}
    {schedule : ScheduleRow} (hlock : s.lockDue now sid = some schedule) :
    Ledger cron
      (s.setWorker i { w with tx := some ⟨now, FiringTx.resolve cron now schedule⟩ }) := by
  obtain ⟨hmem, rfl, hdue, hfree⟩ := lockDue_eq_some hlock
  have hresolve : (FiringTx.resolve cron now schedule).Sound cron now ∧ _ :=
    FiringTx.resolve_sound hdue
  obtain ⟨hsound, f, hf, hschedule⟩ := hresolve
  have hholds : SchedulerWorker.schedule { w with
      tx := some ⟨now, FiringTx.resolve cron now schedule⟩ } = some schedule := by
    simp [SchedulerWorker.schedule, hf, hschedule]
  refine h.setWorker (fun tx htx => ?_) (fun r hr => ?_) fun sid hsid j v hv hvsid => ?_
  · rw [← Option.some.inj htx]
    exact hsound
  · rw [← Option.some.inj (hholds.symm.trans hr)]
    exact hmem
  · rw [SchedulerWorker.locks_eq, hholds, Option.map_some, Option.some.injEq] at hsid
    exact absurd (hsid ▸ hvsid) (not_locks hfree (List.mem_of_getElem? hv))

theorem go (h : Ledger cron s) {i : Nat} {w : SchedulerWorker} (hw : s.workers[i]? = some w)
    {tx tx' : FiringTx} {env : Readings} (htx : w.tx = some tx) (hgo : tx.go cron env = some tx') :
    Ledger cron (s.setWorker i { w with tx := some tx' }) := by
  obtain ⟨-, f, f', hf, hf', hsame⟩ := FiringTx.go_schedule hgo
  have hold : w.schedule = some f.schedule := by simp [SchedulerWorker.schedule, htx, hf]
  have hnew : SchedulerWorker.schedule { w with tx := some tx' } = some f.schedule := by
    simp [SchedulerWorker.schedule, hf', hsame]
  refine h.setWorker (fun t ht => ?_) (fun r hr => ?_) fun sid hsid j v hv hvsid => ?_
  · rw [← Option.some.inj ht]
    exact FiringTx.go_sound (h.sound w (List.mem_of_getElem? hw) tx htx) hgo
  · exact h.held w (List.mem_of_getElem? hw) r (hold.trans (hnew.symm.trans hr))
  · refine h.alone j i v w hv hw sid hvsid ?_
    rw [SchedulerWorker.locks_eq, hnew, ← hold, ← SchedulerWorker.locks_eq] at hsid
    exact hsid

theorem once_commit {db : ScheduleDb} {now : Int} {f : Firing} (hopen : f.Opened now)
    {c : Croniter} (hacc : Accounts c now f.schedule f.log)
    (hnext : ∃ g, c.First f.schedule.cronExpr now g ∧ g.instant = f.row.nextRun)
    (honce : (firedTicks f.schedule.id db.log).Nodup ∧
      ∀ t ∈ firedTicks f.schedule.id db.log, t < f.schedule.nextRun) :
    (firedTicks f.schedule.id (db.commit f).log).Nodup ∧
      ∀ t ∈ firedTicks f.schedule.id (db.commit f).log, t < f.row.nextRun := by
  obtain ⟨g, hfirst, hg⟩ := hnext
  have hafter : now < f.row.nextRun := hg ▸ hfirst.after
  have hdue := hopen.due
  simp only [ScheduleDb.commit, firedTicks_append]
  constructor
  · refine List.nodup_append.mpr ⟨honce.1, hacc.nodup_fired, fun t ht t' ht' heq => ?_⟩
    have := honce.2 t ht
    have := (hacc.mem_fired hdue ht').1
    omega
  · intro t ht
    rcases List.mem_append.mp ht with ht | ht
    · have := honce.2 t ht
      omega
    · have := (hacc.mem_fired hdue ht).2
      omega

theorem commit (h : Ledger cron s) {i : Nat} {w : SchedulerWorker} (hw : s.workers[i]? = some w)
    {now : Int} {f : Firing} (htx : w.tx = some ⟨now, .closing f⟩) :
    Ledger cron { s.setWorker i { w with tx := none } with db := s.db.commit f } := by
  have hmem := List.mem_of_getElem? hw
  have hholds : w.schedule = some f.schedule := by
    simp [SchedulerWorker.schedule, htx, FiringPhase.firing]
  have hrow := h.held w hmem _ hholds
  obtain ⟨hopen, hclosed⟩ : FiringPhase.Sound cron now (.closing f) := h.sound w hmem _ htx
  have hcron : cron f.row.cronExpr f.row.timezone =
      cron f.schedule.cronExpr f.schedule.timezone := by
    rw [hopen.same.cronExpr, hopen.same.timezone]
  have hidle : Ledger cron (s.setWorker i { w with tx := none }) :=
    h.idle (fun _ htx => by cases htx) rfl
  have source {r' : ScheduleRow} (hr' : r' ∈ (s.db.commit f).schedule) :
      r' = { f.row with id := f.schedule.id } ∨ r' ∈ s.db.schedule ∧ r'.id ≠ f.schedule.id := by
    obtain ⟨r, hr, rfl⟩ := Serial.mem_update.mp hr'
    by_cases hid : r.id = f.schedule.id
    · simp [hid]
    · simp [hid, hr]
  refine ⟨fun r hr c hc => ?_, fun r hr hsome => ?_, fun e he => ?_, hidle.sound,
    fun v hv r hr => ?_, hidle.alone⟩
  · rcases source hr with rfl | ⟨hr, -⟩
    · obtain ⟨-, g, hfirst, hg⟩ := hclosed c (hcron.symm.trans hc)
      exact ⟨g, hopen.same.cronExpr ▸ hfirst.tick, hg⟩
    · exact h.tick r hr c hc
  · rcases source hr with rfl | ⟨hr, hne⟩
    · obtain ⟨c, hc⟩ := Option.isSome_iff_exists.mp hsome
      have hc := hcron.symm.trans hc
      obtain ⟨hacc, hnext⟩ := hclosed c hc
      exact once_commit hopen hacc hnext (h.once _ hrow (by simp [hc]))
    · have hnone : firedTicks r.id f.log = [] :=
        firedTicks_of_ne fun e he => hopen.own e he ▸ hne.symm
      have honce := h.once r hr hsome
      simpa [ScheduleDb.commit, hnone] using honce
  · rcases List.mem_append.mp he with he | he
    · exact h.fresh e he
    · rw [hopen.own e he]
      exact Serial.lt_next (t := s.db.schedule) hrow
  · -- nobody else has the schedule locked
    obtain ⟨j, hj⟩ := List.getElem?_of_mem hv
    have hne : r.id ≠ f.schedule.id := by
      intro hid
      have hlocks : w.locks = some f.schedule.id := by rw [w.locks_eq, hholds, Option.map_some]
      have hvlocks : v.locks = some f.schedule.id := by rw [v.locks_eq, hr, Option.map_some, hid]
      rcases setWorker_cases hj with ⟨hji, hold⟩ | ⟨-, rfl⟩
      · exact hji (h.alone j i v w hold hw _ hvlocks hlocks)
      · cases hr
    exact Serial.mem_update.mpr ⟨r, hidle.held v hv r hr, by simp [hne]⟩

theorem step (h : Ledger cron s) {a : ScheduleAct} (hstep : s.step cron a = some s') :
    Ledger cron s' := by
  cases a with
  | tick d =>
    cases hstep
    exact ⟨h.tick, h.once, h.fresh, h.sound, h.held, h.alone⟩
  | create n lag =>
    obtain ⟨next, hnext, rfl⟩ := Option.map_eq_some_iff.mp hstep
    exact h.create hnext
  | edit sid enabled failures =>
    simp only [Schedulers.step] at hstep
    split at hstep
    · cases hstep
    · cases hstep
      exact h.edit (by simpa using ‹¬s.locked sid = true›) enabled failures
  | poll i =>
    obtain ⟨w, -, hstep⟩ := Option.bind_eq_some_iff.mp hstep
    split at hstep
    · cases hstep
      exact h.idle (fun _ htx => by cases htx) rfl
    · cases hstep
  | begin i =>
    obtain ⟨w, -, hstep⟩ := Option.bind_eq_some_iff.mp hstep
    split at hstep
    · cases hstep
      refine h.idle (fun tx htx => ?_) rfl
      cases htx
      trivial
    · cases hstep
  | lock i =>
    obtain ⟨w, -, hstep⟩ := Option.bind_eq_some_iff.mp hstep
    split at hstep
    · split at hstep
      · cases hstep
        exact h.lock ‹_›
      · cases hstep
        exact h.idle (fun _ htx => by cases htx) rfl
    · cases hstep
  | go i env =>
    obtain ⟨w, hw, hstep⟩ := Option.bind_eq_some_iff.mp hstep
    obtain ⟨tx', htx', rfl⟩ := Option.map_eq_some_iff.mp hstep
    obtain ⟨tx, htx, hgo⟩ := Option.bind_eq_some_iff.mp htx'
    exact h.go hw htx hgo
  | commit i =>
    obtain ⟨w, hw, hstep⟩ := Option.bind_eq_some_iff.mp hstep
    split at hstep
    · cases hstep
      exact h.commit hw ‹_›
    · cases hstep
  | rollback i =>
    obtain ⟨w, -, rfl⟩ := Option.map_eq_some_iff.mp hstep
    exact h.idle (fun _ htx => by cases htx) rfl
  | crash i =>
    obtain ⟨w, -, rfl⟩ := Option.map_eq_some_iff.mp hstep
    exact h.idle (fun _ htx => by cases htx) rfl

end Schedulers.Ledger

/-- Process `i` is about to commit `f`, whose transaction began at `now`. -/
def Schedulers.Closing (s : Schedulers) (i : Nat) (now : Int) (f : Firing) : Prop :=
  ∃ w, s.workers[i]? = some w ∧ w.tx = some ⟨now, .closing f⟩

/-- In every run of any number of schedulers no tick of a schedule is fired twice.
A committed recovery starts from the row as the table has it, whose `next_run` is
a tick; with a backfill limit it accounts for every tick up to the database's now;
and the `next_run` it leaves is the first tick after that. -/
theorem ticks_accounted_once (cron : CronLib) (ρ : SchedulerRun cron)
    (hρ : ∃ workers clock, ρ.state 0 = .init workers clock) :
    (∀ n ≤ ρ.length, ∀ r ∈ (ρ.state n).db.schedule, (cron r.cronExpr r.timezone).isSome →
      (firedTicks r.id (ρ.state n).db.log).Nodup) ∧
    ∀ n < ρ.length, ∀ i, ρ.act n = .commit i → ∃ now f, (ρ.state n).Closing i now f ∧
      f.schedule ∈ (ρ.state n).db.schedule ∧ f.schedule.nextRun ≤ now ∧
      (ρ.state (n + 1)).db.log = (ρ.state n).db.log ++ f.log ∧
      ∀ c, cron f.schedule.cronExpr f.schedule.timezone = some c →
        (∃ g, c.Tick f.schedule.cronExpr g ∧ g.instant = f.schedule.nextRun) ∧
        (0 < f.schedule.backfillLimit → ∃ old kept, Recovery c now f.schedule f.log old kept) ∧
        ∃ r ∈ (ρ.state (n + 1)).db.schedule, r.id = f.schedule.id ∧
          ∃ g, c.First f.schedule.cronExpr now g ∧ g.instant = r.nextRun := by
  obtain ⟨workers, clock, h0⟩ := hρ
  have hledger : ∀ n ≤ ρ.length, (ρ.state n).Ledger cron :=
    ρ.invariant (h0 ▸ .init workers clock) fun h hstep => h.step hstep
  refine ⟨fun n hn r hr hsome => ((hledger n hn).once r hr hsome).1, fun n hn i hact => ?_⟩
  have hl := hledger n hn.le
  have hstep := ρ.next n hn
  rw [hact] at hstep
  obtain ⟨w, hw, hstep⟩ := Option.bind_eq_some_iff.mp hstep
  split at hstep
  · rename_i now f htx
    have hnext := (Option.some.inj hstep).symm
    have hmem := List.mem_of_getElem? hw
    have hrow := hl.held w hmem f.schedule
      (by simp [SchedulerWorker.schedule, htx, FiringPhase.firing])
    obtain ⟨hopen, hclosed⟩ : FiringPhase.Sound cron now (.closing f) := hl.sound w hmem _ htx
    refine ⟨now, f, ⟨w, hw, htx⟩, hrow, hopen.due, by rw [hnext]; rfl, fun c hc => ?_⟩
    obtain ⟨hacc, hfirst⟩ := hclosed c hc
    refine ⟨hl.tick _ hrow c hc, hacc.backfill, { f.row with id := f.schedule.id }, ?_, rfl, hfirst⟩
    rw [hnext]
    exact Serial.mem_update.mpr ⟨_, hrow, by simp⟩
  · cases hstep

def minutely : Croniter where
  getNext start k := ⟨60 * (start / 60 + 1 + k), false⟩
  Fires f := f.fold = false ∧ 60 ∣ f.instant
  suffix start := by
    refine ⟨fun hjk => ?_, fun f => ⟨?_, ?_⟩⟩
    · dsimp only
      omega
    · rintro ⟨⟨hfold, m, hm⟩, hlt⟩
      obtain ⟨instant, fold⟩ := f
      dsimp only at hfold hm hlt
      refine ⟨(m - start / 60 - 1).toNat, ?_⟩
      rw [hfold, hm]
      congr 1
      omega
    · rintro ⟨k, rfl⟩
      exact ⟨⟨rfl, Int.dvd_mul_right 60 _⟩, by dsimp only; omega⟩
  folds_end _ k := ⟨k, le_rfl, rfl⟩

def minutelySchedule : NewSchedule where
  cronExpr := "* * * * *"
  timezone := "UTC"
  enabled := true
  maxConcurrentJobs := 10
  jitterSeconds := 0
  backfillLimit := 2
  backpressureThreshold := none
  circuitBreakerThreshold := 5

/-- A recovery after five minutes, and a second scheduler that finds the row locked. -/
def recoveryActs : List ScheduleAct :=
  [.create minutelySchedule 0, .tick 300, .poll 0, .poll 1, .begin 0, .begin 1, .lock 0, .lock 1,
    .go 0 ⟨0, 0, 0, .created 1⟩, .go 0 ⟨1, 0, 0, .created 2⟩, .go 0 ⟨2, 0, 0, .duplicate⟩,
    .go 0 ⟨0, 0, 0, .duplicate⟩, .go 0 ⟨0, 0, 0, .duplicate⟩, .commit 0]

def recoveryRun : SchedulerRun fun _ _ => some minutely :=
  .ofList (.init 2 0) recoveryActs (by decide +kernel)

theorem ticks_accounted_once_recovery :
    firedTicks 1 (recoveryRun.state 14).db.log = [60, 300, 240] ∧
      (recoveryRun.state 14).db.log.length = 4 ∧
      (recoveryRun.state 14).db.schedule.rows.map ScheduleRow.nextRun = [360] ∧
      ∀ r ∈ (recoveryRun.state 14).db.schedule,
        (firedTicks r.id (recoveryRun.state 14).db.log).Nodup := by
  refine ⟨by decide +kernel, by decide +kernel, by decide +kernel, fun r hr => ?_⟩
  exact (ticks_accounted_once _ recoveryRun ⟨2, 0, rfl⟩).1 14 (by decide) r hr rfl

end Pyjobby
