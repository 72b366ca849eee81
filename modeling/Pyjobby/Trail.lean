import Mathlib.Data.List.Chain
import Pyjobby.Lifecycle

/-! The audit trail: a trigger on the job table records every insert and every change of
state, whichever statement makes it. Rows go with their job, or with age. -/

namespace Pyjobby

open Relational Transition

inductive HistoryDetail where
  | enqueued (queue jobClass : String) (state : JorbState) (prio : Int)
  | moved (state source : JorbState) (runEpoch runCount errorCount : Nat)
      (workerHost : Option String) (workerPid : Option Int) (error : Option String)

structure HistoryEntry where
  jobId : Nat
  at_ : Int
  detail : HistoryDetail

structure HistoryRow where
  id : Nat
  entry : HistoryEntry

namespace HistoryEntry

/-- The column `event`. -/
def event (e : HistoryEntry) : HistoryEvent :=
  match e.detail with
  | .enqueued .. => .enqueued
  | .moved state .. => .moved state

/-- The state the row left its job in. -/
def reached (e : HistoryEntry) : JorbState :=
  match e.detail with
  | .enqueued _ _ state _ => state
  | .moved state .. => state

/-- `detail ->> 'run_epoch'`; a new job has the column's default. -/
def runEpoch (e : HistoryEntry) : Nat :=
  match e.detail with
  | .enqueued .. => 0
  | .moved _ _ runEpoch .. => runEpoch

end HistoryEntry

/-- `record_jorb_history`. -/
def recordJorbHistory (now : Int) (old : Option Jorb) (new : Jorb) : Option HistoryEntry :=
  match old with
  | none => some ⟨new.id, now, .enqueued new.queue new.jobClass new.state new.prio⟩
  | some old =>
    if old.state = new.state then none
    else some ⟨new.id, now, .moved new.state old.state new.runEpoch new.runCount new.errorCount
      new.workerHost new.workerPid
      (if new.state ∈ [.queued, .crashed] then new.errorMessage else none)⟩

/-- `now()` in the transaction whose statement the act is: a claim's is its begin. -/
def World.txNow (w : World) : Act → Int
  | .claimCommit session _ => (w.claimTx session).elim w.clock ClaimTx.now
  | _ => w.clock

/-- The database with the table the trigger writes. -/
structure Audited where
  world : World
  history : Serial HistoryRow.id

inductive AuditAct where
  | env (a : Act)
  | sweepHistory (retention : Int) (limit : Nat) (busy scan : List Nat)

instance : Inhabited AuditAct := ⟨.env default⟩

namespace Audited

def init (clock : Int) (queue : String → Option QueueRow) : Audited :=
  ⟨.init .empty clock queue, .empty 1⟩

def record (history : Serial HistoryRow.id) (e : HistoryEntry) : Serial HistoryRow.id :=
  history.insert (fun id => ⟨id, e⟩) fun _ => rfl

/-- A statement's effect on the history: rows go with the jobs deleted, and the trigger
fires for every row inserted or updated. -/
def follow (history : Serial HistoryRow.id) (now : Int) (db db' : Db) : Serial HistoryRow.id :=
  (db'.jorb.rows.filterMap fun r => recordJorbHistory now (db.jorb.find? r.id) r).foldl record
    (history.delete fun h => (db'.jorb.find? h.entry.jobId).isNone)

/-- `SWEEP_HISTORY_SQL` and the delete: rows past the window, oldest first. -/
def expired (s : Audited) (retention : Int) (limit : Nat) (busy scan : List Nat) : List Nat :=
  let rows := s.history.rows.filter fun h =>
    h.entry.at_ < s.world.clock - retention && h.id ∉ busy
  let order (h k : HistoryRow) : Prop :=
    toLex (h.entry.at_, scan.idxOf h.id) ≤ toLex (k.entry.at_, scan.idxOf k.id)
  ((rows.insertionSort order).map HistoryRow.id).take limit

def step (s : Audited) : AuditAct → Option Audited
  | .env a =>
    (s.world.step a).map fun world =>
      { world, history := follow s.history (s.world.txNow a) s.world.db world.db }
  | .sweepHistory retention limit busy scan =>
    let doomed := s.expired retention limit busy scan
    some { s with history := s.history.delete fun h => h.id ∈ doomed }

/-- A job's rows, in the order of their ids. -/
def trail (s : Audited) (jid : Nat) : List HistoryEntry :=
  (s.history.rows.map HistoryRow.entry).filter fun e => e.jobId = jid

end Audited

abbrev AuditRun := Run Audited.step

/-- The row that follows `e` on the trail of one job. -/
structure HistoryEntry.Follows (e e' : HistoryEntry) : Prop where
  source : ∃ runCount errorCount host pid error, e'.detail =
    .moved e'.reached e.reached e'.runEpoch runCount errorCount host pid error
  moves : e'.reached ≠ e.reached
  legal : isLegal (.moved e.reached) e'.reached
  epoch : e.runEpoch ≤ e'.runEpoch

/-- The rows tell the job's whole life: from its insert along declared edges, each from
where the one before it ended, to the state it is in. -/
structure Walk (r : Jorb) (es : List HistoryEntry) : Prop where
  jobId : ∀ e ∈ es, e.jobId = r.id
  origin : ∃ e es', es = e :: es' ∧ e.event = .enqueued ∧
    (e.reached = .queued ∨ e.reached = .waiting) ∧ ∀ d ∈ es', d.event = .moved d.reached
  chain : es.IsChain HistoryEntry.Follows
  last : ∃ e ∈ es.getLast?, e.reached = r.state ∧ e.runEpoch ≤ r.runEpoch
  claims : es.countP (fun e => e.event = .moved .claimed) = r.runCount

theorem recordJorbHistory_jobId {now : Int} {old : Option Jorb} {new : Jorb} {e : HistoryEntry}
    (h : recordJorbHistory now old new = some e) : e.jobId = new.id := by
  unfold recordJorbHistory at h
  split at h
  · cases h
    rfl
  · split at h
    · cases h
    · cases h
      rfl

namespace Audited

theorem entries_foldl_record (es : List HistoryEntry) (history : Serial HistoryRow.id) :
    (es.foldl record history).rows.map HistoryRow.entry =
      history.rows.map HistoryRow.entry ++ es := by
  induction es generalizing history with
  | nil => simp
  | cons e es ih => simp [ih, record, Serial.insert]

theorem filter_recorded (now : Int) (db db' : Db) (jid : Nat) :
    ((db'.jorb.rows.filterMap fun r => recordJorbHistory now (db.jorb.find? r.id) r).filter
        fun e => e.jobId = jid) =
      (db'.jorb.find? jid).toList.filterMap fun r =>
        recordJorbHistory now (db.jorb.find? jid) r := by
  have hkey := Table.filter_key db'.jorb.toTable jid
  change _ = (db'.jorb.find? jid).toList at hkey
  rw [← hkey, List.filterMap_filter, List.filter_filterMap]
  refine List.filterMap_congr fun r _ => ?_
  by_cases hid : r.id = jid
  · simp only [hid, decide_true, if_true]
    cases h : recordJorbHistory now (db.jorb.find? jid) r with
    | none => rfl
    | some e => simp [Option.filter, recordJorbHistory_jobId h, hid]
  · simp only [hid, decide_false]
    cases h : recordJorbHistory now (db.jorb.find? r.id) r with
    | none => rfl
    | some e => simp [Option.filter, recordJorbHistory_jobId h, hid]

/-- What a step adds to a job's trail is what the trigger records of that job's row. -/
theorem trail_follow (history : Serial HistoryRow.id) (now : Int) (w w' : World) (jid : Nat) :
    trail ⟨w', follow history now w.db w'.db⟩ jid =
      (w'.db.jorb.find? jid).elim [] fun r => trail ⟨w, history⟩ jid ++
        (recordJorbHistory now (w.db.jorb.find? jid) r).toList := by
  simp only [trail, follow, entries_foldl_record, List.filter_append, filter_recorded]
  cases h : w'.db.jorb.find? jid with
  | none =>
    simp only [Option.toList_none, List.filterMap_nil, List.append_nil, Option.elim_none,
      List.filter_eq_nil_iff, List.forall_mem_map, decide_eq_true_eq]
    intro row hrow hid
    simpa [hid, h] using (Serial.mem_delete.mp hrow).2
  | some r =>
    simp only [Option.elim_some]
    congr 1
    · simp only [Serial.delete, Table.delete, List.filter_map, List.filter_filter]
      congr 1
      refine List.filter_congr fun row _ => ?_
      by_cases hid : row.entry.jobId = jid <;> simp [hid, h]

end Audited

/-- Where each element that is `q` follows one that is `p`, there are no more of them. -/
theorem countP_le_of_isChain {α : Type} {R : α → α → Prop} {p q : α → Bool} {xs : List α}
    (hxs : xs.IsChain R) (h : ∀ x ∈ xs, ∀ y, R x y → q y → p x) :
    xs.countP q ≤ xs.countP p + (xs.head?.filter q).toList.length := by
  induction hxs with
  | nil => simp
  | singleton x => cases hq : q x <;> simp [Option.filter, hq]
  | @cons_cons x y xs hR _ ih =>
    have hle := ih fun z hz => h z (List.mem_cons_of_mem x hz)
    have hhead (z : α) : (Option.filter q (some z)).toList.length = if q z then 1 else 0 := by
      cases hq : q z <;> simp [Option.filter, hq]
    have hxy : (if q y then 1 else 0) ≤ if p x then 1 else 0 := by
      cases hq : q y with
      | false => simp
      | true => simp [h x List.mem_cons_self y hR hq]
    rw [List.head?_cons, hhead] at hle ⊢
    rw [List.countP_cons, List.countP_cons (p := p) (a := x)]
    omega

namespace Walk

theorem of_same {r r' : Jorb} {es : List HistoryEntry} (h : Walk r es) (id : r.id = r'.id)
    (state : r'.state = r.state) (runCount : r'.runCount = r.runCount)
    (epoch : r.runEpoch ≤ r'.runEpoch) : Walk r' es := by
  obtain ⟨e, he, hreached, hepoch⟩ := h.last
  exact ⟨fun e he => (h.jobId e he).trans id, h.origin, h.chain,
    ⟨e, he, hreached.trans state.symm, hepoch.trans epoch⟩, h.claims.trans runCount.symm⟩

theorem concat {r r' : Jorb} {es : List HistoryEntry} (h : Walk r es) (id : r.id = r'.id)
    (epoch : r.runEpoch ≤ r'.runEpoch) (ne : r'.state ≠ r.state)
    (legal : isLegal (.moved r.state) r'.state)
    (runCount : r'.runCount = r.runCount + if r'.state = .claimed then 1 else 0) {e : HistoryEntry}
    (jobId : e.jobId = r'.id) {count errors : Nat} {host : Option String} {pid : Option Int}
    {error : Option String}
    (detail : e.detail = .moved r'.state r.state r'.runEpoch count errors host pid error) :
    Walk r' (es ++ [e]) := by
  have hreached : e.reached = r'.state := by simp [HistoryEntry.reached, detail]
  have hepoch : e.runEpoch = r'.runEpoch := by simp [HistoryEntry.runEpoch, detail]
  have hevent : e.event = .moved r'.state := by simp [HistoryEntry.event, detail]
  obtain ⟨z, hz, hzreached, hzepoch⟩ := h.last
  obtain ⟨o, rest, rfl, henqueued, hborn, hrest⟩ := h.origin
  constructor
  · intro d hd
    rcases List.mem_append.mp hd with hd | hd
    · exact (h.jobId d hd).trans id
    · exact List.mem_singleton.mp hd ▸ jobId
  · refine ⟨o, rest ++ [e], rfl, henqueued, hborn, fun d hd => ?_⟩
    rcases List.mem_append.mp hd with hd | hd
    · exact hrest d hd
    · rw [List.mem_singleton.mp hd, hevent, hreached]
  · refine h.chain.append (.singleton e) fun d hd d' hd' => ?_
    obtain rfl : z = d := Option.some.inj (hz.symm.trans hd)
    obtain rfl : e = d' := Option.some.inj hd'
    refine ⟨⟨count, errors, host, pid, error, ?_⟩, ?_, ?_, ?_⟩
    · rw [detail, hreached, hepoch, hzreached]
    · rwa [hreached, hzreached]
    · rwa [hreached, hzreached]
    · exact hepoch ▸ hzepoch.trans epoch
  · exact ⟨e, List.getLast?_concat, hreached, hepoch.le⟩
  · simp only [List.countP_append, h.claims, List.countP_singleton, hevent, runCount,
      HistoryEvent.moved.injEq, decide_eq_true_eq]

theorem record {r r' : Jorb} {es : List HistoryEntry} (h : Walk r es) (id : r.id = r'.id)
    (epoch : r.runEpoch ≤ r'.runEpoch) (hm : Moved r r') (now : Int) :
    Walk r' (es ++ (recordJorbHistory now (some r) r').toList) := by
  by_cases hstate : r.state = r'.state
  · have hcount : r'.runCount = r.runCount := by
      cases hm with
      | stayed state runCount | moved legal other runCount => exact runCount
      | claimed source state => simp [hstate, state] at source
    simpa [recordJorbHistory, hstate] using h.of_same id hstate.symm hcount epoch
  · simp only [recordJorbHistory, hstate, if_false, Option.toList_some]
    refine h.concat id epoch (Ne.symm hstate) (hm.legal.resolve_left (Ne.symm hstate)) ?_ rfl rfl
    cases hm with
    | stayed state => exact absurd state.symm hstate
    | moved legal other runCount => simp [other, runCount]
    | claimed source state runCount => simp [state, runCount]

theorem born {r : Jorb} (hstate : r.state = .queued ∨ r.state = .waiting) (hcount : r.runCount = 0)
    (now : Int) : Walk r (recordJorbHistory now none r).toList := by
  constructor
  · simp [recordJorbHistory]
  · exact ⟨_, [], rfl, rfl, hstate, fun d hd => absurd hd List.not_mem_nil⟩
  · exact .singleton _
  · exact ⟨_, rfl, rfl, Nat.zero_le _⟩
  · simp [recordJorbHistory, HistoryEntry.event, hcount]

/-- Every `running` row follows one that says `claimed`. -/
theorem attempts_le {r : Jorb} {es : List HistoryEntry} (h : Walk r es) :
    es.countP (fun e => e.event = .moved .running) ≤ r.runCount := by
  obtain ⟨o, rest, rfl, henqueued, hborn, hrest⟩ := h.origin
  have hfollow : ∀ e ∈ o :: rest, ∀ e' : HistoryEntry, e.Follows e' →
      e'.event = .moved .running → e.event = .moved .claimed := by
    intro e he e' hfol hrun
    have hreached' : e'.reached = .running := by
      obtain ⟨_, _, _, _, _, hdetail⟩ := hfol.source
      rw [HistoryEntry.event, hdetail] at hrun
      exact HistoryEvent.moved.inj hrun
    have hclaimed : e.reached = .claimed := by
      have hlegal := hfol.legal
      have hne := hfol.moves
      rw [hreached'] at hlegal hne
      revert hlegal hne
      cases e.reached <;> decide
    rcases List.mem_cons.mp he with rfl | he
    · rcases hborn with hborn | hborn <;> rw [hborn] at hclaimed <;> cases hclaimed
    · rw [hrest e he, hclaimed]
  have hle := countP_le_of_isChain h.chain (p := fun e => e.event = .moved .claimed)
    (q := fun e => e.event = .moved .running) (by simpa using hfollow)
  simpa [Option.filter, henqueued, h.claims] using hle

theorem epochs {r : Jorb} {es : List HistoryEntry} (h : Walk r es) :
    es.Pairwise fun e e' => e.runEpoch ≤ e'.runEpoch :=
  (List.isChain_iff_pairwise (R := fun e e' : HistoryEntry => e.runEpoch ≤ e'.runEpoch)).mp
    (h.chain.imp fun _ _ hfol => hfol.epoch)

end Walk

namespace Audited

variable {s s' : Audited}

/-- The entries that no sweep of the window has reached; without a window, all. -/
def recent (s : Audited) (window : Option Int) (es : List HistoryEntry) : List HistoryEntry :=
  es.filter fun e => window.all fun span => s.world.clock - span ≤ e.at_

/-- A requeue takes no job that waits to be claimed, and a sweep leaves the window alone;
without a window there is no sweep. -/
def spares (window : Option Int) : AuditAct → Bool
  | .env a => a.sparesQueued
  | .sweepHistory retention _ _ _ => window.any (· ≤ retention)

/-- Of each job's whole walk the trail holds a part, with all that the window keeps. -/
def Kept (window : Option Int) (s : Audited) (r : Jorb) (es : List HistoryEntry) : Prop :=
  Walk r es ∧ (s.trail r.id).Sublist es ∧ (s.recent window es).Sublist (s.trail r.id)

structure Tracked (window : Option Int) (s : Audited) : Prop where
  locks : Locks s.world
  orphan : ∀ jid, s.world.db.jorb.find? jid = none → s.trail jid = []
  kept : ∀ r ∈ s.world.db.jorb, ∃ es, s.Kept window r es

theorem Kept.env {window : Option Int} {r r' : Jorb} {es : List HistoryEntry}
    (h : s.Kept window r es)
    {w' : World} (hclock : s.world.clock ≤ w'.clock) (hr : r ∈ s.world.db.jorb)
    (hr' : r' ∈ w'.db.jorb) (hid : r.id = r'.id) (hepoch : r.runEpoch ≤ r'.runEpoch)
    (hm : Moved r r') (now : Int) :
    Kept window ⟨w', follow s.history now s.world.db w'.db⟩ r'
      (es ++ (recordJorbHistory now (some r) r').toList) := by
  obtain ⟨hwalk, hsub, hrecent⟩ := h
  have hold : s.world.db.jorb.find? r'.id = some r := Serial.find?_eq_some.mpr ⟨hr, hid⟩
  have htrail : trail ⟨w', follow s.history now s.world.db w'.db⟩ r'.id =
      s.trail r.id ++ (recordJorbHistory now (some r) r').toList := by
    rw [trail_follow, Serial.find?_self hr', hold, hid]
    rfl
  rw [Kept, htrail]
  refine ⟨hwalk.record hid hepoch hm now, hsub.append (List.Sublist.refl _), ?_⟩
  rw [recent, List.filter_append]
  refine (List.Sublist.trans ?_ hrecent).append List.filter_sublist
  refine List.monotone_filter_right es fun e he => ?_
  cases window with
  | none => rfl
  | some span =>
    simp only [Option.all_some, decide_eq_true_eq] at he ⊢
    omega

theorem Tracked.env {window : Option Int} (h : s.Tracked window) {a : Act} {w' : World}
    (hw : s.world.step a = some w') (ha : a.sparesQueued) (now : Int) :
    Tracked window ⟨w', follow s.history now s.world.db w'.db⟩ where
  locks := h.locks.step (World.step_effect hw)
  orphan jid hnone := by rw [trail_follow, hnone]; rfl
  kept r' hr' := by
    rcases World.step_moved h.locks hw ha hr' with ⟨hnew, hstate, hcount⟩ | hold
    · have hnone : s.world.db.jorb.find? r'.id = none := by
        refine Option.eq_none_iff_forall_ne_some.mpr fun r hr => ?_
        obtain ⟨hmem, hid⟩ := Serial.find?_eq_some.mp hr
        exact absurd (hid ▸ Serial.lt_next hmem) hnew.not_gt
      have htrail : trail ⟨w', follow s.history now s.world.db w'.db⟩ r'.id =
          (recordJorbHistory now none r').toList := by
        rw [trail_follow, Serial.find?_self hr', hnone]
        exact congrArg (· ++ _) (h.orphan r'.id hnone)
      refine ⟨_, Walk.born hstate hcount now, ?_, ?_⟩
      · rw [htrail]
      · rw [htrail]
        exact List.filter_sublist
    · obtain ⟨r, hr, hid, hepoch, hm⟩ := hold
      obtain ⟨es, hes⟩ := h.kept r hr
      exact ⟨_, hes.env (World.step_effect hw).clock_le hr hr' hid hepoch hm now⟩

theorem trail_delete (history : Serial HistoryRow.id) (w : World) (p : HistoryRow → Bool)
    (jid : Nat) : (trail ⟨w, history.delete p⟩ jid).Sublist (trail ⟨w, history⟩ jid) :=
  (List.filter_sublist.map _).filter _

theorem expired_old {retention : Int} {limit : Nat} {busy scan : List Nat} {h : HistoryRow}
    (hh : h ∈ s.history) (hid : h.id ∈ s.expired retention limit busy scan) :
    h.entry.at_ < s.world.clock - retention := by
  obtain ⟨k, hk, hkid⟩ := List.mem_map.mp (List.mem_of_mem_take hid)
  obtain ⟨hmem, hold⟩ := List.mem_filter.mp ((List.perm_insertionSort _ _).mem_iff.mp hk)
  obtain rfl := Serial.eq_of_ident hh hmem hkid.symm
  simp only [Bool.and_eq_true, decide_eq_true_eq] at hold
  exact hold.1

theorem Tracked.sweep {span retention : Int} (h : s.Tracked (some span)) (hle : span ≤ retention)
    (limit : Nat) (busy scan : List Nat) :
    Tracked (some span) { s with
      history := s.history.delete fun h => h.id ∈ s.expired retention limit busy scan } where
  locks := h.locks
  orphan jid hnone := List.sublist_nil.mp (h.orphan jid hnone ▸ trail_delete _ _ _ jid)
  kept r hr := by
    obtain ⟨es, hwalk, hsub, hrecent⟩ := h.kept r hr
    refine ⟨es, hwalk, (trail_delete _ _ _ r.id).trans hsub, ?_⟩
    have hspared : (s.trail r.id).filter (fun e => s.world.clock - span ≤ e.at_) =
        (trail ⟨s.world, s.history.delete fun h => h.id ∈ s.expired retention limit busy scan⟩
          r.id).filter fun e => s.world.clock - span ≤ e.at_ := by
      simp only [trail, List.filter_map, Serial.delete, Table.delete, List.filter_filter]
      congr 1
      refine List.filter_congr fun row hrow => ?_
      simp only [Function.comp_apply]
      by_cases hnew : s.world.clock - span ≤ row.entry.at_
      · have hspare : row.id ∉ s.expired retention limit busy scan := fun hid => by
          have hold := expired_old hrow hid
          omega
        simp [hspare]
      · rw [decide_eq_false hnew, Bool.false_and, Bool.false_and]
    have hsame : s.recent (some span) es =
        (s.recent (some span) es).filter fun e => s.world.clock - span ≤ e.at_ := by
      simp [recent]
    calc s.recent (some span) es
        = (s.recent (some span) es).filter fun e => s.world.clock - span ≤ e.at_ := hsame
      List.Sublist _ ((s.trail r.id).filter fun e => s.world.clock - span ≤ e.at_) :=
        hrecent.filter _
      _ = _ := hspared
      List.Sublist _ _ := List.filter_sublist

theorem Tracked.step {window : Option Int} (h : s.Tracked window) {a : AuditAct}
    (ha : spares window a) (hstep : s.step a = some s') : s'.Tracked window := by
  cases a with
  | env b =>
    obtain ⟨w', hw, rfl⟩ := Option.map_eq_some_iff.mp hstep
    exact h.env hw ha _
  | sweepHistory retention limit busy scan =>
    cases hstep
    obtain ⟨span, rfl, hle⟩ := (Option.any_eq_true _ _).mp ha
    exact h.sweep (of_decide_eq_true hle) limit busy scan

theorem Tracked.init (window : Option Int) (clock : Int) (queue : String → Option QueueRow) :
    Tracked window (.init clock queue) where
  locks := Locks.init _ _ _
  orphan _ _ := rfl
  kept _ hr := absurd hr Serial.not_mem_empty

theorem Tracked.job_of_row {window : Option Int} (h : s.Tracked window) {row : HistoryRow}
    (hrow : row ∈ s.history) : ∃ r ∈ s.world.db.jorb, r.id = row.entry.jobId := by
  cases hfind : s.world.db.jorb.find? row.entry.jobId with
  | none =>
    have hmem : row.entry ∈ s.trail row.entry.jobId :=
      List.mem_filter.mpr ⟨List.mem_map_of_mem hrow, by simp⟩
    simp [h.orphan _ hfind] at hmem
  | some r => exact ⟨r, Serial.find?_eq_some.mp hfind⟩

end Audited

namespace AuditRun

theorem tracked {ρ : AuditRun} (hρ : ∃ clock queue, ρ.state 0 = .init clock queue)
    {window : Option Int} (hspare : ∀ n < ρ.length, Audited.spares window (ρ.act n)) :
    ∀ n ≤ ρ.length, (ρ.state n).Tracked window := by
  obtain ⟨clock, queue, h0⟩ := hρ
  exact @Run.invariant_of _ _ _ ρ _ (fun _ a => Audited.spares window a) hspare
    (h0 ▸ .init window clock queue) fun h hok hstep => h.step hok hstep

end AuditRun

/-- Whatever writes the job table and in whatever order, the trail of each job is what the
sweeps have left of one legal walk to the state it is in, every row of the window included;
its epochs never fall, and it shows no more attempts than the job was claimed. -/
theorem history_walks (ρ : AuditRun) (hρ : ∃ clock queue, ρ.state 0 = .init clock queue)
    (window : Option Int) (hspare : ∀ n < ρ.length, Audited.spares window (ρ.act n)) :
    ∀ n ≤ ρ.length,
      (∀ row ∈ (ρ.state n).history, ∃ r ∈ (ρ.state n).world.db.jorb, r.id = row.entry.jobId) ∧
      ∀ r ∈ (ρ.state n).world.db.jorb,
        (∃ es, (ρ.state n).Kept window r es) ∧
        ((ρ.state n).trail r.id).Pairwise (fun e e' => e.runEpoch ≤ e'.runEpoch) ∧
        ((ρ.state n).trail r.id).countP (fun e => e.event = .moved .running) ≤ r.runCount := by
  intro n hn
  have htracked := AuditRun.tracked hρ hspare n hn
  refine ⟨fun row hrow => htracked.job_of_row hrow, fun r hr => ?_⟩
  obtain ⟨es, hes⟩ := htracked.kept r hr
  have hsub : ((ρ.state n).trail r.id).Sublist es := hes.2.1
  exact ⟨⟨es, hes⟩, hes.1.epochs.sublist hsub, hsub.countP_le.trans hes.1.attempts_le⟩

/-- Two attempts ten seconds apart, and a sweep that reaches the first of them. -/
def attemptActs : List AuditAct :=
  let attempt := Act.claim 1 (.plain "q")
  let acts : List Act := .enqueue (.plain "q") :: attempt ++ [.worker 0 (.run none),
    .worker 0 (.retry 0 "boom" ""), .tick 10] ++ attempt ++ [.worker 1 (.run none)]
  acts.map .env ++ [.sweepHistory 5 100 [] []]

def attemptRun : AuditRun := .ofList (.init 0 fun _ => none) attemptActs (by decide)

theorem history_walks_attempts :
    ((attemptRun.state 11).trail 1).length = 6 ∧ ((attemptRun.state 12).trail 1).length = 2 ∧
      ∀ r ∈ (attemptRun.state 12).world.db.jorb,
        ∃ es, (attemptRun.state 12).Kept (some 5) r es := by
  have hspare : ∀ a ∈ attemptActs, Audited.spares (some 5) a := by decide
  have hwalks := history_walks attemptRun ⟨_, _, rfl⟩ (some 5)
    (fun n hn => hspare _ (Run.ofList_act_mem hn)) 12 (by decide)
  exact ⟨by decide, by decide, fun r hr => (hwalks.2 r hr).1⟩

/-- `is_legal` on the names of two rows; no table entry leads to `enqueued`. -/
def legalStep (source target : HistoryEvent) : Bool :=
  match target with
  | .enqueued => false
  | .moved s => isLegal source s

/-- Read by the names of its rows alone, a walk is legal unless its job was cancelled
straight out of the state it was inserted in. -/
theorem Walk.legal_by_name {r : Jorb} {es : List HistoryEntry} (h : Walk r es) :
    (es.map HistoryEntry.event).IsChain (fun e e' => legalStep e e') ↔
      (es.map HistoryEntry.event)[1]? ≠ some (.moved .cancelled) := by
  obtain ⟨o, rest, rfl, henqueued, hborn, hrest⟩ := h.origin
  have hevents : rest.map HistoryEntry.event = rest.map fun d => .moved d.reached :=
    List.map_congr_left hrest
  rw [List.map_cons, henqueued, hevents]
  cases rest with
  | nil => simp
  | cons d rest =>
    obtain ⟨hfol, hchain⟩ := List.isChain_cons_cons.mp h.chain
    have hlater : ((d :: rest).map fun d => HistoryEvent.moved d.reached).IsChain
        fun e e' => legalStep e e' :=
      (List.isChain_map _).mpr (hchain.imp fun _ _ hfol => hfol.legal)
    have hfirst : legalStep .enqueued (.moved d.reached) ↔ d.reached ≠ .cancelled := by
      have hlegal := hfol.legal
      rcases hborn with hborn | hborn <;> rw [hborn] at hlegal <;> revert hlegal <;>
        cases d.reached <;> decide
    rw [List.map_cons] at hlater
    simp [hlater, hfirst]

/-- While nothing is swept the trail of a job is its whole walk, which reads as legal by
the names of its rows exactly when the job was not cancelled before its first move. -/
theorem history_legal_by_name (ρ : AuditRun) (hρ : ∃ clock queue, ρ.state 0 = .init clock queue)
    (hspare : ∀ n < ρ.length, Audited.spares none (ρ.act n)) :
    ∀ n ≤ ρ.length, ∀ r ∈ (ρ.state n).world.db.jorb,
      Walk r ((ρ.state n).trail r.id) ∧
      ((((ρ.state n).trail r.id).map HistoryEntry.event).IsChain (fun e e' => legalStep e e') ↔
        (((ρ.state n).trail r.id).map HistoryEntry.event)[1]? ≠ some (.moved .cancelled)) := by
  intro n hn r hr
  have htracked := AuditRun.tracked hρ hspare n hn
  obtain ⟨es, hwalk, hsub, hrecent⟩ := htracked.kept r hr
  have hall : (ρ.state n).recent none es = es := List.filter_eq_self.mpr fun _ _ => rfl
  obtain rfl := hsub.antisymm (hall ▸ hrecent)
  exact ⟨hwalk, hwalk.legal_by_name⟩

def withdrawnActs : List AuditAct :=
  [.env (.enqueue (.plain "q")), .env (.supervise (.cancel [1]))]

def withdrawnRun : AuditRun := .ofList (.init 0 fun _ => none) withdrawnActs (by decide)

theorem history_legal_by_name_withdrawn :
    ¬(((withdrawnRun.state 2).trail 1).map HistoryEntry.event).IsChain
      fun e e' => legalStep e e' := by
  have hspare : ∀ a ∈ withdrawnActs, Audited.spares none a := by decide
  have hjob : ∃ r ∈ (withdrawnRun.state 2).world.db.jorb.rows, r.id = 1 := by decide
  obtain ⟨r, hr, hid⟩ := hjob
  have hlegal := (history_legal_by_name withdrawnRun ⟨_, _, rfl⟩
    (fun n hn => hspare _ (Run.ofList_act_mem hn)) 2 le_rfl r hr).2
  rw [hid] at hlegal
  exact fun hchain => hlegal.mp hchain (by decide)

end Pyjobby
