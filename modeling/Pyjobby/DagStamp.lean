import Pyjobby.DagWaits
import Pyjobby.Fork
import Pyjobby.Rows

/-! The completion stamp of a job graph: a trigger on the job table keeps it, and
runs where a member's state changes. -/

namespace Pyjobby

open Relational Transition

structure DagRow where
  id : Nat
  name : Option String
  created : Int
  completed : Option Int

/-- The column `dag_id`, by job id. -/
abbrev DagIds := Nat → Option Nat

/-- The members of a graph that have not ended. -/
def pendingMembers (jobs : Serial Jorb.id) (dagId : DagIds) (d : Nat) : Nat :=
  jobs.count fun j => dagId j.id = some d && !j.state.terminal

def IsMember (jobs : Serial Jorb.id) (dagId : DagIds) (d : Nat) (j : Jorb) : Prop :=
  j ∈ jobs ∧ dagId j.id = some d

/-- The stamp of a graph that still has members says whether all of them have ended. -/
def DagRow.Truthful (jobs : Serial Jorb.id) (dagId : DagIds) (r : DagRow) : Prop :=
  (∃ j, IsMember jobs dagId r.id j) →
    (r.completed.isSome ↔ ∀ j, IsMember jobs dagId r.id j → j.state.terminal)

/-- The last statement of `complete_jorb_dag`. -/
def completeJorbDag (now : Int) (pending d : Nat) (dags : Serial DagRow.id) : Serial DagRow.id :=
  if pending = 0 then
    dags.update (fun r => r.id = d && r.completed.isNone)
      ⟨fun r => { r with completed := some now }, fun _ => rfl⟩
  else
    dags.update (fun r => r.id = d && r.completed.isSome)
      ⟨fun r => { r with completed := none }, fun _ => rfl⟩

/-- The WHEN clause of `jorb_dag_complete`, the graph apart. -/
def JorbState.crosses (old new : JorbState) : Bool :=
  old ≠ new && (new.terminal || old.terminal)

/-- The graph whose stamp the trigger looks at for a row of the new job table. -/
def firedFor (old : Serial Jorb.id) (dagId : DagIds) (j : Jorb) : Option Nat :=
  (old.find? j.id).bind fun o => if o.state.crosses j.state then dagId j.id else none

/-- The row triggers of one UPDATE run after all of it, and see what it wrote. -/
def jorbDagComplete (now : Int) (old new : Serial Jorb.id) (dagId : DagIds)
    (dags : Serial DagRow.id) : Serial DagRow.id :=
  (new.rows.filterMap (firedFor old dagId)).foldl
    (fun dags d => completeJorbDag now (pendingMembers new dagId d) d dags) dags

/-- The system of `World` with its graphs. -/
structure DagWorld where
  world : World
  dagId : DagIds
  dags : Serial DagRow.id

inductive DagAct where
  | world (a : Act)
  | fork (jid : Nat) (fromStep : Int) (o : ForkOptions)
  | execute (d : Dag Nat) (order : SetOrder Nat) (name : Option String)
  | sweepOrphanedDags (retention : Int) (batch : List Nat)

instance : Inhabited DagAct := ⟨.world default⟩

namespace DagWorld

def init (db : Db) (clock : Int) (queue : String → Option QueueRow) : DagWorld :=
  ⟨.init db clock queue, fun _ => none, .empty 1⟩

/-- `DAGBuilder.execute`: the row of the graph, its jobs, and their `dag_id`. -/
def execute (s : DagWorld) (d : Dag Nat) (order : SetOrder Nat) (name : Option String) :
    Option DagWorld :=
  (d.execute order s.world.clock s.world.db).toOption.map fun (db, jobs) =>
    let row (id : Nat) : DagRow := ⟨id, name, s.world.clock, none⟩
    { world := { s.world with db }
      dagId := fun i => if i ∈ jobs.map Prod.snd then some s.dags.next else s.dagId i
      dags := s.dags.insert row fun _ => rfl }

def hasMember (s : DagWorld) (d : Nat) : Bool :=
  s.world.db.jorb.rows.any fun j => s.dagId j.id = some d

def step (s : DagWorld) : DagAct → Option DagWorld
  | .world a =>
    (s.world.step a).map fun w' =>
      { s with
        world := w',
        dags := jorbDagComplete s.world.clock s.world.db.jorb w'.db.jorb s.dagId s.dags }
  | .fork jid fromStep o =>
    (s.world.db.forkJob s.world.clock jid fromStep o).toOption.map fun (db, _) =>
      { s with world := { s.world with db } }
  | .execute d order name => s.execute d order name
  | .sweepOrphanedDags retention batch =>
    some { s with
      dags := s.dags.delete fun r =>
        r.id ∈ batch && r.created < s.world.clock - retention && !s.hasMember r.id }

/-- Every stamp is right. -/
def Truthful (s : DagWorld) : Prop := ∀ d ∈ s.dags, d.Truthful s.world.db.jorb s.dagId

/-- A deletion that leaves members of a pending graph leaves a pending one. -/
def LeavesPending (s : DagWorld) (a : DagAct) : Prop :=
  ∀ batch, a = .world (.delete batch) → ∀ d ∈ s.dags,
    (∃ j, IsMember s.world.db.jorb s.dagId d.id j ∧ j.state.terminal = false) →
      (∃ j, IsMember s.world.db.jorb s.dagId d.id j ∧ j.id ∉ batch) →
        ∃ j, IsMember s.world.db.jorb s.dagId d.id j ∧ j.id ∉ batch ∧ j.state.terminal = false

end DagWorld

abbrev DagRun := Run DagWorld.step

theorem pendingMembers_eq_zero {jobs : Serial Jorb.id} {dagId : DagIds} {d : Nat} :
    pendingMembers jobs dagId d = 0 ↔ ∀ j, IsMember jobs dagId d j → j.state.terminal := by
  simp only [pendingMembers, Table.count, List.countP_eq_zero, Bool.and_eq_true, decide_eq_true_eq,
    Bool.not_eq_true', not_and, Bool.not_eq_false, IsMember, and_imp, Serial.mem_rows]

theorem completeJorbDag_cases {now : Int} {pending d : Nat} {dags : Serial DagRow.id} {r' : DagRow}
    (h : r' ∈ completeJorbDag now pending d dags) :
    ∃ r ∈ dags, r.id = r'.id ∧ (r.id ≠ d → r' = r) ∧
      (r.id = d → (r'.completed.isSome ↔ pending = 0)) := by
  unfold completeJorbDag at h
  split at h
  all_goals
    obtain ⟨r, hr, rfl⟩ := Serial.mem_update.mp h
    refine ⟨r, hr, ?_⟩
    by_cases hid : r.id = d <;> cases hc : r.completed <;> simp_all

theorem completeJorbDag_foldl (now : Int) (pending : Nat → Nat) (ds : List Nat)
    {dags : Serial DagRow.id} {r' : DagRow}
    (h : r' ∈ ds.foldl (fun dags d => completeJorbDag now (pending d) d dags) dags) :
    ∃ r ∈ dags, r.id = r'.id ∧ (r.id ∉ ds → r' = r) ∧
      (r.id ∈ ds → (r'.completed.isSome ↔ pending r.id = 0)) := by
  induction ds generalizing dags with
  | nil => exact ⟨r', h, rfl, fun _ => rfl, fun hr => absurd hr List.not_mem_nil⟩
  | cons d ds ih =>
    obtain ⟨s, hs, hsid, hskeep, hsset⟩ := ih h
    obtain ⟨r, hr, hid, hkeep, hset⟩ := completeJorbDag_cases hs
    refine ⟨r, hr, hid.trans hsid, fun hnot => ?_, fun hmem => ?_⟩
    · obtain ⟨hne, hnot⟩ := not_or.mp fun hr => hnot (List.mem_cons.mpr hr)
      exact (hskeep (hid ▸ hnot)).trans (hkeep hne)
    · by_cases hds : s.id ∈ ds
      · exact hid ▸ hsset hds
      · have hd : r.id = d := (List.mem_cons.mp hmem).resolve_right (hid ▸ hds)
        rw [hskeep hds, hset hd, hd]

theorem jorbDagComplete_cases {now : Int} {old new : Serial Jorb.id} {dagId : DagIds}
    {dags : Serial DagRow.id} {r' : DagRow} (h : r' ∈ jorbDagComplete now old new dagId dags) :
    ∃ r ∈ dags, r.id = r'.id ∧
      (r.id ∉ new.rows.filterMap (firedFor old dagId) → r' = r) ∧
      (r.id ∈ new.rows.filterMap (firedFor old dagId) →
        (r'.completed.isSome ↔ pendingMembers new dagId r.id = 0)) :=
  completeJorbDag_foldl now (pendingMembers new dagId) _ h

theorem JorbState.crosses_eq_false {old new : JorbState} (h : old.crosses new = false) :
    new.terminal = old.terminal := by
  cases old <;> cases new <;> first | rfl | exact absurd h (by decide)

/-- Where no member of a graph crosses into or out of an end, or the row is gone or
new, the stamps stay. -/
theorem jorbDagComplete_of_kept {now : Int} {old new : Serial Jorb.id} {dagId : DagIds}
    {dags : Serial DagRow.id} (h : ∀ j ∈ new, j ∈ old ∨ old.find? j.id = none) :
    jorbDagComplete now old new dagId dags = dags := by
  have hnone : new.rows.filterMap (firedFor old dagId) = [] := by
    refine List.filterMap_eq_nil_iff.mpr fun j hj => ?_
    rcases h j hj with hold | hold
    · simp [firedFor, Serial.find?_self hold, JorbState.crosses]
    · simp [firedFor, hold]
  simp [jorbDagComplete, hnone]

/-- Both tables hold the same jobs. -/
structure SameIds (old new : Serial Jorb.id) : Prop where
  back : ∀ j' ∈ new, ∃ j ∈ old, j.id = j'.id
  forth : ∀ j ∈ old, ∃ j' ∈ new, j'.id = j.id

theorem SameIds.refl (t : Serial Jorb.id) : SameIds t t :=
  ⟨fun j hj => ⟨j, hj, rfl⟩, fun j hj => ⟨j, hj, rfl⟩⟩

theorem SameIds.update (t : Serial Jorb.id) (p : Jorb → Bool) (u : Rewrite Jorb.id) :
    SameIds t (t.update p u) := by
  have hkey (j : Jorb) : (if p j then u.set j else j).id = j.id := by
    split
    · exact u.key_set j
    · rfl
  refine ⟨fun j' hj' => ?_, fun j hj => ⟨_, Serial.mem_update.mpr ⟨j, hj, rfl⟩, hkey j⟩⟩
  obtain ⟨j, hj, rfl⟩ := Serial.mem_update.mp hj'
  exact ⟨j, hj, (hkey j).symm⟩

theorem DagRow.Truthful.complete {now : Int} {old new : Serial Jorb.id} {dagId : DagIds}
    {dags : Serial DagRow.id} (hids : SameIds old new) (h : ∀ d ∈ dags, d.Truthful old dagId) :
    ∀ d ∈ jorbDagComplete now old new dagId dags, d.Truthful new dagId := by
  intro d' hd' hmember
  obtain ⟨d, hd, hid, hkeep, hset⟩ := jorbDagComplete_cases hd'
  by_cases hfired : d.id ∈ new.rows.filterMap (firedFor old dagId)
  · rw [hset hfired, pendingMembers_eq_zero, hid]
  · obtain rfl := hkeep hfired
    have hsame : ∀ j ∈ old, ∀ j' ∈ new, j.id = j'.id → dagId j.id = some d'.id →
        j'.state.terminal = j.state.terminal := by
      intro j hj j' hj' hjid hdag
      refine JorbState.crosses_eq_false (Bool.eq_false_iff.mpr fun hcross => hfired ?_)
      refine List.mem_filterMap.mpr ⟨j', hj', ?_⟩
      simp [firedFor, ← hjid, Serial.find?_self hj, hcross, hdag]
    obtain ⟨j', hj', hdag'⟩ := hmember
    obtain ⟨j, hj, hjid⟩ := hids.back j' hj'
    rw [h d' hd ⟨j, hj, hjid ▸ hdag'⟩]
    constructor
    · rintro hall k' ⟨hk', hkdag⟩
      obtain ⟨k, hk, hkid⟩ := hids.back k' hk'
      rw [hsame k hk k' hk' hkid (hkid ▸ hkdag)]
      exact hall k ⟨hk, hkid ▸ hkdag⟩
    · rintro hall k ⟨hk, hkdag⟩
      obtain ⟨k', hk', hkid⟩ := hids.forth k hk
      rw [← hsame k hk k' hk' hkid.symm hkdag]
      exact hall k' ⟨hk', hkid.symm ▸ hkdag⟩

/-- What the jobs of a graph leave the table of before them as, state and id. -/
structure Built (db db' : Db) (ids : List Nat) : Prop where
  back : ∀ j' ∈ db'.jorb, (∃ j ∈ db.jorb, j.id = j'.id ∧ j.state = j'.state) ∨
    j'.id ∈ ids ∧ j'.state.terminal = false
  forth : ∀ j ∈ db.jorb, ∃ j' ∈ db'.jorb, j'.id = j.id ∧ j'.state = j.state
  fresh : ∀ i ∈ ids, db.jorb.next ≤ i ∧ i < db'.jorb.next
  next_le : db.jorb.next ≤ db'.jorb.next

theorem NewJob.row_pending (j : NewJob) (now : Int) (id : Nat) :
    (j.row now id).state.terminal = false := by
  unfold NewJob.row
  dsimp only
  split <;> rfl

section Build

variable {α : Type} [DecidableEq α]

def Wiring.ids (w : Wiring α) : List Nat := w.nodeToJob.map Prod.snd

theorem Wiring.record_spec (w : Wiring α) (member_of : Option α) (n : α) (id : Nat) (db : Db) :
    (w.record member_of n id db).db = db ∧ (w.record member_of n id db).ids = w.ids ++ [id] := by
  unfold Wiring.record Wiring.ids
  split <;> simp

theorem Built.place {d : Dag α} {key : α → Option α} {now : Int} {db : Db} {w w' : Wiring α}
    {n : α} (hw : Built db w.db w.ids) (h : d.place key now w n = .ok w') :
    Built db w'.db w'.ids := by
  obtain ⟨job, db', hjorb, rfl⟩ := Dag.place_eq_ok h
  obtain ⟨hdb, hids⟩ := w.record_spec (key n) n w.db.jorb.next db'
  have hnext : db'.jorb.next = w.db.jorb.next + 1 := congrArg Serial.next hjorb
  have hle := hw.next_le
  rw [hdb, hids]
  refine ⟨fun j' hj' => ?_, fun j hj => ?_, fun i hi => ?_, by omega⟩
  · rw [hjorb] at hj'
    rcases (Serial.mem_insert (h := fun _ => rfl)).mp hj' with hold | rfl
    · exact (hw.back j' hold).imp_right fun ⟨hmem, hstate⟩ =>
        ⟨List.mem_append_left _ hmem, hstate⟩
    · exact .inr ⟨List.mem_append_right _ (List.mem_singleton.mpr rfl), job.row_pending _ _⟩
  · obtain ⟨j', hj', hsame⟩ := hw.forth j hj
    exact ⟨j', hjorb ▸ Serial.mem_insert_of_mem (h := fun _ => rfl) hj', hsame⟩
  · rcases List.mem_append.mp hi with hi | hi
    · have := hw.fresh i hi
      omega
    · rw [List.mem_singleton.mp hi]
      omega

theorem Built.placeAll {d : Dag α} {key : α → Option α} {now : Int} {db : Db} (ns : List α)
    {w w' : Wiring α} (hw : Built db w.db w.ids) (h : d.placeAll key now w ns = .ok w') :
    Built db w'.db w'.ids :=
  Dag.placeAll_keeps (fun _ _ _ hw h => Built.place hw h) ns hw h

theorem Built.setRunGroup {db db' : Db} {ids : List Nat} (hdb : Built db db' ids) (gid : Nat)
    (batch : List Nat) : Built db (db'.setRunGroup gid batch) ids := by
  have hrow {j : Jorb} :
      (if j.id ∈ batch then { j with runGroup := some (gid : Int) } else j).id = j.id ∧
      (if j.id ∈ batch then { j with runGroup := some (gid : Int) } else j).state = j.state := by
    split <;> exact ⟨rfl, rfl⟩
  refine ⟨fun j' hj' => ?_, fun j hj => ?_, hdb.fresh, hdb.next_le⟩
  · obtain ⟨j, hj, rfl⟩ := Serial.mem_update.mp hj'
    simp only [decide_eq_true_eq]
    rw [hrow.1, hrow.2]
    exact hdb.back j hj
  · obtain ⟨j', hj', hid, hstate⟩ := hdb.forth j hj
    refine ⟨_, Serial.mem_update.mpr ⟨j', hj', rfl⟩, ?_⟩
    simp only [decide_eq_true_eq]
    exact ⟨hrow.1.trans hid, hrow.2.trans hstate⟩

theorem Built.stamp {db : Db} {w : Wiring α} (hw : Built db w.db w.ids) :
    Built db w.stamp w.ids := by
  unfold Wiring.stamp
  suffices h : ∀ (entries : List (α × Nat)) (db' : Db), Built db db' w.ids →
      Built db (entries.foldl (fun db e => db.setRunGroup e.2 (w.memberIds e.1)) db') w.ids from
    h w.groupId w.db hw
  intro entries
  induction entries with
  | nil => exact fun _ hdb => hdb
  | cons e entries ih => exact fun db' hdb => ih _ (hdb.setRunGroup e.2 (w.memberIds e.1))

theorem Built.execute {d : Dag α} {order : SetOrder α} {now : Int} {db db' : Db}
    {jobs : List (α × Nat)} (h : d.execute order now db = .ok (db', jobs)) :
    Built db db' (jobs.map Prod.snd) := by
  simp only [Dag.execute, bind, Except.bind, pure, Except.pure] at h
  split at h
  · cases h
  split at h
  · cases h
  split at h
  · cases h
  split at h
  · cases h
  · rename_i w hplace
    cases h
    have hinit :
        Built db (Wiring.mk (α := α) db [] [] []).db (Wiring.mk (α := α) db [] [] []).ids :=
      ⟨fun j hj => .inl ⟨j, hj, rfl, rfl⟩, fun j hj => ⟨j, hj, rfl, rfl⟩,
        fun i hi => absurd hi List.not_mem_nil, le_rfl⟩
    exact (hinit.placeAll _ hplace).stamp

end Build

theorem DagRow.Truthful.congr {old new : Serial Jorb.id} {dagId dagId' : DagIds} {r : DagRow}
    (h : r.Truthful old dagId)
    (hback : ∀ j', IsMember new dagId' r.id j' →
      ∃ j, IsMember old dagId r.id j ∧ j.state.terminal = j'.state.terminal)
    (hforth : ∀ j, IsMember old dagId r.id j →
      ∃ j', IsMember new dagId' r.id j' ∧ j.state.terminal = j'.state.terminal) :
    r.Truthful new dagId' := by
  rintro ⟨j', hj'⟩
  obtain ⟨j, hj, -⟩ := hback j' hj'
  rw [h ⟨j, hj⟩]
  constructor
  · intro hall k' hk'
    obtain ⟨k, hk, hsame⟩ := hback k' hk'
    exact hsame ▸ hall k hk
  · intro hall k hk
    obtain ⟨k', hk', hsame⟩ := hforth k hk
    exact hsame ▸ hall k' hk'

/-- What a step does to the set of jobs. -/
inductive Turnover (w w' : World) (a : Act) : Prop where
  | same (ids : SameIds w.db.jorb w'.db.jorb)
  | born (j : Jorb) (id : j.id = w.db.jorb.next)
      (rows : ∀ r, r ∈ w'.db.jorb ↔ r ∈ w.db.jorb ∨ r = j)
  | gone (batch : List Nat) (act : a = .delete batch)
      (rows : ∀ r, r ∈ w'.db.jorb ↔ r ∈ w.db.jorb ∧ r.id ∉ batch)

theorem Effect.turnover {w w' : World} {a : Act} (h : Effect w a w') : Turnover w w' a := by
  cases h with
  | quiet db clock queue jorb => exact .same (jorb ▸ .refl _)
  | close session jorb => exact .same (jorb ▸ .refl _)
  | opens => exact .same (.refl _)
  | insert j => exact .born _ rfl fun r => Serial.mem_insert (h := fun _ => rfl)
  | update db wakes u jorb => exact .same (jorb ▸ .update _ _ _)
  | delete batch act =>
    refine .gone batch act fun r => Serial.mem_delete.trans ?_
    simp only [decide_eq_false_iff_not]
  | commit act tx phase mem id jorb => exact .same (jorb ▸ .update _ _ _)

namespace DagWorld

variable {s s' : DagWorld}

/-- What `dag_id` holds refers to jobs and graphs whose ids have been handed out. -/
def Known (s : DagWorld) : Prop :=
  ∀ i d, s.dagId i = some d → i < s.world.db.jorb.next ∧ d < s.dags.next

theorem eq_ok_of_toOption {ε β : Type} {x : Except ε β} {b : β} (h : x.toOption = some b) :
    x = .ok b := by
  cases x with
  | error e => cases h
  | ok b' => exact congrArg _ (Option.some.inj h)

theorem Truthful.born (h : s.Truthful) (hknown : s.Known) {j : Jorb} {jobs : Serial Jorb.id}
    (hid : j.id = s.world.db.jorb.next) (hrows : ∀ r, r ∈ jobs ↔ r ∈ s.world.db.jorb ∨ r = j) :
    ∀ d ∈ s.dags, d.Truthful jobs s.dagId := by
  have hmember {d : Nat} {r : Jorb} :
      IsMember jobs s.dagId d r ↔ IsMember s.world.db.jorb s.dagId d r := by
    refine and_congr_left fun hdag => (hrows r).trans (or_iff_left ?_)
    rintro rfl
    exact absurd (hknown _ _ hdag).1 (hid ▸ Nat.lt_irrefl _)
  exact fun d hd => (h d hd).congr (fun j' hj' => ⟨j', hmember.mp hj', rfl⟩)
    fun j hj => ⟨j, hmember.mpr hj, rfl⟩

theorem Truthful.world (h : s.Truthful) (hknown : s.Known) {a : Act}
    (hleaves : s.LeavesPending (.world a)) {w' : World} (hw : s.world.step a = some w') :
    ∀ d ∈ jorbDagComplete s.world.clock s.world.db.jorb w'.db.jorb s.dagId s.dags,
      d.Truthful w'.db.jorb s.dagId := by
  cases (World.step_effect hw).turnover with
  | same ids => exact DagRow.Truthful.complete ids h
  | born j id rows =>
    rw [jorbDagComplete_of_kept fun r hr => ((rows r).mp hr).imp_right fun hrj =>
      hrj ▸ id ▸ Serial.find?_next _]
    exact h.born hknown id rows
  | gone batch act rows =>
    rw [jorbDagComplete_of_kept fun r hr => .inl ((rows r).mp hr).1]
    have hmember {d : Nat} {r : Jorb} : IsMember w'.db.jorb s.dagId d r ↔
        IsMember s.world.db.jorb s.dagId d r ∧ r.id ∉ batch :=
      (and_congr_left fun _ => rows r).trans and_right_comm
    rintro d hd ⟨j, hj⟩
    rw [h d hd ⟨j, (hmember.mp hj).1⟩]
    refine ⟨fun hall k hk => hall k (hmember.mp hk).1, fun hall k hk => ?_⟩
    by_contra hpending
    obtain ⟨k', hk', hbatch, hstate⟩ := hleaves batch (congrArg _ act) d hd
      ⟨k, hk, Bool.eq_false_iff.mpr hpending⟩ ⟨j, hmember.mp hj⟩
    have := hall k' (hmember.mpr ⟨hk', hbatch⟩)
    simp [hstate] at this

theorem Truthful.execute (h : s.Truthful) (hknown : s.Known) {d : Dag Nat} {order : SetOrder Nat}
    {name : Option String} (hs : s.execute d order name = some s') : s'.Truthful ∧ s'.Known := by
  obtain ⟨⟨db, jobs⟩, hexec, rfl⟩ := Option.map_eq_some_iff.mp hs
  have hok := eq_ok_of_toOption hexec
  have hbuilt := Built.execute hok
  -- a member of an older graph is an older job
  have hold {i e : Nat} (he : e ≠ s.dags.next) :
      (if i ∈ jobs.map Prod.snd then some s.dags.next else s.dagId i) = some e ↔
        s.dagId i = some e := by
    split
    · rename_i hi
      have := hbuilt.fresh i hi
      refine ⟨fun h => absurd (Option.some.inj h).symm he, fun h => ?_⟩
      have := (hknown i e h).1
      omega
    · rfl
  constructor
  · intro r hr
    rcases (Serial.mem_insert (h := fun _ => rfl)).mp hr with hr | rfl
    · have hne : r.id ≠ s.dags.next := Nat.ne_of_lt (Serial.lt_next hr)
      refine DagRow.Truthful.congr (h r hr) (fun j' ⟨hj', hdag⟩ => ?_) fun j ⟨hj, hdag⟩ => ?_
      · rcases hbuilt.back j' hj' with ⟨j, hj, hid, hstate⟩ | ⟨hmem, -⟩
        · exact ⟨j, ⟨hj, hid ▸ (hold hne).mp hdag⟩, congrArg _ hstate⟩
        · dsimp only at hdag
          rw [if_pos hmem] at hdag
          exact absurd (Option.some.inj hdag).symm hne
      · obtain ⟨j', hj', hid, hstate⟩ := hbuilt.forth j hj
        exact ⟨j', ⟨hj', (hold hne).mpr (hid.symm ▸ hdag)⟩, congrArg _ hstate.symm⟩
    · -- the jobs of the new graph are all pending
      rintro ⟨j, hj, hdag⟩
      refine iff_of_false (by simp) fun hall => ?_
      have hstate : j.state.terminal = false := by
        rcases hbuilt.back j hj with ⟨o, ho, hid, -⟩ | ⟨-, hstate⟩
        · have hlt := Serial.lt_next ho
          dsimp only at hdag
          split at hdag
          · have := hbuilt.fresh j.id ‹_›
            omega
          · exact absurd (hknown _ _ hdag).2 (Nat.lt_irrefl _)
        · exact hstate
      have := hall j ⟨hj, hdag⟩
      simp [hstate] at this
  · intro i e he
    dsimp only at he ⊢
    rw [Serial.next_insert]
    split at he
    · rw [← Option.some.inj he]
      exact ⟨(hbuilt.fresh i ‹_›).2, Nat.lt_succ_self _⟩
    · obtain ⟨hi, hd⟩ := hknown i e he
      exact ⟨hi.trans_le hbuilt.next_le, Nat.lt_succ_of_lt hd⟩

theorem completeJorbDag_next (now : Int) (pending d : Nat) (dags : Serial DagRow.id) :
    (completeJorbDag now pending d dags).next = dags.next := by
  unfold completeJorbDag
  split <;> rfl

theorem jorbDagComplete_next (now : Int) (old new : Serial Jorb.id) (dagId : DagIds)
    (dags : Serial DagRow.id) : (jorbDagComplete now old new dagId dags).next = dags.next := by
  unfold jorbDagComplete
  generalize new.rows.filterMap (firedFor old dagId) = ds
  induction ds generalizing dags with
  | nil => rfl
  | cons d ds ih => exact (ih _).trans (completeJorbDag_next _ _ _ _)

theorem Truthful.step (h : s.Truthful) (hknown : s.Known) {a : DagAct} (hleaves : s.LeavesPending a)
    (hs : s.step a = some s') : s'.Truthful ∧ s'.Known := by
  cases a with
  | world a =>
    obtain ⟨w', hw, rfl⟩ := Option.map_eq_some_iff.mp hs
    refine ⟨h.world hknown hleaves hw, fun i d hd => ?_⟩
    obtain ⟨hi, hd⟩ := hknown i d hd
    exact ⟨hi.trans_le (World.step_effect hw).next_le, by rwa [jorbDagComplete_next]⟩
  | fork jid fromStep o =>
    obtain ⟨⟨db, id⟩, hfork, rfl⟩ := Option.map_eq_some_iff.mp hs
    have hok := eq_ok_of_toOption hfork
    obtain ⟨j, hjorb⟩ := Db.forkJob_jorb hok
    refine ⟨h.born hknown (j := j.row s.world.clock _) rfl fun r => ?_, fun i d hd => ?_⟩
    · rw [hjorb]
      exact Serial.mem_insert (h := fun _ => rfl)
    · have hnext : db.jorb.next = s.world.db.jorb.next + 1 := congrArg Serial.next hjorb
      obtain ⟨hi, hd⟩ := hknown i d hd
      exact ⟨hnext ▸ Nat.lt_succ_of_lt hi, hd⟩
  | execute d order name => exact h.execute hknown hs
  | sweepOrphanedDags retention batch =>
    cases hs
    exact ⟨fun r hr => h r (Serial.mem_delete.mp hr).1, hknown⟩

theorem delete_rows {w w' : World} {batch : List Nat} (h : w.step (.delete batch) = some w')
    (r : Jorb) : r ∈ w'.db.jorb ↔ r ∈ w.db.jorb ∧ r.id ∉ batch := by
  simp only [World.step] at h
  split at h
  · cases h
  · cases h
    exact Serial.mem_delete.trans (by rw [decide_eq_false_iff_not])

/-- A deletion that takes the last pending members of a graph and not the others leaves
its stamp wrong: nothing runs the trigger. -/
theorem Truthful.leavesPending (h : s.Truthful) {a : DagAct} (hs : s.step a = some s')
    (h' : s'.Truthful) : s.LeavesPending a := by
  rintro batch rfl d hd ⟨j, hj, hpending⟩ ⟨k, hk, hbatch⟩
  obtain ⟨w', hw, rfl⟩ := Option.map_eq_some_iff.mp hs
  have hrows := delete_rows hw
  have hstamp : ¬d.completed.isSome := fun hsome => by
    have := (h d hd ⟨j, hj⟩).mp hsome j hj
    simp [hpending] at this
  have hd' : d ∈ jorbDagComplete s.world.clock s.world.db.jorb w'.db.jorb s.dagId s.dags := by
    rwa [jorbDagComplete_of_kept fun r hr => .inl ((hrows r).mp hr).1]
  have hwrong := mt (h' d hd' ⟨k, (hrows k).mpr ⟨hk.1, hbatch⟩, hk.2⟩).mpr hstamp
  obtain ⟨i, hi⟩ := not_forall.mp hwrong
  obtain ⟨⟨hmem, hdag⟩, hstate⟩ := Classical.not_imp.mp hi
  obtain ⟨hmem, hnot⟩ := (hrows i).mp hmem
  exact ⟨i, ⟨hmem, hdag⟩, hnot, Bool.eq_false_iff.mpr hstate⟩

end DagWorld

/-- The stamps are right in every state of a run exactly if each deletion that leaves
members of a pending graph behind leaves a pending one among them. -/
theorem dag_stamp_truthful (ρ : DagRun)
    (hρ : ∃ db clock queue, ρ.state 0 = .init db clock queue) :
    (∀ n ≤ ρ.length, (ρ.state n).Truthful) ↔
      ∀ n < ρ.length, (ρ.state n).LeavesPending (ρ.act n) := by
  obtain ⟨db, clock, queue, h0⟩ := hρ
  constructor
  · exact fun h n hn => (h n hn.le).leavesPending (ρ.next n hn) (h (n + 1) hn)
  · intro h n hn
    have hboth : ∀ n ≤ ρ.length, (ρ.state n).Truthful ∧ (ρ.state n).Known := by
      refine ρ.invariant_of (P := fun s => s.Truthful ∧ s.Known) h ?_
        fun hs hok hstep => hs.1.step hs.2 hok hstep
      rw [h0]
      exact ⟨fun d hd => absurd hd Serial.not_mem_empty, fun i d hd => by cases hd⟩
    exact (hboth n hn).1

def Dag.pair : Dag Nat where
  nodes := [0, 1]
  dependsOn _ := []
  options _ := .plain "q"
  nodes_nodup := by decide
  deps_nodup _ := .nil

def claimAndFinish (i : Nat) : List Act :=
  Act.claim 0 (.plain "q") ++ [.worker i (.run none), .worker i (.finished none)]

/-- One of two independent jobs finishes, and the queue is purged of the other. -/
def purgedActs : List DagAct :=
  .execute .pair .asListed none :: (claimAndFinish 0 ++ [Act.delete [2]]).map .world

def purgedRun : DagRun := .ofList (.init .empty 0 fun _ => none) purgedActs (by decide)

theorem dag_stamp_missed :
    ¬∀ ρ : DagRun, (∃ db clock queue, ρ.state 0 = .init db clock queue) →
      ∀ n ≤ ρ.length, (ρ.state n).Truthful := by
  intro h
  obtain ⟨d, hd, hid, hstamp⟩ : ∃ d ∈ (purgedRun.state 7).dags.rows,
      d.id = 1 ∧ d.completed.isSome = false := by decide
  obtain ⟨j, hj, hjid⟩ : ∃ j ∈ (purgedRun.state 7).world.db.jorb.rows, j.id = 1 := by decide
  have hended : ∀ j ∈ (purgedRun.state 7).world.db.jorb.rows, j.state.terminal := by decide
  have hdag : (purgedRun.state 7).dagId 1 = some 1 := by decide
  have htrue := h purgedRun ⟨_, _, _, rfl⟩ 7 (by decide) d hd ⟨j, hj, by rw [hjid, hid, hdag]⟩
  have := htrue.mpr fun k hk => hended k hk.1
  simp [hstamp] at this

/-- Without the purge the second job finishes too. -/
def completedActs : List DagAct :=
  .execute .pair .asListed none :: (claimAndFinish 0 ++ claimAndFinish 1).map .world

def completedRun : DagRun := .ofList (.init .empty 0 fun _ => none) completedActs (by decide)

theorem dag_stamp_truthful_completed :
    ((completedRun.state 11).dags.rows.map fun d => d.completed.isSome) = [true] ∧
      ∀ n ≤ 11, (completedRun.state n).Truthful := by
  refine ⟨by decide, (dag_stamp_truthful completedRun ⟨_, _, _, rfl⟩).mpr ?_⟩
  intro n hn batch hact
  have hkeeps : ∀ a ∈ completedActs, ∀ batch, a ≠ .world (.delete batch) := by
    simp [completedActs, claimAndFinish, Act.claim]
  exact absurd hact (hkeeps _ (Run.ofList_act_mem hn) batch)

end Pyjobby
