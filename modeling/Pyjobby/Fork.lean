import Pyjobby.Retry
import Pyjobby.World

/-! A fork: a new job born with the checkpoints below one step of another. -/

namespace Pyjobby

open Relational

/-- What a fork may be given in place of what it inherits. -/
structure ForkOptions where
  queue : Option String
  priority : Option Int
  kwargs : Option Json
  appVersion : Option String

inductive ForkRefused where
  | belowOne (fromStep : Int)
  | noSuchJob (jid : Nat)
  | beyond (jid recorded : Nat) (fromStep : Int)

def ForkRefused.message : ForkRefused → String
  | belowOne fromStep =>
    s!"from_step must be at least 1 (steps are numbered from 1); got {fromStep}"
  | noSuchJob jid => s!"job {jid} not found, so there is nothing to fork"
  | beyond jid recorded fromStep =>
    s!"job {jid} recorded {recorded} step(s), so a fork may start at " ++
      s!"step {recorded + 1} at the latest; got {fromStep}"

/-- `(admin_data - 'fork') || jsonb_build_object('fork', ..)`. -/
def Json.withFork (fromStep stepsCopied : Nat) : Json → Json
  | obj fields =>
    .obj (fields.filter (fun f => f.1 ≠ "fork") ++
      [("fork", .obj [("from_step", .int fromStep), ("steps_copied", .int stepsCopied)])])
  | j => j

namespace Db

/-- `COALESCE(max(step_seq), 0)`. -/
def recordedSteps (db : Db) (jid : Nat) : Nat :=
  ((db.step.rows.filter fun s => s.jobId = jid).map StepRow.stepSeq).foldr max 0

def stepsBelow (db : Db) (jid fromStep : Nat) : List StepRow :=
  db.step.rows.filter fun s => s.jobId = jid && s.stepSeq < fromStep

/-- The columns of the fork; the dedupe keys, the group and the edges stay unset. -/
def forkOf (db : Db) (now : Int) (src : Jorb) (fromStep : Nat) (o : ForkOptions) : NewJob where
  queue := o.queue.getD src.queue
  capability := src.capability
  appVersion := o.appVersion
  prio := o.priority.getD src.prio
  jobClass := src.jobClass
  kwargs := o.kwargs.getD src.kwargs
  adminData := src.adminData.withFork fromStep (db.stepsBelow src.id fromStep).length
  runGroup := none
  waitforGroup := none
  waitforJob := none
  deadlineKey := none
  identityKey := none
  debounceKey := none
  debounceDeadline := none
  partitionKey := src.partitionKey
  runAfter := now

/-- `FORK_JOB_SQL`: the row and the checkpoints copied for it, in one statement. -/
def fork (db : Db) (now : Int) (src : Jorb) (fromStep : Nat) (o : ForkOptions) : Db × Nat :=
  let copy (s : StepRow) : StepRow := { s with jobId := db.jorb.next, runEpoch := 0 }
  let copied := (db.stepsBelow src.id fromStep).map copy
  ({ db with
      jorb := db.jorb.insert ((db.forkOf now src fromStep o).row now) fun _ => rfl
      step := copied.foldl (fun t s => t.upsert s ⟨id, fun _ => rfl⟩) db.step },
    db.jorb.next)

def forkJob (db : Db) (now : Int) (jid : Nat) (fromStep : Int) (o : ForkOptions) :
    Except ForkRefused (Db × Nat) :=
  if fromStep < 1 then .error (.belowOne fromStep)
  else
    match db.jorb.find? jid with
    | none => .error (.noSuchJob jid)
    | some src =>
      if fromStep ≤ db.recordedSteps jid + 1 then .ok (db.fork now src fromStep.toNat o)
      else .error (.beyond jid (db.recordedSteps jid) fromStep)

theorem forkJob_eq_ok {db db' : Db} {now : Int} {jid id : Nat} {fromStep : Int} {o : ForkOptions}
    (h : db.forkJob now jid fromStep o = .ok (db', id)) :
    1 ≤ fromStep ∧ ∃ src, db.jorb.find? jid = some src ∧
      fromStep ≤ db.recordedSteps jid + 1 ∧ db.fork now src fromStep.toNat o = (db', id) := by
  unfold forkJob at h
  split at h
  · cases h
  · rename_i hone
    split at h
    · cases h
    · rename_i src hsrc
      split at h
      · rename_i hle
        exact ⟨not_lt.mp hone, src, hsrc, hle, Except.ok.inj h⟩
      · cases h

/-- A fork adds one row to the job table, free to run at once. -/
theorem forkJob_jorb {db db' : Db} {now : Int} {jid id : Nat} {fromStep : Int} {o : ForkOptions}
    (h : db.forkJob now jid fromStep o = .ok (db', id)) :
    ∃ j : NewJob, db'.jorb = db.jorb.insert (j.row now) fun _ => rfl := by
  obtain ⟨-, src, -, -, hfork⟩ := forkJob_eq_ok h
  cases hfork
  exact ⟨_, rfl⟩

/-- The fork has the checkpoints below its first step, as far as a reader can tell. -/
theorem find?_fork_step {db : Db} (now : Int) {src : Jorb} (fromStep : Nat) (o : ForkOptions)
    (hkey : ∀ s ∈ db.step, (db.jorb.find? s.jobId).isSome) (n : Nat) :
    (db.fork now src fromStep o).1.step.find? (db.jorb.next, n) =
      ((db.step.find? (src.id, n)).filter fun s => s.stepSeq < fromStep).map fun s =>
        { s with jobId := db.jorb.next, runEpoch := 0 } := by
  let copy (s : StepRow) : StepRow := { s with jobId := db.jorb.next, runEpoch := 0 }
  have hfree : ∀ n, ∀ s ∈ db.step, s.key ≠ (db.jorb.next, n) := by
    intro n s hs hn
    have hnone := Serial.find?_next db.jorb
    rw [← (Prod.mk.inj hn).1] at hnone
    have hsome := hkey s hs
    rw [hnone] at hsome
    cases hsome
  have hnd : (((db.stepsBelow src.id fromStep).map copy).map StepRow.key).Nodup := by
    have hkeys : ((db.stepsBelow src.id fromStep).map StepRow.key).Nodup :=
      db.step.nodup.sublist (List.filter_sublist.map StepRow.key)
    rw [List.map_map]
    refine (hkeys.of_map _).map_on fun s hs s' hs' heq => ?_
    obtain ⟨hmem, hsrc⟩ := List.mem_filter.mp hs
    obtain ⟨hmem', hsrc'⟩ := List.mem_filter.mp hs'
    simp only [Bool.and_eq_true, decide_eq_true_eq] at hsrc hsrc'
    refine Table.eq_of_key (t := db.step) hmem hmem' ?_
    exact Prod.ext (hsrc.1.trans hsrc'.1.symm) (Prod.mk.inj heq).2
  have hrows : (db.fork now src fromStep o).1.step.rows =
      db.step.rows ++ (db.stepsBelow src.id fromStep).map copy := by
    refine Table.rows_foldl_upsert hnd fun s hs => ?_
    obtain ⟨s, -, rfl⟩ := List.mem_map.mp hs
    exact Table.find?_eq_none.mpr (hfree s.stepSeq)
  ext r
  rw [Table.find?_eq_some, Option.map_eq_some_iff]
  constructor
  · rintro ⟨hr, hn⟩
    have hr : r ∈ db.step.rows ++ (db.stepsBelow src.id fromStep).map copy := hrows ▸ hr
    rcases List.mem_append.mp hr with hold | hnew
    · exact absurd hn (hfree n r hold)
    · obtain ⟨s, hs, rfl⟩ := List.mem_map.mp hnew
      obtain ⟨hmem, hsrc⟩ := List.mem_filter.mp hs
      simp only [Bool.and_eq_true, decide_eq_true_eq] at hsrc
      have hseq : s.stepSeq = n := (Prod.mk.inj hn).2
      exact ⟨s, Option.filter_eq_some_iff.mpr ⟨Table.find?_eq_some.mpr
        ⟨hmem, Prod.ext hsrc.1 hseq⟩, by simpa using hsrc.2⟩, rfl⟩
  · rintro ⟨s, hs, rfl⟩
    obtain ⟨hfind, hlt⟩ := Option.filter_eq_some_iff.mp hs
    obtain ⟨hmem, hk⟩ := Table.find?_eq_some.mp hfind
    obtain ⟨hid, hseq⟩ := Prod.mk.inj hk
    refine ⟨?_, Prod.ext rfl hseq⟩
    have hcopied : copy s ∈ (db.stepsBelow src.id fromStep).map copy :=
      List.mem_map_of_mem (List.mem_filter.mpr ⟨hmem, by simpa [hid] using hlt⟩)
    show copy s ∈ (db.fork now src fromStep o).1.step.rows
    rw [hrows]
    exact List.mem_append_right _ hcopied

end Db

end Pyjobby
