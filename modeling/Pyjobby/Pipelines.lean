import Pyjobby.Dependents
import Pyjobby.EnqueueRow
import Pyjobby.JobRetention
import Pyjobby.ReadStream
import Pyjobby.Speculative

/-! Pipelines: the chain of jobs that one transaction creates, and the result each stage
hands to the next when it runs. -/

namespace Pyjobby.Pipelines

open Relational Transition

/-- A stage of `_create_chain`: what its class, its kwargs and the options come to as the
arguments of an enqueue, the two that the chain supplies apart. -/
structure Stage where
  given : EnqueueArgs
  saveResult : Bool

/-- Whether the chain passes results on, and which of the two result options its
`common_options` name for every stage. -/
structure ChainOptions where
  passResults : Bool
  saveResult : Option Bool := none
  useResultFrom : Option (Option Int) := none

/-- A stage gets the result of the stage before it, where that stage saves it. -/
def ChainOptions.passes (o : ChainOptions) : Bool := o.passResults && o.useResultFrom.isNone

inductive Refusal where
  | row (e : EnqueueRefusal)
  | debounce
  | otherClass (id : Nat) (held : String)
  | rejected (jobClass : String)

/-- How far the loop has come, and the rows it has inserted. -/
structure Chain where
  db : Db
  inserted : List NewJob
  jobIds : List Nat
  previousJob : Option Nat
  previousSaved : Bool

def Chain.start (db : Db) : Chain := ⟨db, [], [], none, false⟩

/-- `{**result_options, **common_options}`: an option that is named wins over the chain's. -/
def Stage.args (o : ChainOptions) (c : Chain) (s : Stage) : EnqueueArgs :=
  let previous := c.previousJob.map fun id : Nat => (id : Int)
  let result :=
    if o.passResults then
      { s.given.retry with
        saveResult := s.saveResult
        useResultFrom := if c.previousSaved then previous else none }
    else s.given.retry
  { s.given with
    waitforJob := previous
    retry :=
      { result with
        saveResult := o.saveResult.getD result.saveResult
        useResultFrom := o.useResultFrom.getD result.useResultFrom } }

/-- `_enqueue_row`, in the transaction of the chain: a row is written unless its identity is
held already. -/
def enqueueRow (now : Int) (db : Db) (a : EnqueueArgs) :
    Except Refusal (Db × Option NewJob × Nat) :=
  if a.debounceKey.isSome then .error .debounce
  else
    match buildEnqueueRow now a with
    | .error e => .error (.row e)
    | .ok row =>
      match a.identityKey.bind fun _ => db.identified a.identityKey with
      | some (id, held) =>
        if held = a.jobClass then .ok (db, none, id) else .error (.otherClass id held)
      | none =>
        match db.enqueue now row.job with
        | none => .error (.rejected a.jobClass)
        | some db' => .ok (db', some row.job, db.jorb.next)

def Chain.add (o : ChainOptions) (now : Int) (c : Chain) (s : Stage) : Except Refusal Chain :=
  (enqueueRow now c.db (s.args o c)).map fun (db, job, id) =>
    { db
      inserted := c.inserted ++ job.toList
      jobIds := c.jobIds ++ [id]
      previousJob := some id
      previousSaved := s.saveResult }

def addAll (o : ChainOptions) (now : Int) : Chain → List Stage → Except Refusal Chain
  | c, [] => .ok c
  | c, s :: stages => (c.add o now s).bind fun c' => addAll o now c' stages

/-- The whole chain, or none of it. -/
def createChain (o : ChainOptions) (now : Int) (db : Db) (stages : List Stage) :
    Except Refusal Chain :=
  addAll o now (.start db) stages

inductive InputError where
  | gone (upstream : Int)
  | notFinished (upstream : Int) (state : JorbState)
  | notAnId
  deriving DecidableEq

/-- `{**(kwargs or {}), "upstream_result": result}` -/
def withUpstreamResult (kwargs : Json) (result : Option Json) : Json :=
  match kwargs with
  | .obj fields => .obj (Fields.set fields "upstream_result" (result.getD .null))
  | _ => .obj [("upstream_result", result.getD .null)]

/-- The kwargs that `_process` runs the job with, once it has looked the upstream job up. -/
def runKwargs (db : Db) (job : Jorb) : Except InputError Json :=
  match job.adminData.get? "use_result_from" with
  | none | some .null | some (.bool false) => .ok job.kwargs
  | some (.int id) =>
    if id = 0 then .ok job.kwargs
    else
      match db.jorb.rows.find? fun u => (u.id : Int) = id with
      | none => .error (.gone id)
      | some u =>
        if u.state ≠ .finished then .error (.notFinished id u.state)
        else .ok (withUpstreamResult job.kwargs u.result)
  | some _ => .error .notAnId

section Lookup

variable (fields : Fields) {key other : String} (v : Json)

theorem lookup_set_self : List.lookup key (Fields.set fields key v) = some v := by
  unfold Fields.set
  induction fields with
  | nil => simp
  | cons f fields ih =>
    obtain ⟨k, x⟩ := f
    by_cases hk : k = key
    · simpa [hk] using ih
    · have hne : (key == k) = false := beq_eq_false_iff_ne.mpr fun h => hk h.symm
      simpa [hk, List.lookup_cons, hne] using ih

theorem lookup_set_of_ne (h : key ≠ other) :
    List.lookup key (Fields.set fields other v) = List.lookup key fields := by
  unfold Fields.set
  have hne : (key == other) = false := beq_eq_false_iff_ne.mpr h
  induction fields with
  | nil => simp [List.lookup_cons, hne]
  | cons f fields ih =>
    obtain ⟨k, x⟩ := f
    by_cases hk : k = other
    · simpa [hk, List.lookup_cons, hne] using ih
    · simp only [List.filter_cons, hk, ne_eq, not_false_eq_true, decide_true, if_true,
        List.cons_append, List.lookup_cons]
      cases key == k with
      | true => rfl
      | false => exact ih

theorem lookup_setDefault (h : key ≠ other) :
    List.lookup key (Fields.setDefault fields other v) = List.lookup key fields := by
  unfold Fields.setDefault
  split
  · rfl
  · have hne : (key == other) = false := beq_eq_false_iff_ne.mpr h
    rw [List.lookup_append]
    simp [List.lookup_cons, hne]

end Lookup

theorem useResultFrom_of_ok {o : RetryOptions} {given : Fields} {admin : Json}
    (h : enqueueAdminData o given = .ok admin) {id : Int} (hid : o.useResultFrom = some id)
    (hne : id ≠ 0) : admin.get? "use_result_from" = some (.int id) := by
  simp only [enqueueAdminData] at h
  generalize (if o.saveResult then given else Fields.set given "save_result" (.bool false)) =
    base at h
  split_ifs at h
  have hset : o.useResultFrom.filter (· ≠ 0) = some id := by simp [hid, hne]
  rw [← Except.ok.inj h, Json.get?, hset, Option.elim, lookup_setDefault _ _ (by decide)]
  cases o.timeoutSeconds with
  | none =>
    rw [Option.elim, lookup_setDefault _ _ (by decide), lookup_setDefault _ _ (by decide),
      lookup_setDefault _ _ (by decide), lookup_setDefault _ _ (by decide), lookup_set_self]
  | some t =>
    rw [Option.elim, lookup_set_of_ne _ _ (by decide), lookup_setDefault _ _ (by decide),
      lookup_setDefault _ _ (by decide), lookup_setDefault _ _ (by decide),
      lookup_setDefault _ _ (by decide), lookup_set_self]

theorem built_of_ok {now : Int} {a : EnqueueArgs} {row : EnqueueRow}
    (h : buildEnqueueRow now a = .ok row) :
    ∃ admin appVersion, enqueueAdminData a.retry (a.adminData.getD []) = .ok admin ∧
      row.job = { a.job now admin with appVersion } := by
  simp only [buildEnqueueRow, bind_eq_ok] at h
  obtain ⟨_, -, _, -, _, -, _, -, _, -, _, -, appVersion, -, _, -, _, -, tags, -, admin, hadmin,
    hrow⟩ := h
  cases hrow
  refine ⟨admin, appVersion, ?_, rfl⟩
  cases hdata : enqueueAdminData a.retry (a.adminData.getD []) with
  | ok v =>
    rw [hdata] at hadmin
    exact congrArg Except.ok (Except.ok.inj hadmin)
  | error e =>
    rw [hdata] at hadmin
    cases hadmin

/-- The row of a stage, as one that waits for the stage before it. -/
structure Linked (db : Db) (upstream : Nat) (passed : Bool) (id : Nat) : Prop where
  row : ∃ r ∈ db.jorb, r.id = id ∧ r.waitforJob = some (upstream : Int) ∧ r.waitforGroup = none ∧
    (passed → r.adminData.get? "use_result_from" = some (.int upstream))

theorem enqueueRow_eq_ok {now : Int} {db db' : Db} {a : EnqueueArgs} {job : Option NewJob}
    {id : Nat} (h : enqueueRow now db a = .ok (db', job, id)) :
    ∃ row, buildEnqueueRow now a = .ok row ∧
      ((job = none ∧ db' = db ∧ a.identityKey.isSome ∧ ∃ r ∈ db.jorb, r.id = id) ∨
        job = some row.job ∧ id = db.jorb.next ∧ db.enqueue now row.job = some db') := by
  unfold enqueueRow at h
  split at h
  · cases h
  · split at h
    · cases h
    · next row hrow =>
      refine ⟨row, hrow, ?_⟩
      split at h
      · next held hidentified =>
        split at h
        · obtain ⟨rfl, rfl, -⟩ := Prod.mk.injEq .. ▸ Except.ok.inj h
          obtain ⟨_, hkey, hheld⟩ := Option.bind_eq_some_iff.mp hidentified
          obtain ⟨r, hr, hid⟩ := Option.map_eq_some_iff.mp hheld
          exact .inl ⟨rfl, rfl, by rw [hkey]; rfl, r, Serial.mem_rows.mp
            (List.mem_of_find?_eq_some hr), congrArg Prod.fst hid⟩
        · cases h
      · split at h
        · cases h
        · next db'' henqueue =>
          cases h
          exact .inr ⟨rfl, rfl, henqueue⟩

/-- A stage that waits for another has no identity. -/
theorem keyless_of_enqueueRow {now : Int} {db : Db} {a : EnqueueArgs} {upstream : Nat}
    {out : Db × Option NewJob × Nat} (h : enqueueRow now db a = .ok out)
    (hwait : a.waitforJob = some (upstream : Int)) (hne : upstream ≠ 0) :
    ¬a.identityKey.isSome := by
  obtain ⟨db', job, id⟩ := out
  obtain ⟨row, hrow, -⟩ := enqueueRow_eq_ok h
  obtain ⟨admin, appVersion, -, hjob⟩ := built_of_ok hrow
  have hdependent : row.job.dependent := by
    have htruthy : truthy row.job.waitforJob := by
      rw [(accepted_of_ok hrow).waitforJob, hwait]
      simpa [truthy] using hne
    exact Bool.or_eq_true_iff.mpr (.inl htruthy)
  have hnone := (accepted_of_ok hrow).keyless hdependent row.job.identityKey
    (by simp [EnqueueRow.keys])
  rw [hjob] at hnone
  exact Option.not_isSome_iff_eq_none.mpr hnone

theorem linked_of_enqueueRow {now : Int} {db db' : Db} {a : EnqueueArgs} {job : Option NewJob}
    {id upstream : Nat} {passed : Bool} (h : enqueueRow now db a = .ok (db', job, id))
    (hwait : a.waitforJob = some (upstream : Int)) (hgroup : a.waitforGroup ≠ some 0)
    (hne : upstream ≠ 0) (huse : passed → a.retry.useResultFrom = some (upstream : Int)) :
    Linked db' upstream passed id := by
  obtain ⟨row, hrow, hcases⟩ := enqueueRow_eq_ok h
  have haccepted := accepted_of_ok hrow
  obtain ⟨admin, appVersion, hadmin, hjob⟩ := built_of_ok hrow
  have htruthy : truthy row.job.waitforJob := by
    rw [haccepted.waitforJob, hwait]
    simpa [truthy] using hne
  rcases hcases with ⟨-, -, hidentity, -⟩ | ⟨-, rfl, henqueue⟩
  · exact absurd hidentity (keyless_of_enqueueRow h hwait hne)
  · refine ⟨_, (Db.enqueue_jorb henqueue).mpr (.inr rfl), rfl, ?_, ?_, fun hpassed => ?_⟩
    · exact haccepted.waitforJob.trans hwait
    · have hboth := NewJob.keyRefusal_eq_none.mp haccepted.passed
        (truthy row.job.waitforJob && truthy row.job.waitforGroup, .bothWaitfors)
        (by simp [NewJob.keyChecks])
      show row.job.waitforGroup = none
      rw [haccepted.waitforGroup]
      rw [htruthy, haccepted.waitforGroup, Bool.true_and, truthy_eq_isSome hgroup] at hboth
      exact Option.not_isSome_iff_eq_none.mp (by simpa using hboth)
    · have hdata := useResultFrom_of_ok hadmin (huse hpassed) (Int.natCast_ne_zero.mpr hne)
      show row.job.adminData.get? "use_result_from" = _
      rw [hjob]
      exact hdata

theorem Linked.mono {db db' : Db} {upstream id : Nat} {passed : Bool}
    (h : Linked db upstream passed id) (hrows : ∀ r ∈ db.jorb, r ∈ db'.jorb) :
    Linked db' upstream passed id := by
  obtain ⟨r, hr, hrest⟩ := h.row
  exact ⟨r, hrows r hr, hrest⟩

/-- The loop of `_create_chain` once it is through with the stages `done`. -/
structure Grown (o : ChainOptions) (now : Int) (db : Db) (done : List Stage) (c : Chain) :
    Prop where
  inserts : c.inserted.foldlM (fun db job => db.enqueue now job) db = some c.db
  next : db.jorb.next ≤ c.db.jorb.next
  length : c.jobIds.length = done.length
  rows : ∀ a ∈ c.jobIds, ∃ r ∈ c.db.jorb, r.id = a
  previousJob : c.previousJob = c.jobIds.getLast?
  previousSaved : c.previousSaved = (done.getLast?.map Stage.saveResult).getD false
  linked : ∀ (i a b : Nat) (s : Stage), c.jobIds[i]? = some a → c.jobIds[i + 1]? = some b →
    done[i]? = some s → a ≠ 0 →
      db.jorb.next ≤ b ∧ Linked c.db a (o.passes && s.saveResult) b

theorem Db.enqueue_next {db db' : Db} {now : Int} {j : NewJob} (h : db.enqueue now j = some db') :
    db'.jorb.next = db.jorb.next + 1 := by
  simp only [Db.enqueue] at h
  split at h
  · cases h
  · cases h
    rfl

namespace Grown

variable {o : ChainOptions} {now : Int} {db : Db} {done : List Stage} {c c' : Chain}

theorem start : Grown o now db [] (.start db) where
  inserts := rfl
  next := le_rfl
  length := rfl
  rows _ h := absurd h List.not_mem_nil
  previousJob := rfl
  previousSaved := rfl
  linked _ _ _ _ h := by simp [Chain.start] at h

theorem add (h : Grown o now db done c) {s : Stage}
    (hgroup : s.given.waitforGroup ≠ some 0) (hadd : c.add o now s = .ok c') :
    Grown o now db (done ++ [s]) c' := by
  unfold Chain.add at hadd
  cases hrow : enqueueRow now c.db (s.args o c) with
  | error e =>
    rw [hrow] at hadd
    cases hadd
  | ok out =>
    obtain ⟨db', job, id⟩ := out
    rw [hrow] at hadd
    obtain rfl := Except.ok.inj hadd
    obtain ⟨row, -, hcases⟩ := enqueueRow_eq_ok hrow
    have hrows : ∀ r ∈ c.db.jorb, r ∈ db'.jorb := by
      rcases hcases with ⟨-, rfl, -⟩ | ⟨-, -, henqueue⟩
      · exact fun _ hr => hr
      · exact fun r hr => (Db.enqueue_jorb henqueue).mpr (.inl hr)
    refine ⟨?_, ?_, by simp [h.length], fun a ha => ?_, by simp, by simp,
      fun i a b t ha hb ht hne => ?_⟩
    · rcases hcases with ⟨rfl, rfl, -⟩ | ⟨rfl, rfl, henqueue⟩
      · simpa using h.inserts
      · simp [List.foldlM_append, h.inserts, henqueue]
    · rcases hcases with ⟨-, rfl, -⟩ | ⟨-, -, henqueue⟩
      · exact h.next
      · exact h.next.trans (Db.enqueue_next henqueue ▸ Nat.le_succ _)
    · rcases List.mem_append.mp ha with ha | ha
      · obtain ⟨r, hr, hid⟩ := h.rows a ha
        exact ⟨r, hrows r hr, hid⟩
      · obtain rfl := List.mem_singleton.mp ha
        rcases hcases with ⟨-, rfl, -, hheld⟩ | ⟨-, rfl, henqueue⟩
        · exact hheld
        · exact ⟨_, (Db.enqueue_jorb henqueue).mpr (.inr rfl), rfl⟩
    · by_cases hi : i + 1 < c.jobIds.length
      · rw [List.getElem?_append_left (by omega)] at ha
        rw [List.getElem?_append_left hi] at hb
        rw [List.getElem?_append_left (by have := h.length; omega)] at ht
        obtain ⟨hnew, hlinked⟩ := h.linked i a b t ha hb ht hne
        exact ⟨hnew, hlinked.mono hrows⟩
      · obtain ⟨hlt, -⟩ := List.getElem?_eq_some_iff.mp hb
        simp only [List.length_append, List.length_singleton] at hlt
        have hlast : i + 1 = c.jobIds.length := by omega
        have hprevious : c.previousJob = some a := by
          rw [h.previousJob, List.getLast?_eq_getElem?, ← hlast, Nat.add_sub_cancel]
          rwa [List.getElem?_append_left (by omega)] at ha
        have hsaved : c.previousSaved = t.saveResult := by
          rw [List.getElem?_append_left (by have := h.length; omega)] at ht
          rw [h.previousSaved, List.getLast?_eq_getElem?, ← h.length, ← hlast,
            Nat.add_sub_cancel, ht]
          rfl
        rw [hlast, List.getElem?_append_right le_rfl, Nat.sub_self] at hb
        obtain rfl : id = b := Option.some.inj hb
        have hwait : (s.args o c).waitforJob = some (a : Int) := by
          simp [Stage.args, hprevious]
        refine ⟨?_, linked_of_enqueueRow hrow hwait hgroup hne fun hpassed => ?_⟩
        · rcases hcases with ⟨-, -, hidentity, -⟩ | ⟨-, rfl, -⟩
          · exact absurd hidentity (keyless_of_enqueueRow hrow hwait hne)
          · exact h.next
        · simp only [ChainOptions.passes, Bool.and_eq_true, Option.isNone_iff_eq_none] at hpassed
          obtain ⟨⟨hpass, hunnamed⟩, hsave⟩ := hpassed
          simp [Stage.args, hpass, hunnamed, hprevious, hsaved, hsave]

theorem addAll (h : Grown o now db done c) {stages : List Stage}
    (hgroup : ∀ s ∈ stages, s.given.waitforGroup ≠ some 0)
    (hadd : addAll o now c stages = .ok c') :
    Grown o now db (done ++ stages) c' := by
  induction stages generalizing c done with
  | nil =>
    obtain rfl := Except.ok.inj hadd
    simpa using h
  | cons s stages ih =>
    unfold Pipelines.addAll at hadd
    cases hone : c.add o now s with
    | error e =>
      rw [hone] at hadd
      cases hadd
    | ok c₁ =>
      rw [hone] at hadd
      simpa using ih (h.add (hgroup s List.mem_cons_self) hone)
        (fun t ht => hgroup t (List.mem_cons_of_mem s ht)) hadd

end Grown

end Pyjobby.Pipelines
