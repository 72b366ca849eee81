import Pyjobby.Dedupe
import Pyjobby.Lib.Text
import Pyjobby.Retry

/-! The row that `build_enqueue_row` makes of an enqueue's arguments. The checks on
the dependency columns go by truth, the row keeps what it was given: where a column
was given as 0 the two come apart. -/

namespace Pyjobby

namespace KeyRefusal

/-- The texts of `enqueue_rules`. -/
def message : KeyRefusal → String
  | bothWaitfors => "Cannot specify both waitfor_job and waitfor_group"
  | keysContradict other =>
    let names := String.intercalate " and " other
    s!"debounce_key cannot be combined with {names}: they promise different " ++
      "things about a duplicate enqueue -- debounce_key defers the existing " ++
      "job and replaces its kwargs, identity_key returns it untouched, and " ++
      "deadline_key refuses the duplicate outright. Pick the one whose " ++
      "promise you want (docs/writing-jobs.md, 'Choosing your dedupe " ++
      "primitive')."
  | noDebounceWaitfor =>
    "debounce_key cannot be combined with waitfor_job/waitfor_group: a " ++
      "dependent job is inserted 'waiting', and the collapse window is held by " ++
      "a QUEUED row -- so nothing would ever collapse and every call would " ++
      "write another job. Debounce the work that runs after the wait instead."
  | deadlineWithoutDebounce =>
    "debounce_deadline without debounce_key: the cap bounds a " ++
      "collapse window, and there is no window without a key"
  | identityAndDeadline =>
    "identity_key cannot be combined with deadline_key: they promise opposite " ++
      "things about a duplicate enqueue -- identity_key hands back the existing " ++
      "job (at most once, for the life of the row), deadline_key raises and then " ++
      "RE-ARMS the moment the job is claimed, so tomorrow's submission is a new " ++
      "job. Those cannot both be true of one row. Pick the one whose promise you " ++
      "want (docs/writing-jobs.md, 'Choosing your dedupe primitive')."
  | noIdentityWaitfor =>
    "identity_key cannot be combined with waitfor_job/waitfor_group: an " ++
      "identified enqueue may return a job it did not create, and that job " ++
      "already has whatever dependency (or none) the enqueue that really made it " ++
      "asked for -- so this dependency would silently not be applied and the " ++
      "work would run unordered. Give the identity to the job that does the " ++
      "work and let an unidentified waiter depend on it, or key the identity to " ++
      "include the upstream."
  | noDeadlineWaitfor =>
    "deadline_key cannot be combined with waitfor_job/waitfor_group: a " ++
      "dependent job is inserted 'waiting', which is outside the unique index " ++
      "that refuses duplicates, and the wake CLEARS deadline_key on the way " ++
      "into 'queued' (several waiters of one upstream may legally share a key, " ++
      "so the wake has to). The key would therefore never collapse anything and " ++
      "every duplicate would run. Put the deadline_key on the job that does the " ++
      "work and let an unidentified waiter depend on it."

end KeyRefusal

/-- The other refusals of `build_enqueue_row`; the message of `admin` quotes a value. -/
inductive EnqueueRefusal where
  | unknownOptions (names : List String)
  | keys (e : KeyRefusal)
  | emptyKey (name : String)
  | longKey (name : String) (length : Nat)
  | emptyAppVersion
  | longAppVersion (length : Nat)
  | priority (priority ceiling : Int)
  | tagKey
  | tagValue (key : String)
  | admin (e : EnqueueError)

def maxKeyLength : Nat := 256

def maxAppVersionLength : Nat := 128

def defaultPrioCeiling : Int := 1000

def validateKey (name : String) (value : Option String) : Except EnqueueRefusal Unit :=
  match value with
  | none => .ok ()
  | some v =>
    if Text.isBlank v then .error (.emptyKey name)
    else if maxKeyLength < v.length then .error (.longKey name v.length)
    else .ok ()

def validateAppVersion (appVersion : Option String) : Except EnqueueRefusal (Option String) :=
  match appVersion with
  | none => .ok none
  | some v =>
    if Text.isBlank v then .error .emptyAppVersion
    else if maxAppVersionLength < v.length then .error (.longAppVersion v.length)
    else .ok (some v)

def validatePriority (priority ceiling : Int) : Except EnqueueRefusal Unit :=
  if ceiling < priority then .error (.priority priority ceiling) else .ok ()

def validateTags (tags : Option Fields) : Except EnqueueRefusal Fields :=
  let refused : (String × Json) → Option EnqueueRefusal
    | (key, value) =>
      if key.isEmpty then some .tagKey
      else
        match value with
        | .arr _ | .obj _ => some (.tagValue key)
        | _ => none
  let tags := tags.getD []
  match tags.findSome? refused with
  | some e => .error e
  | none => .ok tags

/-- The arguments, with their defaults; `kwargs` is what no parameter takes. -/
structure EnqueueArgs where
  jobClass : String
  queue : String := "default"
  priority : Int := 100
  runAfter : Option Int := none
  capability : Option String := none
  uid : Option Int := none
  runGroup : Option Int := none
  waitforJob : Option Int := none
  waitforGroup : Option Int := none
  deadlineKey : Option String := none
  identityKey : Option String := none
  debounceKey : Option String := none
  debounceDeadline : Option Int := none
  partitionKey : Option String := none
  appVersion : Option String := none
  adminData : Option Fields := none
  tags : Option Fields := none
  retry : RetryOptions := {}
  prioCeiling : Int := defaultPrioCeiling
  jobKwargs : Option Fields := none
  scheduleId : Option Int := none
  kwargs : Fields := []

/-- The parameters of `ENQUEUE_SQL`. -/
structure EnqueueRow where
  job : NewJob
  uid : Option Int
  tags : Fields
  state : JorbState
  scheduleId : Option Int

def EnqueueArgs.job (a : EnqueueArgs) (now : Int) (adminData : Json) : NewJob where
  queue := a.queue
  capability := a.capability
  appVersion := a.appVersion
  prio := a.priority
  jobClass := a.jobClass
  kwargs := .obj (a.jobKwargs.getD a.kwargs)
  adminData := adminData
  runGroup := a.runGroup
  waitforGroup := a.waitforGroup
  waitforJob := a.waitforJob
  deadlineKey := a.deadlineKey
  identityKey := a.identityKey
  debounceKey := a.debounceKey
  debounceDeadline := a.debounceDeadline
  partitionKey := a.partitionKey
  runAfter := a.runAfter.getD now

def refuseIf (cond : Bool) (e : EnqueueRefusal) : Except EnqueueRefusal Unit :=
  if cond then .error e else .ok ()

def refuseKeys (j : NewJob) : Except EnqueueRefusal Unit :=
  match j.keyRefusal with
  | some e => .error (.keys e)
  | none => .ok ()

def buildEnqueueRow (now : Int) (a : EnqueueArgs) : Except EnqueueRefusal EnqueueRow := do
  refuseIf (a.jobKwargs.isSome && !a.kwargs.isEmpty)
    (.unknownOptions (a.kwargs.map Prod.fst).mergeSort)
  refuseKeys (a.job now .null)
  validateKey "deadline_key" a.deadlineKey
  validateKey "identity_key" a.identityKey
  validateKey "debounce_key" a.debounceKey
  validateKey "partition_key" a.partitionKey
  let appVersion ← validateAppVersion a.appVersion
  validatePriority a.priority a.prioCeiling
  refuseIf (a.retry.onTimeout ∉ ["retry", "fail"]) (.admin .onTimeout)
  let tags ← validateTags a.tags
  let adminData ← (enqueueAdminData a.retry (a.adminData.getD [])).mapError .admin
  let job := { a.job now adminData with appVersion := appVersion }
  return { job := job, uid := a.uid, tags := tags, scheduleId := a.scheduleId
           state := if job.dependent then .waiting else .queued }

namespace EnqueueRow

def keys (row : EnqueueRow) : List (Option String) :=
  [row.job.deadlineKey, row.job.identityKey, row.job.debounceKey]

/-- A dependency column is not NULL. -/
def dependent (row : EnqueueRow) : Bool := row.job.waitforJob.isSome || row.job.waitforGroup.isSome

structure WellFormed (row : EnqueueRow) : Prop where
  oneKey : row.keys.countP Option.isSome ≤ 1
  window : row.job.debounceDeadline.isSome → row.job.debounceKey.isSome
  oneWaitfor : ¬(row.job.waitforJob.isSome ∧ row.job.waitforGroup.isSome)
  state : row.state = if row.dependent then .waiting else .queued
  keyless : row.dependent → ∀ key ∈ row.keys, key = none

end EnqueueRow

theorem refuseKeys_eq_ok {j : NewJob} {u : Unit} (h : refuseKeys j = .ok u) :
    j.keyRefusal = none := by
  unfold refuseKeys at h
  split at h
  · cases h
  · assumption

/-- What an accepted row has passed, and where its columns come from. -/
structure EnqueueRow.Accepted (a : EnqueueArgs) (row : EnqueueRow) : Prop where
  passed : row.job.keyRefusal = none
  state : row.state = if row.job.dependent then .waiting else .queued
  waitforJob : row.job.waitforJob = a.waitforJob
  waitforGroup : row.job.waitforGroup = a.waitforGroup

theorem accepted_of_ok {now : Int} {a : EnqueueArgs} {row : EnqueueRow}
    (h : buildEnqueueRow now a = .ok row) : row.Accepted a := by
  simp only [buildEnqueueRow, bind_eq_ok] at h
  obtain ⟨_, -, _, hkeys, _, -, _, -, _, -, _, -, appVersion, -, _, -, _, -, tags, -, adminData, -,
    hrow⟩ := h
  cases hrow
  exact ⟨refuseKeys_eq_ok hkeys, rfl, rfl, rfl⟩

theorem truthy_eq_isSome {dep : Option Int} (h : dep ≠ some 0) : truthy dep = dep.isSome := by
  cases dep with
  | none => rfl
  | some n => simpa [truthy] using h

namespace EnqueueRow

variable {a : EnqueueArgs} {row : EnqueueRow}

/-- A given dependency is truthy, unless it is 0. -/
theorem dependent_eq (hjob : row.job.waitforJob ≠ some 0) (hgroup : row.job.waitforGroup ≠ some 0) :
    row.job.dependent = row.dependent := by
  rw [dependent, NewJob.dependent, truthy_eq_isSome hjob, truthy_eq_isSome hgroup]

theorem Accepted.oneKey (h : row.Accepted a) : row.keys.countP Option.isSome ≤ 1 := by
  have hchecks := NewJob.keyRefusal_eq_none.mp h.passed
  simp only [NewJob.keyChecks, NewJob.conflicting, List.forall_mem_cons] at hchecks
  obtain ⟨-, hdebounce, -, -, hidentity, -⟩ := hchecks
  cases hd : row.job.deadlineKey <;> cases hi : row.job.identityKey <;>
    cases hb : row.job.debounceKey <;> simp_all [keys]

theorem Accepted.window (h : row.Accepted a) (hdeadline : row.job.debounceDeadline.isSome) :
    row.job.debounceKey.isSome := by
  have hcheck := NewJob.keyRefusal_eq_none.mp h.passed
    (row.job.debounceKey.isNone && row.job.debounceDeadline.isSome, .deadlineWithoutDebounce)
    (by simp [NewJob.keyChecks])
  simpa [hdeadline, Option.isSome_iff_ne_none] using hcheck

theorem Accepted.keyless (h : row.Accepted a) (hdep : row.job.dependent) :
    ∀ key ∈ row.keys, key = none := by
  have hchecks := NewJob.keyRefusal_eq_none.mp h.passed
  simp only [NewJob.keyChecks, hdep, List.forall_mem_cons] at hchecks
  obtain ⟨-, -, hdebounce, -, -, hidentity, hdeadline, -⟩ := hchecks
  simp_all [keys]

/-- A column given as 0 is not NULL, but the state was decided as if it were. -/
theorem Accepted.wellFormed_iff (h : row.Accepted a) :
    row.WellFormed ↔ a.waitforJob ≠ some 0 ∧ a.waitforGroup ≠ some 0 := by
  rw [← h.waitforJob, ← h.waitforGroup]
  constructor
  · intro hrow
    have hone := hrow.oneWaitfor
    have hgiven (hdep : row.dependent) :
        truthy row.job.waitforJob ∨ truthy row.job.waitforGroup := by
      have hwaiting := h.state.symm.trans (hrow.state.trans (if_pos hdep))
      by_contra hnot
      have : row.job.dependent = false := by simpa [NewJob.dependent] using hnot
      simp [this] at hwaiting
    refine ⟨fun hzero => ?_, fun hzero => ?_⟩
    · have hgroup := (hgiven (by simp [dependent, hzero])).resolve_left (by simp [hzero, truthy])
      exact hone ⟨by simp [hzero], isSome_of_truthy hgroup⟩
    · have hjob := (hgiven (by simp [dependent, hzero])).resolve_right (by simp [hzero, truthy])
      exact hone ⟨isSome_of_truthy hjob, by simp [hzero]⟩
  · rintro ⟨hjob, hgroup⟩
    have hdep := dependent_eq hjob hgroup
    refine ⟨h.oneKey, h.window, ?_, hdep ▸ h.state, fun hd => h.keyless (hdep.trans hd)⟩
    have hcheck := NewJob.keyRefusal_eq_none.mp h.passed
      (truthy row.job.waitforJob && truthy row.job.waitforGroup, .bothWaitfors)
      (by simp [NewJob.keyChecks])
    simpa [truthy_eq_isSome hjob, truthy_eq_isSome hgroup] using hcheck

/-- The row is inserted in the state its parameters give. -/
theorem Accepted.row_state (h : row.Accepted a) (now : Int) (id : Nat) :
    (row.job.row now id).state = row.state := h.state.symm

end EnqueueRow

/-- A row that was accepted is well formed exactly when no dependency was given as 0. -/
theorem enqueue_row_well_formed (now : Int) (a : EnqueueArgs) (row : EnqueueRow)
    (h : buildEnqueueRow now a = .ok row) :
    row.WellFormed ↔ a.waitforJob ≠ some 0 ∧ a.waitforGroup ≠ some 0 :=
  (accepted_of_ok h).wellFormed_iff

def EnqueueArgs.after (upstream : Int) : EnqueueArgs :=
  { jobClass := "app.jobs.Send", waitforJob := some upstream }

theorem enqueue_row_well_formed_after :
    ∃ row, buildEnqueueRow 0 (.after 7) = .ok row ∧ row.WellFormed ∧ row.state = .waiting := by
  obtain ⟨row, hrow⟩ : ∃ row, buildEnqueueRow 0 (.after 7) = .ok row := ⟨_, rfl⟩
  have hwell := (enqueue_row_well_formed 0 (.after 7) row hrow).mpr ⟨by decide, by decide⟩
  cases hrow
  exact ⟨_, rfl, hwell, rfl⟩

/-- The row has a dependency column, is not `waiting`, and may carry a deadline key. -/
theorem enqueue_row_zero : ∃ row,
    buildEnqueueRow 0 { EnqueueArgs.after 0 with deadlineKey := some "daily" } = .ok row ∧
      row.state = .queued ∧ ¬row.WellFormed :=
  ⟨_, rfl, rfl, fun hrow => absurd hrow.state (by decide)⟩

end Pyjobby
