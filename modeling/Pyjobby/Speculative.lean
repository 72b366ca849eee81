import Pyjobby.Dedupe
import Pyjobby.Fencing

/-! The two speculative enqueues, statement by statement. A statement reads the
snapshot it began with, takes effect later on the rows as they are then, and is
issued again where it could neither insert a row nor see the one in its way. -/

namespace Pyjobby

open Relational Transition

def speculativeAttempts : Nat := 5

/-- Where a call stands between two statements. `parked` and `held` are the row,
and its class, that the snapshot of the statement under way shows. -/
inductive CallPhase where
  | bounce
  | bouncing (parked : Option (Nat × String))
  | insert
  | identify
  | identifying (held : Option (Nat × String))
  | returned (id : Nat) (created : Bool)
  | mismatch (id : Nat) (jobClass : String)
  | exhausted
  deriving DecidableEq

/-- A call of `debounce()`, or of an enqueue with an identity key. -/
structure Call where
  job : NewJob
  attempt : Nat
  phase : CallPhase

namespace NewJob

/-- The row `debounce()` builds where the caller's clock reads `now`. A positive
number of seconds may round to no microsecond at all. -/
def debounced (base : NewJob) (key : String) (now period : Int) (cap : Option Int) : NewJob :=
  let deadline := cap.map (now + ·)
  let firesAt := now + period
  { base with
    debounceKey := some key, debounceDeadline := deadline,
    runAfter :=
      match deadline with
      | some d => if d < firesAt then d else firesAt
      | none => firesAt }

def firstPhase (j : NewJob) : CallPhase := if j.debounceKey.isSome then .bounce else .identify

/-- `DEBOUNCE_BOUNCE_SQL` takes effect on the row its snapshot showed, if that
still meets the conditions. -/
def bounce (j : NewJob) (now : Int) (id : Nat) (key : String) : Update :=
  let stmt : SupervisorStmt := .bounce key j.runAfter j.kwargs j.jobClass
  ⟨fun db r => r.id = id && stmt.cond now db r, (stmt.update now).set⟩

end NewJob

namespace Db

def parked (db : Db) (key : String) : Option (Nat × String) :=
  (db.jorb.rows.find? fun r => r.debounceEntry = some key).map fun r => (r.id, r.jobClass)

def identified (db : Db) (key : Option String) : Option (Nat × String) :=
  (db.jorb.rows.find? fun r => r.identityKey.isSome && r.identityKey = key).map fun r =>
    (r.id, r.jobClass)

end Db

namespace World

/-- A claim has updated the row and not committed yet. -/
def rewriting (w : World) (jid : Nat) : Bool :=
  w.txs.rows.any fun t =>
    match t.body with
    | .claim c => c.row = some jid
    | .compact _ _ => false

/-- `INSERT .. ON CONFLICT DO NOTHING`. It waits for the transaction that is
updating the row in its way. -/
def speculate (w : World) (j : NewJob) : Option (World × Option Nat) :=
  let row := j.row w.clock w.db.jorb.next
  if w.db.jorb.rows.any fun r => Db.keysCollide row r && w.rewriting r.id then none
  else
    match w.db.enqueue w.clock j with
    | some db => some ({ w with db }, some w.db.jorb.next)
    | none => some (w, none)

end World

namespace Call

def snapshot (c : Call) (db : Db) : Option Call :=
  match c.phase with
  | .bounce => some { c with phase := .bouncing (c.job.debounceKey.bind db.parked) }
  | .identify => some { c with phase := .identifying (db.identified c.job.identityKey) }
  | _ => none

def again (c : Call) : Call :=
  if c.attempt + 1 < speculativeAttempts then
    { c with attempt := c.attempt + 1, phase := c.job.firstPhase }
  else { c with phase := .exhausted }

def run (c : Call) (w : World) : Option (World × Call) :=
  match c.phase, c.job.debounceKey with
  | .bouncing none, _ => some (w, { c with phase := .insert })
  | .bouncing (some (id, held)), some key =>
    let u := c.job.bounce w.clock id key
    (w.update u).map fun w' =>
      if w.db.jorb.rows.any (u.cond w.db) then (w', { c with phase := .returned id false })
      else if held ≠ c.job.jobClass then (w', { c with phase := .mismatch id held })
      else (w', { c with phase := .insert })
  | .insert, _ =>
    (w.speculate c.job).map fun (w', made) =>
      match made with
      | some id => (w', { c with phase := .returned id true })
      | none => (w', c.again)
  | .identifying held, _ =>
    (w.speculate c.job).map fun (w', made) =>
      match made, held with
      | some id, _ => (w', { c with phase := .returned id true })
      | none, some (id, jobClass) =>
        if jobClass ≠ c.job.jobClass then (w', { c with phase := .mismatch id jobClass })
        else (w', { c with phase := .returned id false })
      | none, none => (w', c.again)
  | _, _ => none

def ended (c : Call) : Bool :=
  match c.phase with
  | .returned _ _ | .mismatch _ _ | .exhausted => true
  | _ => false

/-- The call raised: another class has the key, or the attempts are spent. -/
def raised (c : Call) : Bool :=
  match c.phase with
  | .mismatch _ _ | .exhausted => true
  | _ => false

end Call

/-- Any number of calls, and everything else that goes on in the database. -/
structure Clients where
  world : World
  calls : List Call

inductive ClientAct where
  | env (a : Act)
  | debounce (base : NewJob) (key : String) (now period : Int) (cap : Option Int)
  | identify (job : NewJob)
  | snapshot (i : Nat)
  | run (i : Nat)

instance : Inhabited ClientAct := ⟨.env default⟩

/-- The other ways to enqueue refuse both keys, and nobody else bounces. -/
def Act.keyless : Act → Bool
  | .enqueue j => j.keyRefusal.isNone && j.debounceKey.isNone && j.identityKey.isNone
  | .supervise (.bounce _ _ _ _) => false
  | _ => true

namespace Clients

def init (clock : Int) (queue : String → Option QueueRow) : Clients :=
  ⟨.init .empty clock queue, []⟩

def call (s : Clients) (job : NewJob) : Clients :=
  { s with calls := s.calls ++ [⟨job, 0, job.firstPhase⟩] }

def step (s : Clients) : ClientAct → Option Clients
  | .env a => if a.keyless then (s.world.step a).map fun world => { s with world } else none
  | .debounce base key now period cap =>
    let job := base.debounced key now period cap
    if 0 ≤ period ∧ cap.all (0 ≤ ·) ∧ job.keyRefusal = none then some (s.call job) else none
  | .identify job =>
    if job.identityKey.isSome ∧ job.keyRefusal = none then some (s.call job) else none
  | .snapshot i =>
    (s.calls[i]?.bind (Call.snapshot · s.world.db)).map fun c =>
      { s with calls := s.calls.set i c }
  | .run i =>
    (s.calls[i]?.bind (Call.run · s.world)).map fun (world, c) => ⟨world, s.calls.set i c⟩

end Clients

/-- What a statement of a call does when it takes effect, and where it leaves the call. -/
inductive Call.Ran (c : Call) (w : World) : World → CallPhase → Prop where
  | insert : Ran c w w .insert
  | again : Ran c w w c.again.phase
  | mismatch (id : Nat) (jobClass : String) : Ran c w w (.mismatch id jobClass)
  | held {id : Nat} (phase : c.phase = .identifying (some (id, c.job.jobClass))) :
      Ran c w w (.returned id false)
  | bounced {id : Nat} {key : String} {r : Jorb} (hkey : c.job.debounceKey = some key)
      (mem : r ∈ w.db.jorb) (hr : (c.job.bounce w.clock id key).cond w.db r) :
      Ran c w { w with db := (c.job.bounce w.clock id key).run w.db } (.returned id false)
  | created {db : Db} (h : w.db.enqueue w.clock c.job = some db) :
      Ran c w { w with db } (.returned w.db.jorb.next true)

theorem World.speculate_cases {w w' : World} {j : NewJob} {made : Option Nat}
    (h : w.speculate j = some (w', made)) :
    w' = w ∧ made = none ∨
      ∃ db, w.db.enqueue w.clock j = some db ∧ w' = { w with db } ∧ made = some w.db.jorb.next := by
  simp only [speculate] at h
  split at h
  · cases h
  · split at h
    · rename_i db hdb
      cases h
      exact .inr ⟨db, hdb, rfl, rfl⟩
    · cases h
      exact .inl ⟨rfl, rfl⟩

namespace Call

variable {c c' : Call} {w w' : World}

@[simp]
theorem again_job (c : Call) : c.again.job = c.job := by
  unfold again
  split <;> rfl

theorem snapshot_job {db : Db} (h : c.snapshot db = some c') : c'.job = c.job := by
  unfold snapshot at h
  split at h <;> cases h <;> rfl

theorem run_job (h : c.run w = some (w', c')) : c'.job = c.job := by
  unfold run at h
  split at h
  · cases h
    rfl
  · obtain ⟨w₁, -, h⟩ := Option.map_eq_some_iff.mp h
    split_ifs at h <;> cases h <;> rfl
  · obtain ⟨⟨w₁, made⟩, -, h⟩ := Option.map_eq_some_iff.mp h
    cases made <;> cases h
    · exact c.again_job
    · rfl
  · obtain ⟨⟨w₁, made⟩, -, h⟩ := Option.map_eq_some_iff.mp h
    dsimp only at h
    split at h
    · cases h
      rfl
    · split_ifs at h <;> cases h <;> rfl
    · cases h
      exact c.again_job
  · cases h

theorem run_ran (h : c.run w = some (w', c')) : Ran c w w' c'.phase := by
  unfold run at h
  split at h
  · cases h
    exact .insert
  · rename_i id held key hphase hkey
    obtain ⟨w₁, hw₁, h⟩ := Option.map_eq_some_iff.mp h
    obtain ⟨-, rfl⟩ := World.update_eq_some.mp hw₁
    split at h
    · rename_i hany
      obtain ⟨r, hr, hc⟩ := List.any_eq_true.mp hany
      cases h
      exact .bounced hkey hr hc
    · rename_i hany
      have hun : (c.job.bounce w.clock id key).run w.db = w.db :=
        Update.run_of_unmatched fun r hr =>
          Bool.eq_false_iff.mpr fun hc => hany (List.any_eq_true.mpr ⟨r, hr, hc⟩)
      rw [hun] at h
      split_ifs at h <;> cases h
      · exact .mismatch id held
      · exact .insert
  · obtain ⟨⟨w₁, made⟩, hmade, h⟩ := Option.map_eq_some_iff.mp h
    rcases World.speculate_cases hmade with ⟨rfl, rfl⟩ | ⟨db, hdb, rfl, rfl⟩ <;> cases h
    · exact .again
    · exact .created hdb
  · rename_i held hphase
    obtain ⟨⟨w₁, made⟩, hmade, h⟩ := Option.map_eq_some_iff.mp h
    rcases World.speculate_cases hmade with ⟨rfl, rfl⟩ | ⟨db, hdb, rfl, rfl⟩
    · cases held with
      | none =>
        cases h
        exact .again
      | some row =>
        dsimp only at h
        split_ifs at h with hclass <;> cases h
        · exact .mismatch _ _
        · rw [not_not] at hclass
          exact .held (hclass ▸ hphase)
    · cases h
      exact .created hdb
  · cases h

theorem run_of_over (h : c.ended) : c.run w = none := by
  unfold ended at h
  split at h <;> simp_all [run]

theorem snapshot_of_over (h : c.ended) (db : Db) : c.snapshot db = none := by
  unfold ended at h
  split at h <;> simp_all [snapshot]

end Call

theorem NewJob.debounced_le {base : NewJob} {key : String} {now period : Int} {cap : Option Int}
    {d : Int} (h : (base.debounced key now period cap).debounceDeadline = some d) :
    (base.debounced key now period cap).runAfter ≤ d := by
  have hcap : cap.map (now + ·) = some d := h
  simp only [debounced, hcap]
  split <;> omega

namespace Clients

variable {s s' : Clients}

/-- What a step is, the calls told apart from everybody else. -/
inductive Stepped (s : Clients) : ClientAct → Clients → Prop where
  | env {a : Act} {world : World} (keyless : a.keyless) (step : s.world.step a = some world) :
      Stepped s (.env a) { s with world }
  | call {a : ClientAct} {job : NewJob} (act : ∀ i, a ≠ .snapshot i ∧ a ≠ .run i)
      (keys : job.keyRefusal = none)
      (capped : job.debounceKey.isSome → ∀ d, job.debounceDeadline = some d → job.runAfter ≤ d) :
      Stepped s a (s.call job)
  | snapshot {i : Nat} {c c' : Call} (mem : s.calls[i]? = some c)
      (snap : c.snapshot s.world.db = some c') :
      Stepped s (.snapshot i) { s with calls := s.calls.set i c' }
  | run {i : Nat} {c c' : Call} {world : World} (mem : s.calls[i]? = some c)
      (run : c.run s.world = some (world, c')) :
      Stepped s (.run i) ⟨world, s.calls.set i c'⟩

theorem step_stepped {a : ClientAct} (h : s.step a = some s') : Stepped s a s' := by
  cases a with
  | env a =>
    simp only [step] at h
    split at h
    · obtain ⟨world, hw, rfl⟩ := Option.map_eq_some_iff.mp h
      exact .env ‹_› hw
    · cases h
  | debounce base key now period cap =>
    simp only [step] at h
    split at h
    · rename_i hok
      cases h
      exact .call (fun _ => ⟨nofun, nofun⟩) hok.2.2 fun _ _ => NewJob.debounced_le
    · cases h
  | identify job =>
    simp only [step] at h
    split at h
    · rename_i hok
      cases h
      refine .call (fun _ => ⟨nofun, nofun⟩) hok.2 fun hsome => ?_
      simp [NewJob.debounceKey_of_identified hok.2 hok.1] at hsome
    · cases h
  | snapshot i =>
    obtain ⟨c', hc', rfl⟩ := Option.map_eq_some_iff.mp h
    obtain ⟨c, hc, hsnap⟩ := Option.bind_eq_some_iff.mp hc'
    exact .snapshot hc hsnap
  | run i =>
    obtain ⟨⟨world, c'⟩, hc', rfl⟩ := Option.map_eq_some_iff.mp h
    obtain ⟨c, hc, hrun⟩ := Option.bind_eq_some_iff.mp hc'
    exact .run hc hrun

theorem Stepped.call_mono {a : ClientAct} (h : Stepped s a s') {i : Nat} {c : Call}
    (hc : s.calls[i]? = some c) :
    ∃ c', s'.calls[i]? = some c' ∧ c'.job = c.job ∧ (c.ended → c' = c) ∧
      (a ≠ .snapshot i → a ≠ .run i → c' = c) := by
  have hlt : i < s.calls.length := (List.getElem?_eq_some_iff.mp hc).1
  cases h with
  | env => exact ⟨c, hc, rfl, fun _ => rfl, fun _ _ => rfl⟩
  | call =>
    exact ⟨c, (List.getElem?_append_left hlt).trans hc, rfl, fun _ => rfl, fun _ _ => rfl⟩
  | @snapshot j b b' mem snap =>
    by_cases hij : j = i
    · subst hij
      obtain rfl := Option.some.inj (mem.symm.trans hc)
      refine ⟨b', List.getElem?_set_self hlt, Call.snapshot_job snap, fun hover => ?_,
        fun hne => absurd rfl hne⟩
      rw [Call.snapshot_of_over hover] at snap
      cases snap
    · exact ⟨c, (List.getElem?_set_ne hij).trans hc, rfl, fun _ => rfl, fun _ _ => rfl⟩
  | @run j b b' world mem run =>
    by_cases hij : j = i
    · subst hij
      obtain rfl := Option.some.inj (mem.symm.trans hc)
      refine ⟨b', List.getElem?_set_self hlt, Call.run_job run, fun hover => ?_,
        fun _ hne => absurd rfl hne⟩
      rw [Call.run_of_over hover] at run
      cases run
    · exact ⟨c, (List.getElem?_set_ne hij).trans hc, rfl, fun _ => rfl, fun _ _ => rfl⟩

theorem Stepped.run_call {i : Nat} (h : Stepped s (.run i) s') :
    ∃ b c, s.calls[i]? = some b ∧ s'.calls[i]? = some c ∧
      b.run s.world = some (s'.world, c) := by
  cases h with
  | call act => exact absurd rfl (act i).2
  | @run _ b c world mem run =>
    exact ⟨b, c, mem, List.getElem?_set_self (List.getElem?_eq_some_iff.mp mem).1, run⟩

theorem Stepped.call_cases {a : ClientAct} (h : Stepped s a s') {i : Nat} {c : Call}
    (hc : s'.calls[i]? = some c) :
    s.calls[i]? = some c ∨ c.phase = c.job.firstPhase ∨
      (∃ b : Call, b.snapshot s'.world.db = some c) ∨
      ∃ b, s.calls[i]? = some b ∧ a = .run i ∧ b.run s.world = some (s'.world, c) := by
  cases h with
  | env => exact .inl hc
  | @call _ job =>
    rcases Nat.lt_trichotomy i s.calls.length with hi | rfl | hi
    · exact .inl ((List.getElem?_append_left hi).symm.trans hc)
    · simp only [Clients.call, List.getElem?_concat_length, Option.some.injEq] at hc
      subst hc
      exact .inr (.inl rfl)
    · have : (s.call job).calls[i]? = none := List.getElem?_eq_none (by simp [Clients.call]; omega)
      cases this.symm.trans hc
  | @snapshot j b b' mem snap =>
    by_cases hji : j = i
    · subst hji
      have hlt := (List.getElem?_eq_some_iff.mp mem).1
      obtain rfl := Option.some.inj ((List.getElem?_set_self hlt).symm.trans hc)
      exact .inr (.inr (.inl ⟨b, snap⟩))
    · exact .inl ((List.getElem?_set_ne hji).symm.trans hc)
  | @run j b b' world mem run =>
    by_cases hji : j = i
    · subst hji
      have hlt := (List.getElem?_eq_some_iff.mp mem).1
      obtain rfl := Option.some.inj ((List.getElem?_set_self hlt).symm.trans hc)
      exact .inr (.inr (.inr ⟨b, mem, rfl, run⟩))
    · exact .inl ((List.getElem?_set_ne hji).symm.trans hc)

theorem Stepped.over_cases {a : ClientAct} (h : Stepped s a s') {i : Nat} {c : Call}
    (hc : s'.calls[i]? = some c) (hover : c.ended) :
    s.calls[i]? = some c ∨
      ∃ b, s.calls[i]? = some b ∧ a = .run i ∧ b.run s.world = some (s'.world, c) := by
  rcases h.call_cases hc with hold | hfirst | ⟨b, hsnap⟩ | hrun
  · exact .inl hold
  · cases hkey : c.job.debounceKey.isSome <;>
      simp [Call.ended, hfirst, NewJob.firstPhase, hkey] at hover
  · unfold Call.snapshot at hsnap
    split at hsnap <;> cases hsnap <;> cases hover
  · exact .inr hrun

theorem Stepped.identifying_cases {a : ClientAct} (h : Stepped s a s') {i : Nat} {c : Call}
    (hc : s'.calls[i]? = some c) {held : Option (Nat × String)}
    (hphase : c.phase = .identifying held) :
    s.calls[i]? = some c ∨ s'.world.db.identified c.job.identityKey = held := by
  rcases h.call_cases hc with hold | hfirst | ⟨b, hsnap⟩ | ⟨b, -, -, hrun⟩
  · exact .inl hold
  · cases hkey : c.job.debounceKey.isSome <;> simp [hphase, NewJob.firstPhase, hkey] at hfirst
  · unfold Call.snapshot at hsnap
    split at hsnap
    · cases hsnap
      cases hphase
    · cases hsnap
      exact .inr (CallPhase.identifying.inj hphase)
    · cases hsnap
  · have hran := Call.run_ran hrun
    generalize c.phase = phase at hran hphase
    generalize s'.world = w' at hran
    cases hran with
    | again =>
      unfold Call.again NewJob.firstPhase at hphase
      split at hphase
      · split at hphase <;> cases hphase
      · cases hphase
    | _ => cases hphase

end Clients

abbrev ClientRun := Run Clients.step

namespace ClientRun

variable (ρ : ClientRun)

theorem stepped {n : Nat} (hn : n < ρ.length) :
    Clients.Stepped (ρ.state n) (ρ.act n) (ρ.state (n + 1)) :=
  Clients.step_stepped (ρ.next n hn)

theorem call_later {n m : Nat} (hnm : n ≤ m) (hm : m ≤ ρ.length) {i : Nat} {c : Call}
    (hc : (ρ.state n).calls[i]? = some c) :
    ∃ c', (ρ.state m).calls[i]? = some c' ∧ c'.job = c.job ∧ (c.ended → c' = c) := by
  induction hnm with
  | refl => exact ⟨c, hc, rfl, fun _ => rfl⟩
  | @step m _ ih =>
    obtain ⟨b, hb, hjob, hover⟩ := ih (Nat.le_of_succ_le hm)
    obtain ⟨c', hc', hjob', hover', -⟩ := (ρ.stepped hm).call_mono hb
    refine ⟨c', hc', hjob'.trans hjob, fun h => ?_⟩
    have hsame := hover h
    exact (hover' (hsame ▸ h)).trans hsame

theorem last_statement (h0 : (ρ.state 0).calls = []) {n : Nat} (hn : n ≤ ρ.length) {i : Nat}
    {c : Call} (hc : (ρ.state n).calls[i]? = some c) (hover : c.ended) :
    ∃ m < n, ρ.act m = .run i ∧ (ρ.state (m + 1)).calls[i]? = some c ∧
      ∃ b, (ρ.state m).calls[i]? = some b ∧
        b.run (ρ.state m).world = some ((ρ.state (m + 1)).world, c) := by
  induction n with
  | zero => simp [h0] at hc
  | succ n ih =>
    rcases (ρ.stepped hn).over_cases hc hover with hold | ⟨b, hb, hact, hrun⟩
    · obtain ⟨m, hm, hlast⟩ := ih (Nat.le_of_succ_le hn) hold
      exact ⟨m, Nat.lt_succ_of_lt hm, hlast⟩
    · exact ⟨n, Nat.lt_succ_self n, hact, hc, b, hb, hrun⟩

end ClientRun

end Pyjobby
