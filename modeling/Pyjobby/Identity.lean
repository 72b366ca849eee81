import Pyjobby.Debounce

/-! Identity keys. The index holds a key as long as its row exists, whatever the
row's state, so of all the enqueues of a key one inserts and the others find what
it inserted. -/

namespace Pyjobby

open Relational Transition

/-- The columns of a job that no statement but a bounce rewrites once it is
enqueued, the same in both rows. -/
structure SameEnqueue (r r' : Jorb) : Prop where
  job : SameJob r r'
  capability : r'.capability = r.capability
  jobClass : r'.jobClass = r.jobClass
  adminData : r'.adminData = r.adminData
  identityKey : r'.identityKey = r.identityKey
  kwargs : r.debounceKey = none → r'.debounceKey = none ∧ r'.kwargs = r.kwargs

namespace SameEnqueue

variable {r s t : Jorb}

theorem refl (r : Jorb) : SameEnqueue r r :=
  ⟨⟨rfl, rfl, rfl, rfl, rfl, rfl⟩, rfl, rfl, rfl, rfl, fun h => ⟨h, rfl⟩⟩

theorem trans (h : SameEnqueue r s) (k : SameEnqueue s t) : SameEnqueue r t where
  job := h.job.trans k.job
  capability := k.capability.trans h.capability
  jobClass := k.jobClass.trans h.jobClass
  adminData := k.adminData.trans h.adminData
  identityKey := k.identityKey.trans h.identityKey
  kwargs hnone :=
    have hs := h.kwargs hnone
    ⟨(k.kwargs hs.1).1, (k.kwargs hs.1).2.trans hs.2⟩

end SameEnqueue

theorem Updates.sameEnqueue {w : World} {a : Act} {u : Update} (h : Updates w a u)
    (ha : a.keyless) (r : Jorb) : SameEnqueue r (u.set.set r) := by
  have hkwargs (hnone : r.debounceKey = none) :
      (u.set.set r).debounceKey = none ∧ (u.set.set r).kwargs = r.kwargs := by
    refine ⟨?_, h.kwargs ha r⟩
    by_contra hsome
    have := h.debounceKey r (Option.isSome_iff_ne_none.mpr hsome)
    simp [hnone] at this
  have hjob := (h.sound.keeps r).1
  cases h with
  | supervise s => cases s <;> exact ⟨hjob, rfl, rfl, rfl, rfl, hkwargs⟩
  | worker exec s => cases s <;> exact ⟨hjob, rfl, rfl, rfl, rfl, hkwargs⟩
  | _ => exact ⟨hjob, rfl, rfl, rfl, rfl, hkwargs⟩

namespace Clients

/-- What a step does to the job table. -/
inductive Tabled (s : Clients) (a : ClientAct) (s' : Clients) : Prop where
  | same (jorb : s'.world.db.jorb = s.world.db.jorb)
  | updated {p : Jorb → Bool} {u : Rewrite Jorb.id}
      (jorb : s'.world.db.jorb = s.world.db.jorb.update p u)
      (keeps : ∀ r ∈ s.world.db.jorb, p r → SameEnqueue r (u.set r))
  | deleted {batch : List Nat} (act : a = .env (.delete batch))
      (jorb : s'.world.db.jorb = s.world.db.jorb.delete fun r => r.id ∈ batch)
  | inserted {j : NewJob}
      (jorb : ∀ r, r ∈ s'.world.db.jorb ↔
        r ∈ s.world.db.jorb ∨ r = j.row s.world.clock s.world.db.jorb.next)
      (source : j.identityKey = none ∨ ∃ i c, a = .run i ∧ s'.calls[i]? = some c ∧ c.job = j ∧
        c.phase = .returned s.world.db.jorb.next true)

variable {s s' : Clients} {a : ClientAct}

theorem Stepped.tabled (h : Stepped s a s') : Tabled s a s' := by
  cases h with
  | @env a world keyless step =>
    cases World.step_effect step with
    | quiet db clock queue jorb => exact .same jorb
    | close session jorb => exact .same jorb
    | opens => exact .same rfl
    | delete batch act => exact .deleted (act ▸ rfl) rfl
    | insert j act =>
      exact .inserted (j := j) (fun _ => Serial.mem_insert (h := fun _ => rfl))
        (.inl (Act.keys_of_keyless keyless act).2.2)
    | update db wakes u jorb free source =>
      exact .updated jorb fun r _ _ => source.sameEnqueue keyless r
    | @commit session jid c _ _ _ _ _ _ _ _ jorb =>
      exact .updated jorb fun r _ _ => ⟨c.args.claimed_same c.now r, rfl, rfl, rfl, rfl,
        fun hnone => ⟨hnone, rfl⟩⟩
  | call => exact .same rfl
  | snapshot => exact .same rfl
  | @run i c c' world mem run =>
    have hjob := Call.run_job run
    have hran := Call.run_ran run
    generalize hphase : c'.phase = phase at hran
    cases hran with
    | insert | again | mismatch | held => exact .same rfl
    | @bounced id key r hkey _ hr =>
      refine .updated (p := (c.job.bounce s.world.clock id key).cond s.world.db)
        (u := (c.job.bounce s.world.clock id key).set) rfl fun t _ hc => ?_
      refine ⟨⟨rfl, rfl, rfl, rfl, rfl, rfl⟩, rfl, rfl, rfl, rfl, fun hnone => ?_⟩
      simp [NewJob.bounce, SupervisorStmt.cond, hnone] at hc
    | created henq =>
      exact .inserted (j := c.job) (fun r => Db.enqueue_jorb henq) (.inr ⟨i, c', rfl,
        List.getElem?_set_self (List.getElem?_eq_some_iff.mp mem).1, hjob, hphase⟩)

theorem Stepped.kept (h : Stepped s a s') {r : Jorb} (hr : r ∈ s.world.db.jorb)
    (hkeep : ∀ batch, a = .env (.delete batch) → r.id ∉ batch) :
    ∃ r' ∈ s'.world.db.jorb, SameEnqueue r r' := by
  cases h.tabled with
  | same jorb => exact ⟨r, jorb ▸ hr, .refl r⟩
  | @updated p u jorb keeps =>
    refine ⟨_, jorb ▸ Serial.mem_update.mpr ⟨r, hr, rfl⟩, ?_⟩
    split
    · exact keeps r hr ‹_›
    · exact .refl r
  | deleted act jorb =>
    exact ⟨r, jorb ▸ Serial.mem_delete.mpr ⟨hr, by simpa using hkeep _ act⟩, .refl r⟩
  | inserted jorb => exact ⟨r, (jorb r).mpr (.inl hr), .refl r⟩

theorem Stepped.named (h : Stepped s a s') {r' : Jorb} (hr' : r' ∈ s'.world.db.jorb)
    (hkey : r'.identityKey.isSome) :
    (∃ r ∈ s.world.db.jorb, SameEnqueue r r') ∨
      ∃ i c, a = .run i ∧ s'.calls[i]? = some c ∧ c.phase = .returned r'.id true ∧
        r' = c.job.row s.world.clock r'.id := by
  cases h.tabled with
  | same jorb => exact .inl ⟨r', jorb ▸ hr', .refl r'⟩
  | @updated p u jorb keeps =>
    obtain ⟨r, hr, rfl⟩ := Serial.mem_update.mp (jorb ▸ hr')
    refine .inl ⟨r, hr, ?_⟩
    split
    · exact keeps r hr ‹_›
    · exact .refl r
  | deleted act jorb => exact .inl ⟨r', (Serial.mem_delete.mp (jorb ▸ hr')).1, .refl r'⟩
  | inserted jorb source =>
    rcases (jorb r').mp hr' with hr | rfl
    · exact .inl ⟨r', hr, .refl r'⟩
    · rcases source with hnone | ⟨i, c, hact, hc, rfl, hphase⟩
      · exact absurd (hnone ▸ hkey : (none : Option String).isSome) (by simp)
      · exact .inr ⟨i, c, hact, hc, hphase, rfl⟩

end Clients

def World.Names (w : World) (key : String) (id : Nat) (jobClass : String) : Prop :=
  ∃ r ∈ w.db.jorb, r.id = id ∧ r.identityKey = some key ∧ r.jobClass = jobClass

theorem Db.identified_eq_some {db : Db} {key : String} {id : Nat} {jobClass : String}
    (h : db.identified (some key) = some (id, jobClass)) :
    ∃ r ∈ db.jorb, r.id = id ∧ r.identityKey = some key ∧ r.jobClass = jobClass := by
  obtain ⟨r, hr, heq⟩ := Option.map_eq_some_iff.mp h
  obtain ⟨rfl, rfl⟩ := Prod.mk.inj heq
  have hkey := List.find?_some hr
  simp only [Bool.and_eq_true, decide_eq_true_eq] at hkey
  exact ⟨r, List.mem_of_find?_eq_some hr, rfl, hkey.2, rfl⟩

namespace ClientRun

variable {ρ : ClientRun} {key : String}

def Keeps (ρ : ClientRun) (key : String) : Prop :=
  ∀ n < ρ.length, ∀ batch, ρ.act n = .env (.delete batch) →
    ∀ r ∈ (ρ.state n).world.db.jorb, r.identityKey = some key → r.id ∉ batch

/-- Step `m` is the statement that reported `created=True` for an enqueue of the key. -/
def Created (ρ : ClientRun) (key : String) (m : Nat) (c : Call) (id : Nat) : Prop :=
  ∃ i, ρ.act m = .run i ∧ (ρ.state (m + 1)).calls[i]? = some c ∧
    c.job.identityKey = some key ∧ c.phase = .returned id true

theorem row_later (hkeep : ρ.Keeps key) {n m : Nat} (hnm : n ≤ m) (hm : m ≤ ρ.length) {r : Jorb}
    (hr : r ∈ (ρ.state n).world.db.jorb) (hkey : r.identityKey = some key) :
    ∃ r' ∈ (ρ.state m).world.db.jorb, SameEnqueue r r' := by
  induction hnm with
  | refl => exact ⟨r, hr, .refl r⟩
  | @step m _ ih =>
    obtain ⟨t, ht, hsame⟩ := ih (Nat.le_of_succ_le hm)
    obtain ⟨r', hr', hsame'⟩ := (ρ.stepped hm).kept ht
      fun batch hact => hkeep m hm batch hact t ht (hsame.identityKey.trans hkey)
    exact ⟨r', hr', hsame.trans hsame'⟩

theorem names_later (hkeep : ρ.Keeps key) {n m : Nat} (hnm : n ≤ m) (hm : m ≤ ρ.length) {id : Nat}
    {jobClass : String} (h : (ρ.state n).world.Names key id jobClass) :
    (ρ.state m).world.Names key id jobClass := by
  obtain ⟨r, hr, rfl, hkey, rfl⟩ := h
  obtain ⟨r', hr', hsame⟩ := row_later hkeep hnm hm hr hkey
  exact ⟨r', hr', hsame.job.id, hsame.identityKey.trans hkey, hsame.jobClass⟩

theorem held_names (hkeep : ρ.Keeps key) (h0 : (ρ.state 0).calls = []) {n : Nat}
    (hn : n ≤ ρ.length) {i : Nat} {c : Call} (hc : (ρ.state n).calls[i]? = some c)
    (hkey : c.job.identityKey = some key) {id : Nat} {jobClass : String}
    (hphase : c.phase = .identifying (some (id, jobClass))) :
    (ρ.state n).world.Names key id jobClass := by
  induction n with
  | zero => simp [h0] at hc
  | succ n ih =>
    rcases (ρ.stepped hn).identifying_cases hc hphase with hold | hseen
    · exact names_later hkeep (Nat.le_succ n) hn (ih (Nat.le_of_succ_le hn) hold)
    · exact Db.identified_eq_some (hkey ▸ hseen)

theorem returned_names (hcap : ∀ n ≤ ρ.length, Capped (ρ.state n)) (hkeep : ρ.Keeps key)
    (h0 : (ρ.state 0).calls = []) {n : Nat} (hn : n ≤ ρ.length) {i : Nat} {c : Call}
    (hc : (ρ.state n).calls[i]? = some c) (hkey : c.job.identityKey = some key) {id : Nat}
    {created : Bool} (hphase : c.phase = .returned id created) :
    (ρ.state n).world.Names key id c.job.jobClass := by
  obtain ⟨m, hm, -, -, b, hb, hrun⟩ :=
    ρ.last_statement h0 hn hc (by simp [Call.ended, hphase])
  have hjob := Call.run_job hrun
  have hran := Call.run_ran hrun
  refine names_later hkeep (show m + 1 ≤ n from hm) hn ?_
  rw [hphase] at hran
  generalize hret : CallPhase.returned id created = phase at hran
  generalize hworld : (ρ.state (m + 1)).world = w' at hran
  cases hran with
  | insert | mismatch => cases hret
  | again => exact absurd hret.symm Call.again_ne_returned
  | held hheld =>
    cases hret
    rw [hjob, ← hworld]
    exact names_later hkeep (Nat.le_succ m) (by omega)
      (held_names hkeep h0 (by omega) hb (hjob ▸ hkey) hheld)
  | @bounced _ dkey _ hdkey =>
    have hnone := NewJob.debounceKey_of_identified
      ((hcap m (by omega)).keys b (List.mem_of_getElem? hb)) (by simp [← hjob, hkey])
    cases hnone.symm.trans hdkey
  | created henq =>
    cases hret
    exact ⟨_, (Db.enqueue_jorb henq).mpr (.inr rfl), rfl, hjob ▸ hkey, by rw [hjob]; rfl⟩

theorem Created.inserted {m : Nat} (hm : m < ρ.length) {c : Call} {id : Nat}
    (h : ρ.Created key m c id) :
    id = (ρ.state m).world.db.jorb.next ∧ id < (ρ.state (m + 1)).world.db.jorb.next ∧
      c.job.row (ρ.state m).world.clock id ∈ (ρ.state (m + 1)).world.db.jorb := by
  obtain ⟨i, hact, hc, -, hphase⟩ := h
  obtain ⟨b, c', -, hc', hrun⟩ := Clients.Stepped.run_call (hact ▸ ρ.stepped hm)
  obtain rfl := Option.some.inj (hc.symm.trans hc')
  have hran := Call.run_ran hrun
  rw [hphase] at hran
  generalize hret : CallPhase.returned id true = phase at hran
  generalize hworld : (ρ.state (m + 1)).world = w' at hran
  cases hran with
  | insert | mismatch | held | bounced => cases hret
  | again => exact absurd hret.symm Call.again_ne_returned
  | created henq =>
    cases hret
    have hmem := (Db.enqueue_jorb henq).mpr (.inr rfl)
    rw [Call.run_job hrun]
    exact ⟨rfl, Serial.lt_next hmem, hmem⟩

theorem row_created (h0 : (ρ.state 0).world.db.jorb = .empty 1) {n : Nat} (hn : n ≤ ρ.length)
    {r : Jorb} (hr : r ∈ (ρ.state n).world.db.jorb) (hkey : r.identityKey = some key) :
    ∃ m < n, ∃ c, ρ.Created key m c r.id ∧
      SameEnqueue (c.job.row (ρ.state m).world.clock r.id) r := by
  induction n generalizing r with
  | zero => exact absurd (h0 ▸ hr) Serial.not_mem_empty
  | succ n ih =>
    rcases (ρ.stepped hn).named hr (by simp [hkey]) with
      ⟨t, ht, hsame⟩ | ⟨i, c, hact, hc, hphase, heq⟩
    · obtain ⟨m, hm, c, hcreated, hsub⟩ :=
        ih (Nat.le_of_succ_le hn) ht (hsame.identityKey.symm.trans hkey)
      rw [← hsame.job.id] at hcreated hsub
      exact ⟨m, Nat.lt_succ_of_lt hm, c, hcreated, hsub.trans hsame⟩
    · have hjob : c.job.identityKey = some key := by rw [heq] at hkey; exact hkey
      exact ⟨n, Nat.lt_succ_self n, c, ⟨i, hact, hc, hjob, hphase⟩, by rw [← heq]; exact .refl r⟩

theorem created_once (hcap : ∀ n ≤ ρ.length, Capped (ρ.state n)) (hkeep : ρ.Keeps key)
    {n m : Nat} (hnm : n < m) (hm : m < ρ.length) {c d : Call} {id id' : Nat}
    (hc : ρ.Created key n c id) : ¬ ρ.Created key m d id' := by
  intro hd
  have hn : n < ρ.length := hnm.trans hm
  obtain ⟨-, hlt, hrow⟩ := hc.inserted hn
  obtain ⟨hid', -, hrow'⟩ := hd.inserted hm
  obtain ⟨-, -, -, hckey, -⟩ := hc
  obtain ⟨-, -, -, hdkey, -⟩ := hd
  obtain ⟨r, hr, hsame⟩ := row_later hkeep (show n + 1 ≤ m + 1 by omega) hm hrow hckey
  have heq := (hcap (m + 1) hm).deduped.unique.identity r hr _ hrow' key
    (hsame.identityKey.trans hckey) hdkey
  have hid : id = id' := hsame.job.id.symm.trans (congrArg Jorb.id heq)
  have hle := ρ.next_le (show n + 1 ≤ m from hnm) hm.le
  omega

end ClientRun

/-- Identity keys, in every run of any number of calls that keeps the row of the
key: one row at most ever has it; every call that returns names that row; exactly
one statement has reported `created=True`, and the row is what it submitted; a
call that gives up or is refused has written nothing. -/
theorem identity_one_job (ρ : ClientRun) (hρ : ∃ clock queue, ρ.state 0 = .init clock queue)
    (key : String) (hkeep : ρ.Keeps key) :
    ∀ n ≤ ρ.length,
      (∀ m ≤ n, ∀ r ∈ (ρ.state m).world.db.jorb, ∀ s ∈ (ρ.state n).world.db.jorb,
        r.identityKey = some key → s.identityKey = some key → r.id = s.id) ∧
      (∀ (i : Nat) (c : Call) (id : Nat) (created : Bool),
        (ρ.state n).calls[i]? = some c → c.job.identityKey = some key →
        c.phase = .returned id created → (ρ.state n).world.Names key id c.job.jobClass) ∧
      (∀ r ∈ (ρ.state n).world.db.jorb, r.identityKey = some key →
        ∃ m < n, ∃ c, ρ.Created key m c r.id ∧
          c.job.row (ρ.state m).world.clock r.id ∈ (ρ.state (m + 1)).world.db.jorb ∧
          SameEnqueue (c.job.row (ρ.state m).world.clock r.id) r ∧ r.kwargs = c.job.kwargs ∧
          ∀ k < ρ.length, ∀ d id, ρ.Created key k d id → k = m) ∧
      ∀ (i : Nat) (c : Call), (ρ.state n).calls[i]? = some c → c.job.identityKey = some key →
        c.raised → ∀ m < n, ρ.act m = .run i → (ρ.state (m + 1)).world = (ρ.state m).world := by
  have hcap := ClientRun.capped hρ
  obtain ⟨clock, queue, h0⟩ := hρ
  have hcalls : (ρ.state 0).calls = [] := by rw [h0]; rfl
  have hjorb : (ρ.state 0).world.db.jorb = .empty 1 := by rw [h0]; rfl
  intro n hn
  refine ⟨fun m hmn r hr s hs hrkey hskey => ?_, fun i c id created hc hkey hphase =>
    ρ.returned_names hcap hkeep hcalls hn hc hkey hphase, fun r hr hkey => ?_,
    fun i c hc _ hraised m hmn hact => ρ.raised_quiet hmn hn hc hraised hact⟩
  · obtain ⟨r', hr', hsame⟩ := ρ.row_later hkeep hmn hn hr hrkey
    rw [← hsame.job.id, (hcap n hn).deduped.unique.identity r' hr' s hs key
      (hsame.identityKey.trans hrkey) hskey]
  · obtain ⟨m, hm, c, hcreated, hsame⟩ := ρ.row_created hjorb hn hr hkey
    have hmn : m < ρ.length := by omega
    have hkwargs : r.kwargs = c.job.kwargs := by
      obtain ⟨i, -, hc, hckey, -⟩ := hcreated
      exact (hsame.kwargs (NewJob.debounceKey_of_identified
        ((hcap (m + 1) hmn).keys c (List.mem_of_getElem? hc)) (by simp [hckey]))).2
    refine ⟨m, hm, c, hcreated, (hcreated.inserted hmn).2.2, hsame, hkwargs,
      fun k hk d id hd => ?_⟩
    rcases Nat.lt_trichotomy k m with hkm | rfl | hmk
    · exact absurd hcreated (ρ.created_once hcap hkeep hkm hmn hd)
    · rfl
    · exact absurd hd (ρ.created_once hcap hkeep hmk hk hcreated)

def identifiedJob : NewJob := { NewJob.plain "q" with identityKey := some "order-7" }

/-- Two enqueues take their snapshots before either inserts; the second has to ask
again. -/
def identifiedActs : List ClientAct :=
  [.identify identifiedJob, .identify identifiedJob, .snapshot 0, .snapshot 1, .run 1, .run 0,
    .snapshot 0, .run 0]

def identifiedRun : ClientRun := .ofList (.init 0 fun _ => none) identifiedActs (by decide)

theorem identity_one_job_twice :
    (identifiedRun.state 8).calls.map Call.phase = [.returned 1 false, .returned 1 true] ∧
      ∀ m ≤ 8, ∀ r ∈ (identifiedRun.state m).world.db.jorb,
        ∀ s ∈ (identifiedRun.state 8).world.db.jorb,
          r.identityKey = some "order-7" → s.identityKey = some "order-7" → r.id = s.id := by
  refine ⟨by decide, (identity_one_job identifiedRun ⟨_, _, rfl⟩ "order-7"
    (fun n hn batch hact => ?_) 8 (by decide)).1⟩
  match n, hn with
  | 0, _ | 1, _ | 2, _ | 3, _ | 4, _ | 5, _ | 6, _ | 7, _ => cases hact

end Pyjobby
