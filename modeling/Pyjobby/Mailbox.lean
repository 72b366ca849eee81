import Pyjobby.ExecutionFence
import Pyjobby.RerunLocks
import Mathlib.Data.List.Find

/-! The mailbox under any number of senders and receivers, a RECV being a transaction of
its own: it reads the snapshot of its start, stamps a message and checkpoints it in one
commit, and can outlive the connection on which it was issued. A message has its id from
its insert on and is seen from the commit on, so that the order of the ids is not the
order in which messages come into sight. -/

namespace Pyjobby

open Relational Transition

/-- A RECV of an attempt at the job, with the snapshot of its start and then the message
it has locked. `heard`: its connection stands, and the attempt waits for the answer. -/
structure RecvTx where
  session : Nat
  attempt : Nat
  exec : Jorb
  seq : Nat
  topic : Option String
  started : Int
  now : Int
  snapshot : Db
  took : Option MailRow
  heard : Bool

namespace RecvTx

/-- The `prior` guard looks at the snapshot alone; `SKIP LOCKED` passes over the messages
that are locked, or consumed since. -/
def pick (t : RecvTx) (busy : Nat → Bool) : Option MailRow :=
  if (t.snapshot.priorAnswer t.exec.id t.seq).isSome then none
  else t.snapshot.unlockedMail t.exec.id t.topic busy

/-- The answer of a RECV that has consumed nothing. -/
def idle (t : RecvTx) (fenced : Bool) : Db.RecvReply :=
  let prior := t.snapshot.priorAnswer t.exec.id t.seq
  ⟨fenced, prior.isSome, prior.bind StepRow.output, false, none⟩

/-- The rows of a RECV that has taken the message: the stamp and the checkpoint. -/
def writes (t : RecvTx) (m : MailRow) : List Write :=
  [.consume m.id t.now,
    .step
      { jobId := t.exec.id, stepSeq := t.seq, name := (Prim.recv t.topic).name,
        output := some m.message, error := none, runEpoch := t.exec.runEpoch,
        started := t.started, finished := some t.now }
      (StepRow.answer m.message t.exec.runEpoch t.started t.now)]

/-- Alone in the database, what it picks and what it writes are `RECV_SQL` as one step. -/
theorem alone {t : RecvTx} (h : (t.snapshot.fence t.exec.id t.exec.runEpoch).isSome) :
    t.snapshot.recv t.now t.exec.id t.seq t.topic (Prim.recv t.topic).name t.exec.runEpoch
        t.started =
      match t.pick fun _ => false with
      | none => (t.snapshot, t.idle true)
      | some m =>
        ((t.writes m).foldl Write.apply t.snapshot, ⟨true, false, none, true, some m.message⟩) := by
  simp only [pick, idle, Db.recv, Db.priorAnswer, Db.unlockedMail_free, h, Bool.true_and]
  cases (t.snapshot.step.find? (t.exec.id, t.seq)).filter fun s => s.error.isNone with
  | some s => rfl
  | none => cases t.snapshot.pendingMail t.exec.id t.topic <;> rfl

end RecvTx

namespace Execution

variable {κ : Type}

def compacts (a : Execution κ) : Bool :=
  match a.phase with
  | .compacting _ _ _ => true
  | _ => false

/-- Where the answer of a RECV leads an attempt that waits for it. -/
def hears (a : Execution κ) (reply : Db.RecvReply) (expired : Bool) : Execution κ :=
  match a.phase with
  | .running (.recv topic) next =>
    if !reply.fenced then a.leave
    else if reply.replayed then a.answer (.recv topic) next reply.priorOutput
    else if reply.consumed then a.answer (.recv topic) next reply.message
    else if expired then { a with phase := .checkpoint (.recv topic) next none }
    else a
  | _ => a

theorem recv_hears {a a' : Execution κ} {w w' : World} {started : Int} {expired : Bool}
    {entries : List Entry} (h : a.recv w started true expired = some (w', a', entries)) :
    ∃ topic next, a.phase = .running (.recv topic) next ∧
      a' = a.hears (w.db.recv w.clock a.row.id a.seq topic (Prim.recv topic).name a.row.runEpoch
        started).2 expired := by
  unfold recv at h
  split at h
  · rename_i topic next hphase
    obtain ⟨w₁, -, h⟩ := Option.map_eq_some_iff.mp h
    cases h
    exact ⟨topic, next, hphase, by simp [hears, hphase]⟩
  · cases h

end Execution

/-- An attempt's RECV in one step, over before the call goes on. -/
def Event.polls : Event → Bool
  | .attempt _ (.recv _ _ _) => true
  | _ => false

/-- The attempts at the receiving job and everybody else, what clients have inserted in
transactions that are still open, and the RECVs of the attempts that are under way. -/
structure MailSys (κ : Type) where
  sys : Sys κ
  unsent : List MailRow
  recvs : Table RecvTx.session

/-- `lose`: the worker gives a connection up, and the server does not know. -/
inductive MailEvent where
  | sys (e : Event)
  | insert (dest : Nat) (topic : Option String) (message : Json)
  | commit (i : Nat)
  | rollback (i : Nat)
  | recv (session i : Nat) (started : Int)
  | lose (session : Nat)
  | take (session : Nat) (expired : Bool)
  | receive (session : Nat)
  | abort (session : Nat)

instance : Inhabited MailEvent := ⟨.sys default⟩

namespace MailSys

variable {κ : Type}

def db (s : MailSys κ) : Db := s.sys.world.db

def withMailbox (s : MailSys κ) (mailbox : Serial MailRow.id) : Sys κ :=
  { s.sys with world := { s.sys.world with db := { s.db with mailbox } } }

/-- The share lock of a RECV that has passed its fence: the row keeps its epoch, and a
`compact-fence` waits. -/
def shared (s : MailSys κ) (sys : Sys κ) : Bool :=
  s.recvs.rows.all fun t =>
    t.took.isNone || (sys.world.owns t.exec && !sys.attempts.any Execution.compacts)

/-- Another RECV has the message locked, or it is not pending any more. -/
def busy (s : MailSys κ) (session mid : Nat) : Bool :=
  (s.recvs.rows.any fun t => t.session ≠ session && t.took.any fun m => m.id = mid) ||
    !s.db.mailbox.rows.any fun m => m.id = mid && m.consumedAt.isNone

/-- The session is done, and an attempt that still waits for its answer goes on. -/
def finish (s : MailSys κ) (t : RecvTx) (db : Db) (reply : Db.RecvReply) (expired : Bool)
    (entries : List Entry) : MailSys κ :=
  { s with
    sys :=
      { world := { s.sys.world with db }
        attempts := s.sys.attempts.modify t.attempt fun a =>
          if t.heard then a.hears reply expired else a
        log := s.sys.log ++ entries }
    recvs := s.recvs.delete fun u => u.session = t.session }

/-- The fence, and then the message. Between the two nobody can advance the epoch, so
that they are one step here. -/
def take (s : MailSys κ) (t : RecvTx) (expired : Bool) : Option (MailSys κ) :=
  if t.took.isSome then none
  else if (t.snapshot.fence t.exec.id t.exec.runEpoch).isNone then
    some (s.finish t s.db (t.idle false) expired [])
  else if s.sys.world.locked t.exec.id || s.sys.attempts.any Execution.compacts then none
  else if !s.sys.world.owns t.exec then some (s.finish t s.db (t.idle false) expired [])
  else
    match t.pick (s.busy t.session) with
    | none => some (s.finish t s.db (t.idle true) expired [])
    | some m => some { s with recvs := s.recvs.put { t with took := some m } }

/-- The checkpoint and COMMIT. The checkpoint waits for that of another session: what is
written last stands. -/
def receive (s : MailSys κ) (t : RecvTx) : Option (MailSys κ) :=
  t.took.map fun m =>
    s.finish t ((t.writes m).foldl Write.apply s.db) ⟨true, false, none, true, some m.message⟩ false
      [.consumed m]

/-- `send_message` is a plain INSERT. The foreign key holds the destination in place for
as long as the insert is open. An attempt waits for one answer at a time; where its
connection is lost it issues the RECV again, on another one. -/
def step (prog : Program κ) (jid : Nat) (s : MailSys κ) : MailEvent → Option (MailSys κ)
  | .sys e =>
    if e.polls then none
    else
      (s.sys.step prog jid e).bind fun sys =>
        if (s.unsent.all fun m => (sys.world.db.jorb.find? m.destJobId).isSome) && s.shared sys then
          some { s with sys }
        else none
  | .insert dest topic message =>
    (s.db.jorb.find? dest).map fun _ =>
      let m : MailRow :=
        { id := s.db.mailbox.next, destJobId := dest, topic, message,
          created := s.sys.world.clock, consumedAt := none }
      { s with sys := s.withMailbox s.db.mailbox.reserve, unsent := s.unsent ++ [m] }
  | .commit i =>
    s.unsent[i]?.bind fun m =>
      (s.db.mailbox.publish m).map fun mailbox =>
        { s with sys := s.withMailbox mailbox, unsent := s.unsent.eraseIdx i }
  | .rollback i =>
    if i < s.unsent.length then some { s with unsent := s.unsent.eraseIdx i } else none
  | .recv session i started =>
    s.sys.attempts[i]?.bind fun a =>
      match a.phase with
      | .running (.recv topic) _ =>
        if (s.recvs.find? session).isSome || s.recvs.rows.any fun t => t.attempt = i && t.heard then
          none
        else
          some { s with
            recvs := s.recvs.put
              { session, attempt := i, exec := a.row, seq := a.seq, topic, started,
                now := s.sys.world.clock, snapshot := s.db, took := none, heard := true } }
      | _ => none
  | .lose session =>
    (s.recvs.find? session).map fun t => { s with recvs := s.recvs.put { t with heard := false } }
  | .take session expired => (s.recvs.find? session).bind fun t => s.take t expired
  | .receive session => (s.recvs.find? session).bind s.receive
  | .abort session => some { s with recvs := s.recvs.delete fun t => t.session = session }

end MailSys

/-- The message is consumed between the two. -/
def Takes (db db' : Db) (m : MailRow) : Prop :=
  m ∈ db.mailbox ∧ m.consumedAt = none ∧
    ∃ m' ∈ db'.mailbox, m'.id = m.id ∧ m'.consumedAt ≠ none

/-- No message that is pending for the topic has a smaller id. -/
def Db.Oldest (db : Db) (jid : Nat) (topic : Option String) (m : MailRow) : Prop :=
  m.destJobId = jid ∧ (topic = none ∨ m.topic = topic) ∧
    ∀ n ∈ db.mailbox, n.destJobId = jid → (topic = none ∨ n.topic = topic) →
      n.consumedAt = none → m.id ≤ n.id

theorem Db.pendingMail_spec {db : Db} {jid : Nat} {topic : Option String} {m : MailRow}
    (h : db.pendingMail jid topic = some m) :
    m ∈ db.mailbox ∧ m.consumedAt = none ∧ db.Oldest jid topic m := by
  have hmem : m ∈ db.mailbox := List.mem_of_find?_eq_some h
  obtain ⟨hfound, before, after, hrows, hbefore⟩ := List.find?_eq_some_iff_append.mp h
  simp only [Bool.and_eq_true, Bool.or_eq_true, decide_eq_true_eq, Option.isNone_iff_eq_none]
    at hfound
  refine ⟨hmem, hfound.2, hfound.1.1, hfound.1.2, fun n hn hdest htopic hpending => ?_⟩
  -- the rows stand in the order of their ids, and none before `m` is pending
  have hsorted := db.mailbox.sorted
  rw [hrows, List.map_append, List.map_cons, List.pairwise_append] at hsorted
  rw [← Serial.mem_rows, hrows, List.mem_append, List.mem_cons] at hn
  rcases hn with hn | rfl | hn
  · refine absurd (hbefore n hn) ?_
    rcases htopic with htopic | htopic <;> simp [hdest, htopic, hpending]
  · exact le_rfl
  · exact Nat.le_of_lt (List.rel_of_pairwise_cons hsorted.2.1 (List.mem_map_of_mem hn))

theorem Db.unlockedMail_mem {db : Db} {jid : Nat} {topic : Option String} {busy : Nat → Bool}
    {m : MailRow} (h : db.unlockedMail jid topic busy = some m) :
    m ∈ db.mailbox ∧ m.destJobId = jid ∧ m.consumedAt = none ∧ busy m.id = false := by
  have hfound := List.find?_some h
  simp only [Bool.and_eq_true, Bool.or_eq_true, decide_eq_true_eq, Option.isNone_iff_eq_none,
    Bool.not_eq_true'] at hfound
  exact ⟨List.mem_of_find?_eq_some h, hfound.1.1.1, hfound.1.2, hfound.2⟩

/-- Where no pending message of the job is out of reach, the oldest one is picked. -/
theorem Db.unlockedMail_eq {db : Db} {jid : Nat} {topic : Option String} {busy : Nat → Bool}
    (h : ∀ m ∈ db.mailbox, m.destJobId = jid → m.consumedAt = none → busy m.id = false) :
    db.unlockedMail jid topic busy = db.pendingMail jid topic := by
  refine List.find?_congr fun m hm => ?_
  by_cases hdest : m.destJobId = jid
  · cases hpending : m.consumedAt with
    | none => simp [h m hm hdest hpending]
    | some at_ => simp
  · simp [hdest]

/-- The message is stamped, and the mailbox is otherwise as it was. -/
def Stamps (db db' : Db) (m : MailRow) : Prop :=
  ∃ stamp : Rewrite MailRow.id, (∀ r, (stamp.set r).consumedAt ≠ none) ∧
    db'.mailbox = db.mailbox.update (fun r => r.id = m.id) stamp

namespace Stamps

variable {db db' : Db} {m : MailRow}

theorem takes (h : Stamps db db' m) (hmem : m ∈ db.mailbox) (hpending : m.consumedAt = none) :
    Takes db db' m := by
  obtain ⟨stamp, hstamp, hmailbox⟩ := h
  refine ⟨hmem, hpending, stamp.set m, hmailbox ▸ Serial.mem_update.mpr ⟨m, hmem, ?_⟩,
    stamp.key_set m, hstamp m⟩
  simp

theorem kept (h : Stamps db db' m) {n : MailRow} (hn : n ∈ db.mailbox) (hne : n.id ≠ m.id) :
    n ∈ db'.mailbox := by
  obtain ⟨stamp, -, hmailbox⟩ := h
  exact hmailbox ▸ Serial.mem_update.mpr ⟨n, hn, by simp [hne]⟩

end Stamps

namespace MailSys

variable {κ : Type} {prog : Program κ} {jid : Nat} {s s' : MailSys κ} {ev : MailEvent}

/-- A step, by what it has found and what it leaves. -/
inductive StepCases (prog : Program κ) (jid : Nat) (s : MailSys κ) :
    MailEvent → MailSys κ → Prop where
  | sys {e : Event} {sys : Sys κ} (step : s.sys.step prog jid e = some sys)
      (polls : e.polls = false)
      (shared : s.shared sys) : StepCases prog jid s (.sys e) { s with sys }
  | insert {dest : Nat} {topic : Option String} {message : Json} (m : MailRow)
      (id : m.id = s.db.mailbox.next) :
      StepCases prog jid s (.insert dest topic message)
        { s with sys := s.withMailbox s.db.mailbox.reserve, unsent := s.unsent ++ [m] }
  | commit {i : Nat} {m : MailRow} {mailbox : Serial MailRow.id} (mem : s.unsent[i]? = some m)
      (publish : s.db.mailbox.publish m = some mailbox) :
      StepCases prog jid s (.commit i)
        { s with sys := s.withMailbox mailbox, unsent := s.unsent.eraseIdx i }
  | rollback {i : Nat} : StepCases prog jid s (.rollback i) { s with unsent := s.unsent.eraseIdx i }
  | recv {session i : Nat} {started : Int} {a : Execution κ} {topic : Option String}
      {next : Option Json → κ} (attempt : s.sys.attempts[i]? = some a)
      (phase : a.phase = .running (.recv topic) next) (free : s.recvs.find? session = none) :
      StepCases prog jid s (.recv session i started)
        { s with
          recvs := s.recvs.put
            { session, attempt := i, exec := a.row, seq := a.seq, topic, started,
              now := s.sys.world.clock, snapshot := s.db, took := none, heard := true } }
  | lose {t : RecvTx} (tx : t ∈ s.recvs) :
      StepCases prog jid s (.lose t.session)
        { s with recvs := s.recvs.put { t with heard := false } }
  | refuse {t : RecvTx} {expired : Bool} (tx : t ∈ s.recvs) :
      StepCases prog jid s (.take t.session expired) (s.finish t s.db (t.idle false) expired [])
  | idle {t : RecvTx} {expired : Bool} (tx : t ∈ s.recvs) (owns : s.sys.world.owns t.exec)
      (pick : t.pick (s.busy t.session) = none) :
      StepCases prog jid s (.take t.session expired) (s.finish t s.db (t.idle true) expired [])
  | take {t : RecvTx} {m : MailRow} {expired : Bool} (tx : t ∈ s.recvs)
      (owns : s.sys.world.owns t.exec) (pick : t.pick (s.busy t.session) = some m) :
      StepCases prog jid s (.take t.session expired)
        { s with recvs := s.recvs.put { t with took := some m } }
  | receive {t : RecvTx} {m : MailRow} (tx : t ∈ s.recvs) (took : t.took = some m) :
      StepCases prog jid s (.receive t.session)
        (s.finish t ((t.writes m).foldl Write.apply s.db) ⟨true, false, none, true, some m.message⟩
          false [.consumed m])
  | abort {session : Nat} :
      StepCases prog jid s (.abort session)
        { s with recvs := s.recvs.delete fun t => t.session = session }

theorem take_cases {t : RecvTx} {expired : Bool} (tx : t ∈ s.recvs)
    (h : s.take t expired = some s') : StepCases prog jid s (.take t.session expired) s' := by
  unfold take at h
  split_ifs at h with htook hsnapshot hwait hstale
  · cases h
    exact .refuse tx
  · cases h
    exact .refuse tx
  · have howns : s.sys.world.owns t.exec := by simpa using hstale
    split at h
    · rename_i hpick
      cases h
      exact .idle tx howns hpick
    · rename_i m hpick
      cases h
      exact .take tx howns hpick

theorem step_cases (h : s.step prog jid ev = some s') : StepCases prog jid s ev s' := by
  cases ev with
  | sys e =>
    simp only [step] at h
    split at h
    · cases h
    · rename_i hpolls
      obtain ⟨sys, hsys, h⟩ := Option.bind_eq_some_iff.mp h
      split at h
      · rename_i hholds
        cases h
        exact .sys hsys (Bool.eq_false_iff.mpr hpolls) (Bool.and_eq_true_iff.mp hholds).2
      · cases h
  | insert dest topic message =>
    obtain ⟨r, -, rfl⟩ := Option.map_eq_some_iff.mp h
    exact .insert _ rfl
  | commit i =>
    obtain ⟨m, hm, h⟩ := Option.bind_eq_some_iff.mp h
    obtain ⟨mailbox, hmailbox, rfl⟩ := Option.map_eq_some_iff.mp h
    exact .commit hm hmailbox
  | rollback i =>
    simp only [step] at h
    split at h <;> cases h
    exact .rollback
  | recv session i started =>
    obtain ⟨a, ha, h⟩ := Option.bind_eq_some_iff.mp h
    split at h
    · rename_i topic next hphase
      split at h
      · cases h
      · rename_i hfree
        cases h
        exact .recv ha hphase (by simpa using (not_or.mp (mt Bool.or_eq_true_iff.mpr hfree)).1)
    · cases h
  | lose session =>
    obtain ⟨t, ht, rfl⟩ := Option.map_eq_some_iff.mp h
    obtain ⟨htx, rfl⟩ := Table.find?_eq_some.mp ht
    exact .lose htx
  | take session expired =>
    obtain ⟨t, ht, htake⟩ := Option.bind_eq_some_iff.mp h
    obtain ⟨htx, rfl⟩ := Table.find?_eq_some.mp ht
    exact take_cases htx htake
  | receive session =>
    obtain ⟨t, ht, hreceive⟩ := Option.bind_eq_some_iff.mp h
    obtain ⟨htx, rfl⟩ := Table.find?_eq_some.mp ht
    obtain ⟨m, hm, rfl⟩ := Option.map_eq_some_iff.mp hreceive
    exact .receive htx hm
  | abort session =>
    cases h
    exact .abort

end MailSys

end Pyjobby
