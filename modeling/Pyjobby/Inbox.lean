import Pyjobby.AnswerRuns
import Pyjobby.MailDelivery

/-! A RECV that the attempt has issued once keeps what it has seen: for as long as its
execution holds the row, the call has the answers and the job the pending messages of the
snapshot. -/

namespace Pyjobby

open Relational Transition Execution

def Phase.polls {κ : Type} : Phase κ → Bool
  | running (.recv _) _ => true
  | _ => false

/-- The attempt waits for the answer of the call, or has left its code. -/
def Execution.Awaits {κ : Type} (topic : Option String) (seq : Nat) (a : Execution κ) : Prop :=
  a.phase.quits ∨ a.seq = seq ∧ ∃ next, a.phase = .running (.recv topic) next

/-- The snapshot still tells what the RECV needs to know. -/
structure RecvTx.Current (jid : Nat) (db : Db) (t : RecvTx) : Prop where
  answered : ∀ n o, db.Answered jid t.seq n o ↔ t.snapshot.Answered jid t.seq n o
  pending : ∀ m ∈ t.snapshot.mailbox, m.destJobId = jid → m.consumedAt = none → m ∈ db.mailbox

structure RecvTx.Tied {κ : Type} (jid : Nat) (s : Sys κ) (t : RecvTx) : Prop where
  attempt : ∃ a, s.attempts[t.attempt]? = some a ∧ a.row = t.exec ∧ a.Awaits t.topic t.seq
  current : s.world.owns t.exec → t.Current jid s.world.db
  took : ∀ m, t.took = some m → s.world.owns t.exec ∧ t.snapshot.priorAnswer jid t.seq = none ∧
    t.snapshot.pendingMail jid t.topic = some m

/-- The attempts get their answers, and each has one RECV under way. -/
structure MailSys.Inbox {κ : Type} (prog : Program κ) (jid : Nat) (s : MailSys κ) : Prop where
  answering : Answering prog jid s.sys
  recvs : ∀ t ∈ s.recvs, t.Tied jid s.sys
  alone : ∀ t ∈ s.recvs, ∀ u ∈ s.recvs, t.attempt = u.attempt → t = u

namespace Execution

variable {κ : Type} {prog : Program κ} {jid : Nat} {a a' : Execution κ} {w w' : World}
  {topic : Option String} {seq : Nat}

theorem hears_row (a : Execution κ) (reply : Db.RecvReply) (expired : Bool) :
    (a.hears reply expired).row = a.row := by
  unfold hears
  repeat' split
  all_goals rfl

theorem hears_locks (a : Execution κ) (reply : Db.RecvReply) (expired : Bool) :
    (a.hears reply expired).locks = a.locks := by
  unfold hears
  split
  · rename_i topic next hphase
    have hlocks : a.locks = false := by simp [locks, hphase]
    repeat' split
    all_goals first | exact hlocks.symm | rfl
  · rfl

theorem hears_of_quits (h : a.phase.quits) (reply : Db.RecvReply) (expired : Bool) :
    a.hears reply expired = a := by
  unfold hears
  split
  · rename_i hphase
    simp [hphase, Phase.quits] at h
  · rfl

theorem Awaits.not_phase {phase : Phase κ} (h : a.Awaits topic seq) (hphase : a.phase = phase)
    (hquits : phase.quits = false) (hpolls : phase.polls = false) : False := by
  subst hphase
  rcases h with h | ⟨-, next, h⟩
  · simp [hquits] at h
  · simp [h, Phase.polls] at hpolls

theorem Awaits.running {p : Prim} {next : Option Json → κ} (h : a.Awaits topic seq)
    (hphase : a.phase = .running p next) : p = .recv topic := by
  rcases h with h | ⟨-, next', h⟩
  · simp [hphase, Phase.quits] at h
  · rw [hphase] at h
    cases h
    rfl

theorem issue_frame {next : Execution κ} {s : WorkerStmt} {ack : Bool}
    (h : a.issue next w s ack = some (w', a')) :
    w'.db.step = w.db.step ∧ (a' = a ∨ a' = next) := by
  obtain ⟨w₁, hw₁, heq⟩ := Option.map_eq_some_iff.mp h
  cases heq
  obtain ⟨wakes, rfl⟩ := World.worker_eq hw₁
  cases ack
  · exact ⟨rfl, .inl rfl⟩
  · exact ⟨rfl, .inr rfl⟩

theorem answered_congr (hstep : w'.db.step = w.db.step) (q : Nat) (n : String)
    (o : Option Json) : w'.db.Answered jid q n o ↔ w.db.Answered jid q n o :=
  ⟨fun h => h.congr (by rw [hstep]), fun h => h.congr (by rw [hstep])⟩

/-- An attempt that has left its code records a failure at most. -/
theorem record_quits {started : Int} {ack : Bool} (h : a.Awaits topic seq)
    (hm : a.record prog w started ack = some (w', a')) :
    a'.phase.quits ∧ ∀ q n o, w'.db.Answered a.row.id q n o ↔ w.db.Answered a.row.id q n o := by
  unfold record at hm
  split at hm
  · rename_i hphase
    exact (h.not_phase hphase rfl rfl).elim
  · rename_i seq name error hphase
    obtain ⟨w₁, hw₁, hm⟩ := Option.map_eq_some_iff.mp hm
    cases hm
    refine ⟨?_, fun q => World.recordStep_error_iff hw₁ q⟩
    simp only [answered]
    split_ifs
    · simp [hphase, Phase.quits]
    · exact a.throw_quits error
    · rfl
  · rename_i hphase
    exact (h.not_phase hphase rfl rfl).elim
  · rename_i hphase
    exact (h.not_phase hphase rfl rfl).elim
  · cases hm

/-- An attempt that waits or has left goes nowhere but out. -/
theorem Awaits.move {m : Move} {entries : List Entry} (h : a.Awaits topic seq)
    (hm : a.move prog w m = some (w', a', entries))
    (hrecv : ∀ started ack expired, m ≠ .recv started ack expired) :
    a'.phase.quits ∧ ∀ q n o, w'.db.Answered a.row.id q n o ↔ w.db.Answered a.row.id q n o := by
  have hissue {s : WorkerStmt} {ack : Bool} (hquits : a.phase.quits)
      (h₁ : a.issue a.leave w s ack = some (w', a')) :
      a'.phase.quits ∧ ∀ q n o, w'.db.Answered a.row.id q n o ↔ w.db.Answered a.row.id q n o := by
    obtain ⟨hstep, rfl | rfl⟩ := issue_frame h₁
    · exact ⟨hquits, answered_congr hstep⟩
    · exact ⟨rfl, answered_congr hstep⟩
  cases move_cases hm with
  | load hphase => exact (h.not_phase hphase rfl rfl).elim
  | start hphase => exact (h.not_phase hphase rfl rfl).elim
  | call hphase => exact (h.not_phase hphase rfl rfl).elim
  | nest hphase => exact (h.not_phase hphase rfl rfl).elim
  | read hphase => exact (h.not_phase hphase rfl rfl).elim
  | finish hphase => exact (h.not_phase hphase rfl rfl).elim
  | unwind hphase => exact (h.not_phase hphase rfl rfl).elim
  | recv => exact absurd rfl (hrecv _ _ _)
  | raise => exact ⟨rfl, fun _ _ _ => Iff.rfl⟩
  | crash => exact ⟨rfl, fun _ _ _ => Iff.rfl⟩
  | record h₁ => exact record_quits h h₁
  | reschedule hphase h₁ => exact hissue (by simp [hphase, Phase.quits]) h₁
  | settle hphase _ h₁ => exact hissue (by simp [hphase, Phase.quits]) h₁
  | @invoke p next result a' hphase h₁ =>
    obtain rfl := h.running hphase
    simp [invoke] at h₁
  | @execute p next error a' hphase h₁ =>
    obtain rfl := h.running hphase
    simp [execute, Prim.statement] at h₁
  | @rollback p error hphase hatomic =>
    rcases hphase with ⟨next, hphase⟩ | ⟨next, result, hphase⟩ | ⟨next, result, hphase⟩
    · obtain rfl := h.running hphase
      cases hatomic
    · exact (h.not_phase hphase rfl rfl).elim
    · exact (h.not_phase hphase rfl rfl).elim
  | commit h₁ =>
    unfold commit at h₁
    split at h₁
    · rename_i hphase
      exact (h.not_phase hphase rfl rfl).elim
    · cases h₁
  | publish h₁ =>
    unfold publish at h₁
    split at h₁
    · rename_i hphase
      exact (h.not_phase hphase rfl rfl).elim
    · cases h₁
  | compactFence h₁ =>
    unfold compactFence at h₁
    split at h₁
    · rename_i hphase
      exact (h.not_phase hphase rfl rfl).elim
    · cases h₁
  | compact h₁ =>
    unfold compact at h₁
    split at h₁
    · rename_i hphase
      exact (h.not_phase hphase rfl rfl).elim
    · cases h₁

end Execution

/-- An attempt that discards the log has the row locked. -/
theorem Answering.owns_of_compact {κ : Type} {prog : Program κ} {jid : Nat} {s : Sys κ}
    (h : Answering prog jid s) {a a' : Execution κ} {w' : World} {lost : Option String}
    {entries : List Entry} (ha : a ∈ s.attempts)
    (hm : a.compact s.world lost = some (w', a', entries)) :
    s.world.owns a.row ∧ ∀ topic seq, ¬a.Awaits topic seq := by
  unfold compact at hm
  split at hm
  · rename_i hphase
    exact ⟨h.sound.held a ha (by simp [locks, hphase]), fun topic seq hawaits =>
      hawaits.not_phase hphase rfl rfl⟩
  · cases hm

namespace RecvTx

variable {κ : Type} {prog : Program κ} {jid : Nat} {s s' : Sys κ} {t : RecvTx}

theorem Current.congr {db db' : Db} (h : t.Current jid db)
    (hans : ∀ n o, db'.Answered jid t.seq n o ↔ db.Answered jid t.seq n o)
    (hmail : ∀ m ∈ db.mailbox, m.destJobId = jid → m ∈ db'.mailbox) : t.Current jid db' :=
  ⟨fun n o => (hans n o).trans (h.answered n o),
    fun m hm hdest hpending => hmail m (h.pending m hm hdest hpending) hdest⟩

theorem Tied.exec_id (ht : t.Tied jid s) (hs : Sound jid s) : t.exec.id = jid := by
  obtain ⟨a, ha, hrow, -⟩ := ht.attempt
  exact hrow ▸ (hs.row_mem (List.mem_of_getElem? ha)).2

/-- Two RECVs whose executions hold the row are of one attempt. -/
theorem Tied.attempt_eq {u : RecvTx} (ht : t.Tied jid s) (hu : u.Tied jid s) (hs : Sound jid s)
    (howns : s.world.owns t.exec) (hother : s.world.owns u.exec) : t.attempt = u.attempt := by
  obtain ⟨a, ha, hrow, -⟩ := ht.attempt
  obtain ⟨b, hb, hrow', -⟩ := hu.attempt
  exact hs.owner_unique ha hb (hrow.symm ▸ howns) (hrow'.symm ▸ hother)

theorem Tied.env {a : Act} (ht : t.Tied jid s) (hs : Answering prog jid s)
    (h : s.step prog jid (.env a) = some s') (hheld : t.took.isSome → s'.world.owns t.exec) :
    t.Tied jid s' := by
  obtain ⟨b, hb, hrow, hawaits⟩ := ht.attempt
  have hmails := Sys.step_mails h rfl
  obtain ⟨w', hforeign, hw', -, rfl⟩ := Sys.step_env h
  have haside := World.step_aside hforeign hw'
  have hmem := List.mem_of_getElem? hb
  refine ⟨⟨b, ?_, hrow, hawaits⟩, fun howns => ?_, fun m hm => ⟨hheld (by simp [hm]), ?_⟩⟩
  · rw [List.getElem?_append_left (List.getElem?_eq_some_iff.mp hb).1]
    exact hb
  · have howns' : s.world.owns t.exec :=
      hrow ▸ World.owns_of_step hs.sound.locks (hs.sound.owned hmem) (World.step_effect hw')
        (hrow ▸ howns)
    refine (ht.current howns').congr (fun n o => ?_) fun m hm hdest => hmails.kept hm hdest
    exact ⟨fun hans => hans.congr (haside.step _).symm, fun hans => hans.congr (haside.step _)⟩
  · exact (ht.took m hm).2

theorem Tied.move {j : Nat} {m : Move} (ht : t.Tied jid s) (hs : Answering prog jid s)
    (h : s.step prog jid (.attempt j m) = some s')
    (hrecv : ∀ started ack expired, m ≠ .recv started ack expired)
    (hheld : t.took.isSome → s'.world.owns t.exec) : t.Tied jid s' := by
  obtain ⟨b, hb, hrow, hawaits⟩ := ht.attempt
  obtain ⟨a, w', a', entries, ha, hm, rfl⟩ := Sys.step_attempt h
  have hmails : Mails jid s.world.db w'.db := Execution.move_mails hm hrecv
  have hmem := List.mem_of_getElem? ha
  have hgained := hs.owns_of_move hmem hm b (List.mem_of_getElem? hb)
  rw [hrow] at hgained
  refine ⟨?_, fun howns => ?_, fun n hn => ⟨hheld (by simp [hn]), (ht.took n hn).2⟩⟩
  · by_cases hj : j = t.attempt
    · subst hj
      obtain rfl : a = b := Option.some.inj (ha.symm.trans hb)
      refine ⟨a', List.getElem?_set_self (List.getElem?_eq_some_iff.mp ha).1, ?_,
        .inl (hawaits.move hm hrecv).1⟩
      exact (Execution.move_moves hm).row.trans hrow
    · exact ⟨b, (List.getElem?_set_ne hj).trans hb, hrow, hawaits⟩
  · have howns' := hgained howns
    refine (ht.current howns').congr (fun n o => ?_) fun m hm hdest => hmails.kept hm hdest
    by_cases hj : j = t.attempt
    · subst hj
      obtain rfl : a = b := Option.some.inj (ha.symm.trans hb)
      exact (hs.sound.row_mem hmem).2 ▸ (hawaits.move hm hrecv).2 t.seq n o
    · have hstale : ¬s.world.owns a.row := fun haowns =>
        hj (hs.sound.owner_unique ha hb haowns (hrow.symm ▸ howns'))
      have hstable : Stable prog jid s.world a w' a' := by
        refine .move (hs.sound.row_mem hmem).2 hm (fun lost heq => ?_) (hs.nested a hmem)
        subst heq
        exact hstale (hs.owns_of_compact hmem hm).1
      have hsame := hstable.others.resolve_left hstale t.seq
      exact ⟨fun hans => hans.congr hsame.symm, fun hans => hans.congr hsame⟩

end RecvTx

namespace Sound

variable {κ : Type} {jid : Nat} {s : Sys κ}

/-- A write to the durable tables leaves the attempts as they are. -/
theorem data (hs : Sound jid s) (db : Db) (hjorb : db.jorb = s.world.db.jorb)
    (hworker : db.worker = s.world.db.worker) (log : List Entry) :
    Sound jid { world := { s.world with db }, attempts := s.attempts, log } := by
  have heff : Effect s.world default { s.world with db } :=
    .quiet db s.world.clock s.world.queue hjorb le_rfl (.none hworker)
  exact
    { locks := hs.locks.step heff
      fenced := hs.fenced.step hs.locks heff
      rows := hs.rows
      held := fun a ha hlocks => (World.owns_congr hjorb _).trans (hs.held a ha hlocks)
      counted := fun hne r hr => hs.counted hne r (hjorb ▸ hr) }

theorem set (hs : Sound jid s) {i : Nat} {a a' : Execution κ} (ha : s.attempts[i]? = some a)
    (hrow : a'.row = a.row) (hlocks : a'.locks = a.locks) :
    Sound jid { s with attempts := s.attempts.set i a' } where
  locks := hs.locks
  fenced := hs.fenced
  rows := by
    obtain ⟨hi, rfl⟩ := List.getElem?_eq_some_iff.mp ha
    rw [List.map_set, hrow, ← hs.rows, ← List.map_set, List.set_getElem_self]
  held b hb hb' := by
    rcases Lists.mem_set_cases hb with rfl | ⟨j, hj, -⟩
    · exact hrow ▸ hs.held a (List.mem_of_getElem? ha) (hlocks ▸ hb')
    · exact hs.held b (List.mem_of_getElem? hj) hb'
  counted _ := hs.counted (List.ne_nil_of_mem (List.mem_of_getElem? ha))

end Sound

theorem RecvTx.writes_spec (t : RecvTx) (m : MailRow) (db : Db) :
    (∀ q, q ≠ t.seq → ((t.writes m).foldl Write.apply db).step.find? (t.exec.id, q) =
        db.step.find? (t.exec.id, q)) ∧
      ∃ row, ((t.writes m).foldl Write.apply db).priorAnswer t.exec.id t.seq = some row ∧
        row.output = some m.message := by
  refine ⟨fun q hq => Table.find?_upsert_of_ne fun h => hq (congrArg Prod.snd h), _,
    Db.priorAnswer_eq_some.mpr ⟨Table.find?_upsert_self db.step _ _, ?_⟩, ?_⟩
  · cases hs : db.step.find? (t.exec.id, t.seq) <;> simp [StepRow.key, hs, StepRow.answer]
  · cases hs : db.step.find? (t.exec.id, t.seq) <;> simp [StepRow.key, hs, StepRow.answer]

/-- An attempt hears an answer only where it still waits. -/
theorem Execution.Awaits.heard {κ : Type} {prog : Program κ} {jid : Nat} {a : Execution κ}
    {w w' : World} {topic : Option String} {seq : Nat} {reply : Db.RecvReply} {expired : Bool}
    (h : a.Awaits topic seq) (heard : Bool) (hstay : Stable prog jid w a w' a)
    (hrun : ∀ next, a.seq = seq → a.phase = .running (.recv topic) next →
      Stable prog jid w a w' (a.hears reply expired)) :
    Stable prog jid w a w' (if heard then a.hears reply expired else a) := by
  split
  · rcases h with hquits | ⟨hseq, next, hphase⟩
    · rwa [hears_of_quits hquits]
    · exact hrun next hseq hphase
  · exact hstay

namespace MailSys

variable {κ : Type} {prog : Program κ} {jid : Nat} {s s' : MailSys κ} {t : RecvTx} {db : Db}
  {reply : Db.RecvReply} {expired : Bool} {entries : List Entry}

theorem finish_sys {a : Execution κ} (ha : s.sys.attempts[t.attempt]? = some a) :
    (s.finish t db reply expired entries).sys =
      ⟨{ s.sys.world with db },
        s.sys.attempts.set t.attempt (if t.heard then a.hears reply expired else a),
        s.sys.log ++ entries⟩ := by
  have hset : (s.sys.attempts.modify t.attempt fun a =>
      if t.heard then a.hears reply expired else a) =
        s.sys.attempts.set t.attempt (if t.heard then a.hears reply expired else a) := by
    refine List.ext_getElem? fun j => ?_
    obtain ⟨hlt, -⟩ := List.getElem?_eq_some_iff.mp ha
    by_cases hj : t.attempt = j
    · subst hj
      rw [List.getElem?_modify_eq, ha, List.getElem?_set_self hlt]
      rfl
    · rw [List.getElem?_modify_ne _ _ hj, List.getElem?_set_ne hj]
  simp only [finish, hset]

namespace Inbox

theorem finish_stable (h : Inbox prog jid s) {a : Execution κ}
    (ha : s.sys.attempts[t.attempt]? = some a) (hjorb : db.jorb = s.db.jorb)
    (hworker : db.worker = s.db.worker)
    (hstable : Stable prog jid s.sys.world a { s.sys.world with db }
      (if t.heard then a.hears reply expired else a)) :
    Answering prog jid (s.finish t db reply expired entries).sys := by
  rw [finish_sys ha]
  refine h.answering.stable ha ?_ (Sound.set (h.answering.sound.data db hjorb hworker _) ha ?_ ?_)
    (fun b _ hb => ?_) hstable
  · split
    · exact hears_row ..
    · rfl
  · split
    · exact hears_row ..
    · rfl
  · split
    · exact hears_locks ..
    · rfl
  · rwa [World.owns_congr hjorb] at hb

/-- Whoever ends a RECV leaves the other ones as they are. -/
theorem finish_tied (h : Inbox prog jid s) (ht : t ∈ s.recvs) (hjorb : db.jorb = s.db.jorb)
    (hcurrent : ∀ u ∈ s.recvs, u.attempt ≠ t.attempt → s.sys.world.owns u.exec →
      u.Current jid s.db → u.Current jid db) :
    ∀ u ∈ (s.finish t db reply expired entries).recvs,
      u.Tied jid (s.finish t db reply expired entries).sys := by
  intro u hu
  obtain ⟨hmem, hsession⟩ := Table.mem_delete.mp hu
  have hne : u.attempt ≠ t.attempt := fun heq => by
    simp [h.alone u hmem t ht heq] at hsession
  obtain ⟨a, ha, -⟩ := (h.recvs t ht).attempt
  have hu := h.recvs u hmem
  rw [finish_sys ha]
  have howns : World.owns { s.sys.world with db } u.exec = s.sys.world.owns u.exec :=
    World.owns_congr hjorb _
  refine ⟨?_, fun howns' => ?_, fun m hm => ⟨howns ▸ (hu.took m hm).1, (hu.took m hm).2⟩⟩
  · obtain ⟨b, hb, hrest⟩ := hu.attempt
    exact ⟨b, (List.getElem?_set_ne hne.symm).trans hb, hrest⟩
  · exact hcurrent u hmem hne (howns ▸ howns') (hu.current (howns ▸ howns'))

theorem refused (h : Inbox prog jid s) (ht : t ∈ s.recvs) :
    ∃ a, s.sys.attempts[t.attempt]? = some a ∧
      Stable prog jid s.sys.world a s.sys.world
        (if t.heard then a.hears (t.idle false) expired else a) := by
  obtain ⟨a, ha, -, hawaits⟩ := (h.recvs t ht).attempt
  have hnested := h.answering.nested a (List.mem_of_getElem? ha)
  refine ⟨a, ha, hawaits.heard t.heard (.stays rfl hnested) fun next _ hphase => ?_⟩
  have hears : a.hears (t.idle false) expired = a.leave := by
    simp [Execution.hears, hphase, RecvTx.idle]
  exact hears ▸ .quits rfl rfl rfl

/-- The answer of the guard is the recorded one. -/
theorem idled (h : Inbox prog jid s) (ht : t ∈ s.recvs) (howns : s.sys.world.owns t.exec) :
    ∃ a, s.sys.attempts[t.attempt]? = some a ∧
      Stable prog jid s.sys.world a s.sys.world
        (if t.heard then a.hears (t.idle true) expired else a) := by
  obtain ⟨a, ha, -, hawaits⟩ := (h.recvs t ht).attempt
  have hnested := h.answering.nested a (List.mem_of_getElem? ha)
  have hid := (h.recvs t ht).exec_id h.answering.sound
  have hcurrent := (h.recvs t ht).current howns
  refine ⟨a, ha, hawaits.heard t.heard (.stays rfl hnested) fun next hseq hphase => ?_⟩
  cases hprior : t.snapshot.priorAnswer jid t.seq with
  | some row =>
    have hears : a.hears (t.idle true) expired = a.answer (.recv t.topic) next row.output := by
      simp [Execution.hears, hphase, RecvTx.idle, hid, hprior]
    refine hears ▸ .replied hphase hnested rfl fun n o hans => ?_
    have hanswer := ((hcurrent.answered n o).mp (hseq ▸ hans)).prior.2
    simpa [hprior] using hanswer
  | none =>
    have hopen (n : String) (o : Option Json) : ¬s.db.Answered jid a.seq n o := fun hans =>
      Db.priorAnswer_eq_none.mp hprior n o ((hcurrent.answered n o).mp (hseq ▸ hans))
    cases expired with
    | true =>
      have hears : a.hears (t.idle true) true =
          { a with phase := .checkpoint (.recv t.topic) next none } := by
        simp [Execution.hears, hphase, RecvTx.idle, hid, hprior]
      exact hears ▸ .expires hphase hnested rfl hopen
    | false =>
      have hears : a.hears (t.idle true) false = a := by
        simp [Execution.hears, hphase, RecvTx.idle, hid, hprior]
      exact hears.symm ▸ .stays rfl hnested

/-- The state of the call and of its message when a RECV that has taken it commits. -/
theorem took (h : Inbox prog jid s) (ht : t ∈ s.recvs) {m : MailRow} (hm : t.took = some m) :
    s.sys.world.owns t.exec ∧ s.db.priorAnswer jid t.seq = none ∧ m ∈ s.db.mailbox ∧
      m.consumedAt = none ∧ t.snapshot.Oldest jid t.topic m := by
  obtain ⟨howns, hprior, hpick⟩ := (h.recvs t ht).took m hm
  have hcurrent := (h.recvs t ht).current howns
  obtain ⟨hmem, hpending, holdest⟩ := Db.pendingMail_spec hpick
  refine ⟨howns, Db.priorAnswer_eq_none.mpr fun n o hans => ?_,
    hcurrent.pending m hmem holdest.1 hpending, hpending, holdest⟩
  exact Db.priorAnswer_eq_none.mp hprior n o ((hcurrent.answered n o).mp hans)

theorem received (h : Inbox prog jid s) (ht : t ∈ s.recvs) {m : MailRow} (hm : t.took = some m) :
    ∃ a, s.sys.attempts[t.attempt]? = some a ∧
      Stable prog jid s.sys.world a
        { s.sys.world with db := (t.writes m).foldl Write.apply s.db }
        (if t.heard then a.hears ⟨true, false, none, true, some m.message⟩ false else a) := by
  obtain ⟨a, ha, hrow, hawaits⟩ := (h.recvs t ht).attempt
  have hnested := h.answering.nested a (List.mem_of_getElem? ha)
  have hid := (h.recvs t ht).exec_id h.answering.sound
  obtain ⟨howns, hprior, -⟩ := h.took ht hm
  have hopen := Db.priorAnswer_eq_none.mp hprior
  have hkeep := hid ▸ (t.writes_spec m s.db).1
  rw [← hrow] at howns
  refine ⟨a, ha, hawaits.heard t.heard ?_ fun next hseq hphase => ?_⟩
  · rcases hawaits with hquits | ⟨hseq, next, hphase⟩
    · exact .left hquits howns hopen hkeep
    · exact .received none hphase hnested howns (hseq ▸ hopen) (hseq ▸ hkeep) (.inl rfl)
  · have hears : a.hears ⟨true, false, none, true, some m.message⟩ false =
        a.answer (.recv t.topic) next (some m.message) := by
      simp [Execution.hears, hphase]
    exact .received _ hphase hnested howns (hseq ▸ hopen) (hseq ▸ hkeep) (.inr hears)

/-- Nothing that the snapshot shows is out of the reach of the only RECV under way. -/
theorem pick (h : Inbox prog jid s) (ht : t ∈ s.recvs) (howns : s.sys.world.owns t.exec)
    {m : MailRow} (hm : t.pick (s.busy t.session) = some m) :
    t.snapshot.priorAnswer jid t.seq = none ∧ t.snapshot.pendingMail jid t.topic = some m := by
  have hid := (h.recvs t ht).exec_id h.answering.sound
  have hfree : ∀ n ∈ t.snapshot.mailbox, n.destJobId = jid → n.consumedAt = none →
      s.busy t.session n.id = false := by
    intro n hn hdest hpending
    have hmem := ((h.recvs t ht).current howns).pending n hn hdest hpending
    refine Bool.or_eq_false_iff.mpr ⟨Bool.eq_false_iff.mpr fun hother => ?_, ?_⟩
    · obtain ⟨u, hu, htook⟩ := List.any_eq_true.mp hother
      obtain ⟨hsession, htook⟩ := Bool.and_eq_true_iff.mp htook
      obtain ⟨k, hk⟩ := Option.isSome_iff_exists.mp (Option.isSome_of_any htook)
      have hsame := (h.recvs u hu).attempt_eq (h.recvs t ht) h.answering.sound
        ((h.recvs u hu).took k hk).1 howns
      simp [h.alone u hu t ht hsame] at hsession
    · simp only [Bool.not_eq_false', List.any_eq_true]
      exact ⟨n, hmem, by simp [hpending]⟩
  simp only [RecvTx.pick, hid] at hm
  split at hm
  · cases hm
  · rename_i hprior
    exact ⟨by simpa using hprior, (Db.unlockedMail_eq hfree) ▸ hm⟩

theorem finish (h : Inbox prog jid s) (ht : t ∈ s.recvs) (hjorb : db.jorb = s.db.jorb)
    (hworker : db.worker = s.db.worker)
    (hcurrent : ∀ u ∈ s.recvs, u.attempt ≠ t.attempt → s.sys.world.owns u.exec →
      u.Current jid s.db → u.Current jid db)
    (hstable : ∃ a, s.sys.attempts[t.attempt]? = some a ∧
      Stable prog jid s.sys.world a { s.sys.world with db }
        (if t.heard then a.hears reply expired else a)) :
    Inbox prog jid (s.finish t db reply expired entries) := by
  obtain ⟨a, ha, hstable⟩ := hstable
  refine ⟨h.finish_stable ha hjorb hworker hstable, h.finish_tied ht hjorb hcurrent, ?_⟩
  exact fun u hu v hv => h.alone u (Table.mem_delete.mp hu).1 v (Table.mem_delete.mp hv).1

/-- A RECV that has come or has changed; the others are of other attempts. -/
theorem put (h : Inbox prog jid s) (ht : t.Tied jid s.sys)
    (hne : ∀ u ∈ s.recvs, u.session ≠ t.session → u.attempt ≠ t.attempt) :
    Inbox prog jid { s with recvs := s.recvs.put t } where
  answering := h.answering
  recvs u hu := by
    rcases Table.mem_put.mp hu with rfl | ⟨hu, -⟩
    · exact ht
    · exact h.recvs u hu
  alone u hu v hv hsame := by
    rcases Table.mem_put.mp hu with rfl | ⟨hold, hu'⟩ <;>
      rcases Table.mem_put.mp hv with rfl | ⟨hold', hv'⟩
    · rfl
    · exact absurd hsame.symm (hne v hold' hv')
    · exact absurd hsame (hne u hold hu')
    · exact h.alone u hold v hold' hsame

theorem others (h : Inbox prog jid s) (ht : t ∈ s.recvs) :
    ∀ u ∈ s.recvs, u.session ≠ t.session → u.attempt ≠ t.attempt := fun u hu hne heq =>
  hne (congrArg RecvTx.session (h.alone u hu t ht heq))

theorem withMailbox (h : Inbox prog jid s) {mailbox : Serial MailRow.id} {unsent : List MailRow}
    (hkept : ∀ m ∈ s.db.mailbox, m ∈ mailbox) :
    Inbox prog jid { s with sys := s.withMailbox mailbox, unsent } where
  answering :=
    { sound := h.answering.sound.data { s.db with mailbox } rfl rfl _
      nested := h.answering.nested
      unwritten := h.answering.unwritten
      bears := h.answering.bears }
  recvs u hu := by
    have hu := h.recvs u hu
    exact ⟨hu.attempt, fun howns => (hu.current howns).congr (fun _ _ => Iff.rfl)
      fun m hm _ => hkept m hm, hu.took⟩
  alone := h.alone

end Inbox

/-- `commit_position` discards the log between two steps, not inside one. -/
def Tidy (s : MailSys κ) : MailEvent → Prop
  | .sys e => s.sys.Tidy e
  | _ => True

/-- The attempt has no RECV under way yet when it issues one. -/
def Unraced (s : MailSys κ) : MailEvent → Prop
  | .recv _ i _ => ∀ t ∈ s.recvs.rows, t.attempt ≠ i
  | _ => True

instance (s : MailSys κ) : (ev : MailEvent) → Decidable (s.Unraced ev)
  | .recv _ i _ => inferInstanceAs (Decidable (∀ t ∈ s.recvs.rows, t.attempt ≠ i))
  | .sys _ | .insert _ _ _ | .commit _ | .rollback _ | .lose _ | .take _ _ | .receive _
  | .abort _ => isTrue trivial

theorem shared_owns {sys : Sys κ} (h : s.shared sys) (ht : t ∈ s.recvs) (htook : t.took.isSome) :
    sys.world.owns t.exec := by
  have := List.all_eq_true.mp h t ht
  cases hm : t.took with
  | none => simp [hm] at htook
  | some m =>
    simp only [hm, Option.isNone_some, Bool.false_or, Bool.and_eq_true] at this
    exact this.1

theorem Inbox.step {ev : MailEvent} (h : Inbox prog jid s) (htidy : s.Tidy ev)
    (hunraced : s.Unraced ev) (hstep : s.step prog jid ev = some s') : Inbox prog jid s' := by
  cases step_cases hstep with
  | @sys e sys hsys hpolls hshared =>
    refine ⟨h.answering.step htidy hsys, fun t ht => ?_, h.alone⟩
    have hheld := shared_owns hshared ht
    cases e with
    | env a => exact (h.recvs t ht).env h.answering hsys hheld
    | attempt i m =>
      refine (h.recvs t ht).move h.answering hsys (fun started ack expired heq => ?_) hheld
      subst heq
      cases hpolls
  | insert m => exact h.withMailbox fun n hn => hn
  | commit mem publish =>
    exact h.withMailbox fun n hn => ((Serial.publish_eq_some publish).1 n).mpr (.inr hn)
  | rollback => exact ⟨h.answering, h.recvs, h.alone⟩
  | @recv session i started a topic next ha hphase hfree =>
    refine h.put ⟨⟨a, ha, rfl, .inr ⟨rfl, next, hphase⟩⟩, fun _ => ?_, nofun⟩
      fun u hu _ => hunraced u hu
    exact ⟨fun _ _ => Iff.rfl, fun m hm _ _ => hm⟩
  | @lose t ht =>
    have htied := h.recvs t ht
    refine h.put ⟨htied.attempt, fun howns => ?_, htied.took⟩ fun u hu => h.others ht u hu
    exact ⟨(htied.current howns).answered, (htied.current howns).pending⟩
  | refuse ht => exact h.finish ht rfl rfl (fun _ _ _ _ hu => hu) (h.refused ht)
  | idle ht howns => exact h.finish ht rfl rfl (fun _ _ _ _ hu => hu) (h.idled ht howns)
  | @take t m expired ht howns hpick =>
    have htied := h.recvs t ht
    refine h.put ⟨htied.attempt, fun howns => ?_, fun n hn => ?_⟩ fun u hu => h.others ht u hu
    · exact ⟨(htied.current howns).answered, (htied.current howns).pending⟩
    · cases hn
      exact ⟨howns, h.pick ht howns hpick⟩
  | @receive t m ht hm =>
    refine h.finish ht rfl rfl (fun u hu hne howns _ => ?_) (h.received ht hm)
    exact absurd ((h.recvs u hu).attempt_eq (h.recvs t ht) h.answering.sound howns (h.took ht hm).1)
      hne
  | abort =>
    refine ⟨h.answering, fun t ht => h.recvs t (Table.mem_delete.mp ht).1, ?_⟩
    exact fun t ht u hu => h.alone t (Table.mem_delete.mp ht).1 u (Table.mem_delete.mp hu).1

end MailSys

end Pyjobby
