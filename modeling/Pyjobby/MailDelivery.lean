import Pyjobby.Mailbox

/-! A message is stamped as consumed by the commit that checkpoints it, by no other, and
once. -/

namespace Pyjobby

open Relational Transition

/-- What everybody but the RECVs of the job does to the mailbox. -/
inductive Mails (jid : Nat) (db : Db) : Db → Prop where
  | same {db' : Db} (mailbox : db'.mailbox = db.mailbox) : Mails jid db db'
  | sent {db' : Db} (mk : Nat → MailRow) (h : ∀ n, (mk n).id = n)
      (mailbox : db'.mailbox = db.mailbox.insert mk h) : Mails jid db db'
  | stamped {db' : Db} (m : MailRow) (mem : m ∈ db.mailbox) (dest : m.destJobId ≠ jid)
      (stamps : Stamps db db' m) : Mails jid db db'
  | deleted {db' : Db} (p : MailRow → Bool) (others : ∀ m, m.destJobId = jid → p m = false)
      (mailbox : db'.mailbox = db.mailbox.delete p) : Mails jid db db'

/-- No message appears but under a new id, and a consumed one stays consumed. -/
def Continues (db db' : Db) : Prop :=
  db.mailbox.next ≤ db'.mailbox.next ∧
    ∀ m' ∈ db'.mailbox, m'.id = db.mailbox.next ∨
      ∃ m ∈ db.mailbox, m.id = m'.id ∧ (m.consumedAt ≠ none → m'.consumedAt ≠ none)

theorem Continues.of_eq {db db' : Db} (h : db'.mailbox = db.mailbox) : Continues db db' :=
  ⟨by rw [h], fun m' hm' => .inr ⟨m', h ▸ hm', rfl, id⟩⟩

theorem Stamps.continues {db db' : Db} {m : MailRow} (h : Stamps db db' m) : Continues db db' := by
  obtain ⟨stamp, hstamp, hmailbox⟩ := h
  refine ⟨by simp [hmailbox], fun m' hm' => ?_⟩
  rw [hmailbox] at hm'
  obtain ⟨r, hr, rfl⟩ := Serial.mem_update.mp hm'
  by_cases hrm : r.id = m.id
  · simp only [hrm, decide_true, if_true]
    exact .inr ⟨r, hr, (stamp.key_set r).symm, fun _ => hstamp r⟩
  · simp only [hrm, decide_false]
    exact .inr ⟨r, hr, rfl, id⟩

namespace Mails

variable {jid : Nat} {db db₁ db' : Db}

/-- The messages to the job stay where they are, as they are. -/
theorem kept (h : Mails jid db db') {m : MailRow} (hm : m ∈ db.mailbox)
    (hdest : m.destJobId = jid) : m ∈ db'.mailbox := by
  cases h with
  | same mailbox => exact mailbox ▸ hm
  | sent mk hmk mailbox => exact mailbox ▸ Serial.mem_insert.mpr (.inl hm)
  | stamped n mem dest stamps =>
    exact stamps.kept hm fun hid => dest (Serial.eq_of_ident hm mem hid ▸ hdest)
  | deleted p others mailbox => exact mailbox ▸ Serial.mem_delete.mpr ⟨hm, others m hdest⟩

theorem continues (h : Mails jid db db') : Continues db db' := by
  cases h with
  | same mailbox => exact .of_eq mailbox
  | sent mk hmk mailbox =>
    refine ⟨by simp [mailbox], fun m' hm' => ?_⟩
    rcases Serial.mem_insert.mp (mailbox ▸ hm') with hm' | rfl
    · exact .inr ⟨m', hm', rfl, id⟩
    · exact .inl (hmk _)
  | stamped m mem dest stamps => exact stamps.continues
  | deleted p others mailbox =>
    refine ⟨by simp [mailbox], fun m' hm' => .inr ⟨m', ?_, rfl, id⟩⟩
    exact (Serial.mem_delete.mp (mailbox ▸ hm')).1

theorem trans_same (h : Mails jid db db₁) (hsame : db'.mailbox = db₁.mailbox) :
    Mails jid db db' := by
  cases h with
  | same mailbox => exact .same (hsame.trans mailbox)
  | sent mk hmk mailbox => exact .sent mk hmk (hsame.trans mailbox)
  | stamped m mem dest stamps =>
    obtain ⟨stamp, hstamp, hmailbox⟩ := stamps
    exact .stamped m mem dest ⟨stamp, hstamp, hsame.trans hmailbox⟩
  | deleted p others mailbox => exact .deleted p others (hsame.trans mailbox)

end Mails

theorem Db.priorAnswer_eq_some {db : Db} {jid seq : Nat} {row : StepRow} :
    db.priorAnswer jid seq = some row ↔ db.step.find? (jid, seq) = some row ∧ row.error = none := by
  simp [priorAnswer, Option.filter_eq_some_iff]

theorem DurableStmt.run_mails {jid : Nat} (now : Int) (j epoch : Nat) (db : Db) (s : DurableStmt)
    (hs : j ≠ jid ∨ ∀ seq topic name started, s ≠ .recv seq topic name started) :
    Mails jid db (s.run now j epoch db) := by
  cases s with
  | recordStep =>
    simp only [DurableStmt.run, Db.recordStep]
    split <;> exact .same rfl
  | setEvent =>
    simp only [DurableStmt.run, Db.setEvent]
    split <;> exact .same rfl
  | streamAppend =>
    simp only [DurableStmt.run, Db.streamAppend]
    repeat' split
    all_goals exact .same rfl
  | send dest topic message =>
    simp only [DurableStmt.run, Db.send]
    split
    · let mk (i : Nat) : MailRow :=
        { id := i, destJobId := dest, topic, message, created := now, consumedAt := none }
      exact .sent mk (fun _ => rfl) rfl
    · exact .same rfl
  | recv seq topic name started =>
    have hne : j ≠ jid := hs.resolve_right fun h => h seq topic name started rfl
    simp only [DurableStmt.run, Db.recv]
    repeat' split
    · exact .same rfl
    · rename_i m hm
      have hm' : db.unlockedMail j topic (fun _ => false) = some m := by
        rw [Db.unlockedMail_free, hm]
      obtain ⟨hmem, hdest, -, -⟩ := Db.unlockedMail_mem hm'
      exact .stamped m hmem (hdest.symm ▸ hne)
        ⟨⟨fun r => { r with consumedAt := some now }, fun _ => rfl⟩,
        fun _ => Option.some_ne_none _, rfl⟩
    · exact .same rfl

namespace World

variable {jid : Nat} {w w' : World}

theorem durable_mails {e : Jorb} {s : DurableStmt} (h : w.durable e s = some w')
    (hs : e.id ≠ jid ∨ ∀ seq topic name started, s ≠ .recv seq topic name started) :
    Mails jid w.db w'.db := by
  obtain ⟨-, rfl⟩ := durable_eq_some.mp h
  exact s.run_mails _ _ _ _ hs

theorem step_mails {a : Act} (hf : w.foreign jid a) (h : w.step a = some w') :
    Mails jid w.db w'.db := by
  cases step_tables h with
  | kept step stream mailbox => exact .same mailbox
  | @durable i e stmt act exec eq =>
    subst act
    have hne : e.id ≠ jid := by simpa [foreign, exec] using hf
    exact eq ▸ stmt.run_mails _ _ _ _ (.inl hne)
  | delete batch act eq =>
    subst act
    have hne : jid ∉ batch := by simpa [foreign] using hf
    exact .deleted (fun m => m.destJobId ∈ batch) (fun m hm => by simp [hm, hne]) (by rw [eq]; rfl)
  | wipe act step stream mailbox => exact .same mailbox
  | compact act tx step stream mailbox => exact .same mailbox

theorem worker_mails {e : Jorb} {s : WorkerStmt} (h : w.worker e s = some w') :
    Mails jid w.db w'.db := by
  obtain ⟨wakes, rfl⟩ := worker_eq h
  exact .same rfl

theorem recordStep_mailbox {e : Jorb} {seq : Nat} {name : String} {output : Option Json}
    {error : Option String} {started : Int}
    (h : w.durable e (.recordStep seq name output error started) = some w') :
    w'.db.mailbox = w.db.mailbox := by
  obtain ⟨-, rfl⟩ := durable_eq_some.mp h
  simp only [DurableStmt.run, Db.recordStep]
  split <;> rfl

theorem statement_mails {e : Jorb} {p : Prim}
    (h : p.statement.elim (some w) (w.durable e) = some w') : Mails jid w.db w'.db := by
  cases p with
  | send | streamWrite => exact durable_mails h (.inr nofun)
  | _ =>
    cases h
    exact .same rfl

end World

namespace Execution

variable {κ : Type} {jid : Nat} {a a' : Execution κ} {prog : Program κ} {w w' : World}

theorem record_mails {started : Int} {ack : Bool}
    (h : a.record prog w started ack = some (w', a')) : Mails jid w.db w'.db := by
  unfold record at h
  split at h
  · obtain ⟨w₁, hw₁, h⟩ := Option.map_eq_some_iff.mp h
    cases h
    exact .same (World.recordStep_mailbox hw₁)
  · obtain ⟨w₁, hw₁, h⟩ := Option.map_eq_some_iff.mp h
    cases h
    exact .same (World.recordStep_mailbox hw₁)
  · split at h
    · cases h
      exact .same rfl
    · split at h <;> cases h
      exact .same rfl
  · split at h
    · obtain ⟨w₁, hw₁, h⟩ := Option.map_eq_some_iff.mp h
      cases h
      exact .same (World.recordStep_mailbox hw₁)
    · cases h
  · cases h

theorem commit_mails {started : Int} {lost : Option String} {entries : List Entry}
    (h : a.commit w started lost = some (w', a', entries)) : Mails jid w.db w'.db := by
  unfold commit at h
  split at h
  · dsimp only at h
    split at h
    · cases h
    · obtain ⟨w₂, hw₂, h⟩ := Option.map_eq_some_iff.mp h
      cases h
      obtain ⟨w₁, hw₁, hw₂⟩ := Option.bind_eq_some_iff.mp hw₂
      exact (World.statement_mails hw₁).trans_same (World.recordStep_mailbox hw₂)
  · cases h

theorem issue_mails {next : Execution κ} {s : WorkerStmt} {ack : Bool}
    (h : a.issue next w s ack = some (w', a')) : Mails jid w.db w'.db := by
  obtain ⟨w₁, hw₁, h⟩ := Option.map_eq_some_iff.mp h
  cases h
  exact World.worker_mails hw₁

theorem publish_mails {ack : Bool} {entries : List Entry}
    (h : a.publish prog w ack = some (w', a', entries)) : Mails jid w.db w'.db := by
  unfold publish at h
  split at h
  · split at h
    · obtain ⟨w₁, hw₁, h⟩ := Option.map_eq_some_iff.mp h
      cases h
      exact World.durable_mails hw₁ (.inr nofun)
    · cases h
  · cases h

theorem compact_mails {lost : Option String} {entries : List Entry}
    (h : a.compact w lost = some (w', a', entries)) : Mails jid w.db w'.db := by
  unfold compact at h
  split at h
  · cases h
    refine .same ?_
    simp only [Db.compactSteps, Db.setEvent]
    split <;> rfl
  · cases h

theorem move_mails {m : Move} {entries : List Entry} (h : a.move prog w m = some (w', a', entries))
    (hm : ∀ started ack expired, m ≠ .recv started ack expired) : Mails jid w.db w'.db := by
  cases move_cases h with
  | recv => exact absurd rfl (hm _ _ _)
  | record h₁ => exact record_mails h₁
  | commit h₁ => exact commit_mails h₁
  | publish h₁ => exact publish_mails h₁
  | compact h₁ => exact compact_mails h₁
  | start _ h₁ => exact issue_mails h₁
  | reschedule _ h₁ => exact issue_mails h₁
  | finish _ _ _ h₁ => exact issue_mails h₁
  | settle _ _ h₁ => exact issue_mails h₁
  | _ => exact .same rfl

end Execution

theorem Sys.step_mails {κ : Type} {prog : Program κ} {jid : Nat} {s s' : Sys κ} {e : Event}
    (h : s.step prog jid e = some s') (hpolls : e.polls = false) :
    Mails jid s.world.db s'.world.db := by
  cases e with
  | env a =>
    obtain ⟨w', hforeign, hw', -, rfl⟩ := Sys.step_env h
    exact World.step_mails hforeign hw'
  | attempt i m =>
    obtain ⟨a, w', a', entries, -, hm, rfl⟩ := Sys.step_attempt h
    refine Execution.move_mails hm fun started ack expired heq => ?_
    subst heq
    cases hpolls

theorem RecvTx.writes_stamps (t : RecvTx) (db : Db) (m : MailRow) :
    Stamps db ((t.writes m).foldl Write.apply db) m :=
  ⟨⟨fun r => { r with consumedAt := some t.now }, fun _ => rfl⟩,
  fun _ => Option.some_ne_none _, rfl⟩

namespace MailSys

variable {κ : Type} {prog : Program κ} {jid : Nat} {s s' : MailSys κ} {ev : MailEvent}

/-- What a step does to the mailbox and the open inserts. -/
inductive Delivers (jid : Nat) (s : MailSys κ) (ev : MailEvent) (s' : MailSys κ) : Prop where
  | statement (unsent : s'.unsent = s.unsent) (mails : Mails jid s.db s'.db)
  | received (t : RecvTx) (m : MailRow) (act : ev = .receive t.session) (tx : t ∈ s.recvs)
      (took : t.took = some m) (unsent : s'.unsent = s.unsent)
      (db : s'.db = (t.writes m).foldl Write.apply s.db)
  | inserted (m : MailRow) (id : m.id = s.db.mailbox.next)
      (unsent : s'.unsent = s.unsent ++ [m]) (mailbox : s'.db.mailbox = s.db.mailbox.reserve)
  | committed (i : Nat) (m : MailRow) (mem : s.unsent[i]? = some m)
      (unsent : s'.unsent = s.unsent.eraseIdx i)
      (mailbox : s.db.mailbox.publish m = some s'.db.mailbox)
  | dropped (i : Nat) (unsent : s'.unsent = s.unsent.eraseIdx i)
      (mailbox : s'.db.mailbox = s.db.mailbox)

/-- What no RECV of the job takes stays where it is, as it is. -/
theorem Delivers.kept (h : Delivers jid s ev s') {m : MailRow} (hm : m ∈ s.db.mailbox)
    (hdest : m.destJobId = jid) : m ∈ s'.db.mailbox ∨
      ∃ t ∈ s.recvs, ev = .receive t.session ∧ ∃ n, t.took = some n ∧ m.id = n.id := by
  cases h with
  | statement _ mails => exact .inl (mails.kept hm hdest)
  | received t n act tx took _ db =>
    by_cases hid : m.id = n.id
    · exact .inr ⟨t, tx, act, n, took, hid⟩
    · exact .inl (db ▸ (t.writes_stamps s.db n).kept hm hid)
  | inserted _ _ _ mailbox => exact .inl (mailbox ▸ hm)
  | committed i n _ _ mailbox =>
    exact .inl (((Serial.publish_eq_some mailbox).1 m).mpr (.inr hm))
  | dropped _ _ mailbox => exact .inl (mailbox ▸ hm)

/-- The open inserts have ids of their own. -/
structure Apart (s : MailSys κ) : Prop where
  issued : ∀ m ∈ s.unsent, m.id < s.db.mailbox.next ∧ ∀ n ∈ s.db.mailbox, n.id ≠ m.id
  distinct : (s.unsent.map MailRow.id).Nodup

/-- The message of this id has been consumed, and there will be no other. -/
structure Spent (i : Nat) (s : MailSys κ) : Prop where
  issued : i < s.db.mailbox.next
  consumed : ∀ m ∈ s.db.mailbox, m.id = i → m.consumedAt ≠ none
  unsent : ∀ m ∈ s.unsent, m.id ≠ i

theorem Apart.step (hs : Apart s) (h : Delivers jid s ev s') : Apart s' := by
  have hkept (hunsent : s'.unsent = s.unsent) (hdb : Continues s.db s'.db) : Apart s' := by
    refine ⟨fun m hm => ?_, hunsent ▸ hs.distinct⟩
    obtain ⟨hlt, hne⟩ := hs.issued m (hunsent ▸ hm)
    refine ⟨Nat.lt_of_lt_of_le hlt hdb.1, fun n hn heq => ?_⟩
    rcases hdb.2 n hn with hnew | ⟨old, hold, hid, -⟩
    · omega
    · exact hne old hold (hid.trans heq)
  cases h with
  | statement unsent mails => exact hkept unsent mails.continues
  | received t m _ _ _ unsent db => exact hkept unsent (db ▸ (t.writes_stamps s.db m).continues)
  | inserted m id unsent mailbox =>
    have hrows {n : MailRow} (hn : n ∈ s'.db.mailbox) : n ∈ s.db.mailbox :=
      show n ∈ s.db.mailbox.reserve from mailbox ▸ hn
    have hnext : s'.db.mailbox.next = s.db.mailbox.next + 1 := by rw [mailbox]; rfl
    refine ⟨fun n hn => ?_, ?_⟩
    · rw [unsent, List.mem_append, List.mem_singleton] at hn
      rcases hn with hn | rfl
      · obtain ⟨hlt, hne⟩ := hs.issued n hn
        exact ⟨by omega, fun r hr => hne r (hrows hr)⟩
      · refine ⟨by omega, fun r hr heq => ?_⟩
        have := Serial.lt_next (hrows hr)
        omega
    · rw [unsent, List.map_append, List.map_singleton, List.nodup_append]
      refine ⟨hs.distinct, List.nodup_singleton _, fun i hi j hj => ?_⟩
      obtain ⟨n, hn, rfl⟩ := List.mem_map.mp hi
      have := (hs.issued n hn).1
      rw [List.mem_singleton] at hj
      omega
  | committed i m mem unsent mailbox =>
    obtain ⟨hrows, hnext, -, -⟩ := Serial.publish_eq_some mailbox
    have hsub : (s'.unsent.map MailRow.id).Sublist (s.unsent.map MailRow.id) :=
      unsent ▸ (List.eraseIdx_sublist ..).map _
    refine ⟨fun n hn => ?_, hs.distinct.sublist hsub⟩
    rw [unsent, List.mem_eraseIdx_iff_getElem?] at hn
    obtain ⟨j, hji, hj⟩ := hn
    obtain ⟨hlt, hne⟩ := hs.issued n (List.mem_of_getElem? hj)
    refine ⟨hnext ▸ hlt, fun r hr heq => ?_⟩
    rcases (hrows r).mp hr with rfl | hr
    · have hids : (s.unsent.map MailRow.id)[i]? = (s.unsent.map MailRow.id)[j]? := by
        simp [mem, hj, heq]
      obtain ⟨hlt, -⟩ := List.getElem?_eq_some_iff.mp mem
      exact hji ((List.getElem?_inj (by simpa using hlt) hs.distinct).mp hids).symm
    · exact hne r hr heq
  | dropped i unsent mailbox =>
    have hsub : (s'.unsent.map MailRow.id).Sublist (s.unsent.map MailRow.id) :=
      unsent ▸ (List.eraseIdx_sublist ..).map _
    exact ⟨fun n hn => mailbox ▸ hs.issued n (List.mem_of_mem_eraseIdx (unsent ▸ hn)),
      hs.distinct.sublist hsub⟩

theorem Spent.step {i : Nat} (hs : Spent i s) (h : Delivers jid s ev s') : Spent i s' := by
  have hkept (hunsent : s'.unsent = s.unsent) (hdb : Continues s.db s'.db) : Spent i s' := by
    refine ⟨Nat.lt_of_lt_of_le hs.issued hdb.1, fun m hm hid => ?_, hunsent ▸ hs.unsent⟩
    rcases hdb.2 m hm with hnew | ⟨old, hold, hsame, hmono⟩
    · exact absurd hs.issued (by omega)
    · exact hmono (hs.consumed old hold (hsame.trans hid))
  cases h with
  | statement unsent mails => exact hkept unsent mails.continues
  | received t m _ _ _ unsent db => exact hkept unsent (db ▸ (t.writes_stamps s.db m).continues)
  | inserted m id unsent mailbox =>
    have hnext : s'.db.mailbox.next = s.db.mailbox.next + 1 := by rw [mailbox]; rfl
    have hissued := hs.issued
    refine ⟨by omega, fun n hn => hs.consumed n ?_, fun n hn => ?_⟩
    · exact show n ∈ s.db.mailbox.reserve from mailbox ▸ hn
    · rw [unsent, List.mem_append, List.mem_singleton] at hn
      rcases hn with hn | rfl
      · exact hs.unsent n hn
      · omega
  | committed k m mem unsent mailbox =>
    obtain ⟨hrows, hnext, -, -⟩ := Serial.publish_eq_some mailbox
    refine ⟨hnext ▸ hs.issued, fun n hn hid => ?_,
      fun n hn => hs.unsent n (List.mem_of_mem_eraseIdx (unsent ▸ hn))⟩
    rcases (hrows n).mp hn with rfl | hn
    · exact absurd hid (hs.unsent n (List.mem_of_getElem? mem))
    · exact hs.consumed n hn hid
  | dropped k unsent mailbox =>
    exact ⟨mailbox ▸ hs.issued, mailbox ▸ hs.consumed,
      fun n hn => hs.unsent n (List.mem_of_mem_eraseIdx (unsent ▸ hn))⟩

theorem Apart.spent (hs : Apart s) (h : Delivers jid s ev s') {m : MailRow}
    (ht : Takes s.db s'.db m) : Spent m.id s' := by
  obtain ⟨-, -, m', hm', hid, hconsumed⟩ := ht
  refine ⟨hid ▸ Serial.lt_next hm', fun n hn heq => ?_, fun n hn heq => ?_⟩
  · rwa [Serial.eq_of_ident hn hm' (heq.trans hid.symm)]
  · exact ((hs.step h).issued n hn).2 m' hm' (hid.trans heq.symm)

end MailSys

end Pyjobby
