import Pyjobby.World

/-! `wait_for_result` against the demand-gated trigger of one job: the client's
statements and its Event, the transactions that write the row under its lock, and the
notifications between them. -/

namespace Pyjobby

open Relational Transition

/-- The SET list names `state`. -/
def SupervisorStmt.namesState : SupervisorStmt → Bool
  | updatePriority .. | updateAppVersion .. | setAwaited .. | bounce .. => false
  | _ => true

/-- An UPDATE of job rows. -/
inductive RowStmt where
  | worker (jid epoch : Nat) (s : WorkerStmt)
  | supervise (s : SupervisorStmt)
  | claim (args : ClaimArgs)
  | wakeSelf (jid : Nat)
  | wakeGroup (gid : Int)

namespace RowStmt

def update (now : Int) : RowStmt → Update
  | worker jid epoch s => s.update now jid epoch
  | supervise s => s.update now
  | claim args => ⟨fun _ r => args.admits now r, args.claimed now⟩
  | wakeSelf jid => enqueueNextSelfFinished now (fun _ => false) jid
  | wakeGroup gid => enqueueNextIfPeerGroupIsFinished now (fun _ => false) gid

def namesState : RowStmt → Bool
  | supervise s => s.namesState
  | _ => true

/-- No statement takes a demand back, and one that does not name `state` keeps it. -/
theorem update_awaited (s : RowStmt) (now : Int) (r : Jorb) (h : r.awaited) :
    ((s.update now).set.set r).awaited := by
  cases s with
  | worker jid epoch s => cases s <;> exact h
  | supervise s =>
    cases s with
    | setAwaited => rfl
    | _ => exact h
  | _ => exact h

theorem update_state {s : RowStmt} (hs : s.namesState = false) (now : Int) (r : Jorb) :
    ((s.update now).set.set r).state = r.state := by
  cases s with
  | supervise s =>
    cases s with
    | updatePriority | updateAppVersion | setAwaited | bounce => rfl
    | _ => cases hs
  | _ => cases hs

end RowStmt

/-- The trigger's WHEN clause and its `pg_notify`, which within one transaction drops a
payload it has queued already. The payload is the job's id and `state`. -/
def jorbDoneNotify (namesState : Bool) (new : Jorb) (notes : List JorbState) : List JorbState :=
  if namesState && new.state.terminal && new.awaited then
    if new.state ∈ notes then notes else notes ++ [new.state]
  else notes

/-- The transaction that holds the row's lock: its version of the row, none once it has
deleted it, and the notifications it sends when it commits. -/
structure RowTx where
  new : Option Jorb
  notes : List JorbState

/-- How far a call of `wait_for_result` has come. -/
inductive WaitPos where
  | starting
  | demanding
  | demanded
  | checking
  | answered (state : Option JorbState)
  | waiting
  | returned
  deriving DecidableEq

/-- `event` is the Event that the call keeps in `_done_waiters`. -/
structure Waiter where
  id : Nat
  client : Nat
  pos : WaitPos
  event : Bool

namespace Waiter

def registered (w : Waiter) : Bool :=
  match w.pos with
  | .checking | .answered _ | .waiting => true
  | .starting | .demanding | .demanded | .returned => false

end Waiter

/-- One job's row and what is between it and the clients that wait for it. `inFlight`
are the notifications a client's connection has yet to hand over. -/
structure DoneWait where
  row : Option Jorb
  clock : Int
  tx : Option RowTx
  listening : Nat → Bool
  inFlight : Nat → List JorbState
  waiters : Table Waiter.id

inductive WaitAct where
  | tick (d : Nat)
  | write (db : Db) (s : RowStmt)
  | delete
  | commit
  | abort
  | listen (client : Nat)
  | deliver (client : Nat)
  | call (id client : Nat)
  | ensureListener (id : Nat)
  | registerDemand (id : Nat)
  | register (id : Nat)
  | check (id : Nat)
  | resume (id : Nat) (expired : Bool)
  | beat (id : Nat)
  | leave (id : Nat)

instance : Inhabited WaitAct := ⟨.tick 0⟩

namespace DoneWait

def init (row : Jorb) (clock : Int) : DoneWait where
  row := some row
  clock := clock
  tx := none
  listening _ := false
  inFlight _ := []
  waiters := .empty

/-- The row as the holder of its lock sees it. -/
def current (s : DoneWait) : Option Jorb :=
  match s.tx with
  | some t => t.new
  | none => s.row

def notes (s : DoneWait) : List JorbState := s.tx.elim [] RowTx.notes

/-- A statement of the transaction that has the lock or now takes it; `db` is what it
reads of the other rows. -/
def write (s : DoneWait) (db : Db) (stmt : RowStmt) : DoneWait :=
  let u := stmt.update s.clock
  match s.current.filter (u.cond db) with
  | none => s
  | some old =>
    let new := u.set.set old
    { s with tx := some ⟨some new, jorbDoneNotify stmt.namesState new s.notes⟩ }

def delete (s : DoneWait) : DoneWait :=
  match s.current with
  | none => s
  | some _ => { s with tx := some ⟨none, s.notes⟩ }

def commit (s : DoneWait) (t : RowTx) : DoneWait :=
  { s with
    row := t.new, tx := none,
    inFlight := fun c => if s.listening c then s.inFlight c ++ t.notes else s.inFlight c }

/-- The callback sets every Event of the client. -/
def deliver (s : DoneWait) (client : Nat) : Option DoneWait :=
  match s.inFlight client with
  | [] => none
  | _ :: rest =>
    some { s with
      inFlight := Function.update s.inFlight client rest
      waiters := s.waiters.update (fun w => w.client = client && w.registered)
        ⟨fun w => { w with event := true }, fun _ => rfl⟩ }

def move (s : DoneWait) (w : Waiter) (pos : WaitPos) : DoneWait :=
  { s with waiters := s.waiters.put { w with pos } }

/-- `UPDATE jorb SET awaited = TRUE WHERE id = $1 AND NOT awaited`. Where it matches,
it waits for the row's lock. -/
def registerDemand (s : DoneWait) (w : Waiter) : Option DoneWait :=
  match s.row.filter fun r => !r.awaited with
  | none => some (s.move w .demanded)
  | some r =>
    if s.tx.isSome then none
    else some { s.move w .demanded with row := some { r with awaited := true } }

/-- The statement returns: the Event is made and kept, and the check begins. -/
def register (s : DoneWait) (w : Waiter) : DoneWait :=
  { s with waiters := s.waiters.put { w with pos := .checking, event := false } }

/-- The check's answer arrives: the job is gone or has ended, the caller's timeout is
used up, or the call waits. -/
def resume (s : DoneWait) (w : Waiter) (expired : Bool) : Option DoneWait :=
  match w.pos with
  | .answered state =>
    if state.all JorbState.terminal || expired then some (s.move w .returned)
    else some (s.move w .waiting)
  | _ => none

/-- The wait is over, the Event set or the interval used up: clear, and check again. -/
def beat (s : DoneWait) (w : Waiter) : DoneWait :=
  { s with waiters := s.waiters.put { w with pos := .checking, event := false } }

def waiterAt (s : DoneWait) (id : Nat) (pos : WaitPos) : Option Waiter :=
  (s.waiters.find? id).filter fun w => w.pos = pos

def step (s : DoneWait) : WaitAct → Option DoneWait
  | .tick d => some { s with clock := s.clock + d }
  | .write db stmt => some (s.write db stmt)
  | .delete => some s.delete
  | .commit => s.tx.map s.commit
  | .abort => some { s with tx := none }
  | .listen client => some { s with listening := Function.update s.listening client true }
  | .deliver client => s.deliver client
  | .call id client =>
    if (s.waiters.find? id).isNone then
      some { s with waiters := s.waiters.put ⟨id, client, .starting, false⟩ }
    else none
  | .ensureListener id =>
    (s.waiterAt id .starting).bind fun w =>
      if s.listening w.client then some (s.move w .demanding) else none
  | .registerDemand id => (s.waiterAt id .demanding).bind s.registerDemand
  | .register id => (s.waiterAt id .demanded).map s.register
  | .check id =>
    (s.waiterAt id .checking).map fun w => s.move w (.answered (s.row.map Jorb.state))
  | .resume id expired => (s.waiters.find? id).bind (s.resume · expired)
  | .beat id => (s.waiterAt id .waiting).map s.beat
  | .leave id => some { s with waiters := s.waiters.delete fun w => w.id = id }

end DoneWait

abbrev WaitRun := Run DoneWait.step

/-- The statement that sets `awaited` has run. -/
def Waiter.demanded (w : Waiter) : Bool :=
  match w.pos with
  | .demanded | .checking | .answered _ | .waiting => true
  | .starting | .demanding | .returned => false

/-- It waits, or is about to: its check found the job not ended. -/
def Waiter.parking (w : Waiter) : Bool :=
  match w.pos with
  | .answered state => !state.all JorbState.terminal
  | .waiting => true
  | _ => false

theorem Waiter.demanded_of_parking {w : Waiter} (h : w.parking) : w.demanded := by
  cases hpos : w.pos <;> simp [parking, demanded, hpos] at h ⊢

theorem Waiter.ne_starting_of_demanded {w : Waiter} (h : w.demanded) : w.pos ≠ .starting := by
  intro hpos
  simp [demanded, hpos] at h

theorem Waiter.registered_of_parking {w : Waiter} (h : w.parking) : w.registered := by
  cases hpos : w.pos <;> simp [parking, registered, hpos] at h ⊢

theorem jorbDoneNotify_ne_nil {named : Bool} {new : Jorb} {notes : List JorbState}
    (h : notes ≠ []) : jorbDoneNotify named new notes ≠ [] := by
  unfold jorbDoneNotify
  split
  · split <;> simp [h]
  · exact h

theorem jorbDoneNotify_fired {new : Jorb} {notes : List JorbState} (hstate : new.state.terminal)
    (hawaited : new.awaited) : jorbDoneNotify true new notes ≠ [] := by
  unfold jorbDoneNotify
  simp only [hstate, hawaited, Bool.and_self, if_true]
  split
  · exact List.ne_nil_of_mem ‹_›
  · simp

namespace DoneWait

variable {s s' : DoneWait}

/-- What the holder of the row's lock will commit: a demand it leaves alone, and an end
that is news is notified. -/
structure TxTells (row : Option Jorb) (t : RowTx) : Prop where
  held : row.isSome
  awaited : ∀ r ∈ row, ∀ new ∈ t.new, r.awaited → new.awaited
  told : ∀ r ∈ row, ∀ new ∈ t.new, r.awaited → new.state.terminal →
    r.state.terminal ∨ t.notes ≠ []

/-- The client has been told, or will be, of the end that is committed. -/
def Told (s : DoneWait) (w : Waiter) : Prop :=
  ∀ r ∈ s.row, r.state.terminal → w.event = true ∨ s.inFlight w.client ≠ []

structure WaiterHeard (s : DoneWait) (w : Waiter) : Prop where
  listening : w.pos ≠ .starting → s.listening w.client
  awaited : w.demanded → ∀ r ∈ s.row, r.awaited
  told : w.parking → s.Told w

theorem WaiterHeard.congr {w : Waiter} (h : s.WaiterHeard w) (hrow : s'.row = s.row)
    (hlisten : s'.listening = s.listening) (hflight : s'.inFlight = s.inFlight) :
    s'.WaiterHeard w where
  listening := hlisten ▸ h.listening
  awaited := hrow ▸ h.awaited
  told hp r hr hend := by
    rw [hflight]
    exact h.told hp r (hrow ▸ hr) hend

structure Heard (s : DoneWait) : Prop where
  tx : ∀ t ∈ s.tx, TxTells s.row t
  waiters : ∀ w ∈ s.waiters, s.WaiterHeard w

namespace Heard

theorem init (row : Jorb) (clock : Int) : (DoneWait.init row clock).Heard where
  tx _ ht := absurd ht (by simp [DoneWait.init])
  waiters _ hw := absurd hw Table.not_mem_empty

theorem current (h : s.Heard) {cur : Jorb} (hcur : s.current = some cur) :
    TxTells s.row ⟨some cur, s.notes⟩ := by
  unfold DoneWait.current at hcur
  cases htx : s.tx with
  | none =>
    simp only [htx] at hcur
    refine ⟨by simp [hcur], fun r hr new hnew => ?_, fun r hr new hnew _ hend => .inl ?_⟩
    · cases hnew
      cases hr.symm.trans hcur
      exact id
    · cases hnew
      cases hr.symm.trans hcur
      exact hend
  | some t =>
    have ht := h.tx t htx
    simp only [htx] at hcur
    have hnotes : s.notes = t.notes := by simp [notes, htx]
    rw [hnotes, ← hcur]
    exact ⟨ht.held, ht.awaited, ht.told⟩

theorem write (h : s.Heard) (db : Db) (stmt : RowStmt) : (s.write db stmt).Heard := by
  unfold DoneWait.write
  dsimp only
  split
  · exact h
  · rename_i old hold
    have hcur := h.current (Option.filter_eq_some_iff.mp hold).1
    have hawaited := stmt.update_awaited s.clock old
    refine ⟨fun t ht => ?_, fun w hw => ?_⟩
    · cases ht
      refine ⟨hcur.held, fun r hr new hnew hr' => ?_, fun r hr new hnew hr' hend => ?_⟩
      · cases hnew
        exact hawaited (hcur.awaited r hr old rfl hr')
      · cases hnew
        cases hnames : stmt.namesState with
        | true => exact .inr (jorbDoneNotify_fired hend (hawaited (hcur.awaited r hr old rfl hr')))
        | false =>
          rw [RowStmt.update_state hnames] at hend
          rcases hcur.told r hr old rfl hr' hend with hold | (hnotes : s.notes ≠ [])
          · exact .inl hold
          · refine .inr ?_
            dsimp only
            exact jorbDoneNotify_ne_nil hnotes
    · exact (h.waiters w hw).congr rfl rfl rfl

theorem delete (h : s.Heard) : s.delete.Heard := by
  unfold DoneWait.delete
  split
  · exact h
  · rename_i cur hcur
    refine ⟨fun t ht => ?_, fun w hw => ?_⟩
    · cases ht
      exact ⟨(h.current hcur).held, fun _ _ _ hnew => absurd hnew (Option.not_mem_none _),
        fun _ _ _ hnew => absurd hnew (Option.not_mem_none _)⟩
    · exact (h.waiters w hw).congr rfl rfl rfl

theorem commit (h : s.Heard) {t : RowTx} (ht : s.tx = some t) : (s.commit t).Heard where
  tx _ hu := by cases hu
  waiters w hw := by
    have htx := h.tx t ht
    have hheard := h.waiters w hw
    obtain ⟨row, hrow⟩ := Option.isSome_iff_exists.mp htx.held
    refine ⟨hheard.listening, fun hd new hnew => ?_, fun hp new hnew hend => ?_⟩
    · exact htx.awaited row hrow new hnew (hheard.awaited hd row hrow)
    · have hd := Waiter.demanded_of_parking hp
      have hlisten := hheard.listening (Waiter.ne_starting_of_demanded hd)
      have hflight : (s.commit t).inFlight w.client = s.inFlight w.client ++ t.notes := by
        simp [DoneWait.commit, hlisten]
      rw [hflight]
      rcases htx.told row hrow new hnew (hheard.awaited hd row hrow) hend with hold | hnotes
      · exact (hheard.told hp row hrow hold).imp_right (List.append_ne_nil_of_left_ne_nil · _)
      · exact .inr (List.append_ne_nil_of_right_ne_nil _ hnotes)

theorem deliver (h : s.Heard) {client : Nat} (hs : s.deliver client = some s') : s'.Heard := by
  unfold DoneWait.deliver at hs
  split at hs
  · cases hs
  · rename_i note rest hflight
    cases hs
    refine ⟨h.tx, fun w' hw' => ?_⟩
    obtain ⟨w, hw, rfl⟩ := Table.mem_update.mp hw'
    have hheard := h.waiters w hw
    by_cases hset : w.client = client ∧ w.registered
    · simp only [hset, decide_true, Bool.and_self, if_true]
      exact ⟨hset.1 ▸ hheard.listening, hheard.awaited, fun _ _ _ _ => .inl rfl⟩
    · have hset' : (decide (w.client = client) && w.registered) = false := by simpa using hset
      simp only [hset', Bool.false_eq_true, if_false]
      refine ⟨hheard.listening, hheard.awaited, fun hp r hr hend => ?_⟩
      have hne : w.client ≠ client := fun heq => hset ⟨heq, Waiter.registered_of_parking hp⟩
      have hsame : Function.update s.inFlight client rest w.client = s.inFlight w.client :=
        Function.update_of_ne hne _ _
      exact (hheard.told hp r hr hend).imp_right hsame.trans_ne

/-- One call goes on. -/
theorem put (h : s.Heard) (w : Waiter) (hw : s.WaiterHeard w) :
    ({ s with waiters := s.waiters.put w } : DoneWait).Heard where
  tx := h.tx
  waiters u hu := by
    rcases Table.mem_put.mp hu with rfl | ⟨hu, -⟩
    · exact hw.congr rfl rfl rfl
    · exact (h.waiters u hu).congr rfl rfl rfl

theorem registerDemand (h : s.Heard) {w : Waiter} (hlisten : s.listening w.client)
    (hs : s.registerDemand w = some s') : s'.Heard := by
  unfold DoneWait.registerDemand at hs
  split at hs
  · rename_i hnone
    cases hs
    refine h.put _ ⟨fun _ => hlisten, fun _ r hr => ?_, nofun⟩
    simpa using Option.filter_eq_none_iff.mp hnone r hr
  · rename_i r hr
    obtain ⟨hr, -⟩ := Option.filter_eq_some_iff.mp hr
    split at hs
    · cases hs
    · rename_i hfree
      cases hs
      refine ⟨fun t ht => absurd (Option.isSome_of_mem ht) hfree, fun u hu => ?_⟩
      rcases Table.mem_put.mp hu with rfl | ⟨hu, -⟩
      · exact ⟨fun _ => hlisten, fun _ _ hr' => Option.some.inj hr' ▸ rfl, nofun⟩
      · have hheard := h.waiters u hu
        refine ⟨hheard.listening, fun _ _ hr' => Option.some.inj hr' ▸ rfl,
          fun hp r' hr' hend => ?_⟩
        cases hr'
        exact hheard.told hp r hr hend

theorem waiterAt {id : Nat} {pos : WaitPos} {w : Waiter} (h : s.Heard)
    (hw : s.waiterAt id pos = some w) : w.pos = pos ∧ s.WaiterHeard w := by
  obtain ⟨hfind, hpos⟩ := Option.filter_eq_some_iff.mp hw
  exact ⟨by simpa using hpos, h.waiters w (Table.find?_eq_some.mp hfind).1⟩

theorem move (h : s.Heard) {w : Waiter} (hw : s.WaiterHeard w) {pos : WaitPos}
    (hlisten : s.listening w.client) (hd : ({ w with pos } : Waiter).demanded → w.demanded)
    (hp : ({ w with pos } : Waiter).parking → s.Told w) : (s.move w pos).Heard :=
  h.put _ ⟨fun _ => hlisten, fun hd' => hw.awaited (hd hd'), hp⟩

/-- A check is on its way. -/
theorem checking (h : s.Heard) {w : Waiter} (hw : s.WaiterHeard w) (hd : w.demanded) :
    ({ s with waiters := s.waiters.put { w with pos := .checking, event := false } } :
      DoneWait).Heard :=
  h.put _ ⟨fun _ => hw.listening (Waiter.ne_starting_of_demanded hd), fun _ => hw.awaited hd, nofun⟩

theorem resume (h : s.Heard) {w : Waiter} (hw : s.WaiterHeard w) {expired : Bool}
    (hs : s.resume w expired = some s') : s'.Heard := by
  unfold DoneWait.resume at hs
  split at hs
  · rename_i state hpos
    have hd : w.demanded := by simp [Waiter.demanded, hpos]
    have hlisten := hw.listening (Waiter.ne_starting_of_demanded hd)
    split at hs
    · cases hs
      exact h.move hw hlisten nofun nofun
    · rename_i hpark
      cases hs
      refine h.move hw hlisten (fun _ => hd) fun _ => hw.told ?_
      simp only [Bool.or_eq_true, not_or] at hpark
      simp [Waiter.parking, hpos, hpark.1]
  · cases hs

theorem step (h : s.Heard) {a : WaitAct} (hs : s.step a = some s') : s'.Heard := by
  cases a with
  | tick d =>
    cases hs
    exact ⟨h.tx, fun w hw => (h.waiters w hw).congr rfl rfl rfl⟩
  | write db stmt =>
    cases hs
    exact h.write db stmt
  | delete =>
    cases hs
    exact h.delete
  | commit =>
    obtain ⟨t, ht, rfl⟩ := Option.map_eq_some_iff.mp hs
    exact h.commit ht
  | abort =>
    cases hs
    exact ⟨fun t ht => absurd ht (Option.not_mem_none t),
      fun w hw => (h.waiters w hw).congr rfl rfl rfl⟩
  | listen client =>
    cases hs
    refine ⟨h.tx, fun w hw => ⟨fun hpos => ?_, (h.waiters w hw).awaited, (h.waiters w hw).told⟩⟩
    by_cases hc : w.client = client
    · simp [hc]
    · simpa [Function.update_of_ne hc] using (h.waiters w hw).listening hpos
  | deliver client => exact h.deliver hs
  | call id client =>
    simp only [DoneWait.step] at hs
    split at hs
    · cases hs
      exact h.put _ ⟨fun hpos => absurd rfl hpos, nofun, nofun⟩
    · cases hs
  | ensureListener id =>
    obtain ⟨w, hw, hs⟩ := Option.bind_eq_some_iff.mp hs
    split at hs
    · rename_i hlisten
      cases hs
      exact h.move (h.waiterAt hw).2 hlisten nofun nofun
    · cases hs
  | registerDemand id =>
    obtain ⟨w, hw, hs⟩ := Option.bind_eq_some_iff.mp hs
    obtain ⟨hpos, hw⟩ := h.waiterAt hw
    exact h.registerDemand (hw.listening (by simp [hpos])) hs
  | register id =>
    obtain ⟨w, hw, rfl⟩ := Option.map_eq_some_iff.mp hs
    obtain ⟨hpos, hw⟩ := h.waiterAt hw
    exact h.checking hw (by simp [Waiter.demanded, hpos])
  | check id =>
    obtain ⟨w, hw, rfl⟩ := Option.map_eq_some_iff.mp hs
    obtain ⟨hpos, hw⟩ := h.waiterAt hw
    have hd : w.demanded := by simp [Waiter.demanded, hpos]
    refine h.move hw (hw.listening (by simp [hpos])) (fun _ => hd) fun hp r hr hend => ?_
    have hr : s.row = some r := hr
    simp [Waiter.parking, hr, hend] at hp
  | resume id expired =>
    obtain ⟨w, hw, hs⟩ := Option.bind_eq_some_iff.mp hs
    exact h.resume (h.waiters w (Table.find?_eq_some.mp hw).1) hs
  | beat id =>
    obtain ⟨w, hw, rfl⟩ := Option.map_eq_some_iff.mp hs
    obtain ⟨hpos, hw⟩ := h.waiterAt hw
    exact h.checking hw (by simp [Waiter.demanded, hpos])
  | leave id =>
    cases hs
    exact ⟨h.tx, fun w hw => (h.waiters w (Table.mem_delete.mp hw).1).congr rfl rfl rfl⟩

end Heard

end DoneWait

/-- A call that waits on its Event while the job's committed state is terminal has the
Event set or a notification on its way. -/
theorem wait_never_misses_end (ρ : WaitRun) (hρ : ∃ row clock, ρ.state 0 = .init row clock) :
    ∀ n ≤ ρ.length, ∀ w ∈ (ρ.state n).waiters, w.pos = .waiting →
      ∀ r, (ρ.state n).row = some r → r.state.terminal →
        w.event = true ∨ (ρ.state n).inFlight w.client ≠ [] := by
  obtain ⟨row, clock, h0⟩ := hρ
  intro n hn w hw hpos r hr hend
  have hheard := ρ.invariant (P := DoneWait.Heard) (h0 ▸ .init row clock)
    (fun h hs => h.step hs) n hn
  exact (hheard.waiters w hw).told (by simp [Waiter.parking, hpos]) r hr hend

def NewJob.running (now : Int) (id : Nat) : Jorb :=
  (WorkerStmt.run none).set now ((NewJob.plain "q").row now id)

/-- The check finds the job running; it finishes before the client waits. -/
def waitActs : List WaitAct :=
  [.listen 0, .call 0 0, .ensureListener 0, .registerDemand 0, .register 0, .check 0,
    .write .empty (.worker 1 0 (.finished none)), .commit, .resume 0 false]

def waitRun : WaitRun := .ofList (.init (NewJob.running 0 1) 0) waitActs (by decide)

theorem wait_never_misses_end_running :
    ((waitRun.state 9).waiters.rows.map fun w => (w.pos, w.event)) = [(.waiting, false)] ∧
      (waitRun.state 9).inFlight 0 ≠ [] := by
  obtain ⟨w, hw, hclient, hpos, hevent⟩ : ∃ w ∈ (waitRun.state 9).waiters.rows,
      w.client = 0 ∧ w.pos = .waiting ∧ w.event = false := by decide
  obtain ⟨r, hr, hend⟩ : ∃ r, (waitRun.state 9).row = some r ∧ r.state.terminal :=
    ⟨_, rfl, by decide⟩
  refine ⟨by decide, ?_⟩
  have htold := wait_never_misses_end waitRun ⟨_, _, rfl⟩ 9 (by decide) w hw hpos r hr hend
  rw [hevent, hclient] at htold
  exact htold.resolve_left Bool.false_ne_true

end Pyjobby
