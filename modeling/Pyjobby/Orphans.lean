import Pyjobby.Failure
import Pyjobby.Ownership
import Pyjobby.Registry

/-! Orphans. A worker process dies at any point; what it held stays in flight
until one of the monitor's sweeps selects it, and the registry keeps the row that
the dead-worker sweep joins to. -/

namespace Pyjobby

open Relational Transition

/-- The fleet and its worker processes. `live` are the registry ids of those that
run, and `beaten` is when the last heartbeat of each got through, its
registration included. -/
structure Site (κ : Type) where
  sys : Sys κ
  live : List Nat
  beaten : Nat → Int

/-- A `statement` is anybody's, the ones a process had under way when it died
among them; `join` is a registration whose answer arrives, and `registry` a
statement of a live worker on its own row. -/
inductive SiteAct where
  | statement (a : Act)
  | move (i : Nat) (m : Move)
  | join (args : ClaimArgs)
  | registry (wid : Nat) (s : RegistryStmt)
  | die (wid : Nat)
  | retire (grace : Int)
  | sweepRetired (retention : Int) (batch : List Nat)

instance : Inhabited SiteAct := ⟨.statement default⟩

namespace Site

variable {κ : Type}

def init (clock : Int) (queue : String → Option QueueRow) : Site κ :=
  ⟨.init .empty clock queue, [], fun _ => clock⟩

def withDb (s : Site κ) (db : Db) : Site κ :=
  { s with sys := { s.sys with world := { s.sys.world with db } } }

/-- The process that runs the execution lives. -/
def tended (s : Site κ) (e : Execution κ) : Bool := e.row.claimedBy.any (· ∈ s.live)

/-- Registered workers claim, and it takes a live process to receive the row. -/
def permits (s : Site κ) : Act → Bool
  | .claimBegin _ args => args.workerId.any (· ∈ s.live)
  | .claimCommit session true =>
    (s.sys.world.claimTx session).all fun c => c.args.workerId.any (· ∈ s.live)
  | _ => true

/-- The server ends the open transactions of a process that is no more. -/
def die (s : Site κ) (wid : Nat) : Site κ :=
  { s with
    sys := { s.sys with
      attempts := s.sys.attempts.map fun e => if e.row.claimedBy = some wid then e.leave else e },
    live := s.live.filter (· ≠ wid) }

def step (prog : Jorb → Program κ) (s : Site κ) : SiteAct → Option (Site κ)
  | .statement a =>
    if s.permits a then (s.sys.advance prog (.env a)).map fun sys => { s with sys } else none
  | .move _ .crash => none
  | .move i m =>
    if s.sys.attempts[i]?.any s.tended then
      (s.sys.advance prog (.attempt i m)).map fun sys => { s with sys }
    else none
  | .join args =>
    let wid := s.sys.world.db.worker.next
    some { s.withDb (s.sys.world.db.registerWorker s.sys.world.clock args) with
      live := wid :: s.live, beaten := Function.update s.beaten wid s.sys.world.clock }
  | .registry wid stmt =>
    if wid ∈ s.live then
      some { s.withDb (s.sys.world.db.registry s.sys.world.clock wid stmt) with
        beaten :=
          match stmt with
          | .heartbeat => Function.update s.beaten wid s.sys.world.clock
          | _ => s.beaten }
    else none
  | .die wid => some (s.die wid)
  | .retire grace => some (s.withDb (s.sys.world.db.retireDeadWorkers s.sys.world.clock grace))
  | .sweepRetired retention batch =>
    some (s.withDb (s.sys.world.db.sweepRetiredWorkers s.sys.world.clock retention batch))

variable {prog : Jorb → Program κ} {s s' : Site κ}

theorem step_statement {a : Act} (h : s.step prog (.statement a) = some s') :
    s.permits a ∧ ∃ sys, s.sys.advance prog (.env a) = some sys ∧ s' = { s with sys } := by
  simp only [step] at h
  split at h
  · obtain ⟨sys, hsys, rfl⟩ := Option.map_eq_some_iff.mp h
    exact ⟨‹_›, sys, hsys, rfl⟩
  · cases h

theorem step_move {i : Nat} {m : Move} (h : s.step prog (.move i m) = some s') :
    m ≠ .crash ∧ ∃ sys, s.sys.advance prog (.attempt i m) = some sys ∧ s' = { s with sys } := by
  have hm : m ≠ .crash := by
    rintro rfl
    cases h
  have h : (if s.sys.attempts[i]?.any s.tended then
      (s.sys.advance prog (.attempt i m)).map fun sys => { s with sys } else none) = some s' := by
    cases m with
    | crash => exact absurd rfl hm
    | _ => exact h
  split at h
  · obtain ⟨sys, hsys, rfl⟩ := Option.map_eq_some_iff.mp h
    exact ⟨hm, sys, hsys, rfl⟩
  · cases h

/-- Some live process is at work on the row's attempt. -/
def Executes (s : Site κ) (r : Jorb) : Prop :=
  ∃ e ∈ s.sys.attempts, r.heldBy e.row ∧ s.tended e ∧ e.gone = false

/-- Nothing happens but the passing of time and the heartbeats of live workers. -/
def idle : SiteAct → Bool
  | .statement (.tick _) | .registry _ .heartbeat => true
  | _ => false

end Site

/-- A change of the registry that deletes no row, and moves `last_seen` to the
present if at all. -/
structure Tends (now : Int) (db db' : Db) : Prop where
  next_le : db.worker.next ≤ db'.worker.next
  kept : ∀ x ∈ db.worker, x.lastSeen ≤ now →
    ∃ x' ∈ db'.worker, x'.id = x.id ∧ x.lastSeen ≤ x'.lastSeen
  seen : (∀ x ∈ db.worker, x.lastSeen ≤ now) → ∀ x' ∈ db'.worker, x'.lastSeen ≤ now

namespace Tends

variable {now : Int} {db db' : Db}

theorem of_eq (h : db'.worker = db.worker) : Tends now db db' :=
  ⟨h ▸ le_rfl, fun x hx _ => ⟨x, h ▸ hx, rfl, le_rfl⟩, fun hseen x hx => hseen x (h ▸ hx)⟩

theorem of_update {p : WorkerRow → Bool} {u : Rewrite WorkerRow.id}
    (h : db'.worker = db.worker.update p u)
    (hu : ∀ x, (u.set x).lastSeen = x.lastSeen ∨ (u.set x).lastSeen = now) : Tends now db db' := by
  refine ⟨h ▸ le_rfl, fun x hx hle => ?_, fun hseen x' hx' => ?_⟩
  · refine ⟨_, h ▸ Serial.mem_update.mpr ⟨x, hx, rfl⟩, ?_⟩
    split
    · exact ⟨u.key_set x, by rcases hu x with heq | heq <;> omega⟩
    · exact ⟨rfl, le_rfl⟩
  · obtain ⟨x, hx, rfl⟩ := Serial.mem_update.mp (h ▸ hx')
    have hle := hseen x hx
    split
    · rcases hu x with heq | heq <;> omega
    · exact hle

theorem register (args : ClaimArgs)
    (h : db'.worker = (db.registerWorker now args).worker) : Tends now db db' := by
  refine ⟨h ▸ Nat.le_succ _, fun x hx _ => ?_, fun hseen x' hx' => ?_⟩
  · exact ⟨x, h ▸ Serial.mem_insert_of_mem (h := fun _ => rfl) hx, rfl, le_rfl⟩
  · rcases (Serial.mem_insert (h := fun _ => rfl)).mp (h ▸ hx') with hx | rfl
    · exact hseen x' hx
    · exact le_rfl

theorem registry (wid : Nat) (stmt : RegistryStmt) : Tends now db (db.registry now wid stmt) :=
  .of_update rfl fun x => by
    cases stmt with
    | heartbeat => exact .inr rfl
    | _ => exact .inl rfl

theorem retire (grace : Int) : Tends now db (db.retireDeadWorkers now grace) :=
  .of_update rfl fun _ => .inl rfl

end Tends

theorem Registers.tends {w : World} {a : Act} {db : Db} (h : Registers w a db) :
    Tends w.clock w.db db := by
  cases h with
  | none worker => exact .of_eq worker
  | join args act worker => exact .register args worker
  | beat wid act worker => exact .of_update worker fun _ => .inr rfl

theorem Effect.tends {w w' : World} {a : Act} (h : Effect w a w') :
    Tends w.clock w.db w'.db := by
  cases h with
  | quiet db clock queue jorb clock_le registry => exact registry.tends
  | update db wakes u jorb free source owed worker => exact .of_eq worker
  | close session jorb worker => exact .of_eq worker
  | commit act tx phase mem id jorb acked worker => exact .of_eq worker
  | insert | delete | opens => exact .of_eq rfl

theorem Effect.handed {w w' : World} {a : Act} (h : Effect w a w') :
    w'.execs = w.execs ∨ ∃ session c, ∃ r ∈ w.db.jorb, a = .claimCommit session true ∧
      w.claimTx session = some c ∧ w'.execs = w.execs ++ [(c.args.claimed c.now).set r] := by
  cases h with
  | @commit session jid c r _ _ act tx phase mem id jorb acked =>
    exact acked.imp_right fun ⟨hact, h⟩ => ⟨session, c, r, mem, hact, tx, h⟩
  | _ => exact .inl rfl

/-- Every row in flight has its owner, and every owner its row in the registry. -/
structure Accounted {κ : Type} (s : Site κ) : Prop where
  attributed : Attributed s.sys.world
  rows : s.sys.attempts.map Execution.row = s.sys.world.execs
  seen : ∀ x ∈ s.sys.world.db.worker, x.lastSeen ≤ s.sys.world.clock
  live : ∀ wid ∈ s.live, ∃ x ∈ s.sys.world.db.worker, x.id = wid ∧ s.beaten wid ≤ x.lastSeen
  claimer : ∀ e ∈ s.sys.world.execs, ∃ wid, e.claimedBy = some wid ∧
    wid < s.sys.world.db.worker.next
  registered : ∀ e ∈ s.sys.world.execs, s.sys.world.owns e →
    ∃ x ∈ s.sys.world.db.worker, e.claimedBy = some x.id
  gone : ∀ e ∈ s.sys.attempts, e.gone → s.tended e → s.sys.world.owns e.row = false

namespace Accounted

variable {κ : Type} {prog : Jorb → Program κ} {s s' : Site κ}

theorem init (clock : Int) (queue : String → Option QueueRow) :
    Accounted (Site.init (κ := κ) clock queue) where
  attributed := Attributed.init clock queue
  rows := rfl
  seen := fun _ hx => absurd hx Serial.not_mem_empty
  live := fun _ hwid => absurd hwid List.not_mem_nil
  claimer := fun _ he => absurd he List.not_mem_nil
  registered := fun _ he => absurd he List.not_mem_nil
  gone := fun _ he => absurd he List.not_mem_nil

theorem mem_of_live (h : Accounted s) {wid : Nat} (hwid : wid ∈ s.live) :
    ∃ x ∈ s.sys.world.db.worker, x.id = wid :=
  (h.live wid hwid).imp fun _ hx => ⟨hx.1, hx.2.1⟩

theorem lt_next_of_live (h : Accounted s) {wid : Nat} (hwid : wid ∈ s.live) :
    wid < s.sys.world.db.worker.next := by
  obtain ⟨x, hx, rfl⟩ := h.mem_of_live hwid
  exact Serial.lt_next hx

theorem old (h : Accounted s) {w' : World} {a : Act} (he : Effect s.sys.world a w') {e : Jorb}
    (hmem : e ∈ s.sys.world.execs) :
    (∃ wid, e.claimedBy = some wid ∧ wid < w'.db.worker.next) ∧
      (w'.owns e → ∃ x ∈ w'.db.worker, e.claimedBy = some x.id) := by
  have htends := he.tends
  obtain ⟨wid, hwid, hlt⟩ := h.claimer e hmem
  refine ⟨⟨wid, hwid, hlt.trans_le htends.next_le⟩, fun howns => ?_⟩
  have howns := World.owns_of_step h.attributed.locks (h.attributed.fenced.owned e hmem) he howns
  obtain ⟨x, hx, hclaimed⟩ := h.registered e hmem howns
  obtain ⟨x', hx', hid, -⟩ := htends.kept x hx (h.seen x hx)
  exact ⟨x', hx', hid ▸ hclaimed⟩

theorem live_tends (h : Accounted s) {db : Db} (ht : Tends s.sys.world.clock s.sys.world.db db) :
    ∀ wid ∈ s.live, ∃ x ∈ db.worker, x.id = wid ∧ s.beaten wid ≤ x.lastSeen := by
  intro wid hwid
  obtain ⟨x, hx, hid, hbeaten⟩ := h.live wid hwid
  obtain ⟨x', hx', hid', hle⟩ := ht.kept x hx (h.seen x hx)
  exact ⟨x', hx', hid'.trans hid, hbeaten.trans hle⟩

theorem owned (h : Accounted s) {e : Execution κ} (he : e ∈ s.sys.attempts) :
    e.row ∈ s.sys.world.execs ∧ Owned s.sys.world e.row := by
  have hmem : e.row ∈ s.sys.world.execs := h.rows ▸ List.mem_map_of_mem he
  exact ⟨hmem, h.attributed.fenced.owned _ hmem⟩

theorem gone_step (h : Accounted s) {w' : World} {a : Act} (he : Effect s.sys.world a w')
    {e : Execution κ} (hmem : e ∈ s.sys.attempts) (hgone : e.gone) (htended : s.tended e) :
    w'.owns e.row = false := by
  refine Bool.eq_false_iff.mpr fun howns => ?_
  have := World.owns_of_step h.attributed.locks (h.owned hmem).2 he howns
  simp [h.gone e hmem hgone htended] at this

theorem statement (h : Accounted s) {a : Act}
    (hstep : s.step prog (.statement a) = some s') : Accounted s' := by
  obtain ⟨hpermits, sys, hsys, rfl⟩ := Site.step_statement hstep
  obtain ⟨hw, hattempts⟩ := Sys.advance_env hsys
  have heff := World.step_effect hw
  have htends := heff.tends
  have hnew : ∀ e ∈ sys.world.execs, e ∈ s.sys.world.execs ∨
      ∃ x ∈ sys.world.db.worker, e.claimedBy = some x.id := by
    rcases heff.handed with heq | ⟨session, c, r, hr, rfl, htx, heq⟩
    · exact fun e he => .inl (heq ▸ he)
    · intro e he
      refine (List.mem_append.mp (heq ▸ he)).imp_right fun he => ?_
      have hclaimed : e.claimedBy = c.args.workerId :=
        congrArg Jorb.claimedBy (List.mem_singleton.mp he)
      simp only [Site.permits, htx, Option.all_some] at hpermits
      simp only [Option.any_eq_true, decide_eq_true_eq] at hpermits
      obtain ⟨wid, hwid, hlive⟩ := hpermits
      obtain ⟨x, hx, hid⟩ := h.mem_of_live hlive
      obtain ⟨x', hx', hid', -⟩ := htends.kept x hx (h.seen x hx)
      exact ⟨x', hx', by rw [hclaimed, hwid, hid', hid]⟩
  refine ⟨h.attributed.step heff, ?_, ?_, h.live_tends htends, fun e he => ?_,
    fun e he howns => ?_, fun e he hgone htended => ?_⟩
  · have hprefix : sys.world.execs = s.sys.world.execs ++
        sys.world.execs.drop s.sys.world.execs.length := by
      rcases heff.handed with heq | ⟨_, _, _, _, _, _, heq⟩ <;> simp [heq]
    rw [hattempts, List.map_append, h.rows, List.map_map]
    exact (congrArg _ (List.map_id _)).trans hprefix.symm
  · exact fun x hx => (htends.seen h.seen x hx).trans heff.clock_le
  · rcases hnew e he with hold | ⟨x, hx, hclaimed⟩
    · exact (h.old heff hold).1
    · exact ⟨x.id, hclaimed, Serial.lt_next hx⟩
  · rcases hnew e he with hold | hx
    · exact (h.old heff hold).2 howns
    · exact hx
  · have he : e ∈ s.sys.attempts ++
        (sys.world.execs.drop s.sys.world.execs.length).map .new := hattempts ▸ he
    rcases List.mem_append.mp he with hold | hfresh
    · exact h.gone_step heff hold hgone htended
    · obtain ⟨r, -, rfl⟩ := List.mem_map.mp hfresh
      cases hgone

theorem move (h : Accounted s) {i : Nat} {m : Move}
    (hstep : s.step prog (.move i m) = some s') : Accounted s' := by
  obtain ⟨hm, sys, hsys, rfl⟩ := Site.step_move hstep
  obtain ⟨e, e', entries, he, hmove, hattempts⟩ := Sys.advance_attempt hsys
  have hmem := List.mem_of_getElem? he
  obtain ⟨hexec, howned⟩ := h.owned hmem
  have hmoves := Execution.move_moves hmove
  have hexecs := hmoves.issued.execs
  obtain ⟨a, heff⟩ := hmoves.issued.effect hexec
  have htends := heff.tends
  refine ⟨h.attributed.step heff, ?_, ?_, h.live_tends htends,
    fun e he => (h.old heff (hexecs ▸ he)).1, fun e he => (h.old heff (hexecs ▸ he)).2,
    fun b hb hgone htended => ?_⟩
  · obtain ⟨hi, rfl⟩ := List.getElem?_eq_some_iff.mp he
    change sys.attempts.map Execution.row = sys.world.execs
    rw [hattempts, List.map_set, hmoves.row, hexecs, ← h.rows, ← List.map_set,
      List.set_getElem_self]
  · exact fun x hx => (htends.seen h.seen x hx).trans heff.clock_le
  · have hb : b ∈ s.sys.attempts.set i e' := hattempts ▸ hb
    rcases Lists.mem_set_cases hb with rfl | ⟨j, hj, -⟩
    · exact hmoves.row ▸ Execution.move_gone howned hm hmove hgone
    · exact h.gone_step heff (List.mem_of_getElem? hj) hgone htended

theorem tends (h : Accounted s) {worker : Serial WorkerRow.id}
    (ht : Tends s.sys.world.clock s.sys.world.db { s.sys.world.db with worker }) :
    Accounted (s.withDb { s.sys.world.db with worker }) where
  attributed := h.attributed.withWorker worker
  rows := h.rows
  seen := ht.seen h.seen
  live := h.live_tends ht
  claimer := fun e he =>
    (h.claimer e he).imp fun _ hwid => ⟨hwid.1, hwid.2.trans_le ht.next_le⟩
  registered := by
    intro e he howns
    obtain ⟨x, hx, hclaimed⟩ := h.registered e he howns
    obtain ⟨x', hx', hid, -⟩ := ht.kept x hx (h.seen x hx)
    exact ⟨x', hx', hid ▸ hclaimed⟩
  gone := h.gone

theorem withLive (h : Accounted s) {live : List Nat} {beaten : Nat → Int}
    (hlive : ∀ wid ∈ live, ∃ x ∈ s.sys.world.db.worker, x.id = wid ∧ beaten wid ≤ x.lastSeen)
    (hold : ∀ e ∈ s.sys.world.execs, ∀ wid ∈ live, e.claimedBy = some wid → wid ∈ s.live) :
    Accounted { s with live, beaten } where
  attributed := h.attributed
  rows := h.rows
  seen := h.seen
  live := hlive
  claimer := h.claimer
  registered := h.registered
  gone := by
    intro e he hgone htended
    simp only [Site.tended, Option.any_eq_true, decide_eq_true_eq] at htended
    obtain ⟨wid, hclaimed, hwid⟩ := htended
    refine h.gone e he hgone ?_
    have := hold e.row (h.owned he).1 wid hwid hclaimed
    simp [Site.tended, hclaimed, this]

theorem join (h : Accounted s) {args : ClaimArgs}
    (hstep : s.step prog (.join args) = some s') : Accounted s' := by
  cases hstep
  have ht : Tends s.sys.world.clock s.sys.world.db
      (s.sys.world.db.registerWorker s.sys.world.clock args) := .register args rfl
  refine (h.tends ht).withLive (fun wid hwid => ?_) fun e he wid hwid hclaimed => ?_
  · rcases List.mem_cons.mp hwid with rfl | hwid
    · exact ⟨_, (Serial.mem_insert (h := fun _ => rfl)).mpr (.inr rfl), rfl, by simp⟩
    · have hne : wid ≠ s.sys.world.db.worker.next := (h.lt_next_of_live hwid).ne
      rw [Function.update_of_ne hne]
      exact (h.tends ht).live wid hwid
  · obtain ⟨wid', hwid', hlt⟩ := h.claimer e he
    obtain rfl := Option.some.inj (hclaimed.symm.trans hwid')
    exact (List.mem_cons.mp hwid).resolve_left hlt.ne

theorem registry (h : Accounted s) {wid : Nat} {stmt : RegistryStmt}
    (hstep : s.step prog (.registry wid stmt) = some s') : Accounted s' := by
  simp only [Site.step] at hstep
  split at hstep
  · rename_i hlive
    cases hstep
    have ht : Tends s.sys.world.clock s.sys.world.db
        (s.sys.world.db.registry s.sys.world.clock wid stmt) := Tends.registry wid stmt
    refine (h.tends ht).withLive (fun wid' hwid' => ?_) fun _ _ _ hwid' _ => hwid'
    cases stmt with
    | heartbeat =>
      by_cases heq : wid' = wid
      · subst heq
        obtain ⟨x, hx, hid⟩ := h.mem_of_live hwid'
        refine ⟨{ x with lastSeen := s.sys.world.clock }, ?_, hid, by simp⟩
        exact Serial.mem_update.mpr ⟨x, hx, by simp [hid, RegistryStmt.set]⟩
      · have hsame : Function.update s.beaten wid s.sys.world.clock wid' = s.beaten wid' :=
          Function.update_of_ne heq _ _
        obtain ⟨x, hx, hid, hbeaten⟩ := (h.tends ht).live wid' hwid'
        exact ⟨x, hx, hid, hsame.trans_le hbeaten⟩
    | _ => exact (h.tends ht).live wid' hwid'
  · cases hstep

theorem die (h : Accounted s) (wid : Nat) : Accounted (s.die wid) where
  attributed := h.attributed
  rows := by
    refine Eq.trans ?_ h.rows
    simp only [Site.die, List.map_map]
    refine List.map_congr_left fun e _ => ?_
    simp only [Function.comp]
    split <;> rfl
  seen := h.seen
  live := fun wid' hwid' => h.live wid' (List.mem_filter.mp hwid').1
  claimer := h.claimer
  registered := h.registered
  gone := by
    intro e he hgone htended
    obtain ⟨b, hb, rfl⟩ := List.mem_map.mp he
    have hrow : (if b.row.claimedBy = some wid then b.leave else b).row = b.row := by split <;> rfl
    simp only [Site.tended, hrow, Option.any_eq_true, decide_eq_true_eq] at htended
    obtain ⟨wid', hclaimed, hwid'⟩ := htended
    obtain ⟨hlive, hne⟩ := List.mem_filter.mp hwid'
    have hother : b.row.claimedBy ≠ some wid := by
      intro heq
      have : wid' = wid := Option.some.inj (hclaimed.symm.trans heq)
      simp [this] at hne
    rw [if_neg hother] at hgone
    rw [hrow]
    exact h.gone b hb hgone (by simp [Site.tended, hclaimed, hlive])

theorem sweepRetired (h : Accounted s) {retention : Int} {batch : List Nat}
    (hbeats : ∀ wid ∈ s.live, s.sys.world.clock - retention ≤ s.beaten wid) :
    Accounted (s.withDb
      (s.sys.world.db.sweepRetiredWorkers s.sys.world.clock retention batch)) where
  attributed := h.attributed.withWorker _
  rows := h.rows
  seen := fun x hx => h.seen x (Serial.mem_delete.mp hx).1
  live := by
    intro wid hwid
    obtain ⟨x, hx, rfl, hbeaten⟩ := h.live wid hwid
    have hfresh := hbeats x.id hwid
    refine ⟨x, Serial.mem_delete.mpr ⟨hx, ?_⟩, rfl, hbeaten⟩
    have : ¬x.lastSeen < s.sys.world.clock - retention := by omega
    simp [WorkerRow.expired, this]
  claimer := h.claimer
  registered := by
    intro e he howns
    obtain ⟨x, hx, hclaimed⟩ := h.registered e he howns
    obtain ⟨r, hr, hid, hepoch⟩ := World.owns_iff.mp howns
    have hheld : r.heldBy e := Jorb.heldBy_iff.mpr ⟨hid.symm, hepoch.symm⟩
    have hflight := (h.attributed.fenced.owned e he).flight r hr hheld
    have hrow : r.claimedBy = some x.id := (h.attributed.claimer e he r hr hheld).trans hclaimed
    have howner : s.sys.world.db.ownsInFlight x.id :=
      List.any_eq_true.mpr ⟨r, hr, by simp [hrow, hflight]⟩
    exact ⟨x, Serial.mem_delete.mpr ⟨hx, by simp [howner]⟩, hclaimed⟩
  gone := h.gone

def Beats (s : Site κ) : SiteAct → Prop
  | .sweepRetired retention _ => ∀ wid ∈ s.live, s.sys.world.clock - retention ≤ s.beaten wid
  | _ => True

theorem step (h : Accounted s) {a : SiteAct} (hbeats : Beats s a)
    (hstep : s.step prog a = some s') : Accounted s' := by
  cases a with
  | statement a => exact h.statement hstep
  | move i m => exact h.move hstep
  | join args => exact h.join hstep
  | registry wid stmt => exact h.registry hstep
  | die wid =>
    cases hstep
    exact h.die wid
  | retire grace =>
    cases hstep
    exact h.tends (.retire grace)
  | sweepRetired retention batch =>
    cases hstep
    exact h.sweepRetired hbeats

theorem orphan (h : Accounted s) {r : Jorb} (hr : r ∈ s.sys.world.db.jorb) (hflight : r.inFlight)
    (hnot : ¬s.Executes r) :
    r.state = .claimed ∨ ∃ x ∈ s.sys.world.db.worker, r.claimedBy = some x.id ∧ x.id ∉ s.live := by
  refine (Jorb.inFlight_iff.mp hflight).imp_right fun hrun => ?_
  obtain ⟨e, he, hheld⟩ := h.attributed.running r hr hrun
  obtain ⟨hid, hepoch⟩ := Jorb.heldBy_iff.mp hheld
  have howns : s.sys.world.owns e := World.owns_iff.mpr ⟨r, hr, hid.symm, hepoch.symm⟩
  obtain ⟨x, hx, hclaimed⟩ := h.registered e he howns
  refine ⟨x, hx, (h.attributed.claimer e he r hr hheld).trans hclaimed, fun hlive => hnot ?_⟩
  obtain ⟨b, hb, rfl⟩ := List.mem_map.mp (h.rows ▸ he)
  have htended : s.tended b := by simp [Site.tended, hclaimed, hlive]
  refine ⟨b, hb, hheld, htended, Bool.eq_false_iff.mpr fun hgone => ?_⟩
  simp [h.gone b hb hgone htended] at howns

end Accounted

namespace Site

variable {κ : Type} {prog : Jorb → Program κ} {s s' : Site κ}

/-- What time and the heartbeats of the living leave as it was. -/
structure Rests (s s' : Site κ) : Prop where
  clock : s.sys.world.clock ≤ s'.sys.world.clock
  live : s'.live = s.live
  jorb : s'.sys.world.db.jorb = s.sys.world.db.jorb
  dead : ∀ x ∈ s.sys.world.db.worker, x.id ∉ s.live → x ∈ s'.sys.world.db.worker

theorem Rests.step {t : Site κ} (h : Rests s t) {a : SiteAct} (ha : idle a)
    (hstep : t.step prog a = some s') : Rests s s' := by
  cases a with
  | statement a =>
    cases a with
    | tick d =>
      obtain ⟨-, sys, hsys, rfl⟩ := step_statement hstep
      have hworld := Option.some.inj (Sys.advance_env hsys).1
      have hjorb : sys.world.db.jorb = t.sys.world.db.jorb := by rw [← hworld]
      have hworker : sys.world.db.worker = t.sys.world.db.worker := by rw [← hworld]
      have hclock : sys.world.clock = t.sys.world.clock + d := by rw [← hworld]
      refine ⟨?_, h.live, hjorb.trans h.jorb, fun x hx hdead => ?_⟩
      · have := h.clock
        change s.sys.world.clock ≤ sys.world.clock
        omega
      · change x ∈ sys.world.db.worker
        exact hworker ▸ h.dead x hx hdead
    | _ => cases ha
  | registry wid stmt =>
    cases stmt with
    | heartbeat =>
      simp only [Site.step] at hstep
      split at hstep
      · rename_i hlive
        cases hstep
        refine ⟨h.clock, h.live, h.jorb, fun x hx hdead => ?_⟩
        have hne : x.id ≠ wid := fun heq => hdead (h.live ▸ heq ▸ hlive)
        exact Serial.mem_update.mpr ⟨x, h.dead x hx hdead, by simp [hne]⟩
      · cases hstep
    | _ => cases ha
  | _ => cases ha

end Site

abbrev SiteRun {κ : Type} (prog : Jorb → Program κ) := Run (Site.step prog)

namespace SiteRun

variable {κ : Type} {prog : Jorb → Program κ}

/-- From an empty database, and the retention sweep never finds a live worker
whose heartbeats have failed for its whole window. -/
structure Kept (ρ : SiteRun prog) : Prop where
  init : ∃ clock queue, ρ.state 0 = .init clock queue
  beats : ∀ n < ρ.length, Accounted.Beats (ρ.state n) (ρ.act n)

/-- A registered worker dies while it runs a job without a deadline. -/
def abandonedActs : List SiteAct :=
  [.join (.plain "q"), .statement (.enqueue (.plain "q"))] ++
    (Act.claim 0 { ClaimArgs.plain "q" with workerId := some 1 }).map .statement ++
    [.move 0 .load, .move 0 (.start none true), .die 1, .retire 0, .statement (.tick 400)]

def abandonedRun : SiteRun fun _ => FleetRun.emptyProgram :=
  .ofList (.init 0 fun _ => none) abandonedActs (by decide)

end SiteRun

end Pyjobby
