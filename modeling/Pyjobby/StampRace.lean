import Pyjobby.DagStamp

/-! The completion trigger at the granularity of its locks. Any number of
transactions each change one job and run the trigger's statements, every one in a
snapshot of its own; what they write shows when they commit. -/

namespace Pyjobby

open Relational Transition

/-- How far a transaction has come. `new` is its version of the row it updated,
`d` the graph its trigger looks at, `completed` its version of that graph's stamp. -/
inductive StampPhase where
  | begun
  | updated (new : Jorb) (d : Nat)
  | locked (new : Jorb) (d : Nat)
  | counted (new : Jorb) (d pending : Nat)
  | stamped (new : Jorb) (d : Nat) (completed : Option Int)
  | unfired (new : Jorb)
  | unmatched

/-- A transaction that updates one job; `now` is the moment it began. -/
structure StampTx where
  session : Nat
  member : Nat
  update : Update
  now : Int
  phase : StampPhase

namespace StampTx

/-- Its version of the row it has updated, whose lock it holds. -/
def writes (t : StampTx) : Option Jorb :=
  match t.phase with
  | .updated new _ | .locked new _ | .counted new _ _ | .stamped new _ _ | .unfired new => some new
  | .begun | .unmatched => none

/-- The graph whose row it holds locked. -/
def dagLock (t : StampTx) : Option Nat :=
  match t.phase with
  | .locked _ d | .counted _ d _ | .stamped _ d _ => some d
  | _ => none

end StampTx

/-- What is committed, and the transactions under way. -/
structure StampRace where
  db : Db
  dagId : DagIds
  dags : Serial DagRow.id
  clock : Int
  txs : Table StampTx.session

inductive StampAct where
  | tick (d : Nat)
  | begin (session member : Nat) (u : Update)
  | update (session : Nat)
  | lock (session : Nat)
  | count (session : Nat)
  | stamp (session : Nat)
  | commit (session : Nat)
  | abort (session : Nat)

instance : Inhabited StampAct := ⟨.tick 0⟩

/-- The table as the writer of a row sees it. -/
def overlay (jobs : Serial Jorb.id) (new : Jorb) : Serial Jorb.id :=
  jobs.update (fun r => r.id = new.id) ⟨fun r => { new with id := r.id }, fun _ => rfl⟩

/-- The stamp after `UPDATE jorb_dag SET completed = ..`. -/
def stampAfter (now : Int) (pending : Nat) (completed : Option Int) : Option Int :=
  if pending = 0 then some (completed.getD now) else none

namespace StampRace

def init (db : Db) (dagId : DagIds) (dags : Serial DagRow.id) (clock : Int) : StampRace :=
  ⟨db, dagId, dags, clock, .empty⟩

def rowLocked (s : StampRace) (i : Nat) : Bool :=
  s.txs.rows.any fun t => t.writes.any fun new => new.id = i

def dagLocked (s : StampRace) (d : Nat) : Bool := s.txs.rows.any fun t => t.dagLock = some d

def setPhase (s : StampRace) (t : StampTx) (phase : StampPhase) : StampRace :=
  { s with txs := s.txs.put { t with phase } }

def close (s : StampRace) (session : Nat) : StampRace :=
  { s with txs := s.txs.delete fun t => t.session = session }

/-- The UPDATE. It waits for the lock of a row it matches, and matches it again then. -/
def update (s : StampRace) (t : StampTx) : Option StampRace :=
  match (s.db.jorb.find? t.member).filter fun r => t.update.cond s.db r with
  | none => some (s.setPhase t .unmatched)
  | some old =>
    if s.rowLocked old.id then none
    else
      let new := t.update.set.set old
      match (if old.state.crosses new.state then s.dagId new.id else none) with
      | none => some (s.setPhase t (.unfired new))
      | some d => some (s.setPhase t (.updated new d))

/-- `PERFORM 1 FROM jorb_dag .. FOR NO KEY UPDATE`. -/
def lock (s : StampRace) (t : StampTx) : Option StampRace :=
  match t.phase with
  | .updated new d => if s.dagLocked d then none else some (s.setPhase t (.locked new d))
  | _ => none

/-- `SELECT count(*) INTO pending`, in a snapshot taken now. -/
def count (s : StampRace) (t : StampTx) : Option StampRace :=
  match t.phase with
  | .locked new d =>
    some (s.setPhase t (.counted new d (pendingMembers (overlay s.db.jorb new) s.dagId d)))
  | _ => none

def stamp (s : StampRace) (t : StampTx) : Option StampRace :=
  match t.phase with
  | .counted new d pending =>
    let completed := stampAfter t.now pending ((s.dags.find? d).bind DagRow.completed)
    some (s.setPhase t (.stamped new d completed))
  | _ => none

def write (s : StampRace) (new : Jorb) : StampRace :=
  { s with db := { s.db with jorb := overlay s.db.jorb new } }

def commit (s : StampRace) (t : StampTx) : Option StampRace :=
  match t.phase with
  | .unmatched => some (s.close t.session)
  | .unfired new => some ((s.close t.session).write new)
  | .stamped new d completed =>
    some { (s.close t.session).write new with
      dags := s.dags.update (fun r => r.id = d) ⟨fun r => { r with completed }, fun _ => rfl⟩ }
  | _ => none

def step (s : StampRace) : StampAct → Option StampRace
  | .tick d => some { s with clock := s.clock + d }
  | .begin session member u =>
    if (s.txs.find? session).isNone then
      some { s with txs := s.txs.put ⟨session, member, u, s.clock, .begun⟩ }
    else none
  | .update session =>
    (s.txs.find? session).bind fun t =>
      match t.phase with
      | .begun => s.update t
      | _ => none
  | .lock session => (s.txs.find? session).bind s.lock
  | .count session => (s.txs.find? session).bind s.count
  | .stamp session => (s.txs.find? session).bind s.stamp
  | .commit session => (s.txs.find? session).bind s.commit
  | .abort session => some (s.close session)

/-- Every stamp says whether all members have ended. -/
def Right (s : StampRace) : Prop :=
  ∀ d ∈ s.dags, d.completed.isSome ↔ ∀ j, IsMember s.db.jorb s.dagId d.id j → j.state.terminal

end StampRace

abbrev StampRun := Run StampRace.step

section Overlay

variable {jobs : Serial Jorb.id} {new : Jorb}

theorem mem_overlay {r : Jorb} :
    r ∈ overlay jobs new ↔ r ∈ jobs ∧ r.id ≠ new.id ∨ r = new ∧ ∃ old ∈ jobs, old.id = new.id := by
  constructor
  · intro h
    obtain ⟨old, hold, rfl⟩ := Serial.mem_update.mp h
    by_cases hid : old.id = new.id
    · exact .inr ⟨by simp [hid], old, hold, hid⟩
    · exact .inl (by simp [hid, hold])
  · rintro (⟨hr, hid⟩ | ⟨rfl, old, hold, hid⟩)
    · exact Serial.mem_update.mpr ⟨r, hr, by simp [hid]⟩
    · exact Serial.mem_update.mpr ⟨old, hold, by simp [hid]⟩

theorem overlay_comm {a b : Jorb} (h : a.id ≠ b.id) (r : Jorb) :
    r ∈ overlay (overlay jobs a) b ↔ r ∈ overlay (overlay jobs b) a := by
  simp only [mem_overlay]
  grind

end Overlay

/-- Every member has ended. -/
def AllEnded (jobs : Serial Jorb.id) (dagId : DagIds) (d : Nat) : Prop :=
  ∀ j, IsMember jobs dagId d j → j.state.terminal

theorem AllEnded.congr {jobs jobs' : Serial Jorb.id} {dagId : DagIds} {d : Nat}
    (h : ∀ r, r ∈ jobs ↔ r ∈ jobs') : AllEnded jobs dagId d ↔ AllEnded jobs' dagId d := by
  simp only [AllEnded, IsMember, h]

/-- A row that does not end or come back, or is of another graph, changes nothing. -/
theorem allEnded_overlay {jobs : Serial Jorb.id} {dagId : DagIds} {d : Nat} {old new : Jorb}
    (hold : old ∈ jobs) (hid : old.id = new.id)
    (hsame : dagId new.id = some d → new.state.terminal = old.state.terminal) :
    AllEnded (overlay jobs new) dagId d ↔ AllEnded jobs dagId d := by
  constructor
  · rintro h j ⟨hj, hdag⟩
    by_cases hne : j.id = new.id
    · obtain rfl := Serial.eq_of_ident hj hold (hne.trans hid.symm)
      have hnew := h new ⟨mem_overlay.mpr (.inr ⟨rfl, j, hj, hne⟩), hne ▸ hdag⟩
      rwa [hsame (hne ▸ hdag)] at hnew
    · exact h j ⟨mem_overlay.mpr (.inl ⟨hj, hne⟩), hdag⟩
  · rintro h j ⟨hj, hdag⟩
    rcases mem_overlay.mp hj with ⟨hj, -⟩ | ⟨rfl, -⟩
    · exact h j ⟨hj, hdag⟩
    · rw [hsame hdag]
      exact h old ⟨hold, hid ▸ hdag⟩

namespace StampTx

/-- What a transaction has found, in terms of what is committed now: the row it
updated stays as it was, and once it has the lock of the graph so does the rest. -/
inductive Sound (jobs : Serial Jorb.id) (dagId : DagIds) : StampPhase → Prop where
  | begun : Sound jobs dagId .begun
  | unmatched : Sound jobs dagId .unmatched
  | unfired {old new : Jorb} (mem : old ∈ jobs) (id : old.id = new.id)
      (same : ∀ d, dagId new.id = some d → new.state.terminal = old.state.terminal) :
      Sound jobs dagId (.unfired new)
  | updated {old new : Jorb} {d : Nat} (mem : old ∈ jobs) (id : old.id = new.id)
      (dag : dagId new.id = some d) : Sound jobs dagId (.updated new d)
  | locked {old new : Jorb} {d : Nat} (mem : old ∈ jobs) (id : old.id = new.id)
      (dag : dagId new.id = some d) : Sound jobs dagId (.locked new d)
  | counted {old new : Jorb} {d pending : Nat} (mem : old ∈ jobs) (id : old.id = new.id)
      (dag : dagId new.id = some d) (all : pending = 0 ↔ AllEnded (overlay jobs new) dagId d) :
      Sound jobs dagId (.counted new d pending)
  | stamped {old new : Jorb} {d : Nat} {completed : Option Int} (mem : old ∈ jobs)
      (id : old.id = new.id) (dag : dagId new.id = some d)
      (all : completed.isSome ↔ AllEnded (overlay jobs new) dagId d) :
      Sound jobs dagId (.stamped new d completed)

end StampTx

namespace StampRace

structure Stamping (s : StampRace) : Prop where
  right : s.Right
  row : ∀ t ∈ s.txs, ∀ u ∈ s.txs, ∀ a b, t.writes = some a → u.writes = some b → a.id = b.id →
    t = u
  dag : ∀ t ∈ s.txs, ∀ u ∈ s.txs, ∀ d, t.dagLock = some d → u.dagLock = some d → t = u
  sound : ∀ t ∈ s.txs, StampTx.Sound s.db.jorb s.dagId t.phase

variable {s s' : StampRace}

theorem rowLocked_eq_false {i : Nat} :
    s.rowLocked i = false ↔ ∀ t ∈ s.txs, ∀ new, t.writes = some new → new.id ≠ i := by
  simp only [rowLocked, List.any_eq_false, Table.mem_rows]
  exact forall₂_congr fun t _ => by cases t.writes <;> simp

theorem dagLocked_eq_false {d : Nat} :
    s.dagLocked d = false ↔ ∀ t ∈ s.txs, t.dagLock ≠ some d := by
  simp [dagLocked, Table.mem_rows]

namespace Stamping

theorem init {db : Db} {dagId : DagIds} {dags : Serial DagRow.id} (clock : Int)
    (h : (StampRace.init db dagId dags clock).Right) :
    (StampRace.init db dagId dags clock).Stamping :=
  ⟨h, by simp [StampRace.init], by simp [StampRace.init], by simp [StampRace.init]⟩

/-- A transaction goes on: what it locks it held already, or nobody does. -/
theorem put (h : s.Stamping) (t : StampTx) (hsound : StampTx.Sound s.db.jorb s.dagId t.phase)
    (hrow : ∀ u ∈ s.txs, u.session ≠ t.session → ∀ a b, t.writes = some a → u.writes = some b →
      a.id ≠ b.id)
    (hdag : ∀ u ∈ s.txs, u.session ≠ t.session → ∀ d, t.dagLock = some d → u.dagLock ≠ some d) :
    ({ s with txs := s.txs.put t } : StampRace).Stamping where
  right := h.right
  row := by
    intro u hu v hv a b ha hb hab
    rcases Table.mem_put.mp hu with rfl | ⟨hu', hus⟩ <;>
      rcases Table.mem_put.mp hv with rfl | ⟨hv', hvs⟩
    · rfl
    · exact absurd hab (hrow v hv' hvs a b ha hb)
    · exact absurd hab.symm (hrow u hu' hus b a hb ha)
    · exact h.row u hu' v hv' a b ha hb hab
  dag := by
    intro u hu v hv d hud hvd
    rcases Table.mem_put.mp hu with rfl | ⟨hu', hus⟩ <;>
      rcases Table.mem_put.mp hv with rfl | ⟨hv', hvs⟩
    · rfl
    · exact absurd hvd (hdag v hv' hvs d hud)
    · exact absurd hud (hdag u hu' hus d hvd)
    · exact h.dag u hu' v hv' d hud hvd
  sound := by
    intro u hu
    rcases Table.mem_put.mp hu with rfl | ⟨hu, -⟩
    · exact hsound
    · exact h.sound u hu

theorem setPhase (h : s.Stamping) {t : StampTx} (ht : t ∈ s.txs) {phase : StampPhase}
    (hsound : StampTx.Sound s.db.jorb s.dagId phase)
    (hrow : ∀ a, ({ t with phase } : StampTx).writes = some a →
      t.writes = some a ∨ s.rowLocked a.id = false)
    (hdag : ∀ d, ({ t with phase } : StampTx).dagLock = some d →
      t.dagLock = some d ∨ s.dagLocked d = false) : (s.setPhase t phase).Stamping := by
  refine h.put { t with phase } hsound (fun u hu hne a b ha hb hab => ?_)
    fun u hu hne d hd hud => ?_
  · rcases hrow a ha with hheld | hfree
    · exact hne (congrArg StampTx.session (h.row t ht u hu a b hheld hb hab)).symm
    · exact rowLocked_eq_false.mp hfree u hu b hb hab.symm
  · rcases hdag d hd with hheld | hfree
    · exact hne (congrArg StampTx.session (h.dag t ht u hu d hheld hud)).symm
    · exact dagLocked_eq_false.mp hfree u hu hud

theorem close (h : s.Stamping) (session : Nat) : (s.close session).Stamping where
  right := h.right
  row t ht u hu := h.row t (Table.mem_delete.mp ht).1 u (Table.mem_delete.mp hu).1
  dag t ht u hu := h.dag t (Table.mem_delete.mp ht).1 u (Table.mem_delete.mp hu).1
  sound t ht := h.sound t (Table.mem_delete.mp ht).1

theorem update (h : s.Stamping) {t : StampTx} (ht : t ∈ s.txs)
    (hs : s.update t = some s') : s'.Stamping := by
  unfold StampRace.update at hs
  split at hs
  · cases hs
    exact h.setPhase ht .unmatched (fun a ha => by cases ha) fun d hd => by cases hd
  · rename_i old hold
    obtain ⟨hfind, -⟩ := Option.filter_eq_some_iff.mp hold
    obtain ⟨hmem, -⟩ := Serial.find?_eq_some.mp hfind
    have hid : old.id = (t.update.set.set old).id := (t.update.set.key_set old).symm
    split at hs
    · cases hs
    · rename_i hfree
      rw [Bool.not_eq_true] at hfree
      dsimp only at hs
      split at hs
      · rename_i hnone
        cases hs
        refine h.setPhase ht (.unfired hmem hid fun d hd => ?_)
          (fun a ha => .inr (Option.some.inj ha ▸ hid ▸ hfree)) fun d hd => by cases hd
        refine JorbState.crosses_eq_false (Bool.eq_false_iff.mpr fun hcross => ?_)
        simp [hcross, hd] at hnone
      · rename_i d hsome
        cases hs
        refine h.setPhase ht (.updated hmem hid ?_)
          (fun a ha => .inr (Option.some.inj ha ▸ hid ▸ hfree)) fun d hd => by cases hd
        split at hsome
        · exact hsome
        · cases hsome

theorem lock (h : s.Stamping) {t : StampTx} (ht : t ∈ s.txs) (hs : s.lock t = some s') :
    s'.Stamping := by
  unfold StampRace.lock at hs
  split at hs
  · rename_i new d hphase
    split at hs
    · cases hs
    · rename_i hfree
      cases hs
      have hsound := h.sound t ht
      rw [hphase] at hsound
      cases hsound with
      | updated mem id dag =>
        refine h.setPhase ht (.locked mem id dag) (fun a ha => .inl ?_)
          fun e he => .inr (Option.some.inj he ▸ Bool.not_eq_true _ ▸ hfree)
        rw [← ha]
        simp [StampTx.writes, hphase]
  · cases hs

theorem count (h : s.Stamping) {t : StampTx} (ht : t ∈ s.txs) (hs : s.count t = some s') :
    s'.Stamping := by
  unfold StampRace.count at hs
  split at hs
  · rename_i new d hphase
    cases hs
    have hsound := h.sound t ht
    rw [hphase] at hsound
    cases hsound with
    | locked mem id dag =>
      refine h.setPhase ht (.counted mem id dag pendingMembers_eq_zero)
        (fun a ha => .inl ?_) fun e he => .inl ?_
      · simpa [StampTx.writes, hphase] using ha
      · simpa [StampTx.dagLock, hphase] using he
  · cases hs

theorem stamp (h : s.Stamping) {t : StampTx} (ht : t ∈ s.txs) (hs : s.stamp t = some s') :
    s'.Stamping := by
  unfold StampRace.stamp at hs
  split at hs
  · rename_i new d pending hphase
    cases hs
    have hsound := h.sound t ht
    rw [hphase] at hsound
    cases hsound with
    | counted mem id dag all =>
      refine h.setPhase ht (.stamped mem id dag ?_) (fun a ha => .inl ?_) fun e he => .inl ?_
      · rw [← all]
        by_cases hp : pending = 0 <;> simp [stampAfter, hp]
      · simpa [StampTx.writes, hphase] using ha
      · simpa [StampTx.dagLock, hphase] using he
  · cases hs

end Stamping

end StampRace

/-- A commit does not disturb what another transaction has found: it is of another
row, and of another graph or without a change for it. -/
theorem StampTx.Sound.write {jobs : Serial Jorb.id} {dagId : DagIds} {u : StampTx} {old new : Jorb}
    (h : Sound jobs dagId u.phase) (hold : old ∈ jobs) (hid : old.id = new.id)
    (hne : ∀ b, u.writes = some b → new.id ≠ b.id)
    (hsame : ∀ d, u.dagLock = some d → dagId new.id = some d →
      new.state.terminal = old.state.terminal) :
    Sound (overlay jobs new) dagId u.phase := by
  have hkeep {o b : Jorb} (hb : u.writes = some b) (ho : o ∈ jobs) (hob : o.id = b.id) :
      o ∈ overlay jobs new :=
    mem_overlay.mpr (.inl ⟨ho, fun h => hne b hb (h.symm.trans hob)⟩)
  have hall {b : Jorb} {d : Nat} (hb : u.writes = some b) (hd : u.dagLock = some d) :
      AllEnded (overlay (overlay jobs new) b) dagId d ↔ AllEnded (overlay jobs b) dagId d :=
    (AllEnded.congr (overlay_comm (hne b hb))).trans
      (allEnded_overlay (mem_overlay.mpr (.inl ⟨hold, hid ▸ hne b hb⟩)) hid (hsame d hd))
  cases hphase : u.phase with
  | begun => exact .begun
  | unmatched => exact .unmatched
  | unfired b =>
    rw [hphase] at h
    cases h with
    | unfired mem id same =>
      exact .unfired (hkeep (by simp [StampTx.writes, hphase]) mem id) id same
  | updated b d =>
    rw [hphase] at h
    cases h with
    | updated mem id dag => exact .updated (hkeep (by simp [StampTx.writes, hphase]) mem id) id dag
  | locked b d =>
    rw [hphase] at h
    cases h with
    | locked mem id dag => exact .locked (hkeep (by simp [StampTx.writes, hphase]) mem id) id dag
  | counted b d pending =>
    rw [hphase] at h
    have hb : u.writes = some b := by simp [StampTx.writes, hphase]
    cases h with
    | counted mem id dag all =>
      exact .counted (hkeep hb mem id) id dag
        (all.trans (hall hb (by simp [StampTx.dagLock, hphase])).symm)
  | stamped b d completed =>
    rw [hphase] at h
    have hb : u.writes = some b := by simp [StampTx.writes, hphase]
    cases h with
    | stamped mem id dag all =>
      exact .stamped (hkeep hb mem id) id dag
        (all.trans (hall hb (by simp [StampTx.dagLock, hphase])).symm)

namespace StampRace.Stamping

variable {s s' : StampRace}

theorem write (h : s.Stamping) {t : StampTx} (ht : t ∈ s.txs) {old new : Jorb}
    (hnew : t.writes = some new) (hold : old ∈ s.db.jorb) (hid : old.id = new.id)
    (hsame : ∀ u ∈ s.txs, u.session ≠ t.session → ∀ d, u.dagLock = some d →
      s.dagId new.id = some d → new.state.terminal = old.state.terminal)
    {dags : Serial DagRow.id}
    (hright : ({ (s.close t.session).write new with dags } : StampRace).Right) :
    ({ (s.close t.session).write new with dags } : StampRace).Stamping where
  right := hright
  row := (h.close t.session).row
  dag := (h.close t.session).dag
  sound u hu := by
    obtain ⟨hu, hne⟩ := Table.mem_delete.mp hu
    have hne : u.session ≠ t.session := by simpa using hne
    refine (h.sound u hu).write hold hid (fun b hb hab => ?_) fun d hd => hsame u hu hne d hd
    exact hne (congrArg StampTx.session (h.row t ht u hu new b hnew hb hab)).symm

theorem commit (h : s.Stamping) {t : StampTx} (ht : t ∈ s.txs) (hs : s.commit t = some s') :
    s'.Stamping := by
  have hsound := h.sound t ht
  unfold StampRace.commit at hs
  split at hs
  · cases hs
    exact h.close t.session
  · rename_i new hphase
    cases hs
    rw [hphase] at hsound
    cases hsound with
    | unfired mem id same =>
      refine h.write ht (by simp [StampTx.writes, hphase]) mem id
        (fun _ _ _ d _ hd => same d hd) fun d hd => ?_
      exact (h.right d hd).trans (allEnded_overlay mem id fun hdag => same d.id hdag).symm
  · rename_i new d completed hphase
    cases hs
    rw [hphase] at hsound
    cases hsound with
    | stamped mem id dag all =>
      refine h.write ht (by simp [StampTx.writes, hphase]) mem id (fun u hu hne e he hdag => ?_)
        fun r' hr' => ?_
      · -- the lock of the graph is this transaction's alone
        obtain rfl : d = e := Option.some.inj (dag.symm.trans hdag)
        have hlock : t.dagLock = some d := by simp [StampTx.dagLock, hphase]
        exact absurd (congrArg StampTx.session (h.dag t ht u hu d hlock he)).symm hne
      · obtain ⟨r, hr, rfl⟩ := Serial.mem_update.mp hr'
        by_cases hrd : r.id = d
        · simp only [hrd, decide_true, if_true]
          exact all
        · simp only [hrd, decide_false, Bool.false_eq_true, if_false]
          refine (h.right r hr).trans (allEnded_overlay mem id fun hdag => ?_).symm
          exact absurd (Option.some.inj (hdag.symm.trans dag)) hrd
  · cases hs

theorem step (h : s.Stamping) {a : StampAct} (hs : s.step a = some s') : s'.Stamping := by
  cases a with
  | tick d =>
    cases hs
    exact ⟨h.right, h.row, h.dag, h.sound⟩
  | begin session member u =>
    simp only [StampRace.step] at hs
    split at hs
    · cases hs
      exact h.put ⟨session, member, u, s.clock, .begun⟩ .begun
        (fun _ _ _ a _ ha => by cases ha) fun _ _ _ d hd => by cases hd
    · cases hs
  | update session =>
    obtain ⟨t, ht, hs⟩ := Option.bind_eq_some_iff.mp hs
    split at hs
    · exact h.update (Table.find?_eq_some.mp ht).1 hs
    · cases hs
  | lock session =>
    obtain ⟨t, ht, hs⟩ := Option.bind_eq_some_iff.mp hs
    exact h.lock (Table.find?_eq_some.mp ht).1 hs
  | count session =>
    obtain ⟨t, ht, hs⟩ := Option.bind_eq_some_iff.mp hs
    exact h.count (Table.find?_eq_some.mp ht).1 hs
  | stamp session =>
    obtain ⟨t, ht, hs⟩ := Option.bind_eq_some_iff.mp hs
    exact h.stamp (Table.find?_eq_some.mp ht).1 hs
  | commit session =>
    obtain ⟨t, ht, hs⟩ := Option.bind_eq_some_iff.mp hs
    exact h.commit (Table.find?_eq_some.mp ht).1 hs
  | abort session =>
    cases hs
    exact h.close session

end StampRace.Stamping

/-- From right stamps, whatever the order in which the transactions' statements,
commits and aborts come, the stamps are right in every state, those in which all have
ended among them. -/
theorem concurrent_stamp_right (ρ : StampRun)
    (hρ : ∃ db dagId dags clock, ρ.state 0 = .init db dagId dags clock) (h0 : (ρ.state 0).Right) :
    ∀ n ≤ ρ.length, (ρ.state n).Right := by
  obtain ⟨db, dagId, dags, clock, hinit⟩ := hρ
  rw [hinit] at h0
  exact fun n hn => (ρ.invariant (P := StampRace.Stamping) (hinit ▸ .init clock h0)
    (fun h hs => h.step hs) n hn).right

/-- Both jobs of a graph are running. -/
def bothActs : List Act :=
  Act.claim 0 (.plain "q") ++ [.worker 0 (.run none)] ++ Act.claim 1 (.plain "q") ++
    [.worker 1 (.run none)]

def bothRunning : DagRun :=
  .ofList (.init .empty 0 fun _ => none) (.execute .pair .asListed none :: bothActs.map .world)
    (by decide)

def bothInit : StampRace :=
  let s := bothRunning.state bothRunning.length
  .init s.world.db s.dagId s.dags 0

/-- They finish at once; the second waits for the graph's row until the first commits. -/
def raceActs : List StampAct :=
  [.begin 0 1 (WorkerStmt.update 0 1 1 (.finished none)),
    .begin 1 2 (WorkerStmt.update 0 2 1 (.finished none)), .update 0, .update 1, .lock 0,
    .count 0, .stamp 0, .commit 0, .lock 1, .count 1, .stamp 1, .commit 1]

def raceRun : StampRun := .ofList bothInit raceActs (by decide)

theorem concurrent_stamp_right_two :
    ((raceRun.state 12).dags.rows.map fun d => d.completed.isSome) = [true] ∧
      ∀ n ≤ 12, (raceRun.state n).Right := by
  refine ⟨by decide, concurrent_stamp_right raceRun ⟨_, _, _, _, rfl⟩ fun d hd => ?_⟩
  have hpending : ∀ d ∈ (raceRun.state 0).dags.rows, d.id = 1 ∧ d.completed.isSome = false := by
    decide
  obtain ⟨j, hj, hid, hstate⟩ : ∃ j ∈ (raceRun.state 0).db.jorb.rows,
      j.id = 1 ∧ j.state.terminal = false := by decide
  have hdag : (raceRun.state 0).dagId 1 = some 1 := by decide
  obtain ⟨hd1, hnone⟩ := hpending d hd
  refine ⟨fun h => absurd h (by simp [hnone]), fun h => ?_⟩
  have := h j ⟨hj, by rw [hid, hd1, hdag]⟩
  simp [hstate] at this

end Pyjobby
