import Pyjobby.Effect

/-! The locks at work: a row or a queue has one holder, and a row stays as its
holder found it until the holder's transaction ends. -/

namespace Pyjobby

open Relational Transition

abbrev History := Run World.step

def History.Fresh (ρ : History) : Prop :=
  ∃ db clock queue, ρ.state 0 = World.init db clock queue

namespace World

theorem claimTx_eq_some {w : World} {session : Nat} {c : ClaimTx} :
    w.claimTx session = some c ↔ ⟨session, .claim c⟩ ∈ w.txs := by
  simp only [claimTx, Option.bind_eq_some_iff, Table.find?_eq_some]
  constructor
  · rintro ⟨⟨s, body⟩, ⟨hmem, rfl⟩, hbody⟩
    cases body with
    | claim c' => exact Option.some.inj hbody ▸ hmem
    | compact => cases hbody
  · exact fun h => ⟨_, ⟨h, rfl⟩, rfl⟩

theorem mem_openTx {w : World} {t u : Tx} :
    u ∈ (w.openTx t).txs ↔ u = t ∨ u ∈ w.txs ∧ u.session ≠ t.session :=
  Table.mem_put

theorem mem_closeTx {w : World} {session : Nat} {u : Tx} :
    u ∈ (w.closeTx session).txs ↔ u ∈ w.txs ∧ u.session ≠ session := by
  simp [closeTx]

theorem locked_iff {w : World} {i : Nat} : w.locked i ↔ ∃ t ∈ w.txs, t.row = some i := by
  simp [locked, Table.mem_rows]

theorem queueLocked_iff {w : World} {queue : String} :
    w.queueLocked queue ↔ ∃ t ∈ w.txs, t.queueLock = some queue := by
  simp [queueLocked, Table.mem_rows]

theorem blocks_eq_false {w : World} {p : Jorb → Bool} :
    w.blocks p = false ↔ ∀ r ∈ w.db.jorb, w.locked r.id → p r = false := by
  simp only [blocks, List.any_eq_false, Bool.and_eq_true, not_and, Serial.mem_rows]
  exact forall₂_congr fun r _ => by cases p r <;> cases w.locked r.id <;> simp

end World

/-- The transactions open at one moment respect each other's locks, and the row
each of them holds is the row it found. -/
structure Locks (w : World) : Prop where
  row : ∀ t ∈ w.txs, ∀ u ∈ w.txs, ∀ i, t.row = some i → u.row = some i → t = u
  queue : ∀ t ∈ w.txs, ∀ u ∈ w.txs, ∀ q, t.queueLock = some q → u.queueLock = some q → t = u
  picked : ∀ {s c jid}, ⟨s, .claim c⟩ ∈ w.txs → c.phase = .picked jid →
    ∃ r ∈ w.db.jorb, r.id = jid ∧ c.args.admits c.now r
  compacting : ∀ {s jid epoch}, ⟨s, .compact jid epoch⟩ ∈ w.txs →
    ∃ r ∈ w.db.jorb, r.id = jid ∧ r.runEpoch = epoch

theorem Locks.init (db : Db) (clock : Int) (queue : String → Option QueueRow) :
    Locks (World.init db clock queue) := by
  constructor <;> simp [World.init]

theorem Effect.keeps_locked {w w' : World} {a : Act} (hw : Locks w) (h : Effect w a w') {t : Tx}
    (ht : t ∈ w.txs) (ht' : t ∈ w'.txs) {r : Jorb} (hr : r ∈ w.db.jorb)
    (hrow : t.row = some r.id) : r ∈ w'.db.jorb := by
  have hlocked : w.locked r.id := World.locked_iff.mpr ⟨t, ht, hrow⟩
  cases h with
  | quiet db clock queue jorb => exact jorb ▸ hr
  | insert j => exact Serial.mem_insert_of_mem (h := fun _ => rfl) hr
  | update db wakes u jorb free =>
    have := World.blocks_eq_false.mp free r hr hlocked
    exact jorb ▸ Serial.mem_update.mpr ⟨r, hr, by simp [this]⟩
  | delete batch act free =>
    have := World.blocks_eq_false.mp free r hr hlocked
    exact Serial.mem_delete.mpr ⟨hr, this⟩
  | close session jorb => exact jorb ▸ hr
  | opens => exact hr
  | @commit session jid c _ db execs act tx phase mem id jorb acked =>
    have hne : r.id ≠ jid := by
      rintro rfl
      have := hw.row _ ht _ (World.claimTx_eq_some.mp tx) r.id hrow
        (by simp [Tx.row, ClaimTx.row, phase])
      subst this
      exact (World.mem_closeTx.mp ht').2 rfl
    exact jorb ▸ Serial.mem_update.mpr ⟨r, hr, by simp [hne]⟩

theorem Effect.keeps_rows {w w' : World} {a : Act} (h : Effect w a w') {t : Tx} (hw : Locks w)
    (ht : t ∈ w.txs) (ht' : t ∈ w'.txs) {i : Nat} (hrow : t.row = some i) {p : Jorb → Prop}
    (hp : ∃ r ∈ w.db.jorb, r.id = i ∧ p r) : ∃ r ∈ w'.db.jorb, r.id = i ∧ p r := by
  obtain ⟨r, hr, rfl, hpr⟩ := hp
  exact ⟨r, h.keeps_locked hw ht ht' hr hrow, rfl, hpr⟩

theorem Effect.tx_cases {w w' : World} {a : Act} (h : Effect w a w') {t : Tx}
    (ht : t ∈ w'.txs) :
    t ∈ w.txs ∨ Opens w t ∧ w' = w.openTx t := by
  cases h with
  | quiet | insert | update | delete => exact .inl ht
  | close session => exact .inl (World.mem_closeTx.mp ht).1
  | opens hopens =>
    rcases World.mem_openTx.mp ht with rfl | ⟨ht, -⟩
    · exact .inr ⟨hopens, rfl⟩
    · exact .inl ht
  | commit => exact .inl (World.mem_closeTx.mp ht).1

theorem Opens.row_cases {w : World} {t : Tx} (h : Opens w t) {i : Nat} (hrow : t.row = some i) :
    w.locked i = false := by
  cases h with
  | fence idle free => exact Option.some.inj hrow ▸ free
  | @begin session args =>
    by_cases hc : (w.queue args.queue).any QueueRow.controlled <;>
      simp [Tx.row, ClaimTx.row, hc] at hrow
  | lock | capInFlight | capRate => simp [Tx.row, ClaimTx.row] at hrow
  | pick tx phase skips first =>
    have hmem := (Db.mem_claimable.mp (Db.firstClaimable_mem first)).2.2.2
    have : _ = i := Option.some.inj hrow
    subst this
    exact Bool.eq_false_iff.mpr fun hl => by simp [skips _ hl] at hmem

theorem Opens.queueLock_cases {w : World} {t : Tx} (h : Opens w t) {q : String}
    (hq : t.queueLock = some q) :
    w.queueLocked q = false ∨ ∃ u ∈ w.txs, u.session = t.session ∧ u.queueLock = some q := by
  cases h with
  | fence => simp [Tx.queueLock] at hq
  | @begin session args =>
    by_cases hc : (w.queue args.queue).any QueueRow.controlled <;>
      simp [Tx.queueLock, ClaimTx.queueLock, hc] at hq
  | lock tx phase free =>
    simp only [Tx.queueLock, ClaimTx.queueLock] at hq
    split at hq
    · exact .inl (Option.some.inj hq ▸ free)
    · cases hq
  | capInFlight tx phase | capRate tx phase | pick tx phase =>
    refine .inr ⟨_, World.claimTx_eq_some.mp tx, rfl, ?_⟩
    simpa [Tx.queueLock, ClaimTx.queueLock, phase] using hq

theorem unique_after_open {w : World} {t : Tx} {β : Type} {lock : Tx → Option β}
    (huniq : ∀ t ∈ w.txs, ∀ u ∈ w.txs, ∀ b, lock t = some b → lock u = some b → t = u)
    (hown : ∀ b, lock t = some b → ∀ u ∈ w.txs, lock u = some b → u.session = t.session) :
    ∀ u ∈ (w.openTx t).txs, ∀ v ∈ (w.openTx t).txs, ∀ b,
      lock u = some b → lock v = some b → u = v := by
  intro u hu v hv b hub hvb
  rcases World.mem_openTx.mp hu with rfl | ⟨hu', hus⟩ <;>
    rcases World.mem_openTx.mp hv with rfl | ⟨hv', hvs⟩
  · rfl
  · exact absurd (hown b hub v hv' hvb) hvs
  · exact absurd (hown b hvb u hu' hub) hus
  · exact huniq u hu' v hv' b hub hvb

theorem unique_after_close {w : World} {session : Nat} {β : Type} {lock : Tx → Option β}
    (huniq : ∀ t ∈ w.txs, ∀ u ∈ w.txs, ∀ b, lock t = some b → lock u = some b → t = u) :
    ∀ u ∈ (w.closeTx session).txs, ∀ v ∈ (w.closeTx session).txs, ∀ b,
      lock u = some b → lock v = some b → u = v :=
  fun u hu v hv b => huniq u (World.mem_closeTx.mp hu).1 v (World.mem_closeTx.mp hv).1 b

theorem Locks.opens_row {w : World} {t : Tx} (h : Opens w t) (b : Nat)
    (hrow : t.row = some b) (u : Tx) (hu : u ∈ w.txs) (hub : u.row = some b) :
    u.session = t.session := by
  have := World.locked_iff.mpr ⟨u, hu, hub⟩
  simp [h.row_cases hrow] at this

theorem Locks.opens_queue {w : World} (hw : Locks w) {t : Tx} (h : Opens w t) (q : String)
    (hq : t.queueLock = some q) (u : Tx) (hu : u ∈ w.txs) (huq : u.queueLock = some q) :
    u.session = t.session := by
  rcases h.queueLock_cases hq with hfree | ⟨v, hv, hvs, hvq⟩
  · have := World.queueLocked_iff.mpr ⟨u, hu, huq⟩
    simp [hfree] at this
  · exact hw.queue u hu v hv q huq hvq ▸ hvs

theorem Locks.step {w w' : World} {a : Act} (hw : Locks w) (h : Effect w a w') : Locks w' where
  row := by
    cases h with
    | quiet | insert | update | delete => exact hw.row
    | opens hopens => exact unique_after_open hw.row (Locks.opens_row hopens)
    | close | commit => exact unique_after_close hw.row
  queue := by
    cases h with
    | quiet | insert | update | delete => exact hw.queue
    | opens hopens => exact unique_after_open hw.queue (hw.opens_queue hopens)
    | close | commit => exact unique_after_close hw.queue
  picked := by
    intro s c jid ht hphase
    rcases h.tx_cases ht with ht₀ | ⟨hopens, rfl⟩
    · exact h.keeps_rows hw ht₀ ht (by simp [Tx.row, ClaimTx.row, hphase]) (hw.picked ht₀ hphase)
    · cases hopens with
      | begin => split at hphase <;> cases hphase
      | lock | capInFlight | capRate => cases hphase
      | pick tx phase skips first =>
        obtain ⟨hmem, hadmits, -⟩ := Db.mem_claimable.mp (Db.firstClaimable_mem first)
        cases hphase
        exact ⟨_, hmem, rfl, hadmits⟩
  compacting := by
    intro s jid epoch ht
    rcases h.tx_cases ht with ht₀ | ⟨hopens, rfl⟩
    · exact h.keeps_rows hw ht₀ ht rfl (hw.compacting ht₀)
    · cases hopens with
      | fence idle free mem id epoch => exact ⟨_, mem, id, epoch⟩

theorem History.locks {ρ : History} (hρ : ρ.Fresh) : ∀ n ≤ ρ.length, Locks (ρ.state n) := by
  obtain ⟨db, clock, queue, h0⟩ := hρ
  exact ρ.invariant (h0 ▸ Locks.init db clock queue)
    fun hw hstep => hw.step (World.step_effect hstep)

end Pyjobby
