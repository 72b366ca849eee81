import Pyjobby.Rows

/-! Rows that a transaction outside the world holds locked: an act that would change one
has to wait, and so has one that would lock it. -/

namespace Pyjobby

open Relational

namespace World

/-- The act writes a row that is held locked. -/
def writesHeld (w : World) (held : Nat → Bool) (a : Act) : Bool :=
  match a with
  | .delete batch => w.db.jorb.rows.any fun r => r.id ∈ batch && held r.id
  | a => (w.issues a).any fun u => w.db.jorb.rows.any fun r => u.cond w.db r && held r.id

/-- A transaction of the world has locked a row that is held: the lock would have had to
wait, and a scan with SKIP LOCKED to pass the row over. -/
def locksHeld (w : World) (held : Nat → Bool) : Bool :=
  w.txs.rows.any fun t => t.row.any held

theorem locksHeld_eq_false {w : World} {held : Nat → Bool} :
    w.locksHeld held = false ↔ ∀ jid, held jid → w.locked jid = false := by
  simp only [locksHeld, locked, List.any_eq_false, Option.any_eq_true, not_exists, not_and,
    decide_eq_true_eq]
  exact ⟨fun h jid hheld t ht hrow => h t ht jid hrow hheld,
    fun h t ht jid hrow hheld => h jid hheld t ht hrow⟩

variable {w w' : World} {a : Act}

theorem writesHeld_of_updates {held : Nat → Bool} {u : Update} (hu : Updates w a u)
    (hfree : w.writesHeld held a = false) :
    ∀ r ∈ w.db.jorb, held r.id → u.cond w.db r = false := by
  have hwrites : w.writesHeld held a =
      (w.issues a).any fun u => w.db.jorb.rows.any fun r => u.cond w.db r && held r.id := by
    cases hu <;> rfl
  rw [hwrites, hu.issues, Option.any_some, List.any_eq_false] at hfree
  intro r hr hheld
  have := hfree r hr
  simpa [hheld] using this

/-- A held row stays as it is. -/
theorem step_keeps_held {held : Nat → Bool} (hfree : w.writesHeld held a = false)
    (h : w.step a = some w') {r : Jorb} (hr : r ∈ w.db.jorb) (hheld : held r.id)
    (hunlocked : w.locked r.id = false) : r ∈ w'.db.jorb := by
  cases step_effect h with
  | quiet db clock queue jorb => exact jorb ▸ hr
  | close session jorb => exact jorb ▸ hr
  | opens => exact hr
  | insert j => exact Serial.mem_insert_of_mem (h := fun _ => rfl) hr
  | update db wakes u jorb free source =>
    have := writesHeld_of_updates source hfree r hr hheld
    exact jorb ▸ Serial.mem_update.mpr ⟨r, hr, by simp [this]⟩
  | delete batch act =>
    subst act
    refine Serial.mem_delete.mpr ⟨hr, decide_eq_false fun hmem => ?_⟩
    have := List.any_eq_false.mp hfree r hr
    simp [hmem, hheld] at this
  | @commit session jid c _ _ _ act tx phase mem id jorb =>
    have hne : r.id ≠ jid := by
      rintro rfl
      have := locked_iff.mpr
        ⟨_, claimTx_eq_some.mp tx, show Tx.row _ = some r.id by simp [Tx.row, ClaimTx.row, phase]⟩
      simp [hunlocked] at this
    exact jorb ▸ Serial.mem_update.mpr ⟨r, hr, by simp [hne]⟩

end World

end Pyjobby
