import Pyjobby.Lib.Table

/-! Partial unique indexes. The entry of a row is what the index holds of it, if
the row is in the index at all. -/

namespace Relational

variable {R V : Type*} {ident : R → Nat}

/-- No two rows of the table have the same entry. -/
def Serial.Unique (t : Serial ident) (entry : R → Option V) : Prop :=
  ∀ r ∈ t, ∀ s ∈ t, ∀ v, entry r = some v → entry s = some v → r = s

namespace Serial.Unique

variable {t : Serial ident} {entry : R → Option V}

theorem empty (first : Nat) : (Serial.empty first : Serial ident).Unique entry :=
  fun _ hr => absurd hr not_mem_empty

theorem update (h : t.Unique entry) {p : R → Bool} {u : Rewrite ident}
    (hu : ∀ r ∈ t, p r → ∀ v, entry (u.set r) = some v → entry r = some v) :
    (t.update p u).Unique entry := by
  have source {r : R} (hr : r ∈ t) {v : V} (hv : entry (if p r then u.set r else r) = some v) :
      entry r = some v := by
    split at hv
    · exact hu r hr ‹_› v hv
    · exact hv
  intro r' hr' s' hs' v hrv hsv
  obtain ⟨r, hr, rfl⟩ := Serial.mem_update.mp hr'
  obtain ⟨s, hs, rfl⟩ := Serial.mem_update.mp hs'
  obtain rfl := h r hr s hs v (source hr hrv) (source hs hsv)
  rfl

theorem delete (h : t.Unique entry) (p : R → Bool) : (t.delete p).Unique entry :=
  fun r hr s hs => h r (Serial.mem_delete.mp hr).1 s (Serial.mem_delete.mp hs).1

theorem insert (h : t.Unique entry) {mk : Nat → R} (hmk : ∀ n, ident (mk n) = n)
    (hfree : ∀ s ∈ t, ∀ v, entry (mk t.next) = some v → entry s ≠ some v) :
    (t.insert mk hmk).Unique entry := by
  intro r hr s hs v hrv hsv
  rcases Serial.mem_insert.mp hr with hr | rfl <;> rcases Serial.mem_insert.mp hs with hs | rfl
  · exact h r hr s hs v hrv hsv
  · exact absurd hrv (hfree r hr v hsv)
  · exact absurd hsv (hfree s hs v hrv)
  · rfl

end Serial.Unique

end Relational
