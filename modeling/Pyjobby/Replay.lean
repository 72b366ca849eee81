import Pyjobby.ExecutionFence

/-! Durable replay of a job whose code is a finite sequence of primitives, none
inside another. Its checkpoints are the answers its calls have had so far, in
order; an attempt follows them before it runs anything. -/

namespace Pyjobby

open Relational Transition

/-- Deterministic code: what comes next depends on the answers alone. -/
inductive Body where
  | done (result : Option Json)
  | setEvent (key : String) (value : Json) (rest : Body)
  | call (p : Prim) (next : Option Json → Body)

namespace Body

def head : Body → Head Body
  | done result => .done result
  | setEvent key value rest => .setEvent key value rest
  | call p next => .call p next

def program (b : Body) : Program Body := ⟨b, head⟩

/-- The next checkpointed call, or the end. -/
def settled : Body → Body
  | setEvent _ _ rest => rest.settled
  | b => b

/-- Where the code stands once its checkpointed calls have had these answers. -/
def after (b : Body) : List (Option Json) → Body
  | [] => b.settled
  | v :: vs =>
    match b.settled with
    | call p next => (next (p.reply v)).after vs
    | b => b

theorem after_concat {b : Body} {vs : List (Option Json)} {p : Prim} {next : Option Json → Body}
    (h : b.after vs = .call p next) (v : Option Json) :
    b.after (vs ++ [v]) = (next (p.reply v)).settled := by
  induction vs generalizing b with
  | nil =>
    simp only [after] at h
    simp [after, h]
  | cons u vs ih =>
    simp only [after] at h
    simp only [List.cons_append, after]
    cases hb : b.settled with
    | call q k =>
      rw [hb] at h
      exact ih h
    | done | setEvent => simp [hb] at h

def callAt (b : Body) (vs : List (Option Json)) : Option Prim :=
  match b.after vs with
  | call p _ => some p
  | _ => none

theorem callAt_eq_some {b : Body} {vs : List (Option Json)} {p : Prim} :
    b.callAt vs = some p ↔ ∃ next, b.after vs = .call p next := by
  simp only [callAt]
  split
  · rename_i q next h
    simp [h]
  · rename_i h
    simp only [reduceCtorEq, false_iff, not_exists]
    exact fun next heq => h p next heq

def effectAt (b : Body) (vs : List (Option Json)) (k : Nat) : Option (Nat × Prim) :=
  ((b.callAt (vs.take k)).filter Prim.atomic).map fun p => (k + 1, p)

def effects (b : Body) (vs : List (Option Json)) : List (Nat × Prim) :=
  (List.range vs.length).filterMap (b.effectAt vs)

theorem effectAt_concat {b : Body} {vs : List (Option Json)} (v : Option Json) {k : Nat}
    (h : k ≤ vs.length) : b.effectAt (vs ++ [v]) k = b.effectAt vs k := by
  simp [effectAt, List.take_append_of_le_length h]

theorem effects_concat {b : Body} {vs : List (Option Json)} {p : Prim}
    (h : b.callAt vs = some p) (v : Option Json) :
    b.effects (vs ++ [v]) = b.effects vs ++ if p.atomic then [(vs.length + 1, p)] else [] := by
  have hlast : b.effectAt (vs ++ [v]) vs.length =
      if p.atomic then some (vs.length + 1, p) else none := by
    rw [effectAt_concat v (Nat.le_refl _)]
    simp only [effectAt, List.take_length, h]
    cases hp : p.atomic <;> simp [Option.filter, hp]
  have hinit : ∀ k ∈ List.range vs.length, b.effectAt (vs ++ [v]) k = b.effectAt vs k :=
    fun k hk => effectAt_concat v (Nat.le_of_lt (List.mem_range.mp hk))
  rw [effects, List.length_append, List.length_singleton, List.range_succ, List.filterMap_append,
    List.filterMap_congr hinit]
  cases hp : p.atomic <;> simp [effects, hlast, hp]

end Body

/-- The checkpoint records what the code calls there, and the answer if it is a
success. -/
def Fits (b : Body) (outs : List (Option Json)) (s : StepRow) : Prop :=
  ∃ k, s.stepSeq = k + 1 ∧ k ≤ outs.length ∧
    (b.callAt (outs.take k)).map Prim.name = some s.name ∧
    (s.error = none → outs[k]? = some s.output) ∧ (s.error ≠ none → s.output = none)

theorem Fits.mono {b : Body} {outs vs : List (Option Json)} {s : StepRow} (h : Fits b outs s) :
    Fits b (outs ++ vs) s := by
  obtain ⟨k, hseq, hk, hname, hout, herr⟩ := h
  refine ⟨k, hseq, by simp only [List.length_append]; omega, ?_, fun he => ?_, herr⟩
  · rwa [List.take_append_of_le_length hk]
  · have hout := hout he
    rw [List.getElem?_append_left (List.getElem?_eq_some_iff.mp hout).1]
    exact hout

/-- The checkpoints of the job: a success for each answer, and beyond them at
most the failure of the next call. -/
structure Checkpoints (b : Body) (jid : Nat) (db : Db) (outs : List (Option Json)) : Prop where
  fits : ∀ seq s, db.step.find? (jid, seq) = some s → Fits b outs s
  total : ∀ k < outs.length, ∃ s, db.step.find? (jid, k + 1) = some s ∧ s.error = none

theorem stepSeq_of_find? {db : Db} {jid seq : Nat} {s : StepRow}
    (h : db.step.find? (jid, seq) = some s) : s.stepSeq = seq :=
  congrArg Prod.snd (Table.find?_eq_some.mp h).2

namespace Checkpoints

variable {b : Body} {jid : Nat} {db db' : Db} {outs : List (Option Json)}

theorem congr (h : Checkpoints b jid db outs)
    (heq : ∀ seq, db'.step.find? (jid, seq) = db.step.find? (jid, seq)) :
    Checkpoints b jid db' outs :=
  ⟨fun seq s hs => h.fits seq s (heq seq ▸ hs), fun k hk => heq (k + 1) ▸ h.total k hk⟩

theorem callAt (h : Checkpoints b jid db outs) {k : Nat} (hk : k < outs.length) :
    ∃ p, b.callAt (outs.take k) = some p := by
  obtain ⟨s, hs, -⟩ := h.total k hk
  obtain ⟨k', hseq, -, hname, -⟩ := h.fits _ s hs
  have := stepSeq_of_find? hs
  obtain rfl : k' = k := by omega
  obtain ⟨p, hp, -⟩ := Option.map_eq_some_iff.mp hname
  exact ⟨p, hp⟩

theorem output (h : Checkpoints b jid db outs) {k : Nat} {s : StepRow}
    (hs : db.step.find? (jid, k + 1) = some s) (he : s.error = none) :
    outs[k]? = some s.output := by
  obtain ⟨k', hseq, -, -, hout, -⟩ := h.fits _ s hs
  have := stepSeq_of_find? hs
  obtain rfl : k' = k := by omega
  exact hout he

theorem answered (h : Checkpoints b jid db outs) {seq : Nat} {s : StepRow}
    (hs : db.step.find? (jid, seq) = some s) (he : s.error = none) :
    ∃ k, seq = k + 1 ∧ outs[k]? = some s.output := by
  obtain ⟨k, hseq, -, -, hout, -⟩ := h.fits _ s hs
  exact ⟨k, (stepSeq_of_find? hs).symm.trans hseq, hout he⟩

theorem set {outs' : List (Option Json)} (h : Checkpoints b jid db outs) {seq : Nat}
    (hother : ∀ q, q ≠ seq → db'.step.find? (jid, q) = db.step.find? (jid, q))
    {row : StepRow} (hrow : db'.step.find? (jid, seq) = some row) (hfits : Fits b outs' row)
    (hpre : outs <+: outs') (hlast : ∀ k < outs'.length, outs.length ≤ k → k + 1 = seq)
    (hsuccess : seq ≤ outs'.length → row.error = none) : Checkpoints b jid db' outs' := by
  obtain ⟨vs, rfl⟩ := hpre
  refine ⟨fun q s hs => ?_, fun k hk => ?_⟩
  · by_cases hq : q = seq
    · subst hq
      obtain rfl := Option.some.inj (hrow.symm.trans hs)
      exact hfits
    · exact (h.fits q s (hother q hq ▸ hs)).mono
  · by_cases hq : k + 1 = seq
    · exact ⟨row, hq ▸ hrow, hsuccess (by omega)⟩
    · rw [hother _ hq]
      exact h.total k (Nat.lt_of_not_le fun hle => hq (hlast k hk hle))

theorem success (h : Checkpoints b jid db outs) {k : Nat} {p : Prim} {row : StepRow}
    {outs' : List (Option Json)} (hk : k ≤ outs.length)
    (hcall : b.callAt (outs.take k) = some p) (hpre : outs <+: outs')
    (hlength : outs'.length = k + 1) (hout : outs'[k]? = some row.output)
    (hother : ∀ q, q ≠ k + 1 → db'.step.find? (jid, q) = db.step.find? (jid, q))
    (hrow : db'.step.find? (jid, k + 1) = some row) (hname : row.name = p.name)
    (he : row.error = none) : Checkpoints b jid db' outs' := by
  refine h.set hother hrow ⟨k, stepSeq_of_find? hrow, by omega, ?_, fun _ => hout,
    fun hne => absurd he hne⟩ hpre (fun j hj hle => by omega) fun _ => he
  obtain ⟨vs, rfl⟩ := hpre
  rw [List.take_append_of_le_length hk, hcall, hname]
  rfl

theorem failure (h : Checkpoints b jid db outs) {p : Prim} {row : StepRow}
    (hcall : b.callAt outs = some p)
    (hother : ∀ q, q ≠ outs.length + 1 → db'.step.find? (jid, q) = db.step.find? (jid, q))
    (hrow : db'.step.find? (jid, outs.length + 1) = some row) (hname : row.name = p.name)
    (hout : row.output = none) (he : row.error ≠ none) : Checkpoints b jid db' outs := by
  refine h.set hother hrow
    ⟨outs.length, stepSeq_of_find? hrow, Nat.le_refl _, ?_, fun h => absurd h he, fun _ => hout⟩
    (List.prefix_refl _) (fun j hj hle => by omega) fun h => by omega
  rw [List.take_length, hcall, hname]
  rfl

end Checkpoints

end Pyjobby
