import Pyjobby.Answers

/-! The answers over whole runs: an attempt that holds the row gets what has been recorded,
and an answer stands for as long as the log is kept. -/

namespace Pyjobby

open Relational Transition Execution

/-- `commit_position` discards the log between two steps, not inside one. -/
def Sys.Tidy {κ : Type} (s : Sys κ) : Event → Prop
  | .attempt i (.compact _) => ∀ a, s.attempts[i]? = some a → a.frames = []
  | _ => True

/-- The attempt that holds the row will get every answer that is recorded. -/
structure Answering {κ : Type} (prog : Program κ) (jid : Nat) (s : Sys κ) : Prop where
  sound : Sound jid s
  nested : ∀ a ∈ s.attempts, a.Nested
  unwritten : s.attempts = [] → ∀ q, s.world.db.step.find? (jid, q) = none
  bears : ∀ a ∈ s.attempts, s.world.owns a.row → ∀ q name output,
    s.world.db.Answered jid q name output → a.Bears prog q name output

namespace Answering

variable {κ : Type} {prog : Program κ} {jid : Nat} {s s' : Sys κ}

theorem init {db : Db} (clock : Int) (queue : String → Option QueueRow)
    (hstep : ∀ q, db.step.find? (jid, q) = none) :
    Answering prog jid (Sys.init db clock queue) where
  sound := Sound.init db clock queue
  nested a ha := by cases ha
  unwritten _ := hstep
  bears a ha := by cases ha

theorem ne_nil (h : Answering prog jid s) {q : Nat} {name : String} {output : Option Json}
    (hrow : s.world.db.Answered jid q name output) : s.attempts ≠ [] := by
  intro hnil
  obtain ⟨row, hfind, -⟩ := hrow
  rw [h.unwritten hnil q] at hfind
  cases hfind

theorem resumes (h : Answering prog jid s) {c : ClaimTx} {r : Jorb} (hr : r ∈ s.world.db.jorb)
    (hid : r.id = jid) {q : Nat} {name : String} {output : Option Json}
    (hrow : s.world.db.Answered jid q name output) :
    (Execution.new (κ := κ) ((c.args.claimed c.now).set r)).resumes :=
  h.sound.resumes (h.ne_nil hrow) hr hid

/-- One attempt has gone on, and nobody has gained the row. -/
theorem stable (h : Answering prog jid s) {i : Nat} {a a' : Execution κ} {w' : World}
    {log : List Entry} (ha : s.attempts[i]? = some a) (hrow : a'.row = a.row)
    (hsound : Sound jid ⟨w', s.attempts.set i a', log⟩)
    (howns : ∀ b ∈ s.attempts, w'.owns b.row → s.world.owns b.row)
    (hstable : Stable prog jid s.world a w' a') :
    Answering prog jid ⟨w', s.attempts.set i a', log⟩ := by
  have hmem : a ∈ s.attempts := List.mem_of_getElem? ha
  refine ⟨hsound, fun b hb => ?_, fun hnil => ?_, fun b hb hb' q name output hans => ?_⟩
  · rcases Lists.mem_set_cases hb with rfl | ⟨j, hj, -⟩
    · exact hstable.nested
    · exact h.nested b (List.mem_of_getElem? hj)
  · exact absurd (by simpa using hnil) (List.ne_nil_of_mem hmem)
  · rcases Lists.mem_set_cases hb with rfl | ⟨j, hj, hji⟩
    · have haowns : s.world.owns a.row := howns a hmem (hrow ▸ hb')
      by_cases hold : ∃ n o, s.world.db.Answered jid q n o
      · obtain ⟨n, o, hold⟩ := hold
        obtain ⟨hans', hbears, -⟩ := hstable.kept q n o hold (h.bears a hmem haowns q n o hold)
        obtain ⟨rfl, rfl⟩ := hans.eq hans'
        exact hbears
      · exact hstable.fresh q name output hans fun n o hno => hold ⟨n, o, hno⟩
    · have hbmem := List.mem_of_getElem? hj
      have hbowns := howns b hbmem hb'
      have hstale : ¬s.world.owns a.row := fun haowns =>
        hji (h.sound.owner_unique hj ha hbowns haowns)
      exact h.bears b hbmem hbowns q name output
        (hans.congr (hstable.others.resolve_left hstale q).symm)

/-- Nobody gains the row by a move of an attempt. -/
theorem owns_of_move (h : Answering prog jid s) {a a' : Execution κ} {w' : World} {m : Move}
    {entries : List Entry} (ha : a ∈ s.attempts)
    (hm : a.move prog s.world m = some (w', a', entries)) :
    ∀ b ∈ s.attempts, w'.owns b.row → s.world.owns b.row := fun b hb => by
  obtain ⟨_, heff⟩ := (move_moves hm).issued.effect (h.sound.row_mem ha).1
  exact World.owns_of_step h.sound.locks (h.sound.owned hb) heff

theorem attempt (h : Answering prog jid s) {i : Nat} {m : Move}
    (htidy : s.Tidy (.attempt i m)) (hstep : s.step prog jid (.attempt i m) = some s') :
    Answering prog jid s' := by
  have hsound := h.sound.attempt hstep
  obtain ⟨a, w', a', entries, ha, hm, rfl⟩ := Sys.step_attempt hstep
  have hmem : a ∈ s.attempts := List.mem_of_getElem? ha
  have hid := (h.sound.row_mem hmem).2
  by_cases hcompact : ∃ lost, m = .compact lost
  · obtain ⟨lost, rfl⟩ := hcompact
    obtain ⟨hnested, hnone⟩ := compact_clears hm (htidy a ha)
    refine ⟨hsound, fun b hb => ?_, fun hnil => ?_, ?_⟩
    · rcases Lists.mem_set_cases hb with rfl | ⟨j, hj, -⟩
      · exact hnested
      · exact h.nested b (List.mem_of_getElem? hj)
    · exact absurd (by simpa using hnil) (List.ne_nil_of_mem hmem)
    · rintro b - - q name output ⟨row, hrow, -⟩
      have hgone := hnone q
      rw [hid] at hgone
      simp [hgone] at hrow
  · exact h.stable ha (move_moves hm).row hsound (h.owns_of_move hmem hm)
      (.move hid hm (fun lost heq => hcompact ⟨lost, heq⟩) (h.nested a hmem))

theorem env (h : Answering prog jid s) {a : Act} (hstep : s.step prog jid (.env a) = some s') :
    Answering prog jid s' := by
  have hsound := h.sound.env hstep
  obtain ⟨w', hforeign, hw', -, rfl⟩ := Sys.step_env hstep
  have heff := World.step_effect hw'
  have haside := World.step_aside hforeign hw'
  obtain ⟨-, hnew⟩ := Sys.claimed_cases (κ := κ) heff jid
  refine ⟨hsound, fun b hb => ?_, fun hnil q => ?_, fun b hb howns q name output hrow => ?_⟩
  · rcases List.mem_append.mp hb with hb | hb
    · exact h.nested b hb
    · rcases hnew with hnil | ⟨t, r, -, -, hone, -⟩
      · simp [hnil] at hb
      · rw [hone, List.mem_singleton] at hb
        rw [hb]
        rfl
  · exact (haside.step q).trans (h.unwritten (List.append_eq_nil_iff.mp hnil).1 q)
  · have hrow := hrow.congr (haside.step q).symm
    rcases List.mem_append.mp hb with hb | hb
    · exact h.bears b hb (World.owns_of_step h.sound.locks (h.sound.owned hb) heff howns) q _ _ hrow
    · rcases hnew with hnil | ⟨t, r, hr, hid, hone, -⟩
      · simp [hnil] at hb
      · rw [hone, List.mem_singleton] at hb
        rw [hb]
        exact h.resumes hr hid hrow

theorem step (h : Answering prog jid s) {e : Event} (htidy : s.Tidy e)
    (hstep : s.step prog jid e = some s') : Answering prog jid s' := by
  cases e with
  | env a => exact h.env hstep
  | attempt i m => exact h.attempt htidy hstep

end Answering

/-- An attempt that held the row when the answer was there, or was claimed afterwards. -/
def Heir {κ : Type} (s₀ : Sys κ) (i : Nat) : Prop :=
  ∀ b, s₀.attempts[i]? = some b → s₀.world.owns b.row

/-- Since `s₀` a call has its answer, and the log has not been discarded. -/
structure Settled {κ : Type} (prog : Program κ) (jid q : Nat) (name : String)
    (output : Option Json) (s₀ s : Sys κ) : Prop where
  answered : s.world.db.Answered jid q name output
  length : s₀.attempts.length ≤ s.attempts.length
  owner : ∀ i a, s.attempts[i]? = some a → s.world.owns a.row → Heir s₀ i
  bears : ∀ i a, s.attempts[i]? = some a → Heir s₀ i → a.Bears prog q name output
  answers : ∀ i a, s.attempts[i]? = some a → Heir s₀ i → ∀ v, (q, v) ∈ a.answers →
    v = output ∨ ∃ b, s₀.attempts[i]? = some b ∧ (q, v) ∈ b.answers

namespace Settled

variable {κ : Type} {prog : Program κ} {jid q : Nat} {name : String} {output : Option Json}
  {s₀ s s' : Sys κ}

theorem init (h : Answering prog jid s) (hrow : s.world.db.Answered jid q name output) :
    Settled prog jid q name output s s where
  answered := hrow
  length := Nat.le_refl _
  owner i a ha howns b hb := by
    rw [ha] at hb
    cases hb
    exact howns
  bears i a ha hheir := h.bears a (List.mem_of_getElem? ha) (hheir a ha) q name output hrow
  answers i a ha _ v hv := .inr ⟨a, ha, hv⟩

theorem stable (h : Settled prog jid q name output s₀ s) {i : Nat}
    {a a' : Execution κ} {w' : World} {log : List Entry} (ha : s.attempts[i]? = some a)
    (hrow : a'.row = a.row) (howns : ∀ b ∈ s.attempts, w'.owns b.row → s.world.owns b.row)
    (hstable : Stable prog jid s.world a w' a') :
    Settled prog jid q name output s₀ ⟨w', s.attempts.set i a', log⟩ := by
  have hcases {j : Nat} {b : Execution κ} (hb : (s.attempts.set i a')[j]? = some b) :
      j = i ∧ b = a' ∨ s.attempts[j]? = some b := by
    rw [List.getElem?_set] at hb
    split at hb
    · split at hb
      · exact .inl ⟨by omega, (Option.some.inj hb).symm⟩
      · cases hb
    · exact .inr hb
  refine ⟨?_, by simpa using h.length, fun j b hb hb' => ?_, fun j b hb hheir => ?_,
    fun j b hb hheir v hv => ?_⟩
  · by_cases haowns : s.world.owns a.row
    · exact (hstable.kept q name output h.answered (h.bears i a ha (h.owner i a ha haowns))).1
    · exact h.answered.congr (hstable.others.resolve_left haowns q)
  · rcases hcases hb with ⟨rfl, rfl⟩ | hb
    · exact h.owner j a ha (howns a (List.mem_of_getElem? ha) (hrow ▸ hb'))
    · exact h.owner j b hb (howns b (List.mem_of_getElem? hb) hb')
  · rcases hcases hb with ⟨rfl, rfl⟩ | hb
    · exact (hstable.kept q name output h.answered (h.bears j a ha hheir)).2.1
    · exact h.bears j b hb hheir
  · rcases hcases hb with ⟨rfl, rfl⟩ | hb
    · rcases (hstable.kept q name output h.answered (h.bears j a ha hheir)).2.2 v hv with hv | rfl
      · exact h.answers j a ha hheir v hv
      · exact .inl rfl
    · exact h.answers j b hb hheir v hv

theorem attempt (hs : Answering prog jid s) (h : Settled prog jid q name output s₀ s) {i : Nat}
    {m : Move} (hm : ∀ lost, m ≠ .compact lost)
    (hstep : s.step prog jid (.attempt i m) = some s') :
    Settled prog jid q name output s₀ s' := by
  obtain ⟨a, w', a', entries, ha, hmove, rfl⟩ := Sys.step_attempt hstep
  have hmem : a ∈ s.attempts := List.mem_of_getElem? ha
  exact h.stable ha (move_moves hmove).row (hs.owns_of_move hmem hmove)
    (.move (hs.sound.row_mem hmem).2 hmove hm (hs.nested a hmem))

theorem env (hs : Answering prog jid s) (h : Settled prog jid q name output s₀ s) {a : Act}
    (hstep : s.step prog jid (.env a) = some s') : Settled prog jid q name output s₀ s' := by
  obtain ⟨w', hforeign, hw', -, rfl⟩ := Sys.step_env hstep
  have heff := World.step_effect hw'
  have haside := World.step_aside hforeign hw'
  obtain ⟨-, hnew⟩ := Sys.claimed_cases (κ := κ) heff jid
  have hcases {j : Nat} {b : Execution κ}
      (hb : (s.attempts ++ Sys.claimed s.world w' jid)[j]? = some b) :
      s.attempts[j]? = some b ∨ s₀.attempts.length ≤ j ∧ ∃ (t : ClaimTx) (r : Jorb),
        r ∈ s.world.db.jorb ∧ r.id = jid ∧ b = .new ((t.args.claimed t.now).set r) := by
    rw [List.getElem?_append] at hb
    split at hb
    · exact .inl hb
    · rename_i hlt
      rcases hnew with hnil | ⟨t, r, hr, hid, hone, -⟩
      · simp [hnil] at hb
      · rw [hone] at hb
        refine .inr ⟨h.length.trans (Nat.not_lt.mp hlt), t, r, hr, hid, ?_⟩
        exact List.mem_singleton.mp (List.mem_of_getElem? hb)
  have hlength := h.length
  refine ⟨h.answered.congr (haside.step q), ?_, fun j b hb howns => ?_, fun j b hb hheir => ?_,
    fun j b hb hheir v hv => ?_⟩
  · rw [List.length_append]
    omega
  · rcases hcases hb with hb | ⟨hlt, -⟩
    · have hmem := List.mem_of_getElem? hb
      exact h.owner j b hb (World.owns_of_step hs.sound.locks (hs.sound.owned hmem) heff howns)
    · intro b' hb'
      rw [List.getElem?_eq_none hlt] at hb'
      cases hb'
  · rcases hcases hb with hb | ⟨-, t, r, hr, hid, rfl⟩
    · exact h.bears j b hb hheir
    · exact hs.resumes hr hid h.answered
  · rcases hcases hb with hb | ⟨-, t, r, -, -, rfl⟩
    · exact h.answers j b hb hheir v hv
    · cases hv

end Settled

end Pyjobby
