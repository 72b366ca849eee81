import Pyjobby.Deliveries

/-! Durable replay over whole runs: any number of attempts, each cut off
anywhere, some of them superseded and still going. -/

namespace Pyjobby

open Relational Transition

/-- What every state of a run is for some list of answers, which only grows. -/
structure Replayed (b : Body) (jid : Nat) (s : Sys Body) (outs : List (Option Json)) : Prop where
  sound : Sound jid s
  checkpoints : Checkpoints b jid s.world.db outs
  follows : ∀ a ∈ s.attempts, Follows b outs a
  upto : ∀ a ∈ s.attempts, s.world.owns a.row → Upto jid s.world.db outs a
  unwritten : s.attempts = [] → ∀ seq, s.world.db.step.find? (jid, seq) = none
  effects : s.log.filterMap Entry.effect? = b.effects outs
  done : Done jid s.world → ∃ result, b.after outs = .done result

namespace Replayed

variable {b : Body} {jid : Nat} {s s' : Sys Body} {outs : List (Option Json)}

theorem init {db : Db} (clock : Int) (queue : String → Option QueueRow)
    (hstep : ∀ seq, db.step.find? (jid, seq) = none) (hnext : db.jorb.next ≤ jid) :
    Replayed b jid (Sys.init db clock queue) [] where
  sound := Sound.init db clock queue
  checkpoints := ⟨fun seq s hs => by simp [Sys.init, World.init, hstep] at hs,
    fun k hk => by cases hk⟩
  follows := fun a ha => by cases ha
  upto := fun a ha => by cases ha
  unwritten := fun _ => hstep
  effects := rfl
  done := fun ⟨r, hr, hid, _⟩ => by
    have := Serial.lt_next (show r ∈ db.jorb from hr)
    omega

theorem stands (h : Replayed b jid s outs) {a : Execution Body} (ha : a ∈ s.attempts) :
    Stands b jid s.world outs a where
  id := (h.sound.row_mem ha).2
  checkpoints := h.checkpoints
  follows := h.follows a ha
  upto := h.upto a ha
  held := h.sound.held a ha
  back _ hissued :=
    let ⟨_, heff⟩ := hissued.effect (h.sound.row_mem ha).1
    World.owns_of_step h.sound.locks (h.sound.owned ha) heff

theorem attempt (h : Replayed b jid s outs) {i : Nat} {m : Move}
    (hstep : s.step b.program jid (.attempt i m) = some s') :
    ∃ outs', outs <+: outs' ∧ Replayed b jid s' outs' := by
  have hsound := h.sound.attempt hstep
  obtain ⟨a, w', a', entries, ha, hm, rfl⟩ := Sys.step_attempt hstep
  have hmem : a ∈ s.attempts := List.mem_of_getElem? ha
  have hmoves := Execution.move_moves hm
  obtain ⟨outs', hp⟩ := (h.stands hmem).move hm
  refine ⟨outs', hp.grows, hsound, hp.checkpoints, fun c hc => ?_, fun c hc howns => ?_,
    fun hnil => ?_, ?_, fun hdone => ?_⟩
  · rcases Lists.mem_set_cases hc with rfl | ⟨j, hj, -⟩
    · exact hp.follows
    · exact (h.follows c (List.mem_of_getElem? hj)).extend hp.grows
  · rcases Lists.mem_set_cases hc with rfl | ⟨j, hj, hne⟩
    · exact hp.upto (hmoves.row ▸ howns)
    · -- another attempt has the row's epoch, so this one has recorded nothing
      have hcmem := List.mem_of_getElem? hj
      obtain ⟨_, heff⟩ := hmoves.issued.effect (h.sound.row_mem hmem).1
      have howns : s.world.owns c.row :=
        World.owns_of_step h.sound.locks (h.sound.owned hcmem) heff howns
      rcases hp.others with hother | ⟨rfl, heq⟩
      · exact absurd (h.sound.owner_unique hj ha howns hother) hne
      · exact (h.upto c hcmem howns).congr heq
  · have hlength := congrArg List.length hnil
    simp only [List.length_set, List.length_nil, List.length_eq_zero_iff] at hlength
    rw [hlength] at hmem
    cases hmem
  · rw [List.filterMap_append, h.effects, hp.effects]
  · rcases hp.done hdone with hdone | hdone
    · -- the code had come to its end, and there is no further answer
      obtain ⟨result, hresult⟩ := h.done hdone
      obtain ⟨vs, rfl⟩ := hp.grows
      cases vs with
      | nil => exact ⟨result, by rwa [List.append_nil]⟩
      | cons v vs =>
        obtain ⟨p, hcall⟩ := hp.checkpoints.callAt (k := outs.length) (by simp)
        rw [List.take_left' rfl] at hcall
        obtain ⟨next, hnext⟩ := Body.callAt_eq_some.mp hcall
        rw [hresult] at hnext
        cases hnext
    · exact hdone

theorem resumes_of_claim (h : Replayed b jid s outs) {c : ClaimTx} {r : Jorb}
    (hr : r ∈ s.world.db.jorb) (hid : r.id = jid) {seq : Nat} {row : StepRow}
    (hrow : s.world.db.step.find? (jid, seq) = some row) :
    (Execution.new (κ := Body) ((c.args.claimed c.now).set r)).resumes := by
  have hne : s.attempts ≠ [] := fun hnil => by
    rw [h.unwritten hnil seq] at hrow
    cases hrow
  exact h.sound.resumes hne hr hid

theorem follows_new (b : Body) (outs : List (Option Json)) (row : Jorb) :
    Follows b outs (.new row) where
  steps := fun q s hs => by cases hs
  answers := fun x hx => by cases hx
  frames := rfl
  diverged := rfl
  ran := fun q hq => by cases hq
  at_ := ⟨rfl, rfl⟩

theorem upto_new (h : Replayed b jid s outs) {c : ClaimTx} {r : Jorb}
    (hr : r ∈ s.world.db.jorb) (hid : r.id = jid) :
    Upto jid s.world.db outs (.new ((c.args.claimed c.now).set r)) := by
  by_cases hnone : ∀ seq, s.world.db.step.find? (jid, seq) = none
  · exact .inr hnone
  · obtain ⟨seq, hseq⟩ := not_forall.mp hnone
    obtain ⟨row, hrow⟩ := Option.ne_none_iff_exists'.mp hseq
    exact .inl (h.resumes_of_claim hr hid hrow)

theorem env (h : Replayed b jid s outs) {a : Act}
    (hstep : s.step b.program jid (.env a) = some s') : Replayed b jid s' outs := by
  have hsound := h.sound.env hstep
  obtain ⟨w', hforeign, hw', -, rfl⟩ := Sys.step_env hstep
  have heff := World.step_effect hw'
  have haside := World.step_aside hforeign hw'
  obtain ⟨-, hnew⟩ := Sys.claimed_cases (κ := Body) heff jid
  refine ⟨hsound, h.checkpoints.congr haside.step, fun c hc => ?_, fun c hc howns => ?_,
    fun hnil seq => ?_, h.effects, fun ⟨r, hr, hid, hfin⟩ => h.done ?_⟩
  · rcases List.mem_append.mp hc with hc | hc
    · exact h.follows c hc
    · rcases hnew with hnil | ⟨t, r, -, -, hone, -⟩
      · simp [hnil] at hc
      · rw [hone, List.mem_singleton] at hc
        exact hc ▸ follows_new b outs _
  · rcases List.mem_append.mp hc with hc | hc
    · have howns := World.owns_of_step h.sound.locks (h.sound.owned hc) heff howns
      exact (h.upto c hc howns).congr haside.step
    · rcases hnew with hnil | ⟨t, r, hr, hid, hone, -⟩
      · simp [hnil] at hc
      · rw [hone, List.mem_singleton] at hc
        exact (hc ▸ h.upto_new hr hid : Upto jid s.world.db outs c).congr haside.step
  · exact (haside.step seq).trans (h.unwritten (List.append_eq_nil_iff.mp hnil).1 seq)
  · exact haside.finished r hr hid hfin

theorem step (h : Replayed b jid s outs) {e : Event}
    (hstep : s.step b.program jid e = some s') :
    ∃ outs', outs <+: outs' ∧ Replayed b jid s' outs' := by
  cases e with
  | env a => exact ⟨outs, List.prefix_refl _, h.env hstep⟩
  | attempt i m => exact h.attempt hstep

theorem run {ρ : Run (Sys.step b.program jid)} {n m : Nat} (hnm : n ≤ m) (hm : m ≤ ρ.length)
    (h : Replayed b jid (ρ.state n) outs) :
    ∃ outs', outs <+: outs' ∧ Replayed b jid (ρ.state m) outs' := by
  induction hnm with
  | refl => exact ⟨outs, List.prefix_refl _, h⟩
  | @step m hnm ih =>
    obtain ⟨outs₁, hpre₁, h₁⟩ := ih (Nat.le_of_succ_le hm)
    obtain ⟨outs₂, hpre₂, h₂⟩ := h₁.step (ρ.next m hm)
    exact ⟨outs₂, hpre₁.trans hpre₂, h₂⟩

end Replayed

namespace Sys

variable {κ : Type}

/-- The call of this sequence number has a successful checkpoint. -/
def succeeded (s : Sys κ) (jid seq : Nat) (row : StepRow) : Prop :=
  s.world.db.step.find? (jid, seq) = some row ∧ row.error = none

def Fresh {prog : Program κ} {jid : Nat} (ρ : Run (Sys.step prog jid)) : Prop :=
  ∃ db clock queue, ρ.state 0 = .init db clock queue ∧ db.jorb.next ≤ jid ∧
    ∀ seq, db.step.find? (jid, seq) = none

end Sys

/-- An attempt claimed once the call `k + 1` had its answer finds it loaded. -/
def Serves (k : Nat) (a : Execution Body) : Prop :=
  a.resumes ∧ (a.steps.isSome → ∃ s, a.checkpoint? (k + 1) = some s ∧ s.error = none)

namespace Replayed

variable {b : Body} {jid : Nat} {s s' : Sys Body} {outs outs' : List (Option Json)}

theorem serves_step (h : Replayed b jid s outs) {e : Event}
    (hstep : s.step b.program jid e = some s') {k i : Nat} (hk : k < outs.length)
    (hi : i ≤ s.attempts.length)
    (hserves : ∀ j a, i ≤ j → s.attempts[j]? = some a → Serves k a) :
    i ≤ s'.attempts.length ∧ ∀ j a, i ≤ j → s'.attempts[j]? = some a → Serves k a := by
  cases e with
  | env act =>
    obtain ⟨w', hforeign, hw', -, rfl⟩ := Sys.step_env hstep
    refine ⟨by simp only [List.length_append]; omega, fun j a hj ha => ?_⟩
    rw [List.getElem?_append] at ha
    split at ha
    · exact hserves j a hj ha
    · obtain ⟨-, hnil | ⟨c, r, hr, hid, hone, -⟩⟩ :=
        Sys.claimed_cases (κ := Body) (World.step_effect hw') jid
      · simp [hnil] at ha
      · rw [hone] at ha
        obtain rfl := List.mem_singleton.mp (List.mem_of_getElem? ha)
        obtain ⟨row, hrow, -⟩ := h.checkpoints.total k hk
        exact ⟨h.resumes_of_claim hr hid hrow, fun hs => by cases hs⟩
  | attempt l m =>
    obtain ⟨a, w', a', entries, ha, hm, rfl⟩ := Sys.step_attempt hstep
    refine ⟨by simpa only [List.length_set] using hi, fun j c hj hc => ?_⟩
    rw [List.getElem?_set] at hc
    split at hc
    · rename_i hlj
      subst hlj
      split at hc
      · obtain rfl := Option.some.inj hc
        obtain ⟨hres, hload⟩ := hserves l a hj ha
        have hmoves := Execution.move_moves hm
        have hresumes : a'.resumes := by
          rw [Execution.resumes, hmoves.row]
          exact hres
        refine ⟨hresumes, fun hsome => ?_⟩
        rcases hmoves.steps with hsame | ⟨-, rfl⟩ | ⟨key, value, next, hphase⟩
        · rw [Execution.checkpoint?, hsame]
          exact hload (hsame ▸ hsome)
        · rw [Execution.checkpoint?_load, if_pos hres, (h.stands (List.mem_of_getElem? ha)).id]
          exact h.checkpoints.total k hk
        · have hat := (h.follows a (List.mem_of_getElem? ha)).at_
          simp only [At, hphase] at hat
      · cases hc
    · exact hserves j c hj hc

theorem serves_run {ρ : Run (Sys.step b.program jid)} {n m : Nat} (hnm : n ≤ m)
    (hm : m ≤ ρ.length) (h : Replayed b jid (ρ.state n) outs) {k : Nat} (hk : k < outs.length) :
    (ρ.state n).attempts.length ≤ (ρ.state m).attempts.length ∧
      ∀ j a, (ρ.state n).attempts.length ≤ j → (ρ.state m).attempts[j]? = some a → Serves k a := by
  induction hnm with
  | refl =>
    refine ⟨Nat.le_refl _, fun j a hj ha => ?_⟩
    have := (List.getElem?_eq_some_iff.mp ha).1
    omega
  | @step m hnm ih =>
    obtain ⟨hi, hserves⟩ := ih (Nat.le_of_succ_le hm)
    obtain ⟨outs', hpre, h'⟩ := h.run hnm (Nat.le_of_succ_le hm)
    exact h'.serves_step (ρ.next m hm) (Nat.lt_of_lt_of_le hk hpre.length_le) hi hserves

end Replayed

end Pyjobby
