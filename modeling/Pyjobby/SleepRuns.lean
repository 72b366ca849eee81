import Pyjobby.DurableSleep

/-! Durable sleeps over whole runs, however often the job is cut off, claimed again, or woken
before its time. -/

namespace Pyjobby

open Relational Transition

theorem wakeAt_wakeRecord (t : Int) : wakeAt (some (wakeRecord t)) = some t := rfl

/-- What holds of an attempt: the sleeps it has behind it are over, the one it is about to
record has been drawn up on the clock, and it is parked for no less than what is left. -/
structure Rested (b : Body) (outs : List (Option Json)) (clock : Int)
    (drawn : Nat → Int → Int → Prop) (a : Execution Body) : Prop where
  heard : ∀ k < a.heard, ∃ v, (k + 1, v) ∈ a.answers
  woken : ∀ k v interval, (k + 1, v) ∈ a.answers →
    b.callAt (outs.take k) = some (.sleep interval) → ∃ t, wakeAt v = some t ∧ t ≤ clock
  ready : ∀ interval next output, a.phase = .checkpoint (.sleep interval) next output →
    ∃ t, drawn a.seq interval t ∧ output = some (wakeRecord t)
  parked : ∀ delay, a.phase = .parked delay →
    ∃ k v t, a.seq = k + 1 ∧ outs[k]? = some v ∧ wakeAt v = some t ∧ t ≤ clock + delay

namespace Rested

variable {b : Body} {outs outs' : List (Option Json)} {clock clock' : Int}
  {drawn drawn' : Nat → Int → Int → Prop} {a a' : Execution Body}

theorem new (row : Jorb) : Rested b outs clock drawn (.new row) where
  heard k hk := absurd hk (Nat.not_lt_zero k)
  woken _ _ _ h := absurd h List.not_mem_nil
  ready := nofun
  parked := nofun

theorem mono (h : Rested b outs clock drawn a) (hfollows : Follows b outs a) (hpre : outs <+: outs')
    (hclock : clock ≤ clock')
    (hdrawn : ∀ seq interval t, drawn seq interval t → drawn' seq interval t) :
    Rested b outs' clock' drawn' a where
  heard := h.heard
  woken k v interval hmem hcall := by
    obtain ⟨j, hj, hout⟩ := hfollows.answers _ hmem
    obtain rfl : k = j := Nat.succ.inj hj
    rw [Lists.take_extend hpre (List.getElem?_eq_some_iff.mp hout).1.le] at hcall
    obtain ⟨t, hwake, ht⟩ := h.woken k v interval hmem hcall
    exact ⟨t, hwake, ht.trans hclock⟩
  ready interval next output hphase := by
    obtain ⟨t, ht, hout⟩ := h.ready interval next output hphase
    exact ⟨t, hdrawn _ _ _ ht, hout⟩
  parked delay hphase := by
    obtain ⟨k, v, t, hseq, hout, hwake, ht⟩ := h.parked delay hphase
    exact ⟨k, v, t, hseq, Lists.getElem?_extend hpre hout, hwake, by omega⟩

/-- No call has returned, and the attempt has not come to rest. -/
theorem quiet (h : Rested b outs clock drawn a) (hanswers : a'.answers = a.answers)
    (hheard : a'.heard ≤ a.heard) (hready : ∀ interval next output,
      a'.phase ≠ .checkpoint (.sleep interval) next output)
    (hparked : ∀ delay, a'.phase ≠ .parked delay) : Rested b outs clock drawn a' where
  heard k hk := hanswers ▸ h.heard k (hk.trans_le hheard)
  woken k v interval hmem := h.woken k v interval (hanswers ▸ hmem)
  ready interval next output hphase := absurd hphase (hready interval next output)
  parked delay hphase := absurd hphase (hparked delay)

theorem turn {jid : Nat} {w w' : World} {m : Move} (h : Rested b outs w.clock drawn a)
    (hstands : Stands b jid w outs a) (hturn : Turn b outs w w' a m a') (hpre : outs <+: outs')
    (hcheck : Checkpoints b jid w'.db outs')
    (hdrawn : ∀ seq interval t, drawn seq interval t → drawn' seq interval t)
    (hasks : ∀ result interval next, m = .invoke result →
      a.phase = .running (.sleep interval) next →
      drawn' a.seq interval (w.clock + interval))
    (hpast : ∀ seq interval t, drawn seq interval t → t ≤ w.clock + interval) :
    Rested b outs' w.clock drawn' a' := by
  have hmono := h.mono hstands.follows hpre le_rfl hdrawn
  cases hturn with
  | keep => exact hmono
  | onward answers seq phase =>
    refine hmono.quiet answers ?_ (fun interval next output hphase => ?_) fun delay hphase => ?_
    · have hle := a.pred_le_heard
      unfold Execution.heard
      split
      · next c hphase => simp [hphase, Phase.awake] at phase
      · rwa [seq]
    · simp [hphase, Phase.awake] at phase
    · simp [hphase, Phase.awake] at phase
  | code answers heard phase =>
    obtain ⟨c, hcode⟩ := phase
    exact hmono.quiet answers heard.le (fun _ _ _ hphase => by simp [hcode] at hphase)
      fun _ hphase => by simp [hcode] at hphase
  | enter source answers seq phase =>
    refine hmono.quiet answers ?_ (fun interval next output hphase => ?_) fun delay hphase => ?_
    · rw [Execution.heard_of_code source]
      unfold Execution.heard
      split
      · next c hphase => simp [hphase, Phase.awake] at phase
      · omega
    · simp [hphase, Phase.awake] at phase
    · simp [hphase, Phase.awake] at phase
  | @answer k p next v a' heard seq le after phase answers woken =>
    obtain ⟨c, hcode⟩ := phase
    refine ⟨fun j hj => ?_, fun j u interval hmem hcall => ?_,
      fun _ _ _ hphase => by simp [hcode] at hphase, fun _ hphase => by simp [hcode] at hphase⟩
    · rw [Execution.heard_of_code hcode, seq] at hj
      rw [answers]
      rcases Nat.lt_succ_iff_lt_or_eq.mp hj with hlt | rfl
      · obtain ⟨u, hu⟩ := h.heard j (heard ▸ hlt)
        exact ⟨u, List.mem_append_left _ hu⟩
      · exact ⟨v, List.mem_append_right _ (List.mem_singleton.mpr rfl)⟩
    · rw [answers] at hmem
      rcases List.mem_append.mp hmem with hmem | hmem
      · exact hmono.woken j u interval hmem hcall
      · obtain ⟨hj, rfl⟩ := Prod.mk.injEq .. ▸ List.mem_singleton.mp hmem
        obtain rfl : j = k := Nat.succ.inj hj
        rw [Lists.take_extend hpre le, Body.callAt_eq_some.mpr ⟨next, after⟩] at hcall
        exact woken interval (Option.some.inj hcall)
  | @invoked interval next move source =>
    obtain ⟨result, rfl⟩ := move
    refine ⟨fun k hk => ?_, hmono.woken, fun i n output hphase => ?_,
      fun _ hphase => by cases hphase⟩
    · refine hmono.heard k (hk.trans_le ?_)
      simp only [Execution.heard, source, le_refl]
    · cases hphase
      exact ⟨_, hasks result interval next rfl source, rfl⟩
  | @parked c interval next s t source le after recorded wakes =>
    refine ⟨fun k hk => ?_, hmono.woken, fun _ _ _ hphase => (by cases hphase),
      fun delay hphase => ?_⟩
    · refine hmono.heard k (hk.trans_le ?_)
      simp only [Execution.heard, source, Nat.add_sub_cancel, le_refl]
    · cases hphase
      exact ⟨a.seq, s.output, t, rfl, Lists.getElem?_extend hpre recorded, wakes, by omega⟩
  | @asleep interval next output source recorded =>
    obtain ⟨row, hrow, rfl, he⟩ := recorded
    obtain ⟨t, ht, hout⟩ := h.ready interval next row.output source
    obtain ⟨k, hseq, hk⟩ := hcheck.answered (hstands.id ▸ hrow) he
    refine ⟨fun k hk => ?_, hmono.woken, fun _ _ _ hphase => (by cases hphase),
      fun delay hphase => ?_⟩
    · refine hmono.heard k (hk.trans_le ?_)
      simp only [Execution.heard, source, le_refl]
    · cases hphase
      refine ⟨k, row.output, t, hseq, hk, ?_, hpast _ _ _ ht⟩
      rw [hout, wakeAt_wakeRecord]

end Rested

theorem Issued.clock {w w' : World} {e : Jorb} (h : Issued w e w') : w'.clock = w.clock := by
  cases h with
  | worker s h =>
    obtain ⟨wakes, rfl⟩ := World.worker_eq h
    rfl
  | data => rfl

namespace Sys

variable {κ : Type} {prog : Program κ} {jid : Nat}

/-- At step `i` an attempt's `sleep` reads the clock of the database. -/
def Asks (ρ : Run (Sys.step prog jid)) (i seq : Nat) (interval : Int) : Prop :=
  ∃ j result a next, ρ.act i = .attempt j (.invoke result) ∧ (ρ.state i).attempts[j]? = some a ∧
    a.seq = seq ∧ a.phase = .running (.sleep interval) next

/-- A wake time that an attempt has drawn up before state `n`. -/
def Drawn (ρ : Run (Sys.step prog jid)) (n seq : Nat) (interval t : Int) : Prop :=
  ∃ i < n, Asks ρ i seq interval ∧ t = (ρ.state i).world.clock + interval

/-- The call of this number is a sleep, going by the answers recorded for those before it. -/
def sleeps (b : Body) (jid : Nat) (s : Sys Body) (seq : Nat) (interval : Int) : Prop :=
  ∃ outs : List (Option Json), seq = outs.length + 1 ∧ b.callAt outs = some (.sleep interval) ∧
    ∀ k < outs.length, ∃ row, s.succeeded jid (k + 1) row ∧ outs[k]? = some row.output

/-- The wake time that the checkpoint of this call records. -/
def wakes (s : Sys κ) (jid seq : Nat) (t : Int) : Prop :=
  ∃ row, s.succeeded jid seq row ∧ wakeAt row.output = some t

/-- The job has this call behind it: the call has returned to the code of an attempt, a later
one has succeeded, or the job is finished. -/
def past (s : Sys κ) (jid seq : Nat) : Prop :=
  (∃ a ∈ s.attempts, ∃ v, (seq, v) ∈ a.answers) ∨
    (∃ q row, seq < q ∧ s.succeeded jid q row) ∨ Done jid s.world

theorem step_clock {s s' : Sys κ} {e : Event} (h : s.step prog jid e = some s') :
    s.world.clock ≤ s'.world.clock := by
  cases e with
  | env a =>
    obtain ⟨w', -, hw', -, rfl⟩ := step_env h
    exact (World.step_effect hw').clock_le
  | attempt i m =>
    obtain ⟨a, w', a', entries, -, hm, rfl⟩ := step_attempt h
    exact (Execution.move_moves hm).issued.clock.ge

end Sys

/-- The sleeps that the job has behind it, by the answers recorded so far. -/
structure Slept (b : Body) (jid : Nat) (s : Sys Body) (outs : List (Option Json))
    (drawn : Nat → Int → Int → Prop) : Prop where
  attempts : ∀ a ∈ s.attempts, Rested b outs s.world.clock drawn a
  recorded : ∀ k interval v, b.callAt (outs.take k) = some (.sleep interval) → outs[k]? = some v →
    ∃ t, drawn (k + 1) interval t ∧ v = some (wakeRecord t)
  past : ∀ k interval, b.callAt (outs.take k) = some (.sleep interval) →
    k + 1 < outs.length ∨ k < outs.length ∧ Done jid s.world →
    ∃ v t, outs[k]? = some v ∧ wakeAt v = some t ∧ t ≤ s.world.clock

/-- An answer that is new was recorded by the attempt that moved, for its call under way. -/
theorem Replayed.grown {b : Body} {jid : Nat} {s s' : Sys Body} {outs outs' : List (Option Json)}
    {a : Execution Body} (h : Replayed b jid s outs) (h' : Replayed b jid s' outs')
    (hmay : MayWrite b outs jid s.world s'.world a) {k : Nat} (hlt : k < outs'.length)
    (hnew : outs.length ≤ k) :
    a.heard = k ∧ outs.length = k ∧ (∀ c, a.phase ≠ .code c) ∧ ∃ p next v,
      b.callAt outs = some p ∧ outs'[k]? = some v ∧
        ∀ interval, p = .sleep interval → a.phase = .checkpoint p next v ∧ a.seq = k + 1 := by
  obtain ⟨row, hrow, he⟩ := h'.checkpoints.total k hlt
  have hout := h'.checkpoints.output hrow he
  have hopen (hold : s.world.db.step.find? (jid, k + 1) = some row) : False := by
    obtain ⟨j, hj, hjk⟩ := h.checkpoints.answered hold he
    have := (List.getElem?_eq_some_iff.mp hjk).1
    omega
  rcases hmay with hsame | ⟨p, next, hwrites⟩
  · exact (hopen (hsame _ ▸ hrow)).elim
  · have hseq : a.seq = k + 1 := by
      by_contra hne
      exact hopen (hwrites.others _ (Ne.symm hne) ▸ hrow)
    obtain ⟨-, j, hj, hle, hafter⟩ := hwrites.call
    obtain rfl : j = k := by omega
    have hlength : outs.length = j := by omega
    have hheard : a.heard = j := by
      unfold Execution.heard
      split
      · next c hphase => exact absurd hphase (hwrites.outside c)
      · omega
    rw [List.take_of_length_le hnew] at hafter
    refine ⟨hheard, hlength, hwrites.outside, p, next, row.output,
      Body.callAt_eq_some.mpr ⟨next, hafter⟩, hout, fun interval hp => ⟨?_, hseq⟩⟩
    rcases hwrites.success row (hseq ▸ hrow) he with hold | hphase
    · exact (hopen (hseq ▸ hold)).elim
    · exact hphase interval hp

namespace Slept

variable {b : Body} {jid : Nat} {s s' : Sys Body} {outs outs' : List (Option Json)}
  {drawn drawn' : Nat → Int → Int → Prop}

theorem init (db : Db) (clock : Int) (queue : String → Option QueueRow) :
    Slept b jid (Sys.init db clock queue) [] drawn where
  attempts _ h := absurd h List.not_mem_nil
  recorded _ _ _ _ h := by cases h
  past k _ _ h := by
    rcases h with h | ⟨h, -⟩
    · exact absurd h (Nat.not_lt_zero _)
    · exact absurd h (Nat.not_lt_zero k)

/-- The sleeps that an attempt has heard of are over. -/
theorem behind (h : Slept b jid s outs drawn) (hreplayed : Replayed b jid s outs)
    {a : Execution Body} (ha : a ∈ s.attempts) {k : Nat} (hk : k < a.heard) {interval : Int}
    (hcall : b.callAt (outs.take k) = some (.sleep interval)) :
    ∃ v t, outs[k]? = some v ∧ wakeAt v = some t ∧ t ≤ s.world.clock := by
  obtain ⟨v, hv⟩ := (h.attempts a ha).heard k hk
  obtain ⟨t, hwake, ht⟩ := (h.attempts a ha).woken k v interval hv hcall
  obtain ⟨j, hj, hout⟩ := (hreplayed.follows a ha).answers _ hv
  obtain rfl : k = j := Nat.succ.inj hj
  exact ⟨v, t, hout, hwake, ht⟩

theorem env (h : Slept b jid s outs drawn) (hreplayed : Replayed b jid s outs)
    (hdrawn : ∀ seq interval t, drawn seq interval t → drawn' seq interval t) {act : Act}
    (hstep : s.step b.program jid (.env act) = some s') : Slept b jid s' outs drawn' := by
  have hclock := Sys.step_clock hstep
  obtain ⟨w', hforeign, hw', -, rfl⟩ := Sys.step_env hstep
  refine ⟨fun a ha => ?_, fun k interval v hcall hout => ?_, fun k interval hcall hpast => ?_⟩
  · rcases List.mem_append.mp ha with ha | ha
    · exact (h.attempts a ha).mono (hreplayed.follows a ha) (List.prefix_refl _) hclock hdrawn
    · obtain ⟨-, hnil | ⟨c, r, -, -, hone, -⟩⟩ :=
        Sys.claimed_cases (κ := Body) (World.step_effect hw') jid
      · simp [hnil] at ha
      · rw [hone, List.mem_singleton] at ha
        exact ha ▸ .new _
  · obtain ⟨t, ht, hv⟩ := h.recorded k interval v hcall hout
    exact ⟨t, hdrawn _ _ _ ht, hv⟩
  · have hdone : Done jid w' → Done jid s.world := fun ⟨r, hr, hid, hfinished⟩ =>
      (World.step_aside hforeign hw').finished r hr hid hfinished
    obtain ⟨v, t, hout, hwake, ht⟩ := h.past k interval hcall (hpast.imp_right (.imp_right hdone))
    exact ⟨v, t, hout, hwake, ht.trans hclock⟩

theorem attempt (h : Slept b jid s outs drawn) (hreplayed : Replayed b jid s outs)
    (hreplayed' : Replayed b jid s' outs') (hpre : outs <+: outs') {i : Nat} {m : Move}
    (hstep : s.step b.program jid (.attempt i m) = some s')
    (hdrawn : ∀ seq interval t, drawn seq interval t → drawn' seq interval t)
    (hasks : ∀ a result interval next, s.attempts[i]? = some a → m = .invoke result →
      a.phase = .running (.sleep interval) next → drawn' a.seq interval (s.world.clock + interval))
    (hpast : ∀ seq interval t, drawn seq interval t → t ≤ s.world.clock + interval) :
    Slept b jid s' outs' drawn' := by
  obtain ⟨a, w', a', entries, ha, hm, rfl⟩ := Sys.step_attempt hstep
  have hmem : a ∈ s.attempts := List.mem_of_getElem? ha
  have hstands := hreplayed.stands hmem
  have hclock : w'.clock = s.world.clock := (Execution.move_moves hm).issued.clock
  have hgrown {k : Nat} := Replayed.grown (k := k) hreplayed hreplayed' (hstands.writes hm)
  have hold {k : Nat} (hk : k < outs.length) :
      outs'.take k = outs.take k := Lists.take_extend hpre hk.le
  have hover {k : Nat} {interval : Int} (hk : k < a.heard)
      (hcall : b.callAt (outs.take k) = some (.sleep interval)) :
      ∃ v t, outs'[k]? = some v ∧ wakeAt v = some t ∧ t ≤ w'.clock := by
    obtain ⟨v, t, hout, hwake, ht⟩ := h.behind hreplayed hmem hk hcall
    exact ⟨v, t, Lists.getElem?_extend hpre hout, hwake, hclock ▸ ht⟩
  refine ⟨fun c hc => ?_, fun k interval v hcall hout => ?_, fun k interval hcall hp => ?_⟩
  · show Rested b outs' w'.clock drawn' c
    rw [hclock]
    rcases Lists.mem_set_cases hc with rfl | ⟨j, hj, -⟩
    · exact (h.attempts a hmem).turn hstands (hstands.turn hm) hpre hreplayed'.checkpoints hdrawn
        (fun result interval next => hasks a result interval next ha) hpast
    · have hcmem := List.mem_of_getElem? hj
      exact (h.attempts c hcmem).mono (hreplayed.follows c hcmem) hpre le_rfl hdrawn
  · have hlt := (List.getElem?_eq_some_iff.mp hout).1
    by_cases hk : k < outs.length
    · rw [hold hk] at hcall
      obtain ⟨u, hu⟩ : ∃ u, outs[k]? = some u := ⟨_, List.getElem?_eq_getElem hk⟩
      obtain rfl : u = v := Option.some.inj ((Lists.getElem?_extend hpre hu).symm.trans hout)
      obtain ⟨t, ht, hv⟩ := h.recorded k interval u hcall hu
      exact ⟨t, hdrawn _ _ _ ht, hv⟩
    · obtain ⟨-, hlength, -, p, next, u, hp, hu, hsleep⟩ := hgrown hlt (Nat.le_of_not_lt hk)
      obtain rfl : u = v := Option.some.inj (hu.symm.trans hout)
      rw [Lists.take_extend hpre hlength.ge, List.take_of_length_le hlength.le, hp] at hcall
      obtain ⟨hphase, hseq⟩ := hsleep interval (Option.some.inj hcall)
      rw [Option.some.inj hcall] at hphase
      obtain ⟨t, ht, hv⟩ := (h.attempts a hmem).ready interval next u hphase
      exact ⟨t, hdrawn _ _ _ (hseq ▸ ht), hv⟩
  · have hfresh {j : Nat} (hj : outs.length ≤ j) (hlt : j < outs'.length) : outs.length = j ∧
        ∃ p, b.callAt outs = some p ∧ a.heard = j ∧ ∀ c, a.phase ≠ .code c := by
      obtain ⟨hheard, hlength, houtside, p, next, v, hcallAt, -⟩ := hgrown hlt hj
      exact ⟨hlength, p, hcallAt, hheard, houtside⟩
    rcases hp with hlt | ⟨hlt, hdone⟩
    · by_cases hk : k + 1 < outs.length
      · rw [hold (by omega)] at hcall
        obtain ⟨v, t, hout, hwake, ht⟩ := h.past k interval hcall (.inl hk)
        exact ⟨v, t, Lists.getElem?_extend hpre hout, hwake, hclock ▸ ht⟩
      · obtain ⟨hlength, -, -, hheard, -⟩ := hfresh (Nat.le_of_not_lt hk) hlt
        rw [hold (by omega)] at hcall
        exact hover (by omega) hcall
    · rcases hstands.finishes hm hdone with hdone | ⟨result, hphase⟩
      · -- a finished job has come to the end of its code
        obtain ⟨result, hend⟩ := hreplayed.done hdone
        by_cases hk : k < outs.length
        · rw [hold hk] at hcall
          obtain ⟨v, t, hout, hwake, ht⟩ := h.past k interval hcall (.inr ⟨hk, hdone⟩)
          exact ⟨v, t, Lists.getElem?_extend hpre hout, hwake, hclock ▸ ht⟩
        · obtain ⟨-, p, hcallAt, -⟩ := hfresh (Nat.le_of_not_lt hk) hlt
          obtain ⟨next, hnext⟩ := Body.callAt_eq_some.mp hcallAt
          rw [hend] at hnext
          cases hnext
      · have hk : k < outs.length := by
          by_contra hk
          obtain ⟨-, -, -, -, houtside⟩ := hfresh (Nat.le_of_not_lt hk) hlt
          exact houtside _ hphase
        rw [hold hk] at hcall
        obtain ⟨-, hle, hafter⟩ : a.steps.isSome ∧ a.seq ≤ outs.length ∧
            (Body.done result).settled = b.after (outs.take a.seq) := by
          simpa only [At, hphase] using hstands.follows.at_
        refine hover (Execution.heard_of_code hphase ▸ ?_) hcall
        by_contra hge
        obtain ⟨p, hp⟩ := hreplayed.checkpoints.callAt (k := a.seq) (by omega)
        obtain ⟨next, hnext⟩ := Body.callAt_eq_some.mp hp
        rw [← hafter] at hnext
        cases hnext

end Slept

section Runs

variable {b : Body} {jid : Nat} {ρ : Run (Sys.step b.program jid)}

theorem Sys.Drawn.mono {n m seq : Nat} {interval t : Int} (hnm : n ≤ m)
    (h : Sys.Drawn ρ n seq interval t) : Sys.Drawn ρ m seq interval t := by
  obtain ⟨i, hi, h⟩ := h
  exact ⟨i, hi.trans_le hnm, h⟩

theorem Sys.clock_mono {n m : Nat} (hnm : n ≤ m) (hm : m ≤ ρ.length) :
    (ρ.state n).world.clock ≤ (ρ.state m).world.clock :=
  ρ.monotone (R := fun s t => s.world.clock ≤ t.world.clock) (fun _ => le_rfl) le_trans
    Sys.step_clock hnm hm

theorem Sys.Drawn.le {n seq : Nat} {interval t : Int} (hn : n ≤ ρ.length)
    (h : Sys.Drawn ρ n seq interval t) : t ≤ (ρ.state n).world.clock + interval := by
  obtain ⟨i, hi, -, rfl⟩ := h
  have := Sys.clock_mono (ρ := ρ) hi.le hn
  omega

theorem Slept.run {n m : Nat} {outs : List (Option Json)} (hnm : n ≤ m) (hm : m ≤ ρ.length)
    (hreplayed : Replayed b jid (ρ.state n) outs)
    (h : Slept b jid (ρ.state n) outs (Sys.Drawn ρ n)) : ∃ outs', outs <+: outs' ∧
      Replayed b jid (ρ.state m) outs' ∧ Slept b jid (ρ.state m) outs' (Sys.Drawn ρ m) := by
  induction hnm with
  | refl => exact ⟨outs, List.prefix_refl _, hreplayed, h⟩
  | @step m hnm ih =>
    obtain ⟨outs₁, hpre₁, hreplayed₁, hslept⟩ := ih (Nat.le_of_succ_le hm)
    have hnext := ρ.next m hm
    have hdrawn (seq : Nat) (interval t : Int) (h : Sys.Drawn ρ m seq interval t) :
        Sys.Drawn ρ (m + 1) seq interval t := h.mono m.le_succ
    cases hact : ρ.act m with
    | env a =>
      rw [hact] at hnext
      exact ⟨outs₁, hpre₁, hreplayed₁.env hnext, hslept.env hreplayed₁ hdrawn hnext⟩
    | attempt i move =>
      rw [hact] at hnext
      obtain ⟨outs₂, hpre₂, hreplayed₂⟩ := hreplayed₁.attempt hnext
      refine ⟨outs₂, hpre₁.trans hpre₂, hreplayed₂,
        hslept.attempt hreplayed₁ hreplayed₂ hpre₂ hnext hdrawn ?_
          fun seq interval t h => h.le (Nat.le_of_succ_le hm)⟩
      rintro a result interval next ha rfl hphase
      exact ⟨m, m.lt_succ_self, ⟨i, result, a, next, hact, ha, rfl, hphase⟩, rfl⟩

theorem slept_of_fresh (hρ : Sys.Fresh ρ) {n : Nat} (hn : n ≤ ρ.length) :
    ∃ outs, Replayed b jid (ρ.state n) outs ∧ Slept b jid (ρ.state n) outs (Sys.Drawn ρ n) := by
  obtain ⟨db, clock, queue, h0, hnext, hstep⟩ := hρ
  have hslept : Slept b jid (ρ.state 0) [] (Sys.Drawn ρ 0) := h0 ▸ .init db clock queue
  obtain ⟨outs, -, h⟩ := hslept.run n.zero_le hn (h0 ▸ .init clock queue hstep hnext)
  exact ⟨outs, h⟩

/-- The answers that say a call is a sleep are the first of those recorded. -/
theorem Replayed.sleeps {s : Sys Body} {outs : List (Option Json)} (h : Replayed b jid s outs)
    {seq : Nat} {interval : Int} (hsleep : s.sleeps b jid seq interval) :
    ∃ k, seq = k + 1 ∧ k ≤ outs.length ∧ b.callAt (outs.take k) = some (.sleep interval) := by
  obtain ⟨vs, rfl, hcall, hvs⟩ := hsleep
  have hout (k : Nat) (hk : k < vs.length) : outs[k]? = vs[k]? := by
    obtain ⟨row, ⟨hfind, he⟩, hrow⟩ := hvs k hk
    rw [hrow, h.checkpoints.output hfind he]
  have hle : vs.length ≤ outs.length := by
    by_contra hlt
    have hnone := hout outs.length (by omega)
    rw [List.getElem?_eq_none le_rfl] at hnone
    have := List.getElem?_eq_none_iff.mp hnone.symm
    omega
  have heq : outs.take vs.length = vs := by
    refine List.ext_getElem? fun k => ?_
    rw [List.getElem?_take]
    split
    · exact hout k ‹_›
    · exact (List.getElem?_eq_none (Nat.le_of_not_lt ‹_›)).symm
  exact ⟨vs.length, rfl, hle, heq.symm ▸ hcall⟩

/-- What is recorded for a sleep, and drawn up by an attempt before. -/
theorem Slept.wakes {n : Nat} {outs : List (Option Json)}
    (h : Slept b jid (ρ.state n) outs (Sys.Drawn ρ n))
    (hreplayed : Replayed b jid (ρ.state n) outs) {k : Nat} {interval : Int}
    {v : Option Json} {t : Int}
    (hcall : b.callAt (outs.take k) = some (.sleep interval)) (hout : outs[k]? = some v)
    (hwake : wakeAt v = some t) :
    (ρ.state n).wakes jid (k + 1) t ∧ Sys.Drawn ρ n (k + 1) interval t := by
  obtain ⟨u, hu, rfl⟩ := h.recorded k interval v hcall hout
  obtain rfl : u = t := Option.some.inj hwake
  obtain ⟨row, hrow, he⟩ := hreplayed.checkpoints.total k (List.getElem?_eq_some_iff.mp hout).1
  have hrecorded := hreplayed.checkpoints.output hrow he
  rw [hout] at hrecorded
  exact ⟨⟨row, ⟨hrow, he⟩, Option.some.inj hrecorded ▸ rfl⟩, hu⟩

end Runs

def charge : Option Json → Body := fun _ => .call (.transaction "charge") fun _ => .done none

def napBody : Body := .call (.sleep 5) charge

/-- The worker dies once the wake time is recorded, and the sweep requeues the job at once: the
next attempt parks it for what is left, and the one after that goes on. -/
def napEvents : List Event :=
  let claim : List Event := (Act.claim 0 { ClaimArgs.plain "q" with workerId := some 1 }).map .env
  [.env (.enqueue (.plain "q")), .env (.registerWorker (.plain "q"))] ++ claim ++
    [.load, .start none true, .call, .invoke (.ok none), .record 0 true, .crash].map (.attempt 0) ++
    [.env (.tick 2), .env (.supervise (.sweepDeadWorkerJobs [1] 0))] ++ claim ++
    [.load, .start none true, .call, .reschedule true].map (.attempt 1) ++
    [.env (.tick 3)] ++ claim ++
    [.load, .start none true, .call, .call, .invoke (.ok none), .record 0 true, .commit 0 none,
      .finish true].map (.attempt 2)

def napRun : Run (Sys.step napBody.program 1) :=
  .ofList (.init .empty 0 fun _ => none) napEvents (by decide)

theorem napRun_fresh : Sys.Fresh napRun := ⟨_, _, _, rfl, Nat.le_refl _, fun _ => rfl⟩

theorem napRun_sleeps (n : Nat) : (napRun.state n).sleeps napBody 1 1 5 :=
  ⟨[], rfl, rfl, fun k hk => absurd hk (Nat.not_lt_zero k)⟩

/-- A wake time once recorded stands. Whoever claims the job from then on goes straight past
the sleep when its time has come, and before that parks the job for the rest of it; and a
parked row is not due before its time. -/
theorem sleep_resumes (b : Body) (jid : Nat) (ρ : Run (Sys.step b.program jid))
    (hρ : Sys.Fresh ρ) : ∀ n m, n ≤ m → m ≤ ρ.length → ∀ seq interval t,
      (ρ.state n).sleeps b jid seq interval → (ρ.state n).wakes jid seq t →
      (ρ.state m).wakes jid seq t ∧
      (∀ i a c next, (ρ.state n).attempts.length ≤ i → (ρ.state m).attempts[i]? = some a →
        a.phase = .code c → b.program.head c = .call (.sleep interval) next → a.seq + 1 = seq →
        a.call (ρ.state m).world.clock (.sleep interval) next =
          if t ≤ (ρ.state m).world.clock then
            { a with
              seq, phase := .code (next none),
              answers := a.answers ++ [(seq, some (wakeRecord t))] }
          else { a with seq, phase := .parked (t - (ρ.state m).world.clock) }) ∧
      (∀ i ack a delay, m < ρ.length → ρ.act m = .attempt i (.reschedule ack) →
        (ρ.state m).attempts[i]? = some a → a.phase = .parked delay → a.seq = seq →
        ∀ r ∈ (ρ.state (m + 1)).world.db.jorb, r ∈ (ρ.state m).world.db.jorb ∨
          r.state = .queued ∧ t ≤ r.runAfter) := by
  intro n m hnm hm seq interval t hsleep hwakes
  obtain ⟨outs, hreplayed, hslept⟩ := slept_of_fresh hρ (hnm.trans hm)
  obtain ⟨outs', hpre, hreplayed', hslept'⟩ := hslept.run hnm hm hreplayed
  obtain ⟨k, rfl, -, hcall⟩ := hreplayed.sleeps hsleep
  obtain ⟨row, hrow, hwake⟩ := hwakes
  obtain ⟨j, hj, hout⟩ := hreplayed.checkpoints.answered hrow.1 hrow.2
  obtain rfl : k = j := Nat.succ.inj hj
  have hk := (List.getElem?_eq_some_iff.mp hout).1
  have hout' := Lists.getElem?_extend hpre hout
  have hcall' : b.callAt (outs'.take k) = some (.sleep interval) :=
    Lists.take_extend hpre hk.le ▸ hcall
  have hrecord : row.output = some (wakeRecord t) := by
    obtain ⟨u, -, hu⟩ := hslept.recorded k interval row.output hcall hout
    rw [hu, wakeAt_wakeRecord] at hwake
    exact hu.trans (congrArg (some ∘ wakeRecord) (Option.some.inj hwake))
  refine ⟨(hslept'.wakes hreplayed' hcall' hout' hwake).1, ?_, ?_⟩
  · intro i a c next hi ha hphase hhead hseq
    obtain rfl : a.seq = k := Nat.succ.inj hseq
    have hstands := hreplayed'.stands (List.mem_of_getElem? ha)
    obtain ⟨hsteps, -, hafter⟩ := hstands.onCall hphase (Body.eq_call hhead)
    obtain ⟨s, hs, he⟩ := ((hreplayed.serves_run hnm hm hk).2 i a hi ha).2 hsteps
    obtain ⟨hname, hanswer, -⟩ := hstands.replays hafter hs
    have hsame : s.output = some (wakeRecord t) :=
      (Option.some.inj ((hanswer he).symm.trans hout')).trans hrecord
    have hlook : Execution.checkpoint? { a with seq := a.seq + 1 } (a.seq + 1) = some s := hs
    simp only [Execution.call, hlook, hname, ne_eq, not_true_eq_false, if_false, hsame,
      wakeAt_wakeRecord]
    rfl
  · intro i ack a delay hlt hact ha hphase hseq r hr
    have hnext := ρ.next m hlt
    rw [hact] at hnext
    obtain ⟨a₁, w', a', entries, ha₁, hmove, heq⟩ := Sys.step_attempt hnext
    obtain rfl := Option.some.inj (ha.symm.trans ha₁)
    obtain ⟨l, v, u, hl, hv, hu, hle⟩ :=
      (hslept'.attempts a (List.mem_of_getElem? ha)).parked delay hphase
    obtain rfl : l = k := by omega
    obtain rfl := Option.some.inj (hv.symm.trans hout')
    obtain rfl : u = t := Option.some.inj (hu.symm.trans hwake)
    cases Execution.move_cases hmove with
    | @reschedule delay' ack w' a' hphase' hissue =>
      obtain rfl : delay = delay' := by
        rw [hphase] at hphase'
        exact Phase.parked.inj hphase'
      obtain ⟨w₁, hw₁, hpair⟩ := Option.map_eq_some_iff.mp hissue
      obtain ⟨wakes, rfl⟩ := World.worker_eq hw₁
      rw [heq, ← (Prod.mk.inj hpair).1] at hr
      obtain ⟨r₀, hr₀, rfl⟩ := Serial.mem_update.mp hr
      split
      · exact .inr ⟨rfl, hle⟩
      · exact .inl hr₀

theorem sleep_resumes_nap : ∃ a, (napRun.state 18).attempts[1]? = some a ∧
    a.call 2 (.sleep 5) charge = { a with seq := 1, phase := .parked 3 } := by
  obtain ⟨a, ha, hphase, hseq⟩ : ∃ a, (napRun.state 18).attempts[1]? = some a ∧
      a.phase = .code napBody ∧ a.seq + 1 = 1 := ⟨_, rfl, rfl, rfl⟩
  have hwakes : (napRun.state 10).wakes 1 1 5 := ⟨_, ⟨rfl, rfl⟩, rfl⟩
  have hclock : (napRun.state 18).world.clock = 2 := rfl
  have hcall := (sleep_resumes napBody 1 napRun napRun_fresh 10 18 (by decide) (by decide) 1 5 5
    (napRun_sleeps 10) hwakes).2.1 1 a napBody charge (by decide) ha hphase rfl hseq
  rw [hclock] at hcall
  exact ⟨a, ha, hcall⟩

end Pyjobby
