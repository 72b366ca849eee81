import Pyjobby.Lib.Executor
import Pyjobby.Lib.Run

/-! The thread pool of a worker: when it refuses to claim because abandoned threads fill the
pool, and what its heartbeat says of them. -/

namespace Pyjobby.JobThreads

open Pool Transition

/-- Where the worker's loop is; `awaiting` is inside `_resolve`. -/
inductive Phase where
  | between
  | cleared
  | claimed
  | awaiting (thread : Nat)
  | resolved
  deriving DecidableEq

structure Worker where
  pool : Executor
  /-- `_job_threads`. -/
  jobThreads : List Nat
  /-- `_running_thread`. -/
  runningThread : Option Nat
  phase : Phase
  /-- `job_threads_abandoned`, as the last heartbeat wrote it. -/
  published : Nat

namespace Worker

def init (workers : Nat) : Worker := ⟨⟨workers, []⟩, [], none, .between, 0⟩

/-- `_live_job_threads`, which drops from the list what is done. -/
def prune (s : Worker) : Worker :=
  { s with jobThreads := s.jobThreads.filter (!s.pool.done ·) }

def liveJobThreads (s : Worker) : Nat := (s.jobThreads.filter (!s.pool.done ·)).length

def abandonedJobThreads (s : Worker) : Nat :=
  if s.runningThread.any (!s.pool.done ·) then s.liveJobThreads - 1 else s.liveJobThreads

def tooManyAbandonedThreads (s : Worker) : Bool := s.pool.workers ≤ s.liveJobThreads

inductive Act where
  | check
  | claim (got : Bool)
  /-- The claimed job ends without a thread of its own: superseded, unloadable, cancelled. -/
  | skip
  | submit
  | resume
  /-- The deadline or an operator cancels the wait for the thread. -/
  | interrupt
  | settle
  | start (thread : Nat)
  | finish (thread : Nat)
  | heartbeat
  deriving DecidableEq, Inhabited

def step (s : Worker) : Act → Option Worker
  | .check =>
    if s.phase = .between then
      some { s.prune with phase := if s.tooManyAbandonedThreads then .between else .cleared }
    else none
  | .claim got =>
    if s.phase = .cleared then some { s with phase := if got then .claimed else .between }
    else none
  | .skip => if s.phase = .claimed then some { s with phase := .resolved } else none
  | .submit =>
    if s.phase = .claimed then
      let thread := s.pool.futures.length
      some { s with
        pool := s.pool.submit
        jobThreads := s.jobThreads ++ [thread]
        runningThread := some thread
        phase := .awaiting thread }
    else none
  | .resume =>
    match s.phase with
    | .awaiting thread =>
      if s.pool.done thread then some { s with runningThread := none, phase := .resolved } else none
    | _ => none
  | .interrupt =>
    match s.phase with
    | .awaiting thread =>
      some { s with pool := s.pool.cancel thread, runningThread := none, phase := .resolved }
    | _ => none
  | .settle => if s.phase = .resolved then some { s with phase := .between } else none
  | .start thread => (s.pool.start thread).map fun pool => { s with pool }
  | .finish thread => (s.pool.finish thread).map fun pool => { s with pool }
  | .heartbeat => some { s.prune with published := s.abandonedJobThreads }

end Worker

abbrev WorkerRun := Run Worker.step

/-- What the phase says of the pool. -/
def Phase.Allows (p : Executor) : Phase → Prop
  | .between | .resolved => p.waiting = 0
  | .cleared | .claimed => p.waiting = 0 ∧ p.busy < p.workers
  | .awaiting thread =>
    (∀ i, p.futures[i]? = some .pending → i = thread) ∧
      (p.unfinished.filter (· ≠ thread)).length < p.workers

theorem awaiting_mark {p : Executor} {thread i : Nat} {t u : Status}
    (h : (Phase.awaiting thread).Allows p) (hi : p.futures[i]? = some t) (hu : u ≠ .pending)
    (hdone : t.done → u.done) : (Phase.awaiting thread).Allows (p.mark i u) := by
  obtain ⟨honly, hroom⟩ := h
  refine ⟨fun j hj => ?_, lt_of_le_of_lt ?_ hroom⟩
  · rw [Executor.getElem?_mark hi] at hj
    split at hj
    · exact absurd (Option.some.inj hj) hu
    · exact honly j hj
  · exact ((Executor.unfinished_sublist Executor.mark_length fun _ =>
      Executor.done_mark hi hdone).filter _).length_le

structure Sound (s : Worker) : Prop where
  tracked : s.pool.Tracked s.jobThreads
  held : ∀ i ∈ s.jobThreads, i < s.pool.futures.length
  busy : s.pool.busy ≤ s.pool.workers
  running : s.runningThread = match s.phase with
    | .awaiting thread => some thread
    | _ => none
  allows : s.phase.Allows s.pool

namespace Sound

variable {s s' : Worker}

theorem init (workers : Nat) : Sound (.init workers) where
  tracked := List.Perm.refl _
  held := fun _ h => absurd h List.not_mem_nil
  busy := Nat.zero_le _
  running := rfl
  allows := rfl

/-- What a thread of the pool does, the worker looking on. -/
theorem mark (h : Sound s) {i : Nat} {t u : Status} (hi : s.pool.futures[i]? = some t)
    (hdone : t.done → u.done) (hbusy : (s.pool.mark i u).busy ≤ s.pool.workers)
    (hallows : s.phase.Allows (s.pool.mark i u)) : Sound { s with pool := s.pool.mark i u } where
  tracked := h.tracked.mono Executor.mark_length fun _ => Executor.done_mark hi hdone
  held j hj := by
    rw [Executor.mark_length]
    exact h.held j hj
  busy := hbusy
  running := h.running
  allows := hallows

theorem prune (h : Sound s) : Sound s.prune where
  tracked := h.tracked.prune
  held i hi := h.held i (List.mem_of_mem_filter hi)
  busy := h.busy
  running := h.running
  allows := h.allows

theorem live (h : Sound s) : s.liveJobThreads = s.pool.busy + s.pool.waiting := h.tracked.length

theorem start (h : Sound s) {i : Nat} {p : Executor} (hp : s.pool.start i = some p) :
    Sound { s with pool := p } := by
  obtain ⟨hi, -, hfree, rfl⟩ := Executor.start_eq_some.mp hp
  obtain ⟨hbusy, hwaiting⟩ := Executor.run_counts hi
  have hallows := h.allows
  refine h.mark hi nofun (by omega) ?_
  cases hphase : s.phase with
  | awaiting thread =>
    rw [hphase] at hallows
    exact awaiting_mark hallows hi nofun nofun
  | between | resolved =>
    rw [hphase] at hallows
    exact absurd hi (Executor.waiting_eq_zero.mp hallows i)
  | cleared | claimed =>
    rw [hphase] at hallows
    exact absurd hi (Executor.waiting_eq_zero.mp hallows.1 i)

theorem finish (h : Sound s) {i : Nat} {p : Executor} (hp : s.pool.finish i = some p) :
    Sound { s with pool := p } := by
  obtain ⟨hi, rfl⟩ := Executor.finish_eq_some.mp hp
  obtain ⟨hbusy, hwaiting⟩ := Executor.finish_counts hi
  have hallows := h.allows
  have hfew := h.busy
  refine h.mark hi (fun _ => rfl) (by omega) ?_
  cases hphase : s.phase with
  | awaiting thread =>
    rw [hphase] at hallows
    exact awaiting_mark hallows hi nofun fun _ => rfl
  | between | resolved =>
    rw [hphase] at hallows
    exact hwaiting.trans hallows
  | cleared | claimed =>
    rw [hphase] at hallows
    exact ⟨hwaiting.trans hallows.1, by simp only [Executor.mark_workers]; omega⟩

theorem submit (h : Sound s) (hphase : s.phase = .claimed) :
    Sound { s with
      pool := s.pool.submit
      jobThreads := s.jobThreads ++ [s.pool.futures.length]
      runningThread := some s.pool.futures.length
      phase := .awaiting s.pool.futures.length } where
  tracked := h.tracked.submit h.held
  held i hi := by
    simp only [Executor.submit, List.length_append, List.length_singleton]
    rcases List.mem_append.mp hi with hi | hi
    · have := h.held i hi
      omega
    · obtain rfl := List.mem_singleton.mp hi
      omega
  busy := by
    simp only [Executor.submit_busy]
    exact h.busy
  running := rfl
  allows := by
    have hallows := h.allows
    rw [hphase] at hallows
    obtain ⟨hwaiting, hroom⟩ := hallows
    refine ⟨fun i hi => ?_, ?_⟩
    · have hnone := Executor.waiting_eq_zero.mp hwaiting i
      rw [Executor.submit, List.getElem?_append] at hi
      split at hi
      · exact absurd hi hnone
      · obtain ⟨hlt, -⟩ := List.getElem?_eq_some_iff.mp hi
        simp only [List.length_singleton] at hlt
        omega
    · have hnew : s.pool.futures.length ∈ s.pool.submit.unfinished :=
        Executor.mem_unfinished.mpr (.inl (by simp [Executor.submit]))
      have hothers := Executor.filter_unfinished_of_mem hnew
      rw [Executor.length_unfinished, Executor.submit_busy, Executor.submit_waiting,
        hwaiting] at hothers
      simp only [Executor.submit] at hothers ⊢
      omega

theorem interrupt (h : Sound s) {thread : Nat} (hphase : s.phase = .awaiting thread) :
    Sound { s with pool := s.pool.cancel thread, runningThread := none, phase := .resolved } := by
  have hallows := h.allows
  rw [hphase] at hallows
  obtain ⟨honly, -⟩ := hallows
  by_cases hi : s.pool.futures[thread]? = some .pending
  · rw [Executor.cancel_of_pending hi]
    refine ⟨h.tracked.mono Executor.mark_length fun _ => Executor.done_mark hi fun _ => rfl,
      fun j hj => ?_, ?_, rfl, ?_⟩
    · simp only [Executor.mark_length]
      exact h.held j hj
    · simp only [(Executor.cancel_counts hi).1]
      exact h.busy
    · refine Executor.waiting_eq_zero.mpr fun j hj => ?_
      rw [Executor.getElem?_mark hi] at hj
      split at hj
      · cases hj
      · next hne => exact hne (honly j hj).symm
  · rw [Executor.cancel_of_ne hi]
    exact ⟨h.tracked, h.held, h.busy, rfl,
      Executor.waiting_eq_zero.mpr fun j hj => hi (honly j hj ▸ hj)⟩

theorem resume (h : Sound s) {thread : Nat} (hphase : s.phase = .awaiting thread)
    (hdone : s.pool.done thread) :
    Sound { s with runningThread := none, phase := .resolved } := by
  have hallows := h.allows
  rw [hphase] at hallows
  obtain ⟨honly, -⟩ := hallows
  refine ⟨h.tracked, h.held, h.busy, rfl, Executor.waiting_eq_zero.mpr fun j hj => ?_⟩
  obtain rfl := honly j hj
  rw [Executor.done_of_getElem? hj] at hdone
  cases hdone

end Sound

theorem Sound.step {s s' : Worker} (h : Sound s) {a : Worker.Act} (hs : s.step a = some s') :
    Sound s' := by
  have hallows := h.allows
  have hrunning := h.running
  cases a with
  | check =>
    simp only [Worker.step, Option.ite_none_right_eq_some, Option.some.injEq] at hs
    obtain ⟨hphase, rfl⟩ := hs
    rw [hphase] at hallows hrunning
    have hpruned := h.prune
    refine ⟨hpruned.tracked, hpruned.held, h.busy, ?_, ?_⟩
    · split <;> exact hrunning
    · split
      · exact hallows
      · next hfew =>
        have hlive := h.live
        simp only [Worker.tooManyAbandonedThreads, decide_eq_true_eq] at hfew
        refine ⟨hallows, ?_⟩
        change s.pool.busy < s.pool.workers
        have hallows : s.pool.waiting = 0 := hallows
        omega
  | claim got =>
    simp only [Worker.step, Option.ite_none_right_eq_some, Option.some.injEq] at hs
    obtain ⟨hphase, rfl⟩ := hs
    rw [hphase] at hallows hrunning
    cases got with
    | true => exact ⟨h.tracked, h.held, h.busy, hrunning, hallows⟩
    | false => exact ⟨h.tracked, h.held, h.busy, hrunning, hallows.1⟩
  | skip =>
    simp only [Worker.step, Option.ite_none_right_eq_some, Option.some.injEq] at hs
    obtain ⟨hphase, rfl⟩ := hs
    rw [hphase] at hallows hrunning
    exact ⟨h.tracked, h.held, h.busy, hrunning, hallows.1⟩
  | submit =>
    simp only [Worker.step, Option.ite_none_right_eq_some, Option.some.injEq] at hs
    obtain ⟨hphase, rfl⟩ := hs
    exact h.submit hphase
  | resume =>
    simp only [Worker.step] at hs
    split at hs
    · next thread hphase =>
      simp only [Option.ite_none_right_eq_some, Option.some.injEq] at hs
      obtain ⟨hdone, rfl⟩ := hs
      exact h.resume hphase hdone
    · cases hs
  | interrupt =>
    simp only [Worker.step] at hs
    split at hs
    · next thread hphase => exact Option.some.inj hs ▸ h.interrupt hphase
    · cases hs
  | settle =>
    simp only [Worker.step, Option.ite_none_right_eq_some, Option.some.injEq] at hs
    obtain ⟨hphase, rfl⟩ := hs
    rw [hphase] at hallows hrunning
    exact ⟨h.tracked, h.held, h.busy, hrunning, hallows⟩
  | start thread =>
    obtain ⟨p, hp, rfl⟩ := Option.map_eq_some_iff.mp hs
    exact h.start hp
  | finish thread =>
    obtain ⟨p, hp, rfl⟩ := Option.map_eq_some_iff.mp hs
    exact h.finish hp
  | heartbeat =>
    obtain rfl := Option.some.inj hs
    have hpruned := h.prune
    exact ⟨hpruned.tracked, hpruned.held, h.busy, hrunning, hallows⟩

/-- The running threads that nothing waits for. -/
def Worker.orphans (s : Worker) : List Nat :=
  (List.range s.pool.futures.length).filter fun i =>
    s.pool.futures[i]? = some .running && s.runningThread ≠ some i

namespace Sound

variable {s : Worker}

/-- A thread that waits for a slot is the one the worker awaits, and has one. -/
theorem pending (h : Sound s) {i : Nat} (hi : s.pool.futures[i]? = some .pending) :
    s.phase = .awaiting i ∧ s.pool.busy < s.pool.workers := by
  have hallows := h.allows
  cases hphase : s.phase with
  | awaiting thread =>
    rw [hphase] at hallows
    obtain ⟨honly, hroom⟩ := hallows
    obtain rfl := honly i hi
    have hothers := Executor.filter_unfinished_of_mem (Executor.mem_unfinished.mpr (.inl hi))
    have hwaiting : s.pool.waiting ≠ 0 := fun h0 => Executor.waiting_eq_zero.mp h0 i hi
    rw [Executor.length_unfinished] at hothers
    exact ⟨rfl, by omega⟩
  | between | resolved =>
    rw [hphase] at hallows
    exact absurd hi (Executor.waiting_eq_zero.mp hallows i)
  | cleared | claimed =>
    rw [hphase] at hallows
    exact absurd hi (Executor.waiting_eq_zero.mp hallows.1 i)

theorem runningThread_eq (h : Sound s) {i : Nat} (hphase : s.phase = .awaiting i) :
    s.runningThread = some i := by
  rw [h.running, hphase]

theorem orphans_eq (h : Sound s) :
    s.orphans = s.pool.unfinished.filter fun i => s.runningThread ≠ some i := by
  unfold Worker.orphans Executor.unfinished
  rw [List.filter_filter]
  refine List.filter_congr fun i hi => ?_
  rw [Bool.eq_iff_iff]
  simp only [Bool.and_eq_true, decide_eq_true_eq]
  constructor
  · rintro ⟨hrunning, hne⟩
    exact ⟨hne, by rw [Executor.done_of_getElem? hrunning]; rfl⟩
  · rintro ⟨hne, hdone⟩
    refine ⟨?_, hne⟩
    have hmem : i ∈ s.pool.unfinished := List.mem_filter.mpr ⟨hi, hdone⟩
    rcases Executor.mem_unfinished.mp hmem with hpending | hrunning
    · exact absurd (h.runningThread_eq (h.pending hpending).1) hne
    · exact hrunning

theorem abandoned_eq (h : Sound s) : s.abandonedJobThreads = s.orphans.length := by
  have hlive : s.liveJobThreads = s.pool.unfinished.length := List.Perm.length_eq h.tracked
  rw [Worker.abandonedJobThreads, hlive, h.orphans_eq]
  cases hrunning : s.runningThread with
  | none => simp
  | some thread =>
    have hothers : (s.pool.unfinished.filter fun i => some thread ≠ some i) =
        s.pool.unfinished.filter (· ≠ thread) :=
      List.filter_congr fun i _ => by simp [eq_comm]
    rw [hothers, Option.any_some]
    cases hdone : s.pool.done thread with
    | false =>
      have hcount := Executor.filter_unfinished_of_mem (Executor.mem_unfinished_of_done hdone)
      simp only [Bool.not_false, if_true]
      omega
    | true =>
      have hmem : thread ∉ s.pool.unfinished := fun hmem => by
        simpa [hdone] using (List.mem_filter.mp hmem).2
      rw [Executor.filter_unfinished_of_notMem hmem]
      rfl

end Sound

/-- While a job holds a slot, or is about to take one, what is abandoned leaves one free. -/
theorem Sound.orphans_lt {s : Worker} (h : Sound s)
    (hphase : s.phase ≠ .between ∧ s.phase ≠ .resolved) : s.orphans.length < s.pool.workers := by
  have hallows := h.allows
  rw [h.orphans_eq]
  cases hp : s.phase with
  | awaiting thread =>
    rw [hp] at hallows
    refine lt_of_le_of_lt (List.Sublist.length_le ?_) hallows.2
    refine List.monotone_filter_right _ fun i hi => ?_
    simp only [h.runningThread_eq hp, ne_eq, Option.some.injEq, decide_eq_true_eq] at hi ⊢
    exact fun hthread => hi hthread.symm
  | between | resolved => simp [hp] at hphase
  | cleared | claimed =>
    rw [hp] at hallows
    have hall := List.length_filter_le (fun i => s.runningThread ≠ some i) s.pool.unfinished
    have hlength := s.pool.length_unfinished
    have hfew := hallows.2
    have hnone := hallows.1
    omega

/-- A claimed job never queues behind an abandoned thread: one that waits for a slot has it. The
heartbeat counts the running threads nothing waits for, and they are as many as the pool has
slots exactly when the worker, between jobs or about to be, refuses to claim. -/
theorem job_threads_never_queue (ρ : WorkerRun) (hρ : ∃ workers, ρ.state 0 = .init workers) :
    ∀ n ≤ ρ.length,
      (∀ i : Nat, (ρ.state n).pool.futures[i]? = some .pending →
        (ρ.state n).phase = .awaiting i ∧ ((ρ.state n).pool.start i).isSome) ∧
      (ρ.state n).pool.busy ≤ (ρ.state n).pool.workers ∧
      (ρ.state n).abandonedJobThreads = (ρ.state n).orphans.length ∧
      ((ρ.state n).pool.workers ≤ (ρ.state n).abandonedJobThreads ↔
        ((ρ.state n).phase = .between ∨ (ρ.state n).phase = .resolved) ∧
          (ρ.state n).tooManyAbandonedThreads) := by
  obtain ⟨workers, h0⟩ := hρ
  intro n hn
  have h : Sound (ρ.state n) := ρ.invariant (h0 ▸ .init workers) (fun h hs => h.step hs) n hn
  refine ⟨fun i hi => ?_, h.busy, h.abandoned_eq, ?_⟩
  · obtain ⟨hphase, hfree⟩ := h.pending hi
    have hfirst : Status.pending ∉ (ρ.state n).pool.futures.take i := by
      intro hmem
      obtain ⟨j, hj⟩ := List.mem_iff_getElem?.mp hmem
      rw [List.getElem?_take] at hj
      split at hj
      · next hlt =>
        have hsame := hphase.symm.trans (h.pending hj).1
        injection hsame with hij
        omega
      · cases hj
    exact ⟨hphase, Option.isSome_iff_exists.mpr
      ⟨_, Executor.start_eq_some.mpr ⟨hi, hfirst, hfree, rfl⟩⟩⟩
  · rw [h.abandoned_eq]
    by_cases hphase : (ρ.state n).phase = .between ∨ (ρ.state n).phase = .resolved
    · have hnone : (ρ.state n).runningThread = none := by
        rw [h.running]
        rcases hphase with hphase | hphase <;> rw [hphase]
      have hlive : (ρ.state n).liveJobThreads = (ρ.state n).orphans.length := by
        rw [← h.abandoned_eq, Worker.abandonedJobThreads, hnone]
        rfl
      simp [hphase, Worker.tooManyAbandonedThreads, hlive]
    · have hfree := h.orphans_lt (not_or.mp hphase)
      exact iff_of_false (by omega) fun hrefuses => hphase hrefuses.1

/-- A pool of one, whose job times out in its thread. -/
def abandonedActs : List Worker.Act :=
  [.check, .claim true, .submit, .start 0, .interrupt, .settle, .heartbeat, .check]

def abandonedRun : WorkerRun := .ofList (.init 1) abandonedActs (by decide)

theorem job_threads_never_queue_refusing :
    (abandonedRun.state 8).published = 1 ∧ (abandonedRun.state 8).phase = .between ∧
      (abandonedRun.state 8).tooManyAbandonedThreads :=
  ⟨by decide, by decide,
    ((job_threads_never_queue abandonedRun ⟨1, rfl⟩ 8 le_rfl).2.2.2.mp (by decide)).2⟩

end Pyjobby.JobThreads
