import Pyjobby.Lib.Run

/-! The wakeup of an idle worker: the run loop between its await points, the
LISTEN callback that sets `_wake`, and the gate of the enqueue trigger. -/

namespace Pyjobby

open Transition

/-- Where `JobSystem.run` stands. Every position but `top` is an await point, at
which the event loop may run the LISTEN callback. -/
inductive LoopPos where
  | top
  | waiting
  | claiming (again : Bool)
  | answered (again : Bool) (row : Option Nat)
  | publishing (committed : Bool)
  | reporting
  | withdrawing
  | refusing
  | processing
  deriving DecidableEq

/-- The worker, its registry row, and the queue as far as it concerns the worker.
A row is named by the commit that queued it, the `next` one being the number of
commits so far. `claimable` are the queued rows the worker could claim. Of those
committed after the snapshot of its last claim (`unseen`) and those a
notification was emitted for (`notified`) the loop itself knows nothing. -/
structure Parking where
  pos : LoopPos
  wake : Bool
  sleepytime : Bool
  idle : Bool
  registered : Bool
  published : Bool
  next : Nat
  claimable : List Nat
  unseen : List Nat
  notified : List Nat
  inFlight : List Nat

inductive ParkingAct where
  | commit (otherIdle : Bool)
  | taken (row : Nat)
  | deliver (row : Nat)
  | retire
  | park
  | proceed (refuse : Bool)
  | snapshot (row : Option Nat)
  | resume (report : Bool)

instance : Inhabited ParkingAct := ⟨.retire⟩

namespace Parking

def init (registered : Bool) : Parking where
  pos := .top
  wake := false
  sleepytime := false
  idle := false
  registered := registered
  published := false
  next := 0
  claimable := []
  unseen := []
  notified := []
  inFlight := []

/-- A row is queued: the deferred trigger looks for an idle worker on the queue
and notifies every session that listens, this worker's among them. -/
def commit (s : Parking) (otherIdle : Bool) : Parking :=
  let queued : Parking :=
    { s with
      next := s.next + 1, claimable := s.next :: s.claimable, unseen := s.next :: s.unseen }
  if s.published || otherIdle then
    { queued with notified := s.next :: s.notified, inFlight := s.next :: s.inFlight }
  else queued

/-- After the sleep, or without one: claim, or refuse to while abandoned threads
fill the pool, withdrawing the demand first. -/
def proceed (s : Parking) (refuse : Bool) : Parking :=
  if refuse then
    if s.idle then { s with pos := .refusing } else { s with pos := .top, sleepytime := true }
  else { s with pos := .claiming false }

def withdraw (s : Parking) : Parking := { s with idle := false, published := false }

/-- What the loop does when the statement it awaits is answered. -/
def resume (s : Parking) (report : Bool) : Option Parking :=
  match s.pos with
  | .answered again none =>
    if !again && !s.idle then
      if s.registered then some { s with pos := .publishing false }
      else some { s with idle := true, pos := .claiming true }
    else if report then some { s with pos := .reporting }
    else some { s with pos := .top, sleepytime := true }
  | .answered _ (some _) =>
    if s.idle then some { s with pos := .withdrawing }
    else some { s with pos := .processing, sleepytime := false }
  | .publishing false => some { s with published := true, pos := .publishing true }
  | .publishing true => some { s with idle := true, pos := .claiming true }
  | .reporting => some { s with pos := .top, sleepytime := true }
  | .withdrawing => some { s.withdraw with pos := .processing, sleepytime := false }
  | .refusing => some { s.withdraw with pos := .top, sleepytime := true }
  | .processing => some { s with pos := .top }
  | _ => none

/-- The claim's snapshot sees every row committed before it. It returns one the
worker could claim, or none where limits or locks stand in the way. -/
def snapshot (s : Parking) (again : Bool) (row : Option Nat) : Option Parking :=
  match row with
  | none => some { s with pos := .answered again none, unseen := [] }
  | some r =>
    if r ∈ s.claimable then
      some { s with
        pos := .answered again (some r), unseen := [], claimable := s.claimable.erase r }
    else none

def step (s : Parking) : ParkingAct → Option Parking
  | .commit otherIdle => some (s.commit otherIdle)
  | .taken row => some { s with claimable := s.claimable.erase row }
  | .deliver row =>
    if s.pos ≠ .top ∧ row ∈ s.inFlight then
      some { s with inFlight := s.inFlight.filter (· ≠ row), wake := true }
    else none
  | .retire => some { s with published := false }
  | .park =>
    if s.pos = .top ∧ s.sleepytime then some { s with wake := false, pos := .waiting } else none
  | .proceed refuse =>
    if s.pos = .top ∨ s.pos = .waiting then some (s.proceed refuse) else none
  | .snapshot row =>
    match s.pos with
    | .claiming again => s.snapshot again row
    | _ => none
  | .resume report => s.resume report

/-- The notification of a row that the last claim could not see has reached the
worker, and the row is still there to claim. -/
def Delivered (s : Parking) (row : Nat) : Prop :=
  row ∈ s.claimable ∧ row ∈ s.unseen ∧ row ∈ s.notified ∧ row ∉ s.inFlight

instance (s : Parking) (row : Nat) : Decidable (s.Delivered row) :=
  inferInstanceAs (Decidable (_ ∧ _ ∧ _ ∧ _))

/-- The worker sleeps although a notified row waits for it. -/
def LostWakeup (s : Parking) : Prop :=
  s.pos = .waiting ∧ s.wake = false ∧ ∃ row, s.Delivered row

/-- The loop moves on: it does not fall asleep, and it emits no notification. -/
structure LoopMove (s s' : Parking) : Prop where
  awake : s'.pos ≠ .waiting
  next : s'.next = s.next
  notified : s'.notified = s.notified

theorem proceed_loopMove (s : Parking) (refuse : Bool) : LoopMove s (s.proceed refuse) := by
  unfold proceed
  split
  · split
    · exact ⟨by simp, rfl, rfl⟩
    · exact ⟨by simp, rfl, rfl⟩
  · exact ⟨by simp, rfl, rfl⟩

theorem snapshot_loopMove {s s' : Parking} {again : Bool} {row : Option Nat}
    (h : s.snapshot again row = some s') : LoopMove s s' := by
  unfold snapshot at h
  split at h
  · cases h
    exact ⟨by simp, rfl, rfl⟩
  · split at h
    · cases h
      exact ⟨by simp, rfl, rfl⟩
    · cases h

theorem resume_loopMove {s s' : Parking} {report : Bool} (h : s.resume report = some s') :
    LoopMove s s' := by
  unfold resume at h
  split at h
  · split at h
    · split at h <;> cases h <;> exact ⟨by simp, rfl, rfl⟩
    · split at h <;> cases h <;> exact ⟨by simp, rfl, rfl⟩
  · split at h <;> cases h <;> exact ⟨by simp, rfl, rfl⟩
  · cases h
    exact ⟨by simp, rfl, rfl⟩
  · cases h
    exact ⟨by simp, rfl, rfl⟩
  · cases h
    exact ⟨by simp, rfl, rfl⟩
  · cases h
    exact ⟨by simp, rfl, rfl⟩
  · cases h
    exact ⟨by simp, rfl, rfl⟩
  · cases h
    exact ⟨by simp, rfl, rfl⟩
  · cases h

/-- What a step can do, as far as sleeping and notifications go. -/
inductive Effect (s : Parking) : ParkingAct → Parking → Prop where
  | commit (otherIdle : Bool) : Effect s (.commit otherIdle) (s.commit otherIdle)
  | taken (row : Nat) :
      Effect s (.taken row) { s with claimable := s.claimable.erase row }
  | deliver (row : Nat) : Effect s (.deliver row)
      { s with inFlight := s.inFlight.filter (· ≠ row), wake := true }
  | retire : Effect s .retire { s with published := false }
  | park : Effect s .park { s with wake := false, pos := .waiting }
  | loop {a : ParkingAct} {s' : Parking} (move : LoopMove s s') : Effect s a s'

theorem step_effect {s s' : Parking} {a : ParkingAct} (h : s.step a = some s') : s.Effect a s' := by
  cases a with
  | commit otherIdle => cases h; exact .commit otherIdle
  | taken row => cases h; exact .taken row
  | retire => cases h; exact .retire
  | deliver row =>
    simp only [Parking.step] at h
    split at h
    · cases h
      exact .deliver row
    · cases h
  | park =>
    simp only [Parking.step] at h
    split at h
    · cases h
      exact .park
    · cases h
  | proceed refuse =>
    simp only [Parking.step] at h
    split at h
    · cases h
      exact .loop (s.proceed_loopMove refuse)
    · cases h
  | snapshot row =>
    simp only [Parking.step] at h
    split at h
    · exact .loop (snapshot_loopMove h)
    · cases h
  | resume report => exact .loop (resume_loopMove h)

/-- A notification is emitted for a row already committed. -/
def NotifiedCommitted (s : Parking) : Prop := ∀ row ∈ s.notified, row < s.next

theorem NotifiedCommitted.step {s s' : Parking} {a : ParkingAct} (hs : s.NotifiedCommitted)
    (h : s.Effect a s') : s'.NotifiedCommitted := by
  cases h with
  | commit otherIdle =>
    have hold : ∀ row ∈ s.notified, row < s.next + 1 := fun row hrow =>
      Nat.lt_succ_of_lt (hs row hrow)
    unfold Parking.commit
    split
    · intro row hrow
      rcases List.mem_cons.mp hrow with rfl | hrow
      · exact Nat.lt_succ_self _
      · exact hold row hrow
    · exact hold
  | taken | deliver | retire | park => exact hs
  | loop move => simpa only [NotifiedCommitted, move.next, move.notified] using hs

theorem delivered_commit {s : Parking} (hs : s.NotifiedCommitted) {otherIdle : Bool} {row : Nat}
    (h : (s.commit otherIdle).Delivered row) : s.Delivered row := by
  obtain ⟨hclaimable, hunseen, hnotified, hflight⟩ := h
  unfold Parking.commit at hclaimable hunseen hnotified hflight
  split at hnotified
  · rw [if_pos ‹_›] at hclaimable hunseen hflight
    have hne : row ≠ s.next := fun heq => hflight (heq ▸ List.mem_cons_self)
    exact ⟨List.mem_of_ne_of_mem hne hclaimable, List.mem_of_ne_of_mem hne hunseen,
      List.mem_of_ne_of_mem hne hnotified, fun hf => hflight (List.mem_cons_of_mem _ hf)⟩
  · rw [if_neg ‹_›] at hclaimable hunseen hflight
    have hne : row ≠ s.next := Nat.ne_of_lt (hs row hnotified)
    exact ⟨List.mem_of_ne_of_mem hne hclaimable, List.mem_of_ne_of_mem hne hunseen, hnotified,
      hflight⟩

/-- The step does not clear `_wake` over a delivered notification. -/
def ClearsNothing (s : Parking) (a : ParkingAct) : Prop := a = .park → ∀ row, ¬s.Delivered row

/-- A worker asleep with `_wake` clear has no delivered row to miss. -/
def SleepsSound (s : Parking) : Prop :=
  s.pos = .waiting → s.wake = false → ∀ row, ¬s.Delivered row

theorem SleepsSound.step {s s' : Parking} {a : ParkingAct} (hs : s.SleepsSound)
    (hn : s.NotifiedCommitted) (hpark : s.ClearsNothing a)
    (h : s.Effect a s') : s'.SleepsSound := by
  intro hpos hwake row hdel
  cases h with
  | commit otherIdle =>
    have hsame : (s.commit otherIdle).pos = s.pos ∧ (s.commit otherIdle).wake = s.wake := by
      unfold Parking.commit
      split <;> exact ⟨rfl, rfl⟩
    exact hs (hsame.1 ▸ hpos) (hsame.2 ▸ hwake) row (delivered_commit hn hdel)
  | taken taken =>
    exact hs hpos hwake row ⟨List.mem_of_mem_erase hdel.1, hdel.2⟩
  | deliver => cases hwake
  | retire => exact hs hpos hwake row hdel
  | park => exact hpark rfl row hdel
  | loop move => exact move.awake hpos

end Parking

abbrev ParkingRun := Run Parking.step

/-- The worker never sleeps through a wakeup exactly if, whenever the loop clears
`_wake`, no notification has already reached it for a row that came after the
snapshot of its last claim and is still there. -/
theorem no_lost_wakeup (ρ : ParkingRun) (hρ : ∃ registered, ρ.state 0 = .init registered) :
    (∀ n ≤ ρ.length, ¬(ρ.state n).LostWakeup) ↔
      ∀ n < ρ.length, (ρ.state n).ClearsNothing (ρ.act n) := by
  constructor
  · intro h n hn hpark row hdel
    have hnext := ρ.next n hn
    simp only [hpark, Parking.step] at hnext
    split at hnext
    · refine h (n + 1) hn ?_
      rw [← Option.some.inj hnext]
      exact ⟨rfl, rfl, row, hdel⟩
    · cases hnext
  · intro h n hn hlost
    obtain ⟨registered, h0⟩ := hρ
    have hsound : ∀ n ≤ ρ.length, (ρ.state n).NotifiedCommitted ∧ (ρ.state n).SleepsSound := by
      refine ρ.invariant_of (P := fun s => s.NotifiedCommitted ∧ s.SleepsSound) h ?_
        fun hs hok hstep => ?_
      · rw [h0]
        exact ⟨by simp [Parking.NotifiedCommitted, Parking.init],
          fun hpos => by simp [Parking.init] at hpos⟩
      · have heff := Parking.step_effect hstep
        exact ⟨hs.1.step heff, hs.2.step hs.1 hok heff⟩
    obtain ⟨hpos, hwake, row, hdel⟩ := hlost
    exact (hsound n hn).2 hpos hwake row hdel

/-- A first claim finds nothing, the demand is published, the second claim's
snapshot finds nothing, and the enqueue falls between that snapshot and its answer. -/
def lostWakeupActs : List ParkingAct :=
  [.proceed false, .snapshot none, .resume false, .resume false, .resume false, .snapshot none,
    .commit false, .deliver 0, .resume false, .park]

def lostWakeupRun : ParkingRun := .ofList (.init true) lostWakeupActs (by decide)

theorem wakeup_lost :
    ¬∀ ρ : ParkingRun, (∃ registered, ρ.state 0 = .init registered) →
      ∀ n ≤ ρ.length, ¬(ρ.state n).LostWakeup := fun h =>
  h lostWakeupRun ⟨true, rfl⟩ 10 (by decide) ⟨by decide, by decide, 0, by decide⟩

/-- The same enqueue, announced while the worker sleeps. -/
def wokenActs : List ParkingAct :=
  [.proceed false, .snapshot none, .resume false, .resume false, .resume false, .snapshot none,
    .resume false, .park, .commit false, .deliver 0]

def wokenRun : ParkingRun := .ofList (.init true) wokenActs (by decide)

theorem no_lost_wakeup_woken :
    (wokenRun.state 10).wake = true ∧ ∀ n ≤ 10, ¬(wokenRun.state n).LostWakeup := by
  refine ⟨by decide, (no_lost_wakeup wokenRun ⟨true, rfl⟩).mpr fun n hn hpark row hdel => ?_⟩
  have hnone : ∀ n < 10, (wokenRun.state n).pos = .top → (wokenRun.state n).claimable = [] := by
    decide
  have htop : (wokenRun.state n).pos = .top := by
    have hnext := wokenRun.next n hn
    simp only [hpark, Parking.step] at hnext
    split at hnext
    · exact And.left ‹_›
    · cases hnext
  have hmem := hdel.1
  rw [hnone n hn htop] at hmem
  cases hmem

end Pyjobby
