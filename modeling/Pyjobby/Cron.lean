import Pyjobby.Lib.Series
import Pyjobby.Lib.Text

/-! Cron evaluation: the one walk of a cron expression, what fires next, and what
was missed. The library's iterator is a parameter, and so is what it makes of the
texts of an expression and a zone. -/

namespace Pyjobby

/-- An aware datetime in the zone of a schedule. -/
structure Fire where
  instant : Int
  fold : Bool
  deriving DecidableEq

/-- `croniter(expr, start)` in one zone. From any start the iterator gives the
increasing suffix of one series, and a repeated hour comes to an end. -/
structure Croniter where
  getNext : Int → Nat → Fire
  Fires : Fire → Prop
  suffix (start : Int) :
    Series.Lists (getNext start) Fire.instant fun f => Fires f ∧ start < f.instant
  folds_end (start : Int) (k : Nat) : ∃ j, k ≤ j ∧ (getNext start j).fold = false

/-- `resolve_timezone` and `validate_cron`: a name or an expression that they
refuse is a ValueError. -/
abbrev CronLib := String → String → Option Croniter

def isWallClockAnchored (expr : String) : Bool :=
  let fields := (expr.toList.splitOnP Text.isSpace).filter (!·.isEmpty)
  if fields.length < 5 then false else !(fields.getD 1 []).contains '*'

namespace Croniter

variable (c : Croniter) (expr : String)

/-- An instant of the series that the schedule fires at: an anchored one passes
over the replay of a repeated hour. -/
def fires (f : Fire) : Bool := !(f.fold && isWallClockAnchored expr)

def fireSeries (after : Int) : Nat → Fire :=
  Series.keep (c.getNext after) (fires expr) fun k =>
    (c.folds_end after k).imp fun _ hj => ⟨hj.1, by simp [fires, hj.2]⟩

/-- The ticks of a schedule. -/
def Tick (f : Fire) : Prop := c.Fires f ∧ fires expr f

theorem fireSeries_lists (after : Int) :
    Series.Lists (c.fireSeries expr after) Fire.instant
      fun f => c.Tick expr f ∧ after < f.instant := by
  have hkeep := (c.suffix after).keep (q := fires expr) fun k =>
    (c.folds_end after k).imp fun _ hj => ⟨hj.1, by simp [fires, hj.2]⟩
  refine ⟨hkeep.mono, fun f => Iff.trans ?_ (hkeep.mem f)⟩
  simp only [Tick]
  tauto

/-- The first tick after `now`. -/
structure First (now : Int) (f : Fire) : Prop where
  tick : c.Tick expr f
  after : now < f.instant
  least : ∀ g, c.Tick expr g → now < g.instant → f.instant ≤ g.instant

/-- The ticks after `lo` and up to `hi`, in order. -/
structure Between (lo hi : Int) (fires : List Fire) : Prop where
  sorted : fires.Pairwise fun f g => f.instant < g.instant
  mem : ∀ f, f ∈ fires ↔ c.Tick expr f ∧ lo < f.instant ∧ f.instant ≤ hi

theorem fireSeries_first (after : Int) : c.First expr after (c.fireSeries expr after 0) :=
  have hlists := c.fireSeries_lists expr after
  ⟨hlists.head.1, hlists.head.2, fun _ hg hlt => hlists.head_le ⟨hg, hlt⟩⟩

/-- The fires a loop over the series sees before it breaks at `until`. -/
def firesUpTo (after until_ : Int) : List Fire :=
  Series.upTo (c.fireSeries expr after) Fire.instant until_
    ((c.fireSeries_lists expr after).exists_gt until_)

theorem firesUpTo_between (after until_ : Int) :
    c.Between expr after until_ (c.firesUpTo expr after until_) where
  sorted := (c.fireSeries_lists expr after).upTo_pairwise _
  mem f := by
    rw [firesUpTo, (c.fireSeries_lists expr after).mem_upTo]
    tauto

end Croniter

def nextCronRun (cron : CronLib) (expr timezone : String) (after : Int) : Option Fire :=
  (cron expr timezone).map fun c => c.fireSeries expr after 0

structure MissedRuns where
  kept : List Fire
  dropped : Nat
  droppedWindow : Option (Fire × Fire)
  deriving DecidableEq

/-- The locals of `missed_cron_runs`. -/
structure MissedWalk where
  kept : List Fire
  dropped : Nat
  firstDropped : Option Fire
  lastDropped : Option Fire

namespace MissedWalk

def empty : MissedWalk := ⟨[], 0, none, none⟩

def drop (w : MissedWalk) (f : Fire) : MissedWalk :=
  { w with
    dropped := w.dropped + 1, firstDropped := w.firstDropped <|> some f, lastDropped := some f }

def visit (keep : Int) (w : MissedWalk) (f : Fire) : MissedWalk :=
  if keep ≤ 0 then w.drop f
  else
    let w :=
      match w.kept with
      | oldest :: rest =>
        if (w.kept.length : Int) = keep then { w with kept := rest }.drop oldest else w
      | [] => w
    { w with kept := w.kept ++ [f] }

def runs (w : MissedWalk) : MissedRuns :=
  ⟨w.kept, w.dropped,
    match w.firstDropped, w.lastDropped with
    | some first, some last => some (first, last)
    | _, _ => none⟩

/-- The tally of what the walk has dropped. -/
structure Dropped (w : MissedWalk) (old : List Fire) : Prop where
  count : w.dropped = old.length
  first : w.firstDropped = old.head?
  last : w.lastDropped = old.getLast?

theorem Dropped.drop {w : MissedWalk} {old : List Fire} (h : Dropped w old) (f : Fire) :
    Dropped (w.drop f) (old ++ [f]) where
  count := by simp [MissedWalk.drop, h.count]
  first := by cases old <;> simp [MissedWalk.drop, h.first]
  last := by simp [MissedWalk.drop]

/-- What the walk has seen is what it dropped and then the newest, which it keeps. -/
structure Splits (keep : Int) (w : MissedWalk) (seen old : List Fire) : Prop where
  seen : seen = old ++ w.kept
  dropped : Dropped w old
  bound : (w.kept.length : Int) ≤ max keep 0
  full : old ≠ [] → (w.kept.length : Int) = max keep 0

theorem Splits.empty (keep : Int) : Splits keep empty [] [] :=
  ⟨rfl, ⟨rfl, rfl, rfl⟩, le_max_right keep 0, fun h => absurd rfl h⟩

theorem Splits.visit {keep : Int} {w : MissedWalk} {seen old : List Fire}
    (h : Splits keep w seen old) (f : Fire) :
    ∃ old, Splits keep (w.visit keep f) (seen ++ [f]) old := by
  obtain ⟨hseen, hdropped, hbound, hfull⟩ := h
  by_cases hkeep : keep ≤ 0
  · have hnil : w.kept = [] := List.eq_nil_of_length_eq_zero (by omega)
    refine ⟨old ++ [f], ?_⟩
    simp only [MissedWalk.visit, hkeep, if_true]
    refine ⟨?_, hdropped.drop f, hbound, fun _ => ?_⟩
    · simp [MissedWalk.drop, hseen, hnil]
    · simp [MissedWalk.drop, hnil, hkeep]
  · simp only [MissedWalk.visit, hkeep, if_false]
    cases hkept : w.kept with
    | nil =>
      refine ⟨old, ?_, ⟨hdropped.count, hdropped.first, hdropped.last⟩, ?_, fun hold => ?_⟩
      · simp [hseen, hkept]
      · simp [hkept]
        omega
      · have hnone := hfull hold
        simp only [hkept, List.length_nil] at hnone
        omega
    | cons oldest rest =>
      simp only [hkept, List.length_cons, Nat.cast_add, Nat.cast_one] at hbound hfull ⊢
      split
      · -- the window is full, and the oldest it holds makes room
        have hdrop := hdropped.drop oldest
        refine ⟨old ++ [oldest], ?_, ⟨hdrop.count, hdrop.first, hdrop.last⟩, ?_, fun _ => ?_⟩
        · simp [MissedWalk.drop, hseen, hkept]
        · simp [MissedWalk.drop]
          omega
        · simp [MissedWalk.drop]
          omega
      · refine ⟨old, ?_, ⟨hdropped.count, hdropped.first, hdropped.last⟩, ?_, fun hold => ?_⟩
        · simp [hseen, hkept]
        · simp [hkept]
          omega
        · have := hfull hold
          omega

theorem Splits.foldl {keep : Int} (fires : List Fire) {w : MissedWalk} {seen old : List Fire}
    (h : Splits keep w seen old) :
    ∃ old, Splits keep (fires.foldl (MissedWalk.visit keep) w) (seen ++ fires) old := by
  induction fires generalizing w seen old with
  | nil => exact ⟨old, by simpa using h⟩
  | cons f fires ih =>
    obtain ⟨old', h'⟩ := h.visit f
    simpa using ih h'

end MissedWalk

def missedCronRuns (cron : CronLib) (expr timezone : String) (after until_ keep : Int) :
    Option MissedRuns :=
  (cron expr timezone).map fun c =>
    ((c.firesUpTo expr after until_).foldl (MissedWalk.visit keep) .empty).runs

def droppedWindow (old : List Fire) : Option (Fire × Fire) :=
  match old.head?, old.getLast? with
  | some first, some last => some (first, last)
  | _, _ => none

/-- The ticks missed are the dropped ones and then the newest `keep`. -/
theorem missedCronRuns_spec {cron : CronLib} {expr timezone : String} {c : Croniter}
    (hc : cron expr timezone = some c) (after until_ keep : Int) :
    ∃ old m, missedCronRuns cron expr timezone after until_ keep = some m ∧
      c.Between expr after until_ (old ++ m.kept) ∧ m.dropped = old.length ∧
      m.droppedWindow = droppedWindow old ∧ (m.kept.length : Int) ≤ max keep 0 ∧
      (old ≠ [] → (m.kept.length : Int) = max keep 0) := by
  obtain ⟨old, h⟩ :=
    (MissedWalk.Splits.empty keep).foldl (c.firesUpTo expr after until_)
  refine ⟨old, _, by rw [missedCronRuns, hc]; rfl, ?_, h.dropped.count, ?_, h.bound, h.full⟩
  · have hseen := h.seen
    rw [List.nil_append] at hseen
    exact hseen ▸ c.firesUpTo_between expr after until_
  · simp only [MissedWalk.runs, h.dropped.first, h.dropped.last, droppedWindow]

theorem nextCronRun_spec {cron : CronLib} {expr timezone : String} {c : Croniter}
    (hc : cron expr timezone = some c) (after : Int) :
    ∃ f, nextCronRun cron expr timezone after = some f ∧ c.First expr after f :=
  ⟨_, by rw [nextCronRun, hc]; rfl, c.fireSeries_first expr after⟩

end Pyjobby
