import Pyjobby.Cron

/-! The walk of `missed_cron_runs` as the code takes it: one `get_next` after another,
until a fire compares past `until`. Python compares two datetimes of one zone object by
their wall clocks, and `ZoneInfo` hands out one object a name. -/

namespace Pyjobby

/-- An aware datetime that fires are compared with. Given in the zone of the schedule, it
has the wall clock that it shows there. -/
structure Moment where
  instant : Int
  wall : Option Int

/-- A schedule in its zone: `croniter(expr, start)`, and the wall clock at an instant. -/
structure Zoned where
  getNext : Int → Nat → Fire
  wall : Int → Int

abbrev ZonedLib := String → String → Option Zoned

namespace Zoned

variable (z : Zoned) (expr : String)

/-- `fire > until`: by the wall clocks, whatever their fold, in one zone. -/
def later (until_ : Moment) (f : Fire) : Bool :=
  match until_.wall with
  | some w => w < z.wall f.instant
  | none => until_.instant < f.instant

/-- The loop of `missed_cron_runs` over `_fire_series`. -/
def walk (after : Int) (until_ : Moment) (keep : Int) (fuel : Nat) : Option MissedRuns :=
  (Series.loop (z.getNext after) (Croniter.fires expr) (z.later until_) (MissedWalk.visit keep)
    fuel 0 .empty).map MissedWalk.runs

/-- The schedule fires at a strictly increasing, unbounded series of instants. -/
abbrev Ascends (after : Int) : Prop :=
  Series.Ascends (z.getNext after) (Croniter.fires expr) Fire.instant after

/-- The fires of the schedule in `(after, until]`, in order. -/
structure Window (after until_ : Int) (window : List Fire) : Prop where
  sorted : window.Pairwise fun f g => f.instant < g.instant
  mem : ∀ f, f ∈ window ↔ (∃ k, Croniter.fires expr (z.getNext after k) ∧ z.getNext after k = f) ∧
    after < f.instant ∧ f.instant ≤ until_

/-- Given in the zone of the schedule, `until` shows a wall clock there that no fire up to
it has passed, and that the first fire after it has. -/
structure TellsApart (after : Int) (until_ : Moment) : Prop where
  upTo : ∀ w, until_.wall = some w → ∀ k, Croniter.fires expr (z.getNext after k) →
    (z.getNext after k).instant ≤ until_.instant → z.wall (z.getNext after k).instant ≤ w
  past : ∀ w, until_.wall = some w → ∀ k, Series.FirstFrom (fun j =>
    Croniter.fires expr (z.getNext after j) ∧ until_.instant < (z.getNext after j).instant) 0 k →
    w < z.wall (z.getNext after k).instant

end Zoned

/-- `missed_cron_runs`: `none` is its ValueError, and `some none` a walk that goes on. -/
def missedCronWalk (lib : ZonedLib) (expr timezone : String) (after : Int) (until_ : Moment)
    (keep : Int) (fuel : Nat) : Option (Option MissedRuns) :=
  (lib expr timezone).map fun z => z.walk expr after until_ keep fuel

/-- The newest `keep` of a window, and the tally of the older ones. -/
structure MissedRuns.Tally (m : MissedRuns) (keep : Int) (window : List Fire) : Prop where
  newest : window.take m.dropped ++ m.kept = window
  kept : (m.kept.length : Int) = min (max keep 0) window.length
  dropped : (m.dropped : Int) = window.length - m.kept.length
  ends : ∀ first last, m.droppedWindow = some (first, last) ↔
    (window.take m.dropped).head? = some first ∧ (window.take m.dropped).getLast? = some last
  none : m.droppedWindow = none ↔ m.dropped = 0

theorem droppedWindow_eq_some {old : List Fire} {first last : Fire} :
    droppedWindow old = some (first, last) ↔
      old.head? = some first ∧ old.getLast? = some last := by
  rw [droppedWindow]
  split <;> simp_all

theorem droppedWindow_eq_none {old : List Fire} : droppedWindow old = none ↔ old = [] := by
  cases old <;> simp [droppedWindow, List.getLast?_cons]

theorem MissedWalk.Dropped.runs_droppedWindow {w : MissedWalk} {old : List Fire}
    (h : Dropped w old) : w.runs.droppedWindow = droppedWindow old := by
  simp only [MissedWalk.runs, h.first, h.last, droppedWindow]

theorem MissedWalk.Splits.tally {keep : Int} {w : MissedWalk} {seen old : List Fire}
    (h : Splits keep w seen old) : w.runs.Tally keep seen := by
  have hcount : w.runs.dropped = old.length := h.dropped.count
  have htake : seen.take w.runs.dropped = old := by
    rw [h.seen, hcount, List.take_left']
    rfl
  have hlen : seen.length = old.length + w.kept.length := by rw [h.seen, List.length_append]
  have hkept : w.runs.kept = w.kept := rfl
  refine ⟨?_, ?_, ?_, fun first last => ?_, ?_⟩
  · rw [htake, hkept, h.seen]
  · rw [hkept]
    have hbound := h.bound
    by_cases hold : old = []
    · simp only [hold, List.length_nil, Nat.zero_add] at hlen
      omega
    · have hfull := h.full hold
      omega
  · rw [hkept]
    omega
  · rw [htake, h.dropped.runs_droppedWindow, droppedWindow_eq_some]
  · rw [h.dropped.runs_droppedWindow, droppedWindow_eq_none, hcount, List.length_eq_zero_iff]

/-- The walk ends with the newest of the fires in `(after, until]`. -/
def KeepsNewest (lib : ZonedLib) (expr timezone : String) (z : Zoned) (after : Int)
    (until_ : Moment) (keep : Int) : Prop :=
  ∃ window m turns, z.Window expr after until_.instant window ∧ m.Tally keep window ∧
    ∀ fuel, turns ≤ fuel → missedCronWalk lib expr timezone after until_ keep fuel = some (some m)

namespace Zoned

variable {z : Zoned} {expr : String} {after : Int} {until_ : Moment} {keep : Int} {n : ℕ}

/-- The position the walk breaks at. -/
abbrev Breaks (z : Zoned) (expr : String) (after : Int) (until_ : Moment) (n : ℕ) : Prop :=
  Series.FirstFrom (fun j => Croniter.fires expr (z.getNext after j) ∧
    z.later until_ (z.getNext after j)) 0 n

/-- The position of the first fire past `until`. -/
abbrev Past (z : Zoned) (expr : String) (after : Int) (until_ : Moment) (n : ℕ) : Prop :=
  Series.FirstFrom (fun j => Croniter.fires expr (z.getNext after j) ∧
    until_.instant < (z.getNext after j).instant) 0 n

/-- The fires before a position. -/
abbrev firesBefore (z : Zoned) (expr : String) (after : Int) (n : ℕ) : List Fire :=
  Series.yields (z.getNext after) (Croniter.fires expr) 0 n

theorem walk_of_breaks (h : z.Breaks expr after until_ n) (keep : Int) (fuel : ℕ)
    (hfuel : n + 1 < fuel) :
    z.walk expr after until_ keep fuel =
      some ((z.firesBefore expr after n).foldl (MissedWalk.visit keep) .empty).runs := by
  rw [walk, Series.loop_of_first h (by omega)]
  rfl

theorem breaks_of_walk {fuel : ℕ} {m : MissedRuns}
    (h : z.walk expr after until_ keep fuel = some m) : ∃ n, z.Breaks expr after until_ n := by
  obtain ⟨w, hw, -⟩ := Option.map_eq_some_iff.mp h
  exact Series.first_of_loop hw

/-- Whatever the comparison, the walk is right about the fires it sees. -/
theorem tally_fires (keep : Int) (fires : List Fire) :
    (fires.foldl (MissedWalk.visit keep) .empty).runs.Tally keep fires := by
  obtain ⟨old, h⟩ := (MissedWalk.Splits.empty keep).foldl fires
  exact h.tally

theorem Past.window (hseries : z.Ascends expr after) (h : z.Past expr after until_ n) :
    z.Window expr after until_.instant (z.firesBefore expr after n) where
  sorted := hseries.yields_pairwise 0 n
  mem _ := hseries.mem_yields h

theorem Window.unique {until_ : Int} {window window' : List Fire}
    (h : z.Window expr after until_ window) (h' : z.Window expr after until_ window') :
    window = window' :=
  Series.eq_of_ascending h.sorted h'.sorted fun f => (h.mem f).trans (h'.mem f).symm

theorem TellsApart.of_other_zone (h : until_.wall = none) : z.TellsApart expr after until_ where
  upTo w hw := by simp [h] at hw
  past w hw := by simp [h] at hw

/-- In the schedule's own zone it is enough that no wall clock is shown twice. -/
theorem TellsApart.of_ascending (hwall : ∀ {s t}, s < t → z.wall s < z.wall t)
    (h : until_.wall = some (z.wall until_.instant)) : z.TellsApart expr after until_ where
  upTo w hw k _ hle := by
    obtain rfl := Option.some.inj (h.symm.trans hw)
    rcases lt_or_eq_of_le hle with hlt | heq
    · exact (hwall hlt).le
    · exact (congrArg z.wall heq).le
  past w hw k hk := by
    obtain rfl := Option.some.inj (h.symm.trans hw)
    exact hwall hk.holds.2

theorem tellsApart_iff_later : z.TellsApart expr after until_ ↔
    (∀ k, Croniter.fires expr (z.getNext after k) →
      (z.getNext after k).instant ≤ until_.instant → ¬z.later until_ (z.getNext after k)) ∧
    ∀ k, z.Past expr after until_ k → z.later until_ (z.getNext after k) := by
  cases hwall : until_.wall with
  | none =>
    -- the comparison is one of instants, and tells them apart
    refine iff_of_true (.of_other_zone hwall) ⟨fun k _ hle => ?_, fun k hk => ?_⟩
    · simpa [later, hwall] using hle
    · simpa [later, hwall] using hk.holds.2
  | some w =>
    constructor
    · intro h
      refine ⟨fun k hk hle => ?_, fun k hk => ?_⟩
      · simpa [later, hwall] using h.upTo w hwall k hk hle
      · simpa [later, hwall] using h.past w hwall k hk
    · rintro ⟨hupTo, hpast⟩
      refine ⟨fun w' hw' k hk hle => ?_, fun w' hw' k hk => ?_⟩
      · obtain rfl := Option.some.inj (hwall.symm.trans hw')
        simpa [later, hwall] using hupTo k hk hle
      · obtain rfl := Option.some.inj (hwall.symm.trans hw')
        simpa [later, hwall] using hpast k hk

theorem Past.instant_le_iff (hn : z.Past expr after until_ n) (hseries : z.Ascends expr after)
    {j : ℕ} (hj : Croniter.fires expr (z.getNext after j)) :
    (z.getNext after j).instant ≤ until_.instant ↔ j < n := by
  constructor
  · intro hle
    by_contra hge
    rcases Nat.lt_or_eq_of_le (not_lt.mp hge) with hlt | rfl
    · have hpast := hn.holds.2
      have hmono := hseries.mono hlt hn.holds.1 hj
      omega
    · exact absurd hn.holds.2 (not_lt.mpr hle)
  · intro hlt
    by_contra hpast
    exact hn.least j (Nat.zero_le j) hlt ⟨hj, not_le.mp hpast⟩

theorem tellsApart_iff_breaks (hn : z.Past expr after until_ n)
    (hseries : z.Ascends expr after) :
    z.TellsApart expr after until_ ↔ z.Breaks expr after until_ n := by
  rw [tellsApart_iff_later]
  constructor
  · rintro ⟨hupTo, hpast⟩
    refine ⟨Nat.zero_le n, ⟨hn.holds.1, hpast n hn⟩, ?_⟩
    rintro j - hlt ⟨hj, hlater⟩
    exact hupTo j hj ((hn.instant_le_iff hseries hj).mpr hlt) hlater
  · intro h
    refine ⟨fun k hk hle hlater => ?_, fun k hk => ?_⟩
    · exact h.least k (Nat.zero_le k) ((hn.instant_le_iff hseries hk).mp hle) ⟨hk, hlater⟩
    · obtain rfl := hk.unique hn
      exact h.holds.2

/-- A wall clock that stays near its instant passes every bound, so the walk ends. -/
theorem walk_ends (hseries : z.Ascends expr after) {day : Int} (hday : ∀ t, t - day < z.wall t)
    (until_ : Moment) (keep : Int) :
    ∃ turns m, ∀ fuel, turns ≤ fuel → z.walk expr after until_ keep fuel = some m := by
  have hlater : ∃ j, 0 ≤ j ∧ Croniter.fires expr (z.getNext after j) ∧
      z.later until_ (z.getNext after j) := by
    cases hwall : until_.wall with
    | none =>
      obtain ⟨k, hk, hlt⟩ := hseries.unbounded until_.instant
      exact ⟨k, Nat.zero_le k, hk, by simpa [later, hwall] using hlt⟩
    | some w =>
      obtain ⟨k, hk, hlt⟩ := hseries.unbounded (w + day)
      have hnear := hday (z.getNext after k).instant
      refine ⟨k, Nat.zero_le k, hk, ?_⟩
      simp only [later, hwall, decide_eq_true_eq]
      omega
  obtain ⟨n, hn⟩ := Series.exists_firstFrom hlater
  exact ⟨n + 2, _, fun fuel hfuel => walk_of_breaks hn keep fuel (by omega)⟩

end Zoned

theorem missedCronWalk_eq {lib : ZonedLib} {expr timezone : String} {z : Zoned}
    (hz : lib expr timezone = some z) (after : Int) (until_ : Moment) (keep : Int) (fuel : ℕ) :
    missedCronWalk lib expr timezone after until_ keep fuel =
      some (z.walk expr after until_ keep fuel) := by
  rw [missedCronWalk, hz]
  rfl

theorem keepsNewest_iff_breaks {lib : ZonedLib} {expr timezone : String} {z : Zoned}
    (hz : lib expr timezone = some z) {after : Int} (hseries : z.Ascends expr after)
    {until_ : Moment} {n : ℕ} (hn : z.Past expr after until_ n) (keep : Int) :
    KeepsNewest lib expr timezone z after until_ keep ↔ z.Breaks expr after until_ n := by
  constructor
  · rintro ⟨window, m, turns, hwindow, htally, hwalk⟩
    simp only [missedCronWalk_eq hz, Option.some.injEq] at hwalk
    obtain ⟨k, hk⟩ := Zoned.breaks_of_walk (hwalk turns le_rfl)
    -- what the walk has seen is what it kept and what it dropped
    have hm := (Zoned.walk_of_breaks hk keep (turns + k + 2) (by omega)).symm.trans
      (hwalk (turns + k + 2) (by omega))
    have hseen := Zoned.tally_fires keep (z.firesBefore expr after k)
    rw [Option.some.inj hm] at hseen
    have hlen : (z.firesBefore expr after k).length = (z.firesBefore expr after n).length := by
      rw [← hwindow.unique (hn.window hseries)]
      have hdropped := hseen.dropped
      have hdropped' := htally.dropped
      omega
    obtain rfl := Series.yields_length_inj hk.holds.1 hn.holds.1 hlen
    exact hk
  · intro h
    refine ⟨_, _, n + 2, hn.window hseries, Zoned.tally_fires keep _, fun fuel hfuel => ?_⟩
    rw [missedCronWalk_eq hz, Zoned.walk_of_breaks h keep fuel (by omega)]

section Croniter

variable (c : Croniter) (wall : Int → Int) {expr : String} {after : Int} {until_ : Moment}

/-- The iterator of a schedule, in a zone with that wall clock. -/
def Croniter.zoned : Zoned := ⟨c.getNext, wall⟩

theorem Croniter.zoned_ascends (expr : String) (after : Int) :
    (c.zoned wall).Ascends expr after where
  mono hjk _ _ := (c.suffix after).mono hjk
  unbounded bound := by
    obtain ⟨k, hk⟩ := (c.fireSeries_lists expr after).exists_gt bound
    exact ⟨_, Series.keep_spec _ k, hk⟩
  above k _ := (((c.suffix after).mem _).mpr ⟨k, rfl⟩).2

theorem Croniter.window_between {window : List Fire} {bound : Int}
    (h : (c.zoned wall).Window expr after bound window) : c.Between expr after bound window where
  sorted := h.sorted
  mem f := by
    have hfires := (c.suffix after).mem f
    rw [h.mem, Croniter.Tick]
    constructor
    · rintro ⟨⟨k, hk, rfl⟩, hbounds⟩
      exact ⟨⟨(hfires.mpr ⟨k, rfl⟩).1, hk⟩, hbounds⟩
    · rintro ⟨⟨hf, hq⟩, hbounds⟩
      obtain ⟨k, rfl⟩ := hfires.mp ⟨hf, hbounds.1⟩
      exact ⟨⟨k, hq, rfl⟩, hbounds⟩

/-- With `until` in another zone, as the scheduler has it, the walk ends in what
`missedCronRuns` gives. -/
theorem missedCronWalk_eq_missedCronRuns {cron : CronLib} {timezone : String}
    (hc : cron expr timezone = some c) (h : until_.wall = none) (keep : Int) :
    ∃ turns, ∀ fuel, turns ≤ fuel →
      missedCronWalk (fun e t => (cron e t).map (·.zoned wall)) expr timezone after until_ keep
        fuel = (missedCronRuns cron expr timezone after until_.instant keep).map some := by
  have hseries := c.zoned_ascends wall expr after
  obtain ⟨n, hn⟩ := hseries.exists_past until_.instant
  have hbreaks := (Zoned.tellsApart_iff_breaks hn hseries).mp (.of_other_zone h)
  have hbetween := c.window_between wall (Zoned.Past.window hseries hn)
  have hsame : (c.zoned wall).firesBefore expr after n = c.firesUpTo expr after until_.instant :=
    Series.eq_of_ascending hbetween.sorted (c.firesUpTo_between expr after _).sorted
      fun f => (hbetween.mem f).trans ((c.firesUpTo_between expr after _).mem f).symm
  refine ⟨n + 2, fun fuel hfuel => ?_⟩
  have hz : (fun e t => (cron e t).map (·.zoned wall)) expr timezone = some (c.zoned wall) := by
    simp [hc]
  rw [missedCronWalk_eq hz, Zoned.walk_of_breaks hbreaks keep fuel (by omega), hsame,
    missedCronRuns, hc]
  rfl

end Croniter

/-- A zone whose hourly schedule is walked from the next full hour, in seconds. -/
def hourly (wall : Int → Int) (fold : Int → Bool) : Zoned where
  getNext start k := ⟨(start / 3600 + 1 + k) * 3600, fold ((start / 3600 + 1 + k) * 3600)⟩
  wall := wall

theorem fires_hourly (f : Fire) : Croniter.fires "0 * * * *" f := by
  have hinterval : isWallClockAnchored "0 * * * *" = false := by decide +kernel
  simp [Croniter.fires, hinterval]

theorem hourly_ascends (wall : Int → Int) (fold : Int → Bool) (after : Int) :
    (hourly wall fold).Ascends "0 * * * *" after where
  mono hjk _ _ := by
    simp only [hourly]
    omega
  unbounded bound := by
    refine ⟨(bound - after).toNat, fires_hourly _, ?_⟩
    simp only [hourly]
    omega
  above k _ := by
    simp only [hourly]
    omega

/-- The walk keeps the newest ticks of the window, and tallies the older ones, just when
the comparison tells the window from what follows it. -/
theorem missed_ticks_exact {lib : ZonedLib} {expr timezone : String} {z : Zoned}
    (hz : lib expr timezone = some z) {after : Int} (hseries : z.Ascends expr after)
    (until_ : Moment) (keep : Int) :
    KeepsNewest lib expr timezone z after until_ keep ↔ z.TellsApart expr after until_ := by
  obtain ⟨n, hn⟩ := hseries.exists_past until_.instant
  rw [keepsNewest_iff_breaks hz hseries hn, Zoned.tellsApart_iff_breaks hn hseries]

theorem missed_ticks_exact_hourly :
    KeepsNewest (fun _ _ => some (hourly id fun _ => false)) "0 * * * *" "UTC"
      (hourly id fun _ => false) 1780272000 ⟨1780308000, none⟩ 3 :=
  (missed_ticks_exact rfl (hourly_ascends _ _ _) _ _).mpr (.of_other_zone rfl)

/-- New York falls back at 06:00 UTC on the day of these instants. -/
def newYork : Zoned :=
  hourly (fun t => if t < 1825567200 then t - 14400 else t - 18000)
    fun t => 1825567200 ≤ t && t < 1825570800

/-- Until 01:30, from 00:30 on: 01:00 comes twice, and its second pass, half an hour past
`until`, does not compare past it. -/
theorem missed_ticks_repeated_hour :
    newYork.Ascends "0 * * * *" 1825561800 ∧
    missedCronWalk (fun _ _ => some newYork) "0 * * * *" "America/New_York" 1825561800
      ⟨1825565400, some 1825551000⟩ 10 10 =
        some (some ⟨[⟨1825563600, false⟩, ⟨1825567200, true⟩], 0, none⟩) ∧
    ¬KeepsNewest (fun _ _ => some newYork) "0 * * * *" "America/New_York" newYork 1825561800
      ⟨1825565400, some 1825551000⟩ 10 := by
  have hseries : newYork.Ascends "0 * * * *" 1825561800 := hourly_ascends _ _ _
  have hpast : newYork.Past "0 * * * *" 1825561800 ⟨1825565400, some 1825551000⟩ 1 := by
    refine ⟨Nat.zero_le 1, ⟨fires_hourly _, by decide⟩, ?_⟩
    rintro j - hj ⟨-, hlt⟩
    obtain rfl : j = 0 := by omega
    exact absurd hlt (by decide)
  refine ⟨hseries, by decide +kernel, ?_⟩
  rw [keepsNewest_iff_breaks rfl hseries hpast]
  intro hbreaks
  exact absurd hbreaks.holds.2 (by decide)

end Pyjobby
