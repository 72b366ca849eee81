import Pyjobby.Lib.Run
import Pyjobby.Lib.Table
import Mathlib.Data.List.Sort

/-! Tables that several sessions keep short. Each drains the expired rows batch by batch, a probe
that locks a batch and then its delete, while rows are added, whole groups of rows are dropped
and the other sessions drain too. -/

namespace Expiry

open Relational Transition

variable {R : Type} {ident : R → Nat}

/-- Which rows a probe takes and in which order; `group` is what a row is dropped with. -/
structure Rule (ident : R → Nat) where
  group : R → Nat
  order : R → Int
  expired : Int → Serial ident → R → Bool

/-- How far a session's drain has come, `total` rows after it began. -/
inductive Phase where
  | ready (total : Nat) (deadline : Int)
  | holding (total : Nat) (deadline : Int) (batch : List Nat)
  | swept (total : Nat) (deadline : Int) (deleted : Nat)
  | returned (total : Nat) (caughtUp : Bool)

def Phase.batch : Phase → List Nat
  | .holding _ _ batch => batch
  | _ => []

structure Sys (ident : R → Nat) where
  clock : Int
  rows : Serial ident
  sessions : List Phase

inductive Act (ident : R → Nat) where
  | tick (d : Nat)
  | add (row : {mk : Nat → R // ∀ n, ident (mk n) = n})
  | drop (group : Nat)
  | start (m : Nat)
  | probe (m : Nat) (busy : List Nat)
  | delete (m : Nat)
  | fail (m : Nat)
  | settle (m : Nat) (stop : Bool)

instance : Inhabited (Act ident) := ⟨.tick 0⟩

namespace Sys

def held (s : Sys ident) (i : Nat) : Bool := s.sessions.any fun p => i ∈ p.batch

def setPhase (s : Sys ident) (m : Nat) (p : Phase) : Sys ident :=
  { s with sessions := s.sessions.set m p }

/-- The rows a probe may lock; those that others hold are skipped. -/
def candidates (rule : Rule ident) (s : Sys ident) (busy : List Nat) : List R :=
  s.rows.rows.filter fun r => rule.expired s.clock s.rows r && !s.held (ident r) && ident r ∉ busy

def pick (rule : Rule ident) (batchSize : Nat) (s : Sys ident) (busy : List Nat) : List Nat :=
  (((s.candidates rule busy).insertionSort fun r y => rule.order r ≤ rule.order y).take
    batchSize).map ident

def step (rule : Rule ident) (batchSize : Nat) (maxTime : Int) (s : Sys ident) :
    Act ident → Option (Sys ident)
  | .tick d => some { s with clock := s.clock + d }
  | .add row => some { s with rows := s.rows.insert row.1 row.2 }
  | .drop g =>
    if s.rows.rows.any fun r => rule.group r = g && s.held (ident r) then none
    else some { s with rows := s.rows.delete fun r => rule.group r = g }
  | .start m =>
    match s.sessions[m]? with
    | some (.returned _ _) => some (s.setPhase m (.ready 0 (s.clock + maxTime)))
    | _ => none
  | .probe m busy =>
    match s.sessions[m]? with
    | some (.ready total deadline) =>
      if s.pick rule batchSize busy = [] then some (s.setPhase m (.swept total deadline 0))
      else some (s.setPhase m (.holding total deadline (s.pick rule batchSize busy)))
    | _ => none
  | .delete m =>
    match s.sessions[m]? with
    | some (.holding total deadline batch) =>
      some { s.setPhase m (.swept (total + batch.length) deadline batch.length) with
        rows := s.rows.delete fun r => ident r ∈ batch }
    | _ => none
  | .fail m =>
    match s.sessions[m]? with
    -- after the delete: its COMMIT took effect, and the answer was lost
    | some (.ready _ _) | some (.holding _ _ _) | some (.swept _ _ _) =>
      some (s.setPhase m (.returned 0 false))
    | _ => none
  | .settle m stop =>
    match s.sessions[m]? with
    | some (.swept total deadline deleted) =>
      if deleted < batchSize then some (s.setPhase m (.returned total true))
      else if stop || deadline ≤ s.clock then some (s.setPhase m (.returned total false))
      else some (s.setPhase m (.ready total deadline))
    | _ => none

end Sys

variable {rule : Rule ident} {batchSize : Nat} {maxTime : Int} {s s' : Sys ident} {a : Act ident}

/-- What a step does. -/
inductive Step (rule : Rule ident) (batchSize : Nat) (s : Sys ident) :
    Act ident → Sys ident → Prop where
  | tick (d : Nat) : Step rule batchSize s (.tick d) { s with clock := s.clock + d }
  | add (row : {mk : Nat → R // ∀ n, ident (mk n) = n}) :
      Step rule batchSize s (.add row) { s with rows := s.rows.insert row.1 row.2 }
  | drop (g : Nat) (free : ∀ r ∈ s.rows, rule.group r = g → s.held (ident r) = false) :
      Step rule batchSize s (.drop g) { s with rows := s.rows.delete fun r => rule.group r = g }
  | probe {m total : Nat} {deadline : Int} {q : Phase} (busy : List Nat)
      (was : s.sessions[m]? = some (.ready total deadline))
      (now : q = .holding total deadline (s.pick rule batchSize busy) ∨
        q = .swept total deadline 0 ∧ s.pick rule batchSize busy = []) :
      Step rule batchSize s (.probe m busy) (s.setPhase m q)
  | delete {m total : Nat} {deadline : Int} {batch : List Nat}
      (was : s.sessions[m]? = some (.holding total deadline batch)) :
      Step rule batchSize s (.delete m)
        { s.setPhase m (.swept (total + batch.length) deadline batch.length) with
          rows := s.rows.delete fun r => ident r ∈ batch }
  | caughtUp {m total deleted : Nat} {deadline : Int} (stop : Bool)
      (was : s.sessions[m]? = some (.swept total deadline deleted)) (short : deleted < batchSize) :
      Step rule batchSize s (.settle m stop) (s.setPhase m (.returned total true))
  | start {m : Nat} {p : Phase} (was : s.sessions[m]? = some p) (deadline : Int) :
      Step rule batchSize s (.start m) (s.setPhase m (.ready 0 deadline))
  | fail {m : Nat} {p : Phase} (was : s.sessions[m]? = some p) :
      Step rule batchSize s (.fail m) (s.setPhase m (.returned 0 false))
  | goOn {m total deleted : Nat} {deadline : Int} {q : Phase} (stop : Bool)
      (was : s.sessions[m]? = some (.swept total deadline deleted))
      (now : q = .ready total deadline ∨ q = .returned total false) :
      Step rule batchSize s (.settle m stop) (s.setPhase m q)

theorem Sys.step_cases (h : s.step rule batchSize maxTime a = some s') :
    Step rule batchSize s a s' := by
  cases a with
  | tick d => exact Option.some.inj h ▸ .tick d
  | add row => exact Option.some.inj h ▸ .add row
  | drop g =>
    simp only [step] at h
    split at h
    · cases h
    · rename_i hfree
      refine Option.some.inj h ▸ .drop g fun r hr hg => Bool.eq_false_iff.mpr fun hheld => hfree ?_
      exact List.any_eq_true.mpr ⟨r, hr, by simp [hg, hheld]⟩
  | start m =>
    simp only [step] at h
    split at h
    · exact Option.some.inj h ▸ .start ‹_› _
    · cases h
  | probe m busy =>
    simp only [step] at h
    split at h
    · split at h
      · exact Option.some.inj h ▸ .probe busy ‹_› (.inr ⟨rfl, ‹_›⟩)
      · exact Option.some.inj h ▸ .probe busy ‹_› (.inl rfl)
    · cases h
  | delete m =>
    simp only [step] at h
    split at h
    · exact Option.some.inj h ▸ .delete ‹_›
    · cases h
  | fail m =>
    simp only [step] at h
    split at h
    · exact Option.some.inj h ▸ .fail ‹_›
    · exact Option.some.inj h ▸ .fail ‹_›
    · exact Option.some.inj h ▸ .fail ‹_›
    · cases h
  | settle m stop =>
    simp only [step] at h
    split at h
    · split at h
      · exact Option.some.inj h ▸ .caughtUp stop ‹_› ‹_›
      · split at h
        · exact Option.some.inj h ▸ .goOn stop ‹_› (.inr rfl)
        · exact Option.some.inj h ▸ .goOn stop ‹_› (.inl rfl)
    · cases h

namespace Sys

theorem held_iff {i : Nat} :
    s.held i ↔ ∃ (m : Nat) (p : Phase), s.sessions[m]? = some p ∧ i ∈ p.batch := by
  simp only [held, List.any_eq_true, decide_eq_true_eq]
  constructor
  · rintro ⟨p, hp, hi⟩
    obtain ⟨m, hm⟩ := List.mem_iff_getElem?.mp hp
    exact ⟨m, p, hm, hi⟩
  · rintro ⟨m, p, hm, hi⟩
    exact ⟨p, List.mem_of_getElem? hm, hi⟩

theorem setPhase_eq_some {m j : Nat} {p p' q : Phase} (was : s.sessions[m]? = some p) :
    (s.setPhase m q).sessions[j]? = some p' ↔
      j = m ∧ p' = q ∨ j ≠ m ∧ s.sessions[j]? = some p' := by
  have hlt : m < s.sessions.length := (List.getElem?_eq_some_iff.mp was).1
  rw [setPhase, List.getElem?_set]
  by_cases hj : j = m
  · simp [hj, hlt, eq_comm]
  · simp [hj, Ne.symm hj]

theorem mem_candidates {busy : List Nat} {r : R} : r ∈ s.candidates rule busy ↔
    r ∈ s.rows ∧ rule.expired s.clock s.rows r ∧ s.held (ident r) = false ∧ ident r ∉ busy := by
  simp [candidates, Serial.mem_rows, and_assoc]

theorem mem_pick {busy : List Nat} {i : Nat} (h : i ∈ s.pick rule batchSize busy) :
    ∃ r ∈ s.candidates rule busy, ident r = i := by
  obtain ⟨r, hr, rfl⟩ := List.mem_map.mp h
  exact ⟨r, (List.mem_insertionSort _).mp (List.mem_of_mem_take hr), rfl⟩

theorem nodup_pick (busy : List Nat) : (s.pick rule batchSize busy).Nodup := by
  have hcandidates : ((s.candidates rule busy).map ident).Nodup :=
    s.rows.nodup.sublist (List.filter_sublist.map ident)
  have hsorted : (((s.candidates rule busy).insertionSort
      fun r y => rule.order r ≤ rule.order y).map ident).Nodup :=
    ((List.perm_insertionSort _ _).map ident).nodup_iff.mpr hcandidates
  exact hsorted.sublist ((List.take_sublist _ _).map ident)

/-- A batch that comes back short has taken every candidate. -/
theorem pick_all {busy : List Nat} (h : (s.pick rule batchSize busy).length < batchSize) {r : R}
    (hr : r ∈ s.candidates rule busy) : ident r ∈ s.pick rule batchSize busy := by
  rw [pick, List.length_map, List.length_take] at h
  rw [pick, List.take_of_length_le (by omega)]
  exact List.mem_map_of_mem ((List.mem_insertionSort _).mpr hr)

theorem exists_newest (s : Sys ident) (group : R → Nat) {r : R} (hr : r ∈ s.rows) :
    ∃ y ∈ s.rows, group y = group r ∧ ident r ≤ ident y ∧
      ∀ z ∈ s.rows, group z = group r → ident z ≤ ident y := by
  induction hn : s.rows.next - ident r using Nat.strong_induction_on generalizing r with
  | _ n ih =>
    by_cases hnewer : ∃ z ∈ s.rows, group z = group r ∧ ident r < ident z
    · obtain ⟨z, hz, hgroup, hlt⟩ := hnewer
      have hnext := Serial.lt_next hz
      obtain ⟨y, hy, hgroup', hle, hmax⟩ := ih (s.rows.next - ident z) (by omega) hz rfl
      exact ⟨y, hy, hgroup'.trans hgroup, by omega, fun v hv hg => hmax v hv (hg.trans hgroup.symm)⟩
    · refine ⟨r, hr, rfl, le_rfl, fun z hz hg => ?_⟩
      by_contra hlt
      exact hnewer ⟨z, hz, hg, by omega⟩

end Sys

/-- A row has a later one in its group. -/
def Outdated (rule : Rule ident) (rows : Serial ident) (r : R) : Prop :=
  ∃ y ∈ rows, rule.group y = rule.group r ∧ ident r < ident y

/-- A rule that takes old rows only. -/
def Rule.Ages (rule : Rule ident) (old : Int → R → Prop) : Prop :=
  (∀ now rows r, r ∈ rows → rule.expired now rows r → old now r) ∧
    ∀ now later r, now ≤ later → old now r → old later r

/-- A rule that leaves the last row of a group. -/
def Rule.KeepsLast (rule : Rule ident) : Prop :=
  ∀ now rows r, r ∈ rows → rule.expired now rows r → Outdated rule rows r

/-- The batches under way are rows there are, each in one session's hands, and old ones. -/
structure Sound (old : Int → R → Prop) (s : Sys ident) : Prop where
  nodup : ∀ (m : Nat) (p : Phase), s.sessions[m]? = some p → p.batch.Nodup
  apart : ∀ (m m' : Nat) (p p' : Phase), s.sessions[m]? = some p → s.sessions[m']? = some p' →
    m ≠ m' → ∀ i ∈ p.batch, i ∉ p'.batch
  locked : ∀ i, s.held i → ∃ r ∈ s.rows, ident r = i ∧ old s.clock r

namespace Sound

variable {old : Int → R → Prop}

theorem old_of_held (h : Sound old s) {r : R} (hr : r ∈ s.rows) (hheld : s.held (ident r)) :
    old s.clock r := by
  obtain ⟨y, hy, hid, hold⟩ := h.locked _ hheld
  exact Serial.eq_of_ident hy hr hid ▸ hold

theorem setPhase (h : Sound old s) {m : Nat} {p q : Phase} (was : s.sessions[m]? = some p)
    (hnodup : q.batch.Nodup) (hfree : ∀ i ∈ q.batch, s.held i = false)
    (hold : ∀ i ∈ q.batch, ∃ r ∈ s.rows, ident r = i ∧ old s.clock r) :
    Sound old (s.setPhase m q) := by
  have hfree' {j : Nat} {p' : Phase} (hj : s.sessions[j]? = some p') {i : Nat} (hi : i ∈ q.batch) :
      i ∉ p'.batch := fun hi' => by
    simpa [hfree i hi] using Sys.held_iff.mpr ⟨j, p', hj, hi'⟩
  refine ⟨fun j p' hj => ?_, fun j k p' q' hj hk hne i hi => ?_, fun i hi => ?_⟩
  · rcases (Sys.setPhase_eq_some was).mp hj with ⟨-, rfl⟩ | ⟨-, hj⟩
    · exact hnodup
    · exact h.nodup j p' hj
  · rcases (Sys.setPhase_eq_some was).mp hj with ⟨rfl, rfl⟩ | ⟨-, hj'⟩ <;>
      rcases (Sys.setPhase_eq_some was).mp hk with ⟨rfl, rfl⟩ | ⟨-, hk'⟩
    · exact absurd rfl hne
    · exact hfree' hk' hi
    · exact fun hi' => hfree' hj' hi' hi
    · exact h.apart j k p' q' hj' hk' hne i hi
  · obtain ⟨j, p', hj, hi'⟩ := Sys.held_iff.mp hi
    rcases (Sys.setPhase_eq_some was).mp hj with ⟨-, rfl⟩ | ⟨-, hj'⟩
    · exact hold i hi'
    · exact h.locked i (Sys.held_iff.mpr ⟨j, p', hj', hi'⟩)

theorem step (h : Sound old s) (hages : rule.Ages old) (hstep : Step rule batchSize s a s') :
    Sound old s' := by
  cases hstep with
  | tick d =>
    refine ⟨h.nodup, h.apart, fun i hi => ?_⟩
    obtain ⟨r, hr, hid, hold⟩ := h.locked i hi
    exact ⟨r, hr, hid, hages.2 _ _ r (Int.le_add_of_nonneg_right (Int.natCast_nonneg d)) hold⟩
  | add row =>
    refine ⟨h.nodup, h.apart, fun i hi => ?_⟩
    obtain ⟨r, hr, hid, hold⟩ := h.locked i hi
    exact ⟨r, Serial.mem_insert_of_mem (h := row.2) hr, hid, hold⟩
  | drop g free =>
    refine ⟨h.nodup, h.apart, fun i hi => ?_⟩
    obtain ⟨r, hr, rfl, hold⟩ := h.locked i hi
    refine ⟨r, Serial.mem_delete.mpr ⟨hr, decide_eq_false fun hg => ?_⟩, rfl, hold⟩
    have hfree := free r hr hg
    exact absurd hi (by simpa [Sys.held] using hfree)
  | probe busy was now =>
    rcases now with rfl | ⟨rfl, -⟩
    · refine h.setPhase was (Sys.nodup_pick busy) (fun i hi => ?_) fun i hi => ?_
      · obtain ⟨r, hr, rfl⟩ := Sys.mem_pick hi
        exact (Sys.mem_candidates.mp hr).2.2.1
      · obtain ⟨r, hr, rfl⟩ := Sys.mem_pick hi
        obtain ⟨hmem, hexpired, -⟩ := Sys.mem_candidates.mp hr
        exact ⟨r, hmem, rfl, hages.1 _ _ r hmem hexpired⟩
    · exact h.setPhase was List.nodup_nil (by simp [Phase.batch]) (by simp [Phase.batch])
  | @delete m total deadline batch was =>
    obtain ⟨hnodup, hapart, hlocked⟩ := h.setPhase (q := .swept (total + batch.length) deadline
      batch.length) was List.nodup_nil (by simp [Phase.batch]) (by simp [Phase.batch])
    refine ⟨hnodup, hapart, fun i hi => ?_⟩
    obtain ⟨r, hr, rfl, hold⟩ := hlocked i hi
    refine ⟨r, Serial.mem_delete.mpr ⟨hr, decide_eq_false fun hbatch => ?_⟩, rfl, hold⟩
    obtain ⟨j, p, hj, hi⟩ := Sys.held_iff.mp hi
    rcases (Sys.setPhase_eq_some was).mp hj with ⟨-, rfl⟩ | ⟨hjm, hj⟩
    · cases hi
    · exact h.apart j m p _ hj was hjm _ hi hbatch
  | caughtUp stop was | fail was | start was =>
    exact h.setPhase was List.nodup_nil (by simp [Phase.batch]) (by simp [Phase.batch])
  | goOn stop was now =>
    rcases now with rfl | rfl <;>
      exact h.setPhase was List.nodup_nil (by simp [Phase.batch]) (by simp [Phase.batch])

end Sound

/-- Every row in a session's hands has a later one in its group. -/
def Guarded (rule : Rule ident) (s : Sys ident) : Prop :=
  ∀ r ∈ s.rows, s.held (ident r) → Outdated rule s.rows r

theorem Step.held (h : Step rule batchSize s a s') {i : Nat} (hi : s'.held i) :
    s.held i ∨ ∃ r ∈ s.rows, ident r = i ∧ rule.expired s.clock s.rows r := by
  have of_setPhase {m : Nat} {p q : Phase} (was : s.sessions[m]? = some p)
      (hi : (s.setPhase m q).held i) : s.held i ∨ i ∈ q.batch := by
    obtain ⟨j, p', hj, hmem⟩ := Sys.held_iff.mp hi
    rcases (Sys.setPhase_eq_some was).mp hj with ⟨-, rfl⟩ | ⟨-, hj'⟩
    · exact .inr hmem
    · exact .inl (Sys.held_iff.mpr ⟨j, p', hj', hmem⟩)
  cases h with
  | tick | add | drop => exact .inl hi
  | probe busy was now =>
    refine (of_setPhase was hi).imp_right fun hi => ?_
    rcases now with rfl | ⟨rfl, -⟩
    · obtain ⟨r, hr, hid⟩ := Sys.mem_pick hi
      obtain ⟨hmem, hexpired, -⟩ := Sys.mem_candidates.mp hr
      exact ⟨r, hmem, hid, hexpired⟩
    · cases hi
  | @delete m total deadline batch was =>
    exact .inl ((of_setPhase (q := .swept (total + batch.length) deadline batch.length) was
      hi).resolve_right List.not_mem_nil)
  | caughtUp stop was | fail was | start was =>
    exact .inl ((of_setPhase was hi).resolve_right List.not_mem_nil)
  | goOn stop was now =>
    refine .inl ((of_setPhase was hi).resolve_right ?_)
    rcases now with rfl | rfl <;> exact List.not_mem_nil

theorem Step.mem (h : Step rule batchSize s a s') {r : R} (hr : r ∈ s'.rows) :
    r ∈ s.rows ∨ ident r = s.rows.next := by
  cases h with
  | add row =>
    refine ((Serial.mem_insert (h := row.2)).mp hr).imp_right fun heq => ?_
    rw [heq, row.2]
  | drop | delete => exact .inl (Serial.mem_delete.mp hr).1
  | tick | probe | caughtUp | start | fail | goOn => exact .inl hr

theorem Step.next_le (h : Step rule batchSize s a s') : s.rows.next ≤ s'.rows.next := by
  cases h with
  | add row => exact Nat.le_succ _
  | _ => exact le_rfl

theorem Step.clock_le (h : Step rule batchSize s a s') : s.clock ≤ s'.clock := by
  cases h with
  | tick d => exact Int.le_add_of_nonneg_right (Int.natCast_nonneg d)
  | _ => exact le_rfl

/-- A row goes with its group, or in a batch. -/
theorem Step.gone (h : Step rule batchSize s a s') {r : R} (hr : r ∈ s.rows) (hr' : r ∉ s'.rows) :
    a = .drop (rule.group r) ∨ s.held (ident r) := by
  cases h with
  | tick | probe | caughtUp | start | fail | goOn => exact absurd hr hr'
  | add row => exact absurd (Serial.mem_insert_of_mem (h := row.2) hr) hr'
  | drop g free =>
    refine .inl ?_
    by_contra hne
    exact hr' (Serial.mem_delete.mpr ⟨hr, decide_eq_false fun hg => hne (hg ▸ rfl)⟩)
  | @delete m total deadline batch was =>
    refine .inr (Sys.held_iff.mpr ⟨m, _, was, ?_⟩)
    by_contra hne
    exact hr' (Serial.mem_delete.mpr ⟨hr, decide_eq_false hne⟩)

namespace Guarded

theorem newest (h : Guarded rule s) (hstep : Step rule batchSize s a s') {r : R} (hr : r ∈ s.rows)
    (hdrop : a ≠ .drop (rule.group r)) :
    ∃ y ∈ s'.rows, rule.group y = rule.group r ∧ ident r ≤ ident y := by
  obtain ⟨y, hy, hgroup, hle, hmax⟩ := s.exists_newest rule.group hr
  refine ⟨y, ?_, hgroup, hle⟩
  by_contra hgone
  rcases hstep.gone hy hgone with hact | hheld
  · exact hdrop (hgroup ▸ hact)
  · obtain ⟨z, hz, hz', hlt⟩ := h y hy hheld
    have := hmax z hz (hz'.trans hgroup)
    omega

theorem step (h : Guarded rule s) {old : Int → R → Prop} (hsound : Sound old s)
    (hkeeps : rule.KeepsLast) (hstep : Step rule batchSize s a s') : Guarded rule s' := by
  intro r hr hheld
  obtain ⟨u, hu, hid⟩ : ∃ u ∈ s.rows, ident u = ident r := by
    rcases hstep.held hheld with hheld | ⟨u, hu, hid, -⟩
    · obtain ⟨u, hu, hid, -⟩ := hsound.locked _ hheld
      exact ⟨u, hu, hid⟩
    · exact ⟨u, hu, hid⟩
  have hmem : r ∈ s.rows := (hstep.mem hr).resolve_right fun hnext => by
    have := Serial.lt_next hu
    omega
  have hout : Outdated rule s.rows r := by
    rcases hstep.held hheld with hheld | ⟨v, hv, hvid, hexpired⟩
    · exact h r hmem hheld
    · exact Serial.eq_of_ident hv hmem hvid ▸ hkeeps _ _ v hv hexpired
  obtain ⟨y, hy, hgroup, hlt⟩ := hout
  have hdrop : a ≠ .drop (rule.group y) := by
    rintro rfl
    cases hstep with
    | drop =>
      have hkept := (Serial.mem_delete.mp hr).2
      simp [hgroup] at hkept
  obtain ⟨z, hz, hz', hle⟩ := h.newest hstep hy hdrop
  exact ⟨z, hz, hz'.trans hgroup, by omega⟩

end Guarded

/-- No drain is under way. -/
def Sys.Quiet (s : Sys ident) : Prop := ∀ p ∈ s.sessions, ∃ total, p = .returned total false

theorem Sys.Quiet.held (h : s.Quiet) (i : Nat) : s.held i = false := by
  refine Bool.eq_false_iff.mpr fun hheld => ?_
  obtain ⟨m, p, hm, hi⟩ := Sys.held_iff.mp hheld
  obtain ⟨total, rfl⟩ := h p (List.mem_of_getElem? hm)
  cases hi

section Runs

variable {ρ : Run (Sys.step rule batchSize maxTime)} {old : Int → R → Prop} {n k : Nat} {r : R}

theorem sound_run (hquiet : (ρ.state 0).Quiet) (hages : rule.Ages old) :
    ∀ n ≤ ρ.length, Sound old (ρ.state n) := by
  refine ρ.invariant ⟨fun m p hm => ?_, fun m _ p _ hm _ _ i hi => ?_, fun i hi => ?_⟩
    fun h hstep => h.step hages (Sys.step_cases hstep)
  · obtain ⟨total, rfl⟩ := hquiet p (List.mem_of_getElem? hm)
    exact List.nodup_nil
  · obtain ⟨total, rfl⟩ := hquiet p (List.mem_of_getElem? hm)
    cases hi
  · simp [hquiet.held i] at hi

theorem guarded_run (hquiet : (ρ.state 0).Quiet) (hages : rule.Ages old)
    (hkeeps : rule.KeepsLast) : ∀ n ≤ ρ.length, Guarded rule (ρ.state n) := by
  intro n hn
  have hboth := ρ.invariant (P := fun s => Sound old s ∧ Guarded rule s)
    ⟨sound_run hquiet hages 0 (Nat.zero_le _), fun r _ hheld => by simp [hquiet.held] at hheld⟩
    fun h hstep => ⟨h.1.step hages (Sys.step_cases hstep),
      h.2.step h.1 hkeeps (Sys.step_cases hstep)⟩
  exact (hboth n hn).2

/-- A group that has had a row keeps one that is at least as late. -/
theorem last_stays (hquiet : (ρ.state 0).Quiet) (hages : rule.Ages old) (hkeeps : rule.KeepsLast)
    (hnk : n ≤ k) (hk : k ≤ ρ.length) (hr : r ∈ (ρ.state n).rows)
    (hcalm : ∀ j, n ≤ j → j < k → ρ.act j ≠ .drop (rule.group r)) :
    ∃ y ∈ (ρ.state k).rows, rule.group y = rule.group r ∧ ident r ≤ ident y := by
  induction hnk with
  | refl => exact ⟨r, hr, rfl, le_rfl⟩
  | @step k hnk ih =>
    have hk' : k ≤ ρ.length := Nat.le_of_succ_le hk
    obtain ⟨y, hy, hgroup, hle⟩ := ih hk' fun j hnj hj => hcalm j hnj (Nat.lt_succ_of_lt hj)
    obtain ⟨z, hz, hz', hle'⟩ := (guarded_run hquiet hages hkeeps k hk').newest
      (Sys.step_cases (ρ.next k hk)) hy (hgroup ▸ hcalm k hnk (Nat.lt_succ_self k))
    exact ⟨z, hz, hz'.trans hgroup, hle.trans hle'⟩

/-- A row that is not old yet goes with its group only. -/
theorem recent_stays (hquiet : (ρ.state 0).Quiet) (hages : rule.Ages old)
    (hnk : n ≤ k) (hk : k ≤ ρ.length) (hr : r ∈ (ρ.state n).rows)
    (hcalm : ∀ j, n ≤ j → j < k → ρ.act j ≠ .drop (rule.group r)) :
    r ∈ (ρ.state k).rows ∨ old (ρ.state k).clock r := by
  induction hnk with
  | refl => exact .inl hr
  | @step k hnk ih =>
    have hk' : k ≤ ρ.length := Nat.le_of_succ_le hk
    have hstep := Sys.step_cases (ρ.next k hk)
    rcases ih hk' fun j hnj hj => hcalm j hnj (Nat.lt_succ_of_lt hj) with hmem | hold
    · by_cases hmem' : r ∈ (ρ.state (k + 1)).rows
      · exact .inl hmem'
      · refine .inr (hages.2 _ _ r hstep.clock_le ?_)
        have hheld := (hstep.gone hmem hmem').resolve_left (hcalm k hnk (Nat.lt_succ_self k))
        exact (sound_run hquiet hages k hk').old_of_held hmem hheld
    · exact .inr (hages.2 _ _ r hstep.clock_le hold)

theorem gone_stays (hnk : n ≤ k) (hk : k ≤ ρ.length) (hold : ident r < (ρ.state n).rows.next)
    (hr : r ∉ (ρ.state n).rows) : r ∉ (ρ.state k).rows := by
  have hboth : r ∉ (ρ.state k).rows ∧ ident r < (ρ.state k).rows.next := by
    induction hnk with
    | refl => exact ⟨hr, hold⟩
    | @step k hnk ih =>
      obtain ⟨hgone, hlt⟩ := ih (Nat.le_of_succ_le hk)
      have hstep := Sys.step_cases (ρ.next k hk)
      refine ⟨fun hmem => ?_, hlt.trans_le hstep.next_le⟩
      rcases hstep.mem hmem with hmem | hnext
      · exact hgone hmem
      · omega
  exact hboth.1

def Act.deletes (m : Nat) : Act ident → Bool
  | .delete j => j = m
  | _ => false

def Act.starts (m : Nat) : Act ident → Bool
  | .start j => j = m
  | _ => false

def Act.probes (m : Nat) : Act ident → Bool
  | .probe j _ => j = m
  | _ => false

/-- The session's last probe before `k`, at `p` and of the drain that is the last one begun, found
nothing but rows of this kind. -/
def ProbedAt (ρ : Run (Sys.step rule batchSize maxTime)) (m p k : Nat) (done : R → Prop) : Prop :=
  (∀ i, p < i → i < k → (ρ.act i).starts m = false ∧ (ρ.act i).probes m = false) ∧
    ∃ busy, ρ.act p = .probe m busy ∧ ∀ r ∈ (ρ.state p).rows,
      rule.expired (ρ.state p).clock (ρ.state p).rows r →
        done r ∨ ident r ∈ busy ∨ (ρ.state p).held (ident r)

/-- What the session's last probe has to do with the rows at `k`. -/
def Traced (ρ : Run (Sys.step rule batchSize maxTime)) (m k : Nat) : Phase → Prop
  | .holding _ _ batch =>
    batch.length < batchSize → ∃ p < k, ProbedAt ρ m p k fun r => ident r ∈ batch
  | .swept _ _ deleted =>
    deleted < batchSize → ∃ p < k, ProbedAt ρ m p k fun r => r ∉ (ρ.state k).rows
  | .returned _ true => ∃ p < k, ProbedAt ρ m p k fun r => r ∉ (ρ.state k).rows
  | _ => True

namespace ProbedAt

variable {m p : Nat} {done done' : R → Prop}

theorem imp (h : ProbedAt ρ m p k done) (himp : ∀ r, done r → done' r) :
    ProbedAt ρ m p k done' := by
  obtain ⟨hnone, busy, hact, hrows⟩ := h
  exact ⟨hnone, busy, hact, fun r hr hexpired => (hrows r hr hexpired).imp_left (himp r)⟩

theorem succ (h : ProbedAt ρ m p k done) (hstart : (ρ.act k).starts m = false)
    (hprobe : (ρ.act k).probes m = false) : ProbedAt ρ m p (k + 1) done := by
  refine ⟨fun i hpi hi => ?_, h.2⟩
  rcases Nat.lt_succ_iff_lt_or_eq.mp hi with hi | rfl
  · exact h.1 i hpi hi
  · exact ⟨hstart, hprobe⟩

/-- Rows that are gone stay away. -/
theorem gone (h : ProbedAt ρ m p k fun r => r ∉ (ρ.state n).rows) (hpn : p ≤ n)
    (hn : n < ρ.length) : ProbedAt ρ m p k fun r => r ∉ (ρ.state (n + 1)).rows := by
  obtain ⟨hnone, busy, hact, hrows⟩ := h
  refine ⟨hnone, busy, hact, fun r hr hexpired => (hrows r hr hexpired).imp_left fun hgone => ?_⟩
  have hnext := ρ.monotone (R := fun s t => s.rows.next ≤ t.rows.next)
    (fun _ => le_rfl) Nat.le_trans (fun h => (Sys.step_cases h).next_le) hpn hn.le
  exact gone_stays (Nat.le_succ n) hn ((Serial.lt_next hr).trans_le hnext) hgone

theorem pick {busy : List Nat} (hact : ρ.act p = .probe m busy)
    (hshort : ((ρ.state p).pick rule batchSize busy).length < batchSize) :
    ProbedAt ρ m p (p + 1) fun r => ident r ∈ (ρ.state p).pick rule batchSize busy := by
  refine ⟨fun i hpi hi => by omega, busy, hact, fun r hr hexpired => ?_⟩
  by_cases hbusy : ident r ∈ busy
  · exact .inr (.inl hbusy)
  · by_cases hheld : (ρ.state p).held (ident r)
    · exact .inr (.inr hheld)
    · exact .inl (Sys.pick_all hshort (Sys.mem_candidates.mpr
        ⟨hr, hexpired, Bool.eq_false_iff.mpr hheld, hbusy⟩))

end ProbedAt

theorem Traced.later {m : Nat} {q : Phase} (h : Traced ρ m k q) (hk : k < ρ.length)
    (hstart : (ρ.act k).starts m = false) (hprobe : (ρ.act k).probes m = false) :
    Traced ρ m (k + 1) q := by
  have later : (∃ p < k, ProbedAt ρ m p k fun r => r ∉ (ρ.state k).rows) →
      ∃ p < k + 1, ProbedAt ρ m p (k + 1) fun r => r ∉ (ρ.state (k + 1)).rows :=
    fun ⟨p, hp, hprobed⟩ =>
      ⟨p, Nat.lt_succ_of_lt hp, (hprobed.succ hstart hprobe).gone hp.le hk⟩
  cases q with
  | ready => trivial
  | holding total deadline batch =>
    intro hshort
    obtain ⟨p, hp, hprobed⟩ := h hshort
    exact ⟨p, Nat.lt_succ_of_lt hp, hprobed.succ hstart hprobe⟩
  | swept total deadline deleted => exact fun hshort => later (h hshort)
  | returned total caughtUp =>
    cases caughtUp with
    | false => trivial
    | true => exact later h

theorem traced_run (hquiet : (ρ.state 0).Quiet) : ∀ k ≤ ρ.length, ∀ (m : Nat) (q : Phase),
    (ρ.state k).sessions[m]? = some q → Traced ρ m k q := by
  intro k
  induction k with
  | zero =>
    intro _ m q hq
    obtain ⟨total, rfl⟩ := hquiet q (List.mem_of_getElem? hq)
    trivial
  | succ k ih =>
    intro hk m q hq
    have hlt : k < ρ.length := hk
    have hstep := Sys.step_cases (ρ.next k hlt)
    generalize hact : ρ.act k = a at hstep
    have hbefore {q : Phase} (hq : (ρ.state k).sessions[m]? = some q) (hstart : a.starts m = false)
        (hprobe : a.probes m = false) : Traced ρ m (k + 1) q :=
      (ih hlt.le m q hq).later hlt (hact ▸ hstart) (hact ▸ hprobe)
    generalize hnext : ρ.state (k + 1) = s' at hstep hq
    cases hstep with
    | tick | add | drop => exact hbefore hq rfl rfl
    | probe busy was now =>
      rcases (Sys.setPhase_eq_some was).mp hq with ⟨rfl, rfl⟩ | ⟨hne, hq⟩
      · rcases now with rfl | ⟨rfl, hnone⟩
        · exact fun hshort => ⟨k, Nat.lt_succ_self k, .pick hact hshort⟩
        · refine fun hshort => ⟨k, Nat.lt_succ_self k, (ProbedAt.pick hact ?_).imp fun r hr => ?_⟩
          · rwa [hnone]
          · rw [hnone] at hr
            cases hr
      · exact hbefore hq rfl (decide_eq_false hne.symm)
    | @delete j total deadline batch was =>
      rcases (Sys.setPhase_eq_some (q := .swept (total + batch.length) deadline batch.length)
        was).mp hq with ⟨rfl, rfl⟩ | ⟨-, hq⟩
      · intro hshort
        obtain ⟨p, hp, hprobed⟩ := hbefore was rfl rfl hshort
        refine ⟨p, hp, hprobed.imp fun r hr hmem => ?_⟩
        rw [hnext] at hmem
        exact absurd (Serial.mem_delete.mp hmem).2 (by simp [hr])
      · exact hbefore hq rfl rfl
    | caughtUp stop was short =>
      rcases (Sys.setPhase_eq_some was).mp hq with ⟨rfl, rfl⟩ | ⟨-, hq⟩
      · exact hbefore was rfl rfl short
      · exact hbefore hq rfl rfl
    | start was =>
      rcases (Sys.setPhase_eq_some was).mp hq with ⟨rfl, rfl⟩ | ⟨hne, hq⟩
      · trivial
      · exact hbefore hq (decide_eq_false hne.symm) rfl
    | fail was =>
      rcases (Sys.setPhase_eq_some was).mp hq with ⟨rfl, rfl⟩ | ⟨-, hq⟩
      · trivial
      · exact hbefore hq rfl rfl
    | goOn stop was now =>
      rcases (Sys.setPhase_eq_some was).mp hq with ⟨rfl, rfl⟩ | ⟨-, hq⟩
      · rcases now with rfl | rfl <;> trivial
      · exact hbefore hq rfl rfl

theorem Sound.delete_length {s : Sys ident} (h : Sound old s) {m total : Nat} {deadline : Int}
    {batch : List Nat} (was : s.sessions[m]? = some (.holding total deadline batch)) :
    s.rows.rows.length - (s.rows.delete fun r => ident r ∈ batch).rows.length = batch.length := by
  have hperm : ((s.rows.rows.filter fun r => ident r ∈ batch).map ident).Perm batch := by
    refine (List.perm_ext_iff_of_nodup (s.rows.nodup.sublist (List.filter_sublist.map ident))
      (h.nodup m _ was)).mpr fun i => ?_
    simp only [List.mem_map, List.mem_filter, decide_eq_true_eq]
    constructor
    · rintro ⟨r, ⟨-, hr⟩, rfl⟩
      exact hr
    · intro hi
      obtain ⟨r, hr, rfl, -⟩ := h.locked i (Sys.held_iff.mpr ⟨m, _, was, hi⟩)
      exact ⟨r, ⟨hr, hi⟩, rfl⟩
  have hsplit := List.length_eq_length_filter_add (l := s.rows.rows) fun r =>
    decide (ident r ∈ batch)
  have hlength := hperm.length_eq
  rw [List.length_map] at hlength
  have hkept : (s.rows.delete fun r => ident r ∈ batch).rows.length =
      (s.rows.rows.filter fun r => !decide (ident r ∈ batch)).length := rfl
  omega

/-- How many rows the deletes of the session took away between `j` and `k`. -/
def removed (ρ : Run (Sys.step rule batchSize maxTime)) (m j k : Nat) : Nat :=
  (List.range' j (k - j)).foldl (fun n i => n + if (ρ.act i).deletes m then
    (ρ.state i).rows.rows.length - (ρ.state (i + 1)).rows.rows.length else 0) 0

theorem removed_succ {m j : Nat} (hjk : j ≤ k) : removed ρ m j (k + 1) = removed ρ m j k +
    if (ρ.act k).deletes m then
      (ρ.state k).rows.rows.length - (ρ.state (k + 1)).rows.rows.length else 0 := by
  have hsub : k + 1 - j = k - j + 1 := Nat.succ_sub hjk
  have hlast : j + 1 * (k - j) = k := by omega
  rw [removed, hsub, List.range'_concat, List.foldl_append, hlast]
  rfl

/-- The count of a drain that has not been broken off. -/
def Phase.total? : Phase → Option Nat
  | .ready total _ | .holding total _ _ | .swept total _ _ | .returned total true => some total
  | .returned _ false => none

/-- The drain began at `j` and has taken so many rows away since. -/
def Tallied (ρ : Run (Sys.step rule batchSize maxTime)) (m j k total : Nat) : Prop :=
  (ρ.act j).starts m ∧ (∀ i, j < i → i < k → (ρ.act i).starts m = false) ∧ removed ρ m j k = total

theorem Tallied.later {m j total : Nat} (h : Tallied ρ m j k total) (hjk : j < k)
    (hstart : (ρ.act k).starts m = false) : Tallied ρ m j (k + 1) (total +
      if (ρ.act k).deletes m then
        (ρ.state k).rows.rows.length - (ρ.state (k + 1)).rows.rows.length else 0) := by
  obtain ⟨hact, hnone, hremoved⟩ := h
  refine ⟨hact, fun i hji hi => ?_, by rw [removed_succ hjk.le, hremoved]⟩
  rcases Nat.lt_succ_iff_lt_or_eq.mp hi with hi | rfl
  · exact hnone i hji hi
  · exact hstart

theorem tallied_run (hquiet : (ρ.state 0).Quiet) (hages : rule.Ages old) :
    ∀ k ≤ ρ.length, ∀ (m : Nat) (q : Phase) (total : Nat), (ρ.state k).sessions[m]? = some q →
      q.total? = some total → ∃ j < k, Tallied ρ m j k total := by
  intro k
  induction k with
  | zero =>
    intro _ m q total hq htotal
    obtain ⟨t, rfl⟩ := hquiet q (List.mem_of_getElem? hq)
    cases htotal
  | succ k ih =>
    intro hk m q total hq htotal
    have hlt : k < ρ.length := hk
    have hstep := Sys.step_cases (ρ.next k hlt)
    have hsound := sound_run hquiet hages k hlt.le
    generalize hact : ρ.act k = a at hstep
    have hcalm {q : Phase} {total : Nat} (hq : (ρ.state k).sessions[m]? = some q)
        (htotal : q.total? = some total) (hstart : a.starts m = false)
        (hdelete : a.deletes m = false) : ∃ j < k + 1, Tallied ρ m j (k + 1) total := by
      obtain ⟨j, hj, htallied⟩ := ih hlt.le m q total hq htotal
      refine ⟨j, Nat.lt_succ_of_lt hj, ?_⟩
      simpa [hact, hdelete] using htallied.later hj (hact ▸ hstart)
    generalize hnext : ρ.state (k + 1) = s' at hstep hq
    cases hstep with
    | tick | add | drop => exact hcalm hq htotal rfl rfl
    | probe busy was now =>
      rcases (Sys.setPhase_eq_some was).mp hq with ⟨rfl, rfl⟩ | ⟨-, hq⟩
      · rcases now with rfl | ⟨rfl, -⟩ <;> exact hcalm was htotal rfl rfl
      · exact hcalm hq htotal rfl rfl
    | @delete i t deadline batch was =>
      rcases (Sys.setPhase_eq_some (q := .swept (t + batch.length) deadline batch.length)
        was).mp hq with ⟨rfl, rfl⟩ | ⟨hne, hq⟩
      · obtain ⟨j, hj, htallied⟩ := ih hlt.le m _ t was rfl
        refine ⟨j, Nat.lt_succ_of_lt hj, ?_⟩
        have hlater := htallied.later hj (by rw [hact]; rfl)
        rw [hact, hnext] at hlater
        cases htotal
        simpa [Act.deletes, hsound.delete_length was] using hlater
      · exact hcalm hq htotal rfl (decide_eq_false hne.symm)
    | caughtUp stop was short =>
      rcases (Sys.setPhase_eq_some was).mp hq with ⟨rfl, rfl⟩ | ⟨-, hq⟩
      · exact hcalm was htotal rfl rfl
      · exact hcalm hq htotal rfl rfl
    | @start i p was deadline =>
      rcases (Sys.setPhase_eq_some was).mp hq with ⟨rfl, rfl⟩ | ⟨hne, hq⟩
      · cases htotal
        refine ⟨k, Nat.lt_succ_self k, by simp [hact, Act.starts], fun i hki hi => by omega, ?_⟩
        rw [removed_succ le_rfl]
        simp [removed, hact, Act.deletes]
      · exact hcalm hq htotal (decide_eq_false hne.symm) rfl
    | fail was =>
      rcases (Sys.setPhase_eq_some was).mp hq with ⟨rfl, rfl⟩ | ⟨-, hq⟩
      · cases htotal
      · exact hcalm hq htotal rfl rfl
    | goOn stop was now =>
      rcases (Sys.setPhase_eq_some was).mp hq with ⟨rfl, rfl⟩ | ⟨-, hq⟩
      · rcases now with rfl | rfl
        · exact hcalm was htotal rfl rfl
        · cases htotal
      · exact hcalm hq htotal rfl rfl

/-- A drain that says it has caught up has taken away as many rows as it says, and has left
nothing that its last probe could have taken. -/
theorem drained (hquiet : (ρ.state 0).Quiet) (hages : rule.Ages old) (hk : k ≤ ρ.length)
    {m total : Nat} (h : (ρ.state k).sessions[m]? = some (.returned total true)) :
    ∃ j p, j < p ∧ p < k ∧ Tallied ρ m j k total ∧
      ProbedAt ρ m p k fun r => r ∉ (ρ.state k).rows := by
  obtain ⟨j, hj, htallied⟩ := tallied_run hquiet hages k hk m _ total h rfl
  obtain ⟨p, hp, hprobed⟩ := traced_run hquiet k hk m _ h
  refine ⟨j, p, ?_, hp, htallied, hprobed⟩
  obtain ⟨hnone, busy, hact, -⟩ := hprobed
  have hstart := htallied.1
  by_contra hle
  rcases Nat.lt_or_eq_of_le (Nat.le_of_not_lt hle) with hpj | rfl
  · rw [(hnone j hpj hj).1] at hstart
    cases hstart
  · rw [hact] at hstart
    cases hstart

end Runs

end Expiry
