import Mathlib.Data.List.Basic
import Mathlib.Data.List.Count
import Mathlib.Data.List.Range
import Mathlib.Data.List.Nodup
import Mathlib.Data.List.Perm.Basic

/-! A bounded executor: what is submitted waits its turn for one of `workers` threads, can be
cancelled only while it waits, and once it runs ends when it ends. -/

namespace Pool

inductive Status where
  | pending
  | running
  | finished
  | cancelled
  deriving DecidableEq

def Status.done : Status → Bool
  | .pending | .running => false
  | .finished | .cancelled => true

/-- The futures handed out so far, by number. -/
structure Executor where
  workers : Nat
  futures : List Status

namespace Executor

variable (p : Executor)

def busy : Nat := p.futures.count .running

def waiting : Nat := p.futures.count .pending

def done (i : Nat) : Bool := p.futures[i]?.all Status.done

def submit : Executor := { p with futures := p.futures ++ [.pending] }

def mark (i : Nat) (s : Status) : Executor := { p with futures := p.futures.set i s }

/-- A free thread takes the oldest future that waits. -/
def start (i : Nat) : Option Executor :=
  if p.futures[i]? = some .pending ∧ .pending ∉ p.futures.take i ∧ p.busy < p.workers then
    some (p.mark i .running)
  else none

def finish (i : Nat) : Option Executor :=
  if p.futures[i]? = some .running then some (p.mark i .finished) else none

def cancel (i : Nat) : Executor :=
  if p.futures[i]? = some .pending then p.mark i .cancelled else p

/-- The futures that are not done. -/
def unfinished : List Nat := (List.range p.futures.length).filter (!p.done ·)

/-- `held` names every future that is not done, once. -/
def Tracked (held : List Nat) : Prop := (held.filter (!p.done ·)).Perm p.unfinished

variable {p} {held : List Nat} {i j : Nat} {s t : Status}

@[simp] theorem mark_workers : (p.mark i s).workers = p.workers := rfl

@[simp] theorem mark_length : (p.mark i s).futures.length = p.futures.length :=
  List.length_set

theorem getElem?_mark (h : p.futures[i]? = some t) :
    (p.mark i s).futures[j]? = if i = j then some s else p.futures[j]? := by
  obtain ⟨hi, -⟩ := List.getElem?_eq_some_iff.mp h
  rw [mark, List.getElem?_set]
  split <;> simp_all

theorem done_of_getElem? (h : p.futures[i]? = some t) : p.done i = t.done := by
  rw [done, h]
  rfl

theorem mem_unfinished_of_done (h : p.done i = false) : i ∈ p.unfinished := by
  refine List.mem_filter.mpr ⟨List.mem_range.mpr ?_, by rw [h]; rfl⟩
  by_contra hi
  rw [done, List.getElem?_eq_none (Nat.le_of_not_lt hi)] at h
  cases h

theorem done_mark (h : p.futures[i]? = some t) (hs : t.done → s.done) (hj : p.done j) :
    (p.mark i s).done j := by
  rw [done, getElem?_mark h]
  split
  · next hij =>
    subst hij
    exact hs (done_of_getElem? h ▸ hj)
  · exact hj

theorem count_mark (h : p.futures[i]? = some t) (u : Status) :
    (p.mark i s).futures.count u + (if t = u then 1 else 0) =
      p.futures.count u + if s = u then 1 else 0 := by
  obtain ⟨hi, rfl⟩ := List.getElem?_eq_some_iff.mp h
  have hpos : p.futures[i] = u → 0 < p.futures.count u := fun hu =>
    List.count_pos_iff.mpr (hu ▸ List.getElem_mem hi)
  rw [mark, List.count_set hi]
  simp only [beq_iff_eq]
  split_ifs with hu hsu hsu <;> first | omega | (have h0 := hpos hu; omega)

theorem mem_unfinished :
    i ∈ p.unfinished ↔ p.futures[i]? = some .pending ∨ p.futures[i]? = some .running := by
  simp only [unfinished, List.mem_filter, List.mem_range, done]
  constructor
  · rintro ⟨hi, hdone⟩
    rw [List.getElem?_eq_getElem hi] at hdone ⊢
    cases h : p.futures[i] <;> simp [h, Status.done] at hdone ⊢
  · rintro (h | h) <;> obtain ⟨hi, -⟩ := List.getElem?_eq_some_iff.mp h <;>
      exact ⟨hi, by rw [h]; rfl⟩

theorem unfinished_nodup : p.unfinished.Nodup := List.nodup_range.filter _

theorem filter_unfinished_of_mem (h : i ∈ p.unfinished) :
    (p.unfinished.filter (· ≠ i)).length + 1 = p.unfinished.length := by
  have herase : p.unfinished.filter (· ≠ i) = p.unfinished.erase i := by
    rw [unfinished_nodup.erase_eq_filter]
    exact List.filter_congr fun j _ => by by_cases hj : j = i <;> simp [hj]
  have hpos := List.length_pos_of_mem h
  rw [herase, List.length_erase_of_mem h]
  omega

theorem filter_unfinished_of_notMem (h : i ∉ p.unfinished) :
    p.unfinished.filter (· ≠ i) = p.unfinished :=
  List.filter_eq_self.mpr fun j hj => by
    simp only [ne_eq, decide_not, Bool.not_eq_true', decide_eq_false_iff_not]
    rintro rfl
    exact h hj

/-- Futures only ever become done. -/
theorem unfinished_sublist {p' : Executor} (hlength : p'.futures.length = p.futures.length)
    (hdone : ∀ i, p.done i → p'.done i) : p'.unfinished.Sublist p.unfinished := by
  unfold unfinished
  rw [hlength]
  refine List.monotone_filter_right _ fun i hi => ?_
  cases hpi : p.done i with
  | false => rfl
  | true => simp [hdone i hpi] at hi

theorem length_filter_range (xs : List Status) (q : Status → Bool) :
    ((List.range xs.length).filter fun i => xs[i]?.any q).length = xs.countP q := by
  induction xs using List.reverseRecOn with
  | nil => rfl
  | append_singleton xs x ih =>
    have hearlier : ((List.range xs.length).filter fun i => (xs ++ [x])[i]?.any q) =
        (List.range xs.length).filter fun i => xs[i]?.any q :=
      List.filter_congr fun i hi => by rw [List.getElem?_append_left (List.mem_range.mp hi)]
    rw [List.length_append, List.length_singleton, List.range_succ, List.filter_append, hearlier,
      List.length_append, ih, List.countP_append, List.countP_singleton]
    simp [List.filter_cons]
    split <;> rfl

theorem length_unfinished : p.unfinished.length = p.busy + p.waiting := by
  have hopen : p.unfinished =
      (List.range p.futures.length).filter fun i => p.futures[i]?.any fun s => !s.done := by
    refine List.filter_congr fun i hi => ?_
    rw [done, List.getElem?_eq_getElem (List.mem_range.mp hi)]
    rfl
  rw [hopen, length_filter_range, busy, waiting, List.count, List.count]
  induction p.futures with
  | nil => rfl
  | cons s futures ih =>
    simp only [List.countP_cons, ih]
    cases s <;> simp [Status.done] <;> omega

theorem Tracked.length (h : p.Tracked held) :
    (held.filter (!p.done ·)).length = p.busy + p.waiting :=
  (List.Perm.length_eq h).trans length_unfinished

theorem Tracked.submit (h : p.Tracked held) (hheld : ∀ i ∈ held, i < p.futures.length) :
    p.submit.Tracked (held ++ [p.futures.length]) := by
  have hsame : ∀ i < p.futures.length, p.submit.done i = p.done i := fun i hi => by
    rw [done, done, Executor.submit, List.getElem?_append_left hi]
  have hnew : p.submit.done p.futures.length = false := by simp [done, Executor.submit, Status.done]
  have hheld' : held.filter (!p.submit.done ·) = held.filter (!p.done ·) :=
    List.filter_congr fun i hi => by rw [hsame i (hheld i hi)]
  have hrange : (List.range p.futures.length).filter (!p.submit.done ·) = p.unfinished :=
    List.filter_congr fun i hi => by rw [hsame i (List.mem_range.mp hi)]
  have hlength : p.submit.futures.length = p.futures.length + 1 := by simp [Executor.submit]
  unfold Tracked
  rw [unfinished, hlength, List.range_succ, List.filter_append, List.filter_append, hheld', hrange]
  exact h.append_right _

theorem Tracked.mono {p' : Executor} (h : p.Tracked held)
    (hlength : p'.futures.length = p.futures.length) (hdone : ∀ i, p.done i → p'.done i) :
    p'.Tracked held := by
  have hstill : ∀ xs : List Nat,
      xs.filter (!p'.done ·) = (xs.filter (!p.done ·)).filter (!p'.done ·) := by
    intro xs
    rw [List.filter_filter]
    refine List.filter_congr fun i _ => ?_
    cases hi : p.done i <;> simp [hi, hdone i]
  unfold Tracked unfinished
  rw [hlength, hstill held, hstill (List.range _)]
  exact h.filter _

theorem Tracked.prune (h : p.Tracked held) : p.Tracked (held.filter (!p.done ·)) := by
  unfold Tracked
  rw [List.filter_filter]
  simp only [Bool.and_self]
  exact h

theorem start_eq_some {p' : Executor} :
    p.start i = some p' ↔ p.futures[i]? = some .pending ∧ .pending ∉ p.futures.take i ∧
      p.busy < p.workers ∧ p' = p.mark i .running := by
  unfold start
  split
  · next h => simp [h, eq_comm]
  · next h => exact iff_of_false nofun fun h' => h ⟨h'.1, h'.2.1, h'.2.2.1⟩

theorem finish_eq_some {p' : Executor} :
    p.finish i = some p' ↔ p.futures[i]? = some .running ∧ p' = p.mark i .finished := by
  unfold finish
  split
  · next h => simp [h, eq_comm]
  · next h => exact iff_of_false nofun fun h' => h h'.1

theorem cancel_of_ne (h : p.futures[i]? ≠ some .pending) : p.cancel i = p := if_neg h

theorem cancel_of_pending (h : p.futures[i]? = some .pending) : p.cancel i = p.mark i .cancelled :=
  if_pos h

theorem submit_busy : p.submit.busy = p.busy := by simp [busy, Executor.submit]

theorem submit_waiting : p.submit.waiting = p.waiting + 1 := by
  simp [waiting, Executor.submit, List.count_append]

theorem waiting_eq_zero : p.waiting = 0 ↔ ∀ i : Nat, p.futures[i]? ≠ some .pending := by
  simp only [waiting, List.count_eq_zero, List.mem_iff_getElem?, not_exists, ne_eq]

theorem run_counts (h : p.futures[i]? = some .pending) :
    (p.mark i .running).busy = p.busy + 1 ∧ (p.mark i .running).waiting + 1 = p.waiting :=
  ⟨count_mark h .running, count_mark h .pending⟩

theorem finish_counts (h : p.futures[i]? = some .running) :
    (p.mark i .finished).busy + 1 = p.busy ∧ (p.mark i .finished).waiting = p.waiting :=
  ⟨count_mark h .running, count_mark h .pending⟩

theorem cancel_counts (h : p.futures[i]? = some .pending) :
    (p.mark i .cancelled).busy = p.busy ∧ (p.mark i .cancelled).waiting + 1 = p.waiting :=
  ⟨count_mark h .running, count_mark h .pending⟩

end Executor

end Pool
