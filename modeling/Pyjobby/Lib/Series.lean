import Mathlib.Data.Nat.Find
import Mathlib.Order.WellFounded
import Mathlib.Data.List.Basic
import Mathlib.Algebra.Order.Ring.Int

/-! Infinite increasing series, the way a generator hands them out: what is left
when a filter skips some of the terms, and the terms a loop sees before it breaks
at a bound. -/

namespace Series

variable {α : Type*}

/-- `f` lists the elements of `P`, by increasing key. -/
structure Lists (f : ℕ → α) (key : α → ℤ) (P : α → Prop) : Prop where
  mono : ∀ {j k}, j < k → key (f j) < key (f k)
  mem : ∀ a, P a ↔ ∃ k, f k = a

def place (f : ℕ → α) (q : α → Bool) (h : ∀ k, ∃ j, k ≤ j ∧ q (f j)) : ℕ → ℕ
  | 0 => Nat.find (h 0)
  | n + 1 => Nat.find (h (place f q h n + 1))

def keep (f : ℕ → α) (q : α → Bool) (h : ∀ k, ∃ j, k ≤ j ∧ q (f j)) (n : ℕ) : α :=
  f (place f q h n)

section Keep

variable {f : ℕ → α} {q : α → Bool} (h : ∀ k, ∃ j, k ≤ j ∧ q (f j))

theorem place_lt (n : ℕ) : place f q h n < place f q h (n + 1) :=
  (Nat.find_spec (h (place f q h n + 1))).1

theorem place_strictMono : StrictMono (place f q h) := strictMono_nat_of_lt_succ (place_lt h)

theorem keep_spec (n : ℕ) : q (keep f q h n) := by
  cases n with
  | zero => exact (Nat.find_spec (h 0)).2
  | succ n => exact (Nat.find_spec (h (place f q h n + 1))).2

theorem exists_place {j : ℕ} (hj : q (f j)) : ∃ n, place f q h n = j := by
  by_contra hnone
  have hbelow : ∀ n, place f q h n < j := by
    intro n
    refine lt_of_le_of_ne ?_ fun heq => hnone ⟨n, heq⟩
    induction n with
    | zero => exact Nat.find_min' (h 0) ⟨Nat.zero_le j, hj⟩
    | succ n ih =>
      have hlt : place f q h n < j := lt_of_le_of_ne ih fun heq => hnone ⟨n, heq⟩
      exact Nat.find_min' (h (place f q h n + 1)) ⟨hlt, hj⟩
  exact absurd (hbelow j) (not_lt.mpr (place_strictMono h).le_apply)

theorem Lists.keep {key : α → ℤ} {P : α → Prop} (hf : Lists f key P) :
    Lists (keep f q h) key fun a => P a ∧ q a where
  mono hjk := hf.mono (place_strictMono h hjk)
  mem a := by
    constructor
    · rintro ⟨ha, hq⟩
      obtain ⟨j, rfl⟩ := (hf.mem a).mp ha
      obtain ⟨n, hn⟩ := exists_place h hq
      exact ⟨n, congrArg f hn⟩
    · rintro ⟨n, rfl⟩
      exact ⟨(hf.mem _).mpr ⟨_, rfl⟩, keep_spec h n⟩

end Keep

namespace Lists

variable {f : ℕ → α} {key : α → ℤ} {P : α → Prop}

theorem head (hf : Lists f key P) : P (f 0) := (hf.mem _).mpr ⟨0, rfl⟩

theorem key_le (hf : Lists f key P) {j k : ℕ} (hjk : j ≤ k) : key (f j) ≤ key (f k) := by
  rcases Nat.lt_or_eq_of_le hjk with hlt | rfl
  · exact le_of_lt (hf.mono hlt)
  · exact le_rfl

theorem head_le (hf : Lists f key P) {a : α} (ha : P a) : key (f 0) ≤ key a := by
  obtain ⟨k, rfl⟩ := (hf.mem a).mp ha
  exact hf.key_le (Nat.zero_le k)

theorem exists_gt (hf : Lists f key P) (bound : ℤ) : ∃ k, bound < key (f k) := by
  have hgrow : ∀ k : ℕ, key (f 0) + k ≤ key (f k) := by
    intro k
    induction k with
    | zero => simp
    | succ k ih =>
      have hlt : key (f k) < key (f (k + 1)) := hf.mono (Nat.lt_succ_self k)
      push_cast
      omega
  refine ⟨(bound - key (f 0)).toNat + 1, ?_⟩
  have := hgrow ((bound - key (f 0)).toNat + 1)
  push_cast at this
  omega

end Lists

def upTo (f : ℕ → α) (key : α → ℤ) (bound : ℤ) (h : ∃ k, bound < key (f k)) : List α :=
  (List.range (Nat.find h)).map f

section UpTo

variable {f : ℕ → α} {key : α → ℤ} {P : α → Prop} {bound : ℤ}

theorem Lists.mem_upTo (hf : Lists f key P) {h : ∃ k, bound < key (f k)} {a : α} :
    a ∈ upTo f key bound h ↔ P a ∧ key a ≤ bound := by
  simp only [upTo, List.mem_map, List.mem_range]
  constructor
  · rintro ⟨k, hk, rfl⟩
    exact ⟨(hf.mem _).mpr ⟨k, rfl⟩, not_lt.mp (Nat.find_min h hk)⟩
  · rintro ⟨ha, hle⟩
    obtain ⟨k, rfl⟩ := (hf.mem a).mp ha
    refine ⟨k, ?_, rfl⟩
    by_contra hge
    have hspec := Nat.find_spec h
    have := hf.key_le (not_lt.mp hge)
    exact absurd hspec (not_lt.mpr (this.trans hle))

theorem Lists.upTo_pairwise (hf : Lists f key P) (h : ∃ k, bound < key (f k)) :
    (upTo f key bound h).Pairwise fun a b => key a < key b := by
  rw [upTo, List.pairwise_map]
  exact List.pairwise_lt_range.imp fun hlt => hf.mono hlt

end UpTo

/-- The first position from `k` on that `p` holds at. -/
structure FirstFrom (p : ℕ → Prop) (k n : ℕ) : Prop where
  le : k ≤ n
  holds : p n
  least : ∀ j, k ≤ j → j < n → ¬p j

namespace FirstFrom

variable {p : ℕ → Prop} {k m n : ℕ}

theorem unique (hm : FirstFrom p k m) (hn : FirstFrom p k n) : m = n := by
  rcases Nat.lt_trichotomy m n with hlt | heq | hlt
  · exact absurd hm.holds (hn.least m hm.le hlt)
  · exact heq
  · exact absurd hn.holds (hm.least n hn.le hlt)

theorem self (h : p k) : FirstFrom p k k :=
  ⟨le_rfl, h, fun _ hj hlt => absurd hlt (not_lt.mpr hj)⟩

theorem skip (h : FirstFrom p k n) (hkm : k ≤ m) (hno : ∀ j, k ≤ j → j < m → ¬p j) :
    FirstFrom p m n where
  le := by
    by_contra hlt
    exact hno n h.le (not_le.mp hlt) h.holds
  holds := h.holds
  least j hj := h.least j (hkm.trans hj)

theorem back (h : FirstFrom p m n) (hkm : k ≤ m) (hno : ∀ j, k ≤ j → j < m → ¬p j) :
    FirstFrom p k n where
  le := hkm.trans h.le
  holds := h.holds
  least j hj hlt := by
    by_cases hjm : j < m
    · exact hno j hj hjm
    · exact h.least j (not_lt.mp hjm) hlt

theorem both {r : ℕ → Prop} (h : FirstFrom p k n) (hr : r n) :
    FirstFrom (fun j => p j ∧ r j) k n :=
  ⟨h.le, ⟨h.holds, hr⟩, fun j hj hlt hboth => h.least j hj hlt hboth.1⟩

/-- Where `r` fails at the first position of `p`, the first of both comes after it. -/
theorem not_both {r : ℕ → Prop} (h : FirstFrom p k n) (hr : ¬r n) :
    ∀ j, k ≤ j → j < n + 1 → ¬(p j ∧ r j) := by
  rintro j hj hlt ⟨hp, hrj⟩
  rcases Nat.lt_succ_iff_lt_or_eq.mp hlt with hlt | rfl
  · exact h.least j hj hlt hp
  · exact hr hrj

end FirstFrom

theorem exists_firstFrom {p : ℕ → Prop} [DecidablePred p] {k : ℕ} (h : ∃ j, k ≤ j ∧ p j) :
    ∃ n, FirstFrom p k n :=
  ⟨Nat.find h, (Nat.find_spec h).1, (Nat.find_spec h).2,
    fun _ hj hlt hp => Nat.find_min h hlt ⟨hj, hp⟩⟩

/-- `next` of a generator that passes over the terms failing `q`: a term, and the
position after it. -/
def pull (f : ℕ → α) (q : α → Bool) : ℕ → ℕ → Option (α × ℕ)
  | 0, _ => none
  | fuel + 1, k => if q (f k) then some (f k, k + 1) else pull f q fuel (k + 1)

/-- A loop over the generator, up to the first term it breaks at. -/
def loop {σ : Type*} (f : ℕ → α) (q stop : α → Bool) (body : σ → α → σ) : ℕ → ℕ → σ → Option σ
  | 0, _, _ => none
  | fuel + 1, k, s =>
    match pull f q fuel k with
    | none => none
    | some (a, next) => if stop a then some s else loop f q stop body fuel next (body s a)

/-- The terms the generator yields from position `k` to `n`. -/
def yields (f : ℕ → α) (q : α → Bool) (k n : ℕ) : List α :=
  ((List.range' k (n - k)).map f).filter q

section Loop

variable {σ : Type*} {f : ℕ → α} {q stop : α → Bool} {body : σ → α → σ} {fuel k n : ℕ} {s s' : σ}

theorem not_at {p : ℕ → Prop} (h : ¬p k) : ∀ j, k ≤ j → j < k + 1 → ¬p j := by
  intro j hj hlt
  obtain rfl : j = k := by omega
  exact h

theorem pull_of_first (h : FirstFrom (fun j => q (f j)) k n) (hfuel : n - k < fuel) :
    pull f q fuel k = some (f n, n + 1) := by
  induction fuel generalizing k with
  | zero => omega
  | succ fuel ih =>
    by_cases hq : q (f k)
    · obtain rfl : k = n := (FirstFrom.self hq).unique h
      simp only [pull, hq, if_true]
    · have hnext := h.skip (Nat.le_succ k) (not_at hq)
      have hle := hnext.le
      simp only [pull, hq]
      exact ih hnext (by omega)

theorem first_of_pull {a : α} {next : ℕ} (h : pull f q fuel k = some (a, next)) :
    ∃ n, FirstFrom (fun j => q (f j)) k n ∧ a = f n ∧ next = n + 1 := by
  induction fuel generalizing k with
  | zero => simp [pull] at h
  | succ fuel ih =>
    by_cases hq : q (f k)
    · simp only [pull, hq, if_true, Option.some.injEq, Prod.mk.injEq] at h
      exact ⟨k, .self hq, h.1.symm, h.2.symm⟩
    · simp only [pull, hq] at h
      obtain ⟨n, hn, ha, hnext⟩ := ih h
      exact ⟨n, hn.back (Nat.le_succ k) (not_at hq), ha, hnext⟩

theorem mem_yields {a : α} : a ∈ yields f q k n ↔ ∃ j, k ≤ j ∧ j < n ∧ q (f j) ∧ f j = a := by
  simp only [yields, List.mem_filter, List.mem_map, List.mem_range'_1]
  constructor
  · rintro ⟨⟨j, hj, rfl⟩, hq⟩
    exact ⟨j, hj.1, by omega, hq, rfl⟩
  · rintro ⟨j, hk, hlt, hq, rfl⟩
    exact ⟨⟨j, ⟨hk, by omega⟩, rfl⟩, hq⟩

theorem yields_append {m : ℕ} (hkm : k ≤ m) (hmn : m ≤ n) :
    yields f q k n = yields f q k m ++ yields f q m n := by
  have hlen : n - k = (m - k) + (n - m) := by omega
  have hmid : m = k + (m - k) := by omega
  rw [yields, hlen, ← List.range'_append_1, List.map_append, List.filter_append, ← hmid]
  rfl

theorem yields_eq_nil (h : ∀ j, k ≤ j → j < n → ¬q (f j)) : yields f q k n = [] := by
  rw [List.eq_nil_iff_forall_not_mem]
  intro a ha
  obtain ⟨j, hj, hlt, hq, -⟩ := mem_yields.mp ha
  exact h j hj hlt hq

theorem yields_first (h : FirstFrom (fun j => q (f j)) k n) : yields f q k (n + 1) = [f n] := by
  have hq : q (f n) := h.holds
  rw [yields_append h.le (Nat.le_succ n), yields_eq_nil h.least]
  simp [yields, hq]

/-- The loop, with enough fuel, ends in the fold of its body over the terms before the
one it breaks at. -/
theorem loop_of_first (h : FirstFrom (fun j => q (f j) ∧ stop (f j)) k n)
    (hfuel : n - k + 1 < fuel) :
    loop f q stop body fuel k s = some ((yields f q k n).foldl body s) := by
  induction fuel generalizing k s with
  | zero => omega
  | succ fuel ih =>
    obtain ⟨m, hm⟩ := exists_firstFrom (p := fun j => q (f j)) ⟨n, h.le, h.holds.1⟩
    have hmn : m ≤ n := by
      by_contra hlt
      exact hm.least n h.le (not_le.mp hlt) h.holds.1
    have hpull : pull f q fuel k = some (f m, m + 1) := pull_of_first hm (by omega)
    simp only [loop, hpull]
    by_cases hstop : stop (f m)
    · obtain rfl := (hm.both hstop).unique h
      simp [hstop, yields_eq_nil hm.least]
    · have hrest := h.skip (Nat.le_succ_of_le hm.le) (hm.not_both hstop)
      have hle := hrest.le
      have hkm := hm.le
      rw [if_neg hstop, ih hrest (by omega), yields_append (Nat.le_succ_of_le hm.le) hle,
        yields_first hm]
      rfl

theorem first_of_loop (h : loop f q stop body fuel k s = some s') :
    ∃ n, FirstFrom (fun j => q (f j) ∧ stop (f j)) k n := by
  induction fuel generalizing k s with
  | zero => simp [loop] at h
  | succ fuel ih =>
    cases hpull : pull f q fuel k with
    | none => simp [loop, hpull] at h
    | some next =>
      obtain ⟨a, next⟩ := next
      obtain ⟨m, hm, rfl, rfl⟩ := first_of_pull hpull
      by_cases hstop : stop (f m)
      · exact ⟨m, hm.both hstop⟩
      · simp only [loop, hpull, if_neg hstop] at h
        obtain ⟨n, hn⟩ := ih h
        exact ⟨n, hn.back (Nat.le_succ_of_le hm.le) (hm.not_both hstop)⟩

end Loop

/-- The terms that pass `q` ascend by their keys, from above `lo` and without a bound. -/
structure Ascends (f : ℕ → α) (q : α → Bool) (key : α → ℤ) (lo : ℤ) : Prop where
  mono : ∀ {j k}, j < k → q (f j) → q (f k) → key (f j) < key (f k)
  unbounded : ∀ bound, ∃ k, q (f k) ∧ bound < key (f k)
  above : ∀ k, q (f k) → lo < key (f k)

namespace Ascends

variable {f : ℕ → α} {q : α → Bool} {key : α → ℤ} {lo bound : ℤ} {n : ℕ}

theorem exists_past (h : Ascends f q key lo) (bound : ℤ) :
    ∃ n, FirstFrom (fun j => q (f j) ∧ bound < key (f j)) 0 n := by
  obtain ⟨k, hq, hlt⟩ := h.unbounded bound
  exact exists_firstFrom ⟨k, Nat.zero_le k, hq, hlt⟩

/-- The terms before the first one past a bound are the terms up to it. -/
theorem mem_yields (h : Ascends f q key lo)
    (hn : FirstFrom (fun j => q (f j) ∧ bound < key (f j)) 0 n) {a : α} :
    a ∈ yields f q 0 n ↔ (∃ j, q (f j) ∧ f j = a) ∧ lo < key a ∧ key a ≤ bound := by
  rw [Series.mem_yields]
  constructor
  · rintro ⟨j, hj, hlt, hq, rfl⟩
    refine ⟨⟨j, hq, rfl⟩, h.above j hq, ?_⟩
    by_contra hpast
    exact hn.least j hj hlt ⟨hq, not_le.mp hpast⟩
  · rintro ⟨⟨j, hq, rfl⟩, -, hle⟩
    refine ⟨j, Nat.zero_le j, ?_, hq, rfl⟩
    by_contra hge
    have hpast : bound < key (f j) := by
      rcases Nat.lt_or_eq_of_le (not_lt.mp hge) with hlt | rfl
      · exact hn.holds.2.trans (h.mono hlt hn.holds.1 hq)
      · exact hn.holds.2
    exact absurd hpast (not_lt.mpr hle)

theorem yields_pairwise (h : Ascends f q key lo) (k n : ℕ) :
    (yields f q k n).Pairwise fun a b => key a < key b := by
  rw [yields, List.pairwise_filter, List.pairwise_map]
  exact (List.pairwise_lt_range' 1).imp fun hlt => h.mono hlt

end Ascends

/-- Two lists that ascend by their keys are one when they hold the same terms. -/
theorem eq_of_ascending {key : α → ℤ} {l l' : List α}
    (hl : l.Pairwise fun a b => key a < key b) (hl' : l'.Pairwise fun a b => key a < key b)
    (hmem : ∀ a, a ∈ l ↔ a ∈ l') : l = l' := by
  have hnodup : ∀ {l : List α}, (l.Pairwise fun a b => key a < key b) → l.Nodup :=
    fun h => h.imp fun hlt heq => absurd (heq ▸ hlt) (lt_irrefl _)
  have hperm := (List.perm_ext_iff_of_nodup (hnodup hl) (hnodup hl')).mpr hmem
  exact hperm.eq_of_pairwise (fun _ _ _ _ hab hba => absurd hab hba.asymm) hl hl'

theorem yields_length_inj {f : ℕ → α} {q : α → Bool} {m n : ℕ} (hm : q (f m)) (hn : q (f n))
    (h : (yields f q 0 m).length = (yields f q 0 n).length) : m = n := by
  have hlt : ∀ {m n}, m < n → q (f m) → (yields f q 0 m).length < (yields f q 0 n).length := by
    intro m n hmn hq
    have hmem : f m ∈ yields f q m n := mem_yields.mpr ⟨m, le_rfl, hmn, hq, rfl⟩
    rw [yields_append (Nat.zero_le m) hmn.le, List.length_append]
    exact Nat.lt_add_of_pos_right (List.length_pos_of_mem hmem)
  rcases Nat.lt_trichotomy m n with hmn | heq | hnm
  · exact absurd h (hlt hmn hm).ne
  · exact heq
  · exact absurd h (hlt hnm hn).ne'

end Series
