import Mathlib.Data.List.Basic
import Mathlib.Logic.Relation
import Mathlib.Order.RelClasses

/-! Searches in a finite directed graph given by a successor function: the
depth-first search for a cycle, and the search for all that can be reached. -/

namespace Search

variable {α : Type*} [DecidableEq α] (next : α → List α)

/-- The nodes the search has entered, and those it has not left yet. -/
structure Trail (α : Type*) where
  visited : List α
  onStack : List α

namespace Trail

def empty : Trail α := ⟨[], []⟩

def enter (t : Trail α) (a : α) : Trail α := ⟨a :: t.visited, a :: t.onStack⟩

def leave (t : Trail α) (a : α) : Trail α := { t with onStack := t.onStack.erase a }

end Trail

/-- The loop over the successors of a node: enter those not visited yet, and stop
at one still on the stack. -/
def scan (visit : α → Trail α → Option (Bool × Trail α)) :
    List α → Trail α → Option (Bool × Trail α)
  | [], t => some (false, t)
  | b :: bs, t =>
    if b ∉ t.visited then
      match visit b t with
      | some (false, t') => scan visit bs t'
      | found => found
    else if b ∈ t.onStack then some (true, t)
    else scan visit bs t

/-- Whether a cycle is found from the node on; `none` when the fuel runs out. -/
def visit : Nat → α → Trail α → Option (Bool × Trail α)
  | 0, _, _ => none
  | fuel + 1, a, t =>
    match scan (visit fuel) (next a) (t.enter a) with
    | some (false, t') => some (false, t'.leave a)
    | found => found

/-- The loop over all nodes that starts a search at each one not visited yet. -/
def sweep (fuel : Nat) : List α → Trail α → Option Bool
  | [], _ => some false
  | a :: as, t =>
    if a ∉ t.visited then
      match visit next fuel a t with
      | some (false, t') => sweep fuel as t'
      | found => found.map Prod.fst
    else sweep fuel as t

/-- No infinite path leaves a node the search has left. -/
structure Settled (t : Trail α) : Prop where
  stack : t.onStack ⊆ t.visited
  left : ∀ a ∈ t.visited, a ∉ t.onStack → Acc (fun b a => b ∈ next a) a

/-- What a search that found no cycle has done to the trail. -/
structure Explored (t t' : Trail α) : Prop where
  visited : t.visited ⊆ t'.visited
  onStack : t'.onStack = t.onStack
  settled : Settled next t → Settled next t'

variable {next}

omit [DecidableEq α] in
theorem Explored.refl (t : Trail α) : Explored next t t := ⟨List.Subset.refl _, rfl, id⟩

omit [DecidableEq α] in
theorem Explored.trans {t t' t'' : Trail α} (h : Explored next t t') (h' : Explored next t' t'') :
    Explored next t t'' :=
  ⟨List.Subset.trans h.visited h'.visited, h'.onStack.trans h.onStack, h'.settled ∘ h.settled⟩

omit [DecidableEq α] in
theorem Settled.enter {t : Trail α} (h : Settled next t) (a : α) : Settled next (t.enter a) where
  stack := List.cons_subset_cons a h.stack
  left b hb hnot := by
    simp only [Trail.enter, List.mem_cons, not_or] at hb hnot
    exact h.left b (hb.resolve_left hnot.1) hnot.2

theorem scan_explored {v : α → Trail α → Option (Bool × Trail α)}
    (hv : ∀ b t t', b ∉ t.visited → v b t = some (false, t') →
      Explored next t t' ∧ b ∈ t'.visited)
    (bs : List α) {t t' : Trail α} (h : scan v bs t = some (false, t')) :
    Explored next t t' ∧ ∀ b ∈ bs, b ∈ t'.visited ∧ (b ∈ t'.onStack → b ∉ t.visited) := by
  induction bs generalizing t with
  | nil =>
    obtain rfl : t = t' := by simpa [scan] using h
    exact ⟨.refl t, by simp⟩
  | cons b bs ih =>
    by_cases hb : b ∈ t.visited
    · by_cases hstack : b ∈ t.onStack
      · simp [scan, hb, hstack] at h
      · simp only [scan, hb, hstack, not_true_eq_false, if_false] at h
        obtain ⟨hex, hbs⟩ := ih h
        refine ⟨hex, fun c hc => ?_⟩
        rcases List.mem_cons.mp hc with rfl | hc
        · exact ⟨hex.visited hb, fun h => absurd (hex.onStack ▸ h) hstack⟩
        · exact hbs c hc
    · simp only [scan, hb, not_false_eq_true, if_true] at h
      cases hvis : v b t with
      | none => simp [hvis] at h
      | some r =>
        obtain ⟨_ | _, u⟩ := r
        · simp only [hvis] at h
          obtain ⟨hex, hmem⟩ := hv b t u hb hvis
          obtain ⟨hex', hbs⟩ := ih h
          refine ⟨hex.trans hex', fun c hc => ?_⟩
          rcases List.mem_cons.mp hc with rfl | hc
          · exact ⟨hex'.visited hmem, fun _ => hb⟩
          · exact ⟨(hbs c hc).1, fun hon hvis => (hbs c hc).2 hon (hex.visited hvis)⟩
        · simp [hvis] at h

theorem visit_explored (fuel : Nat) {a : α} {t t' : Trail α} (ha : a ∉ t.visited)
    (h : visit next fuel a t = some (false, t')) :
    Explored next t t' ∧ a ∈ t'.visited := by
  induction fuel generalizing a t t' with
  | zero => simp [visit] at h
  | succ fuel ih =>
    cases hscan : scan (visit next fuel) (next a) (t.enter a) with
    | none => simp [visit, hscan] at h
    | some r =>
      obtain ⟨_ | _, u⟩ := r
      · obtain rfl : u.leave a = t' := by simpa [visit, hscan] using h
        obtain ⟨hex, hnext⟩ := scan_explored (fun b t t' hb h => ih hb h) (next a) hscan
        have hstack : (u.leave a).onStack = t.onStack := by
          simp [Trail.leave, hex.onStack, Trail.enter]
        have hmem : a ∈ u.visited := hex.visited (by simp [Trail.enter])
        refine ⟨⟨fun b hb => hex.visited (by simp [Trail.enter, hb]), hstack, fun hs => ?_⟩, hmem⟩
        have hu := hex.settled (hs.enter a)
        have hbelow : ∀ b ∈ next a, Acc (fun b a => b ∈ next a) b := by
          intro b hb
          have hon : b ∉ u.onStack := by
            intro hon
            refine (hnext b hb).2 hon ((hs.enter a).stack ?_)
            rwa [hex.onStack] at hon
          exact hu.left b (hnext b hb).1 hon
        constructor
        · rw [hstack]
          exact List.Subset.trans hs.stack fun b hb => hex.visited (by simp [Trail.enter, hb])
        · intro b hb hon
          rw [hstack] at hon
          by_cases hba : b = a
          · subst hba
            exact .intro b hbelow
          · exact hu.left b hb (by simp [hex.onStack, Trail.enter, hba, hon])
      · simp [visit, hscan] at h

theorem sweep_explored (fuel : Nat) (as : List α) {t : Trail α}
    (h : sweep next fuel as t = some false) :
    ∃ t', Explored next t t' ∧ as ⊆ t'.visited := by
  induction as generalizing t with
  | nil => exact ⟨t, .refl t, by simp⟩
  | cons a as ih =>
    by_cases ha : a ∈ t.visited
    · simp only [sweep, ha, not_true_eq_false, if_false] at h
      obtain ⟨t', hex, has⟩ := ih h
      exact ⟨t', hex, List.cons_subset.mpr ⟨hex.visited ha, has⟩⟩
    · simp only [sweep, ha, not_false_eq_true, if_true] at h
      cases hvis : visit next fuel a t with
      | none => simp [hvis] at h
      | some r =>
        obtain ⟨_ | _, u⟩ := r
        · simp only [hvis] at h
          obtain ⟨hex, hmem⟩ := visit_explored fuel ha hvis
          obtain ⟨t', hex', has⟩ := ih h
          exact ⟨t', hex.trans hex', List.cons_subset.mpr ⟨hex'.visited hmem, has⟩⟩
        · simp [hvis] at h

theorem acc_of_sweep {fuel : Nat} {as : List α} (h : sweep next fuel as .empty = some false)
    {a : α} (ha : a ∈ as) : Acc (fun b a => b ∈ next a) a := by
  obtain ⟨t, hex, has⟩ := sweep_explored fuel as h
  have hsettled : Settled next (.empty : Trail α) := ⟨by simp [Trail.empty], by simp [Trail.empty]⟩
  refine (hex.settled hsettled).left a (has ha) ?_
  simp [hex.onStack, Trail.empty]

/-- What stands between a search and a cycle: every node on the stack leads to the node it is at. -/
theorem scan_cycle {a : α} {v : α → Trail α → Option (Bool × Trail α)}
    (hstays : ∀ b t t', b ∉ t.visited → v b t = some (false, t') → t'.onStack = t.onStack)
    (hfinds : ∀ b t t', v b t = some (true, t') →
      (∀ c ∈ t.onStack, Relation.TransGen (fun a b => b ∈ next a) c b) →
        ∃ c, Relation.ReflTransGen (fun a b => b ∈ next a) b c ∧
          Relation.TransGen (fun a b => b ∈ next a) c c)
    (bs : List α) {t t' : Trail α} (hbs : bs ⊆ next a)
    (hstack : ∀ c ∈ t.onStack, Relation.ReflTransGen (fun a b => b ∈ next a) c a)
    (h : scan v bs t = some (true, t')) :
    ∃ c, Relation.ReflTransGen (fun a b => b ∈ next a) a c ∧
      Relation.TransGen (fun a b => b ∈ next a) c c := by
  induction bs generalizing t with
  | nil => simp [scan] at h
  | cons b bs ih =>
    obtain ⟨hb, hbs⟩ := List.cons_subset.mp hbs
    have hto : ∀ c ∈ t.onStack, Relation.TransGen (fun a b => b ∈ next a) c b :=
      fun c hc => .tail' (hstack c hc) hb
    by_cases hvis : b ∈ t.visited
    · by_cases hon : b ∈ t.onStack
      · exact ⟨b, .single hb, hto b hon⟩
      · simp only [scan, hvis, hon, not_true_eq_false, if_false] at h
        exact ih hbs hstack h
    · simp only [scan, hvis, not_false_eq_true, if_true] at h
      cases hv : v b t with
      | none => simp [hv] at h
      | some r =>
        obtain ⟨_ | _, u⟩ := r
        · simp only [hv] at h
          exact ih hbs (hstays b t u hvis hv ▸ hstack) h
        · obtain ⟨c, hbc, hcycle⟩ := hfinds b t u hv hto
          exact ⟨c, .head hb hbc, hcycle⟩

theorem visit_cycle (fuel : Nat) {a : α} {t t' : Trail α}
    (hstack : ∀ c ∈ t.onStack, Relation.TransGen (fun a b => b ∈ next a) c a)
    (h : visit next fuel a t = some (true, t')) :
    ∃ c, Relation.ReflTransGen (fun a b => b ∈ next a) a c ∧
      Relation.TransGen (fun a b => b ∈ next a) c c := by
  induction fuel generalizing a t t' with
  | zero => simp [visit] at h
  | succ fuel ih =>
    cases hscan : scan (visit next fuel) (next a) (t.enter a) with
    | none => simp [visit, hscan] at h
    | some r =>
      obtain ⟨_ | _, u⟩ := r
      · simp [visit, hscan] at h
      · refine scan_cycle (fun b t t' hb h => (visit_explored fuel hb h).1.onStack)
          (fun b t t' hb ht => ih ht hb) (next a) (List.Subset.refl _) (fun c hc => ?_) hscan
        rcases List.mem_cons.mp hc with rfl | hc
        · exact .refl
        · exact (hstack c hc).to_reflTransGen

theorem sweep_cycle (fuel : Nat) (as : List α) {t : Trail α} (ht : t.onStack = [])
    (h : sweep next fuel as t = some true) :
    ∃ a ∈ as, ∃ c, Relation.ReflTransGen (fun a b => b ∈ next a) a c ∧
      Relation.TransGen (fun a b => b ∈ next a) c c := by
  induction as generalizing t with
  | nil => simp [sweep] at h
  | cons a as ih =>
    by_cases ha : a ∈ t.visited
    · simp only [sweep, ha, not_true_eq_false, if_false] at h
      obtain ⟨b, hb, hcycle⟩ := ih ht h
      exact ⟨b, List.mem_cons_of_mem _ hb, hcycle⟩
    · simp only [sweep, ha, not_false_eq_true, if_true] at h
      cases hvis : visit next fuel a t with
      | none => simp [hvis] at h
      | some r =>
        obtain ⟨_ | _, u⟩ := r
        · simp only [hvis] at h
          obtain ⟨b, hb, hcycle⟩ := ih ((visit_explored fuel ha hvis).1.onStack.trans ht) h
          exact ⟨b, List.mem_cons_of_mem _ hb, hcycle⟩
        · exact ⟨a, List.mem_cons_self, visit_cycle fuel (by simp [ht]) hvis⟩

/-- How many of the nodes a list does not hold. -/
def fresh (nodes seen : List α) : Nat := (nodes.filter (· ∉ seen)).length

theorem fresh_le (nodes : List α) {seen seen' : List α} (h : seen ⊆ seen') :
    fresh nodes seen' ≤ fresh nodes seen := by
  apply List.Sublist.length_le
  apply List.monotone_filter_right
  intro a ha
  simp only [decide_eq_true_eq] at ha ⊢
  exact fun hs => ha (h hs)

theorem fresh_cons_lt {nodes seen : List α} {a : α} (ha : a ∈ nodes) (hnot : a ∉ seen) :
    fresh nodes (a :: seen) < fresh nodes seen := by
  have hsplit : nodes.filter (· ∉ a :: seen) = (nodes.filter (· ∉ seen)).filter (· ≠ a) := by
    simp [List.filter_filter]
  rw [fresh, hsplit]
  exact List.length_filter_lt_length_iff_exists.mpr ⟨a, by simp [ha, hnot], by simp⟩

theorem scan_total {nodes : List α} {v : α → Trail α → Option (Bool × Trail α)} {fuel : Nat}
    (hv : ∀ b ∈ nodes, ∀ t, b ∉ t.visited → fresh nodes t.visited ≤ fuel →
      ∃ r, v b t = some r ∧ t.visited ⊆ r.2.visited)
    (bs : List α) (hbs : bs ⊆ nodes) {t : Trail α} (hfuel : fresh nodes t.visited ≤ fuel) :
    ∃ r, scan v bs t = some r ∧ t.visited ⊆ r.2.visited := by
  induction bs generalizing t with
  | nil => exact ⟨_, rfl, List.Subset.refl _⟩
  | cons b bs ih =>
    obtain ⟨hb, hbs⟩ := List.cons_subset.mp hbs
    by_cases hvis : b ∈ t.visited
    · by_cases hstack : b ∈ t.onStack
      · exact ⟨(true, t), by simp [scan, hvis, hstack], List.Subset.refl _⟩
      · simpa [scan, hvis, hstack] using ih hbs hfuel
    · obtain ⟨⟨_ | _, u⟩, hr, hsub⟩ := hv b hb t hvis hfuel
      · obtain ⟨r, hr', hsub'⟩ := ih hbs (Nat.le_trans (fresh_le nodes hsub) hfuel)
        exact ⟨r, by simp [scan, hvis, hr, hr'], List.Subset.trans hsub hsub'⟩
      · exact ⟨(true, u), by simp [scan, hvis, hr], hsub⟩

theorem visit_total {nodes : List α} (hclosed : ∀ a ∈ nodes, next a ⊆ nodes) (fuel : Nat) {a : α}
    (ha : a ∈ nodes) {t : Trail α} (hnot : a ∉ t.visited) (hfuel : fresh nodes t.visited ≤ fuel) :
    ∃ r, visit next fuel a t = some r ∧ t.visited ⊆ r.2.visited := by
  induction fuel generalizing a t with
  | zero =>
    have := fresh_cons_lt ha hnot
    omega
  | succ fuel ih =>
    have hlt := fresh_cons_lt ha hnot
    have henter : fresh nodes (t.enter a).visited ≤ fuel := by
      simp only [Trail.enter]
      omega
    obtain ⟨⟨_ | _, u⟩, hr, hsub⟩ := scan_total (fun b hb t hnot hfuel => ih hb hnot hfuel)
      (next a) (hclosed a ha) henter
    · exact ⟨(false, u.leave a), by simp [visit, hr],
        fun b hb => hsub (by simp [Trail.enter, hb])⟩
    · exact ⟨(true, u), by simp [visit, hr], fun b hb => hsub (by simp [Trail.enter, hb])⟩

theorem sweep_total {nodes : List α} (hclosed : ∀ a ∈ nodes, next a ⊆ nodes) {fuel : Nat}
    (hfuel : nodes.length ≤ fuel) (as : List α) (has : as ⊆ nodes) (t : Trail α) :
    ∃ b, sweep next fuel as t = some b := by
  induction as generalizing t with
  | nil => exact ⟨false, rfl⟩
  | cons a as ih =>
    obtain ⟨ha, has⟩ := List.cons_subset.mp has
    by_cases hvis : a ∈ t.visited
    · simpa [sweep, hvis] using ih has t
    · have hle : fresh nodes t.visited ≤ fuel :=
        Nat.le_trans (List.length_filter_le _ _) hfuel
      obtain ⟨⟨_ | _, u⟩, hr, -⟩ := visit_total hclosed fuel ha hvis hle
      · simpa [sweep, hvis, hr] using ih has u
      · exact ⟨true, by simp [sweep, hvis, hr]⟩

/-- What one node of the work list adds: its successors not reached yet go on both
lists. -/
def push : List α → List α × List α → List α × List α
  | [], s => s
  | b :: bs, s => if b ∈ s.2 then push bs s else push bs (b :: s.1, b :: s.2)

/-- All that can be reached from the nodes of the stack; `none` when the fuel runs
out. -/
def reach (next : α → List α) : Nat → List α × List α → Option (List α)
  | _, ([], reached) => some reached
  | 0, (_ :: _, _) => none
  | fuel + 1, (a :: stack, reached) => reach next fuel (push (next a) (stack, reached))

theorem mem_push (bs : List α) (s : List α × List α) {a : α} :
    a ∈ (push bs s).2 ↔ a ∈ s.2 ∨ a ∈ bs := by
  induction bs generalizing s with
  | nil => simp [push]
  | cons b bs ih =>
    by_cases hb : b ∈ s.2
    · simp only [push, hb, if_true, ih, List.mem_cons]
      grind
    · simp only [push, hb, if_false, ih, List.mem_cons]
      grind

theorem mem_push_stack (bs : List α) (s : List α × List α) {a : α} :
    a ∈ (push bs s).1 ↔ a ∈ s.1 ∨ a ∈ bs ∧ a ∉ s.2 := by
  induction bs generalizing s with
  | nil => simp [push]
  | cons b bs ih =>
    by_cases hb : b ∈ s.2
    · simp only [push, hb, if_true, ih, List.mem_cons]
      grind
    · simp only [push, hb, if_false, ih, List.mem_cons]
      grind

theorem push_measure {nodes : List α} (bs : List α) (hbs : bs ⊆ nodes) (s : List α × List α) :
    (push bs s).1.length + fresh nodes (push bs s).2 ≤ s.1.length + fresh nodes s.2 := by
  induction bs generalizing s with
  | nil => simp [push]
  | cons b bs ih =>
    obtain ⟨hb, hbs⟩ := List.cons_subset.mp hbs
    by_cases hmem : b ∈ s.2
    · simpa [push, hmem] using ih hbs s
    · have hlt := fresh_cons_lt hb hmem
      have hle := ih hbs (b :: s.1, b :: s.2)
      simp only [push, hmem, if_false, List.length_cons] at hle ⊢
      omega

theorem reach_total {nodes : List α} (hclosed : ∀ a, next a ⊆ nodes) (fuel : Nat)
    (s : List α × List α) (hfuel : s.1.length + fresh nodes s.2 ≤ fuel) :
    ∃ out, reach next fuel s = some out := by
  induction fuel generalizing s with
  | zero =>
    obtain ⟨_ | ⟨a, stack⟩, reached⟩ := s
    · exact ⟨reached, rfl⟩
    · simp at hfuel
  | succ fuel ih =>
    obtain ⟨_ | ⟨a, stack⟩, reached⟩ := s
    · exact ⟨reached, rfl⟩
    · have hle := push_measure (next a) (hclosed a) (stack, reached)
      simp only [List.length_cons] at hfuel hle
      exact ih _ (by omega)

/-- A search under way from `start`: every node reached has its successors reached
too, or is still on the stack. -/
structure Reaching (next : α → List α) (start : α) (s : List α × List α) : Prop where
  mem : start ∈ s.2
  stack : s.1 ⊆ s.2
  expanded : ∀ a ∈ s.2, a ∈ s.1 ∨ next a ⊆ s.2
  sound : ∀ a ∈ s.2, Relation.ReflTransGen (fun a b => b ∈ next a) start a

theorem Reaching.push {start a : α} {stack reached : List α}
    (h : Reaching next start (a :: stack, reached)) :
    Reaching next start (push (next a) (stack, reached)) where
  mem := (mem_push _ _).mpr (.inl h.mem)
  stack b hb := by
    rcases (mem_push_stack _ _).mp hb with hb | ⟨hb, -⟩
    · exact (mem_push _ _).mpr (.inl (h.stack (List.mem_cons_of_mem _ hb)))
    · exact (mem_push _ _).mpr (.inr hb)
  expanded b hb := by
    by_cases hold : b ∈ reached
    · rcases h.expanded b hold with hb | hb
      · rcases List.mem_cons.mp hb with rfl | hb
        · exact .inr fun c hc => (mem_push _ _).mpr (.inr hc)
        · exact .inl ((mem_push_stack _ _).mpr (.inl hb))
      · exact .inr fun c hc => (mem_push _ _).mpr (.inl (hb hc))
    · have hnew := ((mem_push _ _).mp hb).resolve_left hold
      exact .inl ((mem_push_stack _ _).mpr (.inr ⟨hnew, hold⟩))
  sound b hb := by
    rcases (mem_push _ _).mp hb with hb | hb
    · exact h.sound b hb
    · exact (h.sound a (h.stack List.mem_cons_self)).tail hb

omit [DecidableEq α] in
theorem Reaching.mem_iff {start : α} {reached : List α} (h : Reaching next start ([], reached))
    (a : α) : a ∈ reached ↔ Relation.ReflTransGen (fun a b => b ∈ next a) start a := by
  refine ⟨h.sound a, fun hpath => ?_⟩
  induction hpath with
  | refl => exact h.mem
  | tail _ hb ih => exact (h.expanded _ ih).resolve_left (by simp) hb

theorem mem_reach {start : α} (fuel : Nat) {s : List α × List α} {out : List α}
    (hout : reach next fuel s = some out) (hs : Reaching next start s) (a : α) :
    a ∈ out ↔ Relation.ReflTransGen (fun a b => b ∈ next a) start a := by
  induction fuel generalizing s with
  | zero =>
    obtain ⟨_ | ⟨b, stack⟩, reached⟩ := s
    · obtain rfl : reached = out := by simpa [reach] using hout
      exact hs.mem_iff a
    · simp [reach] at hout
  | succ fuel ih =>
    obtain ⟨_ | ⟨b, stack⟩, reached⟩ := s
    · obtain rfl : reached = out := by simpa [reach] using hout
      exact hs.mem_iff a
    · exact ih hout hs.push

omit [DecidableEq α] in
theorem Reaching.init (start : α) : Reaching next start ([start], [start]) where
  mem := List.mem_cons_self
  stack := List.Subset.refl _
  expanded a ha := .inl ha
  sound a ha := by
    rw [List.mem_singleton.mp ha]

end Search
