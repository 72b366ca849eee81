import Pyjobby.Lib.Rooted
import Mathlib.Data.List.Sort

/-! What a durable state machine is: the declaration, the table it is resolved to, and
the checks over that table. Most of them look at sets that hold already what they are
checked against. -/

namespace Pyjobby

open Relation

namespace Fsm

structure Transition where
  target : String
  action : Option String
  deriving DecidableEq

/-- The three shapes a declaration may use for an edge. -/
inductive Edge where
  | transition (t : Transition)
  | bare (target : String)
  | pair (target : String) (action : Option String)

/-- The items of a mapping, in its order. -/
abbrev Items (β : Type) := List (String × β)

abbrev EdgeTable := Items (Items Transition)

/-- What a subclass writes; the keys of a mapping are distinct. -/
structure TransitionSpec where
  items : Items (Items Edge)
  sources_nodup : (items.map Prod.fst).Nodup
  events_nodup : ∀ row ∈ items, (row.2.map Prod.fst).Nodup

def Edge.resolve : Edge → Transition
  | transition t => t
  | bare target => ⟨target, none⟩
  | pair target action => ⟨target, action⟩

def normalize (spec : TransitionSpec) : EdgeTable :=
  spec.items.map fun row => (row.1, row.2.map fun edge => (edge.1, edge.2.resolve))

def sources (edges : EdgeTable) : List String := edges.map Prod.fst

def targets (edges : EdgeTable) : List String :=
  edges.flatMap fun row => row.2.map fun edge => edge.2.target

/-- Every state named anywhere in the table. -/
def states (edges : EdgeTable) : List String := sources edges ++ targets edges

/-- What a `MachineDefinitionError` says. -/
inductive DefinitionError where
  | noInitial
  | initial (initial : String) (known : List String)
  | final (bad : String)
  | finalEdges (source : String) (events : List String)
  | target (source event target : String) (known : List String)
  | action (source event target action : String)
  | unreachable (states : List String)
  deriving DecidableEq

/-- `sorted` of a set. -/
def sorted (names : List String) : List String := names.dedup.insertionSort (· ≤ ·)

/-- The checks of one edge, `known` being the states of the table. -/
def edgeError (hasAction : Option (String → Bool)) (known : List String) (source : String)
    (edge : String × Transition) : Option DefinitionError :=
  if edge.2.target ∉ known then some (.target source edge.1 edge.2.target (sorted known))
  else
    match edge.2.action, hasAction with
    | some action, some has =>
      if has action then none else some (.action source edge.1 edge.2.target action)
    | _, _ => none

def rowError (hasAction : Option (String → Bool)) (known final : List String)
    (row : String × Items Transition) : Option DefinitionError :=
  if row.1 ∈ final then some (.finalEdges row.1 (sorted (row.2.map Prod.fst)))
  else row.2.findSome? (edgeError hasAction known row.1)

/-- Neither the initial state nor reached by any transition, its own included. -/
def unreachable (edges : EdgeTable) (initial : String) : List String :=
  (states edges).filter fun s => s ≠ initial ∧ s ∉ targets edges

def validate (edges : EdgeTable) (initial : String) (final : List String)
    (hasAction : Option (String → Bool)) : Except DefinitionError Unit :=
  let known := states edges
  if edges.isEmpty then .ok ()
  else if initial.isEmpty then .error .noInitial
  else if initial ∉ known then .error (.initial initial (sorted known))
  else
    match sorted (final.filter (· ∉ known)) with
    | bad :: _ => .error (.final bad)
    | [] =>
      match edges.findSome? (rowError hasAction known final) with
      | some e => .error e
      | none =>
        if unreachable edges initial = [] then .ok ()
        else .error (.unreachable (sorted (unreachable edges initial)))

/-- What an accepted declaration has passed. -/
structure Accepted (edges : EdgeTable) (initial : String) (final : List String) : Prop where
  start : initial ∈ states edges
  ends : ∀ s ∈ final, s ∈ states edges
  rowless : ∀ s ∈ sources edges, s ∉ final
  reached : ∀ s ∈ states edges, s ≠ initial → s ∈ targets edges

theorem mem_sorted {names : List String} {s : String} : s ∈ sorted names ↔ s ∈ names := by
  simp [sorted]

theorem accepted_of_ok {edges : EdgeTable} {initial : String} {final : List String}
    {hasAction : Option (String → Bool)} (hne : edges ≠ [])
    (h : validate edges initial final hasAction = .ok ()) : Accepted edges initial final := by
  have hnonempty : edges.isEmpty = false := by simpa using hne
  simp only [validate, hnonempty, Bool.false_eq_true, if_false] at h
  split at h
  · cases h
  split at h
  · cases h
  rename_i hinitial
  split at h
  · cases h
  rename_i hfinal
  split at h
  · cases h
  rename_i hrows
  split at h
  · rename_i hreached
    refine ⟨not_not.mp hinitial, fun s hs => ?_, fun s hs hf => ?_, fun s hs hne => ?_⟩
    · by_contra hknown
      have hbad : s ∈ sorted (final.filter (· ∉ states edges)) :=
        mem_sorted.mpr (List.mem_filter.mpr ⟨hs, by simpa using hknown⟩)
      rw [hfinal] at hbad
      cases hbad
    · obtain ⟨row, hrow, rfl⟩ := List.mem_map.mp hs
      have hnone := List.findSome?_eq_none_iff.mp hrows row hrow
      simp [rowError, hf] at hnone
    · by_contra htarget
      have hbad : s ∈ unreachable edges initial :=
        List.mem_filter.mpr ⟨hs, by simpa using ⟨hne, htarget⟩⟩
      simp [hreached] at hbad
  · cases h

/-- An edge leads from one state to the other. -/
def Leads (edges : EdgeTable) (s t : String) : Prop :=
  ∃ row ∈ edges, row.1 = s ∧ ∃ edge ∈ row.2, edge.2.target = t

/-- The state has a row of its own or is listed final. -/
def Declared (edges : EdgeTable) (final : List String) (s : String) : Prop :=
  s ∈ sources edges ∨ s ∈ final

/-- What a machine needs of its declaration. -/
structure Sound (edges : EdgeTable) (initial : String) (final : List String) : Prop where
  targets : ∀ row ∈ edges, ∀ edge ∈ row.2, Declared edges final edge.2.target
  reachable : ∀ s, Declared edges final s → ReflTransGen (Leads edges) initial s
  rowless : ∀ s ∈ final, s ∉ sources edges
  live : ∀ s, ReflTransGen (Leads edges) initial s → s ∈ final ∨ ∃ t, Leads edges s t

/-- No name is only a target, unless it is final; no row is empty; and no cycle is cut off
from the rest of the machine. -/
structure Connected (edges : EdgeTable) (initial : String) (final : List String) : Prop where
  named : ∀ s ∈ states edges, s ∉ sources edges → s ∈ final
  rows : ∀ row ∈ edges, row.2 ≠ []
  cycles : ∀ s, TransGen (Leads edges) s s → Rooted.Entered (Leads edges) initial s

section

variable {edges : EdgeTable} {initial : String} {final : List String}

theorem mem_targets {s : String} : s ∈ targets edges ↔ ∃ a, Leads edges a s := by
  simp only [targets, List.mem_flatMap, List.mem_map, Leads]
  constructor
  · rintro ⟨row, hrow, edge, hedge, rfl⟩
    exact ⟨row.1, row, hrow, rfl, edge, hedge, rfl⟩
  · rintro ⟨a, row, hrow, -, edge, hedge, rfl⟩
    exact ⟨row, hrow, edge, hedge, rfl⟩

theorem Leads.known {s t : String} (h : Leads edges s t) :
    s ∈ states edges ∧ t ∈ states edges := by
  have ht : t ∈ targets edges := mem_targets.mpr ⟨s, h⟩
  obtain ⟨row, hrow, rfl, -⟩ := h
  exact ⟨List.mem_append_left _ (List.mem_map_of_mem hrow), List.mem_append_right _ ht⟩

/-- All states are reachable exactly when no cycle is cut off. -/
theorem Accepted.reachable_iff (h : Accepted edges initial final) :
    (∀ s ∈ states edges, ReflTransGen (Leads edges) initial s) ↔
      ∀ s, TransGen (Leads edges) s s → Rooted.Entered (Leads edges) initial s :=
  Rooted.reach_iff_entered (List.finite_toSet (states edges))
    (fun _ _ hst => hst.known) fun s hs hne => mem_targets.mp (h.reached s hs hne)

theorem Accepted.sound_iff (h : Accepted edges initial final)
    (hnodup : (sources edges).Nodup) :
    Sound edges initial final ↔ Connected edges initial final := by
  constructor
  · intro hs
    have hdeclared : ∀ s ∈ states edges, Declared edges final s := by
      intro s hmem
      rcases List.mem_append.mp hmem with hsource | htarget
      · exact .inl hsource
      · obtain ⟨a, row, hrow, -, edge, hedge, rfl⟩ := mem_targets.mp htarget
        exact hs.targets row hrow edge hedge
    refine ⟨fun s hmem hnot => (hdeclared s hmem).resolve_left hnot, fun row hrow hempty => ?_,
      h.reachable_iff.mp fun s hmem => hs.reachable s (hdeclared s hmem)⟩
    have hsource : row.1 ∈ sources edges := List.mem_map_of_mem hrow
    rcases hs.live row.1 (hs.reachable _ (.inl hsource)) with hfinal | ⟨t, row', hrow', heq, hedge⟩
    · exact h.rowless _ hsource hfinal
    · obtain rfl := List.inj_on_of_nodup_map hnodup hrow' hrow heq
      simp [hempty] at hedge
  · intro hc
    have hreach := h.reachable_iff.mpr hc.cycles
    have hdeclared : ∀ s ∈ states edges, Declared edges final s := by
      intro s hmem
      by_cases hsource : s ∈ sources edges
      · exact .inl hsource
      · exact .inr (hc.named s hmem hsource)
    refine ⟨fun row hrow edge hedge => ?_, fun s hs => ?_,
      fun s hs hsource => h.rowless s hsource hs, fun s hpath => ?_⟩
    · exact hdeclared _ (Leads.known ⟨row, hrow, rfl, edge, hedge, rfl⟩).2
    · refine hreach s (hs.elim (List.mem_append_left _) (h.ends s))
    · have hmem : s ∈ states edges := by
        rcases ReflTransGen.cases_tail hpath with rfl | ⟨t, -, hts⟩
        · exact h.start
        · exact hts.known.2
      rcases hdeclared s hmem with hsource | hfinal
      · obtain ⟨row, hrow, rfl⟩ := List.mem_map.mp hsource
        obtain ⟨edge, hedge⟩ := List.exists_mem_of_ne_nil _ (hc.rows row hrow)
        exact .inr ⟨edge.2.target, row, hrow, rfl, edge, hedge, rfl⟩
      · exact .inl hfinal

/-- What no edge leads out of holds all that is reachable from inside. -/
theorem mem_of_closed (inside : List String)
    (hclosed : ∀ row ∈ edges, row.1 ∈ inside → ∀ edge ∈ row.2, edge.2.target ∈ inside)
    (hinitial : initial ∈ inside) {s : String} (h : ReflTransGen (Leads edges) initial s) :
    s ∈ inside := by
  induction h with
  | refl => exact hinitial
  | tail _ hstep ih =>
    obtain ⟨row, hrow, rfl, edge, hedge, rfl⟩ := hstep
    exact hclosed row hrow ih edge hedge

theorem edgeError_ne_target {hasAction : Option (String → Bool)} {row : String × Items Transition}
    (hrow : row ∈ edges) {edge : String × Transition} (hedge : edge ∈ row.2)
    {source event target : String} {known : List String} :
    edgeError hasAction (states edges) row.1 edge ≠ some (.target source event target known) := by
  have hknown : edge.2.target ∈ states edges := (Leads.known ⟨row, hrow, rfl, edge, hedge, rfl⟩).2
  unfold edgeError
  split
  · exact absurd hknown ‹_›
  · split
    · split <;> nofun
    · nofun

/-- The check of the targets never fails: `known` holds every target. -/
theorem validate_ne_target {hasAction : Option (String → Bool)}
    {source event target : String} {known : List String} :
    validate edges initial final hasAction ≠ .error (.target source event target known) := by
  intro h
  unfold validate at h
  dsimp only at h
  repeat' split at h
  all_goals try cases h
  rename_i hrow
  obtain ⟨row, hmem, hrow⟩ := List.exists_of_findSome?_eq_some hrow
  unfold rowError at hrow
  split at hrow
  · cases hrow
  · obtain ⟨edge, hedge, hedge'⟩ := List.exists_of_findSome?_eq_some hrow
    exact edgeError_ne_target hmem hedge hedge'

end

theorem sources_normalize (spec : TransitionSpec) :
    sources (normalize spec) = spec.items.map Prod.fst := by
  simp [sources, normalize, Function.comp_def]

end Fsm

open Fsm in
/-- An accepted declaration is sound exactly when no name is only a target, no row is empty
and no cycle is cut off. -/
theorem machine_validate_sound (spec : TransitionSpec) (hne : spec.items ≠ []) (initial : String)
    (final : List String) (hasAction : Option (String → Bool))
    (h : validate (normalize spec) initial final hasAction = .ok ()) :
    Sound (normalize spec) initial final ↔ Connected (normalize spec) initial final := by
  have hedges : normalize spec ≠ [] := by simpa [Fsm.normalize] using hne
  have hnodup : (sources (normalize spec)).Nodup := sources_normalize spec ▸ spec.sources_nodup
  exact (accepted_of_ok hedges h).sound_iff hnodup

def Fsm.retrying : TransitionSpec where
  items := [("new", [("retry", .bare "new"), ("pay", .pair "paid" (some "charge"))])]
  sources_nodup := by decide
  events_nodup := by decide

open Fsm in
theorem machine_validate_sound_retrying :
    validate (normalize retrying) "new" ["paid"] (some (· = "charge")) = .ok () ∧
      Sound (normalize retrying) "new" ["paid"] := by
  have hok : validate (normalize retrying) "new" ["paid"] (some (· = "charge")) = .ok () := by
    decide
  refine ⟨hok, (machine_validate_sound retrying (by decide) _ _ _ hok).mpr
    ⟨by decide, by decide, ?_⟩⟩
  intro s hcycle
  obtain ⟨t, ⟨row, hrow, rfl, -⟩, -⟩ := TransGen.head'_iff.mp hcycle
  obtain rfl := List.mem_singleton.mp hrow
  exact .inl ⟨.refl, .refl⟩

/-- A misspelt target. -/
def Fsm.misspelt : TransitionSpec where
  items := [("new", [("pay", .bare "payed"), ("drop", .bare "paid")])]
  sources_nodup := by decide
  events_nodup := by decide

/-- Two states that only reach each other. -/
def Fsm.island : TransitionSpec where
  items := [("new", [("pay", .bare "paid")]), ("held", [("free", .bare "freed")]),
    ("freed", [("hold", .bare "held")])]
  sources_nodup := by decide
  events_nodup := by decide

/-- A state with an empty row. -/
def Fsm.stuck : TransitionSpec where
  items := [("new", [("pay", .bare "paid"), ("stop", .bare "stopped")]), ("stopped", [])]
  sources_nodup := by decide
  events_nodup := by decide

open Fsm in
/-- Each of them is accepted. -/
theorem machine_validate_gaps :
    (validate (normalize misspelt) "new" ["paid"] none = .ok () ∧
      ¬Sound (normalize misspelt) "new" ["paid"]) ∧
    (validate (normalize island) "new" ["paid"] none = .ok () ∧
      ¬Sound (normalize island) "new" ["paid"]) ∧
    validate (normalize stuck) "new" ["paid"] none = .ok () ∧
      ¬Sound (normalize stuck) "new" ["paid"] := by
  refine ⟨⟨by decide, fun hs => ?_⟩, ⟨by decide, fun hs => ?_⟩, by decide, fun hs => ?_⟩
  · have htarget := hs.targets _ List.mem_cons_self ("pay", ⟨"payed", none⟩) List.mem_cons_self
    exact absurd htarget (by unfold Declared; decide)
  · have hheld := hs.reachable "held" (.inl (by decide))
    have hmem := mem_of_closed ["new", "paid"] (by decide) (by decide) hheld
    exact absurd hmem (by decide)
  · have hpath : Leads (normalize stuck) "new" "stopped" := by
      refine ⟨("new", [("pay", ⟨"paid", none⟩), ("stop", ⟨"stopped", none⟩)]), by decide, rfl, ?_⟩
      exact ⟨("stop", ⟨"stopped", none⟩), by decide, rfl⟩
    have hempty : ∀ row ∈ normalize stuck, row.1 = "stopped" → row.2 = [] := by decide
    rcases hs.live "stopped" (.single hpath) with hfinal | ⟨t, row, hrow, heq, edge, hedge, -⟩
    · exact absurd hfinal (by decide)
    · simp [hempty row hrow heq] at hedge

end Pyjobby
