import Pyjobby.DagWaits

/-! The levels of a job graph: the topological sort and the search for cycles agree on
which graphs have them, and a node's level is the height of what lies below it. -/

namespace Pyjobby

open Relation Precedence

variable {α : Type}

namespace Dag

/-- A path of so many dependencies leads down from the node. -/
inductive Below (d : Dag α) : Nat → α → Prop
  | here (n : α) : Below d 0 n
  | there {k : Nat} {n dep : α} (hdep : dep ∈ d.dependsOn n) (h : Below d k dep) : Below d (k + 1) n

variable [DecidableEq α] {d : Dag α}

omit [DecidableEq α] in
theorem mem_nodes_of_path (hclosed : ∀ n ∈ d.nodes, d.dependsOn n ⊆ d.nodes) {n m : α}
    (hn : n ∈ d.nodes) (h : ReflTransGen (fun a b => b ∈ d.dependsOn a) n m) : m ∈ d.nodes := by
  induction h with
  | refl => exact hn
  | tail _ hdep ih => exact hclosed _ ih hdep

omit [DecidableEq α] in
theorem cycle_of_names {n : α} (h : TransGen d.Names n n) :
    n ∈ d.nodes ∧ TransGen (fun a b => b ∈ d.dependsOn a) n n := by
  obtain ⟨m, hnm, -⟩ := TransGen.head'_iff.mp h
  exact ⟨hnm.1, TransGen.mono (r := d.Names) (fun _ _ hab => hab.2) n n h⟩

omit [DecidableEq α] in
theorem names_of_cycle (hclosed : ∀ n ∈ d.nodes, d.dependsOn n ⊆ d.nodes) {n : α}
    (hn : n ∈ d.nodes) (h : TransGen (fun a b => b ∈ d.dependsOn a) n n) :
    TransGen d.Names n n := by
  suffices hpath : ∀ m, TransGen (fun a b => b ∈ d.dependsOn a) n m → TransGen d.Names n m from
    hpath n h
  intro m hm
  induction hm with
  | single hdep => exact .single ⟨hn, hdep⟩
  | tail hpath hdep ih =>
    exact ih.tail ⟨mem_nodes_of_path hclosed hn hpath.to_reflTransGen, hdep⟩

/-- The depth-first search ends, and finds a cycle exactly where there is one. -/
theorem hasCycle_iff (hclosed : ∀ n ∈ d.nodes, d.dependsOn n ⊆ d.nodes) :
    ∃ found, d.hasCycle = some found ∧ (found = true ↔ ¬Acyclic d.Names) := by
  obtain ⟨found, hfound⟩ := Search.sweep_total hclosed (Nat.le_refl _) d.nodes
    (List.Subset.refl _) .empty
  refine ⟨found, hfound, ?_⟩
  cases found with
  | true =>
    refine iff_of_true rfl fun hacyclic => ?_
    obtain ⟨n, hn, c, hpath, hcycle⟩ := Search.sweep_cycle d.nodes.length d.nodes rfl hfound
    have hc := mem_nodes_of_path hclosed hn hpath
    exact hacyclic c (names_of_cycle hclosed hc hcycle)
  | false =>
    refine iff_of_false nofun fun hcyclic => hcyclic fun n hcycle => ?_
    obtain ⟨hn, hcycle⟩ := cycle_of_names hcycle
    exact not_transGen_of_acc (Search.acc_of_sweep hfound hn) hcycle

omit [DecidableEq α] in
/-- Nodes each of which needs another one of them lie on or above a cycle. -/
theorem cyclic_of_stuck {rs : List α} (hrs : rs ⊆ d.nodes) (hne : rs ≠ [])
    (hstuck : ∀ n ∈ rs, ∃ dep ∈ d.dependsOn n, dep ∈ rs) : ¬Acyclic d.Names := by
  intro hacyclic
  let r (a b : α) : Prop := a ∈ rs ∧ b ∈ rs ∧ b ∈ d.dependsOn a
  have hr : Acyclic r := acyclic_map hacyclic id fun a b h => ⟨hrs h.1, h.2.2⟩
  have hout : ∀ a, Available r a → a ∉ rs := by
    intro a ha
    induction ha with
    | @of a _ ih =>
      intro hmem
      obtain ⟨dep, hdep, hin⟩ := hstuck a hmem
      exact ih dep ⟨hmem, hin, hdep⟩ hin
  obtain ⟨n, hn⟩ := List.exists_mem_of_ne_nil rs hne
  exact hout n (available_of_acyclic (fun _ _ h => h.2.1) hr n) hn

/-- The sort under way with `i` levels behind it: below a node that is left there is a
path of that length, below a node that is placed there is none. -/
structure Kahn.Graded (d : Dag α) (placed : List α) (i : Nat) (k : Kahn α) : Prop where
  counted : k.Counted d
  nodes : (placed ++ k.remaining).Perm d.nodes
  deep : ∀ n ∈ k.remaining, d.Below i n
  shallow : ∀ n ∈ placed, ∀ j, d.Below j n → j < i

theorem Kahn.Graded.ready (hclosed : ∀ n ∈ d.nodes, d.dependsOn n ⊆ d.nodes) {placed : List α}
    {i : Nat} {k : Kahn α} (h : k.Graded d placed i) {n : α} (hn : n ∈ k.remaining)
    (hready : ∀ dep ∈ d.dependsOn n, dep ∉ k.remaining) : ∀ j, d.Below j n → j ≤ i := by
  intro j hbelow
  cases hbelow with
  | here => exact Nat.zero_le i
  | there hdep hbelow =>
    have hin := h.nodes.symm.subset
      (hclosed n (h.nodes.subset (List.mem_append_right _ hn)) hdep)
    have hplaced := (List.mem_append.mp hin).resolve_right (hready _ hdep)
    exact h.shallow _ hplaced _ hbelow

theorem Kahn.Graded.level (hclosed : ∀ n ∈ d.nodes, d.dependsOn n ⊆ d.nodes) {placed : List α}
    {i : Nat} {k : Kahn α} (h : k.Graded d placed i) {level : List α} (hnd : level.Nodup)
    (hlevel : ∀ n, n ∈ level ↔ n ∈ k.remaining ∧ ∀ dep ∈ d.dependsOn n, dep ∉ k.remaining) :
    (level.foldl (Kahn.remove d) k).Graded d (placed ++ level) (i + 1) ∧
      (level ++ (level.foldl (Kahn.remove d) k).remaining).Perm k.remaining := by
  have hsub : level ⊆ k.remaining := fun n hn => ((hlevel n).mp hn).1
  obtain ⟨hcounted, hperm⟩ := Kahn.remove_all level h.counted hsub hnd
  have hleft : ∀ n ∈ (level.foldl (Kahn.remove d) k).remaining, n ∈ k.remaining ∧ n ∉ level := by
    intro n hn
    have hnodup := hperm.nodup_iff.mpr h.counted.nodup
    exact ⟨hperm.subset (List.mem_append_right _ hn), fun hmem => hnodup.disjoint hmem hn⟩
  refine ⟨⟨hcounted, ?_, fun n hn => ?_, fun n hn j hbelow => ?_⟩, hperm⟩
  · rw [List.append_assoc]
    exact (hperm.append_left placed).trans h.nodes
  · -- the node was not ready, so one of its dependencies is in this level or was left
    obtain ⟨hmem, hnot⟩ := hleft n hn
    rw [hlevel, not_and] at hnot
    push Not at hnot
    obtain ⟨dep, hdep, hin⟩ := hnot hmem
    exact .there hdep (h.deep dep hin)
  · rcases List.mem_append.mp hn with hn | hn
    · exact Nat.lt_succ_of_lt (h.shallow n hn j hbelow)
    · obtain ⟨hmem, hready⟩ := (hlevel n).mp hn
      exact Nat.lt_succ_of_le (h.ready hclosed hmem hready j hbelow)

/-- What the levels still to come are, the first of them being level `i`. -/
structure Leveled (d : Dag α) (i : Nat) (remaining : List α) (ls : List (List α)) : Prop where
  perm : ls.flatten.Perm remaining
  nonempty : [] ∉ ls
  height : ∀ j l, ls[j]? = some l → ∀ n ∈ l, d.Below (i + j) n ∧ ∀ m, d.Below m n → m ≤ i + j

theorem levels_graded (hclosed : ∀ n ∈ d.nodes, d.dependsOn n ⊆ d.nodes) (order : SetOrder α)
    (fuel : Nat) {k : Kahn α} {placed : List α} {i : Nat} (h : k.Graded d placed i)
    (hfuel : k.remaining.length ≤ fuel) :
    (d.levels order fuel k = .error .unready ∧ ¬Acyclic d.Names) ∨
      ∃ ls, d.levels order fuel k = .ok ls ∧ d.Leveled i k.remaining ls := by
  induction fuel generalizing k placed i with
  | zero =>
    obtain ⟨_ | ⟨r, rs⟩, inDegree⟩ := k
    · exact .inr ⟨[], rfl, .refl _, by simp, by simp⟩
    · simp at hfuel
  | succ fuel ih =>
    obtain ⟨_ | ⟨r, rs⟩, inDegree⟩ := k
    · exact .inr ⟨[], rfl, .refl _, by simp, by simp⟩
    have hlevel : ∀ n, n ∈ ((order.arrange (r :: rs)).filter fun n => inDegree n = 0) ↔
        n ∈ r :: rs ∧ ∀ dep ∈ d.dependsOn n, dep ∉ r :: rs := by
      intro n
      rw [List.mem_filter, (order.perm _).mem_iff, decide_eq_true_eq]
      refine and_congr_right fun hn => ?_
      have hcount : inDegree n = _ := h.counted.degree n hn
      rw [hcount]
      simp
    cases heq : (order.arrange (r :: rs)).filter fun n => inDegree n = 0 with
    | nil =>
      refine .inl ⟨by rw [levels, heq], ?_⟩
      refine cyclic_of_stuck ?_ (List.cons_ne_nil r rs) fun n hn => ?_
      · exact fun n hn => h.nodes.subset (List.mem_append_right _ hn)
      · by_contra hready
        push Not at hready
        have := (hlevel n).mpr ⟨hn, hready⟩
        simp [heq] at this
    | cons n ns =>
      have hnd : (n :: ns).Nodup :=
        heq ▸ (((order.perm _).nodup_iff.mpr h.counted.nodup).filter _)
      obtain ⟨hgraded, hperm⟩ := h.level hclosed hnd (heq ▸ hlevel)
      have hlen := hperm.length_eq
      simp only [List.length_append, List.length_cons] at hlen hfuel
      rcases ih hgraded (by omega) with ⟨herr, hcyclic⟩ | ⟨ls, hls, hleveled⟩
      · refine .inl ⟨?_, hcyclic⟩
        rw [levels, heq]
        simp only [herr, Except.map]
      · refine .inr ⟨(n :: ns) :: ls, ?_, (hleveled.perm.append_left _).trans hperm, ?_, ?_⟩
        · rw [levels, heq]
          simp only [hls, Except.map]
        · simpa using hleveled.nonempty
        · intro j l hl m hm
          cases j with
          | zero =>
            obtain rfl : n :: ns = l := by simpa using hl
            obtain ⟨hmem, hready⟩ := (hlevel m).mp (heq ▸ hm)
            exact ⟨h.deep m hmem, h.ready hclosed hmem hready⟩
          | succ j =>
            have hheight := hleveled.height j l (by simpa using hl) m hm
            rwa [Nat.add_assoc, Nat.add_comm 1 j] at hheight

theorem graded_nodes (hclosed : ∀ n ∈ d.nodes, d.dependsOn n ⊆ d.nodes) :
    Kahn.Graded d [] 0 ⟨d.nodes, fun n => (d.dependsOn n).length⟩ where
  counted := ⟨d.nodes_nodup, fun n hn => by
    have hall : (d.dependsOn n).filter (fun dep => dep ∈ d.nodes) = d.dependsOn n :=
      List.filter_eq_self.mpr fun dep hdep => by simpa using hclosed n hn hdep
    rw [hall]⟩
  nodes := .refl _
  deep n _ := .here n
  shallow n hn := by cases hn

omit [DecidableEq α] in
/-- A path along a cycle can be made as long as one likes. -/
theorem below_of_cycle {n : α} (h : TransGen (fun a b => b ∈ d.dependsOn a) n n) (k : Nat) :
    ∃ j, k ≤ j ∧ d.Below j n := by
  have hlonger : ∀ m, TransGen (fun a b => b ∈ d.dependsOn a) m n → ∀ j, d.Below j n →
      ∃ i, j < i ∧ d.Below i m := by
    intro m hm j hj
    induction hm using TransGen.head_induction_on with
    | single hdep => exact ⟨j + 1, Nat.lt_succ_self j, .there hdep hj⟩
    | head hdep _ ih =>
      obtain ⟨i, hlt, hi⟩ := ih
      exact ⟨i + 1, Nat.lt_succ_of_lt hlt, .there hdep hi⟩
  induction k with
  | zero => exact ⟨0, Nat.le_refl 0, .here n⟩
  | succ k ih =>
    obtain ⟨j, hle, hj⟩ := ih
    obtain ⟨i, hlt, hi⟩ := hlonger n h j hj
    exact ⟨i, by omega, hi⟩

omit [DecidableEq α] in
theorem Leveled.acyclic {ls : List (List α)} (h : d.Leveled 0 d.nodes ls) : Acyclic d.Names := by
  intro n hcycle
  obtain ⟨hn, hcycle⟩ := cycle_of_names hcycle
  obtain ⟨l, hl, hmem⟩ := List.mem_flatten.mp (h.perm.symm.subset hn)
  obtain ⟨i, hi⟩ := List.getElem?_of_mem hl
  obtain ⟨j, hle, hj⟩ := below_of_cycle hcycle (0 + i + 1)
  have := (h.height i l hi n hmem).2 j hj
  omega

omit [DecidableEq α] in
theorem Leveled.earlier (hclosed : ∀ n ∈ d.nodes, d.dependsOn n ⊆ d.nodes) {ls : List (List α)}
    (h : d.Leveled 0 d.nodes ls) {i : Nat} {l : List α} (hl : ls[i]? = some l) {n dep : α}
    (hn : n ∈ l) (hdep : dep ∈ d.dependsOn n) : ∃ j < i, ∃ l', ls[j]? = some l' ∧ dep ∈ l' := by
  have hnode : n ∈ d.nodes :=
    h.perm.subset (List.mem_flatten_of_mem (List.mem_of_getElem? hl) hn)
  obtain ⟨l', hl', hmem⟩ := List.mem_flatten.mp (h.perm.symm.subset (hclosed n hnode hdep))
  obtain ⟨j, hj⟩ := List.getElem?_of_mem hl'
  have hbelow := (h.height j l' hj dep hmem).1
  have hle := (h.height i l hl n hn).2 _ (.there hdep hbelow)
  exact ⟨j, by omega, l', hj, hmem⟩

theorem checkGroups_ne_cycle (ns : List α) : d.checkGroups ns ≠ .error .cycle := by
  induction ns with
  | nil =>
    intro h
    cases h
  | cons n ns ih =>
    rw [checkGroups]
    split
    · intro h
      cases h
    · exact ih
    · intro h
      cases h

/-- Where no node carries an identity, validation names a cycle exactly where its search
found one. -/
theorem validate_cycle (hclosed : ∀ n ∈ d.nodes, d.dependsOn n ⊆ d.nodes)
    (hid : d.identified = none) : d.validate = .error .cycle ↔ d.hasCycle = some true := by
  have hforeign : d.foreign = none := by
    refine List.findSome?_eq_none_iff.mpr fun n hn => ?_
    rw [Option.map_eq_none_iff, List.find?_eq_none]
    exact fun dep hdep => by simpa using hclosed n hn hdep
  unfold validate
  rw [hid, hforeign]
  cases hfound : d.hasCycle with
  | none => simp
  | some found =>
    cases found with
    | true => simp
    | false =>
      refine iff_of_false (fun herr => ?_) (by simp)
      cases hcheck : d.checkGroups d.fanIn with
      | ok => simp [dependencyGroups, hcheck, Except.map] at herr
      | error e =>
        obtain rfl : e = .cycle := by simpa [dependencyGroups, hcheck, Except.map] using herr
        exact d.checkGroups_ne_cycle _ hcheck

end Dag

/-- The topological sort raises exactly on the graphs that have a cycle, as the
depth-first search does; otherwise its levels hold every node once, every dependency is in
an earlier level, and a node's level is the length of the longest path of dependencies
below it. -/
theorem topological_sort_levels [DecidableEq α] (d : Dag α)
    (hclosed : ∀ n ∈ d.nodes, d.dependsOn n ⊆ d.nodes) (order : SetOrder α) :
    (d.topologicalSort order = .error .unready ↔ ¬Acyclic d.Names) ∧
    (d.hasCycle = some true ↔ ¬Acyclic d.Names) ∧ (d.hasCycle = some false ↔ Acyclic d.Names) ∧
    (d.identified = none → (d.validate = .error .cycle ↔ ¬Acyclic d.Names)) ∧
    (Acyclic d.Names → ∃ ls, d.topologicalSort order = .ok ls ∧ ls.flatten.Perm d.nodes ∧
      [] ∉ ls ∧ ∀ i l, ls[i]? = some l → ∀ n ∈ l,
        (∀ dep ∈ d.dependsOn n, ∃ j < i, ∃ l', ls[j]? = some l' ∧ dep ∈ l') ∧
          d.Below i n ∧ ∀ k, d.Below k n → k ≤ i) := by
  obtain ⟨found, hfound, hcycle⟩ := Dag.hasCycle_iff hclosed
  have hsearch : d.hasCycle = some true ↔ ¬Acyclic d.Names := by
    rw [hfound, Option.some.injEq, hcycle]
  have hnone : d.hasCycle = some false ↔ Acyclic d.Names := by
    rw [hfound, Option.some.injEq, ← Bool.not_eq_true, hcycle, not_not]
  have hvalidate (hid : d.identified = none) :=
    (Dag.validate_cycle hclosed hid).trans hsearch
  rcases Dag.levels_graded hclosed order d.nodes.length (Dag.graded_nodes hclosed)
      (Nat.le_refl _) with ⟨herr, hcyclic⟩ | ⟨ls, hls, hleveled⟩
  · exact ⟨iff_of_true herr hcyclic, hsearch, hnone, hvalidate,
      fun hacyclic => absurd hacyclic hcyclic⟩
  · have hacyclic := hleveled.acyclic
    have hok : d.topologicalSort order = .ok ls := hls
    refine ⟨?_, hsearch, hnone, hvalidate,
      fun _ => ⟨ls, hok, hleveled.perm, hleveled.nonempty, fun i l hl n hn => ⟨?_, ?_⟩⟩⟩
    · rw [hok]
      exact iff_of_false nofun fun h => h hacyclic
    · exact fun dep hdep => hleveled.earlier hclosed hl hn hdep
    · simpa only [Nat.zero_add] using hleveled.height i l hl n hn

theorem topological_sort_levels_diamond :
    (∀ n ∈ Dag.diamond.nodes, Dag.diamond.dependsOn n ⊆ Dag.diamond.nodes) ∧
    Acyclic Dag.diamond.Names ∧
    ∃ ls, Dag.diamond.topologicalSort .asListed = .ok ls ∧ Dag.diamond.Below 2 3 := by
  have hclosed : ∀ n ∈ Dag.diamond.nodes, Dag.diamond.dependsOn n ⊆ Dag.diamond.nodes := by decide
  obtain ⟨-, -, hnone, -, hsorted⟩ := topological_sort_levels Dag.diamond hclosed .asListed
  have hacyclic := hnone.mp (by decide)
  obtain ⟨ls, hls, -⟩ := hsorted hacyclic
  have hone : Dag.diamond.Below 1 1 := .there (show 0 ∈ _ by decide) (.here 0)
  exact ⟨hclosed, hacyclic, ls, hls, .there (by decide) hone⟩

end Pyjobby
