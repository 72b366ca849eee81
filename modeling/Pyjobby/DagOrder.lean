import Pyjobby.Dag
import Mathlib.Data.List.Perm.Basic

/-! What an accepted graph satisfies, and the order in which `execute` creates its
jobs. -/

namespace Pyjobby

open Relation Disjoint

variable {α : Type} [DecidableEq α]

namespace Dag

variable {d : Dag α}

def Shares (d : Dag α) (a b : α) : Prop := ∃ n ∈ d.fanIn, a ∈ d.dependsOn n ∧ b ∈ d.dependsOn n

/-- Overlapping dependency sets put `a` and `b` into one group. -/
def Merged (d : Dag α) : α → α → Prop := EqvGen d.Shares

def After (d : Dag α) (a b : α) : Prop := b ∈ d.dependents a

omit [DecidableEq α] in
theorem mem_fanIn {n : α} : n ∈ d.fanIn ↔ n ∈ d.nodes ∧ 1 < (d.dependsOn n).length := by
  simp [fanIn]

theorem mem_dependents {n m : α} : m ∈ d.dependents n ↔ m ∈ d.nodes ∧ n ∈ d.dependsOn m := by
  simp [dependents]

omit [DecidableEq α] in
theorem mem_spokes {n a b : α} : (a, b) ∈ d.spokes n ↔
    ∃ rest, d.dependsOn n = a :: rest ∧ b ∈ rest := by
  unfold spokes
  split
  · simp [*]
  · rename_i first rest h
    simp only [h, List.mem_map, Prod.mk.injEq, List.cons.injEq]
    grind

omit [DecidableEq α] in
theorem merged_of_mem {n a b : α} (hn : n ∈ d.fanIn) (ha : a ∈ d.dependsOn n)
    (hb : b ∈ d.dependsOn n) : d.Merged a b :=
  .rel _ _ ⟨n, hn, ha, hb⟩

theorem root_eq_iff {a b : α} : d.parents.root a = d.parents.root b ↔ d.Merged a b := by
  unfold parents
  rw [Forest.root_eq_iff]
  constructor
  · intro h
    induction h with
    | rel a b h =>
      rcases h with h | h
      · obtain rfl : a = b := h
        exact .refl _
      · obtain ⟨n, hn, hab⟩ := List.mem_flatMap.mp h
        obtain ⟨rest, hdeps, hb⟩ := mem_spokes.mp hab
        exact merged_of_mem hn (by simp [hdeps]) (by simp [hdeps, hb])
    | refl => exact .refl _
    | symm _ _ _ ih => exact .symm _ _ ih
    | trans _ _ _ _ _ ih₁ ih₂ => exact .trans _ _ _ ih₁ ih₂
  · intro h
    induction h with
    | refl => exact .refl _
    | symm _ _ _ ih => exact .symm _ _ ih
    | trans _ _ _ _ _ ih₁ ih₂ => exact .trans _ _ _ ih₁ ih₂
    | rel a b h =>
      obtain ⟨n, hn, ha, hb⟩ := h
      cases hdeps : d.dependsOn n with
      | nil => simp [hdeps] at ha
      | cons first rest =>
        have hspoke : ∀ c ∈ d.dependsOn n, EqvGen (fun a b =>
            Forest.discrete.root a = Forest.discrete.root b ∨ (a, b) ∈ d.fanIn.flatMap d.spokes)
            first c := by
          intro c hc
          rcases List.mem_cons.mp (hdeps ▸ hc) with rfl | hc
          · exact .refl _
          · exact .rel _ _ (.inr (List.mem_flatMap.mpr ⟨n, hn, mem_spokes.mpr ⟨rest, hdeps, hc⟩⟩))
        exact .trans _ _ _ (.symm _ _ (hspoke a ha)) (hspoke b hb)

def Grouped (d : Dag α) (m : α) : Prop := ∃ n ∈ d.fanIn, m ∈ d.dependsOn n

omit [DecidableEq α] in
theorem Grouped.of_merged {a b : α} (h : d.Merged a b) : d.Grouped a ↔ d.Grouped b := by
  induction h with
  | rel a b h =>
    obtain ⟨n, hn, ha, hb⟩ := h
    exact ⟨fun _ => ⟨n, hn, hb⟩, fun _ => ⟨n, hn, ha⟩⟩
  | refl => exact Iff.rfl
  | symm _ _ _ ih => exact ih.symm
  | trans _ _ _ _ _ ih₁ ih₂ => exact ih₁.trans ih₂

theorem mem_members {r m : α} :
    m ∈ d.members r ↔ m ∈ d.nodes ∧ d.Grouped m ∧ d.parents.root m = r := by
  simp [members, Grouped]

theorem mem_waitGroup {n m : α} : m ∈ d.waitGroup n ↔
    m ∈ d.nodes ∧ d.Grouped m ∧ ∃ dep rest, d.dependsOn n = dep :: rest ∧ d.Merged dep m := by
  unfold waitGroup
  split
  · simp [*]
  · rename_i dep rest h
    rw [mem_members]
    constructor
    · rintro ⟨hm, hg, hroot⟩
      exact ⟨hm, hg, dep, rest, h, root_eq_iff.mp hroot.symm⟩
    · rintro ⟨hm, hg, dep', rest', h', hmerged⟩
      obtain ⟨rfl, rfl⟩ := List.cons.inj (h.symm.trans h')
      exact ⟨hm, hg, (root_eq_iff.mpr hmerged).symm⟩

structure Valid (d : Dag α) : Prop where
  closed : ∀ n ∈ d.nodes, d.dependsOn n ⊆ d.nodes
  acc : ∀ n ∈ d.nodes, Acc (fun b a => b ∈ d.dependsOn a) n
  unblocked : ∀ n ∈ d.fanIn, ∀ m ∈ d.waitGroup n, ¬ ReflTransGen d.After n m

theorem closed_of_foreign (h : d.foreign = none) : ∀ n ∈ d.nodes, d.dependsOn n ⊆ d.nodes := by
  intro n hn dep hdep
  have hfind := List.findSome?_eq_none_iff.mp h n hn
  simpa using List.find?_eq_none.mp (Option.map_eq_none_iff.mp hfind) dep hdep

theorem mem_downstream {start : α} {out : List α} (h : d.downstream start = some out) (a : α) :
    a ∈ out ↔ ReflTransGen d.After start a :=
  Search.mem_reach _ h (.init start) a

theorem unblocked_of_checkGroups {ns : List α} (h : d.checkGroups ns = .ok ()) :
    ∀ n ∈ ns, ∀ m ∈ d.waitGroup n, ¬ ReflTransGen d.After n m := by
  induction ns with
  | nil => simp
  | cons n ns ih =>
    cases hb : d.blocked n with
    | none => simp [checkGroups, hb] at h
    | some others =>
      cases others with
      | cons _ _ => simp [checkGroups, hb] at h
      | nil =>
        simp only [checkGroups, hb] at h
        intro n' hn' m hm
        rcases List.mem_cons.mp hn' with rfl | hn'
        · obtain ⟨reached, hreached, hnone⟩ := Option.map_eq_some_iff.mp hb
          rw [← mem_downstream hreached]
          simpa using List.filter_eq_nil_iff.mp hnone m hm
        · exact ih h n' hn' m hm

theorem checkGroups_of_validate (h : d.validate = .ok ()) : d.checkGroups d.fanIn = .ok () := by
  unfold validate at h
  split at h <;> try contradiction
  unfold dependencyGroups at h
  cases hc : d.checkGroups d.fanIn with
  | error => simp [hc, Except.map] at h
  | ok => rfl

theorem valid_of_validate (h : d.validate = .ok ()) : d.Valid := by
  have hgroups := unblocked_of_checkGroups (checkGroups_of_validate h)
  unfold validate at h
  split at h <;> try contradiction
  rename_i hforeign hcycle
  exact ⟨closed_of_foreign hforeign, fun n hn => Search.acc_of_sweep hcycle hn, hgroups⟩

theorem downstream_total {n : α} (hn : n ∈ d.nodes) : ∃ out, d.downstream n = some out := by
  have hlt : Search.fresh d.nodes [n] < Search.fresh d.nodes [] :=
    Search.fresh_cons_lt hn List.not_mem_nil
  have hle : Search.fresh d.nodes [] ≤ d.nodes.length := List.length_filter_le _ _
  have hfuel : [n].length + Search.fresh d.nodes [n] ≤ d.nodes.length := by
    simp only [List.length_singleton]
    omega
  have hclosed : ∀ a, d.dependents a ⊆ d.nodes := fun a => List.filter_sublist.subset
  exact Search.reach_total hclosed d.nodes.length ([n], [n]) hfuel

theorem checkGroups_ok {ns : List α} (hns : ns ⊆ d.nodes)
    (h : ∀ n ∈ ns, ∀ m ∈ d.waitGroup n, ¬ ReflTransGen d.After n m) :
    d.checkGroups ns = .ok () := by
  induction ns with
  | nil => rfl
  | cons n ns ih =>
    obtain ⟨hn, hns⟩ := List.cons_subset.mp hns
    obtain ⟨out, hout⟩ := downstream_total hn
    have hnone : d.blocked n = some [] := by
      rw [blocked, hout, Option.map_some, Option.some.injEq, List.filter_eq_nil_iff]
      intro m hm
      simpa [mem_downstream hout] using h n List.mem_cons_self m hm
    simpa [checkGroups, hnone] using ih hns fun m hm => h m (List.mem_cons_of_mem _ hm)

theorem Valid.dependencyGroups (hd : d.Valid) :
    d.dependencyGroups = .ok (d.fanIn.map fun n => (n, d.waitGroup n)) := by
  have hcheck := checkGroups_ok (d := d) (show d.fanIn ⊆ d.nodes from List.filter_sublist.subset)
    hd.unblocked
  rw [Dag.dependencyGroups, hcheck]
  rfl

theorem validate_ne_fuel : d.validate ≠ .error .fuel := by
  unfold validate
  split <;> try simp
  · rename_i hforeign hcycle
    obtain ⟨b, hb⟩ := Search.sweep_total (closed_of_foreign hforeign) (Nat.le_refl _) d.nodes
      (List.Subset.refl _) .empty
    simp [hasCycle, hb] at hcycle
  · suffices hcheck : ∀ ns ⊆ d.nodes, d.checkGroups ns ≠ .error .fuel by
      have := hcheck d.fanIn List.filter_sublist.subset
      cases hc : d.checkGroups d.fanIn with
      | error e => simpa [dependencyGroups, hc, Except.map] using this
      | ok => simp [dependencyGroups, hc, Except.map]
    intro ns hns
    induction ns with
    | nil => simp [checkGroups]
    | cons n ns ih =>
      obtain ⟨hn, hns⟩ := List.cons_subset.mp hns
      obtain ⟨out, hout⟩ := downstream_total hn
      cases hb : d.blocked n with
      | none => simp [blocked, hout] at hb
      | some others =>
        cases others with
        | nil => simpa [checkGroups, hb] using ih hns
        | cons => simp [checkGroups, hb]

/-- The degrees count the dependencies not placed yet. -/
structure Kahn.Counted (d : Dag α) (k : Kahn α) : Prop where
  nodup : k.remaining.Nodup
  degree : ∀ n ∈ k.remaining,
    k.inDegree n = ((d.dependsOn n).filter fun dep => dep ∈ k.remaining).length

theorem Kahn.Counted.remove {k : Kahn α} (h : k.Counted d) {n : α} (hn : n ∈ k.remaining) :
    (k.remove d n).Counted d where
  nodup := h.nodup.erase n
  degree other hother := by
    have hmem : other ∈ k.remaining := List.mem_of_mem_erase hother
    have hsplit : (d.dependsOn other).filter (fun dep => dep ∈ (k.remove d n).remaining) =
        ((d.dependsOn other).filter fun dep => dep ∈ k.remaining).erase n := by
      rw [((d.deps_nodup other).filter _).erase_eq_filter, List.filter_filter]
      apply List.filter_congr
      intro dep _
      by_cases hdn : dep = n <;> simp [Kahn.remove, h.nodup.mem_erase_iff, hdn]
    have hcount := h.degree other hmem
    rw [hsplit, List.length_erase]
    by_cases hdep : n ∈ d.dependsOn other
    · have hin : n ∈ (d.dependsOn other).filter fun dep => dep ∈ k.remaining := by simp [hdep, hn]
      have hpos := List.length_pos_of_mem hin
      have hother' : other ∈ k.remaining.erase n := hother
      simp only [Kahn.remove, hother', hdep, and_self, if_true, hin, hcount]
      omega
    · simp [Kahn.remove, hdep, hcount]

theorem Kahn.remove_all (ns : List α) {k : Kahn α} (h : k.Counted d) (hns : ns ⊆ k.remaining)
    (hnd : ns.Nodup) : (ns.foldl (Kahn.remove d) k).Counted d ∧
      (ns ++ (ns.foldl (Kahn.remove d) k).remaining).Perm k.remaining := by
  induction ns generalizing k with
  | nil => exact ⟨h, .refl _⟩
  | cons n ns ih =>
    obtain ⟨hn, hns⟩ := List.cons_subset.mp hns
    obtain ⟨hnot, hnd⟩ := List.nodup_cons.mp hnd
    have hsub : ns ⊆ (k.remove d n).remaining := by
      intro m hm
      exact (h.nodup.mem_erase_iff).mpr ⟨fun e => hnot (e ▸ hm), hns hm⟩
    obtain ⟨hcounted, hperm⟩ := ih (h.remove hn) hsub hnd
    exact ⟨hcounted, (hperm.cons n).trans (List.perm_cons_erase hn).symm⟩

/-- Each node comes after all its dependencies. -/
def Layered (d : Dag α) : List α → List α → Prop
  | _, [] => True
  | placed, n :: ns => d.dependsOn n ⊆ placed ∧ Layered d (placed ++ [n]) ns

omit [DecidableEq α] in
theorem Layered.append {placed ns ms : List α} (hns : ∀ n ∈ ns, d.dependsOn n ⊆ placed)
    (hms : d.Layered (placed ++ ns) ms) : d.Layered placed (ns ++ ms) := by
  induction ns generalizing placed with
  | nil => simpa using hms
  | cons n ns ih =>
    refine ⟨hns n List.mem_cons_self, ih (fun m hm => ?_) (by simpa using hms)⟩
    exact List.Subset.trans (hns m (List.mem_cons_of_mem _ hm)) (List.subset_append_left _ _)

theorem exists_ready {rs : List α} {n : α} (hn : n ∈ rs)
    (hacc : Acc (fun b a => b ∈ d.dependsOn a) n) : ∃ m ∈ rs, ∀ dep ∈ d.dependsOn m, dep ∉ rs := by
  induction hacc with
  | intro n _ ih =>
    by_cases h : ∃ dep ∈ d.dependsOn n, dep ∈ rs
    · obtain ⟨dep, hdep, hmem⟩ := h
      exact ih dep hdep hmem
    · exact ⟨n, hn, fun dep hdep hmem => h ⟨dep, hdep, hmem⟩⟩

theorem levels_ok (hd : d.Valid) (order : SetOrder α) (fuel : Nat) {k : Kahn α} {placed : List α}
    (h : k.Counted d) (hfuel : k.remaining.length ≤ fuel)
    (hall : (placed ++ k.remaining).Perm d.nodes) :
    ∃ ls, d.levels order fuel k = .ok ls ∧ d.Layered placed ls.flatten ∧
      ls.flatten.Perm k.remaining := by
  induction fuel generalizing k placed with
  | zero =>
    obtain ⟨_ | ⟨r, rs⟩, inDegree⟩ := k
    · exact ⟨[], rfl, trivial, .refl _⟩
    · simp at hfuel
  | succ fuel ih =>
    obtain ⟨_ | ⟨r, rs⟩, inDegree⟩ := k
    · exact ⟨[], rfl, trivial, .refl _⟩
    have hnodes : r :: rs ⊆ d.nodes := fun m hm => hall.subset (List.mem_append_right _ hm)
    have hzero : ∀ m ∈ r :: rs, inDegree m = 0 ↔ ∀ dep ∈ d.dependsOn m, dep ∉ r :: rs := by
      intro m hm
      have hcount : inDegree m = _ := h.degree m hm
      rw [hcount]
      simp
    have hlevel : ∀ m, m ∈ ((order.arrange (r :: rs)).filter fun n => inDegree n = 0) ↔
        m ∈ r :: rs ∧ ∀ dep ∈ d.dependsOn m, dep ∉ r :: rs := by
      intro m
      rw [List.mem_filter, (order.perm _).mem_iff, decide_eq_true_eq]
      exact and_congr_right (hzero m)
    cases heq : (order.arrange (r :: rs)).filter fun n => inDegree n = 0 with
    | nil =>
      obtain ⟨m, hm, hready⟩ :=
        exists_ready List.mem_cons_self (hd.acc r (hnodes List.mem_cons_self))
      have := (hlevel m).mpr ⟨hm, hready⟩
      simp [heq] at this
    | cons n ns =>
      have hsub : n :: ns ⊆ r :: rs := fun m hm => ((hlevel m).mp (heq ▸ hm)).1
      have hnd : (n :: ns).Nodup := heq ▸ (((order.perm _).nodup_iff.mpr h.nodup).filter _)
      obtain ⟨hcounted, hperm⟩ := Kahn.remove_all (n :: ns) h hsub hnd
      have hlen := hperm.length_eq
      simp only [List.length_append, List.length_cons] at hlen hfuel
      have hall' : (placed ++ n :: ns ++
          ((n :: ns).foldl (Kahn.remove d) ⟨r :: rs, inDegree⟩).remaining).Perm d.nodes := by
        simpa only [List.append_assoc] using (hperm.append_left placed).trans hall
      obtain ⟨ls, hls, hlayered, hperm'⟩ := ih hcounted (by omega) hall'
      refine ⟨(n :: ns) :: ls, ?_, ?_, (hperm'.append_left _).trans hperm⟩
      · rw [levels, heq]
        simp only [hls, Except.map]
      · refine Layered.append (fun m hm dep hdep => ?_) hlayered
        have hready := ((hlevel m).mp (heq ▸ hm)).2 dep hdep
        have hin := hall.symm.subset (hd.closed m (hnodes (hsub hm)) hdep)
        exact (List.mem_append.mp hin).resolve_right hready

/-- The levels of an accepted graph hold every node once, each after all its
dependencies. -/
theorem topologicalSort_ok (hd : d.Valid) (order : SetOrder α) :
    ∃ ls, d.topologicalSort order = .ok ls ∧ d.Layered [] ls.flatten ∧
      ls.flatten.Perm d.nodes := by
  refine levels_ok hd order _ ⟨d.nodes_nodup, fun n hn => ?_⟩ (Nat.le_refl _) (.refl _)
  have hall : (d.dependsOn n).filter (fun dep => dep ∈ d.nodes) = d.dependsOn n :=
    List.filter_eq_self.mpr fun dep hdep => by simpa using hd.closed n hn hdep
  rw [hall]

end Dag

end Pyjobby
