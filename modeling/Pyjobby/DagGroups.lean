import Mathlib.Order.CompletePartialOrder
import Pyjobby.DagStamp
import Pyjobby.DagWaits

/-! The wait groups of a job graph: the components that overlapping dependency lists
form, and what `execute` makes of them, the ids they have when a job needs them and
the `run_group` they leave on the rows. -/

namespace Pyjobby

open Relation Relational Disjoint

variable {α : Type} [DecidableEq α]

namespace Dag

variable {d : Dag α}

/-- Two fan-in nodes share a dependency. -/
def Overlap (d : Dag α) (n n' : α) : Prop :=
  n ∈ d.fanIn ∧ n' ∈ d.fanIn ∧ ∃ dep ∈ d.dependsOn n, dep ∈ d.dependsOn n'

/-- A family of groups that cover the dependencies and do not overlap. -/
structure Covers (d : Dag α) (family : α → Set α) : Prop where
  covers : ∀ n ∈ d.fanIn, ∀ dep ∈ d.dependsOn n, dep ∈ family n
  apart : ∀ n ∈ d.fanIn, ∀ n' ∈ d.fanIn, family n = family n' ∨ Disjoint (family n) (family n')

/-- The same nodes and dependencies, added in another order. -/
structure Reorders (d' d : Dag α) : Prop where
  nodes : d'.nodes.Perm d.nodes
  dependsOn : ∀ n, (d'.dependsOn n).Perm (d.dependsOn n)

omit [DecidableEq α] in
theorem overlap_symm : Std.Symm d.Overlap where
  symm := fun _ _ ⟨hn, hn', dep, hdep, hdep'⟩ => ⟨hn', hn, dep, hdep', hdep⟩

omit [DecidableEq α] in
theorem overlap_path_of_merged {a b : α} (h : d.Merged a b) {n n' : α} (hn : n ∈ d.fanIn)
    (ha : a ∈ d.dependsOn n) (hn' : n' ∈ d.fanIn) (hb : b ∈ d.dependsOn n') :
    ReflTransGen d.Overlap n n' := by
  induction h generalizing n n' with
  | rel a b h =>
    obtain ⟨k, hk, hak, hbk⟩ := h
    exact .head ⟨hn, hk, a, ha, hak⟩ (.single ⟨hk, hn', b, hbk, hb⟩)
  | refl a => exact .single ⟨hn, hn', a, ha, hb⟩
  | symm a b _ ih =>
    have := d.overlap_symm
    exact ReflTransGen.stdSymm.symm _ _ (ih hn' hb hn ha)
  | trans a c b hac _ ih₁ ih₂ =>
    obtain ⟨k, hk, hck⟩ := (Grouped.of_merged hac).mp ⟨n, hn, ha⟩
    exact (ih₁ hn ha hk hck).trans (ih₂ hk hck hn' hb)

omit [DecidableEq α] in
theorem merged_of_overlap_path {n n' a b : α} (h : ReflTransGen d.Overlap n n')
    (hn : n ∈ d.fanIn) (ha : a ∈ d.dependsOn n) (hb : b ∈ d.dependsOn n') : d.Merged a b := by
  induction h generalizing b with
  | refl => exact merged_of_mem hn ha hb
  | tail _ hstep ih =>
    obtain ⟨-, hk, dep, hdep, hdep'⟩ := hstep
    exact .trans _ _ _ (ih hdep) (merged_of_mem hk hdep' hb)

theorem mem_waitGroup_iff_overlap (hclosed : ∀ n ∈ d.nodes, d.dependsOn n ⊆ d.nodes) {n m : α}
    (hn : n ∈ d.fanIn) :
    m ∈ d.waitGroup n ↔ ∃ n' ∈ d.fanIn, ReflTransGen d.Overlap n n' ∧ m ∈ d.dependsOn n' := by
  rw [mem_waitGroup]
  constructor
  · rintro ⟨-, ⟨n', hn', hm⟩, dep, rest, hdeps, hmerged⟩
    exact ⟨n', hn', overlap_path_of_merged hmerged hn (by simp [hdeps]) hn' hm, hm⟩
  · rintro ⟨n', hn', hpath, hm⟩
    refine ⟨hclosed n' (mem_fanIn.mp hn').1 hm, ⟨n', hn', hm⟩, ?_⟩
    cases hdeps : d.dependsOn n with
    | nil => simpa [hdeps] using (mem_fanIn.mp hn).2
    | cons dep rest =>
      exact ⟨dep, rest, rfl, merged_of_overlap_path hpath hn (by simp [hdeps]) hm⟩

theorem waitGroup_eq_or_disjoint (n n' : α) :
    d.waitGroup n = d.waitGroup n' ∨ List.Disjoint (d.waitGroup n) (d.waitGroup n') := by
  by_cases h : ∃ m ∈ d.waitGroup n, m ∈ d.waitGroup n'
  · obtain ⟨m, hm, hm'⟩ := h
    exact .inl ((waitGroup_eq_members hm).trans (waitGroup_eq_members hm').symm)
  · exact .inr fun m hm hm' => h ⟨m, hm, hm'⟩

omit [DecidableEq α] in
theorem Covers.eq_of_path {family : α → Set α} (h : d.Covers family) {n n' : α}
    (hpath : ReflTransGen d.Overlap n n') : family n = family n' := by
  induction hpath with
  | refl => rfl
  | tail _ hstep ih =>
    obtain ⟨hk, hn', dep, hdep, hdep'⟩ := hstep
    refine ih.trans ((h.apart _ hk _ hn').resolve_right fun hdisjoint => ?_)
    exact Set.disjoint_left.mp hdisjoint (h.covers _ hk dep hdep) (h.covers _ hn' dep hdep')

theorem waitGroup_covers (hd : d.Valid) : d.Covers fun n => {m | m ∈ d.waitGroup n} where
  covers n hn dep hdep := mem_waitGroup_of_mem hd hn hdep
  apart n _ n' _ := by
    rcases d.waitGroup_eq_or_disjoint n n' with heq | hdisjoint
    · exact .inl (by simp only [heq])
    · exact .inr (Set.disjoint_left.mpr fun m hm hm' => hdisjoint hm hm')

/-- No family that covers the dependencies without overlap has smaller groups. -/
theorem Covers.waitGroup_subset (hd : d.Valid) {family : α → Set α} (h : d.Covers family) {n m : α}
    (hn : n ∈ d.fanIn) (hm : m ∈ d.waitGroup n) : m ∈ family n := by
  obtain ⟨n', hn', hpath, hdep⟩ := (mem_waitGroup_iff_overlap hd.closed hn).mp hm
  exact h.eq_of_path hpath ▸ h.covers n' hn' m hdep

theorem waitGroup_nodup (n : α) : (d.waitGroup n).Nodup := by
  unfold waitGroup
  split
  · exact List.nodup_nil
  · exact d.nodes_nodup.filter _

namespace Reorders

variable {d' : Dag α}

omit [DecidableEq α] in
theorem mem_dependsOn (h : d'.Reorders d) {n m : α} : m ∈ d'.dependsOn n ↔ m ∈ d.dependsOn n :=
  (h.dependsOn n).mem_iff

omit [DecidableEq α] in
theorem mem_fanIn (h : d'.Reorders d) {n : α} : n ∈ d'.fanIn ↔ n ∈ d.fanIn := by
  rw [Dag.mem_fanIn, Dag.mem_fanIn, h.nodes.mem_iff, (h.dependsOn n).length_eq]

omit [DecidableEq α] in
theorem overlap (h : d'.Reorders d) : d'.Overlap = d.Overlap := by
  funext n n'
  simp [Overlap, h.mem_fanIn, h.mem_dependsOn]

theorem after (h : d'.Reorders d) : d'.After = d.After := by
  funext n n'
  simp [After, mem_dependents, h.nodes.mem_iff, h.mem_dependsOn]

theorem closed (h : d'.Reorders d) (hd : d.Valid) : ∀ n ∈ d'.nodes, d'.dependsOn n ⊆ d'.nodes :=
  fun n hn _ hdep => h.nodes.symm.subset
    (hd.closed n (h.nodes.subset hn) (h.mem_dependsOn.mp hdep))

theorem waitGroup_perm (h : d'.Reorders d) (hd : d.Valid) {n : α} (hn : n ∈ d.fanIn) :
    (d'.waitGroup n).Perm (d.waitGroup n) := by
  refine (List.perm_ext_iff_of_nodup (waitGroup_nodup n) (waitGroup_nodup n)).mpr fun m => ?_
  rw [mem_waitGroup_iff_overlap (h.closed hd) (h.mem_fanIn.mpr hn),
    mem_waitGroup_iff_overlap hd.closed hn]
  simp [h.overlap, h.mem_fanIn, h.mem_dependsOn]

theorem valid (h : d'.Reorders d) (hd : d.Valid) : d'.Valid where
  closed := h.closed hd
  acc n hn := by
    simpa only [h.mem_dependsOn] using hd.acc n (h.nodes.subset hn)
  unblocked n hn m hm := by
    have hn' := h.mem_fanIn.mp hn
    rw [h.after]
    exact hd.unblocked n hn' m ((h.waitGroup_perm hd hn').subset hm)

end Reorders

/-- What the job of `n` has to wait on has its id: the job of a single dependency, the
group of several, whose id is that of the job of one of its members. -/
structure Assigned (d : Dag α) (key : α → Option α) (w : Wiring α) (n : α) : Prop where
  job : ∀ dep, d.dependsOn n = [dep] → ∃ id, dict w.nodeToJob dep = some id
  group : n ∈ d.fanIn → ∃ gid, (∃ m ∈ d.waitGroup n, (m, gid) ∈ w.nodeToJob) ∧
    ∀ dep ∈ d.dependsOn n, (key dep).bind (dict w.groupId) = some gid

theorem Recorded.assigned (hd : d.Valid) {placed : List α} {w : Wiring α} (h : d.Recorded placed w)
    {n : α} (hdeps : d.dependsOn n ⊆ placed) : d.Assigned d.key w n where
  job dep hdep := by
    have hmem : dep ∈ w.nodeToJob.map Prod.fst := h.nodes ▸ hdeps (by simp [hdep])
    obtain ⟨⟨dep, id⟩, hid, rfl⟩ := List.mem_map.mp hmem
    exact exists_dict hid
  group hn := by
    cases hlist : d.dependsOn n with
    | nil => simpa [hlist] using (mem_fanIn.mp hn).2
    | cons dep rest =>
      have hdep : dep ∈ d.dependsOn n := by simp [hlist]
      obtain ⟨k, hk⟩ := exists_key hd ⟨n, hn, hdep⟩
      have hmem : dep ∈ w.nodeToJob.map Prod.fst := h.nodes ▸ hdeps hdep
      obtain ⟨⟨dep, id⟩, hid, rfl⟩ := List.mem_map.mp hmem
      obtain ⟨g, hg⟩ := h.covered k id ((h.member k id).mpr ⟨dep, hid, hk⟩)
      obtain ⟨gid, hgid⟩ := exists_dict hg
      obtain ⟨m, hm, hkm⟩ := h.group k gid (mem_of_dict hgid)
      refine ⟨gid, ⟨m, (mem_waitGroup_iff hd hn hlist hk).mpr hkm, hm⟩, fun dep' hdep' => ?_⟩
      have hsame := (key_eq_key hd hk).mpr (merged_of_mem hn hdep (hlist ▸ hdep'))
      rw [hsame, Option.bind_some, hgid]

omit [DecidableEq α] in
theorem Layered.split {placed pre post : List α} {n : α} (h : d.Layered placed (pre ++ n :: post)) :
    d.Layered placed pre ∧ d.dependsOn n ⊆ placed ++ pre := by
  induction pre generalizing placed with
  | nil => exact ⟨trivial, by simpa using h.1⟩
  | cons m pre ih =>
    obtain ⟨hpre, hdeps⟩ := ih h.2
    exact ⟨⟨h.1, hpre⟩, by simpa using hdeps⟩

theorem recorded_nil (db : Db) : d.Recorded [] ⟨db, [], [], []⟩ := by
  constructor <;> simp

/-- Whenever `execute` comes to create a job, what it waits on has been assigned. -/
theorem assigned_of_placeAll (hd : d.Valid) {order : SetOrder α} {ls : List (List α)}
    (hls : d.topologicalSort order = .ok ls) {pre post : List α} {n : α}
    (hsplit : ls.flatten = pre ++ n :: post) {now : Int} {db : Db} {w : Wiring α}
    (hw : d.placeAll d.key now ⟨db, [], [], []⟩ pre = .ok w) : d.Assigned d.key w n := by
  obtain ⟨ls', hls', hlayered, hperm⟩ := topologicalSort_ok hd order
  obtain rfl : ls = ls' := Except.ok.inj (hls.symm.trans hls')
  rw [hsplit] at hlayered hperm
  obtain ⟨hpre, hdeps⟩ := hlayered.split
  have hnd := hperm.nodup_iff.mpr d.nodes_nodup
  have hsub : pre ⊆ d.nodes := fun m hm => hperm.subset (List.mem_append_left _ hm)
  rcases placeAll_recorded hd now pre (recorded_nil db) hsub (List.nodup_append.mp hnd).1 hpre with
    ⟨c, hc⟩ | ⟨w', hw', hrec⟩
  · simp [hc] at hw
  · obtain rfl : w = w' := Except.ok.inj (hw.symm.trans hw')
    exact hrec.assigned hd hdeps

/-- The rows of the table are those from before and those of the jobs created. -/
structure Since (db : Db) (w : Wiring α) : Prop where
  source : ∀ r ∈ w.db.jorb, r ∈ db.jorb ∨ ∃ n, (n, r.id) ∈ w.nodeToJob
  kept : ∀ r ∈ db.jorb, r ∈ w.db.jorb
  fresh : ∀ n i, (n, i) ∈ w.nodeToJob → db.jorb.next ≤ i
  next_le : db.jorb.next ≤ w.db.jorb.next

theorem Since.place {key : α → Option α} {now : Int} {db : Db} {w w' : Wiring α} {n : α}
    (hw : Since db w) (h : d.place key now w n = .ok w') : Since db w' := by
  obtain ⟨job, db', hjorb, rfl⟩ := place_eq_ok h
  have hnext : db'.jorb.next = w.db.jorb.next + 1 := congrArg Serial.next hjorb
  have hle := hw.next_le
  constructor
  · intro r hr
    rw [Wiring.record_db, hjorb] at hr
    rw [Wiring.record_nodeToJob]
    rcases (Serial.mem_insert (h := fun _ => rfl)).mp hr with hr | rfl
    · refine (hw.source r hr).imp_right ?_
      rintro ⟨m, hm⟩
      exact ⟨m, List.mem_append_left _ hm⟩
    · exact .inr ⟨n, List.mem_append_right _ (List.mem_singleton.mpr rfl)⟩
  · intro r hr
    rw [Wiring.record_db, hjorb]
    exact Serial.mem_insert_of_mem (h := fun _ => rfl) (hw.kept r hr)
  · intro m i hi
    rw [Wiring.record_nodeToJob] at hi
    rcases List.mem_append.mp hi with hi | hi
    · exact hw.fresh m i hi
    · obtain ⟨-, rfl⟩ := Prod.mk.inj (List.mem_singleton.mp hi)
      exact hle
  · rw [Wiring.record_db]
    omega

theorem Since.placeAll {key : α → Option α} {now : Int} {db : Db} (ns : List α) {w : Wiring α}
    (h : d.placeAll key now ⟨db, [], [], []⟩ ns = .ok w) : Since db w := by
  refine placeAll_keeps (fun _ _ _ hw h => hw.place h) ns ?_ h
  exact ⟨fun r hr => .inl hr, fun r hr => hr, by simp, Nat.le_refl _⟩

omit [DecidableEq α] in
theorem stamp_source (ids : α → List Nat) (entries : List (α × Nat)) {db : Db} {r : Jorb}
    (hr : r ∈ (entries.foldl (fun db e => db.setRunGroup e.2 (ids e.1)) db).jorb) :
    ∃ s ∈ db.jorb, s.id = r.id := by
  induction entries generalizing db with
  | nil => exact ⟨r, hr, rfl⟩
  | cons e es ih =>
    obtain ⟨s, hs, hid⟩ := ih hr
    obtain ⟨t, ht, rfl⟩ := Serial.mem_update.mp hs
    exact ⟨t, ht, by rw [← hid]; split <;> rfl⟩

/-- A row that is not of one of the jobs is as it was before them. -/
theorem Recorded.old {placed : List α} {w : Wiring α} (h : d.Recorded placed w) {db : Db}
    (hsince : Since db w) {r : Jorb} (hr : r ∈ w.stamp.jorb) (hno : ∀ n, (n, r.id) ∉ w.nodeToJob) :
    r ∈ db.jorb := by
  obtain ⟨s, hs, hid⟩ := stamp_source w.memberIds w.groupId hr
  have hsno : ∀ n, (n, s.id) ∉ w.nodeToJob := hid ▸ hno
  have hout : ∀ e ∈ w.groupId, s.id ∉ w.memberIds e.1 := by
    intro e _ he
    obtain ⟨n, hn, -⟩ := (h.member e.1 s.id).mp (mem_memberIds.mp he)
    exact hsno n hn
  obtain rfl := Serial.eq_of_ident (stamp_none w.memberIds w.groupId hs hout) hr hid
  exact (hsince.source s hs).resolve_right fun ⟨n, hn⟩ => hsno n hn

theorem Since.old {db : Db} {w : Wiring α} (h : Since db w) {placed : List α}
    (hrec : d.Recorded placed w) {r : Jorb} (hr : r ∈ db.jorb) : r ∈ w.stamp.jorb := by
  refine stamp_none w.memberIds w.groupId (h.kept r hr) fun e _ he => ?_
  obtain ⟨n, hn, -⟩ := (hrec.member e.1 r.id).mp (mem_memberIds.mp he)
  exact absurd (Serial.lt_next hr) (Nat.not_lt.mpr (h.fresh n r.id hn))

/-- The waiter of a group and the rows that carry its id, once `execute` has committed:
of the rows that are no member's, those whose own `run_group` is that number. -/
structure Stamped (d : Dag α) (db db' : Db) (jobs : List (α × Nat)) (n : α) (group : List α)
    (gid : Nat) : Prop where
  id : ∃ m ∈ group, (m, gid) ∈ jobs
  waiter : ∀ r ∈ db'.jorb, (n, r.id) ∈ jobs → r.waitforGroup = some (gid : Int)
  members : ∀ r ∈ db'.jorb, r.runGroup = some (gid : Int) ↔
    (∃ m ∈ group, (m, r.id) ∈ jobs) ∨
    (∃ m, ¬d.Grouped m ∧ (m, r.id) ∈ jobs ∧ (d.options m).runGroup = some (gid : Int)) ∨
      r ∈ db.jorb ∧ r.runGroup = some (gid : Int)

theorem Recorded.row_eq {placed : List α} {w : Wiring α} (h : d.Recorded placed w) {n : α}
    {r : Jorb} (hr : r ∈ w.stamp.jorb) (hn : (n, r.id) ∈ w.nodeToJob) :
    d.Wired w n r ∧ (d.key n = none → r.runGroup = (d.options n).runGroup) ∧
      ∀ k, d.key n = some k → ∀ g : Nat, r.runGroup = some (g : Int) ↔ (k, g) ∈ w.groupId := by
  obtain ⟨s, hs, hid, hspec⟩ := h.stamped hn
  obtain rfl := Serial.eq_of_ident hs hr hid
  exact hspec

theorem key_eq_none (hd : d.Valid) {m : α} : d.key m = none ↔ ¬d.Grouped m := by
  constructor
  · intro hkey hgroup
    obtain ⟨k, hk⟩ := exists_key hd hgroup
    simp [hkey] at hk
  · intro hgroup
    by_contra hkey
    obtain ⟨k, hk⟩ := Option.ne_none_iff_exists'.mp hkey
    exact hgroup ((key_eq_some hd).mp hk).1

theorem Recorded.group_stamped (hd : d.Valid) {placed : List α} {w : Wiring α}
    (h : d.Recorded placed w) {db : Db} (hsince : Since db w) {n : α} (hn : n ∈ d.fanIn)
    (hdeps : d.dependsOn n ⊆ placed) :
    ∃ gid, d.Stamped db w.stamp w.nodeToJob n (d.waitGroup n) gid := by
  obtain ⟨gid, ⟨m, hm, hgid⟩, hkeys⟩ := (h.assigned hd hdeps).group hn
  cases hlist : d.dependsOn n with
  | nil => simpa [hlist] using (mem_fanIn.mp hn).2
  | cons dep rest =>
  obtain ⟨k, hk, hdict⟩ := Option.bind_eq_some_iff.mp (hkeys dep (by simp [hlist]))
  have hentry := mem_of_dict hdict
  have hgroup (m : α) : m ∈ d.waitGroup n ↔ d.key m = some k := mem_waitGroup_iff hd hn hlist hk
  refine ⟨gid, ⟨m, hm, hgid⟩, fun r hr hjob => ?_, fun r hr => ?_⟩
  · obtain ⟨hwired, -⟩ := h.row_eq hr hjob
    cases hwired with
    | alone deps => simp [hlist] at deps
    | single deps => simpa [deps] using (mem_fanIn.mp hn).2
    | fan deps _ hkey mem job group =>
      obtain ⟨rfl, rfl⟩ := List.cons.inj (hlist.symm.trans deps)
      obtain rfl := Option.some.inj (hk.symm.trans hkey)
      rw [group, h.single k gid _ hentry mem]
  · constructor
    · intro hrun
      by_cases hjob : ∃ m, (m, r.id) ∈ w.nodeToJob
      · obtain ⟨m, hm⟩ := hjob
        obtain ⟨-, hnone, hsome⟩ := h.row_eq hr hm
        cases hkey : d.key m with
        | none =>
          exact .inr (.inl ⟨m, (key_eq_none hd).mp hkey, hm, (hnone hkey).symm.trans hrun⟩)
        | some k' =>
          -- two groups with one id would have it from one and the same job
          obtain ⟨a, ha, hka⟩ := h.group k gid hentry
          obtain ⟨b, hb, hkb⟩ := h.group k' gid ((hsome k' hkey gid).mp hrun)
          obtain rfl := h.inj a b gid ha hb
          obtain rfl := Option.some.inj (hka.symm.trans hkb)
          exact .inl ⟨m, (hgroup m).mpr hkey, hm⟩
      · exact .inr (.inr ⟨h.old hsince hr (not_exists.mp hjob), hrun⟩)
    · rintro (⟨m, hm, hjob⟩ | ⟨m, hm, hjob, hrun⟩ | ⟨-, hrun⟩)
      · exact ((h.row_eq hr hjob).2.2 k ((hgroup m).mp hm) gid).mpr hentry
      · exact ((h.row_eq hr hjob).2.1 ((key_eq_none hd).mpr hm)).trans hrun
      · exact hrun

end Dag

/-- The groups of an accepted graph are the components of its overlapping dependency
lists, whatever the order of its nodes. `execute` has the id of what a job waits on when
it creates the job, and leaves a group's id on the rows of its members and on those rows
outside every group whose own `run_group` is that number. -/
theorem dependency_groups_cover (d : Dag α) (hv : d.validate = .ok ()) :
    ∃ gs, d.dependencyGroups = .ok gs ∧ gs.map Prod.fst = d.fanIn ∧
      (∀ n g, (n, g) ∈ gs → d.dependsOn n ⊆ g ∧
        (∀ n' g', (n', g') ∈ gs → g = g' ∨ g.Disjoint g') ∧
        (∀ m, m ∈ g ↔ ∃ n' ∈ d.fanIn, ReflTransGen d.Overlap n n' ∧ m ∈ d.dependsOn n') ∧
        ∀ family, d.Covers family → ∀ m ∈ g, m ∈ family n) ∧
      (∀ d' : Dag α, d'.Reorders d → ∃ gs', d'.dependencyGroups = .ok gs' ∧
        ∀ n g g', (n, g) ∈ gs → (n, g') ∈ gs' → g'.Perm g) ∧
      (∀ order ls, d.topologicalSort order = .ok ls → ∀ pre n post, ls.flatten = pre ++ n :: post →
        ∀ now db w, d.placeAll (Dag.groupKey gs) now ⟨db, [], [], []⟩ pre = .ok w →
          d.Assigned (Dag.groupKey gs) w n) ∧
      ∀ order now db db' jobs, d.execute order now db = .ok (db', jobs) →
        ∀ n g, (n, g) ∈ gs → ∃ gid, d.Stamped db db' jobs n g gid := by
  have hd := Dag.valid_of_validate hv
  have hmem {n : α} {g : List α} (h : (n, g) ∈ d.fanIn.map fun n => (n, d.waitGroup n)) :
      n ∈ d.fanIn ∧ g = d.waitGroup n := by
    obtain ⟨n', hn', heq⟩ := List.mem_map.mp h
    obtain ⟨rfl, rfl⟩ := Prod.mk.inj heq
    exact ⟨hn', rfl⟩
  refine ⟨_, hd.dependencyGroups, by simp [Function.comp_def], fun n g hg => ?_, fun d' hre => ?_,
    fun order ls hls pre n post hsplit now db w hw => Dag.assigned_of_placeAll hd hls hsplit hw,
    fun order now db db' jobs hexec n g hg => ?_⟩
  · obtain ⟨hn, rfl⟩ := hmem hg
    refine ⟨fun dep hdep => Dag.mem_waitGroup_of_mem hd hn hdep, fun n' g' hg' => ?_,
      fun m => Dag.mem_waitGroup_iff_overlap hd.closed hn,
      fun family hfamily m hm => hfamily.waitGroup_subset hd hn hm⟩
    obtain ⟨-, rfl⟩ := hmem hg'
    exact Dag.waitGroup_eq_or_disjoint n n'
  · refine ⟨_, (hre.valid hd).dependencyGroups, fun n g g' hg hg' => ?_⟩
    obtain ⟨hn, rfl⟩ := hmem hg
    obtain ⟨n', hn', heq⟩ := List.mem_map.mp hg'
    obtain ⟨rfl, rfl⟩ := Prod.mk.inj heq
    exact hre.waitGroup_perm hd hn
  · obtain ⟨hn, rfl⟩ := hmem hg
    rcases Dag.execute_recorded hv order now db with ⟨c, hc⟩ | ⟨placed, w, hw, hrec, hperm, hplace⟩
    · simp [hc] at hexec
    · obtain ⟨rfl, rfl⟩ := Prod.mk.inj (Except.ok.inj (hw.symm.trans hexec))
      refine hrec.group_stamped hd (.placeAll placed hplace) hn fun dep hdep => ?_
      exact hperm.symm.subset (hd.closed n (Dag.mem_fanIn.mp hn).1 hdep)

theorem dependency_groups_cover_diamond :
    Dag.diamond.dependencyGroups = .ok [(3, [1, 2])] ∧
    ∃ (db : Db) (jobs : List (Nat × Nat)) (gid : Nat),
      Dag.diamond.execute .asListed 0 .empty = .ok (db, jobs) ∧
        Dag.diamond.Stamped .empty db jobs 3 [1, 2] gid := by
  have hgroups : Dag.diamond.dependencyGroups = .ok [(3, [1, 2])] := by rfl
  have hok : (Dag.diamond.execute .asListed 0 .empty).isOk = true := by rfl
  obtain ⟨gs, hgs, -, -, -, -, hstamped⟩ := dependency_groups_cover Dag.diamond (by rfl)
  obtain rfl : gs = [(3, [1, 2])] := Except.ok.inj (hgs.symm.trans hgroups)
  cases h : Dag.diamond.execute .asListed 0 .empty with
  | error => simp [h, Except.isOk, Except.toBool] at hok
  | ok out =>
    obtain ⟨gid, hgid⟩ := hstamped .asListed 0 .empty out.1 out.2 h 3 [1, 2] (by simp)
    exact ⟨hgroups, out.1, out.2, gid, rfl, hgid⟩

/-- 2 waits for 0 and 1; 3 is outside their group and enqueued with `run_group` 1. -/
def Dag.guess : Dag Nat where
  nodes := [0, 1, 2, 3]
  dependsOn n := if n = 2 then [0, 1] else []
  options n :=
    if n = 3 then { NewJob.plain "default" with runGroup := some 1 } else .plain "default"
  nodes_nodup := Dag.diamond.nodes_nodup
  deps_nodup n := by split <;> decide

/-- What `execute` leaves in a new database. -/
def Dag.executed (d : Dag Nat) : Option (Db × List (Nat × Nat)) :=
  (d.execute .asListed 0 .empty).toOption

/-- The group's id is 1, and the row of 3 carries it too. -/
theorem dependency_groups_guess : Dag.guess.validate = .ok () ∧
    ∃ (db : Db) (jobs : List (Nat × Nat)), Dag.guess.execute .asListed 0 .empty = .ok (db, jobs) ∧
      (∃ r ∈ db.jorb, (2, r.id) ∈ jobs ∧ r.waitforGroup = some 1) ∧
      ¬∀ r ∈ db.jorb, r.runGroup = some 1 ↔ ∃ m ∈ Dag.guess.waitGroup 2, (m, r.id) ∈ jobs := by
  have hjobs : Dag.guess.executed.map Prod.snd = some [(0, 1), (1, 2), (3, 3), (2, 4)] := by decide
  have hwaiter : (Dag.guess.executed.bind fun o => (o.1.jorb.find? 4).map Jorb.waitforGroup) =
      some (some 1) := by decide
  have hguess : (Dag.guess.executed.bind fun o => (o.1.jorb.find? 3).map Jorb.runGroup) =
      some (some 1) := by decide
  have hgroup : Dag.guess.waitGroup 2 = [0, 1] := by decide
  cases h : Dag.guess.execute .asListed 0 .empty with
  | error => simp [Dag.executed, h, Except.toOption] at hjobs
  | ok o =>
    simp only [Dag.executed, h, Except.toOption, Option.map_some, Option.bind_some,
      Option.some.injEq, Option.map_eq_some_iff] at hjobs hwaiter hguess
    obtain ⟨waiter, hfind, hwaits⟩ := hwaiter
    obtain ⟨r, hfind', hrun⟩ := hguess
    obtain ⟨hmem, hid⟩ := Serial.find?_eq_some.mp hfind
    obtain ⟨hmem', hid'⟩ := Serial.find?_eq_some.mp hfind'
    refine ⟨by rfl, o.1, o.2, rfl, ⟨waiter, hmem, by simp [hjobs, hid], hwaits⟩, fun hall => ?_⟩
    obtain ⟨m, hm, hjob⟩ := (hall r hmem').mp hrun
    rw [hgroup] at hm
    rw [hjobs, hid'] at hjob
    simp_all

end Pyjobby
