import Pyjobby.DagOrder
import Pyjobby.Lib.Precedence

/-! The wait relation that the rows of an executed graph carry. Merging wait groups
can make it cyclic although the declared graph is not; when it does is said in
terms of the declared graph. -/

namespace Pyjobby

open Relation Relational Disjoint Precedence

variable {α β : Type} [DecidableEq α]

theorem mem_of_dict {entries : List (α × β)} {k : α} {v : β} (h : dict entries k = some v) :
    (k, v) ∈ entries := by
  obtain ⟨⟨k', v'⟩, he, rfl⟩ := Option.map_eq_some_iff.mp h
  obtain rfl : k' = k := by simpa using List.find?_some he
  simpa using List.mem_of_find?_eq_some he

theorem dict_isSome {entries : List (α × β)} {k : α} :
    (dict entries k).isSome ↔ ∃ v, (k, v) ∈ entries := by
  simp [dict, List.find?_isSome]

theorem exists_dict {entries : List (α × β)} {k : α} {v : β} (h : (k, v) ∈ entries) :
    ∃ v, dict entries k = some v :=
  Option.isSome_iff_exists.mp (dict_isSome.mpr ⟨v, h⟩)

namespace Wiring

variable (w : Wiring α) (key : Option α) (n : α) (id : Nat) (db : Db)

@[simp]
theorem record_db : (w.record key n id db).db = db := by
  cases key <;> rfl

@[simp]
theorem record_nodeToJob : (w.record key n id db).nodeToJob = w.nodeToJob ++ [(n, id)] := by
  cases key <;> rfl

theorem mem_record_groupMembers {k : α} {i : Nat} :
    (k, i) ∈ (w.record key n id db).groupMembers ↔
      (k, i) ∈ w.groupMembers ∨ key = some k ∧ i = id := by
  cases key with
  | none => simp [record]
  | some k' =>
    simp only [record, List.mem_append, List.mem_singleton, Prod.mk.injEq, Option.some.injEq]
    grind

theorem mem_record_groupId {k : α} {g : Nat} :
    (k, g) ∈ (w.record key n id db).groupId ↔
      (k, g) ∈ w.groupId ∨ key = some k ∧ g = id ∧ ∀ g', (k, g') ∉ w.groupId := by
  cases key with
  | none => simp [record]
  | some k' =>
    by_cases hk : (dict w.groupId k').isSome
    · have hhas := dict_isSome.mp hk
      simp only [record, hk, if_true]
      grind
    · have hnone : ∀ g', (k', g') ∉ w.groupId := by simpa [dict_isSome] using hk
      simp only [record, hk, Bool.false_eq_true, if_false, List.mem_append, List.mem_singleton,
        Prod.mk.injEq]
      grind

end Wiring

namespace Dag

variable {d : Dag α}

/-- The key of a node's group, from the wait groups of the fan-in nodes. -/
def key (d : Dag α) : α → Option α := groupKey (d.fanIn.map fun n => (n, d.waitGroup n))

theorem mem_waitGroup_of_mem (hd : d.Valid) {n m : α} (hn : n ∈ d.fanIn)
    (hm : m ∈ d.dependsOn n) : m ∈ d.waitGroup n := by
  rw [mem_waitGroup]
  refine ⟨hd.closed n (mem_fanIn.mp hn).1 hm, ⟨n, hn, hm⟩, ?_⟩
  cases hdeps : d.dependsOn n with
  | nil => simp [hdeps] at hm
  | cons dep rest => exact ⟨dep, rest, rfl, merged_of_mem hn (by simp [hdeps]) hm⟩

theorem waitGroup_eq_members {n m : α} (hm : m ∈ d.waitGroup n) :
    d.waitGroup n = d.members (d.parents.root m) := by
  obtain ⟨-, -, dep, rest, hdeps, hmerged⟩ := mem_waitGroup.mp hm
  rw [← root_eq_iff.mpr hmerged]
  simp [waitGroup, hdeps]

omit [DecidableEq α] in
theorem mem_groupKeys {groups : List (α × List α)} {m k : α} :
    (m, k) ∈ (groups.flatMap fun g =>
      match g.2 with
      | [] => []
      | key :: _ => g.2.map fun member => (member, key)) ↔
    ∃ g ∈ groups, m ∈ g.2 ∧ g.2.head? = some k := by
  simp only [List.mem_flatMap]
  refine exists_congr fun g => and_congr_right fun _ => ?_
  cases g.2 with
  | nil => simp
  | cons key rest => simp [eq_comm, or_and_right]

theorem key_eq_some (hd : d.Valid) {m k : α} :
    d.key m = some k ↔ d.Grouped m ∧ (d.members (d.parents.root m)).head? = some k := by
  constructor
  · intro h
    obtain ⟨g, hg, hm, hk⟩ := mem_groupKeys.mp (mem_of_dict h)
    obtain ⟨n, hn, rfl⟩ := List.mem_map.mp hg
    exact ⟨(mem_waitGroup.mp hm).2.1, waitGroup_eq_members hm ▸ hk⟩
  · rintro ⟨⟨n, hn, hm⟩, hk⟩
    have hmem := mem_waitGroup_of_mem hd hn hm
    have hpair : (n, d.waitGroup n) ∈ d.fanIn.map fun n => (n, d.waitGroup n) :=
      List.mem_map.mpr ⟨n, hn, rfl⟩
    have hentry := mem_groupKeys.mpr ⟨_, hpair, hmem,
      (congrArg List.head? (waitGroup_eq_members hmem)).trans hk⟩
    obtain ⟨k', hk'⟩ := exists_dict hentry
    obtain ⟨g, hg, hm', hhead⟩ := mem_groupKeys.mp (mem_of_dict hk')
    obtain ⟨n', hn', rfl⟩ := List.mem_map.mp hg
    rw [waitGroup_eq_members hm', hk] at hhead
    rw [hhead]
    exact hk'

theorem exists_key (hd : d.Valid) {m : α} (hm : d.Grouped m) : ∃ k, d.key m = some k := by
  obtain ⟨n, hn, hdep⟩ := hm
  have hmem : m ∈ d.members (d.parents.root m) :=
    mem_members.mpr ⟨hd.closed n (mem_fanIn.mp hn).1 hdep, ⟨n, hn, hdep⟩, rfl⟩
  cases hg : d.members (d.parents.root m) with
  | nil => simp [hg] at hmem
  | cons k rest => exact ⟨k, (key_eq_some hd).mpr ⟨⟨n, hn, hdep⟩, by simp [hg]⟩⟩

theorem key_eq_key (hd : d.Valid) {a b k : α} (ha : d.key a = some k) :
    d.key b = some k ↔ d.Merged a b := by
  obtain ⟨hga, hka⟩ := (key_eq_some hd).mp ha
  have hroot {c : α} (h : (d.members (d.parents.root c)).head? = some k) :
      d.parents.root k = d.parents.root c :=
    (mem_members.mp (List.mem_of_mem_head? h)).2.2
  constructor
  · intro hb
    obtain ⟨-, hkb⟩ := (key_eq_some hd).mp hb
    exact root_eq_iff.mp ((hroot hka).symm.trans (hroot hkb))
  · intro hab
    exact (key_eq_some hd).mpr ⟨(Grouped.of_merged hab).mp hga, root_eq_iff.mpr hab ▸ hka⟩

theorem mem_waitGroup_iff (hd : d.Valid) {n dep k m : α} {rest : List α} (hn : n ∈ d.fanIn)
    (hdeps : d.dependsOn n = dep :: rest) (hk : d.key dep = some k) :
    m ∈ d.waitGroup n ↔ d.key m = some k := by
  rw [key_eq_key hd hk, mem_waitGroup]
  constructor
  · rintro ⟨-, -, dep', rest', hdeps', hmerged⟩
    obtain ⟨rfl, rfl⟩ := List.cons.inj (hdeps.symm.trans hdeps')
    exact hmerged
  · intro hmerged
    have hgroup : d.Grouped m := (Grouped.of_merged hmerged).mp ⟨n, hn, by simp [hdeps]⟩
    obtain ⟨n', hn', hm⟩ := hgroup
    exact ⟨hd.closed n' (mem_fanIn.mp hn').1 hm, ⟨n', hn', hm⟩, dep, rest, hdeps, hmerged⟩

/-- The dependency columns of a created row; the other ones are those of its options. -/
inductive Wired (d : Dag α) (w : Wiring α) (n : α) (r : Jorb) : Prop
  | alone (deps : d.dependsOn n = []) (job : r.waitforJob = (d.options n).waitforJob)
      (group : r.waitforGroup = (d.options n).waitforGroup)
  | single {dep : α} {id : Nat} (deps : d.dependsOn n = [dep]) (mem : (dep, id) ∈ w.nodeToJob)
      (job : r.waitforJob = some (id : Int)) (group : r.waitforGroup = (d.options n).waitforGroup)
  | fan {dep k : α} {rest : List α} {gid : Nat} (deps : d.dependsOn n = dep :: rest)
      (many : n ∈ d.fanIn) (key : d.key dep = some k) (mem : (k, gid) ∈ w.groupId)
      (job : r.waitforJob = (d.options n).waitforJob) (group : r.waitforGroup = some (gid : Int))

/-- What `execute` has on record after creating the jobs of `placed`. -/
structure Recorded (d : Dag α) (placed : List α) (w : Wiring α) : Prop where
  nodes : w.nodeToJob.map Prod.fst = placed
  inj : ∀ n m i, (n, i) ∈ w.nodeToJob → (m, i) ∈ w.nodeToJob → n = m
  row : ∀ n i, (n, i) ∈ w.nodeToJob →
    ∃ r ∈ w.db.jorb, r.id = i ∧ r.runGroup = (d.options n).runGroup ∧ d.Wired w n r
  group : ∀ k g, (k, g) ∈ w.groupId → ∃ n, (n, g) ∈ w.nodeToJob ∧ d.key n = some k
  single : ∀ k g g', (k, g) ∈ w.groupId → (k, g') ∈ w.groupId → g = g'
  member : ∀ k i, (k, i) ∈ w.groupMembers ↔ ∃ n, (n, i) ∈ w.nodeToJob ∧ d.key n = some k
  covered : ∀ k i, (k, i) ∈ w.groupMembers → ∃ g, (k, g) ∈ w.groupId

theorem Wired.mono {w w' : Wiring α} {n : α} {r : Jorb} (h : d.Wired w n r)
    (hjobs : w.nodeToJob ⊆ w'.nodeToJob) (hgroups : w.groupId ⊆ w'.groupId) : d.Wired w' n r := by
  cases h with
  | alone deps job group => exact .alone deps job group
  | single deps mem job group => exact .single deps (hjobs mem) job group
  | fan deps many key mem job group => exact .fan deps many key (hgroups mem) job group

theorem wired_of_recorded (hd : d.Valid) {placed : List α} {w : Wiring α}
    (h : d.Recorded placed w) {n : α} (hn : n ∈ d.nodes) (hdeps : d.dependsOn n ⊆ placed) :
    ∃ job, d.wired d.key w n = some job ∧ job.runGroup = (d.options n).runGroup ∧
      ∀ now id, d.Wired w n (job.row now id) := by
  have hplaced {dep : α} (hdep : dep ∈ d.dependsOn n) : ∃ i, (dep, i) ∈ w.nodeToJob := by
    have := hdeps hdep
    simpa [← h.nodes] using this
  cases heq : d.dependsOn n with
  | nil =>
    exact ⟨d.options n, by simp [wired, heq], rfl, fun now id => .alone heq rfl rfl⟩
  | cons dep rest =>
    have hmem : dep ∈ d.dependsOn n := by simp [heq]
    obtain ⟨i, hi⟩ := hplaced hmem
    cases rest with
    | nil =>
      obtain ⟨i', hi'⟩ := exists_dict hi
      refine ⟨{ d.options n with waitforJob := some (i' : Int) },
        by simp only [wired, heq, hi', Option.map_some], rfl, fun now id => ?_⟩
      exact .single heq (mem_of_dict hi') rfl rfl
    | cons dep' rest =>
      have hfan : n ∈ d.fanIn := mem_fanIn.mpr ⟨hn, by simp [heq]⟩
      obtain ⟨k, hk⟩ := exists_key hd ⟨n, hfan, show dep ∈ d.dependsOn n by simp [heq]⟩
      obtain ⟨g, hg⟩ := h.covered k i ((h.member k i).mpr ⟨dep, hi, hk⟩)
      obtain ⟨g', hg'⟩ := exists_dict hg
      refine ⟨{ d.options n with waitforGroup := some (g' : Int) },
        by simp only [wired, heq, hk, Option.bind_some, hg', Option.map_some], rfl,
        fun now id => ?_⟩
      exact .fan heq hfan hk (mem_of_dict hg') rfl rfl

theorem enqueueInTransaction_jorb {db db' : Db} {now : Int} {job : NewJob}
    (h : db.enqueueInTransaction now job = some db') :
    db'.jorb = db.jorb.insert (job.row now) fun _ => rfl := by
  unfold Db.enqueueInTransaction Db.enqueue at h
  grind

theorem place_eq_ok {key : α → Option α} {now : Int} {w w' : Wiring α} {n : α}
    (h : d.place key now w n = .ok w') : ∃ (job : NewJob) (db : Db),
      db.jorb = w.db.jorb.insert (job.row now) (fun _ => rfl) ∧
        w' = w.record (key n) n w.db.jorb.next db := by
  unfold place at h
  split at h
  · cases h
  · rename_i job _
    split at h
    · cases h
    · rename_i db henq
      exact ⟨job, db, enqueueInTransaction_jorb henq, (Except.ok.inj h).symm⟩

/-- What creating one job keeps, creating all of them keeps. -/
theorem placeAll_keeps {P : Wiring α → Prop} {key : α → Option α} {now : Int}
    (hstep : ∀ w n w', P w → d.place key now w n = .ok w' → P w') (ns : List α) {w w' : Wiring α}
    (hw : P w) (h : d.placeAll key now w ns = .ok w') : P w' := by
  induction ns generalizing w with
  | nil =>
    obtain rfl : w = w' := Except.ok.inj h
    exact hw
  | cons n ns ih =>
    simp only [placeAll, Except.bind] at h
    split at h
    · cases h
    · rename_i w₁ hplace
      exact ih (hstep w n w₁ hw hplace) h

theorem Recorded.lt_next {placed : List α} {w : Wiring α} (h : d.Recorded placed w) {n : α}
    {i : Nat} (hi : (n, i) ∈ w.nodeToJob) : i < w.db.jorb.next := by
  obtain ⟨r, hr, rfl, -⟩ := h.row n i hi
  exact Serial.lt_next hr

theorem Recorded.record {placed : List α} {w : Wiring α} (h : d.Recorded placed w) {n : α}
    {job : NewJob} {now : Int} {db : Db} (hnew : n ∉ placed)
    (hrun : job.runGroup = (d.options n).runGroup)
    (hwired : ∀ id, d.Wired w n (job.row now id))
    (hdb : db.jorb = w.db.jorb.insert (job.row now) fun _ => rfl) :
    d.Recorded (placed ++ [n]) (w.record (d.key n) n w.db.jorb.next db) := by
  have hfresh {m : α} : (m, w.db.jorb.next) ∉ w.nodeToJob :=
    fun hm => absurd (h.lt_next hm) (Nat.lt_irrefl _)
  have hjobs : w.nodeToJob ⊆ (w.record (d.key n) n w.db.jorb.next db).nodeToJob := by simp
  have hgroups : w.groupId ⊆ (w.record (d.key n) n w.db.jorb.next db).groupId :=
    fun e he => (w.mem_record_groupId _ _ _ _).mpr (.inl he)
  have hmem {m : α} {i : Nat} :
      (m, i) ∈ (w.record (d.key n) n w.db.jorb.next db).nodeToJob ↔
        (m, i) ∈ w.nodeToJob ∨ m = n ∧ i = w.db.jorb.next := by simp
  constructor
  · simp [h.nodes]
  · intro a b i ha hb
    rcases hmem.mp ha with ha' | ⟨rfl, rfl⟩ <;> rcases hmem.mp hb with hb' | ⟨rfl, hi⟩
    · exact h.inj a b i ha' hb'
    · exact absurd (hi ▸ ha') hfresh
    · exact absurd hb' hfresh
    · rfl
  · intro m i hm
    rw [Wiring.record_db, hdb]
    rcases hmem.mp hm with hm | ⟨rfl, rfl⟩
    · obtain ⟨r, hr, hid, hrun, hw⟩ := h.row m i hm
      exact ⟨r, Serial.mem_insert_of_mem hr, hid, hrun, hw.mono hjobs hgroups⟩
    · exact ⟨_, Serial.mem_insert.mpr (.inr rfl), rfl, hrun, (hwired _).mono hjobs hgroups⟩
  · intro k g hg
    rcases (w.mem_record_groupId _ _ _ _).mp hg with hg | ⟨hk, rfl, -⟩
    · obtain ⟨m, hm, hkey⟩ := h.group k g hg
      exact ⟨m, hmem.mpr (.inl hm), hkey⟩
    · exact ⟨n, hmem.mpr (.inr ⟨rfl, rfl⟩), hk⟩
  · intro k g g' hg hg'
    rcases (w.mem_record_groupId _ _ _ _).mp hg with hg | ⟨-, rfl, hnone⟩ <;>
      rcases (w.mem_record_groupId _ _ _ _).mp hg' with hg' | ⟨-, rfl, hnone'⟩
    · exact h.single k g g' hg hg'
    · exact absurd hg (hnone' g)
    · exact absurd hg' (hnone g')
    · rfl
  · intro k i
    rw [w.mem_record_groupMembers, h.member]
    constructor
    · rintro (⟨m, hm, hk⟩ | ⟨hk, rfl⟩)
      · exact ⟨m, hmem.mpr (.inl hm), hk⟩
      · exact ⟨n, hmem.mpr (.inr ⟨rfl, rfl⟩), hk⟩
    · rintro ⟨m, hm, hk⟩
      rcases hmem.mp hm with hm | ⟨rfl, rfl⟩
      · exact .inl ⟨m, hm, hk⟩
      · exact .inr ⟨hk, rfl⟩
  · intro k i hi
    rcases (w.mem_record_groupMembers _ _ _ _).mp hi with hi | ⟨hk, rfl⟩
    · obtain ⟨g, hg⟩ := h.covered k i hi
      exact ⟨g, hgroups hg⟩
    · by_cases hold : ∃ g, (k, g) ∈ w.groupId
      · obtain ⟨g, hg⟩ := hold
        exact ⟨g, hgroups hg⟩
      · exact ⟨_, (w.mem_record_groupId _ _ _ _).mpr (.inr ⟨hk, rfl, not_exists.mp hold⟩)⟩

def Plain (d : Dag α) : Prop := ∀ n ∈ d.nodes,
  (d.options n).waitforJob = none ∧ (d.options n).waitforGroup = none ∧
    (d.options n).runGroup = none

theorem placeAll_recorded (hd : d.Valid) (now : Int) (ns : List α)
    {placed : List α} {w : Wiring α} (h : d.Recorded placed w) (hns : ns ⊆ d.nodes)
    (hnd : (placed ++ ns).Nodup) (hlayered : d.Layered placed ns) :
    (∃ c, d.placeAll d.key now w ns = .error (.refused c)) ∨
      ∃ w', d.placeAll d.key now w ns = .ok w' ∧ d.Recorded (placed ++ ns) w' := by
  induction ns generalizing placed w with
  | nil => exact .inr ⟨w, rfl, by simpa using h⟩
  | cons n ns ih =>
    obtain ⟨hn, hns⟩ := List.cons_subset.mp hns
    obtain ⟨hdeps, hlayered⟩ := hlayered
    obtain ⟨job, hjob, hrun, hwired⟩ := wired_of_recorded hd h hn hdeps
    cases henq : w.db.enqueueInTransaction now job with
    | none =>
      refine .inl ⟨job.jobClass, ?_⟩
      simp [placeAll, place, hjob, henq, Except.bind]
    | some db =>
      have hnew : n ∉ placed := by grind
      have hrec := h.record hnew hrun (hwired now) (enqueueInTransaction_jorb henq)
      have hnext := ih hrec hns (by simpa using hnd) hlayered
      simpa [placeAll, place, hjob, henq, Except.bind] using hnext

omit [DecidableEq α] in
theorem stamp_none (ids : α → List Nat) (entries : List (α × Nat)) {db : Db} {r : Jorb}
    (hr : r ∈ db.jorb) (hnone : ∀ e ∈ entries, r.id ∉ ids e.1) :
    r ∈ (entries.foldl (fun db e => db.setRunGroup e.2 (ids e.1)) db).jorb := by
  induction entries generalizing db with
  | nil => exact hr
  | cons e es ih =>
    have hkept : r ∈ (db.setRunGroup e.2 (ids e.1)).jorb :=
      Serial.mem_update.mpr ⟨r, hr, by simp [hnone e List.mem_cons_self]⟩
    exact ih hkept fun e' he' => hnone e' (List.mem_cons_of_mem _ he')

omit [DecidableEq α] in
theorem stamp_some (ids : α → List Nat) (g : Nat) (entries : List (α × Nat)) {db : Db} {r : Jorb}
    (hr : r ∈ db.jorb) (hall : ∀ e ∈ entries, r.id ∈ ids e.1 → e.2 = g)
    (hex : r.runGroup = some (g : Int) ∨ ∃ e ∈ entries, r.id ∈ ids e.1) :
    { r with runGroup := some (g : Int) } ∈
      (entries.foldl (fun db e => db.setRunGroup e.2 (ids e.1)) db).jorb := by
  induction entries generalizing db r with
  | nil =>
    have hg : r.runGroup = some (g : Int) := by simpa using hex
    rwa [← hg]
  | cons e es ih =>
    have hes : ∀ e' ∈ es, r.id ∈ ids e'.1 → e'.2 = g :=
      fun e' he' => hall e' (List.mem_cons_of_mem _ he')
    by_cases hid : r.id ∈ ids e.1
    · obtain rfl : e.2 = g := hall e List.mem_cons_self hid
      have hset : { r with runGroup := some (e.2 : Int) } ∈ (db.setRunGroup e.2 (ids e.1)).jorb :=
        Serial.mem_update.mpr ⟨r, hr, by simp [hid]⟩
      simpa using ih hset hes (.inl rfl)
    · have hkept : r ∈ (db.setRunGroup e.2 (ids e.1)).jorb :=
        Serial.mem_update.mpr ⟨r, hr, by simp [hid]⟩
      refine ih hkept hes (hex.imp_right ?_)
      rintro ⟨e', he', hid'⟩
      rcases List.mem_cons.mp he' with rfl | he'
      · exact absurd hid' hid
      · exact ⟨e', he', hid'⟩

theorem mem_memberIds {w : Wiring α} {k : α} {i : Nat} :
    i ∈ w.memberIds k ↔ (k, i) ∈ w.groupMembers := by
  simp [Wiring.memberIds]

theorem Recorded.stamped {placed : List α} {w : Wiring α} (h : d.Recorded placed w) {n : α}
    {i : Nat} (hi : (n, i) ∈ w.nodeToJob) : ∃ r ∈ w.stamp.jorb, r.id = i ∧ d.Wired w n r ∧
      (d.key n = none → r.runGroup = (d.options n).runGroup) ∧
      ∀ k, d.key n = some k → ∀ g : Nat, r.runGroup = some (g : Int) ↔ (k, g) ∈ w.groupId := by
  obtain ⟨r, hr, hid, hrun, hwired⟩ := h.row n i hi
  have hmember {k : α} (hk : r.id ∈ w.memberIds k) : d.key n = some k := by
    obtain ⟨m, hm, hkey⟩ := (h.member k i).mp (mem_memberIds.mp (hid ▸ hk))
    obtain rfl := h.inj m n i hm hi
    exact hkey
  cases hkey : d.key n with
  | none =>
    refine ⟨r, stamp_none w.memberIds w.groupId hr ?_, hid, hwired, fun _ => hrun, by simp⟩
    intro e _ he
    simp [hmember he] at hkey
  | some k =>
    have hin : (k, i) ∈ w.groupMembers := (h.member k i).mpr ⟨n, hi, hkey⟩
    obtain ⟨g, hg⟩ := h.covered k i hin
    have hall : ∀ e ∈ w.groupId, r.id ∈ w.memberIds e.1 → e.2 = g := by
      rintro ⟨k', g'⟩ he hk'
      obtain rfl : k' = k := Option.some.inj ((hmember hk').symm.trans hkey)
      exact h.single k' g' g he hg
    refine ⟨_, stamp_some w.memberIds g w.groupId hr hall
      (.inr ⟨(k, g), hg, mem_memberIds.mpr (hid.symm ▸ hin)⟩), hid, ?_, by simp, ?_⟩
    · cases hwired with
      | alone deps job group => exact .alone deps job group
      | single deps mem job group => exact .single deps mem job group
      | fan deps many key mem job group => exact .fan deps many key mem job group
    · rintro k' hk' g'
      obtain rfl := Option.some.inj hk'
      constructor
      · intro hg'
        have hgg : (g : Int) = g' := by simpa using hg'
        exact Int.ofNat_inj.mp hgg ▸ hg
      · intro hg'
        simp [h.single k g g' hg hg']

def NodeWaits (d : Dag α) (n m : α) : Prop :=
  n ∈ d.nodes ∧ (d.dependsOn n = [m] ∨ n ∈ d.fanIn ∧ m ∈ d.waitGroup n)

end Dag

/-- Among these jobs, `j` waits for `k`: through `waitfor_job`, or through a
`waitfor_group` that `k` is a member of. -/
def Db.Waits (db : Db) (jobs : List Nat) (j k : Nat) : Prop :=
  j ∈ jobs ∧ k ∈ jobs ∧ ∃ r ∈ db.jorb, ∃ s ∈ db.jorb, r.id = j ∧ s.id = k ∧
    (r.waitforJob = some (k : Int) ∨ ∃ g, r.waitforGroup = some g ∧ s.runGroup = some g)

namespace Dag

variable {d : Dag α}

theorem waits_iff (hd : d.Valid) (hplain : d.Plain) {placed : List α} {w : Wiring α}
    (h : d.Recorded placed w) (hplaced : placed.Perm d.nodes) {n m : α} {j k : Nat}
    (hj : (n, j) ∈ w.nodeToJob) (hk : (m, k) ∈ w.nodeToJob) :
    w.stamp.Waits (w.nodeToJob.map Prod.snd) j k ↔ d.NodeWaits n m := by
  obtain ⟨r, hr, hrid, hwired, -⟩ := h.stamped hj
  obtain ⟨s, hs, hsid, -, hnone, hsome⟩ := h.stamped hk
  have hn : n ∈ d.nodes := hplaced.subset (h.nodes ▸ List.mem_map_of_mem hj)
  have hm : m ∈ d.nodes := hplaced.subset (h.nodes ▸ List.mem_map_of_mem hk)
  obtain ⟨hjob, hwait, -⟩ := hplain n hn
  obtain ⟨-, -, hrun⟩ := hplain m hm
  have hgroup (g : Nat) :
      s.runGroup = some (g : Int) ↔ ∃ k, d.key m = some k ∧ (k, g) ∈ w.groupId := by
    cases hkey : d.key m with
    | none => simp [hnone hkey, hrun]
    | some k => simp [hsome k hkey g]
  have hrows : w.stamp.Waits (w.nodeToJob.map Prod.snd) j k ↔
      r.waitforJob = some (k : Int) ∨ ∃ g, r.waitforGroup = some g ∧ s.runGroup = some g := by
    constructor
    · rintro ⟨-, -, r', hr', s', hs', hrid', hsid', hwait⟩
      obtain rfl := Serial.eq_of_ident hr' hr (hrid'.trans hrid.symm)
      obtain rfl := Serial.eq_of_ident hs' hs (hsid'.trans hsid.symm)
      exact hwait
    · exact fun hwait => ⟨List.mem_map_of_mem hj, List.mem_map_of_mem hk, r, hr, s, hs, hrid, hsid,
        hwait⟩
  rw [hrows]
  cases hwired with
  | alone deps job group =>
    have hfan : n ∉ d.fanIn := fun hf => by simpa [deps] using (mem_fanIn.mp hf).2
    simp [job, group, hjob, hwait, NodeWaits, deps, hfan]
  | @single dep id deps mem job group =>
    have hfan : n ∉ d.fanIn := fun hf => by simpa [deps] using (mem_fanIn.mp hf).2
    have hsame : (id : Int) = k ↔ dep = m := by
      rw [Int.ofNat_inj]
      constructor
      · rintro rfl
        exact h.inj dep m id mem hk
      · rintro rfl
        have hnd : (w.nodeToJob.map Prod.fst).Nodup :=
          h.nodes ▸ hplaced.nodup_iff.mpr d.nodes_nodup
        exact congrArg Prod.snd (List.inj_on_of_nodup_map hnd mem hk rfl)
    simp [job, group, hwait, NodeWaits, deps, hfan, hn, hsame]
  | @fan dep key rest gid deps many hkey mem job group =>
    have hsingle : d.dependsOn n ≠ [m] := fun he => by simpa [he] using (mem_fanIn.mp many).2
    rw [NodeWaits, mem_waitGroup_iff hd many deps hkey]
    simp only [job, hjob, group, reduceCtorEq, false_or, Option.some.injEq, exists_eq_left', hgroup,
      hn, hsingle, many, true_and]
    constructor
    · rintro ⟨key', hkey', hmem'⟩
      obtain ⟨a, ha, hka⟩ := h.group key gid mem
      obtain ⟨b, hb, hkb⟩ := h.group key' gid hmem'
      obtain rfl := h.inj a b gid ha hb
      rw [hkey', ← hkb, hka]
    · exact fun hm => ⟨key, hm, mem⟩

theorem acyclic_waits_iff (hd : d.Valid) (hplain : d.Plain) {placed : List α} {w : Wiring α}
    (h : d.Recorded placed w) (hplaced : placed.Perm d.nodes) :
    Acyclic (w.stamp.Waits (w.nodeToJob.map Prod.snd)) ↔ Acyclic d.NodeWaits := by
  have hjob {n : α} (hn : n ∈ d.nodes) : ∃ j, (n, j) ∈ w.nodeToJob := by
    simpa [← h.nodes] using hplaced.symm.subset hn
  constructor
  · intro hacyclic n hcycle
    have hlift : ∀ m, TransGen d.NodeWaits n m → ∀ i j, (n, i) ∈ w.nodeToJob →
        (m, j) ∈ w.nodeToJob → TransGen (w.stamp.Waits (w.nodeToJob.map Prod.snd)) i j := by
      intro m hpath i
      induction hpath with
      | single hwait =>
        exact fun j hi hj => .single ((waits_iff hd hplain h hplaced hi hj).mpr hwait)
      | tail _ hwait ih =>
        intro j hi hj
        obtain ⟨k, hk⟩ := hjob hwait.1
        exact (ih k hi hk).tail ((waits_iff hd hplain h hplaced hk hj).mpr hwait)
    obtain ⟨m, hwait, -⟩ := TransGen.head'_iff.mp hcycle
    obtain ⟨i, hi⟩ := hjob hwait.1
    exact hacyclic i (hlift n hcycle i i hi hi)
  · intro hacyclic j hcycle
    have hnode {j : Nat} (hj : j ∈ w.nodeToJob.map Prod.snd) : ∃ n, (n, j) ∈ w.nodeToJob := by
      simpa using hj
    have hlift : ∀ k, TransGen (w.stamp.Waits (w.nodeToJob.map Prod.snd)) j k →
        ∀ n m, (n, j) ∈ w.nodeToJob → (m, k) ∈ w.nodeToJob → TransGen d.NodeWaits n m := by
      intro k hpath n
      induction hpath with
      | single hwait =>
        exact fun m hn hm => .single ((waits_iff hd hplain h hplaced hn hm).mp hwait)
      | tail _ hwait ih =>
        intro m hn hm
        obtain ⟨m', hm'⟩ := hnode hwait.1
        exact (ih m' hn hm').tail ((waits_iff hd hplain h hplaced hm' hm).mp hwait)
    obtain ⟨k, hwait, -⟩ := TransGen.head'_iff.mp hcycle
    obtain ⟨n, hn⟩ := hnode hwait.1
    exact hacyclic n (hlift j hcycle n n hn hn)

/-- A fan-in node that has to wait, in its merged group, for another one or for
something declared to come after that one. -/
def HoldsUp (d : Dag α) (n n' : α) : Prop :=
  n ∈ d.fanIn ∧ n' ∈ d.fanIn ∧ n ≠ n' ∧
    ∃ dep ∈ d.dependsOn n, ∃ m, d.Merged dep m ∧ ReflTransGen d.After n' m

/-- Fan-in nodes, at least two, each held up by the next and the last by the first. -/
def Ring (d : Dag α) : Prop := ∃ n, TransGen d.HoldsUp n n

def Names (d : Dag α) (n m : α) : Prop := n ∈ d.nodes ∧ m ∈ d.dependsOn n

def GroupWaits (d : Dag α) (n m : α) : Prop := n ∈ d.fanIn ∧ m ∈ d.waitGroup n

theorem names_acyclic (hd : d.Valid) : Acyclic d.Names := by
  intro n hcycle
  obtain ⟨m, hnm, -⟩ := TransGen.head'_iff.mp hcycle
  have hacc : Acc (fun b a => d.Names a b) n :=
    Subrelation.accessible (fun h => h.2) (hd.acc n hnm.1)
  exact not_transGen_of_acc hacc hcycle

theorem acyclic_nodeWaits_iff (hd : d.Valid) :
    Acyclic d.NodeWaits ↔ Acyclic fun n m => d.Names n m ∨ d.GroupWaits n m := by
  have hsub : ∀ n m, d.NodeWaits n m → d.Names n m ∨ d.GroupWaits n m := by
    rintro n m ⟨hn, h | h⟩
    · exact .inl ⟨hn, by simp [h]⟩
    · exact .inr h
  have hsup : ∀ n m, d.Names n m ∨ d.GroupWaits n m → d.NodeWaits n m := by
    rintro n m (⟨hn, hm⟩ | h)
    · refine ⟨hn, ?_⟩
      by_cases hfan : n ∈ d.fanIn
      · exact .inr ⟨hfan, mem_waitGroup_of_mem hd hfan hm⟩
      · left
        have hlen : (d.dependsOn n).length ≤ 1 := by simpa [mem_fanIn, hn] using hfan
        match hdeps : d.dependsOn n with
        | [] => simp [hdeps] at hm
        | [dep] => simp [hdeps] at hm; simp [hm]
        | _ :: _ :: _ => simp [hdeps] at hlen
    · exact ⟨(mem_fanIn.mp h.1).1, .inr h⟩
  exact ⟨fun h => acyclic_map h id hsup, fun h => acyclic_map h id hsub⟩

theorem names_path_iff {n m : α} : ReflTransGen d.Names m n ↔ ReflTransGen d.After n m := by
  have hswap : d.Names = Function.swap d.After := by
    funext a b
    simp [Names, Function.swap, After, mem_dependents]
  rw [hswap, reflTransGen_swap]

theorem hooks_of_holdsUp (hd : d.Valid) {n n' : α} (h : d.HoldsUp n n') :
    Hooks d.Names d.GroupWaits n n' := by
  obtain ⟨hn, -, -, dep, hdep, m, hmerged, hpath⟩ := h
  refine ⟨m, ⟨hn, ?_⟩, names_path_iff.mpr hpath⟩
  have hgroup : d.Grouped m := (Grouped.of_merged hmerged).mp ⟨n, hn, hdep⟩
  obtain ⟨a, ha, hm⟩ := hgroup
  obtain ⟨-, -, first, rest, hdeps, hfirst⟩ := mem_waitGroup.mp (mem_waitGroup_of_mem hd hn hdep)
  exact mem_waitGroup.mpr ⟨hd.closed a (mem_fanIn.mp ha).1 hm, ⟨a, ha, hm⟩, first, rest, hdeps,
    .trans _ _ _ hfirst hmerged⟩

theorem holdsUp_of_hooks (hd : d.Valid) {n n' : α} (h : Hooks d.Names d.GroupWaits n n')
    (hfan : n' ∈ d.fanIn) : d.HoldsUp n n' := by
  obtain ⟨m, ⟨hn, hm⟩, hpath⟩ := h
  obtain ⟨-, -, dep, rest, hdeps, hmerged⟩ := mem_waitGroup.mp hm
  have hafter := names_path_iff.mp hpath
  refine ⟨hn, hfan, ?_, dep, by simp [hdeps], m, hmerged, hafter⟩
  rintro rfl
  exact hd.unblocked n hn m hm hafter

theorem acyclic_hooks_iff (hd : d.Valid) : Acyclic (Hooks d.Names d.GroupWaits) ↔ ¬ d.Ring := by
  constructor
  · rintro h ⟨n, hring⟩
    exact h n (hring.lift id fun _ _ => hooks_of_holdsUp hd)
  · intro h n hcycle
    have hring : ∀ m, TransGen (Hooks d.Names d.GroupWaits) n m → m ∈ d.fanIn →
        TransGen d.HoldsUp n m := by
      intro m hpath
      induction hpath with
      | single hhook => exact fun hm => .single (holdsUp_of_hooks hd hhook hm)
      | tail _ hhook ih =>
        intro hm
        have hfan := hhook
        obtain ⟨_, ⟨hb, -⟩, -⟩ := hfan
        exact (ih hb).tail (holdsUp_of_hooks hd hhook hm)
    obtain ⟨_, ⟨_, ⟨hn, -⟩, -⟩, -⟩ := TransGen.head'_iff.mp hcycle
    exact h ⟨n, hring n hcycle hn⟩

theorem execute_recorded (hv : d.validate = .ok ()) (order : SetOrder α)
    (now : Int) (db : Db) :
    (∃ c, d.execute order now db = .error (.refused c)) ∨
      ∃ placed w, d.execute order now db = .ok (w.stamp, w.nodeToJob) ∧ d.Recorded placed w ∧
        placed.Perm d.nodes ∧ d.placeAll d.key now ⟨db, [], [], []⟩ placed = .ok w := by
  have hd := valid_of_validate hv
  obtain ⟨ls, hls, hlayered, hperm⟩ := topologicalSort_ok hd order
  have hgroups := hd.dependencyGroups
  have hinit : d.Recorded [] ⟨db, [], [], []⟩ := by
    constructor <;> simp
  have hnd : ([] ++ ls.flatten).Nodup := hperm.nodup_iff.mpr d.nodes_nodup
  rcases placeAll_recorded hd now ls.flatten hinit hperm.subset hnd hlayered with
    ⟨c, hc⟩ | ⟨w, hw, hrec⟩
  · refine .inl ⟨c, ?_⟩
    rw [key] at hc
    simp [execute, hv, hls, hgroups, hc, bind, Except.bind]
  · refine .inr ⟨ls.flatten, w, ?_, by simpa using hrec, hperm, hw⟩
    rw [key] at hw
    simp [execute, hv, hls, hgroups, hw, bind, Except.bind, pure, Except.pure]

end Dag

/-- No ring of waits, and every job becomes claimable if those that do all finish. -/
def Db.DeadlockFree (db : Db) (jobs : List Nat) : Prop :=
  Acyclic (db.Waits jobs) ∧ ∀ j ∈ jobs, Available (db.Waits jobs) j

theorem Dag.Recorded.deadlockFree_iff {d : Dag α} (hd : d.Valid) (hplain : d.Plain)
    {placed : List α} {w : Wiring α} (h : d.Recorded placed w) (hplaced : placed.Perm d.nodes) :
    w.stamp.DeadlockFree (w.nodeToJob.map Prod.snd) ↔ ¬ d.Ring := by
  have hring : Acyclic (w.stamp.Waits (w.nodeToJob.map Prod.snd)) ↔ ¬ d.Ring := by
    rw [Dag.acyclic_waits_iff hd hplain h hplaced, Dag.acyclic_nodeWaits_iff hd,
      acyclic_or_iff (Dag.names_acyclic hd), Dag.acyclic_hooks_iff hd]
  constructor
  · exact fun hfree => hring.mp hfree.1
  · intro hno
    have hacyclic := hring.mpr hno
    exact ⟨hacyclic, fun j _ => available_of_acyclic (fun _ _ hwait => hwait.2.1) hacyclic j⟩

theorem Dag.not_ring_of_disjoint {d : Dag α} (hd : d.Valid)
    (hdisjoint : ∀ n ∈ d.fanIn, ∀ n' ∈ d.fanIn, ∀ m,
      m ∈ d.dependsOn n → m ∈ d.dependsOn n' → n = n') : ¬ d.Ring := by
  have hown {n a b : α} (hn : n ∈ d.fanIn) (hab : d.Merged a b) :
      a ∈ d.dependsOn n ↔ b ∈ d.dependsOn n := by
    induction hab with
    | rel a b h =>
      obtain ⟨n', hn', ha, hb⟩ := h
      constructor
      · exact fun h => hdisjoint n hn n' hn' a h ha ▸ hb
      · exact fun h => hdisjoint n hn n' hn' b h hb ▸ ha
    | refl => exact Iff.rfl
    | symm _ _ _ ih => exact ih.symm
    | trans _ _ _ _ _ ih₁ ih₂ => exact ih₁.trans ih₂
  have hnames : ∀ n n', d.HoldsUp n n' → TransGen d.Names n n' := by
    rintro n n' ⟨hn, -, -, dep, hdep, m, hmerged, hpath⟩
    have hm : m ∈ d.dependsOn n := (hown hn hmerged).mp hdep
    exact TransGen.head' ⟨(mem_fanIn.mp hn).1, hm⟩ (names_path_iff.mpr hpath)
  rintro ⟨n, hring⟩
  exact names_acyclic hd n (hring.lift' id hnames)

/-- The jobs of an accepted graph can deadlock exactly when fan-in nodes hold up one
another, through merged groups, in a ring. -/
theorem dag_deadlock_free (d : Dag α) (hv : d.validate = .ok ()) (hplain : d.Plain)
    (order : SetOrder α) (now : Int) (db : Db) :
    (∀ e, d.execute order now db = .error e → ∃ c, e = .refused c) ∧
      ∀ (db' : Db) (jobs : List (α × Nat)), d.execute order now db = .ok (db', jobs) →
        (jobs.map Prod.fst).Perm d.nodes ∧ (db'.DeadlockFree (jobs.map Prod.snd) ↔ ¬ d.Ring) := by
  have hd := Dag.valid_of_validate hv
  rcases Dag.execute_recorded hv order now db with ⟨c, hc⟩ | ⟨placed, w, hw, hrec, hperm, -⟩
  · rw [hc]
    exact ⟨fun e he => ⟨c, (Except.error.inj he).symm⟩, by simp⟩
  · rw [hw]
    refine ⟨by simp, fun db' jobs heq => ?_⟩
    obtain ⟨rfl, rfl⟩ := Prod.mk.inj (Except.ok.inj heq)
    exact ⟨hrec.nodes ▸ hperm, hrec.deadlockFree_iff hd hplain hperm⟩

def SetOrder.asListed : SetOrder Nat := ⟨id, fun _ => .refl _⟩

def Dag.diamond : Dag Nat where
  nodes := [0, 1, 2, 3]
  dependsOn n :=
    match n with
    | 1 => [0]
    | 2 => [0]
    | 3 => [1, 2]
    | _ => []
  options _ := .plain "default"
  nodes_nodup := by decide
  deps_nodup n := by split <;> decide

theorem dag_deadlock_free_diamond :
    ∃ (db : Db) (jobs : List (Nat × Nat)),
      Dag.diamond.execute .asListed 0 .empty = .ok (db, jobs) ∧
        db.DeadlockFree (jobs.map Prod.snd) := by
  have hplain : Dag.diamond.Plain := fun _ _ => ⟨rfl, rfl, rfl⟩
  have hone : ∀ n ∈ Dag.diamond.fanIn, n = 3 := by decide
  have hring : ¬ Dag.diamond.Ring := by
    rintro ⟨n, hring⟩
    obtain ⟨m, ⟨hn, hm, hne, -⟩, -⟩ := TransGen.head'_iff.mp hring
    exact hne ((hone n hn).trans (hone m hm).symm)
  have hok : (Dag.diamond.execute .asListed 0 .empty).isOk = true := by rfl
  obtain ⟨-, hfree⟩ := dag_deadlock_free Dag.diamond (by rfl) hplain .asListed 0 .empty
  cases h : Dag.diamond.execute .asListed 0 .empty with
  | error => simp [h, Except.isOk, Except.toBool] at hok
  | ok out => exact ⟨out.1, out.2, rfl, (hfree out.1 out.2 h).2.mpr hring⟩

/-- Two chains of overlapping fan-in nodes: 3 and 4 share the dependency 1, 8 and 9
share 6; 2 waits for 8 and 7 for 3. -/
def Dag.tangle : Dag Nat where
  nodes := [0, 1, 2, 3, 4, 5, 6, 7, 8, 9]
  dependsOn n :=
    match n with
    | 2 => [8]
    | 3 => [0, 1]
    | 4 => [1, 2]
    | 7 => [3]
    | 8 => [5, 6]
    | 9 => [6, 7]
    | _ => []
  options _ := .plain "default"
  nodes_nodup := by decide
  deps_nodup n := by split <;> decide

/-- 3 waits for 2, which waits for 8, which waits for 7, which waits for 3. -/
theorem dag_deadlocks : Dag.tangle.validate = .ok () ∧ Dag.tangle.Plain ∧
    ∃ (db : Db) (jobs : List (Nat × Nat)),
      Dag.tangle.execute .asListed 0 .empty = .ok (db, jobs) ∧
        ¬ db.DeadlockFree (jobs.map Prod.snd) := by
  have hv : Dag.tangle.validate = .ok () := by rfl
  have hplain : Dag.tangle.Plain := fun _ _ => ⟨rfl, rfl, rfl⟩
  have hring : Dag.tangle.Ring := by
    have h38 : Dag.tangle.HoldsUp 3 8 :=
      ⟨by decide, by decide, by decide, 1, by decide, 2,
        Dag.merged_of_mem (show 4 ∈ Dag.tangle.fanIn by decide) (by decide) (by decide),
        .single (show 2 ∈ Dag.tangle.dependents 8 by decide)⟩
    have h83 : Dag.tangle.HoldsUp 8 3 :=
      ⟨by decide, by decide, by decide, 6, by decide, 7,
        Dag.merged_of_mem (show 9 ∈ Dag.tangle.fanIn by decide) (by decide) (by decide),
        .single (show 7 ∈ Dag.tangle.dependents 3 by decide)⟩
    exact ⟨3, .tail (.single h38) h83⟩
  have hok : (Dag.tangle.execute .asListed 0 .empty).isOk = true := by rfl
  refine ⟨hv, hplain, ?_⟩
  rcases Dag.execute_recorded hv .asListed 0 .empty with ⟨c, hc⟩ | ⟨placed, w, hw, hrec, hperm, -⟩
  · simp [hc, Except.isOk, Except.toBool] at hok
  · refine ⟨_, _, hw, fun hfree => ?_⟩
    exact (hrec.deadlockFree_iff (Dag.valid_of_validate hv) hplain hperm).mp hfree hring

end Pyjobby
