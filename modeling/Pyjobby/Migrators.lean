import Pyjobby.Migrations

/-! What the lock buys: over the calls of a whole fleet, crashes between any two of their
transactions included, each migration runs at most once and the base schema is installed at
most once. -/

namespace Pyjobby.Migrations

open Transition

variable {Sql : Type}

/-- The versions whose SQL was run, in the order of the commits. -/
def executed (log : List LogEntry) : List Nat :=
  log.filterMap fun
    | .applied _ version => some version
    | .installed _ _ => none

def executedBy (i : Nat) (log : List LogEntry) : List Nat :=
  log.filterMap fun
    | .applied j version => if j = i then some version else none
    | .installed _ _ => none

/-- The installs of the base schema, each with the versions it recorded. -/
def installs (log : List LogEntry) : List (Nat × List Nat) :=
  log.filterMap fun
    | .installed i versions => some (i, versions)
    | .applied _ _ => none

/-- The account of the transactions committed since the database was as at `start`. -/
structure Ledger (start db : SchemaDb) (log : List LogEntry) : Prop where
  once : (executed log).Nodup
  fresh : ∀ v ∈ executed log, v ∈ db.appliedVersions ∧ v ∉ start.appliedVersions
  grows : ∀ v ∈ start.appliedVersions, v ∈ db.appliedVersions
  jorb : executed log ≠ [] ∨ installs log ≠ [] ∨ start.catalog.hasJorb → db.catalog.hasJorb
  base : (installs log).length ≤ 1
  untouched : start.catalog.hasJorb → installs log = []
  stamped : ∀ e ∈ installs log, ∀ v ∈ e.2, v ∈ db.appliedVersions ∧ v ∉ executed log

namespace Ledger

variable {start db db' : SchemaDb} {log : List LogEntry}

theorem init (start : SchemaDb) : Ledger start start [] where
  once := .nil
  fresh _ hv := absurd hv List.not_mem_nil
  grows _ hv := hv
  jorb h := by simpa [executed, installs] using h
  base := Nat.zero_le _
  untouched _ := rfl
  stamped _ he := absurd he List.not_mem_nil

theorem mono (h : Ledger start db log) (hv : ∀ v ∈ db.appliedVersions, v ∈ db'.appliedVersions)
    (hjorb : db.catalog.hasJorb → db'.catalog.hasJorb) : Ledger start db' log where
  once := h.once
  fresh v hmem := ⟨hv v (h.fresh v hmem).1, (h.fresh v hmem).2⟩
  grows v hmem := hv v (h.grows v hmem)
  jorb hlog := hjorb (h.jorb hlog)
  base := h.base
  untouched := h.untouched
  stamped e he v hmem := ⟨hv v (h.stamped e he v hmem).1, (h.stamped e he v hmem).2⟩

theorem install (h : Ledger start db log) (hnone : db.catalog.hasJorb = false)
    {available : List (Migration Sql)} {catalog : Catalog} (hjorb : catalog.hasJorb) (i : Nat) :
    Ledger start (available.foldl SchemaDb.record { db with catalog })
      (log ++ [.installed i (available.map Migration.version)]) := by
  have hempty : ¬(executed log ≠ [] ∨ installs log ≠ [] ∨ start.catalog.hasJorb) := fun hsome => by
    rw [h.jorb hsome] at hnone
    cases hnone
  simp only [not_or, not_not] at hempty
  obtain ⟨hexecuted, hinstalls, hstart⟩ := hempty
  have hexecuted' : executed (log ++ [.installed i (available.map Migration.version)]) = [] := by
    simpa [executed] using hexecuted
  have hinstalls' : installs (log ++ [.installed i (available.map Migration.version)]) =
      [(i, available.map Migration.version)] := by
    have hone : installs [.installed i (available.map Migration.version)] =
        [(i, available.map Migration.version)] := rfl
    rw [installs, List.filterMap_append]
    exact congrArg₂ (· ++ ·) hinstalls hone
  constructor
  · rw [hexecuted']
    exact .nil
  · simp [hexecuted']
  · exact fun v hv => SchemaDb.mem_foldl_record.mpr (.inl (h.grows v hv))
  · exact fun _ => by rwa [SchemaDb.foldl_record_catalog]
  · rw [hinstalls']
    exact le_rfl
  · exact fun hj => absurd hj hstart
  · intro e he v hv
    rw [hinstalls', List.mem_singleton] at he
    subst he
    obtain ⟨n, hn, rfl⟩ := List.mem_map.mp hv
    exact ⟨SchemaDb.mem_foldl_record.mpr (.inr ⟨n, hn, rfl⟩), by simp [hexecuted']⟩

theorem apply (h : Ledger start db log) {next : Migration Sql}
    (hnew : next.version ∉ db.appliedVersions)
    {catalog : Catalog} (hjorb : catalog.hasJorb) (i : Nat) :
    Ledger start ({ db with catalog }.record next) (log ++ [.applied i next.version]) := by
  have hexecuted :
      executed (log ++ [.applied i next.version]) = executed log ++ [next.version] := by
    simp [executed]
  have hinstalls : installs (log ++ [.applied i next.version]) = installs log := by
    simp [installs]
  have hold (v : Nat) (hv : v ∈ db.appliedVersions) :
      v ∈ ({ db with catalog }.record next).appliedVersions :=
    SchemaDb.mem_record.mpr (.inl hv)
  constructor
  · rw [hexecuted]
    refine List.nodup_append.mpr ⟨h.once, by simp, fun v hv w hw => ?_⟩
    rw [List.mem_singleton] at hw
    rintro rfl
    exact hnew (hw ▸ (h.fresh v hv).1)
  · intro v hv
    rcases List.mem_append.mp (hexecuted ▸ hv) with hv | hv
    · exact ⟨hold v (h.fresh v hv).1, (h.fresh v hv).2⟩
    · rw [List.mem_singleton] at hv
      subst hv
      exact ⟨SchemaDb.mem_record.mpr (.inr rfl), fun hstart => hnew (h.grows _ hstart)⟩
  · exact fun v hv => hold v (h.grows v hv)
  · exact fun _ => by rwa [SchemaDb.record_catalog]
  · exact hinstalls ▸ h.base
  · exact fun hj => hinstalls ▸ h.untouched hj
  · intro e he v hv
    obtain ⟨happlied, hnot⟩ := h.stamped e (hinstalls ▸ he) v hv
    refine ⟨hold v happlied, fun hmem => ?_⟩
    rcases List.mem_append.mp (hexecuted ▸ hmem) with hmem | hmem
    · exact hnot hmem
    · exact hnew (List.mem_singleton.mp hmem ▸ happlied)

end Ledger

/-- The call has committed nothing. -/
def Idle (log : List LogEntry) (i : Nat) : Prop :=
  executedBy i log = [] ∧ ∀ e ∈ installs log, e.1 ≠ i

/-- The result so far of a call that found the job table. -/
structure Upgrading (log : List LogEntry) (i : Nat) (r : MigrationResult) : Prop where
  applied : r.applied = executedBy i log
  sorted : r.applied.Pairwise (· < ·)
  noInstall : ∀ e ∈ installs log, e.1 ≠ i
  installedBase : r.installedBase = false
  recorded : r.recorded = []

/-- The result of a call that ran the base schema. -/
structure Installed (log : List LogEntry) (i : Nat) (available : List (Migration Sql))
    (r : MigrationResult) : Prop where
  applied : r.applied = []
  none : executedBy i log = []
  installed : (i, available.map Migration.version) ∈ installs log
  installedBase : r.installedBase = true
  recorded : r.recorded = available.map Migration.version

/-- Nothing of the package is pending. -/
structure Settled (u : Text.Digits) (db : SchemaDb) (p : Package Sql)
    (available : List (Migration Sql)) : Prop where
  files : availableMigrations u p = some available
  jorb : db.catalog.hasJorb
  recorded : ∀ n ∈ available, n.version ∈ db.appliedVersions

def Done (u : Text.Digits) (db : SchemaDb) (log : List LogEntry) (i : Nat) (p : Package Sql)
    (r : MigrationResult) : Prop :=
  ∃ available, Settled u db p available ∧ (Upgrading log i r ∨ Installed log i available r)

/-- What holds of a call in each of its phases. -/
def Fits (u : Text.Digits) (db : SchemaDb) (log : List LogEntry) (i : Nat)
    (m : Migrator Sql) : Prop :=
  match m.phase with
  | .locking | .tracking => Idle log i
  | .checking available => availableMigrations u m.package = some available ∧ Idle log i
  | .installing available =>
    availableMigrations u m.package = some available ∧ Idle log i ∧ db.catalog.hasJorb = false
  | .reading available =>
    availableMigrations u m.package = some available ∧ Idle log i ∧ db.catalog.hasJorb
  | .applying todo r => ∃ available, availableMigrations u m.package = some available ∧
      db.catalog.hasJorb ∧ Upgrading log i r ∧
      (r.applied ++ todo.map Migration.version).Pairwise (· < ·) ∧
      (∀ n ∈ todo, n ∈ available ∧ n.version ∉ db.appliedVersions) ∧
      ∀ n ∈ available, n.version ∈ db.appliedVersions ∨ n ∈ todo
  | .repairing todo r => ∃ available, Settled u db m.package available ∧ Upgrading log i r ∧
      ∀ e ∈ todo, ∃ st ∈ m.package.statements, st.sql = e.2
  | .unlocking r | .returned r => ∀ r', r = some r' → Done u db log i m.package r'
  | .lost => True

/-- The step is no commit of this call, and takes nothing back. -/
structure Apart (db db' : SchemaDb) (log log' : List LogEntry) (i : Nat) : Prop where
  executed : executedBy i log' = executedBy i log
  installs : ∀ e : Nat × List Nat, e.1 = i → (e ∈ installs log' ↔ e ∈ installs log)
  applied : ∀ v ∈ db.appliedVersions, v ∈ db'.appliedVersions
  jorb : db.catalog.hasJorb → db'.catalog.hasJorb

section

variable {u : Text.Digits} {db db' : SchemaDb} {log log' : List LogEntry} {i : Nat}

theorem Idle.frame (h : Idle log i) (ha : Apart db db' log log' i) : Idle log' i :=
  ⟨ha.executed.trans h.1, fun e he hi => h.2 e ((ha.installs e hi).mp he) hi⟩

theorem Upgrading.frame {r : MigrationResult} (h : Upgrading log i r)
    (ha : Apart db db' log log' i) : Upgrading log' i r :=
  ⟨h.applied.trans ha.executed.symm, h.sorted,
    fun e he hi => h.noInstall e ((ha.installs e hi).mp he) hi, h.installedBase, h.recorded⟩

theorem Settled.frame {p : Package Sql} {available : List (Migration Sql)}
    (h : Settled u db p available) (ha : Apart db db' log log' i) : Settled u db' p available :=
  ⟨h.files, ha.jorb h.jorb, fun n hn => ha.applied _ (h.recorded n hn)⟩

theorem Done.frame {p : Package Sql} {r : MigrationResult} (h : Done u db log i p r)
    (ha : Apart db db' log log' i) : Done u db' log' i p r := by
  obtain ⟨available, hsettled, hresult⟩ := h
  refine ⟨available, hsettled.frame ha, hresult.imp (·.frame ha) fun h => ?_⟩
  exact ⟨h.applied, ha.executed.trans h.none, (ha.installs _ rfl).mpr h.installed,
    h.installedBase, h.recorded⟩

/-- A call outside the lock keeps what it has got, whatever the others commit. -/
theorem Fits.frame {m : Migrator Sql} (h : Fits u db log i m) (hout : m.phase.locked = false)
    (ha : Apart db db' log log' i) : Fits u db' log' i m := by
  unfold Fits at h ⊢
  cases hphase : m.phase with
  | locking =>
    rw [hphase] at h
    exact h.frame ha
  | returned r =>
    rw [hphase] at h
    exact fun r' hr' => (h r' hr').frame ha
  | lost => trivial
  | _ => simp [hphase, Phase.locked] at hout

end

theorem repairs_statement {p : Package Sql} {c : Catalog} {e : Drift × Sql}
    (h : e ∈ repairs p c) : ∃ st ∈ p.statements, st.sql = e.2 := by
  unfold repairs at h
  cases hm : (drift p.manifest c).mapM fun d => (canonicalCreateStatement p d).map (d, ·) with
  | none => simp [hm] at h
  | some es =>
    rw [hm] at h
    obtain ⟨d, -, hd⟩ := Lists.mem_of_mapM_eq_some hm h
    obtain ⟨sql, hsql, rfl⟩ := Option.map_eq_some_iff.mp hd
    unfold canonicalCreateStatement at hsql
    split at hsql
    · obtain ⟨st, hst, rfl⟩ := Option.map_eq_some_iff.mp hsql
      exact ⟨st, List.mem_of_find?_eq_some hst, rfl⟩
    · cases hsql

structure Orderly (u : Text.Digits) (run : Sql → Catalog → Option Catalog) (start : SchemaDb)
    (s : Fleet Sql) : Prop where
  ledger : Ledger start s.db s.log
  sound : ∀ m ∈ s.migrators, m.package.Sound run
  holder : ∀ i m, s.migrators[i]? = some m → m.phase.locked → s.holder = some i
  fits : ∀ i m, s.migrators[i]? = some m → Fits u s.db s.log i m
  later : ∀ i, s.migrators.length ≤ i → Idle s.log i

namespace Orderly

variable {u : Text.Digits} {run : Sql → Catalog → Option Catalog} {start : SchemaDb}
  {s s' : Fleet Sql}

theorem init (start : SchemaDb) : Orderly u run start (.init start) where
  ledger := .init start
  sound _ hm := absurd hm List.not_mem_nil
  holder i m hm := by simp [Fleet.init] at hm
  fits i m hm := by simp [Fleet.init] at hm
  later _ _ := ⟨rfl, fun _ he => absurd he List.not_mem_nil⟩

/-- One call goes on to another phase. Only with the lock, or where nobody has it, does it
change anything that the other calls read. -/
theorem move (h : Orderly u run start s) {i : Nat} {m : Migrator Sql}
    (hm : s.migrators[i]? = some m) {phase : Phase Sql}
    (hmig : s'.migrators = s.migrators.set i { m with phase })
    (hledger : Ledger start s'.db s'.log)
    (hself : Fits u s'.db s'.log i { m with phase })
    (hframe : ∀ j, j ≠ i → Apart s.db s'.db s.log s'.log j)
    (halone : m.phase.locked ∨ s.holder = none ∨
      s'.db = s.db ∧ s'.log = s.log ∧ s'.holder = s.holder)
    (hholder : phase.locked → s'.holder = some i) : Orderly u run start s' := by
  have hi : i < s.migrators.length := (List.getElem?_eq_some_iff.mp hm).1
  have hlookup {j : Nat} {n : Migrator Sql} (hn : s'.migrators[j]? = some n) :
      j = i ∧ n = { m with phase } ∨ j ≠ i ∧ s.migrators[j]? = some n := by
    rw [hmig] at hn
    by_cases hij : j = i
    · rw [hij, List.getElem?_set_self hi] at hn
      exact .inl ⟨hij, (Option.some.inj hn).symm⟩
    · rw [List.getElem?_set_ne (Ne.symm hij)] at hn
      exact .inr ⟨hij, hn⟩
  have hout {j : Nat} {n : Migrator Sql} (hj : j ≠ i) (hn : s.migrators[j]? = some n)
      (hbusy : m.phase.locked ∨ s.holder = none) : n.phase.locked = false := by
    refine Bool.eq_false_iff.mpr fun hlocked => ?_
    have hheld := h.holder j n hn hlocked
    rcases hbusy with hbusy | hbusy
    · exact hj (Option.some.inj (hheld.symm.trans (h.holder i m hm hbusy)))
    · rw [hbusy] at hheld
      cases hheld
  constructor
  · exact hledger
  · intro n hn
    rw [hmig] at hn
    rcases List.mem_or_eq_of_mem_set hn with hn | rfl
    · exact h.sound n hn
    · exact h.sound m (List.mem_of_getElem? hm)
  · intro j n hn hlocked
    rcases hlookup hn with ⟨rfl, rfl⟩ | ⟨hj, hn⟩
    · exact hholder hlocked
    · rcases halone with hbusy | hbusy | ⟨-, -, hsame⟩
      · simp [hout hj hn (.inl hbusy)] at hlocked
      · simp [hout hj hn (.inr hbusy)] at hlocked
      · exact hsame.trans (h.holder j n hn hlocked)
  · intro j n hn
    rcases hlookup hn with ⟨rfl, rfl⟩ | ⟨hj, hn⟩
    · exact hself
    · rcases halone with hbusy | hbusy | ⟨hdb, hlog, -⟩
      · exact (h.fits j n hn).frame (hout hj hn (.inl hbusy)) (hframe j hj)
      · exact (h.fits j n hn).frame (hout hj hn (.inr hbusy)) (hframe j hj)
      · rw [hdb, hlog]
        exact h.fits j n hn
  · intro j hj
    rw [hmig, List.length_set] at hj
    exact (h.later j hj).frame (hframe j (by omega))

theorem apart_refl (db : SchemaDb) (log : List LogEntry) (i : Nat) : Apart db db log log i :=
  ⟨rfl, fun _ _ => .rfl, fun _ h => h, id⟩

/-- A step of a call that leaves the database and the log alone. -/
theorem stay (h : Orderly u run start s) {i : Nat} {m : Migrator Sql}
    (hm : s.migrators[i]? = some m) {phase : Phase Sql}
    (hself : Fits u s.db s.log i { m with phase }) (hlocked : m.phase.locked) :
    Orderly u run start (s.setPhase i m phase) :=
  h.move hm rfl h.ledger hself (fun j _ => apart_refl _ _ j) (.inl hlocked)
    fun _ => h.holder i m hm hlocked

theorem call (h : Orderly u run start s) {p : Package Sql} (hp : p.Sound run) :
    Orderly u run start { s with migrators := s.migrators ++ [⟨p, .locking⟩] } where
  ledger := h.ledger
  sound n hn := by
    rcases List.mem_append.mp hn with hn | hn
    · exact h.sound n hn
    · rw [List.mem_singleton.mp hn]
      exact hp
  holder j n hn hlocked := by
    rcases Lists.getElem?_concat hn with hn | ⟨-, rfl⟩
    · exact h.holder j n hn hlocked
    · cases hlocked
  fits j n hn := by
    rcases Lists.getElem?_concat hn with hn | ⟨rfl, rfl⟩
    · exact h.fits j n hn
    · exact h.later _ le_rfl
  later j hj := by
    simp only [List.length_append, List.length_singleton] at hj
    exact h.later j (by omega)

theorem alter (h : Orderly u run start s) {c : Catalog} (hc : c.hasJorb = s.db.catalog.hasJorb) :
    Orderly u run start { s with db := { s.db with catalog := c } } where
  ledger := h.ledger.mono (fun _ hv => hv) fun hj => hc.trans hj
  sound := h.sound
  holder := h.holder
  fits j n hn := by
    have hfits := h.fits j n hn
    unfold Fits at hfits ⊢
    split <;> rename_i hphase <;> rw [hphase] at hfits
    · exact hfits
    · exact hfits
    · exact hfits
    · exact ⟨hfits.1, hfits.2.1, hc.trans hfits.2.2⟩
    · exact ⟨hfits.1, hfits.2.1, hc.trans hfits.2.2⟩
    · obtain ⟨available, hfiles, hjorb, hrest⟩ := hfits
      exact ⟨available, hfiles, hc.trans hjorb, hrest⟩
    · obtain ⟨available, hsettled, hrest⟩ := hfits
      exact ⟨available, ⟨hsettled.files, hc.trans hsettled.jorb, hsettled.recorded⟩, hrest⟩
    · intro r hr
      obtain ⟨available, hsettled, hrest⟩ := hfits r hr
      exact ⟨available, ⟨hsettled.files, hc.trans hsettled.jorb, hsettled.recorded⟩, hrest⟩
    · intro r hr
      obtain ⟨available, hsettled, hrest⟩ := hfits r hr
      exact ⟨available, ⟨hsettled.files, hc.trans hsettled.jorb, hsettled.recorded⟩, hrest⟩
    · trivial
  later := h.later

theorem install (h : Orderly u run start s) {i : Nat} {m : Migrator Sql}
    {available : List (Migration Sql)} {sql : Sql} {catalog : Catalog}
    (hm : s.migrators[i]? = some m) (phase : m.phase = .installing available)
    (base : m.package.baseSchema = some sql) (ran : run sql s.db.catalog = some catalog) :
    Orderly u run start { s.setPhase i m (.unlocking (some { MigrationResult.nothing with
        installedBase := true, recorded := available.map Migration.version })) with
      db := available.foldl SchemaDb.record { s.db with catalog }
      log := s.log ++ [.installed i (available.map Migration.version)] } := by
  have hlocked : m.phase.locked := by rw [phase]; rfl
  have hfits := h.fits i m hm
  simp only [Fits, phase] at hfits
  obtain ⟨hfiles, hidle, hnone⟩ := hfits
  have hjorb := (h.sound m (List.mem_of_getElem? hm)).installs sql _ _ base ran
  refine h.move hm rfl (h.ledger.install hnone hjorb i) ?_ (fun j hj => ?_) (.inl hlocked)
    fun _ => h.holder i m hm hlocked
  · rintro r ⟨⟩
    refine ⟨available, ⟨hfiles, ?_, fun n hn => ?_⟩, .inr ⟨rfl, ?_, ?_, rfl, rfl⟩⟩
    · rwa [SchemaDb.foldl_record_catalog]
    · exact SchemaDb.mem_foldl_record.mpr (.inr ⟨n, hn, rfl⟩)
    · simpa [executedBy] using hidle.1
    · simp [installs]
  · constructor
    · simp [executedBy]
    · rintro e rfl
      simp [installs, Prod.ext_iff, Ne.symm hj]
    · exact fun v hv => SchemaDb.mem_foldl_record.mpr (.inl hv)
    · exact fun _ => by rwa [SchemaDb.foldl_record_catalog]

theorem apply (h : Orderly u run start s) {i : Nat} {m : Migrator Sql} {next : Migration Sql}
    {todo : List (Migration Sql)} {result : MigrationResult} {catalog : Catalog}
    (hm : s.migrators[i]? = some m) (phase : m.phase = .applying (next :: todo) result)
    (ran : run next.sql s.db.catalog = some catalog) :
    Orderly u run start { s.setPhase i m (.applying todo
        { result with applied := result.applied ++ [next.version] }) with
      db := { s.db with catalog }.record next
      log := s.log ++ [.applied i next.version] } := by
  have hlocked : m.phase.locked := by rw [phase]; rfl
  have hfits := h.fits i m hm
  simp only [Fits, phase] at hfits
  obtain ⟨available, hfiles, hjorb, hup, hsorted, htodo, hcover⟩ := hfits
  obtain ⟨⟨hnext, hnew⟩, htodo⟩ := List.forall_mem_cons.mp htodo
  rw [List.map_cons, List.append_cons] at hsorted
  have hjorb' : catalog.hasJorb := by
    obtain ⟨f, hf, hsql⟩ := availableMigrations_files hfiles hnext
    exact (h.sound m (List.mem_of_getElem? hm)).migrates f hf _ _ (hsql ▸ ran) hjorb
  refine h.move hm rfl (h.ledger.apply hnew hjorb' i) ?_ (fun j hj => ?_) (.inl hlocked)
    fun _ => h.holder i m hm hlocked
  · refine ⟨available, hfiles, ?_, ⟨?_, (List.pairwise_append.mp hsorted).1, ?_, hup.installedBase,
      hup.recorded⟩, hsorted, fun n hn => ⟨(htodo n hn).1, fun hv => ?_⟩, fun n hn => ?_⟩
    · rwa [SchemaDb.record_catalog]
    · simp [executedBy, hup.applied]
    · simpa [installs] using hup.noInstall
    · rcases SchemaDb.mem_record.mp hv with hv | hv
      · exact (htodo n hn).2 hv
      · refine absurd hv (Nat.ne_of_gt ?_)
        exact (List.pairwise_append.mp hsorted).2.2 _ (by simp) _ (List.mem_map_of_mem hn)
    · rcases hcover n hn with hv | hv
      · exact .inl (SchemaDb.mem_record.mpr (.inl hv))
      · rcases List.mem_cons.mp hv with rfl | hv
        · exact .inl (SchemaDb.mem_record.mpr (.inr rfl))
        · exact .inr hv
  · constructor
    · simp [executedBy, Ne.symm hj]
    · simp [installs]
    · exact fun v hv => SchemaDb.mem_record.mpr (.inl hv)
    · exact fun _ => by rwa [SchemaDb.record_catalog]

theorem repair (h : Orderly u run start s) {i : Nat} {m : Migrator Sql} {next : Drift × Sql}
    {todo : List (Drift × Sql)} {result : MigrationResult} {catalog : Catalog}
    (hm : s.migrators[i]? = some m) (phase : m.phase = .repairing (next :: todo) result)
    (ran : run next.2 s.db.catalog = some catalog) :
    Orderly u run start { s.setPhase i m (.repairing todo
        { result with repaired := result.repaired ++ [next.1] }) with
      db := { s.db with catalog } } := by
  have hlocked : m.phase.locked := by rw [phase]; rfl
  have hfits := h.fits i m hm
  simp only [Fits, phase] at hfits
  obtain ⟨available, hsettled, hup, htodo⟩ := hfits
  obtain ⟨⟨st, hst, hsql⟩, htodo⟩ := List.forall_mem_cons.mp htodo
  have hjorb : catalog.hasJorb :=
    (h.sound m (List.mem_of_getElem? hm)).creates st hst _ _ (hsql ▸ ran) hsettled.jorb
  refine h.move hm rfl (h.ledger.mono (fun _ hv => hv) fun _ => hjorb) ?_ (fun j _ => ?_)
    (.inl hlocked) fun _ => h.holder i m hm hlocked
  · exact ⟨available, ⟨hsettled.files, hjorb, hsettled.recorded⟩,
      ⟨hup.applied, hup.sorted, hup.noInstall, hup.installedBase, hup.recorded⟩, htodo⟩
  · exact ⟨rfl, fun _ _ => .rfl, fun _ hv => hv, fun _ => hjorb⟩

theorem turn (h : Orderly u run start s) {a : FleetAct Sql} (ht : Turn u run s a s')
    (hcall : ∀ p, a = .call p → p.Sound run)
    (halter : ∀ c, a = .alter c → c.hasJorb = s.db.catalog.hasJorb) : Orderly u run start s' := by
  have locked {m : Migrator Sql} {p : Phase Sql} (hp : m.phase = p)
      (hl : p.locked) : m.phase.locked := hp ▸ hl
  cases ht with
  | call p => exact h.call (hcall p rfl)
  | alter c => exact h.alter (halter c rfl)
  | fail hm hphase => exact h.stay hm (fun _ hr => nomatch hr) hphase
  | @crash i m hm =>
    by_cases hlocked : m.phase.locked
    · exact h.move hm rfl h.ledger trivial (fun j _ => apart_refl _ _ j) (.inl hlocked) nofun
    · refine h.move hm rfl h.ledger trivial (fun j _ => apart_refl _ _ j)
        (.inr (.inr ⟨rfl, rfl, ?_⟩)) nofun
      simp [Fleet.crash, hlocked]
  | @lock i m hm hphase hfree =>
    have hfits := h.fits i m hm
    simp only [Fits, hphase] at hfits
    exact h.move hm rfl h.ledger hfits (fun j _ => apart_refl _ _ j)
      (.inr (.inl hfree)) fun _ => rfl
  | @track i m available hm hphase hfiles =>
    have hfits := h.fits i m hm
    simp only [Fits, hphase] at hfits
    have hsame : ∀ v, v ∈ (SchemaDb.appliedVersions
        { s.db with tracking := some (s.db.tracking.getD []) }) ↔ v ∈ s.db.appliedVersions :=
      fun _ => .rfl
    refine h.move hm rfl (h.ledger.mono (fun v => (hsame v).mpr) id) ⟨hfiles, hfits⟩
      (fun j _ => ⟨rfl, fun _ _ => .rfl, fun v => (hsame v).mpr, id⟩) (.inl (locked hphase rfl))
      fun _ => h.holder i m hm (locked hphase rfl)
  | @check i m available hm hphase =>
    have hfits := h.fits i m hm
    simp only [Fits, hphase] at hfits
    refine h.stay hm ?_ (locked hphase rfl)
    by_cases hjorb : s.db.catalog.hasJorb
    · simpa [Fits, hjorb] using hfits
    · simpa [Fits, hjorb] using hfits
  | install hm hphase base ran => exact h.install hm hphase base ran
  | @read i m available hm hphase =>
    have hfits := h.fits i m hm
    simp only [Fits, hphase] at hfits
    obtain ⟨hfiles, hidle, hjorb⟩ := hfits
    have hsorted := availableMigrations_sorted hfiles
    refine h.stay hm ⟨available, hfiles, hjorb, ⟨hidle.1.symm, .nil, hidle.2, rfl, rfl⟩, ?_, ?_, ?_⟩
      (locked hphase rfl)
    · exact hsorted.sublist (List.filter_sublist.map _)
    · intro n hn
      simpa using List.mem_filter.mp hn
    · intro n hn
      by_cases hv : n.version ∈ s.db.appliedVersions
      · exact .inl hv
      · exact .inr (List.mem_filter.mpr ⟨hn, by simpa using hv⟩)
  | apply hm hphase ran => exact h.apply hm hphase ran
  | @inspect i m result hm hphase =>
    have hfits := h.fits i m hm
    simp only [Fits, hphase] at hfits
    obtain ⟨available, hfiles, hjorb, hup, -, -, hcover⟩ := hfits
    refine h.stay hm ⟨available, ⟨hfiles, hjorb, fun n hn => (hcover n hn).resolve_right ?_⟩, hup,
      fun e he => ?_⟩ (locked hphase rfl)
    · exact List.not_mem_nil
    · exact repairs_statement he
  | repair hm hphase ran => exact h.repair hm hphase ran
  | @repaired i m result hm hphase =>
    have hfits := h.fits i m hm
    simp only [Fits, hphase] at hfits
    obtain ⟨available, hsettled, hup, -⟩ := hfits
    refine h.stay hm ?_ (locked hphase rfl)
    rintro r ⟨⟩
    exact ⟨available, hsettled, .inl hup⟩
  | @unlock i m result hm hphase =>
    have hfits := h.fits i m hm
    simp only [Fits, hphase] at hfits
    exact h.move hm rfl h.ledger hfits (fun j _ => apart_refl _ _ j)
      (.inl (locked hphase rfl)) nofun

end Orderly

namespace FleetRun

variable {u : Text.Digits} {run : Sql → Catalog → Option Catalog}

/-- The packages' SQL does what a migrator relies on, and no operator makes or drops the job
table by hand. -/
def Sane (ρ : FleetRun u run) : Prop :=
  ∀ n < ρ.length, (∀ p, ρ.act n = .call p → p.Sound run) ∧
    ∀ c, ρ.act n = .alter c → c.hasJorb = (ρ.state n).db.catalog.hasJorb

theorem orderly {ρ : FleetRun u run} {start : SchemaDb} (hρ : ρ.state 0 = .init start)
    (hsane : ρ.Sane) : ∀ n ≤ ρ.length, Orderly u run start (ρ.state n) :=
  @Run.invariant_of _ _ _ ρ _
    (fun s a => (∀ p, a = .call p → p.Sound run) ∧
      ∀ c, a = .alter c → c.hasJorb = s.db.catalog.hasJorb)
    hsane (hρ ▸ .init start) fun h hok hstep => h.turn (Fleet.step_turn hstep) hok.1 hok.2

end FleetRun

/-- A package whose SQL is given by its effect. -/
abbrev Effect := Catalog → Option Catalog

def perform (sql : Effect) (c : Catalog) : Option Catalog := sql c

def shippedBase : Effect := fun c =>
  if c.hasJorb then none
  else some { c with
    tables := c.tables ++ [("jorb", ["id"])]
    indexes := c.indexes ++ ["jorb_tags_idx"]
    triggers := c.triggers ++ ["jorb_done_notify"] }

def shipped : Package Effect where
  files :=
    [("README.md", fun _ => none), ("001_views.sql", fun c => some { c with views := ["v"] })]
  baseSchema := some shippedBase
  statements := [⟨.index, "jorb_tags_idx", fun c =>
      some { c with indexes := c.indexes ++ ["jorb_tags_idx"] }⟩,
    ⟨.trigger, "jorb_done_notify", fun c =>
      some { c with triggers := c.triggers ++ ["jorb_done_notify"] }⟩]
  manifest := ⟨[("jorb", ["id"])], [], [], ["jorb_tags_idx"], [], ["jorb_done_notify"]⟩

theorem shipped_sound : shipped.Sound perform where
  installs := by
    rintro sql c c' ⟨⟩ h
    simp only [perform, shippedBase] at h
    split at h
    · cases h
    · cases h
      simp [Catalog.hasJorb]
  migrates := by
    intro f hf c c' h hjorb
    simp only [shipped, List.mem_cons, List.not_mem_nil, or_false] at hf
    rcases hf with rfl | rfl <;> cases h
    exact hjorb
  creates := by
    intro st hst c c' h hjorb
    simp only [shipped, List.mem_cons, List.not_mem_nil, or_false] at hst
    rcases hst with rfl | rfl <;> cases h <;> exact hjorb

/-- The whole of one call. -/
def fullCall (i steps : Nat) : List (FleetAct Effect) := List.replicate steps (.advance i true)

theorem shipped_sane {start : SchemaDb} {acts : List (FleetAct Effect)}
    (h : (exec (Fleet.step .latin1 perform) (.init start) acts).isSome)
    (hacts : ∀ a ∈ acts, (∀ p, a = .call p → p = shipped) ∧ ∀ c, a ≠ .alter c) :
    FleetRun.Sane (.ofList (.init start) acts h : FleetRun .latin1 perform) := by
  intro n hn
  obtain ⟨hcall, halter⟩ := hacts _ (Run.ofList_act_mem (h := h) hn)
  exact ⟨fun p hp => hcall p hp ▸ shipped_sound, fun c hc => absurd hc (halter c)⟩

/-- Whatever hosts call the runner, when, with which revisions of the package and wherever
they crash: one call at a time is past the lock, the base schema is installed at most once
and never over a job table, and a migration's SQL is committed at most once, never one that
was recorded before or that an install has recorded. -/
theorem migrate_once {u : Text.Digits} {run : Sql → Catalog → Option Catalog} (ρ : FleetRun u run)
    {start : SchemaDb} (hρ : ρ.state 0 = .init start) (hsane : ρ.Sane) :
    ∀ n ≤ ρ.length,
      (∀ i j : Nat, ∀ mi mj : Migrator Sql, (ρ.state n).migrators[i]? = some mi →
        (ρ.state n).migrators[j]? = some mj → mi.phase.locked → mj.phase.locked → i = j) ∧
      (installs (ρ.state n).log).length ≤ 1 ∧
      (start.catalog.hasJorb → installs (ρ.state n).log = []) ∧
      (executed (ρ.state n).log).Nodup ∧
      (∀ v ∈ executed (ρ.state n).log,
        v ∉ start.appliedVersions ∧ v ∈ (ρ.state n).db.appliedVersions) ∧
      ∀ e ∈ installs (ρ.state n).log, ∀ v ∈ e.2,
        v ∉ executed (ρ.state n).log ∧ v ∈ (ρ.state n).db.appliedVersions := by
  intro n hn
  have h := FleetRun.orderly hρ hsane n hn
  refine ⟨fun i j mi mj hi hj hli hlj => ?_, h.ledger.base, h.ledger.untouched, h.ledger.once,
    fun v hv => (h.ledger.fresh v hv).symm, fun e he v hv => (h.ledger.stamped e he v hv).symm⟩
  exact Option.some.inj ((h.holder i mi hi hli).symm.trans (h.holder j mj hj hlj))

/-- Two hosts race on an empty database, and the first is lost with its install committed. -/
def raceActs : List (FleetAct Effect) :=
  [.call shipped, .call shipped] ++ fullCall 0 4 ++ [.crash 0] ++ fullCall 1 7

def emptyDb : SchemaDb := ⟨⟨[], [], [], [], [], []⟩, none⟩

def raceRun : FleetRun .latin1 perform := .ofList (.init emptyDb) raceActs (by decide)

theorem migrate_once_race :
    installs (raceRun.state 14).log = [(0, [1])] ∧ (raceRun.state 14).holder = none ∧
      (executed (raceRun.state 14).log).Nodup ∧ (installs (raceRun.state 14).log).length ≤ 1 := by
  have hsane : raceRun.Sane := shipped_sane _ (by
    simp [raceActs, fullCall, or_imp, forall_and])
  have h := migrate_once raceRun rfl hsane 14 (by decide)
  exact ⟨by decide, by decide, h.2.2.2.1, h.2.1⟩

theorem Settled.pending {u : Text.Digits} {db : SchemaDb} {p : Package Sql}
    {available : List (Migration Sql)} (h : Settled u db p available) :
    db.pending available = [] := by
  rw [SchemaDb.pending, if_pos h.jorb, List.filter_eq_nil_iff]
  intro v hv
  obtain ⟨n, hn, rfl⟩ := List.mem_map.mp hv
  simpa using h.recorded n hn

/-- A call that returned has left nothing of its package pending, then and ever after, and its
result is the account of its own transactions: the versions whose SQL it committed, in
ascending order, or the base schema with every version recorded and none run. -/
theorem migrate_settles {u : Text.Digits} {run : Sql → Catalog → Option Catalog}
    (ρ : FleetRun u run) {start : SchemaDb} (hρ : ρ.state 0 = .init start) (hsane : ρ.Sane) :
    ∀ n ≤ ρ.length, ∀ i m r, (ρ.state n).migrators[i]? = some m → m.phase = .returned (some r) →
      ∃ available, availableMigrations u m.package = some available ∧
        (ρ.state n).db.catalog.hasJorb ∧ (ρ.state n).db.pending available = [] ∧
        r.applied = executedBy i (ρ.state n).log ∧ r.applied.Pairwise (· < ·) ∧
        (r.installedBase ↔ ∃ e ∈ installs (ρ.state n).log, e.1 = i) ∧
        r.recorded = if r.installedBase then available.map Migration.version else [] := by
  intro n hn i m r hm hphase
  have hfits := (FleetRun.orderly hρ hsane n hn).fits i m hm
  simp only [Fits, hphase] at hfits
  obtain ⟨available, hsettled, hresult⟩ := hfits r rfl
  refine ⟨available, hsettled.files, hsettled.jorb, hsettled.pending, ?_⟩
  rcases hresult with h | h
  · refine ⟨h.applied, h.sorted, ⟨fun hb => ?_,
      fun ⟨e, he, hi⟩ => absurd hi (h.noInstall e he)⟩, ?_⟩
    · rw [h.installedBase] at hb
      cases hb
    · rw [h.installedBase, h.recorded]
      rfl
  · refine ⟨h.applied.trans h.none.symm, h.applied ▸ .nil,
      ⟨fun _ => ⟨_, h.installed, rfl⟩, fun _ => h.installedBase⟩, ?_⟩
    rw [h.installedBase, h.recorded]
    rfl

/-- A database of the revision before, which has lost a trigger. -/
def olderDb : SchemaDb := ⟨⟨[("jorb", ["id"])], [], [], ["jorb_tags_idx"], [], []⟩, none⟩

def upgradeActs : List (FleetAct Effect) := .call shipped :: fullCall 0 9

def upgradeRun : FleetRun .latin1 perform := .ofList (.init olderDb) upgradeActs (by decide)

theorem migrate_settles_upgrade : ∃ available,
    availableMigrations .latin1 shipped = some available ∧
    (upgradeRun.state 10).db.pending available = [] ∧
      executedBy 0 (upgradeRun.state 10).log = [1] := by
  have hsane : upgradeRun.Sane := shipped_sane _ (by
    simp [upgradeActs, fullCall])
  obtain ⟨available, hfiles, -, hpending, -⟩ :=
    migrate_settles upgradeRun rfl hsane 10 (by decide) 0 ⟨shipped, _⟩ _ rfl rfl
  exact ⟨available, hfiles, hpending, by decide⟩

/-- The base schema's statement for an index or a trigger makes just that. -/
def Package.Creates (run : Sql → Catalog → Option Catalog) (p : Package Sql) : Prop :=
  ∀ st ∈ p.statements, ∀ c c', run st.sql c = some c' →
    (st.kind = .index → c' = { c with indexes := c.indexes ++ [st.name] }) ∧
      (st.kind = .trigger → c' = { c with triggers := c.triggers ++ [st.name] })

section

variable {man : Manifest} {c : Catalog} {e : Drift}

theorem mem_drift : e ∈ drift man c ↔
    (∃ t ∈ man.columns, e ∈ Manifest.tableDrift c t) ∨
      (∃ v ∈ man.views, v ∉ c.views ∧ ⟨.view, v⟩ = e) ∨
      (∃ f ∈ man.functions, f ∉ c.functions ∧ ⟨.function, f⟩ = e) ∨
      (∃ i ∈ man.indexes, i ∉ c.indexes ∧ ⟨.index, i⟩ = e) ∨
      (∃ d ∈ man.enumLabels, e ∈ Manifest.enumDrift c d) ∨
      ∃ t ∈ man.triggers, t ∉ c.triggers ∧ ⟨.trigger, t⟩ = e := by
  simp [drift, missingObjects, missingTriggers, (List.perm_insertionSort _ _).mem_iff, and_assoc,
    or_assoc]

theorem kind_of_mem_tableDrift {t : String × List String} (h : e ∈ Manifest.tableDrift c t) :
    e.kind = .table ∨ e.kind = .column := by
  unfold Manifest.tableDrift at h
  split at h
  · exact .inl (List.mem_singleton.mp h ▸ rfl)
  · obtain ⟨_, -, rfl⟩ := List.mem_map.mp h
    exact .inr rfl

theorem kind_of_mem_enumDrift {d : String × List String} (h : e ∈ Manifest.enumDrift c d) :
    e.kind = .enum := by
  obtain ⟨_, -, rfl⟩ := List.mem_map.mp h
  rfl

theorem drift_create_index {name : String}
    (h : e ∈ drift man { c with indexes := c.indexes ++ [name] }) :
    e ∈ drift man c ∧ e ≠ ⟨.index, name⟩ := by
  rcases mem_drift.mp h with ⟨t, ht, h⟩ | h | h | ⟨i, hi, hnot, rfl⟩ | ⟨d, hd, h⟩ | h
  · refine ⟨mem_drift.mpr (.inl ⟨t, ht, h⟩), fun he => ?_⟩
    rcases kind_of_mem_tableDrift h with hk | hk <;> rw [he] at hk <;> cases hk
  · refine ⟨mem_drift.mpr (.inr (.inl h)), ?_⟩
    obtain ⟨_, -, -, rfl⟩ := h
    simp
  · refine ⟨mem_drift.mpr (.inr (.inr (.inl h))), ?_⟩
    obtain ⟨_, -, -, rfl⟩ := h
    simp
  · simp only [List.mem_append, List.mem_singleton, not_or] at hnot
    refine ⟨mem_drift.mpr (.inr (.inr (.inr (.inl ⟨i, hi, hnot.1, rfl⟩)))), ?_⟩
    simpa using hnot.2
  · refine ⟨mem_drift.mpr (.inr (.inr (.inr (.inr (.inl ⟨d, hd, h⟩))))), fun he => ?_⟩
    have hk := kind_of_mem_enumDrift h
    rw [he] at hk
    cases hk
  · refine ⟨mem_drift.mpr (.inr (.inr (.inr (.inr (.inr h))))), ?_⟩
    obtain ⟨_, -, -, rfl⟩ := h
    simp

theorem drift_create_trigger {name : String}
    (h : e ∈ drift man { c with triggers := c.triggers ++ [name] }) :
    e ∈ drift man c ∧ e ≠ ⟨.trigger, name⟩ := by
  rcases mem_drift.mp h with ⟨t, ht, h⟩ | h | h | h | ⟨d, hd, h⟩ | ⟨t, ht, hnot, rfl⟩
  · refine ⟨mem_drift.mpr (.inl ⟨t, ht, h⟩), fun he => ?_⟩
    rcases kind_of_mem_tableDrift h with hk | hk <;> rw [he] at hk <;> cases hk
  · refine ⟨mem_drift.mpr (.inr (.inl h)), ?_⟩
    obtain ⟨_, -, -, rfl⟩ := h
    simp
  · refine ⟨mem_drift.mpr (.inr (.inr (.inl h))), ?_⟩
    obtain ⟨_, -, -, rfl⟩ := h
    simp
  · refine ⟨mem_drift.mpr (.inr (.inr (.inr (.inl h)))), ?_⟩
    obtain ⟨_, -, -, rfl⟩ := h
    simp
  · refine ⟨mem_drift.mpr (.inr (.inr (.inr (.inr (.inl ⟨d, hd, h⟩))))), fun he => ?_⟩
    have hk := kind_of_mem_enumDrift h
    rw [he] at hk
    cases hk
  · simp only [List.mem_append, List.mem_singleton, not_or] at hnot
    refine ⟨mem_drift.mpr (.inr (.inr (.inr (.inr (.inr ⟨t, ht, hnot.1, rfl⟩))))), ?_⟩
    simpa using hnot.2

end

/-- Some of the drift is deeper than what the base schema's own statements can bring back,
and nothing of it was touched. -/
def Wrecked (p : Package Sql) (c : Catalog) (r : MigrationResult) : Prop :=
  r.repaired = [] ∧ ∃ d ∈ drift p.manifest c, canonicalCreateStatement p d = none

/-- How far the repair of a call has come. -/
def Mends (c : Catalog) (m : Migrator Sql) : Prop :=
  match m.phase with
  | .applying _ r => r.repaired = []
  | .repairing todo r => (∀ e ∈ todo, canonicalCreateStatement m.package e.1 = some e.2) ∧
      ((∀ d ∈ drift m.package.manifest c, d ∈ todo.map Prod.fst) ∨
        todo = [] ∧ Wrecked m.package c r)
  | .unlocking (some r) =>
      r.installedBase = false → drift m.package.manifest c = [] ∨ Wrecked m.package c r
  | _ => True

theorem mends_inspect {p : Package Sql} {c : Catalog} {r : MigrationResult} (hr : r.repaired = []) :
    Mends c ⟨p, .repairing (repairs p c) r⟩ := by
  unfold Mends repairs
  cases hm : (drift p.manifest c).mapM fun d => (canonicalCreateStatement p d).map (d, ·) with
  | none =>
    obtain ⟨d, hd, hnone⟩ := Lists.exists_of_mapM_eq_none hm
    exact ⟨fun e he => absurd he List.not_mem_nil,
      .inr ⟨rfl, hr, d, hd, Option.map_eq_none_iff.mp hnone⟩⟩
  | some es =>
    refine ⟨fun e he => ?_, .inl fun d hd => ?_⟩
    · obtain ⟨d, -, hde⟩ := Lists.mem_of_mapM_eq_some hm he
      obtain ⟨sql, hsql, rfl⟩ := Option.map_eq_some_iff.mp hde
      exact hsql
    · obtain ⟨e, he, hde⟩ := Lists.mapM_cover hm hd
      obtain ⟨sql, -, rfl⟩ := Option.map_eq_some_iff.mp hde
      exact List.mem_map.mpr ⟨_, he, rfl⟩

theorem mends_repair {run : Sql → Catalog → Option Catalog} {p : Package Sql} (hp : p.Creates run)
    {c c' : Catalog} {next : Drift × Sql} {todo : List (Drift × Sql)} {r r' : MigrationResult}
    (h : Mends c ⟨p, .repairing (next :: todo) r⟩) (ran : run next.2 c = some c') :
    Mends c' ⟨p, .repairing todo r'⟩ := by
  obtain ⟨hstatements, hcover | ⟨hnil, -⟩⟩ := h
  · obtain ⟨hnext, htodo⟩ := List.forall_mem_cons.mp hstatements
    refine ⟨htodo, .inl fun d hd => ?_⟩
    have hmade : d ∈ drift p.manifest c ∧ d ≠ next.1 := by
      unfold canonicalCreateStatement at hnext
      split at hnext
      · rename_i hkind
        obtain ⟨st, hst, hsql⟩ := Option.map_eq_some_iff.mp hnext
        have hfound := List.find?_some hst
        simp only [Bool.and_eq_true, decide_eq_true_eq] at hfound
        obtain ⟨hindex, htrigger⟩ := hp st (List.mem_of_find?_eq_some hst) c c' (hsql ▸ ran)
        have hname : next.1 = ⟨st.kind, st.name⟩ := by rw [hfound.1, hfound.2]
        rcases hkind with hkind | hkind
        · have hst := hfound.1.trans hkind
          rw [htrigger hst] at hd
          rw [hname, hst]
          exact drift_create_trigger hd
        · have hst := hfound.1.trans hkind
          rw [hindex hst] at hd
          rw [hname, hst]
          exact drift_create_index hd
      · cases hnext
    exact (List.mem_cons.mp (hcover d hmade.1)).resolve_left hmade.2
  · cases hnil

theorem mends_repaired {p : Package Sql} {c : Catalog} {r : MigrationResult}
    (h : Mends c ⟨p, .repairing [] r⟩) : Mends c ⟨p, .unlocking (some r)⟩ := by
  intro _
  obtain ⟨-, hcover | ⟨-, hwrecked⟩⟩ := h
  · exact .inl (List.eq_nil_iff_forall_not_mem.mpr
      fun d hd => absurd (hcover d hd) List.not_mem_nil)
  · exact .inr hwrecked

theorem Mends.of_unlocked {c : Catalog} {m : Migrator Sql} (h : m.phase.locked = false) :
    Mends c m := by
  unfold Mends
  cases hphase : m.phase <;> first | trivial | simp [hphase, Phase.locked] at h

/-- The calls one after another: the repair of each is the repair of what it found. -/
structure Mending (u : Text.Digits) (run : Sql → Catalog → Option Catalog) (start : SchemaDb)
    (s : Fleet Sql) : Prop extends Orderly u run start s where
  creates : ∀ m ∈ s.migrators, m.package.Creates run
  mends : ∀ (i : Nat) (m : Migrator Sql), s.migrators[i]? = some m → Mends s.db.catalog m

namespace Mending

variable {u : Text.Digits} {run : Sql → Catalog → Option Catalog} {start : SchemaDb}
  {s s' : Fleet Sql}

theorem move (h : Mending u run start s) (ho : Orderly u run start s') {i : Nat} {m : Migrator Sql}
    (hm : s.migrators[i]? = some m) {phase : Phase Sql}
    (hmig : s'.migrators = s.migrators.set i { m with phase })
    (hself : Mends s'.db.catalog { m with phase })
    (halone : m.phase.locked ∨ s'.db.catalog = s.db.catalog) : Mending u run start s' where
  toOrderly := ho
  creates n hn := by
    rw [hmig] at hn
    rcases List.mem_or_eq_of_mem_set hn with hn | rfl
    · exact h.creates n hn
    · exact h.creates m (List.mem_of_getElem? hm)
  mends j n hn := by
    have hi : i < s.migrators.length := (List.getElem?_eq_some_iff.mp hm).1
    rw [hmig] at hn
    by_cases hij : j = i
    · rw [hij, List.getElem?_set_self hi] at hn
      exact Option.some.inj hn ▸ hself
    · rw [List.getElem?_set_ne (Ne.symm hij)] at hn
      rcases halone with hlocked | hsame
      · refine .of_unlocked (Bool.eq_false_iff.mpr fun hl => hij ?_)
        exact Option.some.inj ((h.holder j n hn hl).symm.trans (h.holder i m hm hlocked))
      · exact hsame ▸ h.mends j n hn

theorem turn (h : Mending u run start s) {a : FleetAct Sql} (ht : Turn u run s a s')
    (hcall : ∀ p, a = .call p → p.Sound run ∧ p.Creates run) (halter : ∀ c, a ≠ .alter c) :
    Mending u run start s' := by
  have ho : Orderly u run start s' :=
    h.toOrderly.turn ht (fun p hp => (hcall p hp).1) fun c hc => absurd hc (halter c)
  have locked {m : Migrator Sql} {p : Phase Sql} (hp : m.phase = p)
      (hl : p.locked) : m.phase.locked := hp ▸ hl
  cases ht with
  | call p =>
    refine ⟨ho, fun n hn => ?_, fun j n hn => ?_⟩
    · rcases List.mem_append.mp hn with hn | hn
      · exact h.creates n hn
      · rw [List.mem_singleton.mp hn]
        exact (hcall p rfl).2
    · rcases Lists.getElem?_concat hn with hn | ⟨-, rfl⟩
      · exact h.mends j n hn
      · trivial
  | alter c => exact absurd rfl (halter c)
  | fail hm => exact h.move ho hm rfl trivial (.inr rfl)
  | crash hm => exact h.move ho hm rfl trivial (.inr rfl)
  | lock hm => exact h.move ho hm rfl trivial (.inr rfl)
  | track hm => exact h.move ho hm rfl trivial (.inr rfl)
  | check hm =>
    refine h.move ho hm rfl ?_ (.inr rfl)
    unfold Mends
    split <;> first | trivial | (rename_i hphase; revert hphase; split <;> rintro ⟨⟩)
  | install hm hphase =>
    exact h.move ho hm rfl (fun hb => nomatch hb) (.inl (locked hphase rfl))
  | read hm => exact h.move ho hm rfl rfl (.inr rfl)
  | @apply i m next todo result _ hm hphase =>
    have hmends := h.mends _ _ hm
    simp only [Mends, hphase] at hmends
    exact h.move ho hm rfl hmends (.inl (locked hphase rfl))
  | @inspect i m result hm hphase =>
    have hmends := h.mends _ _ hm
    simp only [Mends, hphase] at hmends
    exact h.move ho hm rfl (mends_inspect hmends) (.inr rfl)
  | @repair i m _ _ _ _ hm hphase ran =>
    have hmends := h.mends _ _ hm
    rw [show m = ⟨m.package, m.phase⟩ from rfl, hphase] at hmends
    exact h.move ho hm rfl (mends_repair (h.creates m (List.mem_of_getElem? hm)) hmends ran)
      (.inl (locked hphase rfl))
  | @repaired i m _ hm hphase =>
    have hmends := h.mends _ _ hm
    rw [show m = ⟨m.package, m.phase⟩ from rfl, hphase] at hmends
    exact h.move ho hm rfl (mends_repaired hmends) (.inr rfl)
  | unlock hm => exact h.move ho hm rfl trivial (.inr rfl)

end Mending

/-- Without an operator's own DDL, a call that found the job table and comes to its end has
brought back all that was missing, or found something deeper missing and touched nothing. -/
theorem migrate_repairs {u : Text.Digits} {run : Sql → Catalog → Option Catalog}
    (ρ : FleetRun u run) {start : SchemaDb} (hρ : ρ.state 0 = .init start)
    (hcall : ∀ n < ρ.length, ∀ p, ρ.act n = .call p → p.Sound run ∧ p.Creates run)
    (halter : ∀ n < ρ.length, ∀ c, ρ.act n ≠ .alter c) :
    ∀ n ≤ ρ.length, ∀ i : Nat, ∀ m r, (ρ.state n).migrators[i]? = some m →
      m.phase = .unlocking (some r) → r.installedBase = false →
      drift m.package.manifest (ρ.state n).db.catalog = [] ∨
        Wrecked m.package (ρ.state n).db.catalog r := by
  intro n hn i m r hm hphase hbase
  have hinit : Mending u run start (ρ.state 0) := by
    rw [hρ]
    exact ⟨.init start, fun m hm => absurd hm List.not_mem_nil,
      fun i m hm => by simp [Fleet.init] at hm⟩
  have h := @Run.invariant_of _ _ _ ρ _
    (fun _ a => (∀ p, a = .call p → p.Sound run ∧ p.Creates run) ∧ ∀ c, a ≠ .alter c)
    (fun m hm => ⟨hcall m hm, halter m hm⟩) hinit
    (fun h hok hstep => h.turn (Fleet.step_turn hstep) hok.1 hok.2) n hn
  have hmends := h.mends i m hm
  simp only [Mends, hphase] at hmends
  exact hmends hbase

theorem shipped_creates : shipped.Creates perform := by
  intro st hst c c' h
  simp only [shipped, List.mem_cons, List.not_mem_nil, or_false] at hst
  rcases hst with rfl | rfl <;> cases h <;> constructor <;> rintro ⟨⟩ <;> rfl

theorem migrate_repairs_upgrade :
    drift shipped.manifest olderDb.catalog = [⟨.trigger, "jorb_done_notify"⟩] ∧
      (drift shipped.manifest (upgradeRun.state 9).db.catalog = [] ∨
        Wrecked shipped (upgradeRun.state 9).db.catalog
          ⟨false, [1], [], [⟨.trigger, "jorb_done_notify"⟩]⟩) := by
  have hacts : ∀ a ∈ upgradeActs, (∀ p, a = .call p → p = shipped) ∧ ∀ c, a ≠ .alter c := by
    simp [upgradeActs, fullCall]
  refine ⟨by decide, migrate_repairs upgradeRun rfl (fun n hn p hp => ?_)
    (fun n hn => (hacts _ (Run.ofList_act_mem hn)).2) 9 (by decide) 0 ⟨shipped, _⟩ _ rfl rfl rfl⟩
  obtain rfl := (hacts _ (Run.ofList_act_mem hn)).1 p hp
  exact ⟨shipped_sound, shipped_creates⟩

end Pyjobby.Migrations
