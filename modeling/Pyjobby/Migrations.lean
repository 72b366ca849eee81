import Mathlib.Data.List.Sort
import Pyjobby.Lib.Lists
import Pyjobby.Lib.Run
import Pyjobby.Lib.Text

/-! The migration runner. Any number of hosts call it on one database, each with the
files of its own package; a session level lock spans the transactions of a call, and a
session can be lost between any two of them. -/

namespace Pyjobby.Migrations

open Transition

structure Catalog where
  tables : List (String × List String)
  views : List String
  functions : List String
  indexes : List String
  triggers : List String
  enums : List (String × List String)

/-- `to_regclass('public.jorb')` -/
def Catalog.hasJorb (c : Catalog) : Bool := c.tables.any fun t => t.1 = "jorb"

/-- The required shape. -/
structure Manifest where
  columns : List (String × List String)
  views : List String
  functions : List String
  indexes : List String
  enumLabels : List (String × List String)
  triggers : List String

inductive ObjectKind where
  | table
  | column
  | view
  | function
  | index
  | enum
  | trigger
  deriving DecidableEq

def ObjectKind.text : ObjectKind → String
  | table => "table"
  | column => "column"
  | view => "view"
  | function => "function"
  | index => "index"
  | enum => "enum"
  | trigger => "trigger"

/-- A "kind name" entry. -/
structure Drift where
  kind : ObjectKind
  name : String
  deriving DecidableEq

def Drift.text (d : Drift) : String := d.kind.text ++ " " ++ d.name

def Manifest.tableDrift (c : Catalog) (t : String × List String) : List Drift :=
  match c.tables.find? fun u => u.1 = t.1 with
  | none => [⟨.table, t.1⟩]
  | some present =>
    (t.2.filter (· ∉ present.2)).map fun column => ⟨.column, t.1 ++ "." ++ column⟩

def Manifest.enumDrift (c : Catalog) (e : String × List String) : List Drift :=
  (e.2.filter fun label => !c.enums.any fun d => d.1 = e.1 && label ∈ d.2).map fun label =>
    ⟨.enum, e.1 ++ "." ++ label⟩

def missingObjects (m : Manifest) (c : Catalog) : List Drift :=
  (m.columns.flatMap (Manifest.tableDrift c) ++
    (m.views.filter (· ∉ c.views)).map (Drift.mk .view) ++
    (m.functions.filter (· ∉ c.functions)).map (Drift.mk .function) ++
    (m.indexes.filter (· ∉ c.indexes)).map (Drift.mk .index) ++
    m.enumLabels.flatMap (Manifest.enumDrift c)).insertionSort fun d e => d.text ≤ e.text

def missingTriggers (m : Manifest) (c : Catalog) : List String :=
  m.triggers.filter (· ∉ c.triggers)

/-- What `_repair_drift` finds. -/
def drift (m : Manifest) (c : Catalog) : List Drift :=
  missingObjects m c ++ (missingTriggers m c).map (Drift.mk .trigger)

section

variable {Sql : Type}

structure Migration (Sql : Type) where
  version : Nat
  name : String
  sql : Sql

/-- A `CREATE` statement of the base schema. -/
structure CreateStatement (Sql : Type) where
  kind : ObjectKind
  name : String
  sql : Sql

/-- What one revision of the package ships. -/
structure Package (Sql : Type) where
  files : List (String × Sql)
  baseSchema : Option Sql
  statements : List (CreateStatement Sql)
  manifest : Manifest

/-- The digits that `_MIGRATION_NAME` captures: `^(\d+)_.+\.sql$`, where the dot matches
anything but a newline and the end may be before one. -/
def migrationPrefix (u : Text.Digits) (name : String) : Option (List Char) :=
  let (digits, rest) := name.toList.span fun c => (u.decimal c).isSome
  match rest with
  | '_' :: rest =>
    let rest := if rest.getLast? = some '\n' then rest.dropLast else rest
    if digits ≠ [] ∧ '\n' ∉ rest ∧ ".sql".toList <:+ rest ∧ ".sql".length < rest.length then
      some digits
    else none
  | _ => none

/-- The migration files, ordered by version; `none` is a raise: a number that `int` does
not convert, or two files that share one. -/
def availableMigrations (u : Text.Digits) (p : Package Sql) : Option (List (Migration Sql)) := do
  let named := p.files.filterMap fun f => (migrationPrefix u f.1).map fun digits => (digits, f)
  let migrations ← named.mapM fun (digits, f) => (u.int digits).map (⟨·, f.1, f.2⟩)
  let migrations := migrations.insertionSort fun m n => m.version ≤ n.version
  if (migrations.map Migration.version).Nodup then some migrations else none

/-- The base schema's own statement for a trigger or an index. -/
def canonicalCreateStatement (p : Package Sql) (d : Drift) : Option Sql :=
  if d.kind = .trigger ∨ d.kind = .index then
    (p.statements.find? fun s => s.kind = d.kind && s.name = d.name).map CreateStatement.sql
  else none

/-- The statements `_repair_drift` runs: all that is missing, or nothing. -/
def repairs (p : Package Sql) (c : Catalog) : List (Drift × Sql) :=
  ((drift p.manifest c).mapM fun d => (canonicalCreateStatement p d).map (d, ·)).getD []

structure MigrationResult where
  installedBase : Bool
  applied : List Nat
  recorded : List Nat
  repaired : List Drift

def MigrationResult.nothing : MigrationResult := ⟨false, [], [], []⟩

def MigrationResult.changed (r : MigrationResult) : Bool :=
  r.installedBase || r.applied ≠ [] || r.repaired ≠ []

/-- The catalog and `schema_migrations`, once that table exists. -/
structure SchemaDb where
  catalog : Catalog
  tracking : Option (List (Nat × String))

namespace SchemaDb

def appliedVersions (db : SchemaDb) : List Nat := (db.tracking.getD []).map Prod.fst

/-- `_record`: `ON CONFLICT (version) DO NOTHING`. -/
def record (db : SchemaDb) (m : Migration Sql) : SchemaDb :=
  if m.version ∈ db.appliedVersions then db
  else { db with tracking := some (db.tracking.getD [] ++ [(m.version, m.name)]) }

/-- `status(conn)["pending"]` -/
def pending (db : SchemaDb) (available : List (Migration Sql)) : List Nat :=
  if db.catalog.hasJorb then
    (available.map Migration.version).filter (· ∉ db.appliedVersions)
  else []

end SchemaDb

/-- Where a call of `migrate` stands; a `none` to unlock with is an exception. -/
inductive Phase (Sql : Type) where
  | locking
  | tracking
  | checking (available : List (Migration Sql))
  | installing (available : List (Migration Sql))
  | reading (available : List (Migration Sql))
  | applying (todo : List (Migration Sql)) (result : MigrationResult)
  | repairing (todo : List (Drift × Sql)) (result : MigrationResult)
  | unlocking (result : Option MigrationResult)
  | returned (result : Option MigrationResult)
  | lost

/-- The phases from the lock to the unlock. -/
def Phase.locked : Phase Sql → Bool
  | locking | returned _ | lost => false
  | _ => true

/-- The phases in which an exception is the call's own: an unlock that fails has lost its
session. -/
def Phase.fallible : Phase Sql → Bool
  | unlocking _ => false
  | p => p.locked

structure Migrator (Sql : Type) where
  package : Package Sql
  phase : Phase Sql

inductive LogEntry where
  | installed (session : Nat) (versions : List Nat)
  | applied (session version : Nat)

/-- The database, the session that holds the lock, the calls so far and the transactions
they have committed. -/
structure Fleet (Sql : Type) where
  db : SchemaDb
  holder : Option Nat
  migrators : List (Migrator Sql)
  log : List LogEntry

/-- `alter` is an operator's own DDL; an `advance` that is not `ok` is a statement that
fails for a reason of its own. -/
inductive FleetAct (Sql : Type) where
  | call (p : Package Sql)
  | advance (session : Nat) (ok : Bool)
  | crash (session : Nat)
  | alter (c : Catalog)

namespace Fleet

def init (db : SchemaDb) : Fleet Sql := ⟨db, none, [], []⟩

def setPhase (s : Fleet Sql) (i : Nat) (m : Migrator Sql) (phase : Phase Sql) : Fleet Sql :=
  { s with migrators := s.migrators.set i { m with phase } }

/-- The exception that goes to the `finally`. -/
def fail (s : Fleet Sql) (i : Nat) (m : Migrator Sql) : Fleet Sql :=
  s.setPhase i m (.unlocking none)

variable (u : Text.Digits) (run : Sql → Catalog → Option Catalog)

/-- The transaction that installs the base schema and records every migration. -/
def install (s : Fleet Sql) (i : Nat) (m : Migrator Sql) (available : List (Migration Sql)) :
    Fleet Sql :=
  match m.package.baseSchema.bind (run · s.db.catalog) with
  | none => s.fail i m
  | some catalog =>
    let versions := available.map Migration.version
    { s.setPhase i m (.unlocking (some { MigrationResult.nothing with
        installedBase := true, recorded := versions })) with
      db := available.foldl SchemaDb.record { s.db with catalog }
      log := s.log ++ [.installed i versions] }

/-- The transaction of one migration file. -/
def apply (s : Fleet Sql) (i : Nat) (m : Migrator Sql) (next : Migration Sql)
    (todo : List (Migration Sql)) (result : MigrationResult) : Fleet Sql :=
  match run next.sql s.db.catalog with
  | none => s.fail i m
  | some catalog =>
    { s.setPhase i m
        (.applying todo { result with applied := result.applied ++ [next.version] }) with
      db := { s.db with catalog }.record next
      log := s.log ++ [.applied i next.version] }

def repair (s : Fleet Sql) (i : Nat) (m : Migrator Sql) (next : Drift × Sql)
    (todo : List (Drift × Sql)) (result : MigrationResult) : Fleet Sql :=
  match run next.2 s.db.catalog with
  | none => s.fail i m
  | some catalog =>
    { s.setPhase i m (.repairing todo { result with repaired := result.repaired ++ [next.1] }) with
      db := { s.db with catalog } }

/-- One statement or one transaction of a call. -/
def advance (s : Fleet Sql) (i : Nat) (m : Migrator Sql) : Option (Fleet Sql) :=
  match m.phase with
  | .locking =>
    if s.holder = none then some { s.setPhase i m .tracking with holder := some i } else none
  | .tracking =>
    match availableMigrations u m.package with
    | none => some (s.fail i m)
    | some available =>
      some { s.setPhase i m (.checking available) with
        db := { s.db with tracking := some (s.db.tracking.getD []) } }
  | .checking available =>
    some (s.setPhase i m
      (if s.db.catalog.hasJorb then .reading available else .installing available))
  | .installing available => some (s.install run i m available)
  | .reading available =>
    some (s.setPhase i m (.applying (available.filter fun n => n.version ∉ s.db.appliedVersions)
      .nothing))
  | .applying [] result => some (s.setPhase i m
      (.repairing (repairs m.package s.db.catalog) result))
  | .applying (next :: todo) result => some (s.apply run i m next todo result)
  | .repairing [] result => some (s.setPhase i m (.unlocking (some result)))
  | .repairing (next :: todo) result => some (s.repair run i m next todo result)
  | .unlocking result => some { s.setPhase i m (.returned result) with holder := none }
  | .returned _ | .lost => none

/-- A session that ends releases its lock. -/
def crash (s : Fleet Sql) (i : Nat) (m : Migrator Sql) : Fleet Sql :=
  { s.setPhase i m .lost with holder := if m.phase.locked then none else s.holder }

def step (s : Fleet Sql) : FleetAct Sql → Option (Fleet Sql)
  | .call p => some { s with migrators := s.migrators ++ [⟨p, .locking⟩] }
  | .advance i ok =>
    s.migrators[i]?.bind fun m =>
      if ok then s.advance u run i m else if m.phase.fallible then some (s.fail i m) else none
  | .crash i => s.migrators[i]?.map (s.crash i)
  | .alter c => some { s with db := { s.db with catalog := c } }

end Fleet

instance : Inhabited (FleetAct Sql) := ⟨.crash 0⟩

abbrev FleetRun (u : Text.Digits) (run : Sql → Catalog → Option Catalog) := Run (Fleet.step u run)

section Versions

variable {db : SchemaDb}

theorem SchemaDb.mem_record {m : Migration Sql} {v : Nat} :
    v ∈ (db.record m).appliedVersions ↔ v ∈ db.appliedVersions ∨ v = m.version := by
  unfold SchemaDb.record
  split
  · rename_i h
    constructor
    · exact .inl
    · rintro (hv | rfl)
      · exact hv
      · exact h
  · simp [SchemaDb.appliedVersions]

theorem SchemaDb.mem_foldl_record {ms : List (Migration Sql)} {v : Nat} :
    v ∈ (ms.foldl SchemaDb.record db).appliedVersions ↔
      v ∈ db.appliedVersions ∨ ∃ m ∈ ms, m.version = v := by
  induction ms generalizing db with
  | nil => simp
  | cons m ms ih =>
    rw [List.foldl_cons, ih, SchemaDb.mem_record]
    simp [or_assoc, eq_comm]

theorem SchemaDb.record_catalog (m : Migration Sql) : (db.record m).catalog = db.catalog := by
  unfold SchemaDb.record
  split <;> rfl

theorem SchemaDb.foldl_record_catalog (ms : List (Migration Sql)) :
    (ms.foldl SchemaDb.record db).catalog = db.catalog := by
  induction ms generalizing db with
  | nil => rfl
  | cons m ms ih => rw [List.foldl_cons, ih, SchemaDb.record_catalog]

theorem availableMigrations_sorted {u : Text.Digits} {p : Package Sql}
    {available : List (Migration Sql)} (h : availableMigrations u p = some available) :
    (available.map Migration.version).Pairwise (· < ·) := by
  simp only [availableMigrations, Option.bind_eq_bind, Option.bind_eq_some_iff] at h
  obtain ⟨ms, -, h⟩ := h
  split at h
  · rename_i hnd
    cases h
    have hle : (ms.insertionSort fun m n => m.version ≤ n.version).Pairwise
        fun m n => m.version ≤ n.version := List.pairwise_insertionSort _ _
    exact (List.pairwise_map.mpr hle).imp₂ (fun _ _ => Nat.lt_of_le_of_ne) hnd
  · cases h

theorem availableMigrations_files {u : Text.Digits} {p : Package Sql}
    {available : List (Migration Sql)} (h : availableMigrations u p = some available)
    {n : Migration Sql} (hn : n ∈ available) : ∃ f ∈ p.files, f.2 = n.sql := by
  simp only [availableMigrations, Option.bind_eq_bind, Option.bind_eq_some_iff] at h
  obtain ⟨ms, hms, h⟩ := h
  split at h
  · cases h
    have hmem : n ∈ ms := (List.perm_insertionSort _ _).mem_iff.mp hn
    obtain ⟨named, hnamed, hof⟩ := Lists.mem_of_mapM_eq_some hms hmem
    obtain ⟨v, -, rfl⟩ := Option.map_eq_some_iff.mp hof
    obtain ⟨f, hf, hprefix⟩ := List.mem_filterMap.mp hnamed
    obtain ⟨digits, -, rfl⟩ := Option.map_eq_some_iff.mp hprefix
    exact ⟨f, hf, rfl⟩
  · cases h

end Versions

/-- What a migrator relies on in the SQL it ships: the base schema brings the job table, and
nothing else drops it. -/
structure Package.Sound (run : Sql → Catalog → Option Catalog) (p : Package Sql) : Prop where
  installs : ∀ sql c c', p.baseSchema = some sql → run sql c = some c' → c'.hasJorb
  migrates : ∀ f ∈ p.files, ∀ c c', run f.2 c = some c' → c.hasJorb → c'.hasJorb
  creates : ∀ st ∈ p.statements, ∀ c c', run st.sql c = some c' → c.hasJorb → c'.hasJorb

/-- What one act does to the fleet. -/
inductive Turn (u : Text.Digits) (run : Sql → Catalog → Option Catalog) (s : Fleet Sql) :
    FleetAct Sql → Fleet Sql → Prop where
  | call (p : Package Sql) : Turn u run s (.call p)
      { s with migrators := s.migrators ++ [⟨p, .locking⟩] }
  | alter (c : Catalog) : Turn u run s (.alter c) { s with db := { s.db with catalog := c } }
  | fail {i : Nat} {m : Migrator Sql} {ok : Bool} (mem : s.migrators[i]? = some m)
      (phase : m.phase.locked) : Turn u run s (.advance i ok) (s.fail i m)
  | crash {i : Nat} {m : Migrator Sql} (mem : s.migrators[i]? = some m) :
      Turn u run s (.crash i) (s.crash i m)
  | lock {i : Nat} {m : Migrator Sql} (mem : s.migrators[i]? = some m) (phase : m.phase = .locking)
      (free : s.holder = none) :
      Turn u run s (.advance i true) { s.setPhase i m .tracking with holder := some i }
  | track {i : Nat} {m : Migrator Sql} {available : List (Migration Sql)}
      (mem : s.migrators[i]? = some m) (phase : m.phase = .tracking)
      (files : availableMigrations u m.package = some available) :
      Turn u run s (.advance i true) { s.setPhase i m (.checking available) with
        db := { s.db with tracking := some (s.db.tracking.getD []) } }
  | check {i : Nat} {m : Migrator Sql} {available : List (Migration Sql)}
      (mem : s.migrators[i]? = some m) (phase : m.phase = .checking available) :
      Turn u run s (.advance i true) (s.setPhase i m
        (if s.db.catalog.hasJorb then .reading available else .installing available))
  | install {i : Nat} {m : Migrator Sql} {available : List (Migration Sql)} {sql : Sql}
      {catalog : Catalog} (mem : s.migrators[i]? = some m) (phase : m.phase = .installing available)
      (base : m.package.baseSchema = some sql) (ran : run sql s.db.catalog = some catalog) :
      Turn u run s (.advance i true)
        { s.setPhase i m (.unlocking (some { MigrationResult.nothing with
            installedBase := true, recorded := available.map Migration.version })) with
          db := available.foldl SchemaDb.record { s.db with catalog }
          log := s.log ++ [.installed i (available.map Migration.version)] }
  | read {i : Nat} {m : Migrator Sql} {available : List (Migration Sql)}
      (mem : s.migrators[i]? = some m) (phase : m.phase = .reading available) :
      Turn u run s (.advance i true) (s.setPhase i m
        (.applying (available.filter fun n => n.version ∉ s.db.appliedVersions) .nothing))
  | apply {i : Nat} {m : Migrator Sql} {next : Migration Sql} {todo : List (Migration Sql)}
      {result : MigrationResult} {catalog : Catalog} (mem : s.migrators[i]? = some m)
      (phase : m.phase = .applying (next :: todo) result)
      (ran : run next.sql s.db.catalog = some catalog) :
      Turn u run s (.advance i true)
        { s.setPhase i m (.applying todo
            { result with applied := result.applied ++ [next.version] }) with
          db := { s.db with catalog }.record next
          log := s.log ++ [.applied i next.version] }
  | inspect {i : Nat} {m : Migrator Sql} {result : MigrationResult}
      (mem : s.migrators[i]? = some m) (phase : m.phase = .applying [] result) :
      Turn u run s (.advance i true)
        (s.setPhase i m (.repairing (repairs m.package s.db.catalog) result))
  | repair {i : Nat} {m : Migrator Sql} {next : Drift × Sql} {todo : List (Drift × Sql)}
      {result : MigrationResult} {catalog : Catalog} (mem : s.migrators[i]? = some m)
      (phase : m.phase = .repairing (next :: todo) result)
      (ran : run next.2 s.db.catalog = some catalog) :
      Turn u run s (.advance i true)
        { s.setPhase i m (.repairing todo
            { result with repaired := result.repaired ++ [next.1] }) with
          db := { s.db with catalog } }
  | repaired {i : Nat} {m : Migrator Sql} {result : MigrationResult}
      (mem : s.migrators[i]? = some m) (phase : m.phase = .repairing [] result) :
      Turn u run s (.advance i true) (s.setPhase i m (.unlocking (some result)))
  | unlock {i : Nat} {m : Migrator Sql} {result : Option MigrationResult}
      (mem : s.migrators[i]? = some m) (phase : m.phase = .unlocking result) :
      Turn u run s (.advance i true) { s.setPhase i m (.returned result) with holder := none }

theorem Phase.locked_of_fallible {p : Phase Sql} (h : p.fallible) : p.locked := by
  cases p <;> first | rfl | exact h

theorem Fleet.step_turn {u : Text.Digits} {run : Sql → Catalog → Option Catalog} {s s' : Fleet Sql}
    {a : FleetAct Sql} (h : Fleet.step u run s a = some s') : Turn u run s a s' := by
  cases a with
  | call p =>
    cases h
    exact .call p
  | alter c =>
    cases h
    exact .alter c
  | crash i =>
    obtain ⟨m, hm, rfl⟩ := Option.map_eq_some_iff.mp h
    exact .crash hm
  | advance i ok =>
    obtain ⟨m, hm, h⟩ := Option.bind_eq_some_iff.mp h
    cases ok with
    | false =>
      simp only [Bool.false_eq_true, if_false] at h
      split at h
      · rename_i hfallible
        cases h
        exact .fail hm (Phase.locked_of_fallible hfallible)
      · cases h
    | true =>
      simp only [if_true, Fleet.advance] at h
      split at h <;> rename_i hphase
      · split at h
        · rename_i hfree
          cases h
          exact .lock hm hphase hfree
        · cases h
      · split at h <;> rename_i hfiles <;> cases h
        · exact .fail hm (by rw [hphase]; rfl)
        · exact .track hm hphase hfiles
      · cases h
        exact .check hm hphase
      · simp only [Fleet.install] at h
        split at h <;> rename_i hran <;> cases h
        · exact .fail hm (by rw [hphase]; rfl)
        · obtain ⟨sql, hbase, hran⟩ := Option.bind_eq_some_iff.mp hran
          exact .install hm hphase hbase hran
      · cases h
        exact .read hm hphase
      · cases h
        exact .inspect hm hphase
      · simp only [Fleet.apply] at h
        split at h <;> rename_i hran <;> cases h
        · exact .fail hm (by rw [hphase]; rfl)
        · exact .apply hm hphase hran
      · cases h
        exact .repaired hm hphase
      · simp only [Fleet.repair] at h
        split at h <;> rename_i hran <;> cases h
        · exact .fail hm (by rw [hphase]; rfl)
        · exact .repair hm hphase hran
      · cases h
        exact .unlock hm hphase
      · cases h
      · cases h

end

end Pyjobby.Migrations
