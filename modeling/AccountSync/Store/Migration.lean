import AccountSync.Store.Transaction
/-!
How a database is brought to the present schema: the migrations above its version run in order, each
in a transaction of its own that also records it.
-/

namespace AccountSync

/-- What a statement makes of a database. -/
abbrev Statement := Database → Except Failure Database

/-- A step from one version of the schema to the next. -/
structure Migration where
  version : Int
  description : String
  up : List Statement

/-- What goes wrong while a database is migrated that the database itself does not tell of: why the
`n`th statement of the migration to `version` fails, counted from 0, if it does. The disk may be full,
another table may have the name of the index, the list of versions may have columns of its own. -/
abbrev Outages := (version : Int) → (n : Nat) → Option Failure

namespace Migration

/-- Creates the dump table, unless one is there. -/
def createTable (db : Database) : Except Failure Database :=
  match db.table with
  | some _ => .ok db
  | none => .ok { db with table := some { timed := false, checked := true } }

/-- Creates an index of the accounts, which makes reading faster and changes nothing that is read. -/
def createIndex (db : Database) : Except Failure Database := do
  let _ ← db.anyTable
  return db

/-- Adds the column of times; dumps that are there get time 0. -/
def addTime (db : Database) : Except Failure Database := do
  let t ← db.anyTable
  if t.timed then .error (.storage "duplicate column name: timestamp_ms")
  else
    let rows := t.rows.mapValues fun row => { row with time := 0 }
    return { db with table := some { t with timed := true, rows } }

/-- Records a version. The list of versions holds each once. -/
def record (version : Int) (db : Database) : Except Failure Database :=
  let recorded := db.versions.getD []
  if recorded.contains version then
    .error (.storage "UNIQUE constraint failed: config_schema_version.version")
  else .ok { db with versions := some (recorded ++ [version]) }

def initial : Migration := ⟨1, "Initial config dump schema", [createTable, createIndex]⟩

def times : Migration := ⟨2, "Track when each dump was last refreshed", [addTime]⟩

/-- All migrations, in order. -/
def all : List Migration := [initial, times]

/-- The version that a migrated database has. -/
def current : Int := 2

/-- What is executed in the transaction of a migration. To commit it may fail like a statement. -/
def statements (m : Migration) : List Statement := m.up ++ [record m.version, .ok]

end Migration

namespace Database

/-- The schema version: the greatest recorded, or 0. Asking for it creates the list. -/
def version (db : Database) : Except Failure Int × Database :=
  let recorded := db.versions.getD []
  let db := { db with versions := some recorded }
  match recorded.max? with
  | none => (.ok 0, db)
  | some v =>
    if -0x80000000 ≤ v ∧ v < 0x80000000 then (.ok v, db)
    else (.error (.storage s!"Integer {v} out of range at index 0"), db)

/-- Executes statements in order up to the first that fails, which may be due to an outage. What
those before it did is kept. -/
def execute (db : Database) (statements : List Statement)
    (outage : Nat → Option Failure := fun _ => none) : Except Failure Unit × Database :=
  match statements with
  | [] => (.ok (), db)
  | s :: rest =>
    match outage 0, s db with
    | some f, _ | none, .error f => (.error f, db)
    | none, .ok db => db.execute rest fun n => outage (n + 1)

/-- Runs a migration in a transaction, which is given up if one of its statements fails. -/
def apply (db : Database) (m : Migration) (outages : Outages := fun _ _ => none) :
    Except Failure Unit × Database :=
  let (result, inside) := db.execute m.statements (outages m.version)
  let tx : Transaction Empty Empty := { database := inside }
  let close := match result with
    | .ok () => .commit
    | .error _ => .abandon
  (result, (tx.close db close).database)

/-- Runs migrations in order up to the first that fails. -/
def run (db : Database) (migrations : List Migration) (outages : Outages := fun _ _ => none) :
    Except Failure Unit × Database :=
  match migrations with
  | [] => (.ok (), db)
  | m :: rest =>
    match db.apply m outages with
    | (.error f, db) => (.error f, db)
    | (.ok (), db) => db.run rest outages

/-- Brings the schema up to date. -/
def migrate (db : Database) (outages : Outages := fun _ _ => none) :
    Except Failure Unit × Database :=
  match db.version with
  | (.error f, db) => (.error f, db)
  | (.ok v, db) => db.run (Migration.all.filter fun m => v < m.version) outages

/-- A new database of the present schema. -/
def migrated : Database :=
  { table := some { timed := true, checked := true }, versions := some [1, 2] }

theorem migrate_empty : empty.migrate = (.ok (), migrated) := by
  rfl

end Database

end AccountSync
