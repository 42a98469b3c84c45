import AccountSync.Bytes
import AccountSync.Failure
import AccountSync.SortedMap
/-!
The dump table: for every account and topic the last dump and when it was refreshed. The table is
one that an older version of the program, or another program, may have left behind: it may be
missing, may lack the column of times, and may hold names that no topic has.
-/

namespace AccountSync

/-- A saved copy of one topic of one account. -/
structure Dump where
  topic : Topic
  account : String
  data : Bytes
  /-- When the dump was refreshed, in milliseconds. -/
  time : Int
  deriving DecidableEq, Repr

/-- What tells the rows of the table apart. Rows of one account stand in order of their tags. -/
structure RowKey where
  account : String
  tag : String
  deriving DecidableEq, Repr

namespace RowKey

instance : Ord RowKey := ⟨compareLex (compareOn account) (compareOn tag)⟩

instance : Std.TransOrd RowKey :=
  inferInstanceAs (Std.TransCmp (compareLex (compareOn account) (compareOn tag)))

instance : Std.LawfulEqOrd RowKey where
  eq_of_compare {a b} h := by
    obtain ⟨h₁, h₂⟩ := compareLex_eq_eq.1 h
    have h₁ := Std.LawfulEqOrd.eq_of_compare (α := String) h₁
    have h₂ := Std.LawfulEqOrd.eq_of_compare (α := String) h₂
    cases a; cases b; simp_all

end RowKey

/-- What a row holds beside its key. -/
structure RowData where
  data : Bytes
  time : Int := 0
  deriving DecidableEq, Repr

structure DumpTable where
  /-- There is a column for the time. -/
  timed : Bool
  /-- Only tags of topics are let in. -/
  checked : Bool
  rows : SortedMap RowKey RowData := ∅
  deriving DecidableEq

/-- A database: the dump table, and the list of the schema versions that were applied. -/
structure Database where
  table : Option DumpTable := none
  versions : Option (List Int) := none
  deriving DecidableEq

namespace Database

/-- A database without tables. -/
def empty : Database := {}

def noTable : Failure := .storage "no such table: config_dump"
def noTime : Failure := .storage "no such column: timestamp_ms"

/-- The dump table, if there is one. -/
def anyTable (db : Database) : Except Failure DumpTable :=
  match db.table with
  | some t => .ok t
  | none => .error noTable

/-- The dump table, if it has times. -/
def timedTable (db : Database) : Except Failure DumpTable := do
  let t ← db.anyTable
  if t.timed then return t else .error noTime

/-- The rows of an account, by tag. -/
def rowsOf (t : DumpTable) (account : String) : List (String × RowData) :=
  t.rows.toList.filterMap fun (k, row) => if k.account = account then some (k.tag, row) else none

def topicOf (tag : String) : Except Failure Topic :=
  match Topic.ofTag? tag with
  | some topic => .ok topic
  | none => .error (.unknownTopic tag)

/-- All dumps of an account, by tag. -/
def fetchAll (db : Database) (account : String) : Except Failure (List Dump) := do
  let t ← db.timedTable
  (rowsOf t account).mapM fun (tag, row) => do
    return ⟨← topicOf tag, account, row.data, row.time⟩

/-- The dump of one topic. -/
def fetch (db : Database) (topic : Topic) (account : String) : Except Failure (Option Dump) := do
  let t ← db.timedTable
  return (t.rows.find? ⟨account, topic.tag⟩).map fun row => ⟨topic, account, row.data, row.time⟩

/-- The topics of which an account has a dump. -/
def topicsOf (db : Database) (account : String) : Except Failure (List Topic) := do
  let t ← db.anyTable
  let topics ← (rowsOf t account).mapM fun (tag, _) => topicOf tag
  return Topic.all.filter topics.contains

/-- Changes the rows. -/
def withRows (db : Database) (t : DumpTable) (rows : SortedMap RowKey RowData) : Database :=
  { db with table := some { t with rows } }

/-- Stores a dump in place of the one of its topic and account. -/
def upsert (db : Database) (d : Dump) : Except Failure Database := do
  let t ← db.timedTable
  return db.withRows t (t.rows.insert ⟨d.account, d.topic.tag⟩ ⟨d.data, d.time⟩)

/-- Refreshes the time of a dump; says how many rows that touched. -/
def touch (db : Database) (topic : Topic) (account : String) (time : Int) :
    Except Failure (Nat × Database) := do
  let t ← db.timedTable
  match t.rows.find? ⟨account, topic.tag⟩ with
  | none => return (0, db)
  | some row => return (1, db.withRows t (t.rows.insert ⟨account, topic.tag⟩ { row with time }))

/-- Deletes all dumps of an account; says how many there were. -/
def removeAll (db : Database) (account : String) : Except Failure (Nat × Database) := do
  let t ← db.anyTable
  return ((rowsOf t account).length, db.withRows t (t.rows.filter fun k _ => k.account != account))

/-- Adds a row with any tag, as another program may. -/
def insertRow (db : Database) (key : RowKey) (data : Bytes) : Except Failure (Nat × Database) := do
  let t ← db.anyTable
  if t.checked ∧ (Topic.ofTag? key.tag).isNone then .error (.storage "CHECK constraint failed")
  else if t.rows.contains key then .error (.storage "UNIQUE constraint failed")
  else return (1, db.withRows t (t.rows.insert key ⟨data, 0⟩))

/-- The names of the table's columns. -/
def columns (db : Database) : List String :=
  match db.table with
  | none => []
  | some t =>
    ["variant", "public_key", "data"] ++ if t.timed then ["timestamp_ms"] else []

end Database

end AccountSync
