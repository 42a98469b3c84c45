import AccountSync.Layout
import AccountSync.Store.Migration
/-!
The file of a database. A file of one byte at most is a database without tables; any other begins
with a signature.
-/

namespace AccountSync.Database

open Layout (Codec)

/-- What the file of a database begins with. -/
def signature : Bytes := Utf8.encode "config dumps\n" ++ [0xff]

def flagCodec : Codec Bool := .oneOf [false, true]

def rowCodec : Codec (RowKey × RowData) :=
  (Codec.pair (.pair .text .text) (.pair .bytes .int)).via
    (fun p => (⟨p.1.1, p.1.2⟩, ⟨p.2.1, p.2.2⟩))
    fun r => ((r.1.account, r.1.tag), (r.2.data, r.2.time))

def tableCodec : Codec DumpTable :=
  (Codec.pair (.pair flagCodec flagCodec) (.list rowCodec)).via
    (fun p => ⟨p.1.1, p.1.2, .ofList p.2⟩)
    fun t => ((t.timed, t.checked), t.rows.toList)

def codec : Codec Database :=
  (Codec.pair (.option tableCodec) (.option (.list .int))).via (fun p => ⟨p.1, p.2⟩)
    fun db => (db.table, db.versions)

/-- The bytes of a database's file. -/
def image (db : Database) : Bytes := signature ++ codec.put db

def notDatabase : Failure := .storage "file is not a database"

/-- The database in a file. -/
def ofImage (bs : Bytes) : Except Failure Database :=
  if bs.length ≤ 1 then .ok .empty
  else if bs.take signature.length = signature then
    match codec.read (bs.drop signature.length) with
    | .ok db => .ok db
    | .error _ => .error notDatabase
  else .error notDatabase

end AccountSync.Database
