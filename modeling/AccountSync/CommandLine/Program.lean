import AccountSync.CommandLine.Answer
import AccountSync.CommandLine.Arguments
import AccountSync.Device.Edit
import AccountSync.Device.Load
import AccountSync.Device.Status
import AccountSync.Settings.File
import AccountSync.Store.Address
import AccountSync.Store.Image
import AccountSync.Text.Hex
/-!
The program: it looks into a database of dumps and edits it. Each call reads the settings, opens the
database, loads the account as far as the command needs it, and answers.
-/

namespace AccountSync

/-- Why a call fails: what went wrong, and the causes behind it, the nearest first. -/
structure Mishap where
  message : String
  causes : List String := []
  deriving DecidableEq, Repr

namespace Mishap

def ofFailure (f : Failure) : Mishap := ⟨f.message, []⟩

/-- How a trouble with the device is told. -/
def ofTrouble : Trouble → Mishap
  | .failed f => ofFailure f
  | .brokeOff text => ⟨text.getD "unknown panic", []⟩

/-- A text whose lines but the first are moved in. -/
def hanging (margin text : String) : String := ("\n" ++ margin).intercalate (text.splitOn "\n")

/-- Causes, with numbers if there are several. -/
def causeLines : List String → List String
  | [] => []
  | [cause] => ["    " ++ hanging "    " cause]
  | causes => causes.zipIdx.map fun (cause, i) => s!"    {i}: " ++ hanging "       " cause

/-- What is told of a mishap. -/
def text (m : Mishap) : String :=
  let causes := match causeLines m.causes with
    | [] => []
    | lines => ["", "Caused by:"] ++ lines
  "\n".intercalate (s!"Error: {m.message}" :: causes)

end Mishap

/-- How a call ends. -/
structure Ending where
  code : UInt32
  /-- What is printed. -/
  output : String := ""
  /-- Remarks that are told besides. -/
  remarks : List String := []
  mishap : Option Mishap := none

namespace Program

variable {m : Type → Type} [Monad m]

/-- A part of a call, which may end in a mishap. -/
abbrev Call (m : Type → Type) := ExceptT Mishap m

/-! ### Settings and database -/

def settings (fs : FileSystem m) (i : Invocation) : Call m Settings := do
  let settings ← match i.settings with
    | none => pure {}
    | some path =>
      let loaded ← (Settings.load fs path : m _)
      loaded.mapError fun fault =>
        Mishap.mk s!"loading configuration from {path}" (fault.message :: fault.cause?.toList)
  return { settings with path := i.database.getD settings.path }

def failed (f : Failure) : Mishap := .ofFailure f

/-- A database that cannot be opened. -/
def unopened (reason : String) : Mishap :=
  failed (.storage s!"Connection pool: timed out waiting for connection: {reason}")

def noFile (path : String) : Mishap := unopened s!"unable to open database file: {path}"

def notWritable : Mishap := failed (.storage "attempt to write a readonly database")

/-- A database in use: where it is kept, and what is kept there. -/
structure Opened where
  /-- The address as it was given. -/
  path : String
  address : Address
  database : Database

/-- What is in the file of a database; a file that is not there is empty, and may be made. -/
def content (fs : FileSystem m) (path : String) (a : Address) : Call m Bytes := do
  match a.file with
  | none => return []
  | some file =>
    match ← fs.read file with
    | .ok bytes => return bytes
    | .error .missing =>
      if !a.creates then throw (noFile path)
      match ← fs.write file [] with
      | .ok () => return []
      | .error _ => throw (noFile path)
    | .error _ => throw (noFile path)

/-- Keeps what has become of a database, if that is another. -/
def save (fs : FileSystem m) (o : Opened) (db : Database) : Call m Unit := do
  if db = o.database then return
  if o.address.readOnly then throw notWritable
  match o.address.file with
  | none => return
  | some file =>
    match ← fs.write file db.image with
    | .ok () => return
    | .error _ => throw (noFile o.path)

/-- Opens the database of an address, whose folder is made if it is not there. -/
def openDatabase (fs : FileSystem m) (path : String) : Call m Opened := do
  let folder := folderOf path
  if folder ≠ "" then
    if let .error fault ← fs.makeFolders folder then
      throw ⟨s!"creating {folder}", [fault.message]⟩
  match Address.ofText path with
  | .error fault => throw (unopened fault.message)
  | .ok address =>
    match Database.ofImage (← content fs path address) with
    | .error f => throw (failed f)
    | .ok database =>
      let (result, db) := database.migrate
      save fs { path, address, database } db
      match result with
      | .ok () => return { path, address, database := db }
      | .error f => throw (failed f)

/-! ### Accounts -/

/-- What a device of the program works with. -/
def environment (s : Settings) (account : String) (now : Int) : Env where
  engine := .plain .xchacha20Poly1305 s.limit.toNat
  identity := some account
  now := now

def seedBytes (seed : String) : Except Mishap Bytes :=
  (Hex.read seed).mapError fun fault => ⟨"seed must be hex", [fault.message]⟩

/-- Runs part of a device's work and keeps what became of the device. -/
def onDevice {α : Type} (r : Except Trouble α × Device) : Call m (α × Device) :=
  match r with
  | (.ok a, d) => return (a, d)
  | (.error t, _) => throw (.ofTrouble t)

/-- Opens the database and loads an account. -/
def account (fs : FileSystem m) (s : Settings) (account seed : String) (now : Int) :
    Call m (Opened × Device) := do
  let secret ← seedBytes seed
  let o ← openDatabase fs s.path
  let (_, d) ← onDevice (({ database := o.database : Device }).read
    (Write.load (environment s account now) account (some secret)))
  return (o, d)

/-! ### Commands -/

def statusAnswer (s : Status) : Answer :=
  .object [("hashes", .list (s.hashes.map .text)), ("needs_dump", .boolean s.unsaved),
    ("needs_push", .boolean s.needsPush), ("variant", .text s.topic.title)]

def status (fs : FileSystem m) (s : Settings) (pubkey seed : String) (now : Int) :
    Call m Answer := do
  let (_, d) ← account fs s pubkey seed now
  let (needsSync, d) ← onDevice (d.read Write.needsSync)
  let (hashes, d) ← onDevice (d.read (Write.hashes pubkey))
  let (copies, _) ← onDevice (d.read (Write.status pubkey))
  return .object [("hashes", .list (hashes.map .text)), ("needs_sync", .boolean needsSync),
    ("public_key", .text pubkey), ("variants", .list (copies.map statusAnswer))]

def dumpAnswer (d : Dump) : Answer :=
  .object [("bytes", .number d.data.length), ("timestamp_ms", .number d.time),
    ("variant", .text d.topic.tag)]

def dumps (fs : FileSystem m) (s : Settings) (pubkey : String) : Call m Answer := do
  let o ← openDatabase fs s.path
  match o.database.fetchAll pubkey with
  | .ok rows => return .list (rows.map dumpAnswer)
  | .error f => throw (failed f)

def setEntry (fs : FileSystem m) (s : Settings) (pubkey seed tag key value : String) (now : Int) :
    Call m Answer := do
  match Topic.ofTag? tag with
  | none => throw (failed (.unknownTopic tag))
  | some topic =>
    let (o, d) ← account fs s pubkey seed now
    let (changed, d) ← onDevice (d.write (Write.edit (environment s pubkey now) ⟨pubkey, topic⟩
      fun r => r.set key (Utf8.encode value)))
    save fs o d.database
    match changed with
    | none => throw ⟨s!"{tag} is not loaded for {pubkey}", []⟩
    | some changed =>
      return .object [("changed", .boolean changed), ("key", .text key), ("variant", .text tag)]

def forget (fs : FileSystem m) (s : Settings) (pubkey : String) : Call m Answer := do
  let o ← openDatabase fs s.path
  if o.address.readOnly then throw notWritable
  let device : Device := { database := o.database }
  let (removed, d) ← onDevice (device.write (Write.removeAccount pubkey))
  save fs o d.database
  return .object [("removed", .number removed)]

def answer (fs : FileSystem m) (now : Int) (i : Invocation) : Call m Answer := do
  let s ← settings fs i
  match i.command with
  | .status pubkey seed => status fs s pubkey seed now
  | .dumps pubkey => dumps fs s pubkey
  | .set pubkey seed tag key value => setEntry fs s pubkey seed tag key value now
  | .forget pubkey => forget fs s pubkey

/-! ### Calls -/

def usage : String :=
  "\n".intercalate
    ["Usage: confsync [OPTIONS] <COMMAND>",
      "",
      "Commands:",
      "  status --pubkey <PUBKEY> --seed <SEED>",
      "  dumps --pubkey <PUBKEY>",
      "  set --pubkey <PUBKEY> --seed <SEED> --variant <VARIANT> --key <KEY> --value <VALUE>",
      "  forget --pubkey <PUBKEY>",
      "",
      "Options:",
      "  -l, --log-level <LOG_LEVEL>",
      "      --json-logs",
      "      --config <CONFIG>",
      "      --db <DB>",
      "  -h, --help",
      "  -V, --version",
      ""]

def version : String := "confsync 0.1.0\n"

/-- What is told of a log level that does not exist. -/
def levelRemarks (i : Invocation) : List String :=
  match Level.read i.logLevel with
  | .ok _ => []
  | .error fault => [s!"{fault.message}, using 'warn'"]

/-- A call of the program. -/
def run (fs : FileSystem m) (now : Int) (args : List String) : m Ending := do
  match Invocation.ofArguments args with
  | .error .help => return { code := 0, output := usage }
  | .error .version => return { code := 0, output := version }
  | .error .misuse => return { code := 2, remarks := [usage] }
  | .ok i =>
    match ← (answer fs now i).run with
    | .ok a => return { code := 0, output := a.json ++ "\n", remarks := levelRemarks i }
    | .error mishap => return { code := 1, remarks := levelRemarks i, mishap }

end Program

end AccountSync
