import AccountSync.Text.Hex
import AccountSync.Text.Utf8
/-!
Where a database is. Its address is the path of a file, or begins with `file:` and gives the path
with escapes, followed by options after a question mark; what comes after `#` does not count. No
path, and the path `:memory:`, stand for a database that is gone after use.
-/

namespace AccountSync

/-- What the user of a database may do. -/
inductive Access where
  | read
  | write
  /-- Write, and make the file if it is not there. -/
  | create
  /-- Write, but not to a file. -/
  | memory
  deriving DecidableEq, Repr

/-- The place of a database, and what its user may do. -/
structure Address where
  /-- The path of the file, if there is one. -/
  file : Option String
  /-- The file is made if it is not there. -/
  creates : Bool := true
  readOnly : Bool := false
  deriving DecidableEq, Repr

namespace Address

/-- Why an address leads nowhere. -/
inductive Fault where
  /-- A zero character, at this byte. -/
  | zero (place : Nat)
  /-- The file is on another machine. -/
  | host (name : String)
  | badOption (name : String) (value : String)
  /-- An option asks for more than one before it allows. -/
  | refusedOption (name : String) (value : String)
  /-- There is no such way to use files. -/
  | badDriver (name : String)
  | tooLong
  deriving DecidableEq, Repr

def Fault.message : Fault → String
  | zero place => s!"nul byte found in provided data at position: {place}"
  | host name => s!"invalid uri authority: {name}"
  | badOption name value => s!"no such {name} mode: {value}"
  | refusedOption name value => s!"{name} mode not allowed: {value}"
  | badDriver name => s!"no such vfs: {name}"
  | tooLong => "SQL logic error"

/-! ### Paths -/

/-- One step of a path on from those before it (last first). Names are not looked up: a step back
undoes the one before it, and leads nowhere from the root. -/
def enter (absolute : Bool) (way : List String) (step : String) : List String :=
  if step = "" ∨ step = "." then way
  else if step ≠ ".." then step :: way
  else match way with
    | [] => if absolute then [] else [step]
    | last :: before => if last = ".." then step :: way else before

/-- A path in its shortest form. -/
def shortest (path : String) : String :=
  let absolute := path.startsWith "/"
  match ((path.splitOn "/").foldl (enter absolute) []).reverse with
  | [] => if absolute then "/" else "."
  | way => (if absolute then "/" else "") ++ "/".intercalate way

/-- A path with this many bytes is too long. -/
def pathLimit : Nat := 512

/-- The file of a path. -/
def fileOf (path : String) : Except Fault (Option String) :=
  if path = "" ∨ path = ":memory:" then .ok none
  else
    let file := shortest path
    if file.utf8ByteSize < pathLimit then .ok (some file) else .error .tooLong

/-! ### Escapes -/

/-- The byte that a percent sign and two digits stand for. -/
def escape? (sign high low : UInt8) : Option UInt8 := do
  if sign = 0x25 then return (← Hex.digit? high) * 16 + (← Hex.digit? low) else none

/-- Puts bytes for their escapes. An escaped zero is the end. -/
def unescaped : Bytes → Bytes
  | a :: b :: c :: rest =>
    match escape? a b c with
    | some n => if n = 0 then [] else n :: unescaped rest
    | none => a :: unescaped (b :: c :: rest)
  | bs => bs

/-- What a part with escapes says; bytes that are no text are taken one by one. -/
def plain (part : List Char) : String :=
  let bs := unescaped (Utf8.encode (String.ofList part))
  match Utf8.decode bs with
  | .ok s => s
  | .error _ => String.ofList (bs.map fun b => Char.ofNat b.toNat)

/-- What comes before a character, and what after it. -/
def cut (c : Char) (cs : List Char) : List Char × List Char :=
  (cs.takeWhile (· != c), (cs.dropWhile (· != c)).drop 1)

/-! ### Options -/

/-- The options after a question mark; those without a name do not count. -/
def options (query : List Char) : List (String × String) :=
  let given := ((String.ofList query).splitOn "&").map fun option =>
    let (name, value) := cut '=' option.toList
    (plain name, plain value)
  given.filter fun (name, _) => name ≠ ""

def access? : String → Option Access
  | "ro" => some .read
  | "rw" => some .write
  | "rwc" => some .create
  | "memory" => some .memory
  | _ => none

/-- How much an access allows. -/
def rank : Access → Nat
  | .read => 0
  | .write => 1
  | .create => 2
  | .memory => 3

/-- What one more option makes of what is allowed: it may narrow that, but not widen it. -/
def narrow (allowed : Access) (name value : String) : Except Fault Access :=
  if name = "cache" then
    if value = "shared" ∨ value = "private" then .ok allowed else .error (.badOption name value)
  else if name = "mode" then
    match access? value with
    | none => .error (.badOption "access" value)
    | some wanted =>
      if wanted = .memory ∨ rank wanted ≤ rank allowed then .ok wanted
      else .error (.refusedOption "access" value)
  else .ok allowed

/-- The ways to use files, and one that uses none. -/
def drivers : List String := ["unix", "unix-none", "unix-dotfile", "unix-excl", "memdb"]

/-- A value says yes: in a word, or by a number whose last byte is not zero. -/
def isOn (value : String) : Bool :=
  match value.toList.takeWhile Char.isDigit with
  | [] => ["on", "yes", "true"].contains (String.ofList (value.toList.map Char.toLower))
  | digits =>
    let n := digits.foldl (fun n c => n * 10 + (c.toNat - 48)) 0
    n < 0x80000000 && n % 256 != 0

/-- The address that a path and options make. -/
def ofOptions (path : String) (options : List (String × String)) : Except Fault Address := do
  let access ← options.foldlM (fun allowed (name, value) => narrow allowed name value) .create
  let driver := (options.reverse.lookup "vfs").getD "unix"
  if !drivers.contains driver then throw (.badDriver driver)
  let file ← if access = .memory ∨ driver = "memdb" then pure none else fileOf path
  let fixed := file.isSome && ((options.lookup "immutable").map isOn).getD false
  return { file, creates := access = .create, readOnly := access = .read || fixed }

/-! ### Addresses -/

/-- The address after `file:`. -/
def ofEscaped (cs : List Char) : Except Fault Address := do
  let cs ← match cs with
    | '/' :: '/' :: rest =>
      let name := String.ofList (rest.takeWhile (· != '/'))
      if name = "" ∨ name = "localhost" then pure (rest.dropWhile (· != '/'))
      else throw (.host name)
    | cs => pure cs
  let (path, query) := cut '?' (cs.takeWhile (· != '#'))
  ofOptions (plain path) (options query)

/-- The address that a text is. -/
def ofText (text : String) : Except Fault Address :=
  match (Utf8.encode text).idxOf? 0 with
  | some place => .error (.zero place)
  | none =>
    match text.toList with
    | 'f' :: 'i' :: 'l' :: 'e' :: ':' :: rest => ofEscaped rest
    | _ => do return { file := ← fileOf text }

end Address

end AccountSync
