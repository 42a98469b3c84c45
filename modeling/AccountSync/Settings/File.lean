import AccountSync.Files
import AccountSync.Settings
import AccountSync.Text.Utf8
import AccountSync.Toml.Grammar
/-!
The settings file: three tables, `store`, `sync` and `logging`. All settings have to be there; what
else the file holds is left alone. A table may be given as a list of its values in order.
-/

namespace AccountSync

namespace Settings

open Toml (Item Fields)

/-! ### Reading -/

/-- The named fields of a table; of a list, as many items as there are names. -/
def parts (names : List String) : Item → Option (List Item)
  | .table _ fields => names.mapM fun name => fields.lookup name
  | .array items => if names.length ≤ items.length then some (items.take names.length) else none
  | _ => none

def asText : Item → Option String
  | .text s => some s
  | _ => none

/-- A whole number below a bound. -/
def asNumber (bound : Nat) : Item → Option Nat
  | .whole i => if 0 ≤ i ∧ i < bound then some i.toNat else none
  | _ => none

def asFlag : Item → Option Bool
  | .boolean b => some b
  | _ => none

def asDuration (item : Item) : Option Duration := do
  (Duration.read (← asText item)).toOption

def storeNames : List String := ["db_path", "pool_size"]
def syncNames : List String := ["max_message_size", "request_timeout"]
def loggingNames : List String := ["level", "json_format", "with_target"]

/-- The settings in the fields of a document. -/
def ofFields (fields : Fields) : Option Settings := do
  let [path, connections] ← parts storeNames (← fields.lookup "store") | none
  let [limit, timeout] ← parts syncNames (← fields.lookup "sync") | none
  let [level, json, targets] ← parts loggingNames (← fields.lookup "logging") | none
  return {
    path := ← asText path
    connections := .ofNat (← asNumber UInt32.size connections)
    limit := .ofNat (← asNumber UInt64.size limit)
    timeout := ← asDuration timeout
    level := ← asText level
    json := ← asFlag json
    targets := ← asFlag targets }

/-- The settings in the text of a file. -/
def ofText (file : String) (text : String) : Except SettingsFault Settings :=
  match (Fields.read text).bind ofFields with
  | some s => s.checked
  | none => .error (.malformed file)

/-- The settings in a file: its bytes, or why there are none. -/
def ofFile (file : String) (content : Except String Bytes) : Except SettingsFault Settings :=
  match content with
  | .error reason => .error (.unreadable file reason)
  | .ok bytes =>
    match Utf8.decode bytes with
    | .error _ => .error (.unreadable file "stream did not contain valid UTF-8")
    | .ok text => ofText file text

/-- Reads a settings file. -/
def load {m : Type → Type} [Monad m] (fs : FileSystem m) (file : String) :
    m (Except SettingsFault Settings) := do
  let content ← fs.read file
  return ofFile file (content.mapError FileFault.message)

/-! ### Writing -/

/-- A table of a settings file. -/
def tableText (name : String) (fields : List (String × String)) : String :=
  s!"[{name}]\n" ++ String.join (fields.map fun (key, value) => s!"{key} = {value}\n")

def flagText (b : Bool) : String := if b then "true" else "false"

/-- The text of the settings file. Whole numbers in it have 63 bits. -/
def text (s : Settings) : Except SettingsFault String :=
  if s.limit.toNat < UInt64.size / 2 then
    .ok ("\n".intercalate
      [tableText "store" [("db_path", Toml.Literal.write s.path),
          ("pool_size", toString s.connections.toNat)],
        tableText "sync" [("max_message_size", toString s.limit.toNat),
          ("request_timeout", Toml.Literal.write s.timeout.text)],
        tableText "logging" [("level", Toml.Literal.write s.level),
          ("json_format", flagText s.json), ("with_target", flagText s.targets)]])
  else .error .unwritten

/-- Writes a settings file. Settings that it cannot hold leave it as it was. -/
def save {m : Type → Type} [Monad m] (fs : FileSystem m) (file : String) (s : Settings) :
    m (Except SettingsFault Unit) := do
  match s.text with
  | .error fault => return .error fault
  | .ok text =>
    let written ← fs.write file (Utf8.encode text)
    return written.mapError fun fault => .unwritable file fault.message

end Settings

end AccountSync
