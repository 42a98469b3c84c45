import AccountSync.Settings
import AccountSync.Text.Decimal
import AccountSync.Text.Utf8
/-!
Settings from the environment: each of six variables gives one setting in place of its default. A
variable whose bytes are no text counts as absent.
-/

namespace AccountSync

/-- The variables of a process, as bytes. -/
abbrev Environment := List (String × Bytes)

namespace Environment

/-- The text of a variable. -/
def text? (env : Environment) (name : String) : Option String :=
  (env.lookup name).bind fun bs => (Utf8.decode bs).toOption

/-- What a variable gives, if it is there. -/
def read {α : Type} (env : Environment) (name : String) (read : String → Except String α) :
    Except SettingsFault (Option α) :=
  match env.text? name with
  | none => .ok none
  | some s =>
    match read s with
    | .ok a => .ok (some a)
    | .error reason => .error (.badVariable name reason)

end Environment

namespace Settings

def readNumber (bound : Nat) (s : String) : Except String Nat :=
  (Decimal.read bound s).mapError Decimal.Fault.message

def readDuration (s : String) : Except String Duration :=
  (Duration.read s).mapError Duration.Fault.message

def readFlag (s : String) : Except String Bool :=
  if s = "true" then .ok true
  else if s = "false" then .ok false
  else .error "provided string was not `true` or `false`"

/-- The settings that an environment gives. -/
def ofEnvironment (env : Environment) : Except SettingsFault Settings := do
  let default : Settings := {}
  let path := (env.text? "CONFSYNC_STORE_DB_PATH").getD default.path
  let connections ← env.read "CONFSYNC_STORE_POOL_SIZE" (readNumber UInt32.size)
  let limit ← env.read "CONFSYNC_SYNC_MAX_MESSAGE_SIZE" (readNumber UInt64.size)
  let timeout ← env.read "CONFSYNC_SYNC_REQUEST_TIMEOUT" readDuration
  let level := (env.text? "CONFSYNC_LOG_LEVEL").getD default.level
  let json ← env.read "CONFSYNC_LOG_JSON" readFlag
  checked {
    path
    connections := (connections.map UInt32.ofNat).getD default.connections
    limit := (limit.map UInt64.ofNat).getD default.limit
    timeout := timeout.getD default.timeout
    level
    json := json.getD default.json }

end Settings

end AccountSync
