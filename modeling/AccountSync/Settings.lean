import AccountSync.Duration
import AccountSync.Logging
/-!
The settings of the program: where dumps are stored, what the swarm takes, and what is logged. They
come with defaults, from a file or from the environment, and are checked before use.
-/

namespace AccountSync

/-- How long a call may take if no setting says so. -/
def Settings.defaultTimeout : Duration := .ofSeconds 10

structure Settings where
  /-- The address of the database. -/
  path : String := "./data/confsync.db"
  /-- How many connections to the database there may be. -/
  connections : UInt32 := 4
  /-- The length that no message may exceed. -/
  limit : UInt64 := 76800
  /-- How long a call to the swarm may take. -/
  timeout : Duration := Settings.defaultTimeout
  /-- The name of the least grave level that is logged. -/
  level : String := "info"
  /-- The log is written as JSON. -/
  json : Bool := false
  /-- Log entries say which part of the program made them. -/
  targets : Bool := true
  deriving DecidableEq

/-- Why settings cannot be had or kept. -/
inductive SettingsFault where
  | unreadable (path : String) (reason : String)
  | unwritable (path : String) (reason : String)
  | malformed (path : String)
  /-- A value that a file cannot hold. -/
  | unwritten
  /-- A variable of the environment that does not give its setting. -/
  | badVariable (name : String) (reason : String)
  /-- A value that makes no sense. -/
  | invalid (field : String) (reason : String)
  deriving DecidableEq, Repr

def SettingsFault.message : SettingsFault → String
  | unreadable path reason => s!"Cannot read {path}: {reason}"
  | unwritable path reason => s!"Cannot write {path}: {reason}"
  | malformed path => s!"Malformed configuration in {path}"
  | unwritten => "Cannot encode configuration"
  | badVariable name reason => s!"{name}: {reason}"
  | invalid field reason => s!"{field}: {reason}"

/-- The cause behind a fault, if it has one of its own. -/
def SettingsFault.cause? : SettingsFault → Option String
  | unreadable _ reason | unwritable _ reason => some reason
  | _ => none

namespace Settings

/-- The names that a level may have here. -/
def levels : List String := Level.all.map Level.name

/-- Checks the settings one after the other; the first that makes no sense is reported. -/
def check (s : Settings) : Except SettingsFault Unit :=
  if s.connections = 0 then .error (.invalid "store.pool_size" "must be greater than 0")
  else if s.limit = 0 then .error (.invalid "sync.max_message_size" "must be greater than 0")
  else if s.timeout.isZero then
    .error (.invalid "sync.request_timeout" "must be greater than 0")
  else if !levels.contains (lowercase s.level) then
    .error (.invalid "logging.level" s!"unknown level {quoted s.level}")
  else .ok ()

/-- The settings, if they make sense. -/
def checked (s : Settings) : Except SettingsFault Settings := do
  s.check
  return s

/-- What the log is to show. -/
def log (s : Settings) : Except SettingsFault Log :=
  match Level.read s.level with
  | .ok level => .ok { level, targets := s.targets, json := s.json }
  | .error fault => .error (.invalid "logging.level" fault.message)

end Settings

end AccountSync
