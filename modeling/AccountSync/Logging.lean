import AccountSync.Text.Lowercase
/-!
How much a program logs. A program has one log, which is started once.
-/

namespace AccountSync

/-- How grave a log entry is, from the least. -/
inductive Level where
  | trace
  | debug
  | info
  | warn
  | error
  deriving DecidableEq, Repr, Inhabited

namespace Level

def all : List Level := [trace, debug, info, warn, error]

def name : Level → String
  | trace => "trace"
  | debug => "debug"
  | info => "info"
  | warn => "warn"
  | error => "error"

def rank : Level → Nat
  | trace => 0
  | debug => 1
  | info => 2
  | warn => 3
  | error => 4

/-- One level is at least as grave as another. -/
def atLeast (a b : Level) : Bool := decide (b.rank ≤ a.rank)

/-- The level of a name in small letters; `warn` has a longer name too. -/
def ofName? (s : String) : Option Level :=
  if s = "warning" then some warn else all.find? fun l => l.name == s

end Level

/-- Why logging cannot start. -/
inductive LogFault where
  /-- There is no level of this name. -/
  | unknownLevel (name : String)
  /-- The log was started before. -/
  | started
  deriving DecidableEq, Repr

def LogFault.message : LogFault → String
  | unknownLevel name => s!"Invalid logging configuration: unknown log level '{name}'"
  | started =>
    "Failed to initialize logging: a global default trace dispatcher has already been set"

/-- The level that a text names, in letters of any case. -/
def Level.read (s : String) : Except LogFault Level :=
  match ofName? (lowercase s) with
  | some l => .ok l
  | none => .error (.unknownLevel (lowercase s))

/-- What a log shows. -/
structure Log where
  /-- The least grave entries that are shown. -/
  level : Level := .info
  /-- Entries say which part of the program made them. -/
  targets : Bool := true
  /-- Entries are written as JSON. -/
  json : Bool := false
  deriving DecidableEq, Repr

/-- Starts the log of a program that may have one already. -/
def Log.start (running : Option Log) (log : Log) : Except LogFault Log :=
  match running with
  | none => .ok log
  | some _ => .error .started

end AccountSync
