/-!
The arguments of the program: options for all commands, the command, and its own options. Options
may come in any order but once only; a value follows its option as the next argument, or after `=`.
-/

namespace AccountSync

/-- What the program is asked to do. -/
inductive Command where
  /-- Report how the copies of an account stand. -/
  | status (account seed : String)
  /-- List the dumps of an account. -/
  | dumps (account : String)
  /-- Set one entry of a config. -/
  | set (account seed topic key value : String)
  /-- Delete the dumps of an account. -/
  | forget (account : String)
  deriving DecidableEq, Repr

/-- A call of the program. -/
structure Invocation where
  logLevel : String := "warn"
  jsonLogs : Bool := false
  /-- The settings file. -/
  settings : Option String := none
  /-- The address of the database, in place of the one in the settings. -/
  database : Option String := none
  command : Command
  deriving DecidableEq, Repr

/-- Why there is nothing to do. -/
inductive Refusal where
  | help
  | version
  | misuse
  deriving DecidableEq, Repr

namespace Arguments

inductive ValueKind where
  /-- No value. -/
  | flag
  | text
  /-- The name of a file, which cannot be empty. -/
  | file
  deriving DecidableEq, Repr

/-- An option. -/
structure Choice where
  name : String
  letter : Option Char := none
  kind : ValueKind := .text
  deriving DecidableEq, Repr

def general : List Choice :=
  [⟨"log-level", some 'l', .text⟩, ⟨"json-logs", none, .flag⟩, ⟨"config", none, .file⟩,
    ⟨"db", none, .file⟩, ⟨"help", some 'h', .flag⟩, ⟨"version", some 'V', .flag⟩]

/-- The options of a command that has the named values. -/
def ofCommand (names : List String) : List Choice :=
  names.map (⟨·, none, .text⟩) ++ [⟨"help", some 'h', .flag⟩]

/-- Options that were given, with their values. -/
abbrev Given := List (String × String)

/-- Notes an option. Questions about the program end everything. -/
def note (given : Given) (c : Choice) (value : String) : Except Refusal Given :=
  if c.name = "help" then .error .help
  else if c.name = "version" then .error .version
  else if (given.lookup c.name).isSome then .error .misuse
  else if c.kind = .file ∧ value = "" then .error .misuse
  else .ok (given ++ [(c.name, value)])

/-- How an argument looks. -/
inductive Shape where
  /-- Options end here. -/
  | stop
  | named (name : String) (value : Option String)
  /-- A letter and what stands right after it. -/
  | lettered (letter : Char) (rest : List Char)
  | plain
  deriving DecidableEq, Repr

def shape (arg : String) : Shape :=
  match arg.toList with
  | ['-', '-'] => .stop
  | '-' :: '-' :: cs =>
    let name := String.ofList (cs.takeWhile (· != '='))
    match cs.dropWhile (· != '=') with
    | _ :: value => .named name (some (String.ofList value))
    | [] => .named name none
  | '-' :: c :: cs => .lettered c cs
  | _ => .plain

/-- The option that an argument gives, with the value that it holds itself. What stands right after
the letter of a flag does not count. -/
def choice? (choices : List Choice) (arg : String) : Option (Choice × Option String) :=
  match shape arg with
  | .named name value => (choices.find? (·.name == name)).map (·, value)
  | .lettered letter rest => do
    let c ← choices.find? (·.letter == some letter)
    let value := match rest with
      | [] => none
      | '=' :: value => some (String.ofList value)
      | value => some (String.ofList value)
    return (c, if c.kind = .flag then none else value)
  | _ => none

/-- Reads options up to the first argument that is none, and gives back the rest from there. -/
def read (choices : List Choice) (given : Given) :
    List String → Except Refusal (Given × List String)
  | [] => .ok (given, [])
  | arg :: rest =>
    match shape arg with
    | .plain => .ok (given, arg :: rest)
    | .stop => if rest = [] then .ok (given, []) else .error .misuse
    | _ =>
      match choice? choices arg with
      | none => .error .misuse
      | some (c, some value) =>
        if c.kind = .flag then .error .misuse
        else do read choices (← note given c value) rest
      | some (c, none) =>
        if c.kind = .flag then do read choices (← note given c "") rest
        else match rest with
          | [] => .error .misuse
          | value :: rest =>
            if shape value = .plain then do read choices (← note given c value) rest
            else .error .misuse

/-- The values of a command, all of which have to be given. -/
def values (names : List String) (args : List String) : Except Refusal (List String) := do
  let (given, rest) ← read (ofCommand names) [] args
  match names.mapM (given.lookup ·) with
  | some vs => if rest = [] then return vs else .error .misuse
  | none => .error .misuse

/-- The names of a command's values. -/
def valueNames : List (String × List String) :=
  [("status", ["pubkey", "seed"]), ("dumps", ["pubkey"]),
    ("set", ["pubkey", "seed", "variant", "key", "value"]), ("forget", ["pubkey"])]

/-- The command of a name, from its values. -/
def command? : String → List String → Option Command
  | "status", [account, seed] => some (.status account seed)
  | "dumps", [account] => some (.dumps account)
  | "set", [account, seed, topic, key, value] => some (.set account seed topic key value)
  | "forget", [account] => some (.forget account)
  | _, _ => none

/-- The refusal of a question about a command, or about the program. -/
def helpOn : List String → Refusal
  | [] => .help
  | [name] => if name = "help" ∨ (valueNames.lookup name).isSome then .help else .misuse
  | _ => .misuse

end Arguments

open Arguments in
/-- The call that arguments make. -/
def Invocation.ofArguments (args : List String) : Except Refusal Invocation := do
  let (given, rest) ← read general [] args
  match rest with
  | [] => .error .misuse
  | "help" :: names => .error (helpOn names)
  | name :: args =>
    match valueNames.lookup name with
    | none => .error .misuse
    | some names =>
      match command? name (← values names args) with
      | none => .error .misuse
      | some command =>
        return {
          logLevel := (given.lookup "log-level").getD "warn"
          jsonLogs := (given.lookup "json-logs").isSome
          settings := given.lookup "config"
          database := given.lookup "db"
          command }

end AccountSync
