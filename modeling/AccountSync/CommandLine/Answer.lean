/-!
The answers of the program, as JSON text: two blanks of indentation for each level, and the fields
of an object in the order given.
-/

namespace AccountSync

inductive Answer where
  | text (s : String)
  | number (i : Int)
  | boolean (b : Bool)
  | list (items : List Answer)
  | object (fields : List (String × Answer))

namespace Answer

def hexDigit (n : Nat) : Char := if n < 10 then Char.ofNat (48 + n) else Char.ofNat (87 + n)

/-- A character within quotes. -/
def escaped (c : Char) : List Char :=
  if c = '"' then ['\\', '"']
  else if c = '\\' then ['\\', '\\']
  else if c = '\x08' then ['\\', 'b']
  else if c = '\x0c' then ['\\', 'f']
  else if c = '\n' then ['\\', 'n']
  else if c = '\r' then ['\\', 'r']
  else if c = '\t' then ['\\', 't']
  else if c.toNat < 0x20 then
    ['\\', 'u', '0', '0', hexDigit (c.toNat / 16), hexDigit (c.toNat % 16)]
  else [c]

def quote (s : String) : String := String.ofList ('"' :: s.toList.flatMap escaped ++ ['"'])

def indent (depth : Nat) : String := String.ofList (List.replicate (2 * depth) ' ')

/-- Lines between brackets, one level deeper. -/
def block (left right : String) (depth : Nat) : List String → String
  | [] => left ++ right
  | lines =>
    left ++ "\n" ++ ",\n".intercalate (lines.map fun l => indent (depth + 1) ++ l) ++ "\n"
      ++ indent depth ++ right

mutual

/-- An answer at a level. -/
def write (depth : Nat) : Answer → String
  | text s => quote s
  | number i => toString i
  | boolean b => if b then "true" else "false"
  | list items => block "[" "]" depth (writeItems (depth + 1) items)
  | object fields => block "\x7b" "\x7d" depth (writeFields (depth + 1) fields)

def writeItems (depth : Nat) : List Answer → List String
  | [] => []
  | a :: rest => write depth a :: writeItems depth rest

def writeFields (depth : Nat) : List (String × Answer) → List String
  | [] => []
  | (name, a) :: rest => (quote name ++ ": " ++ write depth a) :: writeFields depth rest

end

/-- The JSON text of an answer. -/
def json (a : Answer) : String := write 0 a

end Answer

end AccountSync
