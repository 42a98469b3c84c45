import AccountSync.Toml.Document
import AccountSync.Toml.Literal
import AccountSync.Toml.Number
/-!
The grammar of documents: lines with a key and a value, headers of tables, and comments.
-/

namespace AccountSync.Toml

namespace Grammar

/-! ### Blanks -/

def gap : Scan Unit := do
  let _ ← Scan.span Literal.isGap

def newline : Scan Unit := Scan.char '\n' <|> Scan.word "\r\n"

def comment : Scan Unit := do
  Scan.char '#'
  let _ ← Scan.span Literal.isPlain

/-- What may stand at the end of a line, and its end. -/
def lineEnd : Scan Unit := do
  gap
  let _ ← Scan.optional comment
  newline <|> Scan.atEnd

/-- Blanks, line ends and comments. -/
def filling : Scan Unit := do
  let _ ← Scan.many (newline <|> (comment *> newline) <|> (do let _ ← Scan.one Literal.isGap))

/-! ### Keys -/

def isBare (c : Char) : Bool := c.isAlphanum || c == '_' || c == '-'

def bareKey : Scan String := do
  let c ← Scan.one isBare
  let cs ← Scan.span isBare
  return String.ofList (c :: cs)

/-- The greatest depth to which paths and values may go. -/
def maxDepth : Nat := 79

/-- A key, perhaps with dots. -/
def key : Scan (List String) := do
  let path ← Scan.separated (gap *> (Literal.line <|> bareKey) <* gap) (Scan.char '.')
  if path.length ≤ maxDepth then return path else failure

/-! ### Values -/

/-- A value without parts. -/
def scalar : Scan Item :=
  (do return .text (← Literal.read)) <|>
  (do Scan.word "true"; return .boolean true) <|>
  (do Scan.word "false"; return .boolean false) <|>
  (do Number.moment <|> Number.fraction <|> Number.special; return .other) <|>
  (do return .whole (← Number.whole))

/-- Values in brackets; a comma may follow the last. -/
def array (value : Scan Item) : Scan Item := do
  Scan.char '['
  let items ← Scan.optional do
    let items ← Scan.separated (filling *> value <* filling) (Scan.char ',')
    let _ ← Scan.optional (Scan.char ',')
    return items
  filling
  Scan.char ']'
  return .array (items.getD [])

def pair (value : Scan Item) : Scan (List String × Item) := do
  let path ← key
  Scan.char '='
  gap
  let item ← value
  return (path, item)

/-- Pairs in braces, on one line. -/
def inlineTable (value : Scan Item) : Scan Item := do
  Scan.char '\x7b'
  let pairs ← Scan.optional (Scan.separated (pair value <* gap) (Scan.char ','))
  gap
  Scan.char '\x7d'
  match Fields.ofPairs (pairs.getD []) with
  | some fields => return .table .inline fields
  | none => failure

/-- A value with parts down to a depth. -/
def value : Nat → Scan Item
  | 0 => scalar
  | depth + 1 => array (value depth) <|> inlineTable (value depth) <|> scalar

/-! ### Statements -/

def header : Scan Statement :=
  (do
    Scan.word "[["
    let path ← key
    Scan.word "]]"
    return .member path) <|> do
    Scan.char '['
    let path ← key
    Scan.char ']'
    return .table path

def assignment : Scan Statement := do
  let (path, item) ← pair (value maxDepth)
  return .assign path item

/-- A line, which may hold a statement. -/
def line : Scan (Option Statement) := do
  gap
  (do newline; return none) <|>
    (do comment; newline <|> Scan.atEnd; return none) <|>
    (do
      let s ← header <|> assignment
      lineEnd
      return some s)

def document : Scan (List Statement) := do
  let _ ← Scan.optional (Scan.char '\ufeff')
  let lines ← Scan.many line
  gap
  Scan.atEnd
  return lines.filterMap id

end Grammar

/-- The fields of the document that a text is. -/
def Fields.read (s : String) : Option Fields := do
  let (statements, _) ← Grammar.document.run s.toList
  Fields.ofStatements statements

end AccountSync.Toml
