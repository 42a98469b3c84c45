/-!
Scanners: functions that take what they want from the front of a text and leave the rest.
-/

namespace AccountSync.Toml

/-- Reads from the front of a text; absent if the text does not begin with what is wanted. The
number bounds how often a part is repeated: `run` gives the length of the text for it, and as every
turn takes a character, no repetition ends early. -/
abbrev Scan (α : Type) := ReaderT Nat (StateT (List Char) Option) α

namespace Scan

variable {α β : Type}

/-- Reads from the front of a text, and gives back the rest. -/
def run (x : Scan α) (cs : List Char) : Option (α × List Char) := x cs.length cs

/-- What a function of the text ahead makes of it. -/
def ahead (f : List Char → Option (α × List Char)) : Scan α := fun _ => f

/-- A character that passes a test. -/
def one (p : Char → Bool) : Scan Char := ahead fun
  | [] => none
  | c :: rest => if p c then some (c, rest) else none

def char (c : Char) : Scan Unit := do
  let _ ← one (· == c)

/-- A text as it stands. -/
def word (s : String) : Scan Unit := s.toList.forM char

/-- As many characters as pass a test. -/
def span (p : Char → Bool) : Scan (List Char) :=
  ahead fun cs => some (cs.takeWhile p, cs.dropWhile p)

/-- The end of the text. -/
def atEnd : Scan Unit := ahead fun
  | [] => some ((), [])
  | _ => none

def optional (x : Scan α) : Scan (Option α) := fun turns cs =>
  match x turns cs with
  | some (a, rest) => some (some a, rest)
  | none => some (none, cs)

/-- So many turns at most, after those that gave `before` (last first). -/
def repeated (x : List Char → Option (α × List Char)) (before : List α) :
    Nat → List Char → List α × List Char
  | 0, cs => (before.reverse, cs)
  | turns + 1, cs =>
    match x cs with
    | some (a, rest) => repeated x (a :: before) turns rest
    | none => (before.reverse, cs)

/-- As often as it goes. -/
def many (x : Scan α) : Scan (List α) := fun turns cs => some (repeated (x turns) [] turns cs)

/-- One or more, with something between them. -/
def separated (x : Scan α) (between : Scan β) : Scan (List α) := do
  let a ← x
  let as ← many (between *> x)
  return a :: as

end Scan

end AccountSync.Toml
