import AccountSync.Toml.Scan
/-!
Texts in their four written forms: in double quotes with escapes, in single quotes as they are, and
each of these as a block of lines between triple quotes.
-/

namespace AccountSync.Toml.Literal

/-- A character that may stand for itself: no control but the tab. -/
def isPlain (c : Char) : Bool := c == '\t' || (0x20 ≤ c.toNat && c.toNat != 0x7f)

def single : Char := '\x27'

/-! ### Reading -/

/-- What the letter after a backslash stands for. -/
def escape? : Char → Option Char
  | 'b' => some '\x08'
  | 't' => some '\t'
  | 'n' => some '\n'
  | 'f' => some '\x0c'
  | 'r' => some '\r'
  | '"' => some '"'
  | '\\' => some '\\'
  | _ => none

def hexDigit? (c : Char) : Option Nat :=
  if c.isDigit then some (c.toNat - 48)
  else if 'a' ≤ c ∧ c ≤ 'f' then some (c.toNat - 87)
  else if 'A' ≤ c ∧ c ≤ 'F' then some (c.toNat - 55)
  else none

/-- The character of a code point. -/
def char? (n : Nat) : Option Char := if n.isValidChar then some (Char.ofNat n) else none

/-- Where a reader of a text with escapes is. -/
inductive Mode where
  | plain
  /-- After a backslash. -/
  | escaped
  /-- In a code point of which `left` digits are missing. -/
  | code (left value : Nat)
  /-- After a backslash at the end of a line: blanks and line ends are left out. -/
  | skipping
  deriving DecidableEq, Repr

/-- What the character after a backslash begins or stands for. -/
def afterBackslash (c : Char) : Option (Mode ⊕ Char) :=
  if c = 'u' then some (.inl (.code 4 0))
  else if c = 'U' then some (.inl (.code 8 0))
  else (escape? c).map .inr

/-- What one more digit makes of a code point. -/
def moreCode (left value : Nat) (c : Char) : Option (Mode ⊕ Char) := do
  let value := value * 16 + (← hexDigit? c)
  if left ≤ 1 then (char? value).map .inr else some (.inl (.code (left - 1) value))

/-- A text with escapes up to its closing quote, and what follows that; `before` was read already
(last first). -/
def basic (mode : Mode) (before : List Char) : List Char → Option (List Char × List Char)
  | [] => none
  | c :: rest =>
    match mode with
    | .escaped =>
      match afterBackslash c with
      | some (.inl mode) => basic mode before rest
      | some (.inr e) => basic .plain (e :: before) rest
      | none => none
    | .code left value =>
      match moreCode left value c with
      | some (.inl mode) => basic mode before rest
      | some (.inr e) => basic .plain (e :: before) rest
      | none => none
    | .plain | .skipping =>
      if c = '"' then some (before.reverse, rest)
      else if c = '\\' then basic .escaped before rest
      else if isPlain c then basic .plain (c :: before) rest
      else none

/-- A text as it is up to its closing quote, and what follows that. -/
def raw (before : List Char) : List Char → Option (List Char × List Char)
  | [] => none
  | c :: rest =>
    if c = single then some (before.reverse, rest)
    else if isPlain c then raw (c :: before) rest
    else none

/-- The closing quotes of a block; up to two more right before them belong to the text. -/
def closing? (quote : Char) (cs : List Char) : Option (List Char × List Char) :=
  let run := (cs.take 5).takeWhile (· == quote)
  if 3 ≤ run.length then some (run.drop 3, cs.drop run.length) else none

/-- The line ends here. -/
def endsLine : List Char → Bool
  | '\n' :: _ => true
  | '\r' :: '\n' :: _ => true
  | _ => false

def isGap (c : Char) : Bool := c == ' ' || c == '\t'

/-- A block with escapes up to its closing quotes, and what follows them. -/
def basicBlock (mode : Mode) (before : List Char) : List Char → Option (List Char × List Char)
  | [] => none
  | c :: rest =>
    match mode with
    | .escaped =>
      match afterBackslash c with
      | some (.inl mode) => basicBlock mode before rest
      | some (.inr e) => basicBlock .plain (e :: before) rest
      | none => none
    | .code left value =>
      match moreCode left value c with
      | some (.inl mode) => basicBlock mode before rest
      | some (.inr e) => basicBlock .plain (e :: before) rest
      | none => none
    | .plain | .skipping =>
      if mode = .skipping ∧ (isGap c ∨ endsLine (c :: rest)) then basicBlock .skipping before rest
      else match closing? '"' (c :: rest) with
        | some (last, rest) => some (before.reverse ++ last, rest)
        | none =>
          if c = '\\' then
            basicBlock (if endsLine (rest.dropWhile isGap) then .skipping else .escaped) before rest
          else if c = '\r' then
            if endsLine (c :: rest) then basicBlock .plain before rest else none
          else if c = '\n' ∨ isPlain c then basicBlock .plain (c :: before) rest
          else none

/-- A block as it is up to its closing quotes, and what follows them. -/
def rawBlock (before : List Char) : List Char → Option (List Char × List Char)
  | [] => none
  | c :: rest =>
    match closing? single (c :: rest) with
    | some (last, rest) => some (before.reverse ++ last, rest)
    | none =>
      if c = '\r' then if endsLine (c :: rest) then rawBlock before rest else none
      else if c = '\n' ∨ isPlain c then rawBlock (c :: before) rest
      else none

/-- A block without the line end right after its opening quotes. -/
def afterOpening (cs : List Char) : List Char :=
  match cs with
  | '\n' :: rest => rest
  | '\r' :: '\n' :: rest => rest
  | _ => cs

/-- The characters of a text on one line. -/
def lineChars : List Char → Option (List Char × List Char)
  | c :: rest =>
    if c = '"' then basic .plain [] rest
    else if c = single then raw [] rest
    else none
  | [] => none

/-- The characters of a text in any of the forms. -/
def chars : List Char → Option (List Char × List Char)
  | a :: b :: c :: rest =>
    if a = b ∧ b = c ∧ (a = '"' ∨ a = single) then
      let body := afterOpening rest
      if a = '"' then basicBlock .plain [] body else rawBlock [] body
    else lineChars (a :: b :: c :: rest)
  | cs => lineChars cs

/-- A text on one line. -/
def line : Scan String := String.ofList <$> Scan.ahead lineChars

/-- A text in any of the forms. -/
def read : Scan String := String.ofList <$> Scan.ahead chars

/-! ### Writing -/

inductive Form where
  | basic
  | raw
  | basicBlock
  | rawBlock
  deriving DecidableEq, Repr

/-- The greatest number of quotes that stand in a row. -/
def longestRun (quote : Char) (cs : List Char) : Nat :=
  (cs.foldl (fun (longest, run) c =>
    let run := if c == quote then run + 1 else 0
    (max longest run, run)) (0, 0)).1

/-- A control that only an escape can show. -/
def isControl (c : Char) : Bool := !isPlain c && c != '\n'

/-- The form that shows a text as plainly as can be: without escapes if any form does. -/
def form (cs : List Char) : Form :=
  let control := cs.any isControl
  let lines := cs.contains '\n'
  let escapes := control || cs.contains '\\'
  let doubles := longestRun '"' cs
  let singles := longestRun single cs
  if !escapes && doubles = 0 && !lines then .basic
  else if !control && singles = 0 && !lines then .raw
  else if !escapes && doubles ≤ 2 then .basicBlock
  else if !control && singles ≤ 2 then .rawBlock
  else if lines then .basicBlock
  else .basic

def hexDigit (n : Nat) : Char := if n < 10 then Char.ofNat (48 + n) else Char.ofNat (55 + n)

/-- A code point below 65536 as an escape. -/
def codeEscape (n : Nat) : List Char :=
  ['\\', 'u', hexDigit (n / 4096 % 16), hexDigit (n / 256 % 16), hexDigit (n / 16 % 16),
    hexDigit (n % 16)]

/-- A character in a text with escapes. -/
def escaped (block : Bool) (c : Char) : List Char :=
  if c = '\x08' then ['\\', 'b']
  else if c = '\t' then ['\\', 't']
  else if c = '\n' then if block then ['\n'] else ['\\', 'n']
  else if c = '\x0c' then ['\\', 'f']
  else if c = '\r' then ['\\', 'r']
  else if c = '\\' then ['\\', '\\']
  else if isControl c then codeEscape c.toNat
  else [c]

/-- A text with escapes; of quotes in a row, each after `allowed` others is escaped. -/
def escapedAll (block : Bool) (allowed run : Nat) : List Char → List Char
  | [] => []
  | c :: rest =>
    if c = '"' then
      if run < allowed then '"' :: escapedAll block allowed (run + 1) rest
      else '\\' :: '"' :: escapedAll block allowed 0 rest
    else escaped block c ++ escapedAll block allowed 0 rest

def triple (c : Char) : List Char := [c, c, c]

/-- A text in a form. A block with several lines begins on a line of its own. -/
def writeAs (form : Form) (cs : List Char) : List Char :=
  let start := if cs.contains '\n' then ['\n'] else []
  match form with
  | .basic => '"' :: escapedAll false 0 0 cs ++ ['"']
  | .raw => single :: cs ++ [single]
  | .basicBlock => triple '"' ++ start ++ escapedAll true 2 0 cs ++ triple '"'
  | .rawBlock => triple single ++ start ++ cs ++ triple single

/-- The written form of a text. -/
def write (s : String) : String :=
  let cs := s.toList
  String.ofList (writeAs (form cs) cs)

end AccountSync.Toml.Literal
