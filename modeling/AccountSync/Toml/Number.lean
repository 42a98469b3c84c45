import AccountSync.Toml.Scan
/-!
Numbers, dates and times. Digits of a number may have single underscores between them. No setting is
a fraction or a date, so of these only the form counts.
-/

namespace AccountSync.Toml.Number

def isDigit (c : Char) : Bool := c.isDigit
def isOctal (c : Char) : Bool := '0' ≤ c && c ≤ '7'
def isBinary (c : Char) : Bool := c == '0' || c == '1'
def isHex (c : Char) : Bool := c.isDigit || ('a' ≤ c && c ≤ 'f') || ('A' ≤ c && c ≤ 'F')

def digitValue (c : Char) : Nat :=
  if c.isDigit then c.toNat - 48 else if 'a' ≤ c then c.toNat - 87 else c.toNat - 55

/-- The number that digits write, or 64 bits' worth if that is less. -/
def value (base : Nat) (digits : List Char) : Nat :=
  digits.foldl (fun n c => min (n * base + digitValue c) UInt64.size) 0

/-- Digits, perhaps with single underscores between them. -/
def digits (p : Char → Bool) : Scan (List Char) := do
  let d ← Scan.one p
  let ds ← Scan.many (Scan.one p <|> (Scan.char '_' *> Scan.one p))
  return d :: ds

/-- A sign; whether it is a minus. -/
def sign : Scan Bool := do
  let c ← Scan.optional (Scan.one fun c => c == '+' || c == '-')
  return c == some '-'

/-- Digits without a needless zero in front. -/
def decimal : Scan (List Char) := do
  let ds ← (do return [← Scan.one (· == '0')]) <|> digits isDigit
  return ds

/-- A number that fits into 64 bits with a sign. -/
def bounded (i : Int) : Scan Int :=
  if -0x8000000000000000 ≤ i ∧ i < 0x8000000000000000 then pure i else failure

/-- A number in another base, after the mark of that base. -/
def based (mark : String) (base : Nat) (p : Char → Bool) : Scan Int := do
  Scan.word mark
  bounded (value base (← digits p))

def whole : Scan Int :=
  based "0x" 16 isHex <|> based "0o" 8 isOctal <|> based "0b" 2 isBinary <|> do
    let minus ← sign
    let n := value 10 (← decimal)
    bounded (if minus then -n else n)

/-! ### Fractions -/

/-- The place of the point, counted in powers of ten. -/
def exponent : Scan Int := do
  let _ ← Scan.one fun c => c == 'e' || c == 'E'
  let minus ← sign
  let n := value 10 (← digits isDigit)
  return if minus then -n else n

/-- The least number that rounds to infinity when 53 binary digits are kept. It is a whole number of
309 digits. -/
def infinite : Nat := Nat.pow 2 1024 - Nat.pow 2 970

/-- Digits times a power of ten are too great to be a number of 64 bits with a fraction. -/
def isHuge (digits : List Char) (power : Int) : Bool :=
  let digits := digits.dropWhile (· == '0')
  let size := digits.length + power
  if digits = [] ∨ size < 309 then false
  else if 309 < size then true
  else
    let whole := (digits.take 309).rightpad 309 '0'
    infinite ≤ whole.foldl (fun n c => n * 10 + digitValue c) 0

/-- A number with a fraction or an exponent. -/
def fraction : Scan Unit := do
  let minus ← sign
  let whole ← decimal
  let part ← Scan.optional (Scan.char '.' *> digits isDigit)
  let power ← Scan.optional exponent
  if part.isNone ∧ power.isNone then failure
  let part := part.getD []
  if !minus && isHuge (whole ++ part) (power.getD 0 - part.length) then failure

/-- Infinity, or no number. -/
def special : Scan Unit := do
  let _ ← sign
  Scan.word "inf" <|> Scan.word "nan"

/-! ### Dates and times -/

/-- A number of so many digits in a range. -/
def fixed (width low high : Nat) : Scan Nat := do
  let ds ← (List.replicate width (Scan.one isDigit)).mapM id
  let n := value 10 ds
  if low ≤ n ∧ n ≤ high then return n else failure

def daysIn (year month : Nat) : Nat :=
  if month = 2 then
    if year % 4 = 0 ∧ (year % 100 ≠ 0 ∨ year % 400 = 0) then 29 else 28
  else if month = 4 ∨ month = 6 ∨ month = 9 ∨ month = 11 then 30
  else 31

def date : Scan Unit := do
  let year ← fixed 4 0 9999
  Scan.char '-'
  let month ← fixed 2 1 12
  Scan.char '-'
  let _ ← fixed 2 1 (daysIn year month)

def minutes : Scan Unit := do
  let _ ← fixed 2 0 23
  Scan.char ':'
  let _ ← fixed 2 0 59

def time : Scan Unit := do
  minutes
  Scan.char ':'
  let _ ← fixed 2 0 60
  let _ ← Scan.optional (Scan.char '.' *> Scan.one isDigit *> Scan.span isDigit)

/-- How far a time is from the one at Greenwich. -/
def offset : Scan Unit :=
  (do let _ ← Scan.one fun c => c == 'Z' || c == 'z') <|> do
    let _ ← Scan.one fun c => c == '+' || c == '-'
    minutes

/-- A date, a time, or both. -/
def moment : Scan Unit :=
  (do
    date
    let _ ← Scan.optional do
      let _ ← Scan.one fun c => c == 'T' || c == 't' || c == ' '
      time
      Scan.optional offset) <|> time

end AccountSync.Toml.Number
