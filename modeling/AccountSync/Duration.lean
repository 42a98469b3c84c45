import AccountSync.Text.CharSet
import AccountSync.Text.Quoted
/-!
Spans of time, and how they are written: as amounts with units, such as `1h 30m`. An amount may have
a fraction as long as it comes to a whole number of nanoseconds, or of seconds for hours and more. A
year is 365.25 days long and a month a twelfth of that.
-/

namespace AccountSync

/-- A span of time. -/
structure Duration where
  seconds : Nat
  nanos : Nat
  seconds_lt : seconds < UInt64.size := by decide
  nanos_lt : nanos < 1000000000 := by decide
  deriving DecidableEq

namespace Duration

/-- A span of whole seconds. -/
def ofSeconds (n : Nat) (h : n < UInt64.size := by decide) : Duration := ⟨n, 0, h, by decide⟩

def zero : Duration := ofSeconds 0

/-- The span of so many seconds and nanoseconds, if it is not too long. -/
def of? (seconds nanos : Nat) : Option Duration :=
  if h : seconds + nanos / 1000000000 < UInt64.size then
    some ⟨seconds + nanos / 1000000000, nanos % 1000000000, h, Nat.mod_lt _ (by decide)⟩
  else none

def isZero (d : Duration) : Bool := d.seconds == 0 && d.nanos == 0

/-! ### Units -/

inductive TimeUnit where
  | nanosecond
  | microsecond
  | millisecond
  | second
  | minute
  | hour
  | day
  | week
  | month
  | year
  deriving DecidableEq, Repr

namespace TimeUnit

/-- The names of each unit. -/
def names : List (TimeUnit × List String) :=
  [(nanosecond, ["nanos", "nsec", "ns"]),
    (microsecond, ["usec", "us", "µs"]),
    (millisecond, ["millis", "msec", "ms"]),
    (second, ["seconds", "second", "secs", "sec", "s"]),
    (minute, ["minutes", "minute", "min", "mins", "m"]),
    (hour, ["hours", "hour", "hrs", "hr", "h"]),
    (day, ["days", "day", "d"]),
    (week, ["weeks", "week", "wk", "wks", "w"]),
    (month, ["months", "month", "M"]),
    (year, ["years", "year", "yrs", "yr", "y"])]

def ofName? (s : String) : Option TimeUnit :=
  (names.find? fun (_, l) => l.contains s).map (·.1)

/-- A unit in whole seconds, or in nanoseconds if it is shorter than a second. -/
def measure : TimeUnit → Nat × Nat
  | nanosecond => (0, 1)
  | microsecond => (0, 1000)
  | millisecond => (0, 1000000)
  | second => (1, 0)
  | minute => (60, 0)
  | hour => (3600, 0)
  | day => (86400, 0)
  | week => (604800, 0)
  | month => (2630016, 0)
  | year => (31557600, 0)

/-- What the fraction of an amount is counted in, with how many of those the unit has. -/
def fine : TimeUnit → Option (Nat × Nat)
  | nanosecond => none
  | microsecond => some (0, 1000)
  | millisecond => some (0, 1000000)
  | second => some (0, 1000000000)
  | minute => some (0, 60000000000)
  | hour => some (3600, 0)
  | day => some (86400, 0)
  | week => some (604800, 0)
  | month => some (2630016, 0)
  | year => some (31557600, 0)

end TimeUnit

/-! ### Reading -/

/-- Why a text is no span of time. Places are counted in bytes. -/
inductive Fault where
  | empty
  | numberExpected (place : Nat)
  | badCharacter (place : Nat)
  | unitMissing (amount : Nat)
  | unknownUnit (name : String)
  /-- The span is too long, or finer than nanoseconds. -/
  | outOfRange
  deriving DecidableEq, Repr

def Fault.message : Fault → String
  | empty => "value was empty"
  | numberExpected place => s!"expected number at {place}"
  | badCharacter place => s!"invalid character at {place}"
  | unitMissing amount => s!"time unit needed, for example {amount}sec or {amount}ms"
  | unknownUnit name =>
    s!"unknown time unit {quoted name}, supported units: ns, us/µs, ms, sec, min, hours, days, " ++
      "weeks, months, years (and few variations)"
  | outOfRange =>
    "number is too large or cannot be represented without a lack of precision " ++
      "(values below 1ns are not supported)"

/-- Numbers are counted in words of 64 bits. -/
def word (n : Nat) : Except Fault Nat := if n < UInt64.size then .ok n else .error .outOfRange

/-- The fraction of an amount: digits over a power of ten. -/
structure Fraction where
  digits : Nat
  power : Nat
  deriving DecidableEq, Repr

/-- A span and so many seconds and nanoseconds more. -/
def add (d : Duration) (seconds nanos : Nat) : Except Fault Duration := do
  let nanos ← word (d.nanos + nanos)
  match of? (d.seconds + seconds) nanos with
  | some d => return d
  | none => .error .outOfRange

/-- A span and so many units more. -/
def addWhole (d : Duration) (n : Nat) (u : TimeUnit) : Except Fault Duration := do
  let (seconds, nanos) := u.measure
  d.add (← word (n * seconds)) (← word (n * nanos))

/-- A span and a fraction of a unit more. -/
def addFraction (d : Duration) (f : Fraction) (u : TimeUnit) : Except Fault Duration := do
  match u.fine with
  | none => .error .outOfRange
  | some (seconds, nanos) =>
    let seconds ← word (f.digits * seconds)
    let nanos ← word (f.digits * nanos)
    if seconds % f.power = 0 ∧ nanos % f.power = 0 then
      d.add (seconds / f.power) (nanos / f.power)
    else .error .outOfRange

/-- A span and an amount more. -/
def addAmount (d : Duration) (n : Nat) (f : Option Fraction) (unit : String) :
    Except Fault Duration := do
  match TimeUnit.ofName? unit with
  | none => .error (if unit = "" then .unitMissing n else .unknownUnit unit)
  | some u =>
    let d ← d.addWhole n u
    match f with
    | none => return d
    | some f => d.addFraction f u

/-- What a reader has seen of an amount. -/
inductive Stage where
  /-- Nothing, since the place `since`. -/
  | before (since : Nat)
  /-- Digits before the point. -/
  | whole (n : Nat)
  /-- The point and digits after it; the next character stands at `place`, or the point does. -/
  | part (n : Nat) (f : Fraction) (place : Nat)
  /-- The amount and letters of the unit, the last first. -/
  | unit (n : Nat) (f : Option Fraction) (letters : List Char)
  deriving DecidableEq, Repr

/-- A reader: what it has read, if anything, and where it is. -/
structure Reader where
  total : Option Duration := none
  stage : Stage := .before 0
  place : Nat := 0

def isLetter (c : Char) : Bool := c.isAlpha || c == 'µ'

/-- The value of a digit. -/
def digit? (c : Char) : Option Nat := if c.isDigit then some (c.toNat - 48) else none

namespace Reader

/-- The total once the unit is complete. -/
def close (r : Reader) (n : Nat) (f : Option Fraction) (letters : List Char) :
    Except Fault Duration :=
  (r.total.getD zero).addAmount n f (String.ofList letters.reverse)

def stepBefore (r : Reader) (since : Nat) (c : Char) : Except Fault Reader :=
  match digit? c with
  | some d => .ok { r with stage := .whole d }
  | none => if CharSet.blank.contains c then .ok r else .error (.numberExpected since)

def stepWhole (r : Reader) (n : Nat) (c : Char) : Except Fault Reader := do
  match digit? c with
  | some d => return { r with stage := .whole (← word (n * 10 + d)) }
  | none =>
    if CharSet.blank.contains c then return r
    else if isLetter c then return { r with stage := .unit n none [c] }
    else if c = '.' then return { r with stage := .part n ⟨0, 1⟩ r.place }
    else .error (.badCharacter r.place)

def stepPart (r : Reader) (n : Nat) (f : Fraction) (place : Nat) (c : Char) :
    Except Fault Reader := do
  let next := r.place + c.utf8Size
  match digit? c with
  | some d =>
    let f := ⟨← word (f.digits * 10 + d), ← word (f.power * 10)⟩
    return { r with stage := .part n f next }
  | none =>
    if CharSet.blank.contains c then return { r with stage := .part n f next }
    else if isLetter c ∧ f.power ≠ 1 then return { r with stage := .unit n (some f) [c] }
    else .error (.badCharacter place)

def stepUnit (r : Reader) (n : Nat) (f : Option Fraction) (letters : List Char) (c : Char) :
    Except Fault Reader := do
  match digit? c with
  | some d => return { r with total := some (← r.close n f letters), stage := .whole d }
  | none =>
    if CharSet.blank.contains c then
      return { r with total := some (← r.close n f letters),
                      stage := .before (r.place + c.utf8Size) }
    else if isLetter c then return { r with stage := .unit n f (c :: letters) }
    else .error (.badCharacter r.place)

/-- Reads one character. -/
def step (r : Reader) (c : Char) : Except Fault Reader := do
  let next ← match r.stage with
    | .before since => r.stepBefore since c
    | .whole n => r.stepWhole n c
    | .part n f place => r.stepPart n f place c
    | .unit n f letters => r.stepUnit n f letters c
  return { next with place := r.place + c.utf8Size }

/-- What has been read when the text ends. -/
def finish (r : Reader) : Except Fault Duration :=
  match r.stage with
  | .before _ => match r.total with
    | some d => .ok d
    | none => .error .empty
  | .whole n => r.close n none []
  | .part n f place => if f.power = 1 then .error (.badCharacter place) else r.close n (some f) []
  | .unit n f letters => r.close n f letters

end Reader

/-- The span that a text describes. Zero may be written without a unit. -/
def read (s : String) : Except Fault Duration :=
  if s = "0" then .ok zero
  else do
    let r ← s.toList.foldlM Reader.step {}
    r.finish

/-! ### Writing -/

/-- An amount with its unit. -/
structure Amount where
  count : Nat
  unit : String

/-- The amounts of a span, the greatest unit first. -/
def amounts (d : Duration) : List Amount :=
  let plural (n : Nat) (name : String) : Amount := ⟨n, if n > 1 then name ++ "s" else name⟩
  let (years, s) := (d.seconds / 31557600, d.seconds % 31557600)
  let (months, s) := (s / 2630016, s % 2630016)
  let (days, s) := (s / 86400, s % 86400)
  [plural years "year", plural months "month", plural days "day", ⟨s / 3600, "h"⟩,
    ⟨s % 3600 / 60, "m"⟩, ⟨s % 60, "s"⟩, ⟨d.nanos / 1000000, "ms"⟩,
    ⟨d.nanos / 1000 % 1000, "us"⟩, ⟨d.nanos % 1000, "ns"⟩]

/-- A span as its amounts that are not zero. -/
def text (d : Duration) : String :=
  match d.amounts.filter (·.count != 0) with
  | [] => "0s"
  | l => " ".intercalate (l.map fun a => s!"{a.count}{a.unit}")

end Duration

end AccountSync
