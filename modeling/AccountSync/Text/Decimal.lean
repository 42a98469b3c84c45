/-!
Whole numbers in decimal digits, as settings give them: a plus sign may stand before the digits, and
zeros may.
-/

namespace AccountSync.Decimal

/-- Why a text is no number of the wanted size. -/
inductive Fault where
  | empty
  | badDigit
  | tooLarge
  deriving DecidableEq, Repr

def Fault.message : Fault → String
  | empty => "cannot parse integer from empty string"
  | badDigit => "invalid digit found in string"
  | tooLarge => "number too large to fit in target type"

/-- Reads digits after others that gave `n`; the number stays below `bound`. -/
def digits (bound : Nat) (n : Nat) : List Char → Except Fault Nat
  | [] => .ok n
  | c :: rest =>
    if c.isDigit then
      let n := n * 10 + (c.toNat - 48)
      if n < bound then digits bound n rest else .error .tooLarge
    else .error .badDigit

/-- The number below `bound` that a text gives. -/
def read (bound : Nat) (s : String) : Except Fault Nat :=
  match s.toList with
  | [] => .error .empty
  | ['+'] => .error .badDigit
  | '+' :: rest => digits bound 0 rest
  | cs => digits bound 0 cs

end AccountSync.Decimal
