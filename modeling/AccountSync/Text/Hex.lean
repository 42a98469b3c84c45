import AccountSync.Bytes
import AccountSync.Text.Quoted
/-!
Bytes as pairs of hexadecimal digits, of either case.
-/

namespace AccountSync.Hex

/-- Why a text is no bytes. -/
inductive Fault where
  | oddLength
  | badDigit (c : Char) (place : Nat)
  deriving DecidableEq, Repr

def Fault.message : Fault → String
  | oddLength => "Odd number of digits"
  | badDigit c place => s!"Invalid character {quotedChar c} at position {place}"

def digit? (b : UInt8) : Option UInt8 :=
  if 48 ≤ b ∧ b ≤ 57 then some (b - 48)
  else if 65 ≤ b ∧ b ≤ 70 then some (b - 55)
  else if 97 ≤ b ∧ b ≤ 102 then some (b - 87)
  else none

/-- The value of the digit at a place. -/
def digit (b : UInt8) (place : Nat) : Except Fault UInt8 :=
  match digit? b with
  | some d => .ok d
  | none => .error (.badDigit (Char.ofNat b.toNat) place)

/-- Reads the digits from a place on. -/
def pairs (place : Nat) : Bytes → Except Fault Bytes
  | [] => .ok []
  | [_] => .error .oddLength
  | a :: b :: rest => do
    let high ← digit a place
    let low ← digit b (place + 1)
    let bytes ← pairs (place + 2) rest
    return (high * 16 + low) :: bytes

/-- The bytes that a text gives. An odd number of digits is noticed first. -/
def read (s : String) : Except Fault Bytes :=
  let bs := s.toUTF8.data.toList
  if bs.length % 2 = 1 then .error .oddLength else pairs 0 bs

end AccountSync.Hex
