/-!
Sets of characters, as tables of the code points at which membership changes.
-/

namespace AccountSync

/-- A set of characters: the code points, in increasing order, at which one enters or leaves it. -/
structure CharSet where
  bounds : List Nat

namespace CharSet

/-- Whether one is inside after all bounds up to `n` were passed. -/
def insideAt (n : Nat) (inside : Bool) : List Nat → Bool
  | [] => inside
  | b :: rest => if n < b then inside else insideAt n (!inside) rest

def contains (s : CharSet) (c : Char) : Bool := insideAt c.toNat false s.bounds

/-- The blanks: characters that separate words. -/
def blank : CharSet := ⟨[
  0x9, 0xe, 0x20, 0x21, 0x85, 0x86, 0xa0, 0xa1, 0x1680, 0x1681, 0x2000, 0x200b, 0x2028, 0x202a,
  0x202f, 0x2030, 0x205f, 0x2060, 0x3000, 0x3001]⟩

end CharSet

end AccountSync
