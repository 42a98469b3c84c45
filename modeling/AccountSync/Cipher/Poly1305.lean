import AccountSync.Bytes
/-!
The Poly1305 authenticator: the message, cut into blocks of 16 bytes, is the list of coefficients of
a polynomial, which is evaluated at a secret point modulo a prime and masked by a secret number.
-/

namespace AccountSync.Poly1305

/-- Five less than a power of two. -/
def prime : Nat := Nat.pow 2 130 - 5

/-- Clears the bits of the point that the authenticator does not use. -/
def clamp (r : Nat) : Nat := r &&& 0x0FFFFFFC0FFFFFFC0FFFFFFC0FFFFFFF

/-- A block as a number, with a one above its last byte. -/
def coefficient (block : Bytes) : Nat := Bytes.toNat (block ++ [1])

/-- The 16-byte tag of a message under a key of 32 bytes. -/
def tag (key message : Bytes) : Bytes :=
  let point := clamp (Bytes.toNat (key.take 16))
  let sum := (Bytes.pieces 16 message).foldl (fun acc b => (acc + coefficient b) * point % prime) 0
  Bytes.ofNat 16 (sum + Bytes.toNat ((key.drop 16).take 16))

end AccountSync.Poly1305
