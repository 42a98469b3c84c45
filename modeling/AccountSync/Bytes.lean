/-!
Byte strings, and numbers written in them with the lowest byte first.
-/

namespace AccountSync

/-- A string of bytes. -/
abbrev Bytes := List UInt8

namespace Bytes

/-- The lowest `width` bytes of a number, lowest first. -/
def ofNat : (width : Nat) → Nat → Bytes
  | 0, _ => []
  | width + 1, n => UInt8.ofNat n :: ofNat width (n / 256)

/-- The number that bytes stand for, lowest byte first. -/
def toNat : Bytes → Nat
  | [] => 0
  | b :: rest => b.toNat + 256 * toNat rest

@[simp] theorem length_ofNat : ∀ width n, (ofNat width n).length = width
  | 0, _ => rfl
  | width + 1, n => congrArg (· + 1) (length_ofNat width (n / 256))

theorem toNat_ofNat : ∀ width n, toNat (ofNat width n) = n % Nat.pow 256 width
  | 0, n => by simp [ofNat, toNat, Nat.mod_one]
  | width + 1, n => by
    have ih := toNat_ofNat width (n / 256)
    show (UInt8.ofNat n).toNat + 256 * toNat (ofNat width (n / 256)) = n % (Nat.pow 256 width * 256)
    rw [ih, Nat.mul_comm (Nat.pow 256 width), Nat.mod_mul]
    simp

/-- Cuts a string into pieces of `size` bytes; the last may be shorter. -/
def pieces (size : Nat) (bs : Bytes) : List Bytes :=
  if _h : size = 0 ∨ bs = [] then []
  else bs.take size :: pieces size (bs.drop size)
termination_by bs.length
decreasing_by
  have : bs.length ≠ 0 := fun h₀ => _h (.inr (List.length_eq_zero_iff.1 h₀))
  simp only [List.length_drop]
  omega

/-- All but the last `n` bytes, and those. -/
def cutTail (n : Nat) (bs : Bytes) : Bytes × Bytes :=
  (bs.take (bs.length - n), bs.drop (bs.length - n))

theorem cutTail_append {n : Nat} (a : Bytes) {b : Bytes} (h : b.length = n) :
    cutTail n (a ++ b) = (a, b) := by
  simp [cutTail, h]

/-- The bytes of two strings joined place by place by exclusive or. -/
def xor (a b : Bytes) : Bytes := List.zipWith (· ^^^ ·) a b

theorem xor_xor : ∀ {a k : Bytes}, a.length ≤ k.length → xor (xor a k) k = a
  | [], _, _ => by simp [xor]
  | a :: as, k :: ks, h => by
    have ih := xor_xor (a := as) (k := ks) (by simpa using h)
    simp only [xor] at ih ⊢
    simp only [List.zipWith_cons_cons, ih, UInt8.xor_assoc, UInt8.xor_self, UInt8.xor_zero]

end Bytes

end AccountSync
