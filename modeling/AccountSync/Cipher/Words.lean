import AccountSync.Bytes
/-!
Fixed rows of 32-bit words, the material of the hash and the stream cipher.
-/

namespace AccountSync

/-- A row of `n` words. -/
abbrev Words (n : Nat) := Vector UInt32 n

namespace Words

/-- The word whose four bytes, lowest first, start at byte `4 * i`; missing bytes count as zero. -/
def read (bs : Bytes) (i : Nat) : UInt32 :=
  UInt32.ofNat (Bytes.toNat ((bs.drop (4 * i)).take 4))

/-- The first `n` words of a byte string. -/
def ofBytes (n : Nat) (bs : Bytes) : Words n := Vector.ofFn fun i => read bs i

def toBytes {n : Nat} (ws : Words n) : Bytes := ws.toList.flatMap fun w => Bytes.ofNat 4 w.toNat

theorem length_toBytes {n : Nat} (ws : Words n) : ws.toBytes.length = 4 * n := by
  have : ∀ l : List UInt32, (l.flatMap fun w => Bytes.ofNat 4 w.toNat).length = 4 * l.length := by
    intro l
    induction l with
    | nil => rfl
    | cons w l ih => simp [ih]; omega
  simp [toBytes, this]

/-! ### Squares of sixteen words -/

/-- A place in a square, counted around. -/
def place (i : Nat) : Fin 16 := ⟨i % 16, Nat.mod_lt _ (by decide)⟩

/-- The word at a place of a square. -/
def nth (v : Words 16) (i : Nat) : UInt32 := v.get (place i)

def put (v : Words 16) (i : Fin 16) (w : UInt32) : Words 16 := v.set i.val w i.isLt

end Words

/-- Four places of a square, one in each row. -/
structure Quarter where
  a : Fin 16
  b : Fin 16
  c : Fin 16
  d : Fin 16

/-- The places from column `k` of the first row on, each `slant` columns to the right of the one
above. -/
def Quarter.at (slant k : Nat) : Quarter :=
  let cell (row : Nat) := Words.place (4 * row + (k + row * slant) % 4)
  ⟨cell 0, cell 1, cell 2, cell 3⟩

/-- The four columns of a square, then its four diagonals. -/
def Quarter.all : List Quarter :=
  [0, 1].flatMap fun slant => (List.range 4).map (Quarter.at slant)

/-- Turns the bits of a word to the left. -/
def rotateLeft (w : UInt32) (n : UInt32) : UInt32 := (w <<< n) ||| (w >>> (32 - n))

/-- Turns the bits of a word to the right. -/
def rotateRight (w : UInt32) (n : UInt32) : UInt32 := (w >>> n) ||| (w <<< (32 - n))

end AccountSync
