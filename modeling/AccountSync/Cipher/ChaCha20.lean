import AccountSync.Cipher.Words
/-!
The ChaCha20 stream with the extended nonce of 24 bytes: the first 16 bytes of the nonce choose a
subkey, the last 8 the stream under it.
-/

namespace AccountSync.ChaCha20

/-- The first row of every state. -/
def constants : Words 4 := #v[0x61707865, 0x3320646E, 0x79622D32, 0x6B206574]

/-- One half of the mixing of a column or diagonal, with two of its turns. -/
def mix (near far : UInt32) (v : Words 16) (q : Quarter) : Words 16 :=
  let v := v.put q.a (v.get q.a + v.get q.b)
  let v := v.put q.d (rotateLeft (v.get q.d ^^^ v.get q.a) near)
  let v := v.put q.c (v.get q.c + v.get q.d)
  v.put q.b (rotateLeft (v.get q.b ^^^ v.get q.c) far)

def quarterRound (v : Words 16) (q : Quarter) : Words 16 := mix 8 7 (mix 16 12 v q) q

/-- A round over the columns and a round over the diagonals. -/
def doubleRound (v : Words 16) : Words 16 := Quarter.all.foldl quarterRound v

def scramble (v : Words 16) : Words 16 := Nat.repeat doubleRound 10 v

/-- The state of a key and the four words after it. -/
def state (key : Words 8) (last : Words 4) : Words 16 := constants ++ key ++ last

/-- The stream's block number `counter`. -/
def block (key : Words 8) (nonce : Words 3) (counter : Nat) : Bytes :=
  let v := state key #v[UInt32.ofNat counter, nonce[0], nonce[1], nonce[2]]
  Words.toBytes (Vector.zipWith (· + ·) v (scramble v))

/-- The subkey that the first half of a long nonce chooses. -/
def subkey (key : Words 8) (nonce : Words 4) : Words 8 :=
  let v := scramble (state key nonce)
  Vector.ofFn fun i : Fin 8 => v.nth (if i.val < 4 then i.val else i.val + 8)

/-- The first `count` blocks of a stream, from block number `counter` on. -/
def stream (key : Words 8) (nonce : Words 3) (counter count : Nat) : Bytes :=
  (List.range' counter count).flatMap (block key nonce)

theorem length_stream (key : Words 8) (nonce : Words 3) (counter count : Nat) :
    (stream key nonce counter count).length = 64 * count := by
  have : ∀ l : List Nat, (l.flatMap (block key nonce)).length = 64 * l.length := by
    intro l
    induction l with
    | nil => rfl
    | cons n l ih => simp [ih, block, Words.length_toBytes]; omega
  simp [stream, this]

end AccountSync.ChaCha20
