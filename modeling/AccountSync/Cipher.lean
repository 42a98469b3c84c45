import AccountSync.Failure
import AccountSync.Text.Utf8
import AccountSync.Cipher.Blake3
import AccountSync.Cipher.ChaCha20
import AccountSync.Cipher.Poly1305
/-!
How payloads are kept secret. A `Cipher` locks bytes under an account's secret and a domain; what
follows asks no more of it than `Cipher.Faithful`. `xchacha20Poly1305` is the cipher in use, and
`faithful_xchacha20Poly1305` says that it unlocks what it locked.
-/

namespace AccountSync

/-- An account's secret: a seed of 32 bytes. -/
structure Secret where
  seed : Bytes
  length_seed : seed.length = 32
  deriving DecidableEq

namespace Secret

/-- A secret is given as its seed, or as the seed followed by 32 bytes of public key. -/
def ofBytes (bs : Bytes) : Except Failure Secret :=
  if h : bs.length = 32 ∨ bs.length = 64 then
    .ok ⟨bs.take 32, by simp only [List.length_take]; omega⟩
  else .error (.crypto s!"Invalid secret key size: {bs.length} (expected 32 or 64)")

/-- What is shown in place of a secret. -/
def shown (_ : Secret) : String := "SecretKey(..)"

instance : Inhabited Secret := ⟨⟨List.replicate 32 0, by simp⟩⟩

end Secret

/-- A way to lock bytes under a secret and a domain. A locked text carries its nonce. -/
structure Cipher where
  lock : Secret → (domain : String) → (nonce : Bytes) → Bytes → Bytes
  unlock : Secret → (domain : String) → Bytes → Except Failure Bytes

namespace Cipher

/-- The length of a nonce. -/
def nonceLength : Nat := 24

/-- The length of a tag. -/
def tagLength : Nat := 16

/-- What locking adds to a text's length. -/
def overhead : Nat := tagLength + nonceLength

/-- The cipher unlocks what it locked, and locking adds `overhead` bytes. -/
structure Faithful (c : Cipher) : Prop where
  unlock_lock : ∀ s d n p, n.length = nonceLength → c.unlock s d (c.lock s d n p) = .ok p
  length_lock : ∀ s d n p, n.length = nonceLength → (c.lock s d n p).length = p.length + overhead

/-- The key of a domain. -/
def domainKey (s : Secret) (domain : String) : Words 8 :=
  .ofBytes 8 (Blake3.deriveKey (Utf8.encode s!"confsync {domain} payload") s.seed)

/-- The stream key and the short nonce that a long nonce gives. -/
def schedule (s : Secret) (domain : String) (nonce : Bytes) : Words 8 × Words 3 :=
  (ChaCha20.subkey (domainKey s domain) (.ofBytes 4 nonce),
    #v[0, Words.read nonce 4, Words.read nonce 5])

/-- Zeros up to the next multiple of 16. -/
def padding (bs : Bytes) : Bytes := List.replicate ((16 - bs.length % 16) % 16) 0

/-- The tag that vouches for a ciphertext and its domain. -/
def tag (key : Words 8) (nonce : Words 3) (domain ciphertext : Bytes) : Bytes :=
  Poly1305.tag (ChaCha20.stream key nonce 0 1)
    (domain ++ padding domain ++ ciphertext ++ padding ciphertext
      ++ Bytes.ofNat 8 domain.length ++ Bytes.ofNat 8 ciphertext.length)

/-- A text joined with as much of the stream as it is long. -/
def mask (key : Words 8) (nonce : Words 3) (bs : Bytes) : Bytes :=
  Bytes.xor bs (ChaCha20.stream key nonce 1 (bs.length / 64 + 1))

/-- XChaCha20-Poly1305 under the key of the domain, which is also what the tag vouches for; the
locked text is ciphertext, tag and nonce. -/
def xchacha20Poly1305 : Cipher where
  lock s domain nonce plain :=
    let (key, short) := schedule s domain nonce
    let ciphertext := mask key short plain
    ciphertext ++ tag key short (Utf8.encode domain) ciphertext ++ nonce
  unlock s domain locked :=
    if locked.length < nonceLength then .error (.crypto "Ciphertext too short")
    else
      let (body, nonce) := Bytes.cutTail nonceLength locked
      let (ciphertext, mark) := Bytes.cutTail tagLength body
      let (key, short) := schedule s domain nonce
      if body.length < tagLength ∨ tag key short (Utf8.encode domain) ciphertext ≠ mark then
        .error (.crypto "Decryption failed: aead::Error")
      else .ok (mask key short ciphertext)

theorem length_mask (key : Words 8) (nonce : Words 3) (bs : Bytes) :
    (mask key nonce bs).length = bs.length := by
  simp only [mask, Bytes.xor, List.length_zipWith, ChaCha20.length_stream]
  omega

theorem mask_mask (key : Words 8) (nonce : Words 3) (bs : Bytes) :
    mask key nonce (mask key nonce bs) = bs := by
  rw [mask, length_mask, mask]
  exact Bytes.xor_xor (by rw [ChaCha20.length_stream]; omega)

theorem length_tag (key : Words 8) (nonce : Words 3) (domain ciphertext : Bytes) :
    (tag key nonce domain ciphertext).length = tagLength := by
  simp [tag, Poly1305.tag, tagLength]

theorem faithful_xchacha20Poly1305 : Faithful xchacha20Poly1305 where
  unlock_lock s d n p hn := by
    have ht := length_tag (schedule s d n).1 (schedule s d n).2 (Utf8.encode d)
      (mask (schedule s d n).1 (schedule s d n).2 p)
    simp only [xchacha20Poly1305, Bytes.cutTail_append _ hn, Bytes.cutTail_append _ ht]
    rw [if_neg (by simp [hn]; omega), if_neg (by simp [ht]), mask_mask]
  length_lock s d n p hn := by
    simp only [xchacha20Poly1305, List.length_append, length_mask, length_tag, hn, overhead]
    omega

end Cipher

end AccountSync
