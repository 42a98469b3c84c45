import AccountSync.Bytes
/-!
Text as UTF-8 bytes. Main statement: bytes are decoded to the text that they are the encoding of
(`Utf8.decode_eq_ok_iff`); for other bytes `Utf8.decode` says where the first byte stands that
belongs to no character.
-/

namespace AccountSync.Utf8

/-- The bytes of a text. -/
def encode (s : String) : Bytes := s.toUTF8.data.toList

/-- Where bytes stop being text: `width` counts the bytes from `index` on that no character begins
with, and is absent when the bytes end within a character. -/
structure Fault where
  index : Nat
  width : Option Nat
  deriving DecidableEq, Repr

def Fault.message (f : Fault) : String :=
  match f.width with
  | some n => s!"invalid utf-8 sequence of {n} bytes from index {f.index}"
  | none => s!"incomplete utf-8 byte sequence from index {f.index}"

/-- A character of several bytes that is being read: its first byte's index, the bytes seen, the
range of the next byte and how many bytes follow that one. -/
structure Begun where
  index : Nat
  seen : Nat
  low : UInt8
  high : UInt8
  more : Nat

/-- What the first byte of a longer character asks of the bytes after it. -/
def Begun.ofLead? (index : Nat) (b : UInt8) : Option Begun :=
  let begun low high more := some ⟨index, 1, low, high, more⟩
  if 0xC2 ≤ b ∧ b ≤ 0xDF then begun 0x80 0xBF 0
  else if b = 0xE0 then begun 0xA0 0xBF 1
  else if b = 0xED then begun 0x80 0x9F 1
  else if 0xE1 ≤ b ∧ b ≤ 0xEF then begun 0x80 0xBF 1
  else if b = 0xF0 then begun 0x90 0xBF 2
  else if 0xF1 ≤ b ∧ b ≤ 0xF3 then begun 0x80 0xBF 2
  else if b = 0xF4 then begun 0x80 0x8F 2
  else none

/-- The first place at which bytes are not text. -/
def fault? (index : Nat) : Option Begun → Bytes → Option Fault
  | none, [] => none
  | some c, [] => some ⟨c.index, none⟩
  | none, b :: rest =>
    if b < 0x80 then fault? (index + 1) none rest
    else match Begun.ofLead? index b with
      | none => some ⟨index, some 1⟩
      | some c => fault? (index + 1) (some c) rest
  | some c, b :: rest =>
    if c.low ≤ b ∧ b ≤ c.high then
      match c.more with
      | 0 => fault? (index + 1) none rest
      | more + 1 => fault? (index + 1) (some ⟨c.index, c.seen + 1, 0x80, 0xBF, more⟩) rest
    else some ⟨c.index, some c.seen⟩

/-- The text that bytes spell. -/
def decode (bs : Bytes) : Except Fault String :=
  match String.fromUTF8? ⟨bs.toArray⟩ with
  | some s => .ok s
  | none => .error ((fault? 0 none bs).getD ⟨0, some 1⟩)

theorem decode_encode (s : String) : decode (encode s) = .ok s := by
  have h : String.fromUTF8? ⟨(encode s).toArray⟩ = some s := by
    have hs : (⟨(encode s).toArray⟩ : ByteArray) = s.toByteArray := rfl
    rw [hs, String.fromUTF8?, dif_pos s.isValidUTF8]
    rfl
  rw [decode, h]

theorem decode_eq_ok_iff {bs : Bytes} {s : String} : decode bs = .ok s ↔ encode s = bs := by
  constructor
  · intro h
    unfold decode at h
    split at h
    · rename_i t ht
      obtain rfl := Except.ok.inj h
      unfold String.fromUTF8? at ht
      split at ht
      · obtain rfl := Option.some.inj ht
        rfl
      · cases ht
    · cases h
  · rintro rfl
    exact decode_encode s

end AccountSync.Utf8
