import AccountSync.Text.Utf8
/-!
The binary layout of messages and dumps. Numbers have a fixed width with the lowest byte first, the
choice among the cases of a type is a number of four bytes, lengths are numbers of eight bytes, and
what may be absent has one byte before it. A `Codec` holds the writing and the reading of one type;
the codec of a compound is put together from those of its parts. Bytes after the value are left
over.
-/

namespace AccountSync.Layout

/-- Why bytes cannot be read. -/
inductive Fault where
  /-- The bytes end within a number. -/
  | ended
  /-- A text is declared longer than the bytes that are left. -/
  | overrun
  /-- Neither 0 nor 1 stands before what may be absent. -/
  | badOption (found : Nat)
  /-- The number of a case that a type of `count` cases does not have. -/
  | badCase (found count : Nat)
  | badText (fault : Utf8.Fault)
  deriving DecidableEq, Repr

def Fault.message : Fault → String
  | ended => "io error: unexpected end of file"
  | overrun => "io error: "
  | badOption found => s!"tag for enum is not valid, found {found}"
  | badCase found count =>
    s!"invalid value: integer `{found}`, expected variant index 0 <= i < {count}"
  | badText fault => s!"string is not valid utf8: {fault.message}"

/-- How values of a type are written, and read from the front of a byte string. -/
structure Codec (α : Type) where
  put : α → Bytes
  get : Bytes → Except Fault (α × Bytes)

namespace Codec

variable {α β : Type}

/-- The first `n` bytes and the rest, if there are so many. -/
def front (short : Fault) (n : Nat) (bs : Bytes) : Except Fault (Bytes × Bytes) :=
  let head := bs.take n
  if head.length = n then .ok (head, bs.drop n) else .error short

/-- A number of `width` bytes. -/
def nat (width : Nat) : Codec Nat where
  put n := Bytes.ofNat width n
  get bs := do
    let (head, rest) ← front .ended width bs
    return (head.toNat, rest)

/-- A signed number of eight bytes, the negative ones above the others. -/
def int : Codec Int where
  put i := Bytes.ofNat 8 (i % UInt64.size).toNat
  get bs := do
    let (n, rest) ← (nat 8).get bs
    return (if n < UInt64.size / 2 then n else n - UInt64.size, rest)

/-- A byte string after its length. -/
def bytes : Codec Bytes where
  put b := Bytes.ofNat 8 b.length ++ b
  get bs := do
    let (n, rest) ← (nat 8).get bs
    front .ended n rest

/-- A text after its length in bytes. -/
def text : Codec String where
  put s := bytes.put (Utf8.encode s)
  get bs := do
    let (n, rest) ← (nat 8).get bs
    let (head, rest) ← front .overrun n rest
    match Utf8.decode head with
    | .ok s => return (s, rest)
    | .error fault => .error (.badText fault)

/-- What may be absent. -/
def option (c : Codec α) : Codec (Option α) where
  put
    | none => [0]
    | some a => 1 :: c.put a
  get bs := do
    let (n, rest) ← (nat 1).get bs
    match n with
    | 0 => return (none, rest)
    | 1 =>
      let (a, rest) ← c.get rest
      return (some a, rest)
    | n => .error (.badOption n)

/-- One of the listed cases, as its place in the list. -/
def oneOf [BEq α] (cases : List α) : Codec α where
  put a := Bytes.ofNat 4 (cases.idxOf a)
  get bs := do
    let (n, rest) ← (nat 4).get bs
    match cases[n]? with
    | some a => return (a, rest)
    | none => .error (.badCase n cases.length)

/-- One value after the other. -/
def pair (c : Codec α) (d : Codec β) : Codec (α × β) where
  put p := c.put p.1 ++ d.put p.2
  get bs := do
    let (a, rest) ← c.get bs
    let (b, rest) ← d.get rest
    return ((a, b), rest)

/-- As many values as the number says. -/
def getMany (c : Codec α) : Nat → Bytes → Except Fault (List α × Bytes)
  | 0, bs => .ok ([], bs)
  | n + 1, bs => do
    let (a, rest) ← c.get bs
    let (l, rest) ← getMany c n rest
    return (a :: l, rest)

/-- A list after its length. -/
def list (c : Codec α) : Codec (List α) where
  put l := Bytes.ofNat 8 l.length ++ l.flatMap c.put
  get bs := do
    let (n, rest) ← (nat 8).get bs
    getMany c n rest

/-- Another type written as the first. -/
def via (c : Codec α) (forth : α → β) (back : β → α) : Codec β where
  put b := c.put (back b)
  get bs := do
    let (a, rest) ← c.get bs
    return (forth a, rest)

/-- The value at the front of a byte string. -/
def read (c : Codec α) (bs : Bytes) : Except Fault α := (c.get bs).map (·.1)

end Codec

end AccountSync.Layout
