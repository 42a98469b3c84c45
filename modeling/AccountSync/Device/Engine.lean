import AccountSync.LocalWrite
import AccountSync.Replica
/-!
The parts of a device that are supplied from outside: the engine that works on copies, the handlers
that take merged state to the device's own tables, and who the account is. Each call into them may
report a failure or break off.
-/

namespace AccountSync

/-- What works on copies. Beside its result, a call says what has become of the copy. -/
structure Engine where
  /-- A copy from a secret and perhaps a dump. -/
  start : Topic → (secret : Bytes) → (dump : Option Bytes) → Except Trouble Replica
  /-- Takes stored payloads and lists the accepted hashes. -/
  merge : List (String × Bytes) → Replica → Except Trouble (List String) × Replica
  push : (nonce : Bytes) → Replica → Except Trouble Push × Replica
  confirm : (seq : Int) → (hash : String) → Replica → Except Trouble Bool × Replica
  /-- The bytes from which the copy can be started again. -/
  save : Replica → Except Trouble Bytes × Replica

/-- The engine that works as `Replica` says, under a cipher and a limit on messages. What was edited is
started again from a dump under the next number, by the given count. -/
def Engine.plain (c : Cipher) (limit : Nat := Replica.defaultLimit)
    (counting : Counting := .exact) : Engine where
  start topic secret dump :=
    let copy := do
      let secret ← Secret.ofBytes secret
      match dump with
      | none => return Replica.fresh topic secret limit
      | some data => Replica.ofDump topic secret limit data counting
    copy.mapError .failed
  merge batch r :=
    let (hashes, r) := r.merge c batch
    (.ok hashes, r)
  push nonce r :=
    let (push, r) := r.push c nonce
    (push.mapError .failed, r)
  confirm seq hash r :=
    let (applied, r) := r.confirm seq hash
    (.ok applied, r)
  save r :=
    let (data, r) := r.dump
    (.ok data, r)

/-- Makes a change; says whether it changed anything. -/
def Replica.change (r : Replica) (c : Change) : Bool × Replica :=
  match c.value with
  | some value => r.set c.key value
  | none => r.erase c.key

/-- What a handler is told about a merge. -/
structure Update where
  account : String
  /-- The copy has not been saved since it changed. -/
  unsaved : Bool
  /-- When the newest of the accepted messages was sent. -/
  latest : Int
  deriving DecidableEq, Repr

/-- Takes merged state to the device's own tables, and local changes to a copy. -/
structure Handler where
  name : String
  apply : Replica → Update → Except Trouble Unit
  applyLocal : Change → Replica → Except Trouble Bool × Replica :=
    fun c r =>
      let (changed, r) := r.change c
      (.ok changed, r)

/-- The handler that leaves the device's tables alone. -/
def Handler.silent : Handler where
  name := ""
  apply _ _ := .ok ()

/-- A call of a handler. -/
structure Applied where
  handler : String
  topic : Topic
  entries : List (String × Bytes)
  update : Update
  deriving DecidableEq, Repr

/-- Who hears that an account needs a sync. -/
inductive Listener where
  | queue
  | nobody
  deriving DecidableEq, Repr

/-- What a device is given to work with. -/
structure Env where
  engine : Engine
  handler : Topic → Handler := fun _ => .silent
  /-- The account that the device belongs to, once there is one. -/
  identity : Option String
  listener : Listener := .nobody
  /-- The time, in milliseconds. -/
  now : Int
  /-- The nonce of the nth message. -/
  nonce : Nat → Bytes := Bytes.ofNat Cipher.nonceLength

end AccountSync
