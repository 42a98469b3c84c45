import AccountSync.Cipher
import AccountSync.Generation
/-!
A device's copy of one topic, as a state machine: an edit leads from any phase to `edited`, a push
from there to `sent`, and the swarm's confirmation from there to `settled`.

Each edit out of `settled` or `sent` opens a new generation. A received generation that holds all we
have is adopted; one that lacks something of ours is joined with it into a new generation that has
to be pushed; one older than ours is refused. Whenever a stored message stops being the one that
backs this copy, its hash is retired, and the next push asks the swarm to delete it.

Edits and merges count generations without end. In words of 64 bits the count is the same as long as
no generation is opened above `Counting.greatest`.
-/

namespace AccountSync

/-- A device's copy of one topic. -/
structure Replica extends Standing where
  topic : Topic
  secret : Secret
  /-- The length that no message may exceed. -/
  limit : Nat
  /-- The hashes that the last push asked to delete. -/
  inFlight : List String := []
  /-- The standing has changed since it was last saved. -/
  unsaved : Bool := false
  deriving DecidableEq

/-- A generation made ready for the swarm. -/
structure Push where
  payload : Bytes
  seq : Int
  /-- Hashes that the swarm may delete once the payload is stored. -/
  superseded : List String
  deriving DecidableEq, Repr

namespace Replica

/-- The message length that swarms accept. -/
def defaultLimit : Nat := 76800

/-- A copy without entries. -/
def fresh (topic : Topic) (secret : Secret) (limit : Nat := defaultLimit) : Replica :=
  { topic, secret, limit }

/-- There are changes that the swarm has not confirmed. -/
def needsPush (r : Replica) : Bool := r.phase != .settled

/-- The hashes of the messages that back this copy. -/
def hashes (r : Replica) : List String := r.current.toList

/-- The value under a key. -/
def get (r : Replica) (key : String) : Option Bytes := r.entries.value? key

/-- The keys that have a value, with it, in order. -/
def live (r : Replica) : List (String × Bytes) := r.entries.live

/-! ### Edits -/

/-- The current hash, if there is one, among the retired. -/
def retireCurrent (r : Replica) : Replica :=
  match r.current with
  | some hash => { r with current := none, retired := r.retired.add hash }
  | none => r

/-- Moves to a phase. To leave `settled` is to retire the current hash. -/
def enter (r : Replica) (phase : Phase) : Replica :=
  let r := if r.phase = .settled then r.retireCurrent else r
  { r with phase, unsaved := true }

/-- Opens a generation of edits, unless one is open. -/
def beginEdit (r : Replica) : Replica :=
  if r.phase = .edited then r
  else
    let r := r.enter .edited
    { r with seq := r.seq + 1 }

/-- Writes an entry in the generation of edits. -/
def write (r : Replica) (key : String) (value : Option Bytes) : Replica :=
  let r := r.beginEdit
  { r with entries := r.entries.insert key ⟨value, r.seq⟩ }

/-- Puts a value under a key; says whether that changed anything. -/
def set (r : Replica) (key : String) (value : Bytes) : Bool × Replica :=
  if r.get key = some value then (false, r) else (true, r.write key (some value))

/-- Removes the value under a key; says whether that changed anything. -/
def erase (r : Replica) (key : String) : Bool × Replica :=
  if r.get key = none then (false, r) else (true, r.write key none)

/-! ### Received generations -/

/-- Takes a second stored copy of the generation that this copy holds. Of two hashes the greater is
kept, so that all devices retire the same one. -/
def takeCopy (r : Replica) (hash : String) : Replica :=
  match r.phase, r.current with
  | .settled, some current =>
    if hash ≤ current then { r with retired := r.retired.add hash, unsaved := true }
    else { r with current := some hash, retired := r.retired.add current, unsaved := true }
  | .settled, none => { r with current := some hash, unsaved := true }
  | .edited, _ | .sent, _ => { r with phase := .settled, current := some hash, unsaved := true }

/-- Takes a generation that holds all of this copy's writes in place of it. -/
def adopt (r : Replica) (hash : String) (g : Generation) : Replica :=
  let r := if r.phase = .settled then r.retireCurrent else r
  { r with entries := g.entries, seq := g.seq, phase := .settled, current := some hash,
           unsaved := true }

/-- Opens a generation above both that holds the writes of both. -/
def combine (r : Replica) (hash : String) (g : Generation) : Replica :=
  let seq := max r.seq g.seq + 1
  let entries := r.entries.join g.entries
  let r := r.enter .edited
  { r with retired := r.retired.add hash, entries, seq }

/-- Takes a generation that the swarm stores under `hash`; says whether it was accepted. -/
def take (r : Replica) (hash : String) (g : Generation) : Bool × Replica :=
  if r.current = some hash then (true, r)
  else if g.seq < r.seq then
    (false, { r with retired := r.retired.add hash, unsaved := true })
  else if g.seq = r.seq ∧ g.entries = r.entries then (true, r.takeCopy hash)
  else if r.entries.join g.entries = g.entries then (true, r.adopt hash g)
  else (true, r.combine hash g)

/-- The generation in a payload, if it can be read and is of this copy's topic. -/
def read? (c : Cipher) (r : Replica) (payload : Bytes) : Option Generation :=
  match c.unlock r.secret r.topic.title payload with
  | .error _ => none
  | .ok plain =>
    match Generation.layout.read plain with
    | .error _ => none
    | .ok g => if g.topic = r.topic then some g else none

/-- Takes one stored payload; one that cannot be read changes nothing. -/
def takePayload (c : Cipher) (r : Replica) (hash : String) (payload : Bytes) : Bool × Replica :=
  match r.read? c payload with
  | none => (false, r)
  | some g => r.take hash g

/-- Takes stored payloads one after the other; the answer lists the accepted hashes. -/
def merge (c : Cipher) (r : Replica) : List (String × Bytes) → List String × Replica
  | [] => ([], r)
  | (hash, payload) :: rest =>
    let (accepted, r) := r.takePayload c hash payload
    let (hashes, r) := r.merge c rest
    (if accepted then hash :: hashes else hashes, r)

/-! ### Publishing -/

/-- What a copy publishes. -/
def generation (r : Replica) : Generation := ⟨r.topic, r.seq, r.entries⟩

/-- The payload of a copy. -/
def payload (c : Cipher) (nonce : Bytes) (r : Replica) : Bytes :=
  c.lock r.secret r.topic.title nonce (Generation.layout.put r.generation)

/-- Makes the present generation ready for the swarm. It stays unconfirmed, and one that is too long
leaves the copy as it was. -/
def push (c : Cipher) (nonce : Bytes) (r : Replica) : Except Failure Push × Replica :=
  let payload := r.payload c nonce
  if payload.length > r.limit then
    (.error (.engine r.topic "push" "Config data is too large"), r)
  else
    let r := if r.phase = .edited then r.enter .sent else r
    let superseded := r.retired.keys
    (.ok ⟨payload, r.seq, superseded⟩, { r with inFlight := superseded })

/-- The swarm stores generation `seq` under `hash`. Says whether that still concerns this copy: it
does not if there were edits since, or if it was confirmed before. -/
def confirm (r : Replica) (seq : Int) (hash : String) : Bool × Replica :=
  if r.phase = .sent ∧ seq = r.seq then
    let r := r.enter .settled
    (true, { r with current := some hash, retired := r.retired.removeAll r.inFlight,
                    inFlight := [] })
  else (false, r)

/-! ### Dumps -/

/-- The bytes from which this copy can be restored. -/
def dump (r : Replica) : Bytes × Replica :=
  (Standing.layout.put r.toStanding, { r with unsaved := false })

/-- A copy that goes on with a standing. -/
def restore (topic : Topic) (secret : Secret) (limit : Nat) (standing : Standing) : Replica :=
  { toStanding := standing, topic, secret, limit }

/-- The copy that the bytes of a dump describe. Where the count of its number breaks off, that is a
failure of the engine. -/
def ofDump (topic : Topic) (secret : Secret) (limit : Nat) (data : Bytes)
    (counting : Counting := .exact) : Except Failure Replica :=
  match Standing.layout.read data with
  | .error fault => .error (.engine topic "init" s!"Unable to parse dump: {fault.message}")
  | .ok standing =>
    match standing.resume? counting with
    | some standing => .ok (restore topic secret limit standing)
    | none => .error (.engine topic "init" "attempt to add with overflow")

end Replica

end AccountSync
