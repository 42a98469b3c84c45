import AccountSync.Entries
import AccountSync.Topic
/-!
What a device publishes and what it keeps: the entries of one topic under a sequence number, and the
standing of a device's own copy between two starts of the program. Sequence numbers are kept in words
of 64 bits; what happens where these end is a matter of how they are counted (`Counting`).
-/

namespace AccountSync

/-- One published state of a topic. -/
structure Generation where
  topic : Topic
  seq : Int
  entries : Entries
  deriving DecidableEq

/-- The plain text of a message. -/
def Generation.layout : Layout.Codec Generation :=
  (Layout.Codec.pair (.oneOf Topic.all) (.pair .int Entries.layout)).via
    (fun p => ⟨p.1, p.2.1, p.2.2⟩) fun g => (g.topic, g.seq, g.entries)

/-- How sequence numbers are counted. -/
inductive Counting where
  /-- Without end, as if words had no bounds. -/
  | exact
  /-- A number that outgrows its word breaks the program off. -/
  | checked
  /-- The greatest number is followed by the least. -/
  | wrapping
  deriving DecidableEq, Repr

namespace Counting

def least : Int := -0x8000000000000000

def greatest : Int := 0x7fffffffffffffff

/-- The number after `n`, if the count goes on. -/
def next? (k : Counting) (n : Int) : Option Int :=
  if n < greatest then some (n + 1)
  else match k with
    | exact => some (n + 1)
    | checked => none
    | wrapping => some least

variable {k : Counting} {n : Int}

@[simp] theorem next?_exact (n : Int) : exact.next? n = some (n + 1) := by simp [next?]

end Counting

/-- How a copy stands to the swarm. -/
inductive Phase where
  /-- It is what the swarm stores. -/
  | settled
  /-- It holds edits that were not sent. -/
  | edited
  /-- It was sent, and the swarm has not answered yet. -/
  | sent
  deriving DecidableEq, Repr, Inhabited

/-- The part of a copy that outlives the program. -/
structure Standing where
  phase : Phase := .settled
  seq : Int := 0
  entries : Entries := ∅
  /-- The hash under which the swarm stores this state. -/
  current : Option String := none
  /-- Hashes of messages that this state makes superfluous. -/
  retired : SortedSet String := ∅
  deriving DecidableEq

namespace Standing

def phaseLayout : Layout.Codec Phase := .oneOf [.settled, .edited, .sent]

def retiredLayout : Layout.Codec (SortedSet String) :=
  (Layout.Codec.list .text).via (SortedSet.addAll ∅) SortedMap.keys

/-- The bytes of a dump. -/
def layout : Layout.Codec Standing :=
  (Layout.Codec.pair phaseLayout
    (.pair .int (.pair Entries.layout (.pair (.option .text) retiredLayout)))).via
    (fun p => ⟨p.1, p.2.1, p.2.2.1, p.2.2.2.1, p.2.2.2.2⟩)
    fun s => (s.phase, s.seq, s.entries, s.current, s.retired)

/-- The standing with which a copy goes on after a restart. Edits that were saved may have been sent
before the program ended, so their sequence number is not used again. -/
def resume? (s : Standing) (k : Counting) : Option Standing :=
  if s.phase = .edited then (k.next? s.seq).map fun seq => { s with seq } else some s

end Standing

end AccountSync
