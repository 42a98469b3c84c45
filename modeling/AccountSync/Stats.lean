/-!
Counters of what a device did since it started. They are words of 64 bits and wrap around.
-/

namespace AccountSync

structure Stats where
  /-- Messages handed to a merge. -/
  received : UInt64 := 0
  /-- Messages that a merge accepted. -/
  accepted : UInt64 := 0
  /-- Messages made for the swarm. -/
  generated : UInt64 := 0
  /-- Confirmations that applied. -/
  confirmed : UInt64 := 0
  /-- Dumps made. -/
  saved : UInt64 := 0
  deriving DecidableEq, Repr, Inhabited

namespace Stats

def merge (s : Stats) (received accepted : Nat) : Stats :=
  { s with received := s.received + .ofNat received, accepted := s.accepted + .ofNat accepted }

def generate (s : Stats) (messages : Nat) : Stats :=
  { s with generated := s.generated + .ofNat messages }

def confirm (s : Stats) : Stats := { s with confirmed := s.confirmed + 1 }

def save (s : Stats) (dumps : Nat) : Stats := { s with saved := s.saved + .ofNat dumps }

end Stats

end AccountSync
