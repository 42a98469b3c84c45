import AccountSync.Bytes
import AccountSync.Topic
/-!
Messages as they travel between a device and the swarm.
-/

namespace AccountSync

/-- A published state of one topic, in its locked form. -/
structure Message where
  topic : Topic
  seq : Int
  payload : Bytes
  /-- When it was sent, in milliseconds. -/
  time : Option Int
  /-- The hash under which the swarm stores it. -/
  hash : Option String
  deriving DecidableEq, Repr

/-- A message on its way to the swarm, and the stored messages that it makes superfluous. -/
structure Outgoing where
  message : Message
  superseded : List String
  deriving DecidableEq, Repr

end AccountSync
