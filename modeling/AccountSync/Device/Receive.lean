import AccountSync.Device.Write
import AccountSync.Message
/-!
Received messages. A batch is sorted by sequence number and split by topic, and the topics take
their shares by rank: the copy merges its share, the topic's handler is told, and the copy is saved
or its dump refreshed. If a handler fails, the whole batch fails.
-/

namespace AccountSync

/-- What became of one topic's share of a batch. -/
structure Outcome where
  topic : Topic
  /-- How many messages were handed to the merge. -/
  received : Nat
  needsPush : Bool
  needsDump : Bool := false
  /-- The hashes of the accepted messages. -/
  hashes : List String := []
  /-- When the newest of them was sent. -/
  latest : Option Int := none
  deriving DecidableEq, Repr

namespace Receive

/-- The messages that the swarm has a hash for, as a merge takes them. -/
def batch (share : List Message) : List (String × Bytes) :=
  share.filterMap fun m => m.hash.map (·, m.payload)

/-- When the message of a hash was sent, at the latest. -/
def sentAt? (share : List Message) (hash : String) : Option Int :=
  (share.filterMap fun m => if m.hash = some hash then m.time else none).max?

/-- When the newest of the accepted messages was sent; the present if none says so. -/
def latest (env : Env) (share : List Message) (accepted : List String) : Int :=
  (accepted.filterMap (sentAt? share)).max?.getD env.now

/-- Tells a topic's handler of a merge. -/
def tell (env : Env) (key : CopyKey) (latest : Int) : Use Unit := do
  let r ← Use.copy
  let update : Update := ⟨key.account, r.unsaved, latest⟩
  let handler := env.handler key.topic
  match handler.apply r update with
  | .ok () => Use.outside (Write.logApplied ⟨handler.name, key.topic, r.live, update⟩)
  | .error (.failed f) => Step.fail (f.asHandler key.topic)
  | .error t => Step.stop t

/-- Saves the copy, or marks its dump as fresh. -/
def keep (env : Env) (key : CopyKey) (latest : Int) : Use Unit := do
  if (← Use.copy).unsaved then
    let _ ← Use.store? env key latest
  else
    let _ ← Use.outside (Write.rows fun db => db.touch key.topic key.account latest)

/-- Merges a share into the copy. -/
def mergeShare (env : Env) (key : CopyKey) (share : List Message) : Use Outcome := do
  let batch := batch share
  let accepted ← Use.guarded key.topic "merge" (env.engine.merge batch)
  if accepted = [] then
    return { topic := key.topic, received := batch.length, needsPush := (← Use.copy).needsPush }
  let latest := latest env share accepted
  let needsDump := (← Use.copy).unsaved
  tell env key latest
  keep env key latest
  return { topic := key.topic, received := batch.length, needsPush := (← Use.copy).needsPush,
           needsDump, hashes := accepted, latest := some latest }

/-- Merges a share into the topic's copy, if that is loaded. -/
def takeShare (env : Env) (key : CopyKey) (share : List Message) : Write (Option Outcome) := do
  if ← Write.checkpoint key then Write.use key (mergeShare env key share) else return none

/-- A batch in the order in which it is merged. -/
def sorted (messages : List Message) : List Message :=
  messages.mergeSort fun a b => decide (a.seq ≤ b.seq)

/-- The shares of a batch, by rank of their topics. -/
def shares (messages : List Message) : List (Topic × List Message) :=
  Topic.byRank.filterMap fun t =>
    match (sorted messages).filter (·.topic = t) with
    | [] => none
    | share => some (t, share)

end Receive

namespace Write

/-- Takes received messages; lists what became of each loaded topic among them. -/
def receive (env : Env) (account : String) (messages : List Message) : Write (List Outcome) := do
  if account = "" then Step.fail .noThread
  let outcomes ← Step.each
    (fun (topic, share) => Receive.takeShare env ⟨account, topic⟩ share) (Receive.shares messages)
  let outcomes := outcomes.filterMap id
  if outcomes.any (·.needsPush) then schedule env.listener account
  changeStats fun s => outcomes.foldl
    (fun s o => (s.merge o.received o.hashes.length).save (if o.needsDump then 1 else 0)) s
  return outcomes

end Write

end AccountSync
