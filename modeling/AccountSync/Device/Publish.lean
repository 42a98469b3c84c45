import AccountSync.Device.Write
import AccountSync.Message
/-!
Publishing: which messages a device has for the swarm, and what it does when the swarm has stored
one. To make a message leaves a copy unconfirmed, so one that is not stored is made again.
-/

namespace AccountSync

namespace Write

/-- The message of a copy that has changes to publish. -/
def publish? (env : Env) (key : CopyKey) : Use (Option Outgoing) := do
  if !(← Use.copy).needsPush then return none
  let n ← Use.outside freshPush
  let push ← Use.guarded key.topic "push" (env.engine.push (env.nonce n))
  return some ⟨⟨key.topic, push.seq, push.payload, some env.now, none⟩, push.superseded⟩

/-- The topics of an account that may have something to publish. -/
def publishedTopics (account identity : String) (dumped : List Topic) : List Topic :=
  if identity = account then Topic.all else dumped

/-- The messages of an account for the swarm, one for each copy with changes to publish. -/
def collect (env : Env) (account : String) : Write (List Outgoing) := do
  match env.identity with
  | none => Step.fail .noUser
  | some identity =>
    let dumped ← rows fun db => return (← db.topicsOf account, db)
    let messages ← Step.each
      (fun topic => Option.join <$> use ⟨account, topic⟩ (publish? env ⟨account, topic⟩))
      (publishedTopics account identity dumped)
    let messages := messages.filterMap id
    changeStats (·.generate messages.length)
    return messages

/-- The swarm stores a message of an account under `hash`. Gives the dump to store, if that changed
the copy. -/
def confirm (env : Env) (account : String) (message : Message) (hash : String) :
    Write (Option Dump) := do
  let key : CopyKey := ⟨account, message.topic⟩
  let confirmed ← use key do
    let applied ← Use.guarded key.topic "confirm_pushed" (env.engine.confirm message.seq hash)
    let dump ← Use.dump? env key (message.time.getD env.now)
    return (applied, dump)
  match confirmed with
  | none => return none
  | some (applied, dump) =>
    if applied then changeStats Stats.confirm
    if dump.isSome then changeStats (·.save 1)
    return dump

end Write

end AccountSync
