import AccountSync.Device.Write
/-!
Loading: how the copies of an account come from its dumps into memory, and how they leave it. Each
topic loads on its own: a dump that cannot be read leaves its topic unloaded, and a topic without a
dump starts empty.
-/

namespace AccountSync

namespace Write

/-- Loads a copy, in place of one that is there. -/
def register (key : CopyKey) (copy : Replica) : Write Unit := Step.update fun w =>
  settle w key (.ready copy)

/-- Starts the copy of one topic; says whether that worked. -/
def startCopy (env : Env) (key : CopyKey) (secret : Bytes) (dump : Option Bytes) : Write Bool :=
  match env.engine.start key.topic secret dump with
  | .error _ => pure false
  | .ok copy => do
    register key copy
    return true

/-- Starts copies of an account one after the other; lists the topics for which that worked. -/
def startAll (env : Env) (account : String) (secret : Bytes) :
    List (Topic × Option Bytes) → Write (List Topic)
  | [] => pure []
  | (topic, dump) :: rest => do
    let started ← startCopy env ⟨account, topic⟩ secret dump
    let topics ← startAll env account secret rest
    return if started then topic :: topics else topics

/-- Loads the copies of an account and lists their topics by rank. Without a secret, or with
anything loaded already, there is nothing to do. -/
def load (env : Env) (account : String) (secret : Option Bytes) : Write (List Topic) := do
  match secret with
  | none | some [] => return []
  | some secret =>
    if !(← Step.state).device.copies.isEmpty then return []
    let dumps ← rows fun db => return (← db.fetchAll account, db)
    let stored := dumps.map (·.topic)
    let missing := Topic.all.filter fun t => !stored.contains t
    let started ← startAll env account secret
      (dumps.map (fun d => (d.topic, some d.data)) ++ missing.map (·, none))
    return Topic.byRank.filter started.contains

/-- Drops everything loaded. -/
def clear : Write Unit := Step.update fun w => { w with device := { w.device with copies := ∅ } }

/-- Drops an account's copies from memory; says how many there were. -/
def unload (account : String) : Write Nat := fun w =>
  let copies := w.device.copies.without account
  (.ok (w.device.copies.size - copies.size), { w with device := { w.device with copies } })

/-- Drops an account's copies from memory and its dumps from storage; says how many dumps there
were. -/
def removeAccount (account : String) : Write Nat := do
  let _ ← unload account
  rows fun db => db.removeAll account

end Write

end AccountSync
