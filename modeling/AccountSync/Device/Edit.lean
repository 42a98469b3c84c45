import AccountSync.Device.Write
/-!
Edits of loaded copies: by whoever holds the device, and by writes to the device's own tables.
-/

namespace AccountSync

/-- What following one local write did. -/
structure Followed where
  changed : Bool
  saved : Bool
  needsPush : Bool
  deriving DecidableEq, Repr

namespace Write

variable {α : Type}

/-- Edits a copy without a checkpoint, a dump or a sync. -/
def editDirectly (key : CopyKey) (body : Replica → α × Replica) : Write (Option α) :=
  use key (Use.onCopy body)

/-- Edits a loaded copy, saves it and asks for a sync, as far as the edit calls for that. -/
def edit (env : Env) (key : CopyKey) (body : Replica → α × Replica) : Write (Option α) := do
  if !(← checkpoint key) then return none
  let edited ← use key do
    let a ← Use.onCopy body
    if ← Use.store? env key env.now then Use.outside (changeStats (·.save 1))
    return (a, (← Use.copy).needsPush)
  match edited with
  | none => return none
  | some (a, needsPush) =>
    if needsPush then schedule env.listener key.account
    return some a

/-- Makes the change of one local write. -/
def followOne (env : Env) (account : String) (w : LocalWrite) : Write (Option Followed) := do
  match w.target? account with
  | none => return none
  | some (topic, change) =>
    let key : CopyKey := ⟨account, topic⟩
    if !(← checkpoint key) then return none
    use key do
      let changed ← Use.call ((env.handler topic).applyLocal change)
      let saved ← if changed then Use.store? env key env.now else pure false
      return ⟨changed, saved, (← Use.copy).needsPush⟩

/-- Follows local writes of the device's account with changes to its copies; says whether any copy
changed. -/
def follow (env : Env) (writes : List LocalWrite) : Write Bool := do
  match env.identity with
  | none => return false
  | some account =>
    let followed := (← Step.each (followOne env account) writes).filterMap id
    if followed.any (·.needsPush) then schedule env.listener account
    changeStats (·.save (followed.countP (·.saved)))
    return followed.any (·.changed)

end Write

end AccountSync
