import AccountSync.Device.Write
/-!
How the loaded copies of an account stand.
-/

namespace AccountSync

/-- How one copy stands. -/
structure Status where
  topic : Topic
  needsPush : Bool
  unsaved : Bool
  hashes : List String
  deriving DecidableEq, Repr

namespace Write

/-- What a look at each loaded copy of an account gives, by rank. -/
def inspect {α : Type} (account : String) (view : Topic → Replica → α) : Write (List α) := do
  let topics := (← Step.state).device.copies.topicsOf account
  let views ← Step.each (fun topic => use ⟨account, topic⟩ (Use.onCopy fun r => (view topic r, r)))
    topics
  return views.filterMap id

def status (account : String) : Write (List Status) :=
  inspect account fun topic r => ⟨topic, r.needsPush, r.unsaved, r.hashes⟩

/-- The hashes of all messages that back an account's copies. -/
def hashes (account : String) : Write (List String) :=
  List.flatten <$> inspect account fun _ r => r.hashes

/-- Some copy among these has changes that the swarm has not confirmed. -/
def anyNeedsPush : List (CopyKey × Slot) → Except Failure Bool
  | [] => .ok false
  | (_, .broken) :: _ => .error .unusable
  | (_, .ready r) :: rest => if r.needsPush then .ok true else anyNeedsPush rest

/-- Some loaded copy has changes that the swarm has not confirmed. -/
def needsSync : Write Bool := fun w =>
  ((anyNeedsPush w.device.copies.toList).mapError .failed, w)

end Write

end AccountSync
