import AccountSync.Device.Copies
import AccountSync.Device.Engine
import AccountSync.Stats
import AccountSync.Step
import AccountSync.Store.Migration
import AccountSync.Store.Transaction
/-!
A device and its write transactions. What a write does to copies takes effect at once, and what it
does to rows when it commits. Who changes a copy notes a checkpoint before, so that a write that
fails gives back every copy as it was; syncs are asked for after a commit only, once for each
account.
-/

namespace AccountSync

/-- Puts a copy back as it was at its checkpoint. -/
structure Undo where
  key : CopyKey
  copy : Replica
  deriving DecidableEq

/-- Says that an account needs a sync. -/
structure Signal where
  account : String
  listener : Listener
  deriving DecidableEq, Repr

/-- A device: what it holds in memory and what it has stored. -/
structure Device where
  copies : Copies := ∅
  database : Database := .migrated
  stats : Stats := {}
  /-- The accounts for which a sync was asked, in order. -/
  asked : List String := []
  /-- The calls of handlers, in order. -/
  applied : List Applied := []
  /-- How many messages were locked. -/
  pushes : Nat := 0
  deriving DecidableEq

/-- A device in the middle of a write. Its own rows stay as they are until the end. -/
structure Work where
  device : Device
  tx : Transaction Signal Undo

/-- A part of a write. -/
abbrev Write := Step Work

/-- The device that has just been started on a database. -/
def Device.restart (d : Device) : Device := { d with copies := ∅, stats := {} }

/-- Opens a write. -/
def Device.start (d : Device) : Work := ⟨d, { database := d.database }⟩

/-- The accounts that a listener hears of. -/
def Signal.heard (signals : List Signal) : List String :=
  signals.filterMap fun s => if s.listener = .queue then some s.account else none

def Undo.run (cs : Copies) (u : Undo) : Copies := cs.putBack u.key u.copy

/-- How a write ends: one with a result commits, one that failed rolls back, and one that broke off
is forgotten. -/
def Close.ofResult {α : Type} : Except Trouble α → Close
  | .ok _ => .commit
  | .error (.failed _) => .rollback
  | .error (.brokeOff _) => .abandon

/-- Ends a write. -/
def Work.finish (w : Work) (how : Close) : Device :=
  let closed := w.tx.close w.device.database how
  { w.device with
    database := closed.database
    copies := closed.undo.foldl Undo.run w.device.copies
    asked := w.device.asked ++ Signal.heard closed.after }

/-- A write from beginning to end. A commit does not fail here. Where the store refuses one, the rows
are as before the write but the checkpoints are dropped, so that the copies keep what it did to them. -/
def Device.write {α : Type} (d : Device) (body : Write α) : Except Trouble α × Device :=
  let (result, w) := body d.start
  (result, w.finish (.ofResult result))

/-- Runs what needs no transaction: rows are only read. -/
def Device.read {α : Type} (d : Device) (body : Write α) : Except Trouble α × Device :=
  let (result, w) := body d.start
  (result, w.device)

namespace Write

variable {α : Type}

/-! ### The transaction -/

/-- Reads or changes rows. -/
def rows (f : Database → Except Failure (α × Database)) : Write α := fun w =>
  match w.tx.onRows f with
  | .ok (a, tx) => (.ok a, { w with tx })
  | .error e => (.error (.failed e), w)

def store (d : Dump) : Write Unit := rows fun db => return ((), ← db.upsert d)

/-- The name of the action that tells of an account. -/
def signalName (account : String) : String := s!"config-sync-{account}"

/-- Asks for a sync of an account when the write commits. -/
def schedule (listener : Listener) (account : String) : Write Unit := Step.update fun w =>
  let (_, after) := w.tx.after.register (signalName account) ⟨account, listener⟩
  { w with tx := { w.tx with after } }

/-! ### Memory -/

def changeStats (f : Stats → Stats) : Write Unit := Step.update fun w =>
  { w with device := { w.device with stats := f w.device.stats } }

def logApplied (a : Applied) : Write Unit := Step.update fun w =>
  { w with device := { w.device with applied := w.device.applied ++ [a] } }

/-- A number that no other message of this device gets. -/
def freshPush : Write Nat := fun w =>
  (.ok w.device.pushes, { w with device := { w.device with pushes := w.device.pushes + 1 } })

/-- Puts what has become of a copy in its slot. -/
def settle (w : Work) (key : CopyKey) (slot : Slot) : Work :=
  { w with device := { w.device with copies := w.device.copies.insert key slot } }

/-- The name of the action that puts a copy back. -/
def undoName (key : CopyKey) : String := s!"config-restore-{key.topic.tag}-{key.account}"

/-- Notes how a copy is now, for the case that the write fails; only the first note of a write
counts. Says whether the copy is loaded. -/
def checkpoint (key : CopyKey) : Write Bool := fun w =>
  match w.device.copies.find? key with
  | none => (.ok false, w)
  | some slot =>
    if w.tx.undo.has (undoName key) then (.ok true, w)
    else match slot with
      | .broken => (.error (.failed .unusable), w)
      | .ready copy =>
        let (_, undo) := w.tx.undo.register (undoName key) ⟨key, copy⟩
        (.ok true, { w with tx := { w.tx with undo } })

end Write

/-! ### Use of one copy -/

/-- A part of a write that works on one copy. -/
abbrev Use := Step (Replica × Work)

namespace Use

variable {α : Type}

def copy : Use Replica := fun s => (.ok s.1, s)

/-- Something that leaves the copy alone. -/
def outside (x : Write α) : Use α := Step.within Prod.snd (fun w s => (s.1, w)) x

/-- Changes the copy. -/
def onCopy (f : Replica → α × Replica) : Use α := fun (r, w) =>
  let (a, r) := f r
  (.ok a, (r, w))

/-- Calls what works on the copy and may fail. -/
def call (f : Replica → Except Trouble α × Replica) : Use α := fun (r, w) =>
  let (result, r) := f r
  (result, (r, w))

/-- Calls the engine: if it fails or breaks off, the named operation has failed. -/
def guarded (topic : Topic) (operation : String) (f : Replica → Except Trouble α × Replica) :
    Use α :=
  call fun r =>
    let (result, r) := f r
    (result.mapError fun t => .failed (t.guarded topic operation), r)

/-- A dump of the copy, if it was not saved since it changed. -/
def dump? (env : Env) (key : CopyKey) (time : Int) : Use (Option Dump) := do
  if (← copy).unsaved then
    let data ← guarded key.topic "dump" env.engine.save
    return some ⟨key.topic, key.account, data, time⟩
  else return none

/-- Stores a dump of the copy if it was not saved since it changed; says whether it did. -/
def store? (env : Env) (key : CopyKey) (time : Int) : Use Bool := do
  match ← dump? env key time with
  | some dump =>
    outside (Write.store dump)
    return true
  | none => return false

end Use

/-- Works on a loaded copy. What was done to it stays, also if the work fails; a copy whose user
breaks off cannot be used again. -/
def Write.use {α : Type} (key : CopyKey) (body : Use α) : Write (Option α) := fun w =>
  match w.device.copies.find? key with
  | none => (.ok none, w)
  | some .broken => (.error (.failed .unusable), w)
  | some (.ready copy) =>
    match body (copy, w) with
    | (.ok a, (copy, w)) => (.ok (some a), Write.settle w key (.ready copy))
    | (.error (.failed f), (copy, w)) => (.error (.failed f), Write.settle w key (.ready copy))
    | (.error (.brokeOff t), (_, w)) => (.error (.brokeOff t), Write.settle w key .broken)

end AccountSync
