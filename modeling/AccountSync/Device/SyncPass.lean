import AccountSync.Device.Publish
/-!
A sync pass: all messages of an account go to the swarm, what they make superfluous is deleted
there, and the copies are told what was stored. A message that is not stored is made again by the
next pass.
-/

namespace AccountSync

/-- The way to the swarm. While a call is under way the device goes on working, so a call ends with
a state of its own and a device. -/
structure Transport (σ : Type) where
  /-- Stores a message and says under which hash. -/
  store : (account : String) → Outgoing → σ × Device → Except Failure String × (σ × Device)
  delete : (account : String) → List String → σ × Device → Except Failure Unit × (σ × Device)

/-- What a pass did. -/
structure Report where
  pushed : Nat := 0
  failed : Nat := 0
  deleted : Nat := 0
  deriving DecidableEq, Repr

namespace SyncPass

variable {σ : Type}

/-- A message that the swarm stored. -/
structure Stored where
  outgoing : Outgoing
  hash : String
  deriving DecidableEq, Repr

/-- Sends messages one after the other; lists those that were stored. -/
def send (t : Transport σ) (account : String) :
    List Outgoing → σ × Device → List Stored × (σ × Device)
  | [], s => ([], s)
  | o :: rest, s =>
    let (result, s) := t.store account o s
    let (stored, s) := send t account rest s
    match result with
    | .ok hash => (⟨o, hash⟩ :: stored, s)
    | .error _ => (stored, s)

/-- The hashes that stored messages make superfluous, each once and in order. -/
def superseded (stored : List Stored) : List String :=
  (SortedSet.addAll ∅ (stored.flatMap (·.outgoing.superseded))).keys

/-- Deletes hashes, if there are any; says how many. -/
def prune (t : Transport σ) (account : String) (hashes : List String) (s : σ × Device) :
    Nat × (σ × Device) :=
  if hashes = [] then (0, s)
  else match t.delete account hashes s with
    | (.ok (), s) => (hashes.length, s)
    | (.error _, s) => (0, s)

/-- Tells the copies what was stored, and saves them. -/
def confirmAll (env : Env) (account : String) : List Stored → Write Unit
  | [] => pure ()
  | s :: rest => do
    if let some dump ← Write.confirm env account s.outgoing.message s.hash then Write.store dump
    confirmAll env account rest

/-- One pass for an account. -/
def run (env : Env) (t : Transport σ) (account : String) (s : σ × Device) :
    Except Trouble Report × (σ × Device) :=
  match s.2.read (Write.collect env account) with
  | (.error e, d) => (.error e, (s.1, d))
  | (.ok outgoing, d) =>
    let (stored, s) := send t account outgoing (s.1, d)
    let (deleted, s) := prune t account (superseded stored) s
    let report := ⟨stored.length, outgoing.length - stored.length, deleted⟩
    if stored = [] then (.ok report, s)
    else
      let (result, d) := s.2.write (confirmAll env account stored)
      (result.map fun () => report, (s.1, d))

/-- A pass for each of several accounts; one that fails does not keep the others from theirs. -/
def serve (env : Env) (t : Transport σ) (accounts : List String) (s : σ × Device) : σ × Device :=
  accounts.foldl (fun s account => (run env t account s).2) s

end SyncPass

end AccountSync
