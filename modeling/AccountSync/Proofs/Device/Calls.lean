import AccountSync.Device.Edit
import AccountSync.Device.Receive
import AccountSync.Proofs.Step
/-!
What a write may call. The body of a write is a tree: it ends with an answer of its own, or calls
one of the operations that change copies and goes on in one way or another, depending on what that
answers. A body may go on after a failure, but not after a call that broke off.
-/

namespace AccountSync

/-- An operation that changes copies within a write. -/
inductive Call (α : Type) where
  | receive (account : String) (messages : List Message)
  | edit (key : CopyKey) (body : Replica → α × Replica)
  | follow (writes : List LocalWrite)

/-- What an operation answers. -/
inductive Reply (α : Type) where
  | received (outcomes : List Outcome)
  | edited (answer : Option α)
  | followed (changed : Bool)

/-- The body of a write. Time passes between calls, and handlers need not answer twice the same. -/
inductive Body (α β : Type) where
  | done (result : Except Failure β)
  | call (env : Env) (what : Call α) (next : Except Failure (Reply α) → Body α β)

variable {α β : Type}

def Call.run (env : Env) : Call α → Write (Reply α)
  | receive account messages => .received <$> Write.receive env account messages
  | edit key body => .edited <$> Write.edit env key body
  | follow writes => .followed <$> Write.follow env writes

def Body.run : Body α β → Write β
  | done (.ok b) => pure b
  | done (.error f) => Step.fail f
  | call env what next => do
    let reply ← (what.run env).attempt
    (next reply).run

end AccountSync
