import AccountSync.Topic
/-!
Why a sync operation fails, and how it says so.
-/

namespace AccountSync

/-- The causes of failure. -/
inductive Failure where
  /-- No local account exists yet. -/
  | noUser
  /-- The account key is empty. -/
  | noThread
  /-- A config was needed and none is there. -/
  | noConfig
  /-- The engine behind a config failed in the named operation. -/
  | engine (topic : Topic) (operation : String) (reason : String)
  /-- A handler of merged configs failed. -/
  | handler (topic : Topic) (reason : String)
  | storage (reason : String)
  | transport (reason : String)
  /-- A transport call took longer than it may. -/
  | timeout
  | crypto (reason : String)
  | encoding (reason : String)
  /-- A stored name that no topic has. -/
  | unknownTopic (tag : String)
  | internal (reason : String)
  deriving DecidableEq, Repr

namespace Failure

def message : Failure → String
  | noUser => "User does not exist"
  | noThread => "No thread for an empty public key"
  | noConfig => "Config object is nil"
  | engine topic operation reason =>
    s!"Config library failed during {operation} on {topic.tag}: {reason}"
  | handler topic reason => s!"Handler for {topic.tag} failed: {reason}"
  | storage reason => s!"Storage error: {reason}"
  | transport reason => s!"Transport error: {reason}"
  | timeout => "Transport request timed out"
  | crypto reason => s!"Crypto error: {reason}"
  | encoding reason => s!"Serialization error: {reason}"
  | unknownTopic tag => s!"Invalid config variant: {tag}"
  | internal reason => s!"Internal error: {reason}"

/-- A config that was in use when its user broke off cannot be used again. -/
def unusable : Failure := internal "Lock poisoned: a thread panicked while holding the lock"

/-- The failure as one of the engine; those of the engine stay as they are. -/
def asEngine (topic : Topic) (operation : String) : Failure → Failure
  | .engine t o r => .engine t o r
  | f => .engine topic operation f.message

/-- The failure as one of a handler; those of a handler stay as they are. -/
def asHandler (topic : Topic) : Failure → Failure
  | .handler t r => .handler t r
  | f => .handler topic f.message

end Failure

/-- How a call into code that is not ours ends without a result: it reports a failure, or it breaks
off, with or without a text. -/
inductive Trouble where
  | failed (cause : Failure)
  | brokeOff (text : Option String)
  deriving DecidableEq, Repr

/-- The failure that a guarded call reports: one that broke off has failed. -/
def Trouble.guarded (topic : Topic) (operation : String) : Trouble → Failure
  | .failed cause => cause.asEngine topic operation
  | .brokeOff text => .engine topic operation (text.getD "unknown panic")

end AccountSync
