import AccountSync.Store.Database
/-!
Write transactions with actions for their end: some run after a commit, others undo things when the
transaction rolls back. Under one key only the first action counts.
-/

namespace AccountSync

/-- Actions under distinct keys, in order of registration. -/
structure Hooks (α : Type) where
  list : List (String × α) := []

namespace Hooks

variable {α : Type}

def has (h : Hooks α) (key : String) : Bool := h.list.any fun p => p.1 == key

/-- Registers an action, unless its key has one; says whether it did. -/
def register (h : Hooks α) (key : String) (action : α) : Bool × Hooks α :=
  if h.has key then (false, h) else (true, ⟨h.list ++ [(key, action)]⟩)

def actions (h : Hooks α) : List α := h.list.map (·.2)

def size (h : Hooks α) : Nat := h.list.length

end Hooks

/-- An open write transaction: the database as seen inside, the actions that follow a commit and
those that undo what was done. -/
structure Transaction (σ τ : Type) where
  database : Database
  after : Hooks σ := {}
  undo : Hooks τ := {}

/-- How a transaction ends. -/
inductive Close where
  | commit
  | rollback
  /-- It is forgotten: its rows are dropped, and nothing is undone. -/
  | abandon
  deriving DecidableEq, Repr

/-- What a transaction leaves: the rows that stay, and the actions to run, in this order. -/
structure Closed (σ τ : Type) where
  database : Database
  after : List σ := []
  undo : List τ := []

namespace Transaction

variable {σ τ : Type}

/-- Ends a transaction on a database that was `before`. Actions for a commit run in the order in
which they were registered, those that undo in the opposite order. -/
def close (tx : Transaction σ τ) (before : Database) : Close → Closed σ τ
  | .commit => { database := tx.database, after := tx.after.actions }
  | .rollback => { database := before, undo := tx.undo.actions.reverse }
  | .abandon => { database := before }

/-- The transaction with changed rows. -/
def onRows {ε α : Type} (tx : Transaction σ τ) (f : Database → Except ε (α × Database)) :
    Except ε (α × Transaction σ τ) := do
  let (a, database) ← f tx.database
  return (a, { tx with database })

end Transaction

end AccountSync
