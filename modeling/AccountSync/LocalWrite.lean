import AccountSync.Bytes
import AccountSync.Topic
/-!
Writes to the device's own tables, and which of them belong in a config. Rows of the account itself
go to its profile, those of others to the contacts, under a key that names row and column.
-/

namespace AccountSync

/-- What to do to one key of a config: put the value, or remove it. -/
structure Change where
  key : String
  value : Option Bytes
  deriving DecidableEq, Repr

/-- The tables with columns that are kept in step. -/
inductive Table where
  | profile
  | contact
  | thread
  deriving DecidableEq, Repr

/-- A write to a setting or to a column of a row; without a value it removes. -/
inductive LocalWrite where
  | setting (name : String) (value : Option Bytes)
  | cell (table : Table) (column : String) (row : String) (value : Option Bytes)
  deriving DecidableEq, Repr

namespace LocalWrite

def sharedSettings : List String := ["checkForCommunityMessageRequests"]

/-- What a column is about, if it is kept in step. -/
inductive Column where
  /-- The name and picture of somebody. -/
  | portrait
  /-- How the account stands to somebody. -/
  | relation
  /-- How a conversation is shown. -/
  | display
  /-- Whether a conversation was read. -/
  | reading
  deriving DecidableEq, Repr

def columnKind? (table : Table) (column : String) : Option Column :=
  match table with
  | .profile =>
    if ["name", "profilePictureUrl", "profileEncryptionKey"].contains column then some .portrait
    else none
  | .contact =>
    if ["isApproved", "isBlocked", "didApproveMe"].contains column then some .relation else none
  | .thread =>
    if ["shouldBeVisible", "pinnedPriority"].contains column then some .display
    else if column = "markedAsUnread" then some .reading
    else none

/-- The config and the key that a column of a row goes to; `own` rows are the account's. -/
def place? (kind : Column) (own : Bool) (row column : String) : Option (Topic × String) :=
  match kind, own with
  | .portrait, true => some (.userProfile, column)
  | .portrait, false => some (.contacts, s!"{row}.{column}")
  | .relation, true => none
  | .relation, false => some (.contacts, s!"{row}.{column}")
  | .display, true => some (.userProfile, s!"noteToSelf.{column}")
  | .display, false => some (.contacts, s!"{row}.{column}")
  | .reading, _ => some (.convoInfoVolatile, s!"{row}.{column}")

/-- The change that a write of an account's device makes to a config, if it makes one. -/
def target? (account : String) : LocalWrite → Option (Topic × Change)
  | setting name value =>
    if sharedSettings.contains name then some (.userProfile, ⟨s!"setting.{name}", value⟩) else none
  | cell table column row value => do
    let kind ← columnKind? table column
    let (topic, key) ← place? kind (row == account) row column
    return (topic, ⟨key, value⟩)

end LocalWrite

end AccountSync
