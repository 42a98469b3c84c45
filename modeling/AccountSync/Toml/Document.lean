/-!
The tables of a document, as its statements build them up. Each table is written in one place only:
by a header, by dotted keys, or as a value. What only names it on the way to another table leaves it
open.
-/

namespace AccountSync.Toml

/-- How a table came to be. -/
inductive Origin where
  /-- It has a header, or is the document itself. -/
  | header
  /-- It was named on the way to a header. -/
  | implied
  /-- It was named in a dotted key. -/
  | dotted
  /-- It is a value. -/
  | inline
  deriving DecidableEq, Repr

inductive Item where
  | text (s : String)
  | whole (i : Int)
  | boolean (b : Bool)
  /-- A number with a fraction, or a date. -/
  | other
  | array (items : List Item)
  | table (origin : Origin) (fields : List (String × Item))
  /-- The tables of one header that may stand several times. -/
  | tables (members : List (List (String × Item)))

/-- The fields of a table, in order. -/
abbrev Fields := List (String × Item)

namespace Fields

/-- Puts an item under a key, over the one that is there. -/
def put (key : String) (item : Item) : Fields → Fields
  | [] => [(key, item)]
  | (k, i) :: rest => if k = key then (k, item) :: rest else (k, i) :: put key item rest

/-- A table that dotted keys (or else headers) may go down into. -/
def isOpen (dotted : Bool) : Origin → Bool
  | .inline => false
  | .header => !dotted
  | .implied | .dotted => true

/-- Changes the table at the end of a path; what is missing on the way is made. -/
def within (dotted : Bool) (f : Origin → Fields → Option Fields) :
    List String → Origin → Fields → Option Fields
  | [], origin, fields => f origin fields
  | key :: path, _, fields => do
    let item ← match fields.lookup key with
      | none =>
        let origin := if dotted then .dotted else .implied
        pure (Item.table origin (← within dotted f path origin []))
      | some (.table origin inner) =>
        if isOpen dotted origin then
          pure (Item.table origin (← within dotted f path origin inner))
        else none
      | some (.tables members) =>
        let last ← members.getLast?
        pure (Item.tables (members.dropLast ++ [← within dotted f path .header last]))
      | some _ => none
    return fields.put key item

/-- Adds a field. -/
def add (key : String) (item : Item) (fields : Fields) : Option Fields :=
  if (fields.lookup key).isSome then none else some (fields ++ [(key, item)])

/-- Adds a field under a key that may be dotted. A table that dotted keys made takes no others. -/
def assign (path : List String) (item : Item) (origin : Origin) (fields : Fields) :
    Option Fields := do
  let key ← path.getLast?
  let way := path.dropLast
  within true (fun origin fields =>
    if (origin == .dotted) == way.isEmpty then none else fields.add key item) way origin fields

/-- Opens the table of a header. -/
def openTable (path : List String) (fields : Fields) : Option Fields := do
  let key ← path.getLast?
  within false (fun _ fields =>
    match fields.lookup key with
    | none => some (fields ++ [(key, .table .header [])])
    | some (.table .implied inner) => some (fields.put key (.table .header inner))
    | some _ => none) path.dropLast .header fields

/-- Opens one more table of a header that may stand several times. -/
def openMember (path : List String) (fields : Fields) : Option Fields := do
  let key ← path.getLast?
  within false (fun _ fields =>
    match fields.lookup key with
    | none => some (fields ++ [(key, .tables [[]])])
    | some (.tables members) => some (fields.put key (.tables (members ++ [[]])))
    | some _ => none) path.dropLast .header fields

end Fields

/-- A statement of a document. -/
inductive Statement where
  | table (path : List String)
  | member (path : List String)
  | assign (path : List String) (item : Item)

/-- A document in the making: its fields, and the path of the header that was last. -/
structure Draft where
  fields : Fields := []
  current : List String := []

namespace Draft

def step (d : Draft) : Statement → Option Draft
  | .table path => do return ⟨← d.fields.openTable path, path⟩
  | .member path => do return ⟨← d.fields.openMember path, path⟩
  | .assign path item => do
    let fields ← d.fields.within false (Fields.assign path item) d.current .header
    return { d with fields }

end Draft

/-- The fields that statements give. -/
def Fields.ofStatements (l : List Statement) : Option Fields :=
  (l.foldlM Draft.step {}).map Draft.fields

/-- The fields that the pairs of a table in braces give. -/
def Fields.ofPairs (l : List (List String × Item)) : Option Fields :=
  l.foldlM (fun fields (path, item) => Fields.assign path item .inline fields) []

end AccountSync.Toml
