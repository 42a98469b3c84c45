import AccountSync.Files
import AccountSync.SortedMap
/-!
A file system that is a value: what is in a folder and below it, by the way that leads there. A way
goes through folders only, and `..` leads back to where the one before it began.
-/

namespace AccountSync

/-- The steps that lead to a file or folder; the first is `/` if they begin at the root. -/
abbrev Way := List String

inductive Node where
  | file (content : Bytes)
  | folder
  deriving DecidableEq

abbrev Tree := SortedMap Way Node

namespace Tree

/-- The step back. -/
def back : String := ".."

/-- One step on. Above the root there is nothing. -/
def enter (way : Way) (step : String) : Way :=
  if step = back ∧ way.getLast?.any (· ≠ back) then
    if way = ["/"] then way else way.dropLast
  else way ++ [step]

/-- What a way leads to. The folders around the present one are there. -/
def node? (t : Tree) (way : Way) : Option Node :=
  if way = ["/"] ∨ way.all (· = back) then some .folder else t.find? way

def start (path : String) : Way := if path.startsWith "/" then ["/"] else []

/-- The steps of a path, without those that lead nowhere. -/
def steps (path : String) : List String :=
  ((path.toList.splitOn '/').map String.ofList).filter fun step => step ≠ "" ∧ step ≠ "."

/-- The greatest length of a name, in bytes. -/
def nameLimit : Nat := 255

/-- Follows steps through folders. Whether anything is at the end is left open. -/
def follow (t : Tree) (way : Way) : List String → Except FileFault Way
  | [] => .ok way
  | step :: rest =>
    match t.node? way with
    | some .folder =>
      if step.utf8ByteSize ≤ nameLimit then follow t (enter way step) rest
      else .error .nameTooLong
    | some (.file _) => .error .notFolder
    | none => .error .missing

/-- A path with this many bytes is too long. -/
def pathLimit : Nat := 4096

/-- What is wrong with a path, wherever it leads. -/
def fault? (path : String) : Option FileFault :=
  if path = "" then some .missing
  else if path.toList.contains '\x00' then
    some (.refused "file name contained an unexpected NUL byte")
  else if pathLimit ≤ path.utf8ByteSize then some .nameTooLong
  else none

/-- The way of a path. -/
def locate (t : Tree) (path : String) : Except FileFault Way :=
  match fault? path with
  | some fault => .error fault
  | none => t.follow (start path) (steps path)

/-- A path that can name a folder only. -/
def namesFolder (path : String) : Bool := path.endsWith "/" || path.endsWith "/."

def read (t : Tree) (path : String) : Except FileFault Bytes := do
  match t.node? (← t.locate path) with
  | some (.file content) => if namesFolder path then .error .notFolder else return content
  | some .folder => .error .isFolder
  | none => .error .missing

def write (t : Tree) (path : String) (content : Bytes) : Except FileFault Tree := do
  let way ← t.locate path
  match t.node? way with
  | some .folder => .error .isFolder
  | some (.file _) =>
    if namesFolder path then .error .notFolder else return t.insert way (.file content)
  | none => if namesFolder path then .error .isFolder else return t.insert way (.file content)

/-- Makes the folders of a way from a place on; `made` says that one was missing before. -/
def makeFrom (t : Tree) (made : Bool) (way : Way) : List String → Except FileFault Unit × Tree
  | [] => (.ok (), t)
  | step :: rest =>
    let next := enter way step
    match t.node? next with
    | some .folder => makeFrom t made next rest
    | some (.file _) => (.error (if made || rest = [] then .occupied else .notFolder), t)
    | none =>
      if step.utf8ByteSize ≤ nameLimit then makeFrom (t.insert next .folder) true next rest
      else (.error .nameTooLong, t)

/-- Makes the folders of a path. Those that were made before a fault stay. -/
def makeFolders (t : Tree) (path : String) : Except FileFault Unit × Tree :=
  match fault? path with
  | some fault => (.error fault, t)
  | none => t.makeFrom false (start path) (steps path)

/-- A change of a tree that may not be possible. -/
def changed (t : Tree) : Except FileFault Tree → Except FileFault Unit × Tree
  | .ok t => (.ok (), t)
  | .error fault => (.error fault, t)

/-- A tree as a file system. -/
def system : FileSystem (StateM Tree) where
  read path := fun t => (t.read path, t)
  write path content := fun t => t.changed (t.write path content)
  makeFolders path := fun t => t.makeFolders path

end Tree

end AccountSync
