import AccountSync.CommandLine.Program
import Std.Time.DateTime.Timestamp
/-!
The program on this machine: its files, its clock, and where answers and complaints go.
-/

namespace AccountSync

def FileFault.ofError : IO.Error → FileFault
  | .noFileOrDirectory .. => .missing
  | .alreadyExists .. => .occupied
  | .inappropriateType _ code _ => if code = 21 then .isFolder else .notFolder
  | .invalidArgument _ code reason =>
    if code = 36 then .nameTooLong else .refused s!"{reason} (os error {code})"
  | .permissionDenied _ code reason => .refused s!"{reason} (os error {code})"
  | e => .refused (toString e)

/-- What an action on files gives, with its error as a value. -/
def attempt {α : Type} (action : IO α) : IO (Except FileFault α) := do
  try
    return .ok (← action)
  catch e =>
    return .error (.ofError e)

/-- The files of this machine. -/
def machineFiles : FileSystem IO where
  read path := attempt do return (← IO.FS.readBinFile path).data.toList
  write path content := attempt (IO.FS.writeBinFile path ⟨content.toArray⟩)
  makeFolders path := attempt do
    try
      IO.FS.createDir path
    catch
      | .noFileOrDirectory .. | .alreadyExists .. => IO.FS.createDirAll path
      | e => throw e

/-- The present, in milliseconds. -/
def present : IO Int := do
  return (← Std.Time.Timestamp.now).toMillisecondsSinceUnixEpoch.val

end AccountSync

open AccountSync in
/-- Runs the program with the given arguments. -/
def main (args : List String) : IO UInt32 := do
  let ending ← Program.run machineFiles (← present) args
  for remark in ending.remarks do
    IO.eprintln remark
  IO.print ending.output
  if let some mishap := ending.mishap then
    IO.eprintln mishap.text
  return ending.code
