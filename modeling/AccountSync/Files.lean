import AccountSync.Bytes
/-!
Files: what the program asks of a file system, and why it may not get it.
-/

namespace AccountSync

/-- Why a file or folder cannot be had. -/
inductive FileFault where
  | missing
  /-- Something else is there. -/
  | occupied
  | notFolder
  | isFolder
  | nameTooLong
  | refused (reason : String)
  deriving DecidableEq, Repr

def FileFault.message : FileFault → String
  | missing => "No such file or directory (os error 2)"
  | occupied => "File exists (os error 17)"
  | notFolder => "Not a directory (os error 20)"
  | isFolder => "Is a directory (os error 21)"
  | nameTooLong => "File name too long (os error 36)"
  | refused reason => reason

/-- What the program asks of a file system. -/
structure FileSystem (m : Type → Type) where
  read : String → m (Except FileFault Bytes)
  write : String → Bytes → m (Except FileFault Unit)
  /-- Makes a folder and those that it is in, as far as they are not there. -/
  makeFolders : String → m (Except FileFault Unit)

/-- The folder that a path names something in; empty for the present one. -/
def folderOf (path : String) : String :=
  let steps := path.splitOn "/"
  let named := steps.zipIdx.filter fun (step, i) => step ≠ "" ∧ (step ≠ "." ∨ i = 0)
  match named.reverse with
  | [] => ""
  | [_] => if path.startsWith "/" then "/" else ""
  | _ :: (_, i) :: _ => "/".intercalate (steps.take (i + 1))

end AccountSync
