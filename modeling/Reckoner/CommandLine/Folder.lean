import Reckoner.Failure

/-! # A folder of files

A flat folder in memory, in which paths are looked up as in a file system: `.` and empty parts of a
path stay where they are, `..` leaves the folder for one that holds nothing else, and a path must not
go on behind a file.
-/
namespace Reckoner
set_option autoImplicit false

structure Folder where
  files : List (String × List UInt8) := []

namespace Folder

inductive Entry where
  | here
  | above (levels : Nat)
  | file (content : List UInt8)

def enter (folder : Folder) (entry : Entry) (part : String) : Except StreamFault Entry :=
  match entry with
  | .file _ => .error .notFolder
  | .here =>
    if part = "" ∨ part = "." then .ok .here
    else if part = ".." then .ok (.above 1)
    else
      match folder.files.lookup part with
      | some content => .ok (.file content)
      | none => .error .missing
  | .above levels =>
    if part = "" ∨ part = "." then .ok (.above levels)
    else if part = ".." then .ok (.above (levels + 1))
    else .error .missing

def read (folder : Folder) (path : String) : Except StreamFault (List UInt8) := do
  let start := if path.startsWith "/" then Entry.above 0 else .here
  match ← (path.splitOn "/").foldlM folder.enter start with
  | .file content => .ok content
  | .here | .above _ => .error .folder

end Folder
end Reckoner
