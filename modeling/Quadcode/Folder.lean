/-!
# Reading files

Why a file cannot be read, and what reading a path gives in a working folder of which only the files
are known (`Folder.read`). A path is walked part by part from the working folder, or from the root
if it begins with a slash. The first part that leads nowhere decides the error, and a folder can be
walked through but not read.
-/

namespace Quadcode

/-- Why a file is not read. -/
inductive ReadError where
  | missing
  | notFolder
  | isFolder
  | nameTooLong
  | notText
  | other (reason : String)
deriving DecidableEq, Repr

/-- Why a file is not read, in words. -/
def ReadError.message : ReadError → String
  | .missing => "No such file or directory (os error 2)"
  | .notFolder => "Not a directory (os error 20)"
  | .isFolder => "Is a directory (os error 21)"
  | .nameTooLong => "File name too long (os error 36)"
  | .notText => "stream did not contain valid UTF-8"
  | .other reason => reason

/-- The files of a working folder, by name. -/
structure Folder where
  files : List (String × ByteArray) := []

namespace Folder

/-- Where a walk has led. Nothing is known of what other folders hold. -/
inductive Place where
  | working
  | elsewhere
  | file (bytes : ByteArray)

/-- The place that the part `name` of a path leads to. An empty part stands
for the folder it is in. -/
def step (f : Folder) : Place → String → Except ReadError Place
  | .file _, _ => .error .notFolder
  | place, "" => .ok place
  | place, "." => .ok place
  | _, ".." => .ok .elsewhere
  | place, name =>
    if 255 < name.utf8ByteSize then .error .nameTooLong
    else
      match place, f.files.lookup name with
      | .working, some bytes => .ok (.file bytes)
      | _, _ => .error .missing

/-- The bytes of the file that a path leads to. -/
def read (f : Folder) (path : String) : Except ReadError ByteArray := do
  if 4095 < path.utf8ByteSize then throw .nameTooLong
  let start : Place := if path.toList.head? = some '/' then .elsewhere else .working
  match ← (path.splitOn "/").foldlM f.step start with
  | .file bytes => pure bytes
  | _ => throw .isFolder

end Folder

end Quadcode
