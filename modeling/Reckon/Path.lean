import Reckon.Source

/-! # Paths and directories

Names of files between slashes, and a directory as the files that are found from it by such names.
Opening a directory succeeds, like opening a file; only reading it fails. A path and each of its
names have a greatest length, which is counted in bytes.
-/

namespace Reckon

namespace Path

/-- The names of a path, empty ones left out. -/
def names (path : String) : List String := (path.splitOn "/").filter (· ≠ "")

/-- The last name of a path, if it ends in one. -/
def fileName? (path : String) : Option String :=
  ((names path).filter (· ≠ ".")).getLast?.filter (· ≠ "..")

end Path

/-- A working directory: its files by their paths from it. -/
structure Directory where
  files : List (String × List UInt8)

namespace Directory

/-- Where a walk along a path has come to. -/
inductive Place where
  /-- A directory, by its path from the working directory. -/
  | directory (path : List String)
  /-- A directory outside of the working directory, of which nothing is known. -/
  | outside
  | file (bytes : List UInt8)

/-- The reason for not opening a path that is not there. -/
def missing : String := "No such file or directory (os error 2)"

/-- The reason for not opening a path that leads through a file. -/
def notDirectory : String := "Not a directory (os error 20)"

/-- The reason for not opening a path that is too long or has a name that is too long. -/
def nameTooLong : String := "File name too long (os error 36)"

def longestName : Nat := 255

def longestPath : Nat := 4095

/-- The reason for not reading a directory. -/
def isDirectory : String := "Is a directory (os error 21)"

/-- The reason for not finding a name in a directory. -/
def absent (name : String) : String :=
  if longestName < name.utf8ByteSize then nameTooLong else missing

def follow (d : Directory) (name : String) : Place → Except String Place
  | .file _ => .error notDirectory
  | .outside => if name = "." || name = ".." then .ok .outside else .error (absent name)
  | .directory path =>
    if name = "." then .ok (.directory path)
    else if name = ".." then .ok (if path.isEmpty then .outside else .directory path.dropLast)
    else
      let path := path ++ [name]
      match d.files.find? fun (file, _) => Path.names file == path with
      | some (_, bytes) => .ok (.file bytes)
      | none =>
        if d.files.any fun (file, _) => path.isPrefixOf (Path.names file) then
          .ok (.directory path)
        else .error (absent name)

/-- Opens a path, or gives the reason why it cannot be opened. -/
def openPath (d : Directory) (path : String) : Except String Source := do
  if path = "" then throw missing
  if longestPath < path.utf8ByteSize then throw nameTooLong
  let start : Place := if path.startsWith "/" then .outside else .directory []
  let names := Path.names path ++ if path.endsWith "/" then ["."] else []
  match ← names.foldlM (fun place name => d.follow name place) start with
  | .file bytes => pure ⟨bytes, none⟩
  | .directory _ | .outside => pure ⟨[], some ⟨0, isDirectory⟩⟩

end Directory

end Reckon
