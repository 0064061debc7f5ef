import Abacus.Compile

/-!
# Files in a folder

The folder in which the program runs holds files and no folders. A path names one of its files, or
the folder itself, or nothing.
-/

namespace Abacus.CommandLine

/-- The files of a folder, with their bytes. -/
structure Folder where
  files : List (String × ByteArray)

namespace Folder

/-- The parts of a path; empty parts and dots change nothing. -/
def parts (path : String) : List String :=
  (path.splitOn "/").filter fun part => !part.isEmpty && part ≠ "."

/-- A path that ends in a slash or in a dot after a slash stands for a folder or for nothing. -/
def asksForFolder (path : String) : Bool := path.endsWith "/" || path.endsWith "/."

/-- What a path stands for: a name in the folder, or why it does not name a file. Two dots, and a
slash at the start, lead out of the folder; nothing but folders is known to be there. -/
def nameOf (folder : Folder) (path : String) : Except ReadError String :=
  if (parts path).all (· = "..") then .error .isFolder
  else if path.startsWith "/" then .error .missing
  else match parts path with
    | [] => .error .isFolder
    | name :: rest =>
      if rest.isEmpty && !asksForFolder path then .ok name
      else if (folder.files.lookup name).isSome then .error .notFolder
      else .error .missing

/-- The text of a file. -/
def read (folder : Folder) (path : String) : Except ReadError String := do
  textOf (folder.files.lookup (← folder.nameOf path))

/-- The folder after a text has been written to a file. What ends in a slash is taken for a
folder. -/
def write (folder : Folder) (path text : String) : Except ReadError Folder := do
  if path.endsWith "/" && (parts path).length ≤ 1 then throw .isFolder
  let name ← folder.nameOf path
  return ⟨(name, text.toUTF8) :: folder.files.filter (·.1 ≠ name)⟩

/-- The files of the folder that were not in the folder `before`, or had other bytes there. -/
def changesFrom (folder before : Folder) : List (String × ByteArray) :=
  folder.files.filter fun (name, bytes) =>
    match before.files.lookup name with
    | some old => old.data ≠ bytes.data
    | none => true

end Folder

end Abacus.CommandLine
