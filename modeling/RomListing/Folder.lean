/-! A working folder that holds plain files. Paths may also lead out of the folder; nothing is known
to lie there but folders on the way up. -/

namespace RomListing

inductive FileError where
  | notFound
  | notADirectory
  | isADirectory
  | nameTooLong
  | nulInPath
  | other (description : String)
  deriving DecidableEq, Repr

def FileError.message : FileError → String
  | .notFound => "No such file or directory (os error 2)"
  | .notADirectory => "Not a directory (os error 20)"
  | .isADirectory => "Is a directory (os error 21)"
  | .nameTooLong => "File name too long (os error 36)"
  | .nulInPath => "file name contained an unexpected NUL byte"
  | .other description => description

/-- The files of the working folder by name. -/
structure Folder where
  files : List (String × Array UInt8) := []
  deriving DecidableEq, Repr

namespace Folder

/-- Where a path has led so far. -/
inductive Place where
  | here
  | outside
  | file (name : String)
  deriving DecidableEq, Repr

def contents? (folder : Folder) (name : String) : Option (Array UInt8) := folder.files.lookup name

def put (folder : Folder) (name : String) (contents : Array UInt8) : Folder :=
  ⟨(name, contents) :: folder.files.filter (·.1 != name)⟩

def longestName : Nat := 255

def longestPath : Nat := 4095

/-- The place that one part of a path leads to. -/
def enter (folder : Folder) (place : Place) (part : String) : Except FileError Place :=
  match place with
  | .file _ => .error .notADirectory
  | .here =>
      if part = "" ∨ part = "." then .ok .here
      else if part = ".." then .ok .outside
      else if longestName < part.utf8ByteSize then .error .nameTooLong
      else if (folder.contents? part).isSome then .ok (.file part)
      else .error .notFound
  | .outside =>
      if part = "" ∨ part = "." ∨ part = ".." then .ok .outside
      else if longestName < part.utf8ByteSize then .error .nameTooLong
      else .error .notFound

/-- Where a path starts, and its parts. A leading slash starts outside; the empty path leads to the
folder itself. -/
def start (path : String) : Except FileError (Place × List String) :=
  if path.toList.contains '\x00' then .error .nulInPath
  else if longestPath < path.utf8ByteSize then .error .nameTooLong
  else
    .ok (if path.toList.head? = some '/' then .outside else .here,
      (path.toList.splitOn '/').map String.ofList)

def read (folder : Folder) (path : String) : Except FileError (Array UInt8) := do
  let (place, parts) ← start path
  match ← parts.foldlM folder.enter place with
  | .file name =>
      match folder.contents? name with
      | some contents => return contents
      | none => throw .notFound
  | _ => throw .isADirectory

/-- The folder after the file at a path has been written. A path that names a folder, or has a slash
at its end, is turned down. -/
def write (folder : Folder) (path : String) (contents : Array UInt8) : Except FileError Folder := do
  let (place, parts) ← start path
  let named := (parts.reverse.dropWhile (· = "")).reverse
  let place ← named.dropLast.foldlM folder.enter place
  match named.getLast?, place with
  | none, _ => throw .isADirectory
  | some _, .file _ => throw .notADirectory
  | some name, place =>
      if name = "." ∨ name = ".." ∨ parts.getLast? = some "" then throw .isADirectory
      else if longestName < name.utf8ByteSize then throw .nameTooLong
      else
        match place with
        | .here => return folder.put name contents
        | _ => throw .notFound

end Folder

end RomListing
