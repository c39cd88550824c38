import MetricCatalog.Text.Utf8

/-!
# Directories — files that a path leads to, or does not

A directory is given by the files and directories in it, at any depth. `Directory.read` follows a path
name by name, so it tells a path that ends in a directory from one that goes on behind a file. Nothing
is known of what lies outside.
-/

namespace MetricCatalog

/-- Why a file cannot be read. -/
inductive ReadFailure where
  | noSuchFile
  | notADirectory
  | isADirectory
  | permissionDenied
  | nameTooLong
  | system (code : Nat) (text : String)
  | notUtf8
deriving DecidableEq

namespace ReadFailure

/-- The failure in words. -/
def text : ReadFailure → String
  | noSuchFile => "No such file or directory"
  | notADirectory => "Not a directory"
  | isADirectory => "Is a directory"
  | permissionDenied => "Permission denied"
  | nameTooLong => "File name too long"
  | system _ text => text
  | notUtf8 => "stream did not contain valid UTF-8"

/-- The name of the failure. -/
def kind : ReadFailure → String
  | noSuchFile => "NotFound"
  | notADirectory => "NotADirectory"
  | isADirectory => "IsADirectory"
  | permissionDenied => "PermissionDenied"
  | nameTooLong => "InvalidFilename"
  | system .. => "Uncategorized"
  | notUtf8 => "InvalidData"

/-- The number that the system has for the failure, if it comes from the system. -/
def code? : ReadFailure → Option Nat
  | noSuchFile => some 2
  | permissionDenied => some 13
  | notADirectory => some 20
  | isADirectory => some 21
  | nameTooLong => some 36
  | system code _ => some code
  | notUtf8 => none

end ReadFailure

/-- What a name in a directory stands for. -/
inductive Entry where
  | file (bytes : Bytes)
  | directory

/-- A directory: everything in it under the names that lead there. -/
structure Directory where
  entries : List (List String × Entry)

namespace Directory

/-- What stands at the end of the names, the directory itself at the end of none. A name that leads to
an entry stands for a directory. -/
def find? (d : Directory) (names : List String) : Option Entry :=
  match d.entries.lookup names with
  | some entry => some entry
  | none => if names = [] || d.entries.any (names.isPrefixOf ·.1) then some .directory else none

/-- Where a path has led so far. -/
inductive Position where
  | inside (names : List String)
  | outside

/-- What stands at a position. All that is known outside are directories. -/
def entry? (d : Directory) : Position → Option Entry
  | .inside names => d.find? names
  | .outside => some .directory

/-- The longest name, in bytes. -/
def nameLimit : Nat := 255

/-- The longest path, in bytes. -/
def pathLimit : Nat := 4095

/-- The position one name further, from a directory. -/
def Position.step (p : Position) (name : String) : Except ReadFailure Position :=
  if name = "" ∨ name = "." then .ok p
  else if nameLimit < name.utf8ByteSize then .error .nameTooLong
  else match p with
    | .inside names =>
      if name = ".." then .ok (if names = [] then .outside else .inside names.dropLast)
      else .ok (.inside (names ++ [name]))
    | .outside => if name = ".." then .ok .outside else .error .noSuchFile

/-- Follows names from a position. -/
def follow (d : Directory) : List String → Position → Except ReadFailure Bytes
  | [], p =>
    match d.entry? p with
    | none => .error .noSuchFile
    | some .directory => .error .isADirectory
    | some (.file bytes) => .ok bytes
  | name :: rest, p =>
    match d.entry? p with
    | none => .error .noSuchFile
    | some (.file _) => .error .notADirectory
    | some .directory => do d.follow rest (← p.step name)

/-- The bytes of the file at a path. -/
def read (d : Directory) (path : String) : Except ReadFailure Bytes :=
  if path = "" then .error .noSuchFile
  else if pathLimit < path.utf8ByteSize then .error .nameTooLong
  else
    let start := if path.toList.head? = some '/' then .outside else .inside []
    d.follow (path.splitOn "/") start

end Directory

end MetricCatalog
