/-!
# `Source.Directory` — files, and the paths that lead to them

A directory holds files under paths, and every place on the way to a file is a directory itself. A path is
followed part by part: an empty part and a single dot stay where they are, two dots lead back, and any other
part leads down to what has that name. Only a directory can be left by a further part, so a slash behind the
name of a file leads nowhere. Above the directory, and at the root of a path that starts with a slash, nothing
is known to have a name.
-/

namespace UnionTyping
namespace Source

/-- Why a file cannot be read. -/
inductive ReadError where
  | notFound
  | denied
  | notDirectory
  | isDirectory
  | nameTooLong
  | notText
deriving DecidableEq

/-- The wording of a cause. -/
def ReadError.message : ReadError → String
  | .notFound => "No such file or directory (os error 2)"
  | .denied => "Permission denied (os error 13)"
  | .notDirectory => "Not a directory (os error 20)"
  | .isDirectory => "Is a directory (os error 21)"
  | .nameTooLong => "File name too long (os error 36)"
  | .notText => "stream did not contain valid UTF-8"

/-! ## Paths -/

/-- The parts of a path between its slashes. -/
def pathParts : List Char → List String
  | [] => [""]
  | '/' :: rest => "" :: pathParts rest
  | c :: rest =>
      match pathParts rest with
      | [] => [String.singleton c]
      | part :: parts => (String.singleton c ++ part) :: parts

/-- The most bytes that a part of a path takes. -/
def longestName : Nat := 255

/-- The most bytes that a path takes. -/
def longestPath : Nat := 4095

/-! ## Directories -/

/-- The files below a directory, each with the names that lead to it. -/
structure Directory where
  files : List (List String × String)
deriving DecidableEq

/-- Where a path has led to. -/
inductive Place where
  /-- The names lead here from the directory. -/
  | below (names : List String)
  /-- Outside of the directory. -/
  | outside
deriving DecidableEq

namespace Directory

/-- The directory that holds texts under the given paths. -/
def ofFiles (files : List (String × String)) : Directory :=
  ⟨files.map fun (path, text) =>
    ((pathParts path.toList).filter fun part => part ≠ "" && part ≠ ".", text)⟩

/-- The text of the file that the names lead to. -/
def file? (d : Directory) (names : List String) : Option String :=
  List.lookup names d.files

/-- Whether the names lead to a file or to a place on the way to one. -/
def holds (d : Directory) (names : List String) : Bool :=
  d.files.any fun (path, _) => names.isPrefixOf path

/-- Follows one part of a path. -/
def step (d : Directory) (place : Place) (part : String) : Except ReadError Place :=
  match place with
  | .outside =>
      if part = "" || part = "." || part = ".." then .ok .outside
      else if longestName < part.utf8ByteSize then .error .nameTooLong
      else .error .notFound
  | .below names =>
      if (d.file? names).isSome then .error .notDirectory
      else if part = "" || part = "." then .ok (.below names)
      else if part = ".." then
        .ok (if names.isEmpty then .outside else .below names.dropLast)
      else if longestName < part.utf8ByteSize then .error .nameTooLong
      else if d.holds (names ++ [part]) then .ok (.below (names ++ [part]))
      else .error .notFound

/-- Where a path leads to. -/
def locate (d : Directory) (path : String) : Except ReadError Place :=
  if path = "" then .error .notFound
  else if longestPath < path.utf8ByteSize then .error .nameTooLong
  else
    (pathParts path.toList).foldlM d.step
      (if path.toList.head? = some '/' then .outside else .below [])

/-- The text of the file that a path leads to. -/
def read (d : Directory) (path : String) : Except ReadError String := do
  match ← d.locate path with
  | .outside => .error .isDirectory
  | .below names =>
      match d.file? names with
      | some text => .ok text
      | none => .error .isDirectory

end Directory
end Source
end UnionTyping
