/-
# The files that can be read

A `Directory` holds files under paths.
-/
import BasicCompiler.Text.Span

namespace BasicCompiler.CommandLine

/-- Why a file cannot be read. -/
inductive ReadError where
  | notFound
  | notDirectory
  | isDirectory
  | nameTooLong
deriving DecidableEq

def ReadError.message : ReadError → String
  | .notFound => "No such file or directory (os error 2)"
  | .notDirectory => "Not a directory (os error 20)"
  | .isDirectory => "Is a directory (os error 21)"
  | .nameTooLong => "File name too long (os error 36)"

abbrev PathName := List Char

/-- The names of a path: what stands between its slashes. -/
def pathNames : List Char → List PathName
  | [] => [[]]
  | c :: rest =>
      match pathNames rest with
      | [] => [[c]]
      | name :: names => if c = '/' then [] :: name :: names else (c :: name) :: names

def properNames (path : List Char) : List PathName :=
  (pathNames path).filter fun name => name != [] && name != ['.']

/-- Files by their paths, with their texts. -/
structure Directory where
  files : List (String × String)

/-- A place that a path leads to. -/
inductive Place where
  /-- The names below the directory. -/
  | inside (names : List PathName)
  /-- A directory above. -/
  | above
deriving DecidableEq

namespace Directory

/-- The text of the file at a place; of two files under one path the later. -/
def text? (d : Directory) (names : List PathName) : Option String :=
  (d.files.reverse.find? fun (path, _) => properNames path.toList = names).map (·.2)

def hasBelow (d : Directory) (names : List PathName) : Bool :=
  d.files.any fun (path, _) => names.isPrefixOf (properNames path.toList)

def follow (d : Directory) (place : Place) (name : PathName) : Except ReadError Place :=
  match place with
  | .above =>
      if name = [] ∨ name = ['.'] ∨ name = ['.', '.'] then .ok .above else .error .notFound
  | .inside names =>
      if (d.text? names).isSome then .error .notDirectory
      else if name = [] ∨ name = ['.'] then .ok (.inside names)
      else if name = ['.', '.'] then
        .ok (if names.isEmpty then .above else .inside names.dropLast)
      else if 255 < byteLength name then .error .nameTooLong
      else if d.hasBelow (names ++ [name]) then .ok (.inside (names ++ [name]))
      else .error .notFound

def start : List Char → Place
  | '/' :: _ => .above
  | _ => .inside []

def read (d : Directory) (path : String) : Except ReadError String := do
  let chars := path.toList
  if chars.isEmpty then .error .notFound
  else if 4096 ≤ byteLength chars then .error .nameTooLong
  else
    match ← (pathNames chars).foldlM d.follow (start chars) with
    | .above => .error .isDirectory
    | .inside names =>
        match d.text? names with
        | some text => .ok text
        | none => .error .isDirectory

end Directory

end BasicCompiler.CommandLine
