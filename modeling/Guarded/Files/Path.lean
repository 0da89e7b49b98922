import Guarded.Object

/-!
Paths as texts. A path names the file after its last slash; slashes at the end, and a single dot
behind a slash, do not count.
-/

namespace Guarded.Path

/-- A path below another; an absolute path stands alone. -/
def join (dir path : String) : String :=
  if path.startsWith "/" || dir.isEmpty then path
  else if dir.endsWith "/" then dir ++ path
  else dir ++ "/" ++ path

/-- Drops slashes and single dots from the end of a path that is written backwards. -/
def trimBack : List Char → List Char
  | '/' :: cs => trimBack cs
  | '.' :: '/' :: cs => trimBack ('/' :: cs)
  | cs => cs

/-- What stands before the last component, and that component if it names a file. -/
def split (path : String) : List Char × Option (List Char) :=
  let back := trimBack path.toList.reverse
  let name := (back.takeWhile (· ≠ '/')).reverse
  let dir := (back.dropWhile (· ≠ '/')).reverse
  if name = [] || name = ['.'] || name = ['.', '.'] then (dir, none) else (dir, some name)

/-- A file name before and after its last dot. A dot at the very start divides nothing. -/
def splitName (name : List Char) : List Char × Option (List Char) :=
  let back := name.reverse
  let after := (back.takeWhile (· ≠ '.')).reverse
  match back.dropWhile (· ≠ '.') with
  | '.' :: before@(_ :: _) => (before.reverse, some after)
  | _ => (name, none)

def extension? (path : String) : Option String :=
  (split path).2.bind fun name => (splitName name).2.map String.ofList

/-- The path with another extension; a path that names no file stays as it is. -/
def withExtension (path extension : String) : String :=
  match split path with
  | (dir, some name) => String.ofList (dir ++ (splitName name).1) ++ "." ++ extension
  | (_, none) => path

/-- Cuts a path at its slashes. -/
def cut : List Char → List (List Char)
  | [] => [[]]
  | '/' :: cs => [] :: cut cs
  | c :: cs =>
    match cut cs with
    | part :: parts => (c :: part) :: parts
    | [] => [[c]]

/-- What stands between the slashes of a path. -/
def parts (path : String) : List String :=
  (cut path.toList).map String.ofList

/-- The components of a path that lead anywhere. -/
def components (path : String) : List String :=
  (parts path).filter fun part => part != "" && part != "."

/-- The file a unit is kept in: its package is a directory. -/
def ofUnit (output package name : String) : String :=
  withExtension (join (join output package) name) ObjectUnit.extension

end Guarded.Path
