import Guarded.Files.Path

/-!
A file system held in memory. The working directory is its root. Operations fail in the way and with
the words of a Unix system.
-/

namespace Guarded

inductive FileError where
  | notFound
  | exists
  | notDirectory
  | isDirectory
  | nameTooLong
  | nulInName
  | other (text : String)
deriving DecidableEq, Repr

namespace FileError

def message : FileError → String
  | .notFound => "No such file or directory (os error 2)"
  | .exists => "File exists (os error 17)"
  | .notDirectory => "Not a directory (os error 20)"
  | .isDirectory => "Is a directory (os error 21)"
  | .nameTooLong => "File name too long (os error 36)"
  | .nulInName => "file name contained an unexpected NUL byte"
  | .other text => text

def toError (e : FileError) : Error :=
  .io e.message

end FileError

inductive Entry where
  | directory
  | file (text : String)
deriving DecidableEq, Repr

/-- Entries by the names that lead to them from the root, which is itself no entry. -/
structure FileTree where
  entries : List (List String × Entry)

namespace FileTree

def empty : FileTree :=
  ⟨[]⟩

def get? (t : FileTree) (names : List String) : Option Entry :=
  if names.isEmpty then some .directory else t.entries.lookup names

def set (t : FileTree) (names : List String) (e : Entry) : FileTree :=
  ⟨(names, e) :: t.entries.filter fun entry => entry.1 != names⟩

/-- Where a path leads: to an entry, or to a name that is free in a directory. -/
inductive Found where
  | entry (names : List String) (e : Entry)
  | free (names : List String)

/-- Follows the components of a path. All but the last must lead to directories. -/
def walk (t : FileTree) : List String → List String → Except FileError Found
  | names, [] =>
    match t.get? names with
    | some e => .ok (.entry names e)
    | none => .ok (.free names)
  | names, part :: parts =>
    match t.get? names with
    | none => .error .notFound
    | some (.file _) => .error .notDirectory
    | some .directory =>
      if part = "" || part = "." then t.walk names parts
      else if part = ".." then t.walk names.dropLast parts
      else if 255 < part.utf8ByteSize then .error .nameTooLong
      else t.walk (names ++ [part]) parts

/-- Where a path leads. The empty path leads nowhere. -/
def find (t : FileTree) (path : String) : Except FileError Found :=
  if '\x00' ∈ path.toList then .error .nulInName
  else if path.isEmpty then .error .notFound
  else if 4096 ≤ path.utf8ByteSize then .error .nameTooLong
  else t.walk [] (Path.parts path)

def read (t : FileTree) (path : String) : Except FileError String :=
  match t.find path with
  | .ok (.entry _ (.file text)) => .ok text
  | .ok (.entry _ .directory) => .error .isDirectory
  | .ok (.free _) => .error .notFound
  | .error e => .error e

def write (t : FileTree) (path text : String) : Except FileError FileTree :=
  match t.find path with
  | .ok (.entry names (.file _)) => .ok (t.set names (.file text))
  | .ok (.entry _ .directory) => .error .isDirectory
  | .ok (.free names) => .ok (t.set names (.file text))
  | .error e => .error e

/-- Makes one directory. -/
def makeDir (t : FileTree) (path : String) : Except FileError FileTree :=
  match t.find path with
  | .ok (.entry _ _) => .error .exists
  | .ok (.free names) => .ok (t.set names .directory)
  | .error e => .error e

def isDirectory (t : FileTree) (path : String) : Bool :=
  match t.find path with
  | .ok (.entry _ .directory) => true
  | _ => false

/-- A tree with a file at a path of plain names, and the directories on the way to it. -/
def addFile (t : FileTree) (path text : String) : FileTree :=
  let names := Path.components path
  let dirs := ((List.range names.length).drop 1).map names.take
  let t := dirs.foldl (fun t dir => if (t.get? dir).isSome then t else t.set dir .directory) t
  t.set names (.file text)

/-- The files of a tree. -/
def files (t : FileTree) : List (String × String) :=
  t.entries.filterMap fun (names, e) =>
    match e with
    | .file text => some (String.intercalate "/" names, text)
    | .directory => none

end FileTree

end Guarded
