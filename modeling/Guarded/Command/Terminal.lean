import Guarded.Command
import Guarded.Compile
import Guarded.Feedback
import Guarded.Files.Tree
import Guarded.Object.Listing

/-!
Carrying out commands at a terminal: whatever reads and writes files and texts, and runs units.
What is printed, in which order, and the exit status are the same at every terminal.
-/

namespace Guarded

structure Terminal (m : Type → Type) where
  readText : String → m (Except FileError String)
  writeText : String → String → m (Except FileError Unit)
  /-- Makes one directory. -/
  makeDir : String → m (Except FileError Unit)
  isDirectory : String → m Bool
  print : String → m Unit
  printError : String → m Unit
  execute : ObjectUnit → m (Except Error Unit)

/-- Why a command fails. -/
inductive Failure where
  | error (e : Error)
  | unreadable (path : String) (e : FileError)
  /-- Everything has been said. -/
  | silent

namespace Failure

/-- The line that reports a failure. -/
def report : Failure → String
  | error e =>
    if e.isRuntime then s!"Runtime error: {e.message}\n"
    else match e.line? with
      | some line => s!"Error (line {line}): {e.message}\n"
      | none => s!"Error: {e.message}\n"
  | unreadable path e => s!"Error: reading {path}: {e.message}\n"
  | silent => ""

end Failure

namespace Terminal

variable {m : Type → Type} [Monad m] (t : Terminal m)

/-- The text of a source file. -/
def readSource (path : String) : ExceptT Failure m String := do
  match ← t.readText path with
  | .ok text => return text
  | .error e => throw (.unreadable path e)

def say (text : String) : ExceptT Failure m Unit :=
  t.print text

/-- Goes on with a value, or fails with the error. -/
def require {α : Type} (r : Except Error α) : ExceptT Failure m α :=
  match r with
  | .ok v => return v
  | .error e => throw (.error e)

/-- Makes a directory; one that is there already will do. -/
def ensureDir (path : String) : m (Except FileError Unit) := do
  match ← t.makeDir path with
  | .ok () => return .ok ()
  | .error e => if ← t.isDirectory path then return .ok () else return .error e

/-- Makes a directory and, if need be, those it is to stand in. Its names below `root` come last
first. -/
def makeDirs (root : String) : List String → m (Except FileError Unit)
  | [] => return .ok ()
  | name :: outer => do
    let path := root ++ String.intercalate "/" (name :: outer).reverse
    match ← t.ensureDir path with
    | .error .notFound =>
      match ← makeDirs root outer with
      | .ok () => t.ensureDir path
      | .error e => return .error e
    | result => return result

/-- Makes the directory a file is to stand in. -/
def makeParents (path : String) : m (Except FileError Unit) :=
  t.makeDirs (if path.startsWith "/" then "/" else "") ((Path.components path).reverse.drop 1)

/-- Writes a unit into the file that its package and name say, and gives its path. -/
def writeUnit (u : ObjectUnit) (output package : String) : m (Except Error String) := do
  let path := Path.ofUnit output package u.name
  match ← t.makeParents path with
  | .error e => return .error e.toError
  | .ok () =>
    match ← t.writeText path u.save with
    | .error e => return .error e.toError
    | .ok () => return .ok path

/-- The unit a file holds. -/
def readUnit (path : String) : m (Except Error ObjectUnit) := do
  match ← t.readText path with
  | .error e => return .error e.toError
  | .ok text => return ObjectUnit.load text

def build (input : String) (options : BuildOptions) : ExceptT Failure m Unit := do
  t.say "Dijkstra Compiler v0.1.0\n"
  t.say s!"Compiling: {input}\n"
  let source ← t.readSource input
  let u ← require (compile options.package source)
  t.say "  [✓] Analysis passed\n"
  t.say s!"  [✓] Generated {u.qualifiedName} ({u.routines.size + 1} routines)\n"
  if options.listing then t.say s!"\n{u.listingText}\n"
  let path ← require (← t.writeUnit u options.output options.package)
  t.say s!"\n✅ Output: {path}\n"

def check (input : String) (json : Bool) : ExceptT Failure m Unit := do
  let source ← t.readSource input
  if json then
    let feedback := Feedback.ofAnalysis input source (Guarded.check source)
    t.say (feedback.render ++ "\n")
    if !feedback.success then throw .silent
  else
    t.say s!"Checking: {input}\n"
    let _ ← require (Guarded.check source)
    t.say "✅ No errors found\n"

/-- Runs an object file if the name says it is one, and a source file otherwise. -/
def run (input : String) (package : String) : ExceptT Failure m Unit := do
  let u ←
    if Path.extension? input = some ObjectUnit.extension then
      require (← t.readUnit input)
    else do
      let source ← t.readSource input
      require (compile package source)
  require (← t.execute u)

/-- Carries out a command and gives its exit status. -/
def perform (c : Command) : m UInt32 := do
  match c with
  | .build input options => finish (t.build input options)
  | .check input json => finish (t.check input json)
  | .run input package => finish (t.run input package)
  | .about => finish (t.say "djkc 0.1.0\nDijkstra Compiler\nLicense: Apache-2.0\n")
  | .version => finish (t.say "djkc 0.1.0\n")
  | .help => finish (t.say usage)
  | .nothing =>
    t.printError "Error: No input file specified\nUsage: djkc <FILE> or djkc build <FILE>\n"
    return 1
where
  finish (work : ExceptT Failure m Unit) : m UInt32 := do
    match ← work.run with
    | .ok () => return 0
    | .error failure =>
      t.printError failure.report
      return 1
  usage : String :=
    "Usage: djkc [OPTIONS] [FILE] [COMMAND]\n"

/-- Carries out a line of arguments; one that means nothing is refused. -/
def performLine (args : List String) : m UInt32 := do
  match Command.ofArgs args with
  | some c => t.perform c
  | none =>
    t.printError "error: invalid arguments\n"
    return 2

end Terminal

end Guarded
