import Guarded.Command.Terminal
import Guarded.Console

/-!
The command line on a real terminal: files, standard input and output. Programs run here without a
bound on their steps. A line of input is read only when the program asks for it.
-/

namespace Guarded.Main

/-- The number of a system error; some operations report it negated. -/
def errorNumber (code : UInt32) : UInt32 :=
  if code < 0x80000000 then code else 0 - code

/-- The words for a failed file operation. -/
def fileError (e : IO.Error) : FileError :=
  match e with
  | .noFileOrDirectory .. => .notFound
  | .alreadyExists .. => .exists
  | .inappropriateType _ code _ => if errorNumber code = 20 then .notDirectory else .isDirectory
  | .invalidArgument _ code _ => if errorNumber code = 36 then .nameTooLong else .other (toString e)
  | e => .other (toString e)

/-- Carries out a file operation. -/
def attempt {α : Type} (action : IO α) : IO (Except FileError α) := do
  try
    return .ok (← action)
  catch e =>
    return .error (fileError e)

def readText (path : String) : IO (Except FileError String) := do
  match ← attempt (IO.FS.readBinFile path) with
  | .error e => return .error e
  | .ok bytes =>
    match String.fromUTF8? bytes with
    | some text => return .ok text
    | none => return .error (.other "stream did not contain valid UTF-8")

def isDirectory (path : String) : IO Bool := do
  match ← attempt (IO.FS.realPath path) with
  | .ok path => path.isDir
  | .error _ => return false

/-- Reads bytes up to a newline or the end of the input. -/
partial def readLine (input : IO.FS.Stream) (line : List UInt8) : IO (List UInt8) := do
  let bytes ← input.read 1
  match bytes.toList with
  | [] => return line.reverse
  | b :: _ => if b = Console.newline then return (b :: line).reverse else readLine input (b :: line)

/-- Answers a request on the console. -/
def serve (input output : IO.FS.Stream) (r : Request) : IO (Except Error r.Reply) := do
  match r.inputName? with
  | some name =>
    output.putStr (Console.prompt name)
    output.flush
    let line ← readLine input []
    match Console.answer r ⟨line, ""⟩ with
    | .ok reply _ => return .ok reply
    | .error e _ => return .error e
  | none =>
    match Console.answer r ⟨[], ""⟩ with
    | .ok reply c =>
      output.putStr c.output
      return .ok reply
    | .error e _ => return .error e

/-- Runs a machine to its end. -/
partial def run (input output : IO.FS.Stream) (m : Machine) : IO (Except Error Unit) := do
  match m.step with
  | .done _ => return .ok ()
  | .next m => run input output m
  | .fail e => return .error e
  | .ask r m =>
    match ← serve input output r with
    | .ok reply => run input output (m.resume r reply)
    | .error e => return .error e

def execute (u : ObjectUnit) : IO (Except Error Unit) := do
  match Machine.start u with
  | .error e => return .error e
  | .ok m => run (← IO.getStdin) (← IO.getStdout) m

def terminal : Terminal IO where
  readText := readText
  writeText path text := attempt (IO.FS.writeFile path text)
  makeDir path := attempt (IO.FS.createDir path)
  isDirectory := isDirectory
  print text := IO.print text
  printError text := IO.eprint text
  execute := execute

end Guarded.Main

def main (args : List String) : IO UInt32 :=
  Guarded.Main.terminal.performLine args
