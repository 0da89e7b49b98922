import Guarded.Command.Terminal
import Guarded.Console

/-!
A terminal in memory: files, an input to read from, and what has been printed.
-/

namespace Guarded

structure Session where
  files : FileTree
  input : List UInt8
  output : String
  errors : String

namespace Session

/-- A session with files and an input. -/
def ofFiles (files : FileTree) (input : List UInt8) : Session :=
  ⟨files, input, "", ""⟩

/-- Keeps the files of a change that goes well. -/
def change (f : FileTree → Except FileError FileTree) : StateM Session (Except FileError Unit) :=
  modifyGet fun s =>
    match f s.files with
    | .ok files => (.ok (), { s with files })
    | .error e => (.error e, s)

/-- Runs a unit on the console of the session, for at most `fuel` steps. A program that is not over
by then has read and printed all the same. -/
def execute (fuel : Nat) (u : ObjectUnit) : StateM Session (Except Error Unit) :=
  modifyGet fun s =>
    let leave (c : Console) : Session := { s with input := c.input, output := c.output }
    match u.execute Console.answer fuel ⟨s.input, s.output⟩ with
    | some (.ok _ c) => (.ok (), leave c)
    | some (.error e c) => (.error e, leave c)
    | none => (.error (.io "timed out"), leave (u.stopped Console.answer fuel ⟨s.input, s.output⟩))

/-- The session as a terminal, whose programs take at most `fuel` steps. -/
def terminal (fuel : Nat) : Terminal (StateM Session) where
  readText path := return (← get).files.read path
  writeText path text := change fun files => files.write path text
  makeDir path := change fun files => files.makeDir path
  isDirectory path := return (← get).files.isDirectory path
  print text := modify fun s => { s with output := s.output ++ text }
  printError text := modify fun s => { s with errors := s.errors ++ text }
  execute u := execute fuel u

end Session

end Guarded
