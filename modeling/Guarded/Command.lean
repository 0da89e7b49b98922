import Guarded.Object

/-!
Command lines. A line names a subcommand, or a file alone, which is then built. Options may stand
before or after the file. A line that means nothing is refused as a whole.
-/

namespace Guarded

structure BuildOptions where
  output : String
  package : String
  /-- Whether the code is listed too. -/
  listing : Bool
deriving DecidableEq, Repr

inductive Command where
  | build (input : String) (options : BuildOptions)
  | check (input : String) (json : Bool)
  | run (input : String) (package : String)
  /-- All about this release. -/
  | about
  /-- The name of this release. -/
  | version
  | help
  /-- Neither a subcommand nor a file. -/
  | nothing
deriving DecidableEq, Repr

namespace Command

/-- What a line is read as: a subcommand, or a line without one. -/
inductive Verb where
  | plain | build | check | run | about
deriving DecidableEq, Repr

def Verb.ofName? : String → Option Verb
  | "build" => some .build
  | "check" => some .check
  | "run" => some .run
  | "version" => some .about
  | _ => none

inductive Flag where
  | output | package | listing | json
deriving DecidableEq, Repr

namespace Flag

def ofLong? : String → Option Flag
  | "output" => some output
  | "package" => some package
  | "emit-asm" => some listing
  | "json" => some json
  | _ => none

def ofShort? : Char → Option Flag
  | 'o' => some output
  | 'p' => some package
  | _ => none

def takesValue : Flag → Bool
  | output | package => true
  | listing | json => false

end Flag

/-- The options a subcommand knows. -/
def Verb.knows : Verb → Flag → Bool
  | .plain, f | .build, f => f != .json
  | .check, f => f == .json
  | .run, f => f == .package
  | .about, _ => false

/-- What has been read of a line. -/
structure Arguments where
  input : Option String := none
  output : Option String := none
  package : Option String := none
  listing : Bool := false
  json : Bool := false

namespace Arguments

/-- Takes a file name; there is at most one, and it is not empty. -/
def addInput (a : Arguments) (verb : Verb) (text : String) : Option Arguments :=
  if verb = .about || a.input.isSome || text.isEmpty then none
  else some { a with input := some text }

/-- Takes an option. None is given twice, and no directory is empty. -/
def addFlag (a : Arguments) (flag : Flag) (value : String) : Option Arguments :=
  match flag with
  | .output =>
    if a.output.isSome || value.isEmpty then none else some { a with output := some value }
  | .package => if a.package.isSome then none else some { a with package := some value }
  | .listing => if a.listing then none else some { a with listing := true }
  | .json => if a.json then none else some { a with json := true }

def buildOptions (a : Arguments) : BuildOptions :=
  ⟨a.output.getD ".", a.package.getD ObjectUnit.defaultPackage, a.listing⟩

def command (a : Arguments) : Verb → Option Command
  | .plain =>
    match a.input with
    | some input => some (.build input a.buildOptions)
    | none => some .nothing
  | .build => a.input.map fun input => .build input a.buildOptions
  | .check => a.input.map fun input => .check input a.json
  | .run => a.input.map fun input => .run input (a.package.getD ObjectUnit.defaultPackage)
  | .about => some .about

end Arguments

/-- One word of a line. -/
inductive Word where
  | plain (text : String)
  /-- Two dashes: what follows are file names. -/
  | dashes
  | help
  | version
  /-- An option, with the value that is written in the same word. -/
  | flag (f : Flag) (value : Option String)
  | unknown
deriving DecidableEq, Repr

/-- The value of an option that follows its letter, with or without an equals sign. -/
def attached : List Char → Option String
  | [] => none
  | '=' :: cs => some (String.ofList cs)
  | cs => some (String.ofList cs)

def Word.ofString (text : String) : Word :=
  match text.toList with
  | ['-', '-'] => .dashes
  | '-' :: '-' :: cs =>
    let name := String.ofList (cs.takeWhile (· ≠ '='))
    let value := match cs.dropWhile (· ≠ '=') with
      | _ :: rest => some (String.ofList rest)
      | [] => none
    match name, value with
    | "help", none => .help
    | "version", none => .version
    | name, value =>
      match Flag.ofLong? name with
      | some f => if f.takesValue || value.isNone then .flag f value else .unknown
      | none => .unknown
  | '-' :: 'h' :: _ => .help
  | '-' :: 'V' :: _ => .version
  | '-' :: c :: cs =>
    match Flag.ofShort? c with
    | some f => .flag f (attached cs)
    | none => .unknown
  | _ => .plain text

/-- File names only. -/
def readInputs (verb : Verb) (a : Arguments) : List String → Option Arguments
  | [] => some a
  | text :: rest =>
    match a.addInput verb text with
    | some a => readInputs verb a rest
    | none => none

/-- Reads what is left of a line. The name of a subcommand starts afresh. -/
def read (verb : Verb) (a : Arguments) : List String → Option Command
  | [] => a.command verb
  | text :: rest =>
    match Word.ofString text with
    | .dashes => (readInputs verb a rest).bind fun a => a.command verb
    | .help => some .help
    | .version => if verb = .plain then some .version else none
    | .unknown => none
    | .flag f value =>
      if verb.knows f then
        if f.takesValue then
          match value, rest with
          | some value, rest => (a.addFlag f value).bind fun a => read verb a rest
          | none, value :: rest =>
            match Word.ofString value with
            | .plain value => (a.addFlag f value).bind fun a => read verb a rest
            | _ => none
          | none, [] => none
        else (a.addFlag f "").bind fun a => read verb a rest
      else none
    | .plain text =>
      match (if verb = .plain then Verb.ofName? text else none) with
      | some sub => read sub {} rest
      | none =>
        if verb = .plain && text = "help" then some .help
        else (a.addInput verb text).bind fun a => read verb a rest

/-- The command a line of arguments asks for. -/
def ofArgs (args : List String) : Option Command :=
  read .plain {} args

end Command

end Guarded
