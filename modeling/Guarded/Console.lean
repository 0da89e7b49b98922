import Guarded.Machine
import Guarded.Number.Decimal
import Guarded.Text.Blank

/-!
The console: the surroundings a program usually runs in. A printed value takes a line of its own.
For each value it reads, the console writes the name and a question mark and takes one line of
input, without the blanks around it; a line that does not spell a value of the right type is an
error, and so is the end of the input. Lines end with a newline, the last one also with the input.
-/

namespace Guarded

structure Console where
  input : List UInt8
  output : String
deriving DecidableEq

namespace Console

/-- Floats on the console: never with an exponent; a whole number below `10 ^ 7` keeps its `.0`. -/
def floatStyle : Number.Style where
  tie := .up
  positional := fun _ => true
  fraction := fun e => e < 7
  plus := false
  nan := "NaN"
  infinity := "Infinity"

def formatInt (v : Int32) : String :=
  toString v.toInt

def formatFloat (v : Float32) : String :=
  floatStyle.single v

def formatBool (b : Bool) : String :=
  if b then "true" else "false"

/-- A text without the blanks around it. -/
def trim (cs : List Char) : List Char :=
  ((cs.dropWhile Text.isBlank).reverse.dropWhile Text.isBlank).reverse

def newline : UInt8 :=
  10

/-- The first line of an input, with its newline if it has one, and what follows it. -/
def splitLine : List UInt8 → List UInt8 × List UInt8
  | [] => ([], [])
  | b :: bs =>
    if b = newline then ([b], bs)
    else
      let (line, rest) := splitLine bs
      (b :: line, rest)

/-- The characters of a line that is valid UTF-8. -/
def decodeLine (line : List UInt8) : Option (List Char) :=
  (String.fromUTF8? ⟨line.toArray⟩).map String.toList

/-- The text a line holds for the value `name`. -/
def readText (name : String) (line : List UInt8) : Except Error (List Char) :=
  if line.isEmpty then .error (.badInput name "end of input")
  else match decodeLine line with
    | some cs => .ok (trim cs)
    | none => .error (.io "stream did not contain valid UTF-8")

/-- The value a text spells, or the error that it spells none. -/
def parseWith {α : Type} (parse : List Char → Option α) (name : String) (cs : List Char) :
    Except Error α :=
  match parse cs with
  | some v => .ok v
  | none => .error (.badInput name (String.ofList cs))

def parseBool (cs : List Char) : Option Bool :=
  if cs = "true".toList then some true
  else if cs = "false".toList then some false
  else none

def prompt (name : String) : String :=
  name ++ "? "

def write (text : String) : EStateM Error Console Unit :=
  modify fun c => { c with output := c.output ++ text }

def takeLine : EStateM Error Console (List UInt8) :=
  modifyGet fun c =>
    let (line, rest) := splitLine c.input
    (line, { c with input := rest })

/-- Asks for a value and reads it from the next line. -/
def ask {α : Type} (parse : List Char → Option α) (name : String) : EStateM Error Console α := do
  write (prompt name)
  let line ← takeLine
  match (readText name line).bind (parseWith parse name) with
  | .ok v => return v
  | .error e => throw e

/-- Answers a request. -/
def answer : Machine.Host Console
  | .printInt v => write (formatInt v ++ "\n")
  | .printFloat v => write (formatFloat v ++ "\n")
  | .printBoolean b => write (formatBool b ++ "\n")
  | .inputInt name => ask Number.readInt32 name
  | .inputFloat name => ask Number.readSingle name
  | .inputBoolean name => ask parseBool name
  | .abortNoAlternative line => throw (.noAlternative line)
  | .abortNoFunctionReturn line => throw (.noFunctionReturn line)

end Console

/-- Runs a unit on a console with the given input. -/
def ObjectUnit.runOnConsole (u : ObjectUnit) (fuel : Nat) (input : List UInt8) :
    Option (EStateM.Result Error Console Machine) :=
  u.execute Console.answer fuel ⟨input, ""⟩

end Guarded
