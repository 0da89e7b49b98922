import Guarded.Analysis
import Guarded.Json.Write
import Guarded.Number.Style

/-!
Diagnostics for other programs: an error with its code, its place and what might mend it, and the
figures of a source that has none. Suggestions are ordered by how likely they help.
-/

namespace Guarded

/-- Numbers of a report: an exponent, with its sign, below `10 ^ -5` and from `10 ^ 16` on. -/
def Json.reportStyle : Number.Style where
  tie := .even
  positional := fun e => -5 ≤ e && e ≤ 15
  fraction := fun _ => true
  plus := true
  nan := "null"
  infinity := "null"

structure Suggestion where
  message : String
  /-- From zero to one. -/
  confidence : Float

namespace Suggestion

/-- The most likely first; equally likely ones keep their order. -/
def sort (suggestions : List Suggestion) : List Suggestion :=
  suggestions.mergeSort fun a b => !(a.confidence < b.confidence)

def toJson (s : Suggestion) : Json :=
  .record [("message", .text s.message),
    ("confidence", .number (Json.reportStyle.chars Number.double s.confidence.toBits.toNat))]

end Suggestion

namespace Error

/-- The code of an error, the same in every release. -/
def code : Error → String
  | unexpectedToken .. => "E0101"
  | unexpectedChar .. => "E0102"
  | invalidNumber .. => "E0103"
  | expectedIdent .. | expectedType .. | expectedExpr .. => "E0104"
  | duplicateDefinition .. => "E0201"
  | undefinedSymbol .. => "E0202"
  | notAVariable .. => "E0203"
  | noSuchArray .. => "E0204"
  | noSuchFunction .. | noSuchProcedure .. => "E0205"
  | procedureAsFunction .. => "E0206"
  | functionAsProcedure .. => "E0207"
  | argCountMismatch .. => "E0208"
  | assignmentArity .. => "E0209"
  | capturedLocal .. => "E0210"
  | typeConflict .. => "E0301"
  | unresolvedType .. => "E0302"
  | returnOutsideMethod .. => "E0303"
  | invalidReturnType .. => "E0304"
  | equalityOperands .. => "E0305"
  | nonIntegerDivMod .. => "E0306"
  | nonIntegerIndex .. => "E0307"
  | codeGen .. => "E0901"
  | malformed .. => "E0902"
  | io .. => "E0903"
  | noAlternative .. => "E1001"
  | noFunctionReturn .. => "E1002"
  | divisionByZero => "E1003"
  | indexOutOfBounds .. => "E1004"
  | negativeArraySize .. => "E1005"
  | nullArray => "E1006"
  | stackOverflow => "E1007"
  | badInput .. => "E1008"

/-- What might mend an error. -/
def suggestions : Error → List Suggestion
  | unexpectedToken expected _ _ => [⟨s!"Insert {expected} here", 0.6⟩]
  | unexpectedChar ch _ => [⟨s!"Remove '{ch}'; comments start with '#'", 0.5⟩]
  | invalidNumber .. => [⟨"Integer literals must fit in 32 bits", 0.8⟩]
  | duplicateDefinition name _ => [⟨s!"Rename one of the declarations of '{name}'", 0.8⟩]
  | undefinedSymbol name _ => [⟨s!"Declare or assign '{name}' before using it", 0.8⟩]
  | notAVariable name _ => [⟨s!"'{name}' names a routine or an array", 0.6⟩]
  | noSuchArray name _ => [⟨s!"Declare '{name}' as an array, e.g. int[10] {name}", 0.7⟩]
  | procedureAsFunction name _ =>
    [⟨s!"Call '{name}' as a statement, or make it a fun with a return type", 0.7⟩]
  | functionAsProcedure name _ => [⟨s!"Use the result of '{name}' in an expression", 0.7⟩]
  | argCountMismatch _ expected got _ =>
    if got < expected then [⟨s!"Add {expected - got} more argument(s)", 0.9⟩]
    else [⟨s!"Remove {got - expected} extra argument(s)", 0.9⟩]
  | assignmentArity .. =>
    [⟨"Give every target on the left exactly one value on the right", 0.9⟩]
  | capturedLocal name _ => [⟨s!"Pass '{name}' as a parameter", 0.8⟩]
  | unresolvedType name _ =>
    [⟨s!"Declare '{name}' with an explicit type", 0.8⟩,
      ⟨s!"Use '{name}' where its type can be inferred", 0.4⟩]
  | equalityOperands .. => [⟨"Compare values of the same type", 0.6⟩]
  | nonIntegerDivMod .. => [⟨"Use '/' for float division", 0.8⟩]
  | noAlternative .. => [⟨"Add a guard that covers the remaining cases", 0.7⟩]
  | noFunctionReturn .. => [⟨"Return a value on every path through the function", 0.8⟩]
  | _ => []

/-- Where in the file an error is. -/
def location (e : Error) (file : String) : Json :=
  match e.span? with
  | none => .null
  | some s =>
    .record [("file", .text file), ("line", .nat s.line), ("start", .nat s.start),
      ("end", .nat s.stop)]

def toJson (e : Error) (file : String) : Json :=
  .record [("code", .text e.code),
    ("severity", .text "Error"),
    ("message", .text e.message),
    ("location", e.location file),
    ("suggestions", .array ((Suggestion.sort e.suggestions).map Suggestion.toJson))]

end Error

/-- The figures of a source: its symbols by kind, and its lines. -/
structure Stats where
  variableCount : Nat
  arrayCount : Nat
  procedureCount : Nat
  functionCount : Nat
  lineCount : Nat
deriving DecidableEq, Repr

namespace Stats

def zero : Stats :=
  ⟨0, 0, 0, 0, 0⟩

/-- Lines end with a newline; what stands after the last one is a line too, unless it is empty. -/
def countLines (source : String) : Nat :=
  let cs := source.toList
  cs.count '\n' + (match cs.getLast? with
    | some c => if c = '\n' then 0 else 1
    | none => 0)

def collect (a : Analysis) (source : String) : Stats :=
  let count (kind : String) := a.symbols.countP fun s => s.kind.describe == kind
  ⟨count "variable", count "array", count "procedure", count "function", countLines source⟩

def toJson (s : Stats) : Json :=
  .record [("variables", .nat s.variableCount),
    ("arrays", .nat s.arrayCount),
    ("procedures", .nat s.procedureCount),
    ("functions", .nat s.functionCount),
    ("loc", .nat s.lineCount)]

end Stats

/-- What checking a file has found: the figures, or the error. -/
structure Feedback where
  file : String
  outcome : Except Error Stats

namespace Feedback

def success (f : Feedback) : Bool :=
  match f.outcome with
  | .ok _ => true
  | .error _ => false

def toJson (f : Feedback) : Json :=
  let (diagnostics, stats) := match f.outcome with
    | .ok stats => ([], stats)
    | .error e => ([e.toJson f.file], Stats.zero)
  .record [("success", .bool f.success),
    ("source_file", .text f.file),
    ("diagnostics", .array diagnostics),
    ("stats", stats.toJson)]

def render (f : Feedback) : String :=
  f.toJson.render Json.indented

/-- The feedback on a source that has been analysed. -/
def ofAnalysis (file source : String) (result : Except Error Analysis) : Feedback :=
  ⟨file, result.map fun a => Stats.collect a source⟩

end Feedback

end Guarded
