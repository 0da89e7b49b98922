import Guarded.Span

/-!
Everything that can go wrong between a source text and the end of its run, with the wording. Errors
found in the source carry the region they are about.
-/

namespace Guarded

inductive Error where
  | unexpectedToken (expected got : String) (span : Span)
  | unexpectedChar (ch : Char) (span : Span)
  | invalidNumber (text : String) (span : Span)
  | expectedIdent (span : Span)
  | expectedType (span : Span)
  | expectedExpr (span : Span)
  | duplicateDefinition (name : String) (span : Span)
  | undefinedSymbol (name : String) (span : Span)
  | notAVariable (name : String) (span : Span)
  | noSuchArray (name : String) (span : Span)
  | noSuchFunction (name : String) (span : Span)
  | noSuchProcedure (name : String) (span : Span)
  | procedureAsFunction (name : String) (span : Span)
  | functionAsProcedure (name : String) (span : Span)
  | argCountMismatch (name : String) (expected got : Nat) (span : Span)
  | assignmentArity (targets values : Nat) (span : Span)
  | capturedLocal (name : String) (span : Span)
  | typeConflict (current proposed : String) (span : Span)
  | unresolvedType (name : String) (span : Span)
  | returnOutsideMethod (span : Span)
  | invalidReturnType (expected : String) (span : Span)
  | equalityOperands (left right : String) (span : Span)
  | nonIntegerDivMod (span : Span)
  | nonIntegerIndex (span : Span)
  | codeGen (reason : String)
  | noAlternative (line : Int32)
  | noFunctionReturn (line : Int32)
  | divisionByZero
  | indexOutOfBounds (index : Int32) (length : Nat)
  | negativeArraySize (size : Int32)
  | nullArray
  | stackOverflow
  | badInput (name text : String)
  | malformed (reason : String)
  | io (reason : String)
deriving DecidableEq, Repr

namespace Error

def message : Error → String
  | unexpectedToken expected got _ => s!"Unexpected token: expected {expected}, got {got}"
  | unexpectedChar ch _ => s!"Unexpected character '{ch}'"
  | invalidNumber text _ => s!"Invalid number literal: {text}"
  | expectedIdent _ => "Expected identifier"
  | expectedType _ => "Expected type"
  | expectedExpr _ => "Expected expression"
  | duplicateDefinition name _ => s!"Duplicate definition: {name}"
  | undefinedSymbol name _ => s!"Reference to symbol {name}, which does not exist"
  | notAVariable name _ => s!"{name} is not a variable"
  | noSuchArray name _ => s!"No array with name {name}"
  | noSuchFunction name _ => s!"No function with name {name}"
  | noSuchProcedure name _ => s!"No procedure with name {name}"
  | procedureAsFunction name _ => s!"Procedure {name} cannot be used as a function"
  | functionAsProcedure name _ => s!"Function {name} cannot be called as a procedure"
  | argCountMismatch name expected got _ =>
    s!"Argument count mismatch calling {name}: expected {expected}, got {got}"
  | assignmentArity targets values _ => s!"Assignment has {targets} targets but {values} values"
  | capturedLocal name _ => s!"{name} is local to an enclosing routine and cannot be used here"
  | typeConflict current proposed _ =>
    s!"Type conflict: cannot use {proposed} where {current} is required"
  | unresolvedType name _ => s!"Unable to infer type of identifier {name}"
  | returnOutsideMethod _ => "Return call outside of a function!"
  | invalidReturnType expected _ => s!"Invalid return type, must be {expected}"
  | equalityOperands left right _ =>
    s!"'=' and '~=' can only be used with operands of the same type ({left} vs {right})"
  | nonIntegerDivMod _ => "Cannot use div or mod with non-integer operands"
  | nonIntegerIndex _ => "Arrays can only be accessed with integer types!"
  | codeGen reason => s!"Code generation error: {reason}"
  | noAlternative line => s!"No alternative satisfied in if statement on line {line.toInt}"
  | noFunctionReturn line => s!"Function ended without a return on line {line.toInt}"
  | divisionByZero => "Division by zero"
  | indexOutOfBounds index length =>
    s!"Array index {index.toInt} out of bounds for length {length}"
  | negativeArraySize size => s!"Negative array size: {size.toInt}"
  | nullArray => "Array used before it was created"
  | stackOverflow => "Call stack overflow"
  | badInput name text => s!"Invalid input for {name}: {text}"
  | malformed reason => s!"Malformed object code: {reason}"
  | io reason => s!"IO error: {reason}"

/-- The region of source an error is about. -/
def span? : Error → Option Span
  | unexpectedToken _ _ s | unexpectedChar _ s | invalidNumber _ s | expectedIdent s
  | expectedType s | expectedExpr s | duplicateDefinition _ s | undefinedSymbol _ s
  | notAVariable _ s | noSuchArray _ s | noSuchFunction _ s | noSuchProcedure _ s
  | procedureAsFunction _ s | functionAsProcedure _ s | argCountMismatch _ _ _ s
  | assignmentArity _ _ s | capturedLocal _ s | typeConflict _ _ s | unresolvedType _ s
  | returnOutsideMethod s | invalidReturnType _ s | equalityOperands _ _ s | nonIntegerDivMod s
  | nonIntegerIndex s => some s
  | _ => none

/-- The source line of an error, from its region or from what the running program reported. -/
def line? : Error → Option Nat
  | noAlternative line | noFunctionReturn line =>
    if 0 ≤ line.toInt then some line.toInt.toNat else none
  | e => e.span?.bind fun s => if 0 < s.line then some s.line else none

/-- Whether a running program raises this error by itself, as opposed to code that is not well
formed. -/
def isRuntime : Error → Bool
  | noAlternative _ | noFunctionReturn _ | divisionByZero | indexOutOfBounds _ _
  | negativeArraySize _ | nullArray | stackOverflow | badInput _ _ => true
  | _ => false

end Error

end Guarded
