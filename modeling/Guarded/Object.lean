import Guarded.Error
import Guarded.Ty

/-!
Object code: what a program is compiled to and what the stack machine runs. A unit has an entry
routine, further routines and named global fields. The branch targets of a routine are offsets into
its own code.
-/

namespace Guarded

/-- The type of a field, local slot, parameter or result. -/
inductive Slot where
  | int
  | float
  | boolean
  | intArray
  | floatArray
  | booleanArray
deriving DecidableEq, Repr, Inhabited

namespace Slot

def name : Slot → String
  | int => "int"
  | float => "float"
  | boolean => "boolean"
  | intArray => "int[]"
  | floatArray => "float[]"
  | booleanArray => "boolean[]"

def isArray : Slot → Bool
  | intArray | floatArray | booleanArray => true
  | _ => false

/-- The slot of a single value. -/
def scalar : Ty → Except Error Slot
  | .int => .ok int
  | .float => .ok float
  | .boolean => .ok boolean
  | ty => .error (.codeGen s!"no storage for type {ty.name}")

/-- The slot of an array with elements of a type. -/
def array : Ty → Except Error Slot
  | .int => .ok intArray
  | .float => .ok floatArray
  | .boolean => .ok booleanArray
  | ty => .error (.codeGen s!"no array storage for type {ty.name}")

end Slot

/-- The kind of elements a new array gets; booleans are kept as integers. -/
inductive Elem where
  | int
  | float
deriving DecidableEq, Repr

/-- The name in object files and messages. -/
def Elem.tag : Elem → String
  | .int => "Int"
  | .float => "Float"

/-- When a branch is taken, by the order of two integers or of one integer and zero. -/
inductive Cond where
  | eq | ne | lt | ge | gt | le
deriving DecidableEq, Repr

namespace Cond

def name : Cond → String
  | eq => "eq"
  | ne => "ne"
  | lt => "lt"
  | ge => "ge"
  | gt => "gt"
  | le => "le"

/-- The name in object files and messages. -/
def tag : Cond → String
  | eq => "Eq"
  | ne => "Ne"
  | lt => "Lt"
  | ge => "Ge"
  | gt => "Gt"
  | le => "Le"

def holds : Cond → Ordering → Bool
  | eq, o => o == .eq
  | ne, o => o != .eq
  | lt, o => o == .lt
  | ge, o => o != .lt
  | gt, o => o == .gt
  | le, o => o != .gt

def negate : Cond → Cond
  | eq => ne
  | ne => eq
  | lt => ge
  | ge => lt
  | gt => le
  | le => gt

theorem holds_negate (c : Cond) (o : Ordering) : c.negate.holds o = !c.holds o := by
  cases c <;> cases o <;> rfl

end Cond

/-- What the machine asks of its surroundings. -/
inductive Service where
  | printInt | printFloat | printBoolean
  | inputInt | inputFloat | inputBoolean
  | abortNoAlternative | abortNoFunctionReturn
deriving DecidableEq, Repr

namespace Service

def name : Service → String
  | printInt => "printInt"
  | printFloat => "printFloat"
  | printBoolean => "printBoolean"
  | inputInt => "inputInt"
  | inputFloat => "inputFloat"
  | inputBoolean => "inputBoolean"
  | abortNoAlternative => "abortNoAlternative"
  | abortNoFunctionReturn => "abortNoFunctionReturn"

/-- The name in object files and messages. -/
def tag : Service → String
  | printInt => "PrintInt"
  | printFloat => "PrintFloat"
  | printBoolean => "PrintBoolean"
  | inputInt => "InputInt"
  | inputFloat => "InputFloat"
  | inputBoolean => "InputBoolean"
  | abortNoAlternative => "AbortNoAlternative"
  | abortNoFunctionReturn => "AbortNoFunctionReturn"

end Service

inductive Instr where
  | iconst (value : Int32)
  | fconst (value : Float32)
  | sconst (value : String)
  | iload (slot : Nat)
  | fload (slot : Nat)
  | aload (slot : Nat)
  | istore (slot : Nat)
  | fstore (slot : Nat)
  | astore (slot : Nat)
  | getstatic (field : String)
  | putstatic (field : String)
  | newarray (elem : Elem)
  | iaload | faload | iastore | fastore
  | iadd | isub | imul | idiv | irem | ineg
  | fadd | fsub | fmul | fdiv | fneg
  | i2f | f2i
  | iand | ior
  /-- Compares floats; unordered operands give `-1`. -/
  | fcmpl
  /-- Compares floats; unordered operands give `1`. -/
  | fcmpg
  /-- Branches on the order of an integer and zero. -/
  | branch (cond : Cond) (target : Nat)
  /-- Branches on the order of two integers. -/
  | branchCompare (cond : Cond) (target : Nat)
  | goto (target : Nat)
  | invoke (routine : String)
  | service (call : Service)
  | ireturn | freturn
  | ret
deriving DecidableEq

namespace Instr

def target? : Instr → Option Nat
  | branch _ target | branchCompare _ target | goto target => some target
  | _ => none

/-- Gives a branch another target. -/
def retarget (target : Nat) : Instr → Instr
  | branch cond _ => branch cond target
  | branchCompare cond _ => branchCompare cond target
  | goto _ => goto target
  | i => i

/-- The name in object files and messages. -/
def tag : Instr → String
  | iconst _ => "IConst"
  | fconst _ => "FConst"
  | sconst _ => "SConst"
  | iload _ => "ILoad"
  | fload _ => "FLoad"
  | aload _ => "ALoad"
  | istore _ => "IStore"
  | fstore _ => "FStore"
  | astore _ => "AStore"
  | getstatic _ => "GetStatic"
  | putstatic _ => "PutStatic"
  | newarray _ => "NewArray"
  | iaload => "IALoad"
  | faload => "FALoad"
  | iastore => "IAStore"
  | fastore => "FAStore"
  | iadd => "IAdd"
  | isub => "ISub"
  | imul => "IMul"
  | idiv => "IDiv"
  | irem => "IRem"
  | ineg => "INeg"
  | fadd => "FAdd"
  | fsub => "FSub"
  | fmul => "FMul"
  | fdiv => "FDiv"
  | fneg => "FNeg"
  | i2f => "I2F"
  | f2i => "F2I"
  | iand => "IAnd"
  | ior => "IOr"
  | fcmpl => "FCmpL"
  | fcmpg => "FCmpG"
  | branch _ _ => "If"
  | branchCompare _ _ => "IfICmp"
  | goto _ => "Goto"
  | invoke _ => "Invoke"
  | service _ => "InvokeRuntime"
  | ireturn => "IReturn"
  | freturn => "FReturn"
  | ret => "Return"

end Instr

structure Field where
  name : String
  slot : Slot
deriving DecidableEq, Repr

/-- A callable piece of code. Parameters take the first local slots, in order. -/
structure Routine where
  name : String
  params : Array Slot
  result : Option Slot
  locals : Array Slot
  code : Array Instr
deriving DecidableEq

structure ObjectUnit where
  package : String
  name : String
  globals : Array Field
  entry : Routine
  routines : Array Routine
deriving DecidableEq

namespace ObjectUnit

def qualifiedName (u : ObjectUnit) : String :=
  u.package ++ "." ++ u.name

/-- The first routine with a name. -/
def routine? (u : ObjectUnit) (name : String) : Option Routine :=
  u.routines.find? fun r => r.name == name

/-- The package of units compiled without one. -/
def defaultPackage : String :=
  "djkcode"

/-- The extension of files that hold a unit. -/
def extension : String :=
  "djo"

end ObjectUnit

end Guarded
