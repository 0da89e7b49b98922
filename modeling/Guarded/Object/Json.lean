import Guarded.Json.Decode
import Guarded.Json.Read
import Guarded.Json.Write
import Guarded.Number.Style
import Guarded.Object

/-!
Object units as JSON. An instruction is its name, with its operand behind the name if it has one and
the operands in an array if it has two. Fields come in the order of their declaration.
-/

namespace Guarded

/-- Floats in object files: an exponent, with its sign, below `10 ^ -6` and from `10 ^ 13` on. -/
def Json.floatStyle : Number.Style where
  tie := .even
  positional := fun e => -6 ≤ e && e ≤ 12
  fraction := fun _ => true
  plus := true
  nan := "null"
  infinity := "null"

/-- A float; what is not finite has no numeral. -/
def Json.float (v : Float32) : Json :=
  if v.isFinite then .number (Json.floatStyle.chars Number.single v.toBits.toNat) else .null

namespace Slot

def tag : Slot → String
  | int => "Int"
  | float => "Float"
  | boolean => "Boolean"
  | intArray => "IntArray"
  | floatArray => "FloatArray"
  | booleanArray => "BooleanArray"

def all : List Slot :=
  [int, float, boolean, intArray, floatArray, booleanArray]

def toJson (s : Slot) : Json :=
  .text s.tag

def ofJson (j : Json) : Option Slot :=
  j.bare.bind fun name => all.find? fun s => s.tag == name

end Slot

namespace Elem

def ofJson (j : Json) : Option Elem :=
  j.bare.bind fun name => [int, float].find? fun e => e.tag == name

end Elem

namespace Cond

def all : List Cond :=
  [eq, ne, lt, ge, gt, le]

def ofJson (j : Json) : Option Cond :=
  j.bare.bind fun name => all.find? fun c => c.tag == name

end Cond

namespace Service

def all : List Service :=
  [printInt, printFloat, printBoolean, inputInt, inputFloat, inputBoolean, abortNoAlternative,
    abortNoFunctionReturn]

def ofJson (j : Json) : Option Service :=
  j.bare.bind fun name => all.find? fun s => s.tag == name

end Service

namespace Instr

/-- The instructions without operand. -/
def bare : List Instr :=
  [iaload, faload, iastore, fastore, iadd, isub, imul, idiv, irem, ineg, fadd, fsub, fmul, fdiv,
    fneg, i2f, f2i, iand, ior, fcmpl, fcmpg, ireturn, freturn, ret]

/-- What follows the name of an instruction. -/
def operand? : Instr → Option Json
  | iconst v => some (.int v.toInt)
  | fconst v => some (.float v)
  | sconst s | getstatic s | putstatic s | invoke s => some (.text s)
  | iload n | fload n | aload n | istore n | fstore n | astore n | goto n => some (.nat n)
  | newarray e => some (.text e.tag)
  | branch c t | branchCompare c t => some (.array [.text c.tag, .nat t])
  | service s => some (.text s.tag)
  | _ => none

def toJson (i : Instr) : Json :=
  match i.operand? with
  | none => .text i.tag
  | some operand => .tagged i.tag operand

/-- A slot number has 16 bits. -/
def slotOfJson (j : Json) : Option Nat :=
  (j.asInt 0 0xffff).map Int.toNat

/-- A branch target has 64 bits. -/
def targetOfJson (j : Json) : Option Nat :=
  (j.asInt 0 0xffffffffffffffff).map Int.toNat

/-- A condition and a target. -/
def branchOfJson : Json → Option (Cond × Nat)
  | .array [cond, target] => do
    let c ← Cond.ofJson cond
    let t ← targetOfJson target
    return (c, t)
  | _ => none

/-- The instruction with a name and an operand. -/
def ofOperand (tag : String) (j : Json) : Option Instr :=
  match tag with
  | "IConst" => (j.asInt (-0x80000000) 0x7fffffff).map fun v => iconst (Int32.ofInt v)
  | "FConst" => j.asSingle.map fconst
  | "SConst" => j.asText.map sconst
  | "ILoad" => (slotOfJson j).map iload
  | "FLoad" => (slotOfJson j).map fload
  | "ALoad" => (slotOfJson j).map aload
  | "IStore" => (slotOfJson j).map istore
  | "FStore" => (slotOfJson j).map fstore
  | "AStore" => (slotOfJson j).map astore
  | "GetStatic" => j.asText.map getstatic
  | "PutStatic" => j.asText.map putstatic
  | "NewArray" => (Elem.ofJson j).map newarray
  | "If" => (branchOfJson j).map fun (c, t) => branch c t
  | "IfICmp" => (branchOfJson j).map fun (c, t) => branchCompare c t
  | "Goto" => (targetOfJson j).map goto
  | "Invoke" => j.asText.map invoke
  | "InvokeRuntime" => (Service.ofJson j).map service
  | _ => none

def ofJson (j : Json) : Option Instr :=
  match j.bare.bind fun name => bare.find? fun i => i.tag == name with
  | some i => some i
  | none =>
    match j.variant with
    | some (tag, some operand) => ofOperand tag operand
    | _ => none

end Instr

namespace Field

def toJson (f : Field) : Json :=
  .record [("name", .text f.name), ("ty", f.slot.toJson)]

def ofJson (j : Json) : Option Field :=
  match j.fields ["name", "ty"] with
  | some [some name, some ty] => do
    let name ← name.asText
    let slot ← Slot.ofJson ty
    return ⟨name, slot⟩
  | _ => none

end Field

namespace Routine

def toJson (r : Routine) : Json :=
  .record [("name", .text r.name),
    ("params", .array (r.params.toList.map Slot.toJson)),
    ("ret", (r.result.map Slot.toJson).getD .null),
    ("locals", .array (r.locals.toList.map Slot.toJson)),
    ("code", .array (r.code.toList.map Instr.toJson))]

/-- No result is written `null`, or left out. -/
def resultOfJson : Option Json → Option (Option Slot)
  | none | some .null => some none
  | some j => (Slot.ofJson j).map some

def ofJson (j : Json) : Option Routine :=
  match j.fields ["name", "params", "ret", "locals", "code"] with
  | some [some name, some params, result, some locals, some code] => do
    let name ← name.asText
    let params ← params.asList Slot.ofJson
    let result ← resultOfJson result
    let locals ← locals.asList Slot.ofJson
    let code ← code.asList Instr.ofJson
    return ⟨name, params.toArray, result, locals.toArray, code.toArray⟩
  | _ => none

end Routine

namespace ObjectUnit

def toJson (u : ObjectUnit) : Json :=
  .record [("package", .text u.package),
    ("name", .text u.name),
    ("globals", .array (u.globals.toList.map Field.toJson)),
    ("entry", u.entry.toJson),
    ("routines", .array (u.routines.toList.map Routine.toJson))]

def ofJson (j : Json) : Option ObjectUnit :=
  match j.fields ["package", "name", "globals", "entry", "routines"] with
  | some [some package, some name, some globals, some entry, some routines] => do
    let package ← package.asText
    let name ← name.asText
    let globals ← globals.asList Field.ofJson
    let entry ← Routine.ofJson entry
    let routines ← routines.asList Routine.ofJson
    return ⟨package, name, globals.toArray, entry, routines.toArray⟩
  | _ => none

/-- The text of a unit's file. -/
def save (u : ObjectUnit) : String :=
  u.toJson.render Json.indented

/-- The unit a file's text holds. -/
def load (text : String) : Except Error ObjectUnit :=
  match (Json.read text).bind ofJson with
  | some u => .ok u
  | none => .error (.malformed "not an object unit")

end ObjectUnit

end Guarded
