import Guarded.Number.Style
import Guarded.Object
import Guarded.Text.Quoted
import Std.Data.TreeMap

/-!
The stack machine. Its state is a stack of activations, one operand stack shared by all of them, the
global fields and a heap of arrays that only grows. Booleans are the integers zero and one. Code is
not trusted: every instruction checks what it takes.

Printing and reading are not the machine's own: it stops with a request and goes on with the reply.
-/

namespace Guarded

inductive Value where
  | int (v : Int32)
  | float (v : Float32)
  | text (s : String)
  /-- The index of an array in the heap. -/
  | array (handle : Nat)
  /-- An array that has not been made yet. -/
  | null
deriving DecidableEq, Inhabited

namespace Value

/-- A value in messages. -/
def describe : Value → String
  | int v => s!"Int({v.toInt})"
  | float v => "Float(" ++ Number.Style.literal.single v ++ ")"
  | text s => "Str(" ++ Text.quoted s ++ ")"
  | array handle => s!"Array({handle})"
  | null => "Null"

/-- What a slot holds at first. -/
def zero : Slot → Value
  | .int | .boolean => int 0
  | .float => float 0
  | .intArray | .floatArray | .booleanArray => null

/-- What the elements of a new array are. -/
def zeroElem : Elem → Value
  | .int => int 0
  | .float => float 0

def ofBool (b : Bool) : Value :=
  int (if b then 1 else 0)

def asInt : Value → Except Error Int32
  | int v => .ok v
  | v => .error (.malformed s!"expected int, found {v.describe}")

def asFloat : Value → Except Error Float32
  | float v => .ok v
  | v => .error (.malformed s!"expected float, found {v.describe}")

def asText : Value → Except Error String
  | text s => .ok s
  | v => .error (.malformed s!"expected name, found {v.describe}")

def asArray : Value → Except Error Nat
  | array handle => .ok handle
  | null => .error .nullArray
  | v => .error (.malformed s!"expected array, found {v.describe}")

end Value

/-- What a running program asks of its surroundings. -/
inductive Request where
  | printInt (v : Int32)
  | printFloat (v : Float32)
  | printBoolean (b : Bool)
  | inputInt (name : String)
  | inputFloat (name : String)
  | inputBoolean (name : String)
  | abortNoAlternative (line : Int32)
  | abortNoFunctionReturn (line : Int32)
deriving DecidableEq

/-- What answers a request. Nothing answers an abort: the program is over. -/
abbrev Request.Reply : Request → Type
  | .printInt _ | .printFloat _ | .printBoolean _ => Unit
  | .inputInt _ => Int32
  | .inputFloat _ => Float32
  | .inputBoolean _ => Bool
  | .abortNoAlternative _ | .abortNoFunctionReturn _ => Empty

/-- The name a value is asked for by. -/
def Request.inputName? : Request → Option String
  | .inputInt name | .inputFloat name | .inputBoolean name => some name
  | _ => none

/-- An activation of a routine. -/
structure Frame where
  routine : Routine
  pc : Nat
  locals : Array Value

structure Machine where
  unit : ObjectUnit
  /-- The innermost activation comes first. -/
  frames : List Frame
  /-- The top of the stack comes first. -/
  stack : List Value
  globals : Std.TreeMap String Value
  heap : Array (Array Value)

abbrev Exec := StateT Machine (Except Error)

namespace Exec

def push (v : Value) : Exec Unit :=
  modify fun m => { m with stack := v :: m.stack }

def pop : Exec Value := do
  let m ← get
  match m.stack with
  | [] => throw (.malformed "operand stack underflow")
  | v :: stack =>
    set { m with stack }
    return v

def popInt : Exec Int32 := do
  (← pop).asInt

def popFloat : Exec Float32 := do
  (← pop).asFloat

/-- The activation that is running. -/
def frame : Exec Frame := do
  match (← get).frames with
  | f :: _ => return f
  | [] => throw (.malformed "no active frame")

def slotOutOfRange (f : Frame) (slot : Nat) : Error :=
  .malformed s!"slot {slot} out of range in {f.routine.name}"

def loadLocal (slot : Nat) : Exec Unit := do
  let f ← frame
  match f.locals[slot]? with
  | some v => push v
  | none => throw (slotOutOfRange f slot)

def storeLocal (slot : Nat) (v : Value) : Exec Unit := do
  let m ← get
  match m.frames with
  | [] => throw (.malformed "no active frame")
  | f :: frames =>
    if slot < f.locals.size then
      set { m with frames := { f with locals := f.locals.setIfInBounds slot v } :: frames }
    else throw (slotOutOfRange f slot)

def loadGlobal (field : String) : Exec Unit := do
  match (← get).globals[field]? with
  | some v => push v
  | none => throw (.malformed s!"unknown field {field}")

def storeGlobal (field : String) (v : Value) : Exec Unit := do
  let m ← get
  if m.globals.contains field then set { m with globals := m.globals.insert field v }
  else throw (.malformed s!"unknown field {field}")

/-- Applies an operation to the two integers on top, the upper one second. -/
def intOp (op : Int32 → Int32 → Int32) : Exec Unit := do
  let b ← popInt
  let a ← popInt
  push (.int (op a b))

/-- Applies an operation to the two floats on top, the upper one second. -/
def floatOp (op : Float32 → Float32 → Float32) : Exec Unit := do
  let b ← popFloat
  let a ← popFloat
  push (.float (op a b))

/-- Divides the two integers on top, the upper one being the divisor. -/
def divide (op : Int32 → Int32 → Int32) : Exec Unit := do
  let b ← popInt
  let a ← popInt
  if b = 0 then throw .divisionByZero
  else push (.int (op a b))

/-- The order of two floats as an integer, `unordered` if they have none. -/
def orderOf (unordered : Int32) (a b : Float32) : Int32 :=
  if a < b then -1 else if b < a then 1 else if a == b then 0 else unordered

def compareFloats (unordered : Int32) : Exec Unit := do
  let b ← popFloat
  let a ← popFloat
  push (.int (orderOf unordered a b))

/-- Makes an array of zeros. -/
def newArray (elem : Elem) : Exec Unit := do
  let size ← popInt
  if size < 0 then throw (.negativeArraySize size)
  else
    let m ← get
    let handle := m.heap.size
    set { m with heap := m.heap.push (Array.replicate size.toInt.toNat (Value.zeroElem elem)) }
    push (.array handle)

/-- Takes an index and the array below it: the handle and the index as a position in it. -/
def element : Exec (Nat × Nat) := do
  let index ← popInt
  let handle ← (← pop).asArray
  let length := ((← get).heap[handle]?.map Array.size).getD 0
  if 0 ≤ index && index.toInt.toNat < length then return (handle, index.toInt.toNat)
  else throw (.indexOutOfBounds index length)

def loadElement : Exec Unit := do
  let (handle, i) ← element
  push (((← get).heap[handle]?.bind fun items => items[i]?).getD .null)

def storeElement : Exec Unit := do
  let v ← pop
  let (handle, i) ← element
  modify fun m => { m with heap := m.heap.modify handle fun items => items.setIfInBounds i v }

def jump (target : Nat) : Exec Unit :=
  modify fun m =>
    match m.frames with
    | f :: frames => { m with frames := { f with pc := target } :: frames }
    | [] => m

/-- At most so many activations. -/
def maxDepth : Nat :=
  1024

/-- Starts a routine. The arguments move from the stack into the first slots, the last argument
being on top; the other slots hold zeros. -/
def enter (r : Routine) : Exec Unit := do
  let m ← get
  let count := r.params.size
  if maxDepth ≤ m.frames.length then throw .stackOverflow
  else if r.locals.size < count then
    throw (.malformed s!"{r.name} has fewer locals than parameters")
  else
    let args := m.stack.take count
    if args.length < count then throw (.malformed "operand stack underflow")
    else
      let zeros := (r.locals.toList.drop count).map Value.zero
      let locals := (args.reverse ++ zeros).toArray
      set { m with stack := m.stack.drop count, frames := ⟨r, 0, locals⟩ :: m.frames }

/-- Ends the running activation. -/
def leave : Exec Unit :=
  modify fun m => { m with frames := m.frames.tail }

/-- Calls a routine; of several with one name the last is meant. -/
def invoke (name : String) : Exec Unit := do
  match (← get).unit.routines.findRev? fun r => r.name == name with
  | some r => enter r
  | none => throw (.malformed s!"unknown routine {name}")

/-- Carries out an instruction; requests are not its concern. -/
def instr : Instr → Exec Unit
  | .iconst v => push (.int v)
  | .fconst v => push (.float v)
  | .sconst s => push (.text s)
  | .iload n | .fload n | .aload n => loadLocal n
  | .istore n | .fstore n | .astore n => do storeLocal n (← pop)
  | .getstatic field => loadGlobal field
  | .putstatic field => do storeGlobal field (← pop)
  | .newarray elem => newArray elem
  | .iaload | .faload => loadElement
  | .iastore | .fastore => storeElement
  | .iadd => intOp (· + ·)
  | .isub => intOp (· - ·)
  | .imul => intOp (· * ·)
  | .idiv => divide (· / ·)
  | .irem => divide (· % ·)
  | .ineg => do push (.int (-(← popInt)))
  | .fadd => floatOp (· + ·)
  | .fsub => floatOp (· - ·)
  | .fmul => floatOp (· * ·)
  | .fdiv => floatOp (· / ·)
  | .fneg => do push (.float (-(← popFloat)))
  | .i2f => do push (.float (Number.singleOfInt (← popInt).toInt))
  | .f2i => do push (.int (Number.toInt32 (← popFloat)))
  | .iand => intOp (· &&& ·)
  | .ior => intOp (· ||| ·)
  | .fcmpl => compareFloats (-1)
  | .fcmpg => compareFloats 1
  | .branch cond target => do
    let v ← popInt
    if cond.holds (compare v.toInt 0) then jump target
  | .branchCompare cond target => do
    let b ← popInt
    let a ← popInt
    if cond.holds (compare a.toInt b.toInt) then jump target
  | .goto target => jump target
  | .invoke name => invoke name
  | .service _ => pure ()
  | .ireturn | .freturn => do
    let v ← pop
    leave
    push v
  | .ret => leave

/-- Takes the operand of a request from the stack. -/
def request : Service → Exec Request
  | .printInt => return .printInt (← popInt)
  | .printFloat => return .printFloat (← popFloat)
  | .printBoolean => return .printBoolean ((← popInt) != 0)
  | .inputInt => do return .inputInt (← (← pop).asText)
  | .inputFloat => do return .inputFloat (← (← pop).asText)
  | .inputBoolean => do return .inputBoolean (← (← pop).asText)
  | .abortNoAlternative => return .abortNoAlternative (← popInt)
  | .abortNoFunctionReturn => return .abortNoFunctionReturn (← popInt)

end Exec

namespace Machine

/-- The machine that goes on with a reply: what has been read is on the stack. -/
def resume (m : Machine) : (r : Request) → r.Reply → Machine
  | .printInt _, _ | .printFloat _, _ | .printBoolean _, _ => m
  | .inputInt _, v => { m with stack := .int v :: m.stack }
  | .inputFloat _, v => { m with stack := .float v :: m.stack }
  | .inputBoolean _, b => { m with stack := .ofBool b :: m.stack }
  | .abortNoAlternative _, e | .abortNoFunctionReturn _, e => nomatch e

/-- What comes of one step. -/
inductive Step where
  | done (m : Machine)
  | next (m : Machine)
  | ask (r : Request) (m : Machine)
  | fail (e : Error)

/-- Carries out the instruction at hand. A program is done when no activation is left. -/
def step (m : Machine) : Step :=
  match m.frames with
  | [] => .done m
  | f :: frames =>
    match f.routine.code[f.pc]? with
    | none => .fail (.malformed s!"{f.routine.name} ran past its last instruction")
    | some (.service s) =>
      match Exec.request s { m with frames := { f with pc := f.pc + 1 } :: frames } with
      | .ok (r, m) => .ask r m
      | .error e => .fail e
    | some i =>
      match Exec.instr i { m with frames := { f with pc := f.pc + 1 } :: frames } with
      | .ok ((), m) => .next m
      | .error e => .fail e

/-- The machine before its entry routine is started. -/
def idle (u : ObjectUnit) : Machine where
  unit := u
  frames := []
  stack := []
  globals := u.globals.foldl (fun g f => g.insert f.name (Value.zero f.slot)) ∅
  heap := #[]

/-- The machine at the first instruction of a unit. -/
def start (u : ObjectUnit) : Except Error Machine := do
  let ((), m) ← Exec.enter u.entry (idle u)
  return m

/-- Surroundings with a state of their own, which a failed answer may change too. -/
abbrev Host (σ : Type) := (r : Request) → EStateM Error σ r.Reply

/-- One step together with the answer to what it asks. -/
def advance {σ : Type} (host : Host σ) (c : Machine × σ) :
    (Machine × σ) ⊕ EStateM.Result Error σ Machine :=
  match c.1.step with
  | .done m => .inr (.ok m c.2)
  | .next m => .inl (m, c.2)
  | .fail e => .inr (.error e c.2)
  | .ask r m =>
    match host r c.2 with
    | .ok reply s => .inl (m.resume r reply, s)
    | .error e s => .inr (.error e s)

/-- Where a run is after a number of steps, unless it is over by then. -/
def after {σ : Type} (host : Host σ) : Nat → Machine × σ → Option (Machine × σ)
  | 0, c => some c
  | n + 1, c =>
    match advance host c with
    | .inl c' => after host n c'
    | .inr _ => none

/-- Runs up to `fuel` steps; there is no result if the program is not over by then. -/
def run {σ : Type} (host : Host σ) : Nat → Machine → σ → Option (EStateM.Result Error σ Machine)
  | 0, _, _ => none
  | fuel + 1, m, s =>
    match advance host (m, s) with
    | .inl (m, s) => run host fuel m s
    | .inr r => some r

end Machine

/-- Runs a unit from its start. -/
def ObjectUnit.execute {σ : Type} (u : ObjectUnit) (host : Machine.Host σ) (fuel : Nat) (s : σ) :
    Option (EStateM.Result Error σ Machine) :=
  match Machine.start u with
  | .error e => some (.error e s)
  | .ok m => Machine.run host fuel m s

/-- The surroundings of a unit whose run is stopped after `fuel` steps. -/
def ObjectUnit.stopped {σ : Type} (u : ObjectUnit) (host : Machine.Host σ) (fuel : Nat) (s : σ) :
    σ :=
  match Machine.start u with
  | .error _ => s
  | .ok m => ((Machine.after host fuel (m, s)).map Prod.snd).getD s

end Guarded
