import Guarded.Compile.Emit
import Guarded.Console
import Guarded.Proofs.Bound
import Mathlib.Logic.Function.Basic

/-!
What programs mean, without machine or code: an evaluator over the tree of a program with its
tables. An expression is evaluated at the type of its node, and its value is converted where the
context needs another type. Global variables are zero when the program starts, and the locals of a
method are zero whenever it is called.

Fuel bounds the rounds of each loop. Calls need none, since there are never more than
`Exec.maxDepth` activations.
-/

namespace Guarded

namespace Ty

/-- The values of a type. Types that are not final have only one. -/
def Den : Ty → Type
  | int => Int32
  | float => Float32
  | boolean => Bool
  | undefined | num => Unit

def zero : (ty : Ty) → ty.Den
  | int => (0 : Int32)
  | float => (0 : Float32)
  | boolean => false
  | undefined | num => ()

/-- Numbers are converted, and all else stays as it is. -/
def convert : (s t : Ty) → s.Den → t.Den
  | int, int, v => v
  | int, float, v => Number.singleOfInt (Int32.toInt v)
  | float, int, v => Number.toInt32 v
  | float, float, v => v
  | boolean, boolean, v => v
  | _, t, _ => t.zero

def negate : (ty : Ty) → ty.Den → ty.Den
  | int, v => Int32.neg v
  | float, v => Float32.neg v
  | ty, _ => ty.zero

/-- The order of two values; floats may have none. -/
def order : (ty : Ty) → ty.Den → ty.Den → Option Ordering
  | int, x, y => some (compare (Int32.toInt x) (Int32.toInt y))
  | float, x, y =>
    let x : Float32 := x
    let y : Float32 := y
    if x < y then some .lt else if y < x then some .gt else if x == y then some .eq else none
  | boolean, x, y => some (compare (Bool.toNat x) (Bool.toNat y))
  | _, _, _ => none

end Ty

namespace BinOp

def onInts (op : BinOp) (x y : Int32) : Int32 :=
  match op with
  | add => x + y
  | sub => x - y
  | _ => x * y

def onFloats (op : BinOp) (x y : Float32) : Float32 :=
  match op with
  | add => x + y
  | sub => x - y
  | _ => x * y

/-- Sums, differences and products. -/
def onNumbers (op : BinOp) : (ty : Ty) → ty.Den → ty.Den → ty.Den
  | .int, x, y => op.onInts x y
  | .float, x, y => op.onFloats x y
  | ty, _, _ => ty.zero

/-- What a comparison says about operands of a known order. Of operands without order only `ne` is
true. -/
def holds (op : BinOp) (o : Option Ordering) : Bool :=
  match op with
  | lt => o == some .lt
  | gt => o == some .gt
  | le => o == some .lt || o == some .eq
  | ge => o == some .gt || o == some .eq
  | eq => o == some .eq
  | _ => o != some .eq

end BinOp

/-- The faults of a program, as far as they are its own. -/
inductive Trap where
  | divisionByZero
  | nullArray
  | negativeArraySize (size : Int32)
  | indexOutOfBounds (index : Int32) (length : Nat)
  | stackOverflow
deriving DecidableEq

def Trap.error : Trap → Error
  | divisionByZero => .divisionByZero
  | nullArray => .nullArray
  | negativeArraySize size => .negativeArraySize size
  | indexOutOfBounds i length => .indexOutOfBounds i length
  | stackOverflow => .stackOverflow

/-- Why an evaluation stops early. -/
inductive Stop where
  | trap (t : Trap)
  /-- The surroundings failed to answer. -/
  | refused (e : Error)
  | outOfFuel

/-- Variables, and the arrays that have been made. -/
structure Store (a : Analysis) where
  vars : (x : SymbolId) → (a.symbolType x).Den
  arrays : SymbolId → Option Nat

namespace Store
variable {a : Analysis}

def zero : Store a :=
  ⟨fun x => (a.symbolType x).zero, fun _ => none⟩

def setVar (s : Store a) (x : SymbolId) (v : (a.symbolType x).Den) : Store a :=
  { s with vars := Function.update s.vars x v }

def setArray (s : Store a) (x : SymbolId) (handle : Nat) : Store a :=
  { s with arrays := Function.update s.arrays x (some handle) }

end Store

/-- An array on the heap. -/
structure Block where
  ty : Ty
  items : Array ty.Den

/-- The elements of an array, seen as values of a type. -/
def Block.view (b : Block) (ty : Ty) : Array ty.Den :=
  if same : b.ty = ty then same ▸ b.items else #[]

structure State (a : Analysis) (σ : Type) where
  globals : Store a
  /-- The locals of the running activation. -/
  locals : Store a
  heap : Array Block
  host : σ

namespace State
variable {a : Analysis} {σ : Type}

/-- The store a symbol lives in. -/
def store (s : State a σ) (x : SymbolId) : Store a :=
  if a.ownerOf x = none then s.globals else s.locals

def setStore (s : State a σ) (x : SymbolId) (store : Store a) : State a σ :=
  if a.ownerOf x = none then { s with globals := store } else { s with locals := store }

/-- The elements of the array with a handle. -/
def items (s : State a σ) (ty : Ty) (handle : Nat) : Array ty.Den :=
  (s.heap[handle]?.map fun b => b.view ty).getD #[]

end State

abbrev Eval (a : Analysis) (σ : Type) := EStateM Stop (State a σ)

/-- How a statement ends: it is done, or it returns from the method around it. -/
inductive Flow (ty : Ty) where
  | normal
  | returned (value : Option ty.Den)

/-- A store that an assignment has still to make. -/
inductive Pending (a : Analysis) where
  | var (x : SymbolId) (v : (a.symbolType x).Den)
  | element (x : SymbolId) (handle : Option Nat) (i : Int32) (v : (a.symbolType x).Den)

/-- The symbol of a bound name. -/
def Analysis.symbolOf (a : Analysis) (name : Ident) : SymbolId :=
  a.bindings[name.id]?.getD 0

/-- The type in which operands are compared. -/
def Analysis.comparisonType (a : Analysis) (lhs rhs : Expr) : Ty :=
  if a.typeOf lhs.id = .float || a.typeOf rhs.id = .float then .float else a.typeOf lhs.id

namespace Eval
variable {a : Analysis} {σ : Type}

def trap {α : Type} (t : Trap) : Eval a σ α :=
  throw (.trap t)

/-- Asks the surroundings. -/
def ask (host : Machine.Host σ) (r : Request) : Eval a σ r.Reply := fun s =>
  match host r s.host with
  | .ok reply host => .ok reply { s with host }
  | .error e host => .error (.refused e) { s with host }

/-- A value in the type that the context needs. -/
def need {s : Ty} (ty : Ty) (x : Eval a σ s.Den) : Eval a σ ty.Den :=
  return s.convert ty (← x)

def readVar (x : SymbolId) : Eval a σ (a.symbolType x).Den :=
  return ((← get).store x).vars x

def readArray (x : SymbolId) : Eval a σ (Option Nat) :=
  return ((← get).store x).arrays x

def writeVar (x : SymbolId) (v : (a.symbolType x).Den) : Eval a σ Unit :=
  modify fun s => s.setStore x ((s.store x).setVar x v)

/-- The position of an element in its array. -/
def locate (ty : Ty) (handle : Option Nat) (i : Int32) : Eval a σ (Nat × Nat) := do
  match handle with
  | none => trap .nullArray
  | some h =>
    let length := ((← get).items ty h).size
    if 0 ≤ i && i.toInt.toNat < length then return (h, i.toInt.toNat)
    else trap (.indexOutOfBounds i length)

def readElement (ty : Ty) (handle : Option Nat) (i : Int32) : Eval a σ ty.Den := do
  let (h, k) ← locate ty handle i
  return ((← get).items ty h)[k]?.getD ty.zero

def writeElement (ty : Ty) (handle : Option Nat) (i : Int32) (v : ty.Den) : Eval a σ Unit := do
  let (h, k) ← locate ty handle i
  modify fun s =>
    { s with heap := s.heap.setIfInBounds h ⟨ty, (s.items ty h).setIfInBounds k v⟩ }

/-- Makes an array of zeros for a symbol. -/
def newArray (x : SymbolId) (size : Int32) : Eval a σ Unit :=
  if size < 0 then trap (.negativeArraySize size)
  else modify fun s =>
    let s := s.setStore x ((s.store x).setArray x s.heap.size)
    let block : Block := ⟨a.symbolType x, Array.replicate size.toInt.toNat (a.symbolType x).zero⟩
    { s with heap := s.heap.push block }

def perform : Pending a → Eval a σ Unit
  | .var x v => writeVar x v
  | .element x handle i v => writeElement (a.symbolType x) handle i v

def performAll : List (Pending a) → Eval a σ Unit
  | [] => return
  | w :: ws => do
    perform w
    performAll ws

def print (host : Machine.Host σ) : (ty : Ty) → ty.Den → Eval a σ Unit
  | .float, v => ask host (.printFloat v)
  | .boolean, b => ask host (.printBoolean b)
  | .int, v => ask host (.printInt v)
  | _, _ => return

def input (host : Machine.Host σ) (name : String) : (ty : Ty) → Eval a σ ty.Den
  | .float => ask host (.inputFloat name)
  | .boolean => ask host (.inputBoolean name)
  | .int => ask host (.inputInt name)
  | ty => return ty.zero

/-- Divides, unless by zero. -/
def divide (f : Int32 → Int32 → Int32) (x y : Int32) : Eval a σ Int32 :=
  if y = 0 then trap .divisionByZero else return f x y

/-- Runs a round of a loop again and again, until no guard is true. -/
def rounds {ty : Ty} (round : Eval a σ (Option (Flow ty))) : Nat → Eval a σ (Flow ty)
  | 0 => throw .outOfFuel
  | fuel + 1 => do
    match ← round with
    | none => return .normal
    | some .normal => rounds round fuel
    | some (.returned v) => return .returned v

end Eval

namespace Expr
variable {a : Analysis} {σ : Type}
/- What a call of a method does, given its locals. -/
variable (call : (id : SymbolId) → Store a → Eval a σ (Flow (a.symbolType id)))

mutual

/-- The value of an expression, in the type of its node. -/
def eval : (e : Expr) → Eval a σ (a.typeOf e.id).Den
  | .int n v => return Ty.convert .int (a.typeOf n.id) v
  | .float n v => return Ty.convert .float (a.typeOf n.id) v
  | .bool n b => return Ty.convert .boolean (a.typeOf n.id) b
  | .paren n inner => Eval.need (a.typeOf n.id) inner.eval
  | .var n name => Eval.need (a.typeOf n.id) (Eval.readVar (a.symbolOf name))
  | .index n array i => do
    let x := a.symbolOf array
    let handle ← Eval.readArray x
    let i ← Eval.need .int i.eval
    Eval.need (a.typeOf n.id) (Eval.readElement (a.symbolType x) handle i)
  | .call n callee args => do
    let method := a.symbolOf callee
    let locals ← evalArgs args (a.params method) .zero
    match ← call method locals with
    | .returned (some v) => return Ty.convert (a.symbolType method) (a.typeOf n.id) v
    | _ => return Ty.zero (a.typeOf n.id)
  | .unary n .neg operand =>
    return Ty.negate (a.typeOf n.id) (← Eval.need (a.typeOf n.id) operand.eval)
  | .unary n .not operand => do
    let b ← Eval.need .boolean operand.eval
    return Ty.convert .boolean (a.typeOf n.id) (Bool.not b)
  | .binary n op lhs rhs =>
    let ty := a.typeOf n.id
    match op with
    | .add | .sub | .mul => do
      let x ← Eval.need ty lhs.eval
      let y ← Eval.need ty rhs.eval
      return op.onNumbers ty x y
    | .slash => do
      let x ← Eval.need .float lhs.eval
      let y ← Eval.need .float rhs.eval
      return Ty.convert .float ty (Float32.div x y)
    | .div => do
      let x ← Eval.need .int lhs.eval
      let y ← Eval.need .int rhs.eval
      return Ty.convert .int ty (← Eval.divide Int32.div x y)
    | .mod => do
      let x ← Eval.need .int lhs.eval
      let y ← Eval.need .int rhs.eval
      return Ty.convert .int ty (← Eval.divide Int32.mod x y)
    | .and => do
      let x ← Eval.need .boolean lhs.eval
      let y ← Eval.need .boolean rhs.eval
      return Ty.convert .boolean ty (Bool.and x y)
    | .or => do
      let x ← Eval.need .boolean lhs.eval
      let y ← Eval.need .boolean rhs.eval
      return Ty.convert .boolean ty (Bool.or x y)
    | .lt | .gt | .le | .ge | .eq | .ne => do
      let operands := a.comparisonType lhs rhs
      let x ← Eval.need operands lhs.eval
      let y ← Eval.need operands rhs.eval
      return Ty.convert .boolean ty (op.holds (operands.order x y))

/-- The locals of a call: each parameter holds its argument. -/
def evalArgs : List Expr → List SymbolId → Store a → Eval a σ (Store a)
  | arg :: args, param :: params, locals => do
    let v ← Eval.need (a.symbolType param) arg.eval
    evalArgs args params (locals.setVar param v)
  | _, _, locals => return locals

end

/-- Parentheses convert a value to the type of their node. -/
theorem eval_paren (n : Node) (inner : Expr) :
    (Expr.paren n inner).eval call = Eval.need (a.typeOf n.id) (inner.eval call) := by
  rw [eval]

end Expr

section Statements
variable {a : Analysis} {σ : Type} (host : Machine.Host σ) (fuel : Nat)
variable (call : (id : SymbolId) → Store a → Eval a σ (Flow (a.symbolType id)))

/-- Calls a method with arguments. -/
def Expr.invoke (callee : Ident) (args : List Expr) :
    Eval a σ (Flow (a.symbolType (a.symbolOf callee))) := do
  call (a.symbolOf callee) (← Expr.evalArgs call args (a.params (a.symbolOf callee)) .zero)

/-- What an assignment to a target has to store. -/
def Target.pending (target : Target) (value : Expr) : Eval a σ (Pending a) :=
  match target with
  | .var name =>
    return .var (a.symbolOf name) (← Eval.need (a.symbolType (a.symbolOf name)) (value.eval call))
  | .index array i => do
    let x := a.symbolOf array
    let handle ← Eval.readArray x
    let i ← Eval.need .int (i.eval call)
    return .element x handle i (← Eval.need (a.symbolType x) (value.eval call))

def Target.pendingAll : List Target → List Expr → Eval a σ (List (Pending a))
  | target :: targets, value :: values => do
    let w ← target.pending call value
    return w :: (← Target.pendingAll targets values)
  | _, _ => return []

/-- Makes an array for each name; the size is computed anew for each. -/
def Expr.newArrays (size : Expr) : List Ident → Eval a σ Unit
  | [] => return
  | name :: names => do
    Eval.newArray (a.symbolOf name) (← Eval.need .int (size.eval call))
    Expr.newArrays size names

/-- Reads a value for each name. -/
def Ident.inputs : List Ident → Eval a σ Unit
  | [] => return
  | name :: names => do
    let x := a.symbolOf name
    Eval.writeVar x (← Eval.input host name.name (a.symbolType x))
    Ident.inputs names

mutual

/-- Carries out a statement of a method with results of type `t`. Stores go from the last target of
an assignment to the first. -/
def Stmt.exec {t : Ty} : Stmt → Eval a σ (Flow t)
  | .varDecl .. | .method .. => return .normal
  | .arrayDecl _ _ size names => do
    size.newArrays call names
    return .normal
  | .assign _ targets values => do
    let pending ← Target.pendingAll call targets values
    Eval.performAll pending.reverse
    return .normal
  | .input _ names => do
    Ident.inputs host names
    return .normal
  | .print _ value => do
    Eval.print host (a.typeOf value.id) (← value.eval call)
    return .normal
  | .alternative node guards => do
    match ← Guard.choose guards with
    | some flow => return flow
    | none => nomatch ← Eval.ask host (.abortNoAlternative (lineOperand node.span.line))
  | .iterative _ guards => Eval.rounds (Guard.choose guards) fuel
  | .block _ _ body => Stmt.execAll body
  | .ret _ none => return .returned none
  | .ret _ (some value) => return .returned (some (← Eval.need t (value.eval call)))
  | .call _ callee args => do
    discard (Expr.invoke call callee args)
    return .normal

def Stmt.execAll {t : Ty} : List Stmt → Eval a σ (Flow t)
  | [] => return .normal
  | s :: ss => do
    match ← s.exec with
    | .normal => Stmt.execAll ss
    | .returned v => return .returned v

/-- Carries out the body of the first guard that is true, if there is one. -/
def Guard.choose {t : Ty} : List Guard → Eval a σ (Option (Flow t))
  | [] => return none
  | .mk _ cond body :: gs => do
    let isTrue : Bool ← Eval.need .boolean (cond.eval call)
    if isTrue then return some (← body.exec)
    else Guard.choose gs

end

end Statements

namespace Program
variable {σ : Type} (p : Program) (a : Analysis) (host : Machine.Host σ) (fuel : Nat)

/-- The declaration of a method. -/
def methodOf (id : SymbolId) : Option Method :=
  p.methods.find? fun m => a.bindings[m.name.id]? = some id

/-- Calls a method, with `depth` activations to go. A function must return a value. -/
def invoke : (depth : Nat) → (id : SymbolId) → Store a → Eval a σ (Flow (a.symbolType id))
  | 0, _, _ => Eval.trap .stackOverflow
  | depth + 1, id, locals => do
    let outer := (← get).locals
    modify fun s => { s with locals }
    match p.methodOf a id with
    | none => return .normal
    | some m =>
      match ← Stmt.execAll host fuel (invoke depth) m.body, (a.symbolKind id).isFunction with
      | .normal, true =>
        nomatch ← Eval.ask host (.abortNoFunctionReturn (lineOperand m.name.span.line))
      | flow, _ =>
        modify fun s => { s with locals := outer }
        return flow

/-- Runs a program. There is no result if a loop takes more than `fuel` rounds. -/
def evaluate (s : σ) : Option (EStateM.Result Error σ Unit) :=
  let call := p.invoke a host fuel (Exec.maxDepth - 1)
  match Stmt.execAll (t := .undefined) host fuel call p.body ⟨.zero, .zero, #[], s⟩ with
  | .ok _ s => some (.ok () s.host)
  | .error .outOfFuel _ => none
  | .error (.trap t) s => some (.error t.error s.host)
  | .error (.refused e) s => some (.error e s.host)

end Program

end Guarded
