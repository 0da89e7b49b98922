import Guarded.Compile.Assemble
import Guarded.Number.Binary

/-!
From a program with its tables to object code. An expression is emitted for the type its context
needs: it leaves one value of that type on the stack. A value is converted at most once, right where
it is made; literals are written in the needed type at once.

Branches go to labels. A choice or a loop opens a target, where each of its guards goes on once its
body is done, and closes it after the last guard.
-/

namespace Guarded

/-- A source line as the operand of an instruction. -/
def lineOperand (line : Nat) : Int32 :=
  Int32.ofNat (min line 0x7fffffff)

namespace Analysis

/-- The instruction of a sum, difference or product. -/
def arithmetic (op : BinOp) (float : Bool) : Instr :=
  match op, float with
  | .add, false => .iadd
  | .add, true => .fadd
  | .sub, false => .isub
  | .sub, true => .fsub
  | _, false => .imul
  | _, true => .fmul

/-- The condition a comparison asks for. -/
def condition : BinOp → Cond
  | .lt => .lt
  | .gt => .gt
  | .le => .le
  | .ge => .ge
  | .eq => .eq
  | _ => .ne

/-- The order of two floats as an integer. Unordered operands must make `<` and `<=` false as well
as `>` and `>=`, so the two kinds of comparison differ in what they give for them. -/
def floatCompare : Cond → Instr
  | .lt | .le => .fcmpg
  | _ => .fcmpl

end Analysis

namespace Assemble

def newLabel : Assemble Label :=
  modifyGet fun s => (s.draft.newLabel.1, { s with draft := s.draft.newLabel.2 })

def place (label : Label) : Assemble Unit :=
  modify fun s => { s with draft := s.draft.place label }

def jump (j : Jump) (label : Label) : Assemble Unit :=
  modify fun s => { s with draft := s.draft.jump j label }

def load (a : Analysis) (id : SymbolId) : Assemble Unit := do
  let (place, slot) ← placeOf a id
  emit (loadInstr place slot)

def store (a : Analysis) (id : SymbolId) : Assemble Unit := do
  let (place, slot) ← placeOf a id
  emit (storeInstr place slot)

/-- Converts the value on top of the stack. -/
def cast : Ty → Ty → Assemble Unit
  | .int, .float => emit .i2f
  | .float, .int => emit .f2i
  | _, _ => pure ()

/-- Leaves one or zero; `otherwise` branches exactly if the result is zero. -/
def truth (otherwise : Jump) : Assemble Unit := do
  let whenFalse ← newLabel
  let done ← newLabel
  jump otherwise whenFalse
  emit (.iconst 1)
  jump .always done
  place whenFalse
  emit (.iconst 0)
  place done

/-- Puts two operands together. The operands are emitted for the types the operator needs; `ty` is
the type of the result and `float` says whether a comparison is one of floats. -/
def binary (op : BinOp) (lhs rhs : Ty → Assemble Unit) (ty : Ty) (float : Bool) :
    Assemble Unit := do
  match op with
  | .add | .sub | .mul =>
    lhs ty
    rhs ty
    emit (Analysis.arithmetic op (ty = .float))
  | .slash =>
    lhs .float
    rhs .float
    emit .fdiv
  | .div | .mod =>
    lhs .int
    rhs .int
    emit (if op = .div then .idiv else .irem)
  | .and | .or =>
    lhs .boolean
    rhs .boolean
    emit (if op = .and then .iand else .ior)
  | .lt | .gt | .le | .ge | .eq | .ne =>
    let cond := Analysis.condition op
    let operand := if float then .float else .int
    lhs operand
    rhs operand
    if float then
      emit (Analysis.floatCompare cond)
      truth (.onZero cond.negate)
    else
      truth (.onCompare cond.negate)

/-- Arguments for the types of the parameters, then the call. -/
def call (a : Analysis) (callee : Ident) (args : List Ty → Assemble Unit) : Assemble Unit := do
  let id ← a.binding callee
  args (a.paramTypes id)
  let name ← routineOf a id
  emit (.invoke name)

mutual

/-- Leaves the value of an expression, in the type `needed`. -/
def expr (a : Analysis) (needed : Ty) : Expr → Assemble Unit
  | .int _ v => emit (if needed = .float then .fconst (Number.singleOfInt v.toInt) else .iconst v)
  | .float _ v => emit (if needed = .int then .iconst (Number.toInt32 v) else .fconst v)
  | .bool _ b => emit (.iconst (if b then 1 else 0))
  | .paren _ inner => expr a needed inner
  | .var node name => do
    let id ← a.binding name
    load a id
    cast (a.typeOf node.id) needed
  | .index node array index => do
    let ty := a.typeOf node.id
    let id ← a.binding array
    load a id
    expr a .int index
    emit (if ty = .float then .faload else .iaload)
    cast ty needed
  | .call node callee args => do
    call a callee fun tys => exprs a args tys
    cast (a.typeOf node.id) needed
  | .unary node .neg operand => do
    let ty := a.typeOf node.id
    expr a ty operand
    emit (if ty = .float then .fneg else .ineg)
    cast ty needed
  | .unary node .not operand => do
    expr a .boolean operand
    truth (.onZero .ne)
    cast (a.typeOf node.id) needed
  | .binary node op lhs rhs => do
    let ty := a.typeOf node.id
    let float := a.typeOf lhs.id = .float || a.typeOf rhs.id = .float
    binary op (fun operand => expr a operand lhs) (fun operand => expr a operand rhs) ty float
    cast ty needed

/-- Leaves the values of expressions, each in its type. -/
def exprs (a : Analysis) : List Expr → List Ty → Assemble Unit
  | e :: es, ty :: tys => do
    expr a ty e
    exprs a es tys
  | _, _ => pure ()

end

/-- Makes an array for each name; the size is computed anew for each. -/
def arrays (a : Analysis) (ty : Ty) (size : Expr) (names : List Ident) : Assemble Unit :=
  names.forM fun name => do
    let id ← a.binding name
    expr a .int size
    emit (.newarray (if ty = .float then .float else .int))
    store a id

/-- Leaves what is stored by an assignment: for an element its array and index, and then the value.
-/
def source (a : Analysis) (target : Target) (value : Expr) : Assemble Unit := do
  match target with
  | .var name =>
    let id ← a.binding name
    expr a (a.symbolType id) value
  | .index array index =>
    let id ← a.binding array
    load a id
    expr a .int index
    expr a (a.symbolType id) value

/-- Stores into a target what `source` left for it. -/
def storeTo (a : Analysis) (target : Target) : Assemble Unit := do
  match target with
  | .var name =>
    let id ← a.binding name
    store a id
  | .index array _ =>
    let id ← a.binding array
    emit (if a.symbolType id = .float then .fastore else .iastore)

/-- Every value is computed before the first is stored; stores go from the last target to the first.
-/
def assign (a : Analysis) (targets : List Target) (values : List Expr) : Assemble Unit := do
  (targets.zip values).forM fun (target, value) => source a target value
  targets.reverse.forM (storeTo a)

/-- Reads a value for each name. -/
def input (a : Analysis) (names : List Ident) : Assemble Unit :=
  names.forM fun name => do
    let id ← a.binding name
    emit (.sconst name.name)
    emit (.service (match a.symbolType id with
      | .float => .inputFloat
      | .boolean => .inputBoolean
      | _ => .inputInt))
    store a id

def print (a : Analysis) (value : Expr) : Assemble Unit := do
  let ty := a.typeOf value.id
  expr a ty value
  emit (.service (match ty with
    | .float => .printFloat
    | .boolean => .printBoolean
    | _ => .printInt))

/-- Leaves the method, with the value if there is one. -/
def ret (a : Analysis) : Option Expr → Assemble Unit
  | none => emit .ret
  | some value => do
    match (← get).here with
    | none => throw (.codeGen "return outside a routine")
    | some method =>
      let ty := a.symbolType method
      expr a ty value
      emit (if ty = .float then .freturn else .ireturn)

/-- The end of a method's body. A function that gets there fails with the line of its name. -/
def ending (line : Nat) : Assemble Unit := do
  match (← get).draft.result with
  | some slot =>
    emit (.iconst (lineOperand line))
    emit (.service .abortNoFunctionReturn)
    if slot = .float then
      emit (.fconst 0)
      emit .freturn
    else
      emit (.iconst (-1))
      emit .ireturn
  | none => emit .ret

def openTarget (label : Label) : Assemble Unit :=
  modify fun s => { s with targets := label :: s.targets }

def closeTarget : Assemble Unit :=
  modify fun s => { s with targets := s.targets.tail }

/-- Where a guard goes on whose body is done. -/
def target : Assemble Label := do
  match (← get).targets with
  | label :: _ => return label
  | [] => throw (.codeGen "guard outside if/do")

mutual

def stmt (a : Analysis) : Stmt → Assemble Unit
  | .varDecl .. => pure ()
  | .arrayDecl _ ty size names => arrays a ty size names
  | .method _ name _ _ _ body => do
    let id ← a.binding name
    let outer ← get
    openRoutine a id
    stmts a body
    ending name.span.line
    closeRoutine outer
  | .assign _ targets values => assign a targets values
  | .input _ names => input a names
  | .print _ value => print a value
  | .alternative node gs => do
    let done ← newLabel
    openTarget done
    guards a gs
    closeTarget
    emit (.iconst (lineOperand node.span.line))
    emit (.service .abortNoAlternative)
    place done
  | .iterative _ gs => do
    let top ← newLabel
    place top
    openTarget top
    guards a gs
    closeTarget
  | .block _ _ body => stmts a body
  | .ret _ value => ret a value
  | .call _ callee args => call a callee (exprs a args)

def stmts (a : Analysis) : List Stmt → Assemble Unit
  | [] => pure ()
  | s :: ss => do
    stmt a s
    stmts a ss

/-- The body is for a condition that holds. Otherwise what follows the guard comes next. -/
def guard (a : Analysis) : Guard → Assemble Unit
  | .mk _ cond body => do
    let next ← target
    let fail ← newLabel
    expr a .boolean cond
    jump (.onZero .eq) fail
    stmt a body
    jump .always next
    place fail

def guards (a : Analysis) : List Guard → Assemble Unit
  | [] => pure ()
  | g :: gs => do
    guard a g
    guards a gs

end

end Assemble

/-- The unit of a program with its tables, and the place of each symbol that its code uses. -/
def Analysis.generate (a : Analysis) (package : String) (p : Program) :
    Except Error (ObjectUnit × Std.TreeMap SymbolId Place) := do
  let ((), s) ← (do
    Assemble.stmts a p.body
    Assemble.emit .ret : Assemble Unit).run .initial
  let entry ← s.draft.finish
  return (⟨package, p.name.name, s.fields, entry, s.routines⟩, s.places)

end Guarded
