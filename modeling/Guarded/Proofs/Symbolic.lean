import Guarded.Compile.Emit

/-!
Symbolic code, which says without labels what the code of a program is. Storage and routines are
named by symbols, and a jump says how far it goes, so a piece of code means the same wherever it is
put. A declared method stands at its place in the code but takes no room there. A fault stands where
something needed is missing; what comes after it is never looked at.

Symbolic code has no open ends: what a choice or a loop becomes is put together from the code of its
parts, whose sizes give all distances. It is turned into object code item by item.
-/

namespace Guarded

inductive Op where
  | instr (i : Instr)
  | load (symbol : SymbolId)
  | store (symbol : SymbolId)
  | invoke (symbol : SymbolId)
  /-- Goes `distance` instructions on from the jump itself. -/
  | jump (j : Jump) (distance : Int)
  | method (symbol : SymbolId) (body : List Op)
  | fault (e : Error)

namespace Op

/-- How many instructions an item becomes. -/
def size : Op → Nat
  | method _ _ => 0
  | _ => 1

/-- How many instructions a piece of code becomes. -/
def sizeAll : List Op → Nat
  | [] => 0
  | op :: ops => op.size + sizeAll ops

@[simp]
theorem sizeAll_nil : sizeAll [] = 0 := rfl

@[simp]
theorem sizeAll_cons (op : Op) (ops : List Op) : sizeAll (op :: ops) = op.size + sizeAll ops := rfl

@[simp]
theorem sizeAll_append (xs ys : List Op) : sizeAll (xs ++ ys) = sizeAll xs + sizeAll ys := by
  induction xs with
  | nil => simp
  | cons op ops ih => simp [ih, Nat.add_assoc]

end Op

namespace Analysis

/-- Code that needs the symbol of an identifier. -/
def withSymbol (a : Analysis) (name : Ident) (code : SymbolId → List Op) : List Op :=
  match a.binding name with
  | .ok id => code id
  | .error e => [.fault e]

/-- Converts the value on top of the stack. -/
def cast : Ty → Ty → List Op
  | .int, .float => [.instr .i2f]
  | .float, .int => [.instr .f2i]
  | _, _ => []

/-- Leaves one or zero; `otherwise` jumps exactly if the result is zero. -/
def truth (otherwise : Jump) : List Op :=
  [.jump otherwise 3, .instr (.iconst 1), .jump .always 2, .instr (.iconst 0)]

mutual

/-- Leaves the value of an expression, in the type `needed`. -/
def lowerExpr (a : Analysis) (needed : Ty) : Expr → List Op
  | .int _ v =>
    [.instr (if needed = .float then .fconst (Number.singleOfInt v.toInt) else .iconst v)]
  | .float _ v => [.instr (if needed = .int then .iconst (Number.toInt32 v) else .fconst v)]
  | .bool _ b => [.instr (.iconst (if b then 1 else 0))]
  | .paren _ inner => a.lowerExpr needed inner
  | .var node name =>
    a.withSymbol name (fun id => [.load id]) ++ cast (a.typeOf node.id) needed
  | .index node array index =>
    let ty := a.typeOf node.id
    a.withSymbol array (fun id => [.load id]) ++ a.lowerExpr .int index ++
      [.instr (if ty = .float then .faload else .iaload)] ++ cast ty needed
  | .call node callee args =>
    a.withSymbol callee (fun id => a.lowerArgs args (a.paramTypes id) ++ [.invoke id]) ++
      cast (a.typeOf node.id) needed
  | .unary node .neg operand =>
    let ty := a.typeOf node.id
    a.lowerExpr ty operand ++ [.instr (if ty = .float then .fneg else .ineg)] ++ cast ty needed
  | .unary node .not operand =>
    a.lowerExpr .boolean operand ++ truth (.onZero .ne) ++ cast (a.typeOf node.id) needed
  | .binary node op lhs rhs =>
    let ty := a.typeOf node.id
    let code := match op with
      | .add | .sub | .mul =>
        a.lowerExpr ty lhs ++ a.lowerExpr ty rhs ++ [.instr (arithmetic op (ty = .float))]
      | .slash => a.lowerExpr .float lhs ++ a.lowerExpr .float rhs ++ [.instr .fdiv]
      | .div => a.lowerExpr .int lhs ++ a.lowerExpr .int rhs ++ [.instr .idiv]
      | .mod => a.lowerExpr .int lhs ++ a.lowerExpr .int rhs ++ [.instr .irem]
      | .and => a.lowerExpr .boolean lhs ++ a.lowerExpr .boolean rhs ++ [.instr .iand]
      | .or => a.lowerExpr .boolean lhs ++ a.lowerExpr .boolean rhs ++ [.instr .ior]
      | .lt | .gt | .le | .ge | .eq | .ne =>
        let cond := condition op
        if a.typeOf lhs.id = .float || a.typeOf rhs.id = .float then
          a.lowerExpr .float lhs ++ a.lowerExpr .float rhs ++ [.instr (floatCompare cond)] ++
            truth (.onZero cond.negate)
        else
          a.lowerExpr .int lhs ++ a.lowerExpr .int rhs ++ truth (.onCompare cond.negate)
    code ++ cast ty needed

/-- Leaves the arguments of a call, each in the type of its parameter. -/
def lowerArgs (a : Analysis) : List Expr → List Ty → List Op
  | arg :: args, ty :: tys => a.lowerExpr ty arg ++ a.lowerArgs args tys
  | _, _ => []

end

/-- Arguments, then the call. -/
def lowerCall (a : Analysis) (callee : Ident) (args : List Expr) : List Op :=
  a.withSymbol callee fun id => a.lowerArgs args (a.paramTypes id) ++ [.invoke id]

/-- Makes an array for each name; the size is computed anew for each. -/
def lowerArrays (a : Analysis) (ty : Ty) (size : Expr) (names : List Ident) : List Op :=
  names.flatMap fun name =>
    a.withSymbol name fun id =>
      a.lowerExpr .int size ++
        [.instr (.newarray (if ty = .float then .float else .int)), .store id]

/-- What is on the stack before an assignment stores: for an element its array and index, and then
the value. -/
def lowerSource (a : Analysis) (target : Target) (value : Expr) : List Op :=
  match target with
  | .var name => a.withSymbol name fun id => a.lowerExpr (a.symbolType id) value
  | .index array index =>
    a.withSymbol array fun id =>
      [.load id] ++ a.lowerExpr .int index ++ a.lowerExpr (a.symbolType id) value

/-- Stores into a target what `lowerSource` left for it. -/
def lowerStore (a : Analysis) (target : Target) : List Op :=
  match target with
  | .var name => a.withSymbol name fun id => [.store id]
  | .index array _ =>
    a.withSymbol array fun id =>
      [.instr (if a.symbolType id = .float then .fastore else .iastore)]

/-- Every value is computed before the first is stored; stores go from the last target to the first.
-/
def lowerAssign (a : Analysis) (targets : List Target) (values : List Expr) : List Op :=
  (targets.zip values).flatMap (fun (t, v) => a.lowerSource t v) ++
    targets.reverse.flatMap a.lowerStore

/-- Reads a value for each name. -/
def lowerInput (a : Analysis) (names : List Ident) : List Op :=
  names.flatMap fun name =>
    a.withSymbol name fun id =>
      let call : Service := match a.symbolType id with
        | .float => .inputFloat
        | .boolean => .inputBoolean
        | _ => .inputInt
      [.instr (.sconst name.name), .instr (.service call), .store id]

def lowerPrint (a : Analysis) (value : Expr) : List Op :=
  let ty := a.typeOf value.id
  let call : Service := match ty with
    | .float => .printFloat
    | .boolean => .printBoolean
    | _ => .printInt
  a.lowerExpr ty value ++ [.instr (.service call)]

/-- Leaves the method `here`, with the value if there is one. -/
def lowerReturn (a : Analysis) (here : Option SymbolId) : Option Expr → List Op
  | none => [.instr .ret]
  | some value =>
    match here with
    | none => [.fault (.codeGen "return outside a routine")]
    | some method =>
      let ty := a.symbolType method
      a.lowerExpr ty value ++ [.instr (if ty = .float then .freturn else .ireturn)]

/-- The end of a method's body. A function that gets there fails with the line of its name. -/
def lowerEnd (a : Analysis) (method : SymbolId) (line : Nat) : List Op :=
  if (a.symbolKind method).isFunction then
    [.instr (.iconst (lineOperand line)), .instr (.service .abortNoFunctionReturn)] ++
      if a.symbolType method = .float then [.instr (.fconst 0), .instr .freturn]
      else [.instr (.iconst (-1)), .instr .ireturn]
  else [.instr .ret]

mutual

/-- The code of a statement in the method `here`, or in the program itself. -/
def lowerStmt (a : Analysis) (here : Option SymbolId) : Stmt → List Op
  | .varDecl .. => []
  | .arrayDecl _ ty size names => a.lowerArrays ty size names
  | .method _ name _ _ _ body =>
    a.withSymbol name fun id =>
      [.method id (a.lowerStmts (some id) body ++ a.lowerEnd id name.span.line)]
  | .assign _ targets values => a.lowerAssign targets values
  | .input _ names => a.lowerInput names
  | .print _ value => a.lowerPrint value
  | .alternative node guards => a.lowerChoice here (lineOperand node.span.line) guards
  | .iterative _ guards => a.lowerLoop here 0 guards
  | .block _ _ body => a.lowerStmts here body
  | .ret _ value => a.lowerReturn here value
  | .call _ callee args => a.lowerCall callee args

def lowerStmts (a : Analysis) (here : Option SymbolId) : List Stmt → List Op
  | [] => []
  | s :: ss => a.lowerStmt here s ++ a.lowerStmts here ss

/-- Tries guards in order. A body that is done goes past all that follows; past the last guard the
program fails with the line of the statement. -/
def lowerChoice (a : Analysis) (here : Option SymbolId) (line : Int32) : List Guard → List Op
  | [] => [.instr (.iconst line), .instr (.service .abortNoAlternative)]
  | .mk _ cond body :: gs =>
    let test := a.lowerExpr .boolean cond
    let code := a.lowerStmt here body
    let rest := a.lowerChoice here line gs
    test ++ [.jump (.onZero .eq) (Op.sizeAll code + 2)] ++ code ++
      [.jump .always (Op.sizeAll rest + 1)] ++ rest

/-- Tries guards in order. A body that is done goes back to the first guard, which is `before`
instructions back; past the last guard the loop is over. -/
def lowerLoop (a : Analysis) (here : Option SymbolId) (before : Nat) : List Guard → List Op
  | [] => []
  | .mk _ cond body :: gs =>
    let test := a.lowerExpr .boolean cond
    let code := a.lowerStmt here body
    let back := before + Op.sizeAll test + 1 + Op.sizeAll code
    test ++ [.jump (.onZero .eq) (Op.sizeAll code + 2)] ++ code ++ [.jump .always (-back)] ++
      a.lowerLoop here (back + 1) gs

end

/-- The code of a whole program. -/
def lower (a : Analysis) (p : Program) : List Op :=
  a.lowerStmts none p.body ++ [.instr .ret]

end Analysis

namespace Assemble

mutual

def op (a : Analysis) : Op → Assemble Unit
  | .instr i => emit i
  | .load id => do
    let (place, slot) ← placeOf a id
    emit (loadInstr place slot)
  | .store id => do
    let (place, slot) ← placeOf a id
    emit (storeInstr place slot)
  | .invoke id => do
    let name ← routineOf a id
    emit (.invoke name)
  | .jump j distance => do
    let here := (← get).draft.code.size
    emit (j.instr (here + distance).toNat)
  | .method id body => do
    let outer ← get
    openRoutine a id
    ops a body
    closeRoutine outer
  | .fault e => throw e

def ops (a : Analysis) : List Op → Assemble Unit
  | [] => pure ()
  | o :: os => do
    op a o
    ops a os

end

end Assemble

/-- The unit of a program, and the place of each symbol that its code uses. -/
def Analysis.assemble (a : Analysis) (package name : String) (code : List Op) :
    Except Error (ObjectUnit × Std.TreeMap SymbolId Place) := do
  let ((), s) ← (Assemble.ops a code).run .initial
  let entry ← s.draft.finish
  return (⟨package, name, s.fields, entry, s.routines⟩, s.places)

end Guarded
