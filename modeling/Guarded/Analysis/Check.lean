import Guarded.Analysis

/-!
What inference leaves to the end. Settling gives every number of unknown kind the type `int` and
refuses names whose type is still open; procedures have no type. Checking refuses what unification
lets pass: indices and divisions that are not whole, comparisons of different types, and returns
that do not fit their method.
-/

namespace Guarded

namespace Ty

/-- A number of unknown kind is an integer. -/
def settle : Ty → Ty
  | .num => .int
  | ty => ty

end Ty

/-- The settled symbol; a type that is still open is an error. -/
def Symbol.settle (s : Symbol) : Except Error Symbol :=
  match s.kind, s.ty with
  | .procedure _, _ => .ok s
  | _, .undefined => .error (.unresolvedType s.name s.span)
  | _, ty => .ok { s with ty := ty.settle }

namespace Analysis

/-- Settles every symbol, in order, and every expression. -/
def settle (a : Analysis) : Except Error Analysis := do
  let symbols ← a.symbols.mapM Symbol.settle
  return { a with symbols, types := a.types.map fun _ ty => ty.settle }

/-- An index or array size has to be an integer. -/
def checkIndex (a : Analysis) (index : Expr) : Except Error Unit :=
  if a.typeOf index.id != .int then throw (.nonIntegerIndex index.span) else pure ()

/-- The types of the operands of an operator. -/
def checkOperands (a : Analysis) (node : Node) (op : BinOp) (lhs rhs : Expr) : Except Error Unit :=
  let left := a.typeOf lhs.id
  let right := a.typeOf rhs.id
  match op with
  | .eq | .ne =>
    if left != right then throw (.equalityOperands left.name right.name node.span) else pure ()
  | .div | .mod =>
    if left != .int || right != .int then throw (.nonIntegerDivMod node.span) else pure ()
  | _ => pure ()

mutual

def checkExpr (a : Analysis) : Expr → Except Error Unit
  | .int .. | .float .. | .bool .. | .var .. => pure ()
  | .index _ _ index => do
    a.checkExpr index
    a.checkIndex index
  | .call _ _ args => a.checkExprs args
  | .paren _ inner => a.checkExpr inner
  | .unary _ _ operand => a.checkExpr operand
  | .binary node op lhs rhs => do
    a.checkExpr lhs
    a.checkExpr rhs
    a.checkOperands node op lhs rhs

def checkExprs (a : Analysis) : List Expr → Except Error Unit
  | [] => pure ()
  | e :: es => do
    a.checkExpr e
    a.checkExprs es

end

def checkTarget (a : Analysis) : Target → Except Error Unit
  | .var _ => pure ()
  | .index _ index => do
    a.checkExpr index
    a.checkIndex index

/-- A return has to stand in a method; a function returns a value of exactly its type, a procedure
none. -/
def checkReturn (a : Analysis) (here : Option SymbolId) (node : Node) (value : Option Expr) :
    Except Error Unit :=
  match here with
  | none => throw (.returnOutsideMethod node.span)
  | some method =>
    let ty := a.symbolType method
    match (a.symbolKind method).isFunction, value with
    | true, some e => do
      a.checkExpr e
      if a.typeOf e.id != ty then throw (.invalidReturnType ty.name e.span)
    | true, none => throw (.invalidReturnType ty.name node.span)
    | false, some e => throw (.invalidReturnType "nothing" e.span)
    | false, none => pure ()

mutual

def checkStmt (a : Analysis) (here : Option SymbolId) : Stmt → Except Error Unit
  | .varDecl .. => pure ()
  | .arrayDecl _ _ size _ => do
    a.checkExpr size
    a.checkIndex size
  | .method _ name _ _ _ body => do
    let method ← a.binding name
    a.checkStmts (some method) body
  | .assign _ targets values => do
    targets.forM a.checkTarget
    a.checkExprs values
  | .input .. => pure ()
  | .print _ value => a.checkExpr value
  | .alternative _ guards | .iterative _ guards => a.checkGuards here guards
  | .block _ _ body => a.checkStmts here body
  | .ret node value => a.checkReturn here node value
  | .call _ _ args => a.checkExprs args

def checkStmts (a : Analysis) (here : Option SymbolId) : List Stmt → Except Error Unit
  | [] => pure ()
  | s :: ss => do
    a.checkStmt here s
    a.checkStmts here ss

def checkGuards (a : Analysis) (here : Option SymbolId) : List Guard → Except Error Unit
  | [] => pure ()
  | .mk _ cond body :: gs => do
    a.checkExpr cond
    a.checkStmt here body
    a.checkGuards here gs

end

/-- Checks a whole program against settled tables. -/
def check (a : Analysis) (p : Program) : Except Error Unit :=
  a.checkStmts none p.body

end Analysis

end Guarded
