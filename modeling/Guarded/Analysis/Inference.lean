import Guarded.Analysis

/-!
Type inference. A traversal computes the types of all expressions from the leaves up and passes what
operators and statements demand into the symbols; every step is a unification, so types only become
more precise. Traversals are repeated until one changes nothing.

The tables keep what a traversal has done up to an error.
-/

namespace Guarded

/-- The tables, and whether a type has changed since the traversal began. -/
structure Progress where
  tables : Analysis
  changed : Bool

abbrev Infer := EStateM Error Progress

namespace Infer

def tables : Infer Analysis :=
  return (← get).tables

/-- The symbol of an identifier. -/
def binding (name : Ident) : Infer SymbolId := do
  match (← tables).binding name with
  | .ok id => return id
  | .error e => throw e

/-- The type that two types come to, and whether it is another than `current`. -/
def unify (current proposed : Ty) (span : Span) : Infer (Ty × Bool) :=
  match Ty.unify current proposed with
  | some result => return result
  | none => throw (.typeConflict current.name proposed.name span)

/-- Unifies the type of a symbol with `ty`. -/
def refineSymbol (id : SymbolId) (ty : Ty) (span : Span) : Infer Unit := do
  let current := (← tables).symbolType id
  let (next, changed) ← unify current ty span
  modify fun p =>
    { p with
      tables.symbols := p.tables.symbols.modify id fun s => { s with ty := next }
      changed := p.changed || changed }

/-- Unifies the type of a node with `ty`, and gives the result. -/
def refineNode (node : Node) (ty : Ty) : Infer Ty := do
  let current := (← tables).typeOf node.id
  let (next, changed) ← unify current ty node.span
  if changed then
    modify fun p => { p with tables.types := p.tables.types.insert node.id next, changed := true }
  return next

/-- Demands that an expression has the type `ty`. Variables, elements and calls refine their symbol;
parentheses and the minus sign pass a demand on; any other expression only has to agree. -/
def constrain (ty : Ty) : Expr → Infer Unit
  | .var node name => do refineSymbol (← binding name) ty node.span
  | .index node array _ => do refineSymbol (← binding array) ty node.span
  | .call node callee _ => do refineSymbol (← binding callee) ty node.span
  | .paren _ inner => constrain ty inner
  | .unary node .neg operand => do
    if ty.isNumeric then constrain ty operand
    else discard (unify ((← tables).typeOf node.id) ty node.span)
  | e => do discard (unify ((← tables).typeOf e.id) ty e.span)

/-- The type of a sum, difference or product of operands of these types. -/
def arithmeticType (left right : Ty) : Ty :=
  if left = .float || right = .float then .float
  else if left = .int && right = .int then .int
  else .num

/-- The type of a binary expression whose operands have been visited. -/
def operator (op : BinOp) (lhs rhs : Expr) (left right : Ty) : Infer Ty := do
  match op with
  | .and | .or =>
    constrain .boolean lhs
    constrain .boolean rhs
    return .boolean
  | .eq | .ne =>
    if left != .undefined then constrain left rhs
    if right != .undefined then constrain right lhs
    return .boolean
  | .lt | .gt | .le | .ge =>
    constrain .num lhs
    constrain .num rhs
    return .boolean
  | .slash =>
    constrain .float lhs
    constrain .float rhs
    return .float
  | .div | .mod =>
    constrain .int lhs
    constrain .int rhs
    return .int
  | .add | .sub | .mul =>
    let ty := arithmeticType left right
    constrain ty lhs
    constrain ty rhs
    return ty

/-- Passes an argument to a parameter: a parameter of unknown type takes that of the argument, and
any other demands its own. -/
def passArgument (param : SymbolId) (arg : Expr) (argType : Ty) : Infer Unit := do
  let ty := (← tables).symbolType param
  if ty = .undefined then refineSymbol param argType arg.span
  else constrain ty arg

mutual

/-- Computes, records and gives the type of an expression. -/
def expr : Expr → Infer Ty
  | .int node _ => refineNode node .int
  | .float node _ => refineNode node .float
  | .bool node _ => refineNode node .boolean
  | .var node name => do
    let id ← binding name
    refineNode node ((← tables).symbolType id)
  | .index node array index => do
    discard (expr index)
    constrain .int index
    let id ← binding array
    refineNode node ((← tables).symbolType id)
  | .call node callee args => do
    let method ← binding callee
    arguments args ((← tables).params method)
    refineNode node ((← tables).symbolType method)
  | .paren node inner => do
    let ty ← expr inner
    refineNode node ty
  | .unary node .neg operand => do
    let ty ← expr operand
    constrain .num operand
    refineNode node (if ty = .undefined then .num else ty)
  | .unary node .not operand => do
    discard (expr operand)
    constrain .boolean operand
    refineNode node .boolean
  | .binary node op lhs rhs => do
    let left ← expr lhs
    let right ← expr rhs
    let ty ← operator op lhs rhs left right
    refineNode node ty

/-- Visits arguments together with the parameters they go to. -/
def arguments : List Expr → List SymbolId → Infer Unit
  | arg :: args, param :: params => do
    let ty ← expr arg
    passArgument param arg ty
    arguments args params
  | _, _ => pure ()

end

/-- One value and its target: the target takes the type of the value, then demands its own. -/
def assign (target : Target) (value : Expr) : Infer Unit := do
  let ty ← expr value
  let (id, span) ← match target with
    | .var name => pure (← binding name, name.span)
    | .index array index => do
      discard (expr index)
      constrain .int index
      pure (← binding array, array.span)
  refineSymbol id ty span
  constrain ((← tables).symbolType id) value

def assigns : List Target → List Expr → Infer Unit
  | target :: targets, value :: values => do
    assign target value
    assigns targets values
  | _, _ => pure ()

/-- A returned value has the result type of the function it is in. -/
def returned (here : Option SymbolId) (value : Expr) : Infer Unit := do
  discard (expr value)
  match here with
  | some method =>
    let a ← tables
    if (a.symbolKind method).isFunction then constrain (a.symbolType method) value
  | none => pure ()

mutual

def stmt (here : Option SymbolId) : Stmt → Infer Unit
  | .varDecl .. => pure ()
  | .arrayDecl _ _ size _ => do
    discard (expr size)
    constrain .int size
  | .method _ name _ _ _ body => do
    let method ← binding name
    stmts (some method) body
  | .assign _ targets values => assigns targets values
  | .input .. => pure ()
  | .print _ value => discard (expr value)
  | .alternative _ guards | .iterative _ guards => Infer.guards here guards
  | .block _ _ body => stmts here body
  | .ret _ none => pure ()
  | .ret _ (some value) => returned here value
  | .call _ callee args => do
    let method ← binding callee
    arguments args ((← tables).params method)

def stmts (here : Option SymbolId) : List Stmt → Infer Unit
  | [] => pure ()
  | s :: ss => do
    stmt here s
    stmts here ss

def guards (here : Option SymbolId) : List Guard → Infer Unit
  | [] => pure ()
  | .mk _ cond body :: gs => do
    discard (expr cond)
    constrain .boolean cond
    stmt here body
    guards here gs

end

end Infer

/-- One traversal of a program: the tables after it, and whether a type has changed. -/
def Program.traverse (p : Program) (a : Analysis) : EStateM.Result Error Analysis Bool :=
  match Infer.stmts none p.body ⟨a, false⟩ with
  | .ok _ progress => .ok progress.changed progress.tables
  | .error e progress => .error e progress.tables

mutual

/-- The number of expression nodes in an expression. -/
def Expr.count : Expr → Nat
  | .int .. | .float .. | .bool .. | .var .. => 1
  | .index _ _ i => 1 + i.count
  | .call _ _ args => 1 + Expr.countAll args
  | .paren _ inner => 1 + inner.count
  | .unary _ _ operand => 1 + operand.count
  | .binary _ _ lhs rhs => 1 + lhs.count + rhs.count

def Expr.countAll : List Expr → Nat
  | [] => 0
  | e :: es => e.count + Expr.countAll es

end

def Target.exprCount : Target → Nat
  | .var _ => 0
  | .index _ i => i.count

def Target.exprCountAll : List Target → Nat
  | [] => 0
  | t :: ts => t.exprCount + Target.exprCountAll ts

mutual

/-- The number of expression nodes in a statement. -/
def Stmt.exprCount : Stmt → Nat
  | .varDecl .. | .input .. | .ret _ none => 0
  | .arrayDecl _ _ size _ => size.count
  | .method _ _ _ _ _ body => Stmt.exprCountAll body
  | .assign _ targets values => Target.exprCountAll targets + Expr.countAll values
  | .print _ value => value.count
  | .alternative _ guards | .iterative _ guards => Guard.exprCountAll guards
  | .block _ _ body => Stmt.exprCountAll body
  | .ret _ (some value) => value.count
  | .call _ _ args => Expr.countAll args

def Stmt.exprCountAll : List Stmt → Nat
  | [] => 0
  | s :: ss => s.exprCount + Stmt.exprCountAll ss

def Guard.exprCountAll : List Guard → Nat
  | [] => 0
  | .mk _ cond body :: gs => cond.count + body.exprCount + Guard.exprCountAll gs

end

/-- Repeats traversals until one changes nothing, at most `fuel` times. Gives the number of
traversals. -/
def Program.traverseUntilStable (p : Program) : Nat → Analysis → EStateM.Result Error Analysis Nat
  | 0, a => .ok 0 a
  | fuel + 1, a =>
    match p.traverse a with
    | .error e a => .error e a
    | .ok false a => .ok 1 a
    | .ok true a =>
      match p.traverseUntilStable fuel a with
      | .ok n a => .ok (n + 1) a
      | .error e a => .error e a

/-- How many traversals are enough: every change refines the type of a symbol or an expression node,
each of which can be refined twice, and one more traversal sees no change. -/
def Program.traversalBound (p : Program) (a : Analysis) : Nat :=
  2 * (a.symbols.size + Stmt.exprCountAll p.body) + 1

/-- Infers types until nothing changes. -/
def Program.infer (p : Program) (a : Analysis) : Except Error Analysis :=
  match p.traverseUntilStable (p.traversalBound a) a with
  | .ok _ a => .ok a
  | .error e _ => .error e

end Guarded
