import Guarded.Analysis
import Guarded.Scope

/-!
Declaring and binding names. One walk over the program declares every symbol and binds every
identifier to one. A variable that is assigned or read by `input` before any declaration is declared
there, with an open type. The values of an assignment come before its targets, so `a <- a` does not
declare `a`. Literals get their types here.
-/

namespace Guarded

/-- The tables while they are being built. -/
structure Binder where
  scopes : Scopes
  bindings : Std.TreeMap NodeId SymbolId
  types : Std.TreeMap NodeId Ty

abbrev Bind := StateT Binder (Except Error)

namespace Bind

def record (name : Ident) (id : SymbolId) : Bind SymbolId :=
  modifyGet fun b => (id, { b with bindings := b.bindings.insert name.id id })

def annotate (node : NodeId) (ty : Ty) : Bind Unit :=
  modify fun b => { b with types := b.types.insert node ty }

def enter : Bind Unit :=
  modify fun b => { b with scopes := b.scopes.enter }

def exit : Bind Unit :=
  modify fun b => { b with scopes := b.scopes.exit }

def lookup (name : Ident) : Bind (Option SymbolId) :=
  return (← get).scopes.lookup name.name

def symbol? (id : SymbolId) : Bind (Option Symbol) :=
  return (← get).scopes.symbols[id]?

/-- Declares a name in the current scope. -/
def declare (owner : Option SymbolId) (name : Ident) (kind : SymbolKind) (ty : Ty) :
    Bind SymbolId := do
  let b ← get
  let (id, scopes) ← b.scopes.declare ⟨name.name, kind, ty, owner, name.span⟩
  set { b with scopes }
  record name id

/-- Binds a name to a symbol that is visible from the method `here`: what another method owns is
not. -/
def refer (here : Option SymbolId) (name : Ident) (id : SymbolId) : Bind SymbolId := do
  match ← symbol? id with
  | some s =>
    if s.isLocal && s.owner != here then throw (.capturedLocal name.name name.span)
    else record name id
  | none => record name id

def useVariable (here : Option SymbolId) (name : Ident) : Bind SymbolId := do
  match ← lookup name with
  | none => throw (.undefinedSymbol name.name name.span)
  | some id =>
    match ← symbol? id with
    | some ⟨_, .variable, _, _, _⟩ => refer here name id
    | _ => throw (.notAVariable name.name name.span)

/-- The destination of a value; declares it if its name is unknown. -/
def destination (here : Option SymbolId) (name : Ident) : Bind SymbolId := do
  match ← lookup name with
  | some _ => useVariable here name
  | none => declare here name .variable .undefined

def useArray (here : Option SymbolId) (name : Ident) : Bind SymbolId := do
  match ← lookup name with
  | none => throw (.noSuchArray name.name name.span)
  | some id =>
    match ← symbol? id with
    | some ⟨_, .array, _, _, _⟩ => refer here name id
    | _ => throw (.noSuchArray name.name name.span)

/-- The error for a call of something that is no method. -/
def noSuchMethod (function : Bool) (name : Ident) : Error :=
  if function then .noSuchFunction name.name name.span
  else .noSuchProcedure name.name name.span

/-- The parameters of a callee of the right kind. -/
def calleeParams (function : Bool) (name : Ident) : Option SymbolKind → Except Error (List SymbolId)
  | some (.function params) =>
    if function then .ok params else .error (.functionAsProcedure name.name name.span)
  | some (.procedure params) =>
    if function then .error (.procedureAsFunction name.name name.span) else .ok params
  | _ => .error (noSuchMethod function name)

/-- A called method, which takes exactly `count` arguments. -/
def useMethod (here : Option SymbolId) (function : Bool) (name : Ident) (count : Nat)
    (span : Span) : Bind SymbolId := do
  match ← lookup name with
  | none => throw (noSuchMethod function name)
  | some id =>
    let params ← calleeParams function name ((← symbol? id).map Symbol.kind)
    if params.length != count then
      throw (.argCountMismatch name.name params.length count span)
    else refer here name id

mutual

def expr (here : Option SymbolId) : Expr → Bind Unit
  | .int node _ => annotate node.id .int
  | .float node _ => annotate node.id .float
  | .bool node _ => annotate node.id .boolean
  | .var _ name => discard (useVariable here name)
  | .index _ array index => do
    discard (useArray here array)
    expr here index
  | .call node name args => do
    discard (useMethod here true name args.length node.span)
    exprs here args
  | .paren _ inner => expr here inner
  | .unary _ _ operand => expr here operand
  | .binary _ _ lhs rhs => do
    expr here lhs
    expr here rhs

def exprs (here : Option SymbolId) : List Expr → Bind Unit
  | [] => pure ()
  | e :: es => do
    expr here e
    exprs here es

end

def target (here : Option SymbolId) : Target → Bind Unit
  | .var name => discard (destination here name)
  | .index array index => do
    discard (useArray here array)
    expr here index

/-- Declares the parameters of a method. -/
def declareParams (method : SymbolId) : List Param → Bind (List SymbolId)
  | [] => return []
  | p :: ps => do
    let id ← declare (some method) p.name .variable (p.ty.getD .undefined)
    return id :: (← declareParams method ps)

/-- Declares a method itself. Methods are units of their own and never local. -/
def declareMethod (name : Ident) (result : Option Ty) : Bind SymbolId :=
  match result with
  | some ty => declare none name (.function []) ty
  | none => declare none name (.procedure []) .undefined

mutual

def stmt (here : Option SymbolId) : Stmt → Bind Unit
  | .varDecl _ ty names => names.forM fun name => discard (declare here name .variable ty)
  | .arrayDecl _ ty size names => do
    expr here size
    names.forM fun name => discard (declare here name .array ty)
  | .method _ name params result _ body => do
    let method ← declareMethod name result
    enter
    let ids ← declareParams method params
    modify fun b => { b with scopes := b.scopes.setParams method ids }
    stmts (some method) body
    exit
  | .assign node targets values => do
    if targets.length != values.length then
      throw (.assignmentArity targets.length values.length node.span)
    exprs here values
    targets.forM (target here)
  | .input _ names => names.forM fun name => discard (destination here name)
  | .print _ value => expr here value
  | .alternative _ guards | .iterative _ guards => Bind.guards here guards
  | .block _ _ body => do
    enter
    stmts here body
    exit
  | .ret _ none => pure ()
  | .ret _ (some value) => expr here value
  | .call node name args => do
    discard (useMethod here false name args.length node.span)
    exprs here args

def stmts (here : Option SymbolId) : List Stmt → Bind Unit
  | [] => pure ()
  | s :: ss => do
    stmt here s
    stmts here ss

def guards (here : Option SymbolId) : List Guard → Bind Unit
  | [] => pure ()
  | .mk _ cond body :: gs => do
    expr here cond
    stmt here body
    guards here gs

end

end Bind

/-- The symbols and bindings of a program, with types for its literals. -/
def Program.bind (p : Program) : Except Error Analysis := do
  let ((), b) ← (Bind.stmts none p.body).run ⟨.empty, ∅, ∅⟩
  return ⟨b.scopes.symbols, b.bindings, b.types⟩

end Guarded
