import Guarded.Span
import Guarded.Token
import Guarded.Ty

/-!
Programs of the guarded-command language as trees. Every identifier, expression, statement, block
and guard carries a node: its number, unique in a program, and its region of the source. What is
learned about a program is kept beside the tree, in tables over node numbers.
-/

namespace Guarded

abbrev NodeId := Nat

structure Node where
  id : NodeId
  span : Span
deriving DecidableEq, Repr, Inhabited

/-- An occurrence of a name. -/
structure Ident where
  id : NodeId
  name : String
  span : Span
deriving DecidableEq, Repr, Inhabited

inductive BinOp where
  | add | sub | mul
  /-- The operator `/`, which always divides floats. -/
  | slash
  | div | mod
  | lt | gt | le | ge | eq | ne
  | and | or
deriving DecidableEq, Repr

namespace BinOp

def spelling : BinOp → String
  | add => "+"
  | sub => "-"
  | mul => "*"
  | slash => "/"
  | div => "div"
  | mod => "mod"
  | lt => "<"
  | gt => ">"
  | le => "<="
  | ge => ">="
  | eq => "="
  | ne => "~="
  | and => "&"
  | or => "|"

def isRelational : BinOp → Bool
  | lt | gt | le | ge => true
  | _ => false

def isEquality : BinOp → Bool
  | eq | ne => true
  | _ => false

def isLogical : BinOp → Bool
  | and | or => true
  | _ => false

/-- The operators whose type follows that of their operands. -/
def isArithmetic : BinOp → Bool
  | add | sub | mul => true
  | _ => false

/-- How tightly an operator binds; all associate to the left. -/
def precedence : BinOp → Nat
  | or => 1
  | and => 2
  | eq | ne => 3
  | lt | gt | le | ge => 4
  | add | sub => 5
  | mul | slash | div | mod => 6

/-- The operator a token spells. -/
def ofToken? : Token.Kind → Option BinOp
  | .or => some or
  | .and => some and
  | .eq => some eq
  | .ne => some ne
  | .lt => some lt
  | .gt => some gt
  | .le => some le
  | .ge => some ge
  | .plus => some add
  | .minus => some sub
  | .star => some mul
  | .slash => some slash
  | .div => some div
  | .mod => some mod
  | _ => none

end BinOp

inductive UnOp where
  | neg
  | not
deriving DecidableEq, Repr

inductive Expr where
  | int (node : Node) (value : Int32)
  | float (node : Node) (value : Float32)
  | bool (node : Node) (value : Bool)
  | var (node : Node) (name : Ident)
  | index (node : Node) (array : Ident) (index : Expr)
  | call (node : Node) (callee : Ident) (args : List Expr)
  | paren (node : Node) (inner : Expr)
  | unary (node : Node) (op : UnOp) (operand : Expr)
  | binary (node : Node) (op : BinOp) (lhs rhs : Expr)

namespace Expr

def node : Expr → Node
  | int n _ | float n _ | bool n _ | var n _ | index n _ _ | call n _ _ | paren n _ | unary n _ _
  | binary n _ _ _ => n

def id (e : Expr) : NodeId :=
  e.node.id

def span (e : Expr) : Span :=
  e.node.span

end Expr

/-- Where an assigned value goes. -/
inductive Target where
  | var (name : Ident)
  | index (array : Ident) (index : Expr)

namespace Target

def span : Target → Span
  | .var name => name.span
  | .index array i => array.span.merge i.span

end Target

/-- A parameter; without a type, the type is inferred. -/
structure Param where
  name : Ident
  ty : Option Ty
deriving DecidableEq, Repr

mutual

/-- Statements; declarations are statements too. A method is a function if it has a result type and
a procedure otherwise. -/
inductive Stmt where
  | varDecl (node : Node) (ty : Ty) (names : List Ident)
  | arrayDecl (node : Node) (ty : Ty) (size : Expr) (names : List Ident)
  | method (node : Node) (name : Ident) (params : List Param) (result : Option Ty) (block : Node)
      (body : List Stmt)
  | assign (node : Node) (targets : List Target) (values : List Expr)
  | input (node : Node) (targets : List Ident)
  | print (node : Node) (value : Expr)
  | alternative (node : Node) (guards : List Guard)
  | iterative (node : Node) (guards : List Guard)
  | block (node : Node) (block : Node) (body : List Stmt)
  | ret (node : Node) (value : Option Expr)
  | call (node : Node) (callee : Ident) (args : List Expr)

/-- A condition with the statement it allows. -/
inductive Guard where
  | mk (node : Node) (cond : Expr) (body : Stmt)

end

namespace Stmt

def node : Stmt → Node
  | varDecl n _ _ | arrayDecl n _ _ _ | method n _ _ _ _ _ | assign n _ _ | input n _ | print n _
  | alternative n _ | iterative n _ | block n _ _ | ret n _ | call n _ _ => n

def span (s : Stmt) : Span :=
  s.node.span

end Stmt

structure Program where
  name : Ident
  body : List Stmt
  span : Span

end Guarded
