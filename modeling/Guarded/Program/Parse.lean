import Guarded.Error
import Guarded.Program
import Guarded.Token.Scan

/-!
Reading programs from tokens: recursive descent, with binding strengths for the binary operators. A
cursor stands between the tokens already taken and those still to come; it also hands out node
numbers, children before parents. A failed call leaves the cursor where it stopped, and further
calls go on from there.

Every function takes fuel. A call either takes a token or passes to a function of lower rank, and a
chain of calls that takes none is shorter than eight, so `Cursor.fuel` suffices for any input.
-/

namespace Guarded

/-- A position in a token list: the tokens ahead, the token that ends the list, and the region of
the token taken last. -/
structure Cursor where
  ahead : List Token
  last : Token
  prev : Span
  nextId : NodeId
deriving DecidableEq

abbrev Parse := EStateM Error Cursor

namespace Cursor

/-- Starts at the first token. A list that does not end with the end of the text is given one. -/
def ofTokens (tokens : List Token) : Cursor :=
  let (ahead, last) := match tokens.getLast? with
    | none => ([], ⟨.eof, .nowhere⟩)
    | some t => if t.kind = .eof then (tokens.dropLast, t) else (tokens, ⟨.eof, t.span⟩)
  ⟨ahead, last, (ahead.head?.getD last).span, 0⟩

def current (c : Cursor) : Token :=
  c.ahead.head?.getD c.last

/-- The token after the current one. -/
def peek (c : Cursor) : Token :=
  c.ahead[1]?.getD c.last

def fuel (c : Cursor) : Nat :=
  8 * c.ahead.length + 8

end Cursor

namespace Parse

def kind : Parse Token.Kind :=
  return (← get).current.kind

def span : Parse Span :=
  return (← get).current.span

/-- The region of the token taken last. -/
def prev : Parse Span :=
  return (← get).prev

/-- Takes the current token; the end of the list is never taken. -/
def advance : Parse Token :=
  modifyGet fun c =>
    match c.ahead with
    | [] => (c.last, c)
    | t :: rest => (t, { c with ahead := rest, prev := t.span })

def freshId : Parse NodeId :=
  modifyGet fun c => (c.nextId, { c with nextId := c.nextId + 1 })

/-- The error for a token that does not fit. -/
def unexpected {α : Type} (expected : String) : Parse α := do
  let t := (← get).current
  match t.kind with
  | .unknown ch => throw (.unexpectedChar ch t.span)
  | kind => throw (.unexpectedToken expected kind.describe t.span)

/-- Takes a token of exactly this kind. -/
def expect (k : Token.Kind) : Parse Unit := do
  if (← kind) = k then discard advance else unexpected k.describe

/-- Takes a token of this kind if it is the current one. -/
def consume (k : Token.Kind) : Parse Bool := do
  if (← kind) = k then
    discard advance
    return true
  else return false

/-- A node that starts where `start` does and ends with the token taken last. -/
def node (start : Span) : Parse Node := do
  let id ← freshId
  return ⟨id, start.merge (← prev)⟩

/-- A node around two regions. -/
def join (a b : Span) : Parse Node := do
  let id ← freshId
  return ⟨id, a.merge b⟩

def ident : Parse Ident := do
  match ← kind with
  | .ident name =>
    let span := (← advance).span
    return ⟨← freshId, name, span⟩
  | .unknown _ => unexpected "identifier"
  | _ => throw (.expectedIdent (← span))

def type : Parse Ty := do
  let ty ← match ← kind with
    | .int => pure Ty.int
    | .float => pure Ty.float
    | .boolean => pure Ty.boolean
    | _ => throw (.expectedType (← span))
  discard advance
  return ty

/-- One name or more, with commas between them. -/
def idents : Nat → Parse (List Ident)
  | 0 => unexpected "identifier"
  | fuel + 1 => do
    let name ← ident
    if ← consume .comma then return name :: (← idents fuel) else return [name]

/-- One parameter or more, with commas between them. -/
def params : Nat → Parse (List Param)
  | 0 => unexpected "identifier"
  | fuel + 1 => do
    let ty ← if (← kind).isType then some <$> type else pure none
    let name ← ident
    if ← consume .comma then return ⟨name, ty⟩ :: (← params fuel) else return [⟨name, ty⟩]

/-- The value of an integer literal, which has to fit a word. -/
def intValue (value : Int) (span : Span) : Parse Int32 :=
  if -0x80000000 ≤ value && value < 0x80000000 then return Int32.ofInt value
  else throw (.invalidNumber (toString value) span)

/-- The value of a float literal, which has to be finite as a single. -/
def floatValue (value : Float) (span : Span) : Parse Float32 :=
  let v := Number.narrow value
  if v.isFinite then return v
  else throw (.invalidNumber (Number.Style.plain.double value) span)

mutual

/-- An expression whose binary operators outside parentheses bind more tightly than `min`. -/
def binary : Nat → Nat → Parse Expr
  | 0, _ => unexpected "expression"
  | fuel + 1, min => do
    let lhs ← unary fuel
    climb fuel min lhs

/-- Goes on from a left operand for as long as operators bind more tightly than `min`. -/
def climb : Nat → Nat → Expr → Parse Expr
  | 0, _, _ => unexpected "expression"
  | fuel + 1, min, lhs => do
    match BinOp.ofToken? (← kind) with
    | none => return lhs
    | some op =>
      if op.precedence ≤ min then return lhs
      else
        discard advance
        let rhs ← binary fuel op.precedence
        let node ← join lhs.span rhs.span
        climb fuel min (.binary node op lhs rhs)

def unary : Nat → Parse Expr
  | 0 => unexpected "expression"
  | fuel + 1 => do
    match ← kind with
    | .minus => signed fuel .neg
    | .tilde => signed fuel .not
    | _ => primary fuel

/-- A prefix operator with its operand. -/
def signed : Nat → UnOp → Parse Expr
  | 0, _ => unexpected "expression"
  | fuel + 1, op => do
    let start := (← advance).span
    let operand ← unary fuel
    let node ← join start operand.span
    return .unary node op operand

def primary : Nat → Parse Expr
  | 0 => unexpected "expression"
  | fuel + 1 => do
    let start ← span
    match ← kind with
    | .intLit value =>
      discard advance
      let v ← intValue value start
      return .int (← node start) v
    | .floatLit value =>
      discard advance
      let v ← floatValue value start
      return .float (← node start) v
    | .trueLit =>
      discard advance
      return .bool (← node start) true
    | .falseLit =>
      discard advance
      return .bool (← node start) false
    | .ident _ =>
      let name ← ident
      if (← kind) = .lparen then
        let args ← args fuel
        return .call (← node start) name args
      else if ← consume .lbracket then
        let index ← binary fuel 0
        expect .rbracket
        return .index (← node start) name index
      else return .var (← node start) name
    | .lparen =>
      discard advance
      let inner ← binary fuel 0
      expect .rparen
      return .paren (← node start) inner
    | .unknown _ => unexpected "expression"
    | _ => throw (.expectedExpr start)

/-- Arguments between parentheses. -/
def args : Nat → Parse (List Expr)
  | 0 => unexpected "expression"
  | fuel + 1 => do
    expect .lparen
    let args ← if (← kind) = .rparen then pure [] else exprs fuel
    expect .rparen
    return args

/-- One expression or more, with commas between them. -/
def exprs : Nat → Parse (List Expr)
  | 0 => unexpected "expression"
  | fuel + 1 => do
    let e ← binary fuel 0
    if ← consume .comma then return e :: (← exprs fuel) else return [e]

end

def target (fuel : Nat) : Parse Target := do
  let name ← ident
  if ← consume .lbracket then
    let index ← binary fuel 0
    expect .rbracket
    return .index name index
  else return .var name

/-- One target or more, with commas between them. -/
def targets : Nat → Parse (List Target)
  | 0 => unexpected "identifier"
  | fuel + 1 => do
    let t ← target fuel
    if ← consume .comma then return t :: (← targets fuel) else return [t]

/-- Names with a type, or with a type and a size in brackets. -/
def declaration (fuel : Nat) : Parse (Node → Stmt) := do
  let ty ← type
  if ← consume .lbracket then
    let size ← binary fuel 0
    expect .rbracket
    let names ← idents fuel
    return fun node => .arrayDecl node ty size names
  else
    let names ← idents fuel
    return fun node => .varDecl node ty names

/-- Targets, an arrow and values. -/
def assignment (fuel : Nat) : Parse (Node → Stmt) := do
  let targets ← targets fuel
  expect .assign
  let values ← exprs fuel
  return fun node => .assign node targets values

/-- Name and parameters of a method, and the result type of a function. -/
def signature (fuel : Nat) (function : Bool) : Parse (Ident × List Param × Option Ty) := do
  discard advance
  let name ← ident
  expect .lparen
  let params ← if (← kind) = .rparen then pure [] else params fuel
  expect .rparen
  if function then
    expect .colon
    let result ← type
    return (name, params, some result)
  else return (name, params, none)

mutual

/-- A statement or declaration. -/
def stmt : Nat → Parse Stmt
  | 0 => unexpected "statement"
  | fuel + 1 => do
    let start ← span
    let build ← form fuel
    return build (← node start)

/-- A statement that still wants its node. -/
def form : Nat → Parse (Node → Stmt)
  | 0 => unexpected "statement"
  | fuel + 1 => do
    match ← kind with
    | .int | .float | .boolean => declaration fuel
    | .proc => method fuel false
    | .fun => method fuel true
    | .ident _ =>
      if (← get).peek.kind = .lparen then
        let callee ← ident
        let args ← args fuel
        return fun node => .call node callee args
      else assignment fuel
    | .input =>
      discard advance
      let names ← idents fuel
      return fun node => .input node names
    | .print =>
      discard advance
      let value ← binary fuel 0
      return fun node => .print node value
    | .if =>
      discard advance
      let guards ← guards fuel .fi
      return fun node => .alternative node guards
    | .do =>
      discard advance
      let guards ← guards fuel .od
      return fun node => .iterative node guards
    | .lbrace =>
      let (inner, body) ← block fuel
      return fun node => .block node inner body
    | .return =>
      discard advance
      if (← kind).startsExpr then
        let value ← binary fuel 0
        return fun node => .ret node (some value)
      else return fun node => .ret node none
    | _ => unexpected "statement"

def method : Nat → Bool → Parse (Node → Stmt)
  | 0, _ => unexpected "statement"
  | fuel + 1, function => do
    let (name, params, result) ← signature fuel function
    let (inner, body) ← block fuel
    return fun node => .method node name params result inner body

/-- Statements between braces, with the node of the whole. -/
def block : Nat → Parse (Node × List Stmt)
  | 0 => unexpected "statement"
  | fuel + 1 => do
    let start ← span
    expect .lbrace
    let body ← stmts fuel .rbrace
    expect .rbrace
    return (← node start, body)

/-- Statements up to a token of kind `close` or the end of the text; a semicolon may follow each. -/
def stmts : Nat → Token.Kind → Parse (List Stmt)
  | 0, _ => unexpected "statement"
  | fuel + 1, close => do
    let k ← kind
    if k = close || k = .eof then return []
    else
      let s ← stmt fuel
      discard (consume .semicolon)
      return s :: (← stmts fuel close)

/-- One guard or more, up to and including the closing keyword. -/
def guards : Nat → Token.Kind → Parse (List Guard)
  | 0, _ => unexpected "statement"
  | fuel + 1, close => do
    let start ← span
    let cond ← binary fuel 0
    expect .guard
    let body ← stmt fuel
    discard (consume .semicolon)
    let guard := Guard.mk (← node start) cond body
    if ← consume close then return [guard]
    else if (← kind) = .eof then unexpected close.describe
    else return guard :: (← guards fuel close)

end

/-- The keyword, the name of the program, and statements up to the end of the text. -/
def program (fuel : Nat) : Parse Program := do
  let start ← span
  expect .program
  let name ← ident
  let body ← stmts fuel .eof
  return ⟨name, body, start.merge (← prev)⟩

end Parse

namespace Cursor

def program (c : Cursor) : EStateM.Result Error Cursor Program :=
  Parse.program c.fuel c

def stmt (c : Cursor) : EStateM.Result Error Cursor Stmt :=
  Parse.stmt c.fuel c

def expr (c : Cursor) : EStateM.Result Error Cursor Expr :=
  Parse.binary c.fuel 0 c

end Cursor

/-- The program a source text spells. -/
def parse (source : String) : Except Error Program :=
  match (Cursor.ofTokens (tokenize source)).program with
  | .ok program _ => .ok program
  | .error e _ => .error e

end Guarded
