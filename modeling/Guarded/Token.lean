import Guarded.Number.Style
import Guarded.Span
import Guarded.Text.Quoted

/-!
Tokens of the language. Integer literals hold their value up to `2 ^ 63 - 1` and that bound for
anything larger; the grammar decides later which values are in range.
-/

namespace Guarded

namespace Token

inductive Kind where
  | program | int | float | boolean | trueLit | falseLit | if | fi | do | od | input | print | proc
  | fun | return | div | mod
  | intLit (value : Int)
  | floatLit (value : Float)
  | ident (name : String)
  | assign | eq | ne | lt | gt | le | ge | plus | minus | star | slash | and | or | tilde
  | guard | colon | semicolon | comma | period
  | lparen | rparen | lbracket | rbracket | lbrace | rbrace
  | unknown (ch : Char)
  | eof
deriving DecidableEq

namespace Kind

/-- The keyword with this spelling. -/
def keyword? : String → Option Kind
  | "program" => some .program
  | "int" => some .int
  | "float" => some .float
  | "boolean" => some .boolean
  | "true" => some .trueLit
  | "false" => some .falseLit
  | "if" => some .if
  | "fi" => some .fi
  | "do" => some .do
  | "od" => some .od
  | "input" => some .input
  | "print" => some .print
  | "proc" => some .proc
  | "fun" => some .fun
  | "return" => some .return
  | "div" => some .div
  | "mod" => some .mod
  | _ => none

/-- The name of a kind in messages, with its content if it has any. -/
def describe : Kind → String
  | .program => "Program"
  | .int => "Int"
  | .float => "Float"
  | .boolean => "Boolean"
  | .trueLit => "True"
  | .falseLit => "False"
  | .if => "If"
  | .fi => "Fi"
  | .do => "Do"
  | .od => "Od"
  | .input => "Input"
  | .print => "Print"
  | .proc => "Proc"
  | .fun => "Fun"
  | .return => "Return"
  | .div => "Div"
  | .mod => "Mod"
  | .intLit value => s!"IntLit({value})"
  | .floatLit value => "FloatLit(" ++ Number.Style.literal.double value ++ ")"
  | .ident name => "Ident(" ++ Text.quoted name ++ ")"
  | .assign => "Assign"
  | .eq => "Eq"
  | .ne => "Ne"
  | .lt => "Lt"
  | .gt => "Gt"
  | .le => "Le"
  | .ge => "Ge"
  | .plus => "Plus"
  | .minus => "Minus"
  | .star => "Star"
  | .slash => "Slash"
  | .and => "And"
  | .or => "Or"
  | .tilde => "Tilde"
  | .guard => "Guard"
  | .colon => "Colon"
  | .semicolon => "Semicolon"
  | .comma => "Comma"
  | .period => "Period"
  | .lparen => "LParen"
  | .rparen => "RParen"
  | .lbracket => "LBracket"
  | .rbracket => "RBracket"
  | .lbrace => "LBrace"
  | .rbrace => "RBrace"
  | .unknown ch => "Unknown(" ++ Text.quotedChar ch ++ ")"
  | .eof => "Eof"

/-- Whether the token names a type of values. -/
def isType : Kind → Bool
  | .int | .float | .boolean => true
  | _ => false

/-- Whether an expression can start with the token. -/
def startsExpr : Kind → Bool
  | .intLit _ | .floatLit _ | .ident _ | .trueLit | .falseLit | .lparen | .minus | .tilde => true
  | _ => false

end Kind

end Token

structure Token where
  kind : Token.Kind
  span : Span
deriving DecidableEq

end Guarded
