import Guarded.Program

/-!
Declared names. A symbol is known by its index in the table of all symbols of a program, in the
order of declaration.
-/

namespace Guarded

abbrev SymbolId := Nat

inductive SymbolKind where
  | variable
  /-- The type of an array symbol is that of its elements. -/
  | array
  | procedure (params : List SymbolId)
  /-- The type of a function symbol is that of its result. -/
  | function (params : List SymbolId)
deriving DecidableEq, Repr, Inhabited

namespace SymbolKind

def describe : SymbolKind → String
  | .variable => "variable"
  | .array => "array"
  | .procedure _ => "procedure"
  | .function _ => "function"

def params? : SymbolKind → Option (List SymbolId)
  | procedure params | function params => some params
  | _ => none

def isFunction : SymbolKind → Bool
  | function _ => true
  | _ => false

/-- A method with these parameters; other kinds have none. -/
def withParams (params : List SymbolId) : SymbolKind → SymbolKind
  | procedure _ => procedure params
  | function _ => function params
  | kind => kind

end SymbolKind

/-- A declared name. The owner is the method whose parameters or body declare it; what has one lives
in the activations of that method, and everything else is global. -/
structure Symbol where
  name : String
  kind : SymbolKind
  ty : Ty
  owner : Option SymbolId
  span : Span
deriving DecidableEq, Repr, Inhabited

namespace Symbol

def isLocal (s : Symbol) : Bool :=
  s.owner.isSome

def isMethod (s : Symbol) : Bool :=
  s.kind.params?.isSome

def isVariable (s : Symbol) : Bool :=
  s.kind == .variable

end Symbol

end Guarded
