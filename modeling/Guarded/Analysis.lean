import Guarded.Error
import Guarded.Symbol
import Std.Data.TreeMap

/-!
What is known about a program: its symbols, the symbol of each identifier and the type of each
expression. The tables are over node numbers, so the tree itself is never changed.
-/

namespace Guarded

structure Analysis where
  symbols : Array Symbol
  bindings : Std.TreeMap NodeId SymbolId
  types : Std.TreeMap NodeId Ty

namespace Analysis

def empty : Analysis :=
  ⟨#[], ∅, ∅⟩

/-- The symbol an identifier stands for. -/
def binding (a : Analysis) (name : Ident) : Except Error SymbolId :=
  match a.bindings[name.id]? with
  | some id => .ok id
  | none => .error (.codeGen (s!"identifier {name.name} (#{name.id}) has no symbol"))

/-- The type of an expression node, `undefined` as long as nothing is known. -/
def typeOf (a : Analysis) (node : NodeId) : Ty :=
  a.types[node]?.getD .undefined

def symbolType (a : Analysis) (id : SymbolId) : Ty :=
  (a.symbols[id]?.map Symbol.ty).getD .undefined

def symbolKind (a : Analysis) (id : SymbolId) : SymbolKind :=
  (a.symbols[id]?.map Symbol.kind).getD .variable

/-- The parameters of a method. -/
def params (a : Analysis) (method : SymbolId) : List SymbolId :=
  (a.symbolKind method).params?.getD []

def paramTypes (a : Analysis) (method : SymbolId) : List Ty :=
  (a.params method).map a.symbolType

/-- The first symbol with a name, in the order of declaration. -/
def findName (a : Analysis) (name : String) : Option Symbol :=
  a.symbols.find? fun s => s.name == name

end Analysis

end Guarded
