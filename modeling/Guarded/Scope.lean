import Guarded.Error
import Guarded.Symbol
import Std.Data.TreeMap

/-!
Scopes over one table of symbols. Every scope ever entered is kept, with a link to the one around
it; leaving a scope only moves back to that one. Symbols stay in the table when their scope is
left.
-/

namespace Guarded

abbrev ScopeId := Nat

structure Scope where
  parent : Option ScopeId
  names : Std.TreeMap String SymbolId

structure Scopes where
  all : Array Scope
  current : ScopeId
  symbols : Array Symbol

namespace Scopes

/-- Only the global scope, and no symbol. -/
def empty : Scopes :=
  ⟨#[⟨none, ∅⟩], 0, #[]⟩

def enter (s : Scopes) : Scopes :=
  { s with all := s.all.push ⟨some s.current, ∅⟩, current := s.all.size }

/-- Back to the scope around the current one; the global scope is never left. -/
def exit (s : Scopes) : Scopes :=
  match s.all[s.current]?.bind Scope.parent with
  | some parent => { s with current := parent }
  | none => s

theorem exit_symbols (s : Scopes) : s.exit.symbols = s.symbols := by
  unfold exit
  split <;> rfl

/-- The symbol a name has in one scope. -/
def nameIn (s : Scopes) (scope : ScopeId) (name : String) : Option SymbolId :=
  s.all[scope]?.bind fun sc => sc.names[name]?

/-- The symbol a name has in the current scope itself. -/
def lookupLocal (s : Scopes) (name : String) : Option SymbolId :=
  s.nameIn s.current name

/-- Looks in a scope and those around it, at most `fuel` of them. -/
def lookupFrom (s : Scopes) (name : String) : Nat → ScopeId → Option SymbolId
  | 0, _ => none
  | fuel + 1, scope =>
    match s.nameIn scope name with
    | some id => some id
    | none =>
      match s.all[scope]?.bind Scope.parent with
      | some parent => s.lookupFrom name fuel parent
      | none => none

/-- The symbol a name has in the innermost scope that declares it. No chain of scopes is longer than
their number. -/
def lookup (s : Scopes) (name : String) : Option SymbolId :=
  s.lookupFrom name s.all.size s.current

/-- Declares a symbol in the current scope, which may not have its name yet. -/
def declare (s : Scopes) (symbol : Symbol) : Except Error (SymbolId × Scopes) :=
  match s.lookupLocal symbol.name with
  | some _ => .error (.duplicateDefinition symbol.name symbol.span)
  | none =>
    let id := s.symbols.size
    .ok (id, { s with
      all := s.all.modify s.current fun sc => { sc with names := sc.names.insert symbol.name id }
      symbols := s.symbols.push symbol })

/-- Gives a declared method its parameters. -/
def setParams (s : Scopes) (method : SymbolId) (params : List SymbolId) : Scopes :=
  { s with symbols := s.symbols.modify method fun sym =>
      { sym with kind := sym.kind.withParams params } }

theorem setParams_symbols_of_ne (s : Scopes) {method i : SymbolId} (params : List SymbolId)
    (other : method ≠ i) : (s.setParams method params).symbols[i]? = s.symbols[i]? := by
  rw [setParams, Array.getElem?_modify, if_neg other]

end Scopes

end Guarded
