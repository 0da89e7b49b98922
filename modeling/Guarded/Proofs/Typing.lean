import Guarded.Analysis
import Guarded.Proofs.Tree
import Mathlib.Data.List.Forall2

/-!
What it means for tables to type a program. Every expression has one of the types of values, and it
fits what is inside it; a value and the place it goes to are both boolean or both numbers, since
numbers are converted.
-/

namespace Guarded

namespace Ty

/-- A value of the one type can be made into a value of the other. -/
def Compatible (s t : Ty) : Prop :=
  s = boolean ∧ t = boolean ∨ s.isNumeric = true ∧ t.isNumeric = true

instance (s t : Ty) : Decidable (s.Compatible t) :=
  inferInstanceAs (Decidable (_ ∨ _))

end Ty

/-- The types an operator takes and gives. -/
def BinOp.Types (op : BinOp) (left right result : Ty) : Prop :=
  match op with
  | .add | .sub | .mul =>
    left.isNumeric = true ∧ right.isNumeric = true ∧
      result = if left = .float ∨ right = .float then .float else .int
  | .slash => left.isNumeric = true ∧ right.isNumeric = true ∧ result = .float
  | .div | .mod => left = .int ∧ right = .int ∧ result = .int
  | .lt | .gt | .le | .ge =>
    left.isNumeric = true ∧ right.isNumeric = true ∧ result = .boolean
  | .eq | .ne => left = right ∧ result = .boolean
  | .and | .or => left = .boolean ∧ right = .boolean ∧ result = .boolean

namespace Analysis

/-- The node has the type of the symbol that the name stands for, which is a type of values. -/
def TypedAs (a : Analysis) (n : Node) (name : Ident) : Prop :=
  ∃ id, a.bindings[name.id]? = some id ∧ a.typeOf n.id = a.symbolType id ∧
    (a.symbolType id).isTerminal = true

/-- Each argument fits the parameter it goes to. -/
def Passes (a : Analysis) (callee : Ident) (args : List Expr) : Prop :=
  ∃ id, a.bindings[callee.id]? = some id ∧
    List.Forall₂ (fun arg param =>
      (a.typeOf arg.id).Compatible (a.symbolType param) ∧ (a.symbolType param).isTerminal = true)
      args (a.params id)

/-- The value fits the symbol that the name stands for. -/
def Takes (a : Analysis) (name : Ident) (value : Expr) : Prop :=
  ∃ id, a.bindings[name.id]? = some id ∧ (a.typeOf value.id).Compatible (a.symbolType id) ∧
    (a.symbolType id).isTerminal = true

end Analysis

mutual

/-- The tables type the expression and all that are inside it. -/
def Expr.Typed (a : Analysis) : Expr → Prop
  | .int n _ => a.typeOf n.id = .int
  | .float n _ => a.typeOf n.id = .float
  | .bool n _ => a.typeOf n.id = .boolean
  | .var n name => a.TypedAs n name
  | .index n array i => a.TypedAs n array ∧ i.Typed a ∧ a.typeOf i.id = .int
  | .call n callee args => a.TypedAs n callee ∧ Expr.TypedAll a args ∧ a.Passes callee args
  | .paren n inner => inner.Typed a ∧ a.typeOf n.id = a.typeOf inner.id
  | .unary n .neg operand =>
    operand.Typed a ∧ a.typeOf n.id = a.typeOf operand.id ∧
      (a.typeOf operand.id).isNumeric = true
  | .unary n .not operand =>
    operand.Typed a ∧ a.typeOf operand.id = .boolean ∧ a.typeOf n.id = .boolean
  | .binary n op lhs rhs =>
    lhs.Typed a ∧ rhs.Typed a ∧
      op.Types (a.typeOf lhs.id) (a.typeOf rhs.id) (a.typeOf n.id)

def Expr.TypedAll (a : Analysis) : List Expr → Prop
  | [] => True
  | e :: es => e.Typed a ∧ Expr.TypedAll a es

end

/-- The tables type the assignment of the value to the target. -/
def Target.Typed (a : Analysis) : Target → Expr → Prop
  | .var name, value => value.Typed a ∧ a.Takes name value
  | .index array i, value =>
    i.Typed a ∧ a.typeOf i.id = .int ∧ value.Typed a ∧ a.Takes array value

/-- A return fits the method it stands in: a function returns a value of exactly its type, and a
procedure none. -/
def Analysis.Returns (a : Analysis) (here : Option SymbolId) (value : Option Expr) : Prop :=
  ∃ method, here = some method ∧
    match value with
    | none => (a.symbolKind method).isFunction = false
    | some e =>
      (a.symbolKind method).isFunction = true ∧ e.Typed a ∧
        a.typeOf e.id = a.symbolType method

mutual

/-- The tables type the statement, which stands in the method `here`. -/
def Stmt.Typed (a : Analysis) (here : Option SymbolId) : Stmt → Prop
  | .varDecl .. => True
  | .arrayDecl _ _ size _ => size.Typed a ∧ a.typeOf size.id = .int
  | .method _ name _ _ _ body =>
    ∃ id, a.bindings[name.id]? = some id ∧ Stmt.TypedAll a (some id) body
  | .assign _ targets values => List.Forall₂ (Target.Typed a) targets values
  | .input _ names =>
    ∀ name ∈ names, ∃ id, a.bindings[name.id]? = some id ∧ (a.symbolType id).isTerminal = true
  | .print _ value => value.Typed a
  | .alternative _ guards | .iterative _ guards => Guard.TypedAll a here guards
  | .block _ _ body => Stmt.TypedAll a here body
  | .ret _ value => a.Returns here value
  | .call _ callee args => Expr.TypedAll a args ∧ a.Passes callee args

def Stmt.TypedAll (a : Analysis) (here : Option SymbolId) : List Stmt → Prop
  | [] => True
  | s :: ss => s.Typed a here ∧ Stmt.TypedAll a here ss

def Guard.TypedAll (a : Analysis) (here : Option SymbolId) : List Guard → Prop
  | [] => True
  | .mk _ cond body :: gs =>
    cond.Typed a ∧ a.typeOf cond.id = .boolean ∧ body.Typed a here ∧ Guard.TypedAll a here gs

end

theorem BinOp.Types.terminal {op : BinOp} {left right result : Ty}
    (h : op.Types left right result) : result.isTerminal = true := by
  cases op
  case add | sub | mul =>
    obtain ⟨-, -, rfl⟩ := h
    split <;> rfl
  case eq | ne =>
    obtain ⟨-, rfl⟩ := h
    rfl
  all_goals
    obtain ⟨-, -, rfl⟩ := h
    rfl

theorem Analysis.terminal_of_eq {a : Analysis} {k : NodeId} {ty : Ty} (same : a.typeOf k = ty)
    (terminal : ty.isTerminal = true) : (a.typeOf k).isTerminal = true :=
  same ▸ terminal

theorem Analysis.TypedAs.terminal {a : Analysis} {n : Node} {name : Ident}
    (h : a.TypedAs n name) : (a.typeOf n.id).isTerminal = true := by
  obtain ⟨id, -, same, terminal⟩ := h
  exact terminal_of_eq same terminal

/-- A typed expression has a type of values. -/
theorem Expr.Typed.terminal {a : Analysis} :
    {e : Expr} → e.Typed a → (a.typeOf e.id).isTerminal = true
  | .int .., typed | .float .., typed | .bool .., typed => Analysis.terminal_of_eq typed rfl
  | .var .., typed => Analysis.TypedAs.terminal typed
  | .index .., typed => Analysis.TypedAs.terminal typed.1
  | .call .., typed => Analysis.TypedAs.terminal typed.1
  | .paren .., typed => Analysis.terminal_of_eq typed.2 typed.1.terminal
  | .unary _ .neg _, typed => Analysis.terminal_of_eq typed.2.1 typed.1.terminal
  | .unary _ .not _, typed => Analysis.terminal_of_eq typed.2.2 rfl
  | .binary .., typed => typed.2.2.terminal

mutual

theorem Expr.Typed.parts {a : Analysis} :
    {e : Expr} → e.Typed a → ∀ e' ∈ e.parts, e'.Typed a
  | .int .., typed, _, mem | .float .., typed, _, mem | .bool .., typed, _, mem
  | .var .., typed, _, mem => by
    obtain rfl := List.mem_singleton.mp mem
    exact typed
  | .index _ _ i, typed, e', mem => by
    rcases List.mem_append.mp mem with mem | mem
    · exact typed.2.1.parts e' mem
    · obtain rfl := List.mem_singleton.mp mem
      exact typed
  | .call _ _ args, typed, e', mem => by
    rcases List.mem_append.mp mem with mem | mem
    · exact Expr.TypedAll.parts typed.2.1 e' mem
    · obtain rfl := List.mem_singleton.mp mem
      exact typed
  | .paren _ inner, typed, e', mem => by
    rcases List.mem_append.mp mem with mem | mem
    · exact typed.1.parts e' mem
    · obtain rfl := List.mem_singleton.mp mem
      exact typed
  | .unary _ .neg operand, typed, e', mem | .unary _ .not operand, typed, e', mem => by
    rcases List.mem_append.mp mem with mem | mem
    · exact typed.1.parts e' mem
    · obtain rfl := List.mem_singleton.mp mem
      exact typed
  | .binary _ _ lhs rhs, typed, e', mem => by
    rcases List.mem_append.mp mem with mem | mem
    · rcases List.mem_append.mp mem with mem | mem
      · exact typed.1.parts e' mem
      · exact typed.2.1.parts e' mem
    · obtain rfl := List.mem_singleton.mp mem
      exact typed

theorem Expr.TypedAll.parts {a : Analysis} :
    {es : List Expr} → Expr.TypedAll a es → ∀ e' ∈ Expr.partsAll es, e'.Typed a
  | [], _, _, mem => by simp [Expr.partsAll] at mem
  | e :: es, typed, e', mem => by
    rcases List.mem_append.mp mem with mem | mem
    · exact typed.1.parts e' mem
    · exact Expr.TypedAll.parts typed.2 e' mem

end

theorem Target.exprsAll_typed {a : Analysis} {targets : List Target} {values : List Expr}
    (typed : List.Forall₂ (Target.Typed a) targets values) :
    ∀ e ∈ Target.exprsAll targets ++ Expr.partsAll values, e.Typed a := by
  induction typed with
  | nil => simp [Target.exprsAll, Expr.partsAll]
  | @cons target value targets values first rest ih =>
    intro e mem
    simp only [Target.exprsAll, Expr.partsAll, List.mem_append] at mem ih
    rcases mem with (mem | mem) | (mem | mem)
    · cases target with
      | var name => simp [Target.exprs] at mem
      | index array i => exact first.1.parts e mem
    · exact ih e (Or.inl mem)
    · cases target with
      | var name => exact first.1.parts e mem
      | index array i => exact first.2.2.1.parts e mem
    · exact ih e (Or.inr mem)

mutual

/-- Every expression of a typed statement is typed. -/
theorem Stmt.Typed.exprs {a : Analysis} :
    {here : Option SymbolId} → {s : Stmt} → s.Typed a here → ∀ e ∈ s.exprs, e.Typed a
  | _, .varDecl .., _, _, mem | _, .input .., _, _, mem | _, .ret _ none, _, _, mem => by
    simp [Stmt.exprs] at mem
  | _, .arrayDecl .., typed, e, mem => typed.1.parts e mem
  | _, .method .., typed, e, mem => by
    obtain ⟨id, -, inside⟩ := typed
    exact Stmt.TypedAll.exprs inside e mem
  | _, .assign .., typed, e, mem => Target.exprsAll_typed typed e mem
  | _, .print .., typed, e, mem => Expr.Typed.parts typed e mem
  | _, .alternative .., typed, e, mem | _, .iterative .., typed, e, mem =>
    Guard.TypedAll.exprs typed e mem
  | _, .block .., typed, e, mem => Stmt.TypedAll.exprs typed e mem
  | _, .ret _ (some _), typed, e, mem => by
    obtain ⟨method, -, -, value, -⟩ := typed
    exact value.parts e mem
  | _, .call .., typed, e, mem => typed.1.parts e mem

theorem Stmt.TypedAll.exprs {a : Analysis} :
    {here : Option SymbolId} → {ss : List Stmt} → Stmt.TypedAll a here ss →
      ∀ e ∈ Stmt.exprsAll ss, e.Typed a
  | _, [], _, _, mem => by simp [Stmt.exprsAll] at mem
  | _, _ :: _, typed, e, mem => by
    rcases List.mem_append.mp mem with mem | mem
    · exact Stmt.Typed.exprs typed.1 e mem
    · exact Stmt.TypedAll.exprs typed.2 e mem

theorem Guard.TypedAll.exprs {a : Analysis} :
    {here : Option SymbolId} → {gs : List Guard} → Guard.TypedAll a here gs →
      ∀ e ∈ Guard.exprsAll gs, e.Typed a
  | _, [], _, _, mem => by simp [Guard.exprsAll] at mem
  | _, .mk .. :: _, typed, e, mem => by
    rcases List.mem_append.mp mem with mem | mem
    · rcases List.mem_append.mp mem with mem | mem
      · exact typed.1.parts e mem
      · exact Stmt.Typed.exprs typed.2.2.1 e mem
    · exact Guard.TypedAll.exprs typed.2.2.2 e mem

end

mutual

/-- The body of a method declared in a typed statement is typed. -/
theorem Stmt.Typed.methods {a : Analysis} :
    {here : Option SymbolId} → {s : Stmt} → s.Typed a here → ∀ m ∈ s.methods,
      ∃ id, a.bindings[m.name.id]? = some id ∧ Stmt.TypedAll a (some id) m.body
  | _, .method .., typed, m, mem => by
    obtain ⟨id, named, inside⟩ := typed
    rcases List.mem_cons.mp mem with rfl | mem
    · exact ⟨id, named, inside⟩
    · exact Stmt.TypedAll.methods inside m mem
  | _, .alternative .., typed, m, mem | _, .iterative .., typed, m, mem =>
    Guard.TypedAll.methods typed m mem
  | _, .block .., typed, m, mem => Stmt.TypedAll.methods typed m mem
  | _, .varDecl .., _, _, mem | _, .arrayDecl .., _, _, mem | _, .assign .., _, _, mem
  | _, .input .., _, _, mem | _, .print .., _, _, mem | _, .ret .., _, _, mem
  | _, .call .., _, _, mem => by
    simp [Stmt.methods] at mem

theorem Stmt.TypedAll.methods {a : Analysis} :
    {here : Option SymbolId} → {ss : List Stmt} → Stmt.TypedAll a here ss →
      ∀ m ∈ Stmt.methodsAll ss,
      ∃ id, a.bindings[m.name.id]? = some id ∧ Stmt.TypedAll a (some id) m.body
  | _, [], _, _, mem => by simp [Stmt.methodsAll] at mem
  | _, _ :: _, typed, m, mem => by
    rcases List.mem_append.mp mem with mem | mem
    · exact Stmt.Typed.methods typed.1 m mem
    · exact Stmt.TypedAll.methods typed.2 m mem

theorem Guard.TypedAll.methods {a : Analysis} :
    {here : Option SymbolId} → {gs : List Guard} → Guard.TypedAll a here gs →
      ∀ m ∈ Guard.methodsAll gs,
      ∃ id, a.bindings[m.name.id]? = some id ∧ Stmt.TypedAll a (some id) m.body
  | _, [], _, _, mem => by simp [Guard.methodsAll] at mem
  | _, .mk .. :: _, typed, m, mem => by
    rcases List.mem_append.mp mem with mem | mem
    · exact Stmt.Typed.methods typed.2.2.1 m mem
    · exact Guard.TypedAll.methods typed.2.2.2 m mem

end

end Guarded
