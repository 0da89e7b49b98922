import Guarded.Proofs.Symbolic
import Guarded.Proofs.Inference

/-!
Symbolic code. The code of a bound and typed program asks for nothing that is missing: every symbol
in it exists, has a type and may be used where it stands. What code reads and writes are exactly the
variables and arrays that the program names, and each method becomes one body.
-/

namespace Guarded

namespace Slot

theorem scalar_ok {ty : Ty} (terminal : ty.isTerminal = true) : ∃ slot, scalar ty = .ok slot := by
  cases ty <;> first | exact ⟨_, rfl⟩ | cases terminal

theorem array_ok {ty : Ty} (terminal : ty.isTerminal = true) : ∃ slot, array ty = .ok slot := by
  cases ty <;> first | exact ⟨_, rfl⟩ | cases terminal

end Slot

namespace Expr

mutual

/-- The variables and arrays that an expression reads. -/
def names : Expr → List Ident
  | .int .. | .float .. | .bool .. => []
  | .var _ name => [name]
  | .index _ array i => array :: i.names
  | .call _ _ args => namesAll args
  | .paren _ inner => inner.names
  | .unary _ _ operand => operand.names
  | .binary _ _ lhs rhs => lhs.names ++ rhs.names

def namesAll : List Expr → List Ident
  | [] => []
  | e :: es => e.names ++ namesAll es

end

end Expr

def Target.names : Target → List Ident
  | .var name => [name]
  | .index array i => array :: i.names

/-- What is read before an assignment stores. -/
def Target.readNames : Target → List Ident
  | .var _ => []
  | .index array i => array :: i.names

/-- What a store writes by name. -/
def Target.writtenNames : Target → List Ident
  | .var name => [name]
  | .index .. => []

mutual

/-- The variables and arrays that a statement reads and writes, apart from what the methods declared
in it do. Declaring a variable is no access to it. -/
def Stmt.names : Stmt → List Ident
  | .varDecl .. | .method .. | .ret _ none => []
  | .arrayDecl _ _ size names => names.flatMap fun name => size.names ++ [name]
  | .assign _ targets values => targets.flatMap Target.names ++ Expr.namesAll values
  | .input _ names => names
  | .print _ value => value.names
  | .alternative _ guards | .iterative _ guards => Guard.namesAll guards
  | .block _ _ body => Stmt.namesAll body
  | .ret _ (some value) => value.names
  | .call _ _ args => Expr.namesAll args

def Stmt.namesAll : List Stmt → List Ident
  | [] => []
  | s :: ss => s.names ++ Stmt.namesAll ss

def Guard.namesAll : List Guard → List Ident
  | [] => []
  | .mk _ cond body :: gs => cond.names ++ body.names ++ Guard.namesAll gs

end

namespace Analysis

/-- The symbols that names stand for. -/
def symbolsOf (a : Analysis) (names : List Ident) : List SymbolId :=
  names.filterMap fun name => a.bindings[name.id]?

theorem mem_symbolsOf {a : Analysis} {names : List Ident} {x : SymbolId} :
    x ∈ a.symbolsOf names ↔ ∃ name ∈ names, a.bindings[name.id]? = some x :=
  List.mem_filterMap

/-- A variable or array that has storage. -/
def Storable (a : Analysis) (id : SymbolId) : Prop :=
  ∃ s slot, a.symbols[id]? = some s ∧ s.isMethod = false ∧ Assemble.slotOf a id = .ok slot

/-- A method whose name is not one of those made up for fields and routines. -/
def Callable (a : Analysis) (id : SymbolId) : Prop :=
  ∃ s, a.symbols[id]? = some s ∧ s.isMethod = true ∧ '$' ∉ s.name.toList

/-- A method that can be opened: its result and its parameters have storage. -/
structure Opens (a : Analysis) (id : SymbolId) : Prop where
  callable : a.Callable id
  result : ∃ slot, Assemble.resultOf a id = .ok slot
  params : ∀ q ∈ a.params id, a.Storable q ∧ a.ownerOf q = some id
  distinct : (a.params id).Nodup

/-- Tables from which code can be made. -/
structure Ready (a : Analysis) : Prop where
  typed : ∀ (i : Nat) (s : Symbol), a.symbols[i]? = some s → (∀ ps, s.kind ≠ .procedure ps) →
    s.ty.isTerminal = true
  opens : ∀ (i : Nat) (s : Symbol), a.symbols[i]? = some s → s.isMethod = true → a.Opens i

/-- A method and its code. -/
def compiled (a : Analysis) (m : Method) : SymbolId × List Op :=
  let id := a.bindings[m.name.id]?.getD 0
  (id, a.lowerStmts (some id) m.body ++ a.lowerEnd id m.name.span.line)

end Analysis

namespace Op

mutual

/-- The methods in a piece of code with their bodies, an inner one before the one around it. -/
def bodies : Op → List (SymbolId × List Op)
  | .method id body => bodiesAll body ++ [(id, body)]
  | _ => []

def bodiesAll : List Op → List (SymbolId × List Op)
  | [] => []
  | op :: ops => op.bodies ++ bodiesAll ops

end

/-- The symbols that code reads and writes itself. -/
def touched : List Op → List SymbolId
  | [] => []
  | .load id :: ops | .store id :: ops => id :: touched ops
  | _ :: ops => touched ops

mutual

/-- Everything that code of the method `here` asks for is there. -/
def Scoped (a : Analysis) (here : Option SymbolId) : Op → Prop
  | .instr _ | .jump .. => True
  | .load id | .store id => a.Storable id ∧ (a.ownerOf id = none ∨ a.ownerOf id = here)
  | .invoke id => a.Callable id
  | .method id body => a.Opens id ∧ ScopedAll a (some id) body
  | .fault _ => False

def ScopedAll (a : Analysis) (here : Option SymbolId) : List Op → Prop
  | [] => True
  | op :: ops => op.Scoped a here ∧ ScopedAll a here ops

end

theorem bodiesAll_append (xs ys : List Op) :
    bodiesAll (xs ++ ys) = bodiesAll xs ++ bodiesAll ys := by
  induction xs with
  | nil => rfl
  | cons x xs ih => simp [bodiesAll, ih]

theorem touched_append (xs ys : List Op) : touched (xs ++ ys) = touched xs ++ touched ys := by
  induction xs with
  | nil => rfl
  | cons x xs ih => cases x <;> simp [touched, ih]

theorem scopedAll_append {a : Analysis} {here : Option SymbolId} {xs ys : List Op} :
    ScopedAll a here (xs ++ ys) ↔ ScopedAll a here xs ∧ ScopedAll a here ys := by
  induction xs with
  | nil => simp [ScopedAll]
  | cons x xs ih => simp [ScopedAll, ih, and_assoc]

/-- Symbols that code reads and writes have storage and may be used there. -/
theorem ScopedAll.touched {a : Analysis} {here : Option SymbolId} {ops : List Op}
    (h : ScopedAll a here ops) {x : SymbolId} (mem : x ∈ touched ops) :
    a.Storable x ∧ (a.ownerOf x = none ∨ a.ownerOf x = here) := by
  induction ops with
  | nil => cases mem
  | cons op ops ih =>
    cases op with
    | load | store =>
      rcases List.mem_cons.mp mem with rfl | mem
      · exact h.1
      · exact ih h.2 mem
    | instr | invoke | jump | method | fault => exact ih h.2 mem

/-- A piece of code of the method `here`, with the names it was made from and the methods declared
in it. -/
structure Piece (a : Analysis) (here : Option SymbolId) (ops : List Op) (names : List Ident)
    (methods : List Method) : Prop where
  inScope : ScopedAll a here ops
  bodies : (bodiesAll ops).Perm (methods.map a.compiled)
  touched : ∀ x, x ∈ Op.touched ops ↔ x ∈ a.symbolsOf names

namespace Piece
variable {a : Analysis} {here : Option SymbolId} {xs ys : List Op} {ns ms : List Ident}
variable {ks ls : List Method}

theorem nil : Piece a here [] [] [] :=
  ⟨trivial, .refl _, by simp [Op.touched, Analysis.symbolsOf]⟩

theorem append (first : Piece a here xs ns ks) (second : Piece a here ys ms ls) :
    Piece a here (xs ++ ys) (ns ++ ms) (ks ++ ls) where
  inScope := scopedAll_append.mpr ⟨first.inScope, second.inScope⟩
  bodies := by
    rw [bodiesAll_append, List.map_append]
    exact first.bodies.append second.bodies
  touched x := by
    rw [touched_append, List.mem_append, first.touched, second.touched, Analysis.symbolsOf,
      Analysis.symbolsOf, Analysis.symbolsOf, List.filterMap_append, List.mem_append]

/-- The same with code that names nothing and declares nothing. -/
theorem ended (first : Piece a here xs ns ks) (second : Piece a here ys [] []) :
    Piece a here (xs ++ ys) ns ks := by
  simpa using first.append second

/-- Names may be listed otherwise. -/
theorem relist (h : Piece a here xs ns ks) (same : ∀ n, n ∈ ns ↔ n ∈ ms) :
    Piece a here xs ms ks :=
  ⟨h.inScope, h.bodies, fun x => by simp [h.touched, Analysis.mem_symbolsOf, same]⟩

theorem instr (i : Instr) : Piece a here [.instr i] [] [] :=
  ⟨⟨trivial, trivial⟩, .refl _, by simp [Op.touched, Analysis.symbolsOf]⟩

theorem jump (j : Jump) (d : Int) : Piece a here [.jump j d] [] [] :=
  ⟨⟨trivial, trivial⟩, .refl _, by simp [Op.touched, Analysis.symbolsOf]⟩

theorem load {name : Ident} {id : SymbolId} (bound : a.bindings[name.id]? = some id)
    (storable : a.Storable id) (owner : a.ownerOf id = none ∨ a.ownerOf id = here) :
    Piece a here [.load id] [name] [] :=
  ⟨⟨⟨storable, owner⟩, trivial⟩, .refl _, by simp [Op.touched, Analysis.symbolsOf, bound]⟩

theorem store {name : Ident} {id : SymbolId} (bound : a.bindings[name.id]? = some id)
    (storable : a.Storable id) (owner : a.ownerOf id = none ∨ a.ownerOf id = here) :
    Piece a here [.store id] [name] [] :=
  ⟨⟨⟨storable, owner⟩, trivial⟩, .refl _, by simp [Op.touched, Analysis.symbolsOf, bound]⟩

theorem invoke {id : SymbolId} (callable : a.Callable id) : Piece a here [.invoke id] [] [] :=
  ⟨⟨callable, trivial⟩, .refl _, by simp [Op.touched, Analysis.symbolsOf]⟩

end Piece

end Op

namespace Analysis
variable {a : Analysis} {here : Option SymbolId}

/-- A local that may be used here belongs to the method here. -/
theorem here_of_ownerOf {x m : SymbolId} (inScope : a.ownerOf x = none ∨ a.ownerOf x = here)
    (own : a.ownerOf x = some m) : here = some m := by
  rcases inScope with none | same
  · simp [own] at none
  · rw [← same, own]

theorem withSymbol_of {name : Ident} {id : SymbolId} (bound : a.bindings[name.id]? = some id)
    (code : SymbolId → List Op) : a.withSymbol name code = code id := by
  simp [withSymbol, binding, bound]

theorem cast_piece (s t : Ty) : Op.Piece a here (cast s t) [] [] := by
  unfold cast
  split
  · exact .instr _
  · exact .instr _
  · exact .nil

theorem truth_piece (j : Jump) : Op.Piece a here (truth j) [] [] :=
  (Op.Piece.jump j 3).ended ((Op.Piece.instr _).ended ((Op.Piece.jump .always 2).ended (.instr _)))

theorem storable_of {i : Nat} {s : Symbol} (found : a.symbols[i]? = some s)
    (plain : s.isMethod = false) (terminal : s.ty.isTerminal = true) : a.Storable i := by
  have slot : ∃ slot, Assemble.slotOf a i = .ok slot := by
    unfold Assemble.slotOf
    rw [show a.symbolType i = s.ty by simp [symbolType, found]]
    split
    · exact Slot.array_ok terminal
    · exact Slot.scalar_ok terminal
  obtain ⟨slot, ok⟩ := slot
  exact ⟨s, slot, found, plain, ok⟩

theorem Ready.storable (ready : a.Ready) {i : Nat} {s : Symbol} (found : a.symbols[i]? = some s)
    (plain : s.isMethod = false) : a.Storable i := by
  refine storable_of found plain (ready.typed i s found fun ps kind => ?_)
  simp [Symbol.isMethod, kind, SymbolKind.params?] at plain

/-- What a name in a bound program stands for has storage and may be used. -/
theorem Ready.uses (ready : a.Ready) {name : Ident} {kind : SymbolKind}
    (plain : kind.params? = none) (use : a.Uses here name (· = kind)) :
    ∃ id, a.bindings[name.id]? = some id ∧ a.Storable id ∧
      (a.ownerOf id = none ∨ a.ownerOf id = here) := by
  obtain ⟨id, s, named, rfl, owner⟩ := use
  refine ⟨id, named.1, ready.storable named.2 (by simp [Symbol.isMethod, plain]), ?_⟩
  simpa [ownerOf, named.2] using owner

theorem Ready.declares (ready : a.Ready) {name : Ident} {kind : SymbolKind} {ty : Ty}
    (plain : kind.params? = none) (declared : a.Declares here name kind ty) :
    ∃ id, a.bindings[name.id]? = some id ∧ a.Storable id ∧
      (a.ownerOf id = none ∨ a.ownerOf id = here) := by
  obtain ⟨id, s, named, rfl, owner, -⟩ := declared
  exact ready.uses plain ⟨id, s, named, rfl, Or.inr owner⟩

mutual

theorem lowerExpr_piece (ready : a.Ready) :
    (e : Expr) → (needed : Ty) → e.Bound a here → Op.Piece a here (a.lowerExpr needed e) e.names []
  | .int .., _, _ | .float .., _, _ | .bool .., _, _ => by
    simp only [lowerExpr, Expr.names]
    exact .instr _
  | .paren _ inner, needed, bound => by
    simp only [lowerExpr, Expr.names]
    exact lowerExpr_piece ready inner needed bound
  | .var _ name, _, bound => by
    obtain ⟨id, found, storable, owner⟩ := ready.uses rfl bound
    simp only [lowerExpr, Expr.names, withSymbol_of found]
    exact (Op.Piece.load found storable owner).ended (cast_piece ..)
  | .index _ array i, _, bound => by
    obtain ⟨id, found, storable, owner⟩ := ready.uses rfl bound.1
    simp only [lowerExpr, Expr.names, withSymbol_of found]
    exact (((Op.Piece.load found storable owner).append
      (lowerExpr_piece ready i .int bound.2)).ended (.instr _)).ended (cast_piece ..)
  | .call _ callee args, _, bound => by
    obtain ⟨⟨id, s, named, ⟨ps, kind, arity⟩, -⟩, boundArgs⟩ := bound
    have callable :=
      (ready.opens id s named.2 (by simp [Symbol.isMethod, kind, SymbolKind.params?])).callable
    have length : (a.paramTypes id).length = args.length := by
      simp [paramTypes, params, symbolKind, named.2, kind, SymbolKind.params?, arity]
    simp only [lowerExpr, Expr.names, withSymbol_of named.1]
    exact ((lowerArgs_piece ready args (a.paramTypes id) length boundArgs).ended
      (.invoke callable)).ended (cast_piece ..)
  | .unary _ .neg operand, _, bound => by
    simp only [lowerExpr, Expr.names]
    exact ((lowerExpr_piece ready operand _ bound).ended (.instr _)).ended (cast_piece ..)
  | .unary _ .not operand, _, bound => by
    simp only [lowerExpr, Expr.names]
    exact ((lowerExpr_piece ready operand _ bound).ended (truth_piece _)).ended (cast_piece ..)
  | .binary _ op lhs rhs, _, bound => by
    have both (left right : Ty) {code : List Op} (last : Op.Piece a here code [] []) :
        Op.Piece a here (a.lowerExpr left lhs ++ a.lowerExpr right rhs ++ code)
          (lhs.names ++ rhs.names) [] :=
      ((lowerExpr_piece ready lhs left bound.1).append
        (lowerExpr_piece ready rhs right bound.2)).ended last
    simp only [lowerExpr, Expr.names]
    refine Op.Piece.ended ?_ (cast_piece ..)
    cases op
    case lt | gt | le | ge | eq | ne =>
      dsimp only
      split
      · rw [List.append_assoc]
        exact both _ _ ((Op.Piece.instr _).ended (truth_piece _))
      · exact both _ _ (truth_piece _)
    all_goals exact both _ _ (.instr _)

theorem lowerArgs_piece (ready : a.Ready) :
    (args : List Expr) → (tys : List Ty) → tys.length = args.length → Expr.BoundAll a here args →
    Op.Piece a here (a.lowerArgs args tys) (Expr.namesAll args) []
  | [], _, _, _ => by
    simp only [lowerArgs, Expr.namesAll]
    exact .nil
  | arg :: args, [], arity, _ => by cases arity
  | arg :: args, ty :: tys, arity, bound => by
    simp only [lowerArgs, Expr.namesAll]
    exact (lowerExpr_piece ready arg ty bound.1).append
      (lowerArgs_piece ready args tys (Nat.succ.inj arity) bound.2)

end

theorem lowerCall_piece (ready : a.Ready) {callee : Ident} {args : List Expr}
    (use : a.Uses here callee fun k => ∃ ps, k = .procedure ps ∧ ps.length = args.length)
    (bound : Expr.BoundAll a here args) :
    Op.Piece a here (a.lowerCall callee args) (Expr.namesAll args) [] := by
  obtain ⟨id, s, named, ⟨ps, kind, arity⟩, -⟩ := use
  have callable :=
    (ready.opens id s named.2 (by simp [Symbol.isMethod, kind, SymbolKind.params?])).callable
  have length : (a.paramTypes id).length = args.length := by
    simp [paramTypes, params, symbolKind, named.2, kind, SymbolKind.params?, arity]
  rw [lowerCall, withSymbol_of named.1]
  exact (lowerArgs_piece ready args (a.paramTypes id) length bound).ended (.invoke callable)

theorem lowerArrays_piece (ready : a.Ready) {ty : Ty} {size : Expr} (bound : size.Bound a here) :
    (names : List Ident) → (∀ name ∈ names, a.Declares here name .array ty) →
    Op.Piece a here (a.lowerArrays ty size names)
      (names.flatMap fun name => size.names ++ [name]) []
  | [], _ => .nil
  | name :: names, declared => by
    obtain ⟨id, found, storable, owner⟩ :=
      ready.declares rfl (declared name List.mem_cons_self)
    have rest := lowerArrays_piece ready bound names
      fun n mem => declared n (List.mem_cons_of_mem _ mem)
    simp only [lowerArrays, List.flatMap_cons, withSymbol_of found] at rest ⊢
    exact ((lowerExpr_piece ready size .int bound).append
      ((Op.Piece.instr _).append (.store found storable owner))).append rest

theorem lowerInput_piece (ready : a.Ready) :
    (names : List Ident) → (∀ name ∈ names, a.Uses here name (· = .variable)) →
    Op.Piece a here (a.lowerInput names) names []
  | [], _ => .nil
  | name :: names, uses => by
    obtain ⟨id, found, storable, owner⟩ := ready.uses rfl (uses name List.mem_cons_self)
    have rest := lowerInput_piece ready names fun n mem => uses n (List.mem_cons_of_mem _ mem)
    simp only [lowerInput, List.flatMap_cons, withSymbol_of found] at rest ⊢
    exact ((Op.Piece.instr _).append
      ((Op.Piece.instr _).append (.store found storable owner))).append rest

theorem lowerSource_piece (ready : a.Ready) {target : Target} {value : Expr}
    (bound : target.Bound a here) (boundValue : value.Bound a here) :
    Op.Piece a here (a.lowerSource target value) (target.readNames ++ value.names) [] := by
  cases target with
  | var name =>
    obtain ⟨id, found, -, -⟩ := ready.uses rfl bound
    simp only [lowerSource, withSymbol_of found]
    exact lowerExpr_piece ready value _ boundValue
  | index array i =>
    obtain ⟨id, found, storable, owner⟩ := ready.uses rfl bound.1
    simp only [lowerSource, withSymbol_of found]
    exact ((Op.Piece.load found storable owner).append
      (lowerExpr_piece ready i .int bound.2)).append (lowerExpr_piece ready value _ boundValue)

theorem lowerStore_piece (ready : a.Ready) {target : Target} (bound : target.Bound a here) :
    Op.Piece a here (a.lowerStore target) target.writtenNames [] := by
  cases target with
  | var name =>
    obtain ⟨id, found, storable, owner⟩ := ready.uses rfl bound
    simp only [lowerStore, withSymbol_of found]
    exact .store found storable owner
  | index array i =>
    obtain ⟨id, found, -, -⟩ := ready.uses rfl bound.1
    simp only [lowerStore, withSymbol_of found]
    exact .instr _

theorem lowerSources_piece (ready : a.Ready) : (targets : List Target) → (values : List Expr) →
    targets.length = values.length → (∀ t ∈ targets, t.Bound a here) →
    Expr.BoundAll a here values →
    Op.Piece a here ((targets.zip values).flatMap fun (t, v) => a.lowerSource t v)
      (targets.flatMap Target.readNames ++ Expr.namesAll values) []
  | [], [], _, _, _ => .nil
  | target :: targets, value :: values, arity, bound, boundValues => by
    have first := lowerSource_piece ready (bound target List.mem_cons_self) boundValues.1
    have rest := lowerSources_piece ready targets values (Nat.succ.inj arity)
      (fun t mem => bound t (List.mem_cons_of_mem _ mem)) boundValues.2
    refine (first.append rest).relist fun n => ?_
    simp only [List.flatMap_cons, Expr.namesAll, List.mem_append]
    tauto

theorem lowerStores_piece (ready : a.Ready) : (targets : List Target) →
    (∀ t ∈ targets, t.Bound a here) →
    Op.Piece a here (targets.flatMap a.lowerStore) (targets.flatMap Target.writtenNames) []
  | [], _ => .nil
  | target :: targets, bound =>
    (lowerStore_piece ready (bound target List.mem_cons_self)).append
      (lowerStores_piece ready targets fun t mem => bound t (List.mem_cons_of_mem _ mem))

theorem lowerAssign_piece (ready : a.Ready) {targets : List Target} {values : List Expr}
    (arity : targets.length = values.length) (bound : ∀ t ∈ targets, t.Bound a here)
    (boundValues : Expr.BoundAll a here values) :
    Op.Piece a here (a.lowerAssign targets values)
      (targets.flatMap Target.names ++ Expr.namesAll values) [] := by
  have sources := lowerSources_piece ready targets values arity bound boundValues
  have stores := lowerStores_piece ready targets.reverse
    fun t mem => bound t (List.mem_reverse.mp mem)
  refine (sources.append stores).relist fun n => ?_
  have split (t : Target) : n ∈ t.names ↔ n ∈ t.readNames ∨ n ∈ t.writtenNames := by
    cases t <;> simp [Target.names, Target.readNames, Target.writtenNames]
  simp only [List.mem_append, List.mem_flatMap, List.mem_reverse, split]
  constructor
  · rintro ((⟨t, mem, h⟩ | h) | ⟨t, mem, h⟩)
    · exact Or.inl ⟨t, mem, Or.inl h⟩
    · exact Or.inr h
    · exact Or.inl ⟨t, mem, Or.inr h⟩
  · rintro (⟨t, mem, h | h⟩ | h)
    · exact Or.inl (Or.inl ⟨t, mem, h⟩)
    · exact Or.inr ⟨t, mem, h⟩
    · exact Or.inl (Or.inr h)

theorem lowerReturn_piece (ready : a.Ready) {n : Node} {value : Option Expr}
    (bound : (Stmt.ret n value).Bound a here) (typed : a.Returns here value) :
    Op.Piece a here (a.lowerReturn here value) (Stmt.ret n value).names [] := by
  obtain ⟨method, rfl, -⟩ := typed
  cases value with
  | none =>
    simp only [lowerReturn, Stmt.names]
    exact .instr _
  | some e =>
    simp only [lowerReturn, Stmt.names]
    exact (lowerExpr_piece ready e _ bound).ended (.instr _)

theorem lowerEnd_piece (method : SymbolId) (line : Nat) :
    Op.Piece a here (a.lowerEnd method line) [] [] := by
  unfold lowerEnd
  split
  · refine ((Op.Piece.instr _).ended (.instr _)).ended ?_
    split <;> exact (Op.Piece.instr _).ended (.instr _)
  · exact .instr _

mutual

theorem lowerStmt_piece (ready : a.Ready) : (s : Stmt) → {here : Option SymbolId} →
    s.Bound a here → s.Typed a here → Op.Piece a here (a.lowerStmt here s) s.names s.methods
  | .varDecl .., _, _, _ => by
    simp only [lowerStmt, Stmt.names, Stmt.methods]
    exact .nil
  | .arrayDecl _ ty size names, _, bound, _ => by
    simp only [lowerStmt, Stmt.names, Stmt.methods]
    exact lowerArrays_piece ready bound.1 names bound.2
  | .method _ name params result _ body, here, bound, typed => by
    obtain ⟨id, ⟨s, ids, named, -, -, kind, -⟩, boundBody⟩ := bound
    obtain ⟨id', found, typedBody⟩ := typed
    obtain rfl := Option.some.inj (named.1.symm.trans found)
    have opens := ready.opens id s named.2
      (by simp [Symbol.isMethod, kind, Bind.methodKind_params])
    have inner := (lowerStmts_piece ready body boundBody typedBody).ended
      (lowerEnd_piece id name.span.line)
    simp only [lowerStmt, Stmt.names, Stmt.methods, withSymbol_of found]
    refine ⟨⟨⟨opens, inner.inScope⟩, trivial⟩, ?_, by simp [Op.touched, symbolsOf]⟩
    have code : a.compiled ⟨name, params, result, body⟩ =
        (id, a.lowerStmts (some id) body ++ a.lowerEnd id name.span.line) := by
      simp [compiled, found]
    simp only [Op.bodiesAll, Op.bodies, List.append_nil, List.map_cons, code]
    exact (List.perm_append_comm).trans (inner.bodies.cons _)
  | .assign _ targets values, _, bound, _ => by
    simp only [lowerStmt, Stmt.names, Stmt.methods]
    exact lowerAssign_piece ready bound.1 bound.2.1 bound.2.2
  | .input _ names, _, bound, _ => by
    simp only [lowerStmt, Stmt.names, Stmt.methods]
    exact lowerInput_piece ready names bound
  | .print _ value, _, bound, _ => by
    simp only [lowerStmt, Stmt.names, Stmt.methods, lowerPrint]
    exact (lowerExpr_piece ready value _ bound).ended (.instr _)
  | .alternative n gs, _, bound, typed => by
    simp only [lowerStmt, Stmt.names, Stmt.methods]
    exact lowerChoice_piece ready gs _ bound typed
  | .iterative _ gs, _, bound, typed => by
    simp only [lowerStmt, Stmt.names, Stmt.methods]
    exact lowerLoop_piece ready gs 0 bound typed
  | .block _ _ body, _, bound, typed => by
    simp only [lowerStmt, Stmt.names, Stmt.methods]
    exact lowerStmts_piece ready body bound typed
  | .ret _ value, _, bound, typed => by
    simp only [lowerStmt, Stmt.methods]
    exact lowerReturn_piece ready bound typed
  | .call _ callee args, _, bound, _ => by
    simp only [lowerStmt, Stmt.names, Stmt.methods]
    exact lowerCall_piece ready bound.1 bound.2

theorem lowerStmts_piece (ready : a.Ready) : (ss : List Stmt) → {here : Option SymbolId} →
    Stmt.BoundAll a here ss → Stmt.TypedAll a here ss →
    Op.Piece a here (a.lowerStmts here ss) (Stmt.namesAll ss) (Stmt.methodsAll ss)
  | [], _, _, _ => by
    simp only [lowerStmts, Stmt.namesAll, Stmt.methodsAll]
    exact .nil
  | s :: ss, _, bound, typed => by
    simp only [lowerStmts, Stmt.namesAll, Stmt.methodsAll]
    exact (lowerStmt_piece ready s bound.1 typed.1).append
      (lowerStmts_piece ready ss bound.2 typed.2)

theorem lowerChoice_piece (ready : a.Ready) : (gs : List Guard) → (line : Int32) →
    {here : Option SymbolId} → Guard.BoundAll a here gs → Guard.TypedAll a here gs →
    Op.Piece a here (a.lowerChoice here line gs) (Guard.namesAll gs) (Guard.methodsAll gs)
  | [], _, _, _, _ => by
    simp only [lowerChoice, Guard.namesAll, Guard.methodsAll]
    exact (Op.Piece.instr _).ended (.instr _)
  | .mk _ cond body :: gs, line, _, bound, typed => by
    simp only [lowerChoice, Guard.namesAll, Guard.methodsAll]
    exact ((((lowerExpr_piece ready cond .boolean bound.1).ended (.jump ..)).append
      (lowerStmt_piece ready body bound.2.1 typed.2.2.1)).ended (.jump ..)).append
      (lowerChoice_piece ready gs line bound.2.2 typed.2.2.2)

theorem lowerLoop_piece (ready : a.Ready) : (gs : List Guard) → (before : Nat) →
    {here : Option SymbolId} → Guard.BoundAll a here gs → Guard.TypedAll a here gs →
    Op.Piece a here (a.lowerLoop here before gs) (Guard.namesAll gs) (Guard.methodsAll gs)
  | [], _, _, _, _ => by
    simp only [lowerLoop, Guard.namesAll, Guard.methodsAll]
    exact .nil
  | .mk _ cond body :: gs, before, _, bound, typed => by
    simp only [lowerLoop, Guard.namesAll, Guard.methodsAll]
    exact ((((lowerExpr_piece ready cond .boolean bound.1).ended (.jump ..)).append
      (lowerStmt_piece ready body bound.2.1 typed.2.2.1)).ended (.jump ..)).append
      (lowerLoop_piece ready gs _ bound.2.2 typed.2.2.2)

end

end Analysis

namespace Program
variable {p : Program} {a : Analysis}

theorem Linked.opens (linked : p.Linked a) (proper : Stmt.ProperAll p.body)
    (typed : ∀ (i : Nat) (s : Symbol), a.symbols[i]? = some s → (∀ ps, s.kind ≠ .procedure ps) →
      s.ty.isTerminal = true) {i : Nat} {s : Symbol} (found : a.symbols[i]? = some s)
    (isMethod : s.isMethod = true) : a.Opens i := by
  obtain ⟨m, mem, ⟨t, ids, named, name, -, kind, -, distinct, -⟩, -⟩ :=
    linked.method found isMethod
  obtain rfl := Option.some.inj (found.symm.trans named.2)
  refine ⟨⟨s, found, isMethod, name ▸ proper.methods m mem⟩, ?_, fun q mem => ?_, ?_⟩
  · unfold Assemble.resultOf
    split
    · rename_i function
      have notProcedure : ∀ ps, s.kind ≠ .procedure ps := by
        intro ps isProcedure
        simp [Analysis.symbolKind, found, isProcedure, SymbolKind.isFunction] at function
      obtain ⟨slot, ok⟩ := Slot.scalar_ok (typed i s found notProcedure)
      refine ⟨some slot, ?_⟩
      rw [show a.symbolType i = s.ty by simp [Analysis.symbolType, found], ok]
      rfl
    · exact ⟨none, rfl⟩
  · obtain ⟨t, found', kind', owner⟩ := linked.param mem
    refine ⟨Analysis.storable_of found' (by simp [Symbol.isMethod, kind', SymbolKind.params?])
      (typed q t found' (by simp [kind'])), ?_⟩
    simp [Analysis.ownerOf, found', owner]
  · rw [named.params (kind ▸ Bind.methodKind_params m.result ids)]
    exact distinct

theorem analyze_ready (formed : p.WellFormed) (h : p.analyze = .ok a) : a.Ready where
  typed _ _ := analyze_symbols_typed formed h
  opens _ _ :=
    (analyze_linked formed h).opens formed.proper fun _ _ => analyze_symbols_typed formed h

/-- The code of a program, with all its methods. -/
theorem lower_piece (formed : p.WellFormed) (h : p.analyze = .ok a) :
    Op.Piece a none (a.lower p) (Stmt.namesAll p.body) p.methods :=
  (Analysis.lowerStmts_piece (analyze_ready formed h) p.body (analyze_linked formed h).bound
    (analyze_body_typed formed h)).ended (.instr _)

/-- The body of a method, with the methods in it. -/
theorem method_piece (formed : p.WellFormed) (h : p.analyze = .ok a) {m : Method}
    (mem : m ∈ p.methods) :
    a.bindings[m.name.id]? = some (a.compiled m).1 ∧
      Op.Piece a (some (a.compiled m).1) (a.compiled m).2 (Stmt.namesAll m.body)
        (Stmt.methodsAll m.body) := by
  obtain ⟨id, named, typed⟩ := (analyze_body_typed formed h).methods m mem
  obtain ⟨id', ⟨s, ids, named', -⟩, bound⟩ := (analyze_linked formed h).bound.methods m mem
  obtain rfl := Option.some.inj (named.symm.trans named'.1)
  have code : a.compiled m = (id, a.lowerStmts (some id) m.body ++
      a.lowerEnd id m.name.span.line) := by
    simp [Analysis.compiled, named]
  rw [code]
  exact ⟨named, (Analysis.lowerStmts_piece (analyze_ready formed h) m.body bound typed).ended
    (Analysis.lowerEnd_piece id m.name.span.line)⟩

/-- No two methods share a symbol. -/
theorem Linked.compiled_nodup (linked : p.Linked a) :
    (p.methods.map fun m => (a.compiled m).1).Nodup := by
  obtain ⟨ms, found, sorted⟩ := linked.ascending
  have same : (p.methods.map fun m => (a.compiled m).1) = ms := by
    have each := congrArg (List.map fun o => o.getD 0) found
    simpa [Analysis.compiled, List.map_map, Function.comp_def] using each
  rw [same]
  exact sorted.imp Nat.ne_of_lt

end Program

end Guarded
