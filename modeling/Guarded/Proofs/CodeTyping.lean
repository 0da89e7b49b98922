import Guarded.Proofs.Allocation
import Guarded.Proofs.Simulation
import Guarded.Proofs.StackTyping

/-!
Compiled code is typed. The code of an expression leaves one operand of the type that is needed, and
the code of a statement leaves nothing, so every routine of a unit can be carried out from its start
without ever meeting an operand of another type than it takes.

Where a piece of code stands does not matter for what it does to the stack; only a jump back to the
head of a loop leaves the piece it is in.
-/

namespace Guarded

namespace Ty

/-- The slot of a single value. -/
def slot : Ty → Slot
  | float => .float
  | boolean => .boolean
  | undefined | num | int => .int

/-- The slot of an array with elements of a type. -/
def arraySlot : Ty → Slot
  | float => .floatArray
  | boolean => .booleanArray
  | undefined | num | int => .intArray

theorem cases_of_terminal {ty : Ty} (terminal : ty.isTerminal = true) :
    ty = .int ∨ ty = .float ∨ ty = .boolean := by
  cases ty <;> simp_all [isTerminal]

theorem scalar_eq {ty : Ty} (terminal : ty.isTerminal = true) : Slot.scalar ty = .ok ty.slot := by
  cases ty <;> first | rfl | cases terminal

theorem array_eq {ty : Ty} (terminal : ty.isTerminal = true) :
    Slot.array ty = .ok ty.arraySlot := by
  cases ty <;> first | rfl | cases terminal

theorem arraySlot_element (ty : Ty) : ty.arraySlot.element? = some ty.slot := by
  cases ty <;> rfl

end Ty

/-- What is compared but is not a float is of one type. -/
theorem BinOp.Types.unlike_float {op : BinOp} {left right result : Ty}
    (types : op.Types left right result) (known : op.isRelational = true ∨ op.isEquality = true)
    (terminal : left.isTerminal = true) (terminal' : right.isTerminal = true)
    (noFloat : left ≠ .float) (noFloat' : right ≠ .float) :
    (left = .int ∨ left = .boolean) ∧ right = left := by
  cases op <;> simp [BinOp.isRelational, BinOp.isEquality] at known
  case lt | gt | le | ge =>
    have isInt := Ty.eq_int types.1 terminal noFloat
    exact ⟨Or.inl isInt, (Ty.eq_int types.2.1 terminal' noFloat').trans isInt.symm⟩
  case eq | ne =>
    refine ⟨?_, types.1.symm⟩
    rcases Ty.cases_of_terminal terminal with isInt | isFloat | isBoolean
    · exact Or.inl isInt
    · exact absurd isFloat noFloat
    · exact Or.inr isBoolean

namespace Op

/-- Wherever the code stands in the routine, it turns the one shape into the other. -/
def Shapes (a : Analysis) (places : Places) (u : ObjectUnit) (r : Routine) (ops : List Op)
    (shape shape' : Shape) : Prop :=
  ∀ pos, CodeAt a places r.code pos ops → r.Runs u pos shape (pos + sizeAll ops) shape'

namespace Shapes
variable {a : Analysis} {places : Places} {u : ObjectUnit} {r : Routine}
variable {xs ys : List Op} {s s' s'' : Shape}

theorem nil (s : Shape) : Shapes a places u r [] s s :=
  fun pos _ => .refl pos s

theorem append (first : Shapes a places u r xs s s') (second : Shapes a places u r ys s' s'') :
    Shapes a places u r (xs ++ ys) s s'' := by
  intro pos code
  obtain ⟨codeX, codeY⟩ := codeAt_append.mp code
  rw [sizeAll_append, ← Nat.add_assoc]
  exact (first pos codeX).trans (second _ codeY)

theorem cons {op : Op} (first : Shapes a places u r [op] s s')
    (second : Shapes a places u r ys s' s'') : Shapes a places u r (op :: ys) s s'' :=
  first.append second

theorem instr {i : Instr} {takes leaves rest : Shape} (turns : i.Turns u r takes leaves)
    (before : takes ++ rest = s) (later : leaves ++ rest = s') :
    Shapes a places u r [.instr i] s s' := by
  subst before later
  intro pos code
  obtain ⟨i, found, rfl⟩ := code.1 rfl
  exact .turn found turns rest

/-- A method takes no room where it is declared. -/
theorem method (id : SymbolId) (body : List Op) (s : Shape) :
    Shapes a places u r [.method id body] s s :=
  fun pos _ => .refl pos s

end Shapes

end Op

section Tests
variable {a : Analysis} {places : Places} {u : ObjectUnit} {r : Routine} {pos : Nat}
variable {s rest : Shape}

/-- A test leaves a truth value, whichever way its jump goes. -/
theorem Routine.TestsAt.runs {jump : Nat → Instr} (test : r.TestsAt jump pos)
    (jumps : ∀ next : Nat → Shape → Prop, next (pos + 1) rest → next (pos + 3) rest →
      r.Allows u next pos s) : r.Runs u pos s (pos + 4) (.of .boolean :: rest) := by
  refine Or.inr (.step (jumps _ ?_ ?_))
  · have on : r.Runs u (pos + 2) (.of .boolean :: rest) (pos + 4) (.of .boolean :: rest) :=
      Or.inr (.step (.goto test.past (Routine.Runs.refl _ _)))
    exact (Routine.Runs.turn test.one (.boolean true) rest).trans on
  · exact Routine.Runs.turn test.zero (.boolean false) rest

theorem Analysis.truth_zero_shapes (cond : Cond) (rest : Shape) :
    Op.Shapes a places u r (truth (.onZero cond)) (.of .boolean :: rest)
      (.of .boolean :: rest) := by
  intro pos code
  exact code.tests.runs fun next on away => .branch code.tests.jump on away

theorem Analysis.truth_compare_shapes (cond : Cond) {slot : Slot}
    (single : slot = .int ∨ slot = .boolean) (rest : Shape) :
    Op.Shapes a places u r (truth (.onCompare cond)) (.of slot :: .of slot :: rest)
      (.of .boolean :: rest) := by
  intro pos code
  exact code.tests.runs fun next on away => .branchCompare code.tests.jump single on away

/-- The order of two floats is tested right after it is found. -/
theorem Analysis.compareFloats_shapes (cond cond' : Cond) (rest : Shape) :
    Op.Shapes a places u r ([.instr (floatCompare cond)] ++ truth (.onZero cond'))
      (.of .float :: .of .float :: rest) (.of .boolean :: rest) := by
  intro pos code
  obtain ⟨first, test⟩ := Op.codeAt_append.mp code
  obtain ⟨i, found, rfl⟩ := first.1 rfl
  have signature : (floatCompare cond).signature? =
      some ([.of .float, .of .float], [.of .int]) := by
    cases cond <;> rfl
  refine (Routine.Runs.turn found (.fixed signature) rest).trans ?_
  refine test.tests.runs fun next on away => ?_
  refine .branchOrder test.tests.jump ⟨pos, rfl, ?_⟩ on away
  cases cond
  case lt | le => exact Or.inr found
  all_goals exact Or.inl found

theorem Analysis.cast_shapes {t t' : Ty} (compatible : t.Compatible t')
    (terminal : t.isTerminal = true) (terminal' : t'.isTerminal = true) (rest : Shape) :
    Op.Shapes a places u r (cast t t') (.of t.slot :: rest) (.of t'.slot :: rest) := by
  have i2f : Op.Shapes a places u r [.instr .i2f] (.of .int :: rest) (.of .float :: rest) :=
    .instr (.fixed rfl) rfl rfl
  have f2i : Op.Shapes a places u r [.instr .f2i] (.of .float :: rest) (.of .int :: rest) :=
    .instr (.fixed rfl) rfl rfl
  rcases Ty.cases_of_terminal terminal with rfl | rfl | rfl <;>
    rcases Ty.cases_of_terminal terminal' with rfl | rfl | rfl
  · exact .nil _
  · exact i2f
  · exact absurd compatible (by decide)
  · exact f2i
  · exact .nil _
  · exact absurd compatible (by decide)
  · exact absurd compatible (by decide)
  · exact absurd compatible (by decide)
  · exact .nil _

end Tests

/-- Where the code of the method `here` stands: a routine with a slot for each local, and with the
result of the method. -/
structure Scene (p : Program) (a : Analysis) (places : Places) (u : ObjectUnit)
    (here : Option SymbolId) (r : Routine) : Prop where
  compiled : p.Compiled a places u
  ready : a.Ready
  linked : p.Linked a
  slots : ∀ (x : SymbolId) (n : Nat), places[x]? = some (.slot n) → a.ownerOf x = here →
    ∃ slot, Assemble.slotOf a x = .ok slot ∧ r.locals[n]? = some slot
  result : ∀ method, here = some method → Assemble.resultOf a method = .ok r.result

namespace Scene
variable {p : Program} {a : Analysis} {places : Places} {u : ObjectUnit}
variable {here : Option SymbolId} {r : Routine} (scene : Scene p a places u here r)
include scene

/-- The instructions that read and write a place. -/
theorem access {x : SymbolId} (storable : a.Storable x)
    (owner : a.ownerOf x = none ∨ a.ownerOf x = here) {place : Place} {slot : Slot}
    (found : places[x]? = some place) (ok : Assemble.slotOf a x = .ok slot) :
    (Assemble.loadInstr place slot).Turns u r [] [.of slot] ∧
      (Assemble.storeInstr place slot).Turns u r [.of slot] [] := by
  rcases scene.compiled.place storable found with ⟨-, f, rfl⟩ | ⟨m, n, own, rfl⟩
  · obtain ⟨-, ⟨slot', ok', mem⟩, -⟩ := scene.compiled.fields x f found
    obtain rfl := Except.ok.inj (ok.symm.trans ok')
    exact ⟨.getstatic mem, .putstatic mem⟩
  · obtain ⟨slot', ok', there⟩ := scene.slots x n found (owner.resolve_left (by simp [own]))
    obtain rfl := Except.ok.inj (ok.symm.trans ok')
    refine ⟨.load ?_ there, .store ?_ there⟩
    · cases slot <;> simp [Assemble.loadInstr, Slot.isArray]
    · cases slot <;> simp [Assemble.storeInstr, Slot.isArray]

theorem load_shapes {x : SymbolId} (storable : a.Storable x)
    (owner : a.ownerOf x = none ∨ a.ownerOf x = here) {slot : Slot}
    (ok : Assemble.slotOf a x = .ok slot) (rest : Shape) :
    Op.Shapes a places u r [.load x] rest (.of slot :: rest) := by
  intro pos code
  obtain ⟨i, found, place, slot', placed, ok', rfl⟩ := code.1 rfl
  obtain rfl := Except.ok.inj (ok.symm.trans ok')
  exact .turn found (scene.access storable owner placed ok).1 rest

theorem store_shapes {x : SymbolId} (storable : a.Storable x)
    (owner : a.ownerOf x = none ∨ a.ownerOf x = here) {slot : Slot}
    (ok : Assemble.slotOf a x = .ok slot) (rest : Shape) :
    Op.Shapes a places u r [.store x] (.of slot :: rest) rest := by
  intro pos code
  obtain ⟨i, found, place, slot', placed, ok', rfl⟩ := code.1 rfl
  obtain rfl := Except.ok.inj (ok.symm.trans ok')
  exact .turn found (scene.access storable owner placed ok).2 rest

/-- What is known of a variable or array that is used. -/
theorem uses {name : Ident} {kind : SymbolKind} (plain : kind.params? = none)
    (use : a.Uses here name (· = kind)) :
    ∃ id, a.bindings[name.id]? = some id ∧ a.symbolKind id = kind ∧ a.Storable id ∧
      (a.ownerOf id = none ∨ a.ownerOf id = here) ∧ (a.symbolType id).isTerminal = true := by
  obtain ⟨id, found, storable, owner⟩ := scene.ready.uses plain use
  obtain ⟨id', s, named, rfl, -⟩ := use
  obtain rfl := Option.some.inj (found.symm.trans named.1)
  have terminal := scene.ready.typed id s named.2 fun ps isProcedure => by
    simp [isProcedure, SymbolKind.params?] at plain
  exact ⟨id, found, by simp [Analysis.symbolKind, named.2], storable, owner,
    by simpa [Analysis.symbolType, named.2] using terminal⟩

end Scene

namespace Analysis
variable {a : Analysis}

theorem slotOf_variable {x : SymbolId} (kind : a.symbolKind x = .variable)
    (terminal : (a.symbolType x).isTerminal = true) :
    Assemble.slotOf a x = .ok (a.symbolType x).slot := by
  simp only [Assemble.slotOf, kind]
  exact Ty.scalar_eq terminal

theorem slotOf_array {x : SymbolId} (kind : a.symbolKind x = .array)
    (terminal : (a.symbolType x).isTerminal = true) :
    Assemble.slotOf a x = .ok (a.symbolType x).arraySlot := by
  simp only [Assemble.slotOf, kind]
  exact Ty.array_eq terminal

/-- The slots of variables are those of their types. -/
theorem slots_of_variables {xs : List SymbolId} {slots : List Slot} (h : SlotsOf a xs slots)
    (plain : ∀ x ∈ xs, a.symbolKind x = .variable ∧ (a.symbolType x).isTerminal = true) :
    slots = (xs.map a.symbolType).map Ty.slot := by
  induction h with
  | nil => rfl
  | @cons x slot xs slots ok rest ih =>
    obtain ⟨⟨kind, terminal⟩, plain⟩ := List.forall_mem_cons.mp plain
    obtain rfl := Except.ok.inj (ok.symm.trans (slotOf_variable kind terminal))
    rw [ih plain]
    rfl

theorem resultOf_function {id : SymbolId} (isFunction : (a.symbolKind id).isFunction = true)
    (terminal : (a.symbolType id).isTerminal = true) :
    Assemble.resultOf a id = .ok (some (a.symbolType id).slot) := by
  rw [Assemble.resultOf, if_pos isFunction, Ty.scalar_eq terminal]
  rfl

theorem resultOf_procedure {id : SymbolId} (isProcedure : (a.symbolKind id).isFunction = false) :
    Assemble.resultOf a id = .ok none := by
  rw [Assemble.resultOf, if_neg (by simp [isProcedure])]

/-- The operands of a call, the last argument on top. -/
def argShape (a : Analysis) (id : SymbolId) : Shape :=
  ((a.paramTypes id).map fun ty => .of ty.slot).reverse

/-- What a call leaves. -/
def resultShape (a : Analysis) (id : SymbolId) : Shape :=
  if (a.symbolKind id).isFunction then [.of (a.symbolType id).slot] else []

end Analysis

namespace Scene
variable {p : Program} {a : Analysis} {places : Places} {u : ObjectUnit}
variable {here : Option SymbolId} {r : Routine} (scene : Scene p a places u here r)
include scene

/-- Parameters are variables. -/
theorem params {id x : SymbolId} (mem : x ∈ a.params id) :
    a.symbolKind x = .variable ∧ (a.symbolType x).isTerminal = true := by
  obtain ⟨s, found, kind, -⟩ := scene.linked.param mem
  have terminal := scene.ready.typed x s found (by simp [kind])
  exact ⟨by simp [Analysis.symbolKind, found, kind],
    by simpa [Analysis.symbolType, found] using terminal⟩

/-- The result of a method is one of the type of its symbol. -/
theorem result_eq {id : SymbolId} {sym : Symbol} (known : a.symbols[id]? = some sym)
    {result : Option Slot} (ok : Assemble.resultOf a id = .ok result) :
    result.toList.map .of = a.resultShape id := by
  cases isFunction : (a.symbolKind id).isFunction with
  | true =>
    have terminal : (a.symbolType id).isTerminal = true := by
      have final := scene.ready.typed id sym known fun ps isProcedure => by
        simp [Analysis.symbolKind, known, isProcedure, SymbolKind.isFunction] at isFunction
      simpa [Analysis.symbolType, known] using final
    obtain rfl := Except.ok.inj (ok.symm.trans (Analysis.resultOf_function isFunction terminal))
    rw [Analysis.resultShape, if_pos isFunction]
    rfl
  | false =>
    obtain rfl := Except.ok.inj (ok.symm.trans (Analysis.resultOf_procedure isFunction))
    rw [Analysis.resultShape, if_neg (by simp [isFunction])]
    rfl

theorem invoke_shapes {id : SymbolId} {sym : Symbol} (known : a.symbols[id]? = some sym)
    (isMethod : sym.isMethod = true) (rest : Shape) :
    Op.Shapes a places u r [.invoke id] (a.argShape id ++ rest) (a.resultShape id ++ rest) := by
  intro pos code
  obtain ⟨i, found, name, placed, rfl⟩ := code.1 rfl
  obtain ⟨m, mem, ⟨_, _, named, -⟩, -⟩ := scene.linked.method known isMethod
  obtain ⟨callee, laid, search⟩ := scene.compiled.routines m mem
  have same : (a.compiled m).1 = id := by simp [Analysis.compiled, named.1]
  obtain rfl : callee.name = name := by simpa [same, placed, eq_comm] using laid.name
  have params := Analysis.slots_of_variables laid.params fun x inside => scene.params inside
  have result := scene.result_eq known (same ▸ laid.result)
  have run := Routine.Runs.turn (u := u) found (.invoke search) rest
  rw [result, params, same] at run
  have args : (((a.params id).map a.symbolType).map Ty.slot).reverse.map Cell.of =
      a.argShape id := by
    simp [Analysis.argShape, Analysis.paramTypes, Function.comp_def]
  rw [args] at run
  exact run

end Scene

namespace Expr

/-- The code of the expression leaves one operand, of the type that is needed. -/
def Leaves (a : Analysis) (places : Places) (u : ObjectUnit) (r : Routine) (e : Expr) : Prop :=
  ∀ (needed : Ty) (rest : Shape), (a.typeOf e.id).Compatible needed → needed.isTerminal = true →
    Op.Shapes a places u r (a.lowerExpr needed e) rest (.of needed.slot :: rest)

/-- The code of arguments leaves one operand for each, of the types of the parameters. -/
def AllLeave (a : Analysis) (places : Places) (u : ObjectUnit) (r : Routine) (args : List Expr) :
    Prop :=
  ∀ (tys : List Ty) (rest : Shape), List.Forall₂ (fun arg ty =>
      (a.typeOf arg.id).Compatible ty ∧ ty.isTerminal = true) args tys →
    Op.Shapes a places u r (a.lowerArgs args tys) rest
      ((tys.map fun ty => .of ty.slot).reverse ++ rest)

/-- Arguments and a call. -/
theorem AllLeave.call_shapes {p : Program} {a : Analysis} {places : Places} {u : ObjectUnit}
    {here : Option SymbolId} {r : Routine} {callee : Ident} {args : List Expr}
    (h : AllLeave a places u r args) (scene : Scene p a places u here r) {id : SymbolId}
    {sym : Symbol} (named : a.Names callee id sym) (isMethod : sym.isMethod = true)
    (passes : a.Passes callee args) (rest : Shape) :
    Op.Shapes a places u r (a.lowerArgs args (a.paramTypes id) ++ [.invoke id]) rest
      (a.resultShape id ++ rest) := by
  obtain ⟨id', found, passes⟩ := passes
  obtain rfl := Option.some.inj (named.1.symm.trans found)
  refine (h (a.paramTypes id) rest ?_).append (scene.invoke_shapes named.2 isMethod rest)
  exact List.forall₂_map_right_iff.mpr passes

namespace Leaves
variable {p : Program} {a : Analysis} {places : Places} {u : ObjectUnit}
variable {here : Option SymbolId} {r : Routine} {k : Node}

theorem int {v : Int32} (typed : a.typeOf k.id = .int) : Leaves a places u r (.int k v) := by
  intro needed rest compatible terminal
  replace compatible : (a.typeOf k.id).Compatible needed := compatible
  rw [typed] at compatible
  rcases Ty.cases_of_terminal terminal with rfl | rfl | rfl
  · exact .instr (.int v) rfl rfl
  · exact .instr (.fixed rfl) rfl rfl
  · exact absurd compatible (by decide)

theorem float {v : Float32} (typed : a.typeOf k.id = .float) :
    Leaves a places u r (.float k v) := by
  intro needed rest compatible terminal
  replace compatible : (a.typeOf k.id).Compatible needed := compatible
  rw [typed] at compatible
  rcases Ty.cases_of_terminal terminal with rfl | rfl | rfl
  · exact .instr (.int _) rfl rfl
  · exact .instr (.fixed rfl) rfl rfl
  · exact absurd compatible (by decide)

theorem bool {b : Bool} (typed : a.typeOf k.id = .boolean) : Leaves a places u r (.bool k b) := by
  intro needed rest compatible terminal
  replace compatible : (a.typeOf k.id).Compatible needed := compatible
  rw [typed] at compatible
  rcases Ty.cases_of_terminal terminal with rfl | rfl | rfl
  · exact absurd compatible (by decide)
  · exact absurd compatible (by decide)
  · exact .instr (.boolean b) rfl rfl

theorem paren {inner : Expr} (typed : a.typeOf k.id = a.typeOf inner.id)
    (h : Leaves a places u r inner) : Leaves a places u r (.paren k inner) := by
  intro needed rest compatible terminal
  rw [Analysis.lowerExpr]
  exact h needed rest (typed ▸ compatible) terminal

/-- An operand of the type of its node, and then its conversion. -/
theorem converted {e : Expr} (code : List Op) (typed : (a.typeOf e.id).isTerminal = true)
    (lowered : ∀ needed, a.lowerExpr needed e = code ++ Analysis.cast (a.typeOf e.id) needed)
    (own : ∀ rest, Op.Shapes a places u r code rest (.of (a.typeOf e.id).slot :: rest)) :
    Leaves a places u r e := by
  intro needed rest compatible terminal
  rw [lowered]
  exact (own rest).append (Analysis.cast_shapes compatible typed terminal rest)

theorem var (scene : Scene p a places u here r) {name : Ident}
    (use : a.Uses here name (· = .variable)) (typed : a.TypedAs k name) :
    Leaves a places u r (.var k name) := by
  obtain ⟨id, found, kind, storable, owner, terminal⟩ := scene.uses rfl use
  obtain ⟨id', found', same, -⟩ := typed
  obtain rfl := Option.some.inj (found.symm.trans found')
  refine converted [.load id] (a.terminal_of_eq same terminal) (fun needed => ?_) fun rest => ?_
  · rw [Analysis.lowerExpr, Analysis.withSymbol_of found]
    rfl
  · show Op.Shapes a places u r _ rest (.of (a.typeOf k.id).slot :: rest)
    rw [same]
    exact scene.load_shapes storable owner (Analysis.slotOf_variable kind terminal) rest

theorem index (scene : Scene p a places u here r) {array : Ident} {i : Expr}
    (use : a.Uses here array (· = .array)) (typed : a.TypedAs k array)
    (isInt : a.typeOf i.id = .int) (h : Leaves a places u r i) :
    Leaves a places u r (.index k array i) := by
  obtain ⟨id, found, kind, storable, owner, terminal⟩ := scene.uses rfl use
  obtain ⟨id', found', same, -⟩ := typed
  obtain rfl := Option.some.inj (found.symm.trans found')
  refine converted ([.load id] ++ a.lowerExpr .int i ++
      [.instr (if a.typeOf k.id = .float then .faload else .iaload)])
    (a.terminal_of_eq same terminal) (fun needed => ?_) fun rest => ?_
  · rw [Analysis.lowerExpr, Analysis.withSymbol_of found]
    rfl
  · show Op.Shapes a places u r _ rest (.of (a.typeOf k.id).slot :: rest)
    rw [same]
    have array := scene.load_shapes storable owner (Analysis.slotOf_array kind terminal) rest
    have position := h .int (.of (a.symbolType id).arraySlot :: rest) (Ty.compatible_of_eq isInt rfl) rfl
    refine (array.append position).append (.instr (.getElement ?_ (Ty.arraySlot_element _)) rfl rfl)
    split
    · exact Or.inr rfl
    · exact Or.inl rfl

theorem call (scene : Scene p a places u here r) {callee : Ident} {args : List Expr}
    (use : a.Uses here callee fun kind => ∃ ps, kind = .function ps ∧ ps.length = args.length)
    (typed : a.TypedAs k callee) (passes : a.Passes callee args)
    (h : AllLeave a places u r args) : Leaves a places u r (.call k callee args) := by
  obtain ⟨id, sym, named, ⟨ps, kind, -⟩, -⟩ := use
  obtain ⟨id', found, same, terminal⟩ := typed
  obtain rfl := Option.some.inj (named.1.symm.trans found)
  have isMethod : sym.isMethod = true := by simp [Symbol.isMethod, kind, SymbolKind.params?]
  have result : a.resultShape id = [.of (a.symbolType id).slot] := by
    simp [Analysis.resultShape, Analysis.symbolKind, named.2, kind, SymbolKind.isFunction]
  refine converted (a.lowerArgs args (a.paramTypes id) ++ [.invoke id])
    (a.terminal_of_eq same terminal) (fun needed => ?_) fun rest => ?_
  · rw [Analysis.lowerExpr, Analysis.withSymbol_of found]
    rfl
  · have run := h.call_shapes scene named isMethod passes rest
    rw [result] at run
    show Op.Shapes a places u r _ rest (.of (a.typeOf k.id).slot :: rest)
    rw [same]
    exact run

theorem neg {operand : Expr} (typed : operand.Typed a)
    (same : a.typeOf k.id = a.typeOf operand.id)
    (numeric : (a.typeOf operand.id).isNumeric = true) (h : Leaves a places u r operand) :
    Leaves a places u r (.unary k .neg operand) := by
  have terminal : (a.typeOf k.id).isTerminal = true := a.terminal_of_eq same typed.terminal
  refine converted (a.lowerExpr (a.typeOf k.id) operand ++
      [.instr (if a.typeOf k.id = .float then .fneg else .ineg)]) terminal
    (fun needed => ?_) fun rest => ?_
  · rw [Analysis.lowerExpr]
    rfl
  · refine (h _ rest (Ty.compatible_of_eq same.symm terminal) terminal).append ?_
    show Op.Shapes a places u r _ _ (.of (a.typeOf k.id).slot :: rest)
    rw [← same] at numeric
    rcases Ty.cases_of_terminal terminal with isInt | isFloat | isBoolean
    · rw [isInt]
      exact .instr (.fixed rfl) rfl rfl
    · rw [isFloat]
      exact .instr (.fixed rfl) rfl rfl
    · rw [isBoolean] at numeric
      cases numeric

theorem not {operand : Expr} (isBoolean : a.typeOf operand.id = .boolean)
    (same : a.typeOf k.id = .boolean) (h : Leaves a places u r operand) :
    Leaves a places u r (.unary k .not operand) := by
  refine converted (a.lowerExpr .boolean operand ++ Analysis.truth (.onZero .ne))
    (a.terminal_of_eq same rfl) (fun needed => ?_) fun rest => ?_
  · rw [Analysis.lowerExpr]
    rfl
  · show Op.Shapes a places u r _ rest (.of (a.typeOf k.id).slot :: rest)
    rw [same]
    exact (h .boolean rest (Ty.compatible_of_eq isBoolean rfl) rfl).append
      (Analysis.truth_zero_shapes .ne rest)

section Binary
variable {op : BinOp} {lhs rhs : Expr}

/-- Two operands of one type, and what is done with them. -/
theorem operands (t : Ty) (last : List Op) (left : Leaves a places u r lhs)
    (right : Leaves a places u r rhs) (fits : (a.typeOf lhs.id).Compatible t)
    (fits' : (a.typeOf rhs.id).Compatible t) (terminal : t.isTerminal = true)
    (typed : (a.typeOf k.id).isTerminal = true)
    (lowered : ∀ needed, a.lowerExpr needed (.binary k op lhs rhs) =
      a.lowerExpr t lhs ++ a.lowerExpr t rhs ++ last ++ Analysis.cast (a.typeOf k.id) needed)
    (done : ∀ rest, Op.Shapes a places u r last (.of t.slot :: .of t.slot :: rest)
      (.of (a.typeOf k.id).slot :: rest)) : Leaves a places u r (.binary k op lhs rhs) := by
  refine converted (a.lowerExpr t lhs ++ a.lowerExpr t rhs ++ last) typed lowered fun rest => ?_
  exact ((left t rest fits terminal).append (right t _ fits' terminal)).append (done rest)

theorem arithmetic (known : op = .add ∨ op = .sub ∨ op = .mul) (left : Leaves a places u r lhs)
    (right : Leaves a places u r rhs)
    (types : op.Types (a.typeOf lhs.id) (a.typeOf rhs.id) (a.typeOf k.id)) :
    Leaves a places u r (.binary k op lhs rhs) := by
  have terminal := types.terminal
  have facts : (a.typeOf lhs.id).isNumeric = true ∧ (a.typeOf rhs.id).isNumeric = true ∧
      (a.typeOf k.id = .float ∨ a.typeOf k.id = .int) := by
    rcases known with rfl | rfl | rfl <;>
      exact ⟨types.1, types.2.1, by rw [types.2.2]; split <;> simp⟩
  obtain ⟨numeric, numeric', result⟩ := facts
  have isNumber : (a.typeOf k.id).isNumeric = true := by
    rcases result with isFloat | isInt
    · rw [isFloat]
      rfl
    · rw [isInt]
      rfl
  refine operands (a.typeOf k.id) [.instr (Analysis.arithmetic op (a.typeOf k.id = .float))] left
    right (Or.inr ⟨numeric, isNumber⟩) (Or.inr ⟨numeric', isNumber⟩) terminal terminal
    (fun needed => ?_) fun rest => ?_
  · rcases known with rfl | rfl | rfl <;> simp only [Analysis.lowerExpr]
  · rcases result with isFloat | isInt
    · rw [isFloat]
      rcases known with rfl | rfl | rfl <;> exact .instr (.fixed rfl) rfl rfl
    · rw [isInt]
      rcases known with rfl | rfl | rfl <;> exact .instr (.fixed rfl) rfl rfl

theorem slash (left : Leaves a places u r lhs) (right : Leaves a places u r rhs)
    (types : BinOp.Types .slash (a.typeOf lhs.id) (a.typeOf rhs.id) (a.typeOf k.id)) :
    Leaves a places u r (.binary k .slash lhs rhs) := by
  obtain ⟨numeric, numeric', same⟩ := types
  refine operands .float [.instr .fdiv] left right (Or.inr ⟨numeric, rfl⟩)
    (Or.inr ⟨numeric', rfl⟩) rfl (a.terminal_of_eq same rfl) (fun needed => ?_) fun rest => ?_
  · simp only [Analysis.lowerExpr]
  · rw [same]
    exact .instr (.fixed rfl) rfl rfl

/-- An operation with operands and result of one type. -/
theorem uniform {i : Instr} (t : Ty) (signature : i.signature? =
      some ([.of t.slot, .of t.slot], [.of t.slot]))
    (terminal : t.isTerminal = true) (left : Leaves a places u r lhs)
    (right : Leaves a places u r rhs) (same : a.typeOf lhs.id = t) (same' : a.typeOf rhs.id = t)
    (result : a.typeOf k.id = t)
    (lowered : ∀ needed, a.lowerExpr needed (.binary k op lhs rhs) =
      a.lowerExpr t lhs ++ a.lowerExpr t rhs ++ [.instr i] ++
        Analysis.cast (a.typeOf k.id) needed) :
    Leaves a places u r (.binary k op lhs rhs) := by
  refine operands t [.instr i] left right (Ty.compatible_of_eq same terminal)
    (Ty.compatible_of_eq same' terminal) terminal (a.terminal_of_eq result terminal) lowered
    fun rest => ?_
  rw [result]
  exact .instr (.fixed signature) rfl rfl

/-- Floats are compared with each other, integers too, and so are truth values. -/
theorem comparison (known : op.isRelational = true ∨ op.isEquality = true)
    (typed : lhs.Typed a) (typed' : rhs.Typed a) (left : Leaves a places u r lhs)
    (right : Leaves a places u r rhs)
    (types : op.Types (a.typeOf lhs.id) (a.typeOf rhs.id) (a.typeOf k.id)) :
    Leaves a places u r (.binary k op lhs rhs) := by
  have same : a.typeOf k.id = .boolean := types.comparison known
  by_cases isFloat : a.typeOf lhs.id = .float ∨ a.typeOf rhs.id = .float
  · have numeric : (a.typeOf lhs.id).isNumeric = true ∧ (a.typeOf rhs.id).isNumeric = true := by
      cases op <;> simp [BinOp.isRelational, BinOp.isEquality] at known
      case lt | gt | le | ge => exact ⟨types.1, types.2.1⟩
      case eq | ne =>
        have equal : a.typeOf lhs.id = a.typeOf rhs.id := types.1
        rcases isFloat with isFloat | isFloat
        · exact ⟨by rw [isFloat]; rfl, by rw [← equal, isFloat]; rfl⟩
        · exact ⟨by rw [equal, isFloat]; rfl, by rw [isFloat]; rfl⟩
    refine operands .float ([.instr (Analysis.floatCompare (Analysis.condition op))] ++
        Analysis.truth (.onZero (Analysis.condition op).negate)) left right
      (Or.inr ⟨numeric.1, rfl⟩) (Or.inr ⟨numeric.2, rfl⟩) rfl (a.terminal_of_eq same rfl)
      (fun needed => ?_) fun rest => ?_
    · have floats :
          (decide (a.typeOf lhs.id = .float) || decide (a.typeOf rhs.id = .float)) = true := by
        simpa using isFloat
      cases op <;> simp [BinOp.isRelational, BinOp.isEquality] at known
      all_goals simp only [Analysis.lowerExpr, floats, if_true, List.append_assoc]
    · rw [same]
      exact Analysis.compareFloats_shapes _ _ rest
  · rw [not_or] at isFloat
    have operand : (a.typeOf lhs.id = .int ∨ a.typeOf lhs.id = .boolean) ∧
        a.typeOf rhs.id = a.typeOf lhs.id :=
      types.unlike_float known typed.terminal typed'.terminal isFloat.1 isFloat.2
    have single : (a.typeOf lhs.id).slot = .int ∨ (a.typeOf lhs.id).slot = .boolean := by
      rcases operand.1 with isInt | isBoolean
      · exact Or.inl (by rw [isInt]; rfl)
      · exact Or.inr (by rw [isBoolean]; rfl)
    refine operands (a.typeOf lhs.id)
      (Analysis.truth (.onCompare (Analysis.condition op).negate)) left right
      (Ty.compatible_of_eq rfl typed.terminal) (Ty.compatible_of_eq operand.2 typed.terminal)
      typed.terminal (a.terminal_of_eq same rfl) (fun needed => ?_) fun rest => ?_
    · have noFloats :
          (decide (a.typeOf lhs.id = .float) || decide (a.typeOf rhs.id = .float)) = false := by
        simpa using isFloat
      have plain := Analysis.lowerExpr_int_eq typed operand.1
      have plain' := Analysis.lowerExpr_int_eq typed' (operand.2 ▸ operand.1)
      rw [operand.2] at plain'
      cases op <;> simp [BinOp.isRelational, BinOp.isEquality] at known
      all_goals
        simp only [Analysis.lowerExpr, noFloats, Bool.false_eq_true, if_false, plain, plain']
    · rw [same]
      exact Analysis.truth_compare_shapes _ single rest

theorem binary (typed : lhs.Typed a) (typed' : rhs.Typed a)
    (types : op.Types (a.typeOf lhs.id) (a.typeOf rhs.id) (a.typeOf k.id))
    (left : Leaves a places u r lhs) (right : Leaves a places u r rhs) :
    Leaves a places u r (.binary k op lhs rhs) := by
  cases op with
  | add => exact arithmetic (Or.inl rfl) left right types
  | sub => exact arithmetic (Or.inr (Or.inl rfl)) left right types
  | mul => exact arithmetic (Or.inr (Or.inr rfl)) left right types
  | slash => exact slash left right types
  | div =>
    exact uniform (i := .idiv) .int rfl rfl left right types.1 types.2.1 types.2.2 fun _ => rfl
  | mod =>
    exact uniform (i := .irem) .int rfl rfl left right types.1 types.2.1 types.2.2 fun _ => rfl
  | and =>
    exact uniform (i := .iand) .boolean rfl rfl left right types.1 types.2.1 types.2.2 fun _ => rfl
  | or =>
    exact uniform (i := .ior) .boolean rfl rfl left right types.1 types.2.1 types.2.2 fun _ => rfl
  | lt | gt | le | ge => exact comparison (Or.inl rfl) typed typed' left right types
  | eq | ne => exact comparison (Or.inr rfl) typed typed' left right types

end Binary

end Leaves

section Trees
variable {p : Program} {a : Analysis} {places : Places} {u : ObjectUnit}
variable {here : Option SymbolId} {r : Routine}

mutual

/-- The code of every expression of a bound and typed program leaves its operand. -/
theorem leaves (scene : Scene p a places u here r) :
    (e : Expr) → e.Bound a here → e.Typed a → Leaves a places u r e
  | .int .., _, typed => .int typed
  | .float .., _, typed => .float typed
  | .bool .., _, typed => .bool typed
  | .paren _ inner, bound, typed => .paren typed.2 (leaves scene inner bound typed.1)
  | .var .., bound, typed => .var scene bound typed
  | .index _ _ i, bound, typed =>
    .index scene bound.1 typed.1 typed.2.2 (leaves scene i bound.2 typed.2.1)
  | .call _ _ args, bound, typed =>
    .call scene bound.1 typed.1 typed.2.2 (allLeave scene args bound.2 typed.2.1)
  | .unary _ .neg operand, bound, typed =>
    .neg typed.1 typed.2.1 typed.2.2 (leaves scene operand bound typed.1)
  | .unary _ .not operand, bound, typed =>
    .not typed.2.1 typed.2.2 (leaves scene operand bound typed.1)
  | .binary _ _ lhs rhs, bound, typed =>
    .binary typed.1 typed.2.1 typed.2.2 (leaves scene lhs bound.1 typed.1)
      (leaves scene rhs bound.2 typed.2.1)

theorem allLeave (scene : Scene p a places u here r) :
    (args : List Expr) → BoundAll a here args → TypedAll a args → AllLeave a places u r args
  | [], _, _ => by
    intro tys rest fits
    cases fits
    rw [Analysis.lowerArgs]
    · exact .nil rest
    · simp
  | arg :: args, bound, typed => by
    intro tys rest fits
    cases fits with
    | @cons _ ty _ tys first fits =>
      rw [Analysis.lowerArgs]
      have own := leaves scene arg bound.1 typed.1 ty rest first.1 first.2
      have others := allLeave scene args bound.2 typed.2 tys (.of ty.slot :: rest) fits
      simpa using own.append others

end

end Trees

end Expr

end Guarded
