import Guarded.Proofs.CodeTyping
import Guarded.Proofs.Statements

/-!
Statements and routines. The code of a statement leaves the operand stack as it was, unless it
returns or aborts. So every routine of a compiled unit can be carried out from its first instruction
with nothing on the stack.
-/

namespace Guarded

namespace Op

/-- Wherever the code stands in the routine, it can be carried out from the shape, and does not come
to its end. -/
def Ends (a : Analysis) (places : Places) (u : ObjectUnit) (r : Routine) (ops : List Op)
    (shape : Shape) : Prop :=
  ∀ pos, CodeAt a places r.code pos ops → r.Safe u pos shape

variable {a : Analysis} {places : Places} {u : ObjectUnit} {r : Routine}
variable {xs ys : List Op} {s s' : Shape}

theorem Ends.shapes (h : Ends a places u r xs s) : Shapes a places u r xs s s' :=
  fun pos code => (h pos code).gets

theorem Ends.append (h : Ends a places u r xs s) : Ends a places u r (xs ++ ys) s :=
  fun pos code => h pos (codeAt_append.mp code).1

theorem Shapes.ends (first : Shapes a places u r xs s s') (second : Ends a places u r ys s') :
    Ends a places u r (xs ++ ys) s := by
  intro pos code
  obtain ⟨codeX, codeY⟩ := codeAt_append.mp code
  exact (first pos codeX).safe (second _ codeY)

theorem Ends.abort (line : Int32) {service : Service}
    (aborts : service = .abortNoAlternative ∨ service = .abortNoFunctionReturn) :
    Ends a places u r [.instr (.iconst line), .instr (.service service)] s := by
  refine (Shapes.instr (.int line) rfl rfl).ends fun pos code => ?_
  obtain ⟨i, found, rfl⟩ := code.1 rfl
  exact .step (.abort found aborts)

theorem Ends.ret (result : r.result = none) : Ends a places u r [.instr .ret] [] := by
  intro pos code
  obtain ⟨i, found, rfl⟩ := code.1 rfl
  exact .step (.ret found result)

theorem Ends.give {i : Instr} {slot : Slot} (form : i = .ireturn ∨ i = .freturn)
    (result : r.result = some slot) : Ends a places u r [.instr i] [.of slot] := by
  intro pos code
  obtain ⟨i, found, rfl⟩ := code.1 rfl
  exact .step (.give found form result)

theorem Shapes.flatMap {α : Type} {f : α → List Op} {items : List α}
    (each : ∀ x ∈ items, Shapes a places u r (f x) s s) :
    Shapes a places u r (items.flatMap f) s s := by
  induction items with
  | nil => exact .nil s
  | cons x items ih =>
    obtain ⟨first, each⟩ := List.forall_mem_cons.mp each
    exact first.append (ih each)

end Op

/-- Zeros of the kind that is chosen for a type are values of it. -/
theorem Ty.makes (ty : Ty) : (if ty = .float then Elem.float else Elem.int).Makes ty.slot := by
  cases ty <;> simp [Elem.Makes, slot]

namespace Scene
variable {p : Program} {a : Analysis} {places : Places} {u : ObjectUnit}
variable {here : Option SymbolId} {r : Routine} (scene : Scene p a places u here r)
include scene

/-- What is known of an array that is declared. -/
theorem declares {name : Ident} {ty : Ty} (declared : a.Declares here name .array ty) :
    ∃ id, a.bindings[name.id]? = some id ∧ a.Storable id ∧
      (a.ownerOf id = none ∨ a.ownerOf id = here) ∧ Assemble.slotOf a id = .ok ty.arraySlot := by
  obtain ⟨id, s, named, kind, owner, same⟩ := declared
  obtain ⟨id', found, isArray, storable, owner, terminal⟩ :=
    scene.uses rfl ⟨id, s, named, kind, Or.inr owner⟩
  obtain rfl := Option.some.inj (found.symm.trans named.1)
  have typed : a.symbolType id' = ty := by simp [Analysis.symbolType, named.2, same]
  exact ⟨id', found, storable, owner, typed ▸ Analysis.slotOf_array isArray terminal⟩

theorem result_function {method : SymbolId} (inside : here = some method)
    (isFunction : (a.symbolKind method).isFunction = true)
    (terminal : (a.symbolType method).isTerminal = true) :
    r.result = some (a.symbolType method).slot := by
  have result := scene.result method inside
  exact Except.ok.inj (result.symm.trans (Analysis.resultOf_function isFunction terminal))

theorem result_procedure {method : SymbolId} (inside : here = some method)
    (isProcedure : (a.symbolKind method).isFunction = false) : r.result = none := by
  have result := scene.result method inside
  exact Except.ok.inj (result.symm.trans (Analysis.resultOf_procedure isProcedure))

theorem lowerArrays_shapes {ty : Ty} {size : Expr} {names : List Ident}
    (declared : ∀ name ∈ names, a.Declares here name .array ty)
    (isInt : a.typeOf size.id = .int) (h : size.Leaves a places u r) :
    Op.Shapes a places u r (a.lowerArrays ty size names) [] [] := by
  refine .flatMap fun name mem => ?_
  obtain ⟨id, found, storable, owner, ok⟩ := scene.declares (declared name mem)
  rw [Analysis.withSymbol_of found]
  have length := h .int [] (Ty.compatible_of_eq isInt rfl) rfl
  have store := scene.store_shapes storable owner ok []
  exact length.append (.cons (.instr (.newarray ty.arraySlot_element ty.makes) rfl rfl) store)

theorem lowerInput_shapes {names : List Ident}
    (uses : ∀ name ∈ names, a.Uses here name (· = .variable)) :
    Op.Shapes a places u r (a.lowerInput names) [] [] := by
  refine .flatMap fun name mem => ?_
  obtain ⟨id, found, kind, storable, owner, terminal⟩ := scene.uses rfl (uses name mem)
  rw [Analysis.withSymbol_of found]
  have store := scene.store_shapes storable owner (Analysis.slotOf_variable kind terminal) []
  refine .cons (.instr (.fixed rfl) rfl rfl) (.cons ?_ store)
  rcases Ty.cases_of_terminal terminal with same | same | same <;>
    simp only [same] <;> exact .instr (.fixed rfl) rfl rfl

omit scene in
theorem lowerPrint_shapes {value : Expr} (typed : value.Typed a)
    (h : value.Leaves a places u r) : Op.Shapes a places u r (a.lowerPrint value) [] [] := by
  refine (h _ [] (Ty.compatible_of_eq rfl typed.terminal) typed.terminal).append ?_
  rcases Ty.cases_of_terminal typed.terminal with same | same | same <;>
    simp only [same] <;> exact .instr (.fixed rfl) rfl rfl

theorem lowerCall_shapes {callee : Ident} {args : List Expr}
    (use : a.Uses here callee fun kind => ∃ ps, kind = .procedure ps ∧ ps.length = args.length)
    (passes : a.Passes callee args) (h : Expr.AllLeave a places u r args) :
    Op.Shapes a places u r (a.lowerCall callee args) [] [] := by
  obtain ⟨id, sym, named, ⟨ps, kind, -⟩, -⟩ := use
  have isMethod : sym.isMethod = true := by simp [Symbol.isMethod, kind, SymbolKind.params?]
  have result : a.resultShape id = [] := by
    simp [Analysis.resultShape, Analysis.symbolKind, named.2, kind, SymbolKind.isFunction]
  have run := h.call_shapes scene named isMethod passes []
  rw [result] at run
  rw [Analysis.lowerCall, Analysis.withSymbol_of named.1]
  exact run

end Scene

/-- What is on the stack for a target before it is stored into, the value on top. -/
def Target.shape (a : Analysis) : Target → Shape
  | .var name => [.of (a.symbolType (a.symbolOf name)).slot]
  | .index array _ =>
    let ty := a.symbolType (a.symbolOf array)
    [.of ty.slot, .of .int, .of ty.arraySlot]

namespace Scene
variable {p : Program} {a : Analysis} {places : Places} {u : ObjectUnit}
variable {here : Option SymbolId} {r : Routine} (scene : Scene p a places u here r)
include scene

theorem lowerSource_shapes {target : Target} {value : Expr} (bound : target.Bound a here)
    (boundValue : value.Bound a here) (typed : target.Typed a value) (rest : Shape) :
    Op.Shapes a places u r (a.lowerSource target value) rest (target.shape a ++ rest) := by
  cases target with
  | var name =>
    obtain ⟨typed, id, found, fits, terminal⟩ := typed
    have same : a.symbolOf name = id := by simp [Analysis.symbolOf, found]
    rw [Analysis.lowerSource, Analysis.withSymbol_of found, Target.shape, same]
    exact Expr.leaves scene value boundValue typed _ rest fits terminal
  | index array i =>
    obtain ⟨typedIndex, isInt, typed, id, found, fits, terminal⟩ := typed
    obtain ⟨id', found', kind, storable, owner, -⟩ := scene.uses rfl bound.1
    obtain rfl := Option.some.inj (found.symm.trans found')
    have same : a.symbolOf array = id := by simp [Analysis.symbolOf, found]
    rw [Analysis.lowerSource, Analysis.withSymbol_of found, Target.shape, same]
    have array := scene.load_shapes storable owner (Analysis.slotOf_array kind terminal) rest
    have index := Expr.leaves scene i bound.2 typedIndex .int
      (.of (a.symbolType id).arraySlot :: rest) (Ty.compatible_of_eq isInt rfl) rfl
    exact (array.append index).append
      (Expr.leaves scene value boundValue typed _ _ fits terminal)

theorem lowerSources_shapes {targets : List Target} {values : List Expr}
    (bound : ∀ t ∈ targets, t.Bound a here) (boundValues : Expr.BoundAll a here values)
    (typed : List.Forall₂ (Target.Typed a) targets values) (rest : Shape) :
    Op.Shapes a places u r ((targets.zip values).flatMap fun (t, v) => a.lowerSource t v) rest
      (targets.reverse.flatMap (Target.shape a) ++ rest) := by
  induction typed generalizing rest with
  | nil => exact .nil rest
  | @cons target value targets values first typed ih =>
    obtain ⟨boundTarget, bound⟩ := List.forall_mem_cons.mp bound
    have source := scene.lowerSource_shapes boundTarget boundValues.1 first rest
    have sources := ih bound boundValues.2 (target.shape a ++ rest)
    simpa using source.append sources

theorem lowerStore_shapes {target : Target} (bound : target.Bound a here) (rest : Shape) :
    Op.Shapes a places u r (a.lowerStore target) (target.shape a ++ rest) rest := by
  cases target with
  | var name =>
    obtain ⟨id, found, kind, storable, owner, terminal⟩ := scene.uses rfl bound
    have same : a.symbolOf name = id := by simp [Analysis.symbolOf, found]
    rw [Analysis.lowerStore, Analysis.withSymbol_of found, Target.shape, same]
    exact scene.store_shapes storable owner (Analysis.slotOf_variable kind terminal) rest
  | index array i =>
    obtain ⟨id, found, -⟩ := scene.uses rfl bound.1
    have same : a.symbolOf array = id := by simp [Analysis.symbolOf, found]
    rw [Analysis.lowerStore, Analysis.withSymbol_of found, Target.shape, same]
    refine .instr (.putElement ?_ (Ty.arraySlot_element _)) rfl rfl
    split
    · exact Or.inr rfl
    · exact Or.inl rfl

theorem lowerStores_shapes : (targets : List Target) → (∀ t ∈ targets, t.Bound a here) →
    Op.Shapes a places u r (targets.flatMap a.lowerStore) (targets.flatMap (Target.shape a)) []
  | [], _ => .nil []
  | target :: targets, bound => by
    obtain ⟨first, bound⟩ := List.forall_mem_cons.mp bound
    exact (scene.lowerStore_shapes first _).append (lowerStores_shapes targets bound)

theorem lowerAssign_shapes {targets : List Target} {values : List Expr}
    (bound : ∀ t ∈ targets, t.Bound a here) (boundValues : Expr.BoundAll a here values)
    (typed : List.Forall₂ (Target.Typed a) targets values) :
    Op.Shapes a places u r (a.lowerAssign targets values) [] [] := by
  have sources := scene.lowerSources_shapes bound boundValues typed []
  rw [List.append_nil] at sources
  exact sources.append (scene.lowerStores_shapes targets.reverse fun t mem =>
    bound t (List.mem_reverse.mp mem))

theorem lowerReturn_ends {value : Option Expr} (bound : ∀ e, value = some e → e.Bound a here)
    (typed : a.Returns here value) : Op.Ends a places u r (a.lowerReturn here value) [] := by
  obtain ⟨method, rfl, typed⟩ := typed
  cases value with
  | none => exact .ret (scene.result_procedure rfl typed)
  | some e =>
    obtain ⟨isFunction, typed, same⟩ := typed
    have terminal : (a.symbolType method).isTerminal = true := same ▸ typed.terminal
    have value := Expr.leaves scene e (bound e rfl) typed _ []
      (Ty.compatible_of_eq same terminal) terminal
    refine value.ends (.give ?_ (scene.result_function rfl isFunction terminal))
    split
    · exact Or.inr rfl
    · exact Or.inl rfl

theorem lowerEnd_ends {method : SymbolId} (inside : here = some method) (line : Nat) :
    Op.Ends a places u r (a.lowerEnd method line) [] := by
  unfold Analysis.lowerEnd
  split
  · exact (Op.Ends.abort _ (Or.inr rfl)).append
  · rename_i isProcedure
    exact .ret (scene.result_procedure inside (by simpa using isProcedure))

end Scene

section Guards
variable {a : Analysis} {places : Places} {u : ObjectUnit} {r : Routine}
variable {here : Option SymbolId} {cond : Expr} {body : Stmt}

/-- One guard: its body, and then the jump to the target, or the guards that follow. -/
theorem Guard.first_leads {k : Node} {gs : List Guard} {target pos stop : Nat}
    {goal : Nat → Shape → Prop}
    (stands : Guard.StandAt a places here r.code target (.mk k cond body :: gs) pos stop)
    (isBoolean : a.typeOf cond.id = .boolean) (test : cond.Leaves a places u r)
    (done : Op.Shapes a places u r (a.lowerStmt here body) [] []) (reached : goal target [])
    (others : ∀ pos, Guard.StandAt a places here r.code target gs pos stop →
      r.Gets u goal pos []) : r.Leads u goal pos [] := by
  obtain ⟨codeTest, branch, codeBody, jump, rest⟩ := stands
  have value := test .boolean [] (Ty.compatible_of_eq isBoolean rfl) rfl pos codeTest
  refine (value.leads (by simp)).bind ?_
  rintro _ _ ⟨rfl, rfl⟩
  refine Or.inr (.step (.branch branch ?_ (others _ rest)))
  exact (done _ codeBody).gets (Or.inr (.step (.goto jump (Or.inl reached))))

end Guards

namespace Stmt
variable {p : Program} {a : Analysis} {places : Places} {u : ObjectUnit}
variable {here : Option SymbolId} {r : Routine}

mutual

/-- The code of every statement of a bound and typed program leaves the stack as it was. -/
theorem shapes (scene : Scene p a places u here r) :
    (s : Stmt) → s.Bound a here → s.Typed a here →
    Op.Shapes a places u r (a.lowerStmt here s) [] []
  | .varDecl .., _, _ => by
    rw [Analysis.lowerStmt]
    exact .nil []
  | .arrayDecl _ _ size _, bound, typed => by
    rw [Analysis.lowerStmt]
    exact scene.lowerArrays_shapes bound.2 typed.2 (Expr.leaves scene size bound.1 typed.1)
  | .method .., bound, _ => by
    obtain ⟨id, ⟨_, _, named, -⟩, -⟩ := bound
    rw [Analysis.lowerStmt, Analysis.withSymbol_of named.1]
    exact .method _ _ []
  | .assign .., bound, typed => by
    rw [Analysis.lowerStmt]
    exact scene.lowerAssign_shapes bound.2.1 bound.2.2 typed
  | .input .., bound, _ => by
    rw [Analysis.lowerStmt]
    exact scene.lowerInput_shapes bound
  | .print _ value, bound, typed => by
    rw [Analysis.lowerStmt]
    exact Scene.lowerPrint_shapes typed (Expr.leaves scene value bound typed)
  | .alternative _ gs, bound, typed => by
    intro pos code
    rw [Analysis.lowerStmt] at code ⊢
    obtain ⟨stop, stands, aborts⟩ := Analysis.lowerChoice_stands _ gs pos code
    refine guardsGet scene gs bound typed ⟨rfl, rfl⟩ ?_ stands
    exact (Op.Ends.abort _ (Or.inl rfl) stop aborts).gets
  | .iterative _ gs, bound, typed => by
    intro pos code
    rw [Analysis.lowerStmt] at code ⊢
    have stands := Analysis.lowerLoop_stands pos gs 0 code
    match gs, bound, typed, stands with
    | [], _, _, _ => exact .refl pos []
    | .mk _ cond body :: gs, bound, typed, stands =>
      refine Or.inr (.loop (fun pc shape => pc = pos ∧ shape = []) ?_ ⟨rfl, rfl⟩)
      rintro _ _ ⟨rfl, rfl⟩
      refine Guard.first_leads stands typed.2.1 (Expr.leaves scene cond bound.1 typed.1)
        (shapes scene body bound.2.1 typed.2.2.1) (Or.inl ⟨rfl, rfl⟩) fun pos stands => ?_
      exact guardsGet scene gs bound.2.2 typed.2.2.2 (Or.inl ⟨rfl, rfl⟩)
        (Or.inl (Or.inr ⟨rfl, rfl⟩)) stands
  | .block _ _ body, bound, typed => by
    rw [Analysis.lowerStmt]
    exact shapesAll scene body bound typed
  | .ret _ value, bound, typed => by
    rw [Analysis.lowerStmt]
    refine (scene.lowerReturn_ends ?_ typed).shapes
    rintro e rfl
    exact bound
  | .call _ _ args, bound, typed => by
    rw [Analysis.lowerStmt]
    exact scene.lowerCall_shapes bound.1 typed.2 (Expr.allLeave scene args bound.2 typed.1)

theorem shapesAll (scene : Scene p a places u here r) :
    (ss : List Stmt) → BoundAll a here ss → TypedAll a here ss →
    Op.Shapes a places u r (a.lowerStmts here ss) [] []
  | [], _, _ => by
    rw [Analysis.lowerStmts]
    exact .nil []
  | s :: ss, bound, typed => by
    rw [Analysis.lowerStmts]
    exact (shapes scene s bound.1 typed.1).append (shapesAll scene ss bound.2 typed.2)

/-- Guards get to where their bodies go, or past the last of them. -/
theorem guardsGet (scene : Scene p a places u here r) {goal : Nat → Shape → Prop}
    {target stop : Nat} : (gs : List Guard) → Guard.BoundAll a here gs →
    Guard.TypedAll a here gs → goal target [] → r.Gets u goal stop [] → {pos : Nat} →
    Guard.StandAt a places here r.code target gs pos stop → r.Gets u goal pos []
  | [], _, _, _, past, _, stands => stands ▸ past
  | .mk _ cond body :: gs, bound, typed, reached, past, _, stands =>
    Or.inr (Guard.first_leads stands typed.2.1 (Expr.leaves scene cond bound.1 typed.1)
      (shapes scene body bound.2.1 typed.2.2.1) reached fun _ stands =>
        guardsGet scene gs bound.2.2 typed.2.2.2 reached past stands)

end

end Stmt

/-- The slots of the first symbols come first. -/
theorem SlotsOf.begins {a : Analysis} {xs ys : List SymbolId} {slots slots' : List Slot}
    (h : SlotsOf a xs slots) (h' : SlotsOf a (xs ++ ys) slots') : slots <+: slots' := by
  induction h generalizing slots' with
  | nil => exact List.nil_prefix
  | cons ok rest ih =>
    cases h' with
    | cons ok' rest' =>
      obtain rfl := Except.ok.inj (ok.symm.trans ok')
      exact List.cons_prefix_cons.mpr ⟨rfl, ih rest'⟩

namespace Program.Compiled
variable {p : Program} {a : Analysis} {places : Places} {u : ObjectUnit}
variable (compiled : p.Compiled a places u) (formed : p.WellFormed) (analyzed : p.analyze = .ok a)
include compiled formed analyzed

theorem entry_scene : Scene p a places u none u.entry where
  compiled := compiled
  ready := analyze_ready formed analyzed
  linked := analyze_linked formed analyzed
  slots x n found own := by
    have inside := compiled.slots x n found
    simp [own] at inside
  result := by nofun

theorem routine_scene {m : Method} {r : Routine} (laid : Laid a places (a.compiled m) r) :
    Scene p a places u (some (a.compiled m).1) r where
  compiled := compiled
  ready := analyze_ready formed analyzed
  linked := analyze_linked formed analyzed
  slots x n found own := slot_typed laid x n found own
  result := by
    rintro _ ⟨⟩
    exact laid.result

theorem entry_typed : u.entry.Typed u := by
  obtain ⟨params, result, locals⟩ := compiled.heading
  have linked := analyze_linked formed analyzed
  have scene := compiled.entry_scene formed analyzed
  refine ⟨by simp [params, locals], ?_⟩
  have body := Stmt.shapesAll scene p.body linked.bound (analyze_body_typed formed analyzed)
  exact body.ends (.ret result) 0 compiled.code

theorem routine_typed {m : Method} (mem : m ∈ p.methods) {r : Routine}
    (laid : Laid a places (a.compiled m) r) : r.Typed u := by
  have linked := analyze_linked formed analyzed
  obtain ⟨id, named, typed⟩ := (analyze_body_typed formed analyzed).methods m mem
  obtain ⟨id', ⟨_, _, named', -⟩, bound⟩ := linked.bound.methods m mem
  obtain rfl := Option.some.inj (named.symm.trans named'.1)
  have same : (a.compiled m).1 = id := by simp [Analysis.compiled, named]
  have scene : Scene p a places u (some id) r := same ▸ compiled.routine_scene formed analyzed laid
  obtain ⟨_, -, slotted, ⟨_, rfl⟩, -⟩ := laid.locals
  refine ⟨laid.params.begins slotted, ?_⟩
  have body := Stmt.shapesAll scene m.body bound typed
  have code := laid.code
  simp only [Analysis.compiled, named, Option.getD_some] at code
  exact body.ends (scene.lowerEnd_ends rfl _) 0 code

/-- Compiled code is typed. -/
theorem typed : u.Typed := by
  refine ⟨compiled.entry_typed formed analyzed, fun r mem => ?_, compiled.distinct⟩
  obtain ⟨rs, perm, laid⟩ := compiled.all
  obtain ⟨n, found⟩ := List.mem_iff_getElem?.mp (perm.mem_iff.mpr mem)
  obtain ⟨m, found', laid⟩ := exists_of_forall₂ laid.flip found
  exact compiled.routine_typed formed analyzed (List.mem_of_getElem? found') laid

end Program.Compiled

end Guarded
