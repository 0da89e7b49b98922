import Guarded.Compile
import Guarded.Proofs.Linking
import Guarded.Proofs.Parentheses

/-!
Redundant parentheses. Settling, checking and generating code look at the types of expressions, and
with tables in which parentheses have the type of what is inside, they come to the same with and
without them.

The main statement is that putting any expression of a program in parentheses changes nothing: both
programs pass the analysis, with the same symbols, the same types and the same object code, or both
are refused for the same reason.
-/

namespace Guarded

namespace Agree
variable {α β : Type} {R : α → α → Prop} {S : β → β → Prop} {x x' : Except Error α}

theorem pure {a a' : α} (related : R a a') : Agree R (pure a) (pure a') :=
  .ok related

theorem throw {e e' : Error} (matching : e.Matches e') :
    Agree R (throw e : Except Error α) (throw e') :=
  .error matching

theorem bind {f f' : α → Except Error β} (first : Agree R x x')
    (second : ∀ a a', R a a' → Agree S (f a) (f' a')) : Agree S (x >>= f) (x' >>= f') := by
  cases first with
  | ok related => exact second _ _ related
  | error matching => exact .error matching

theorem ite {c : Prop} [Decidable c] {y y' : Except Error α} (hx : Agree R x x')
    (hy : Agree R y y') : Agree R (if c then x else y) (if c then x' else y') := by
  split
  · exact hx
  · exact hy

theorem refl (x : Except Error α) : Agree Eq x x := by
  cases x with
  | ok a => exact .ok rfl
  | error e => exact .error (.refl e)

end Agree

namespace Analysis

theorem typeOf_map_settle (a : Analysis) (symbols : Array Symbol) (k : NodeId) :
    Analysis.typeOf { a with symbols, types := a.types.map fun _ ty => ty.settle } k =
      (a.typeOf k).settle := by
  simp only [typeOf, Std.TreeMap.getElem?_map]
  cases a.types[k]? <;> rfl

section
variable {n : NodeId} {exprs : List Expr} {a a' : Analysis}

theorem settle_strip (h : a.Levels n exprs a') :
    Agree (Analysis.Levels n exprs) a.settle a'.settle := by
  unfold settle
  rw [h.symbols]
  cases a.symbols.mapM Symbol.settle with
  | error e => exact .error (.refl e)
  | ok symbols =>
    refine .ok ⟨⟨rfl, h.bindings, fun k other => ?_⟩, fun e mem => ?_⟩
    · simp only [Std.TreeMap.getElem?_map, h.types k other]
    · rw [typeOf_map_settle, typeOf_map_settle, h.level e mem]

theorem checkIndex_strip (h : a.Levels n exprs a') {i : Expr} (mem : i ∈ exprs) :
    Agree Eq (a.checkIndex (i.strip n)) (a'.checkIndex i) := by
  unfold checkIndex
  rw [h.level i mem]
  exact .ite (.throw ⟨rfl, rfl⟩) (.pure rfl)

theorem checkOperands_strip (h : a.Levels n exprs a') (node : Node) (op : BinOp) {lhs rhs : Expr}
    (onLeft : lhs ∈ exprs) (onRight : rhs ∈ exprs) :
    Agree Eq (a.checkOperands node op (lhs.strip n) (rhs.strip n))
      (a'.checkOperands node op lhs rhs) := by
  unfold checkOperands
  rw [h.level lhs onLeft, h.level rhs onRight]
  cases op
  case eq | ne | div | mod => exact .ite (.throw (.refl _)) (.pure rfl)
  all_goals exact .pure rfl

mutual

theorem checkExpr_strip (h : a.Levels n exprs a') : (e : Expr) → e.parts ⊆ exprs →
    Agree Eq (a.checkExpr (e.strip n)) (a'.checkExpr e)
  | .int .., _ | .float .., _ | .bool .., _ | .var .., _ => by
    simp only [Expr.strip, checkExpr]
    exact .pure rfl
  | .index _ _ i, inside => by
    have part : i.parts ⊆ exprs := fun e mem => inside (by simp [Expr.parts, mem])
    simp only [Expr.strip, checkExpr]
    exact .bind (checkExpr_strip h i part) fun _ _ _ => checkIndex_strip h (part i.mem_parts)
  | .call _ _ args, inside => by
    simp only [Expr.strip, checkExpr]
    exact checkExprs_strip h args fun e mem => inside (by simp [Expr.parts, mem])
  | .paren _ inner, inside => by
    have part : inner.parts ⊆ exprs := fun e mem => inside (by simp [Expr.parts, mem])
    simp only [Expr.strip, checkExpr]
    split
    · exact checkExpr_strip h inner part
    · simp only [checkExpr]
      exact checkExpr_strip h inner part
  | .unary _ _ operand, inside => by
    simp only [Expr.strip, checkExpr]
    exact checkExpr_strip h operand fun e mem => inside (by simp [Expr.parts, mem])
  | .binary node op lhs rhs, inside => by
    have onLeft : lhs.parts ⊆ exprs := fun e mem => inside (by simp [Expr.parts, mem])
    have onRight : rhs.parts ⊆ exprs := fun e mem => inside (by simp [Expr.parts, mem])
    simp only [Expr.strip, checkExpr]
    refine .bind (checkExpr_strip h lhs onLeft) fun _ _ _ => ?_
    refine .bind (checkExpr_strip h rhs onRight) fun _ _ _ => ?_
    exact checkOperands_strip h node op (onLeft lhs.mem_parts) (onRight rhs.mem_parts)

theorem checkExprs_strip (h : a.Levels n exprs a') : (es : List Expr) → Expr.partsAll es ⊆ exprs →
    Agree Eq (a.checkExprs (Expr.stripAll n es)) (a'.checkExprs es)
  | [], _ => by
    simp only [Expr.stripAll, checkExprs]
    exact .pure rfl
  | e :: es, inside => by
    simp only [Expr.stripAll, checkExprs]
    refine .bind (checkExpr_strip h e fun e mem => inside (by simp [Expr.partsAll, mem]))
      fun _ _ _ => ?_
    exact checkExprs_strip h es fun e mem => inside (by simp [Expr.partsAll, mem])

end

theorem checkTarget_strip (h : a.Levels n exprs a') {t : Target} (inside : t.exprs ⊆ exprs) :
    Agree Eq (a.checkTarget (t.strip n)) (a'.checkTarget t) := by
  cases t with
  | var name => exact .pure rfl
  | index array i =>
    exact .bind (checkExpr_strip h i inside) fun _ _ _ => checkIndex_strip h (inside i.mem_parts)

theorem checkTargets_strip (h : a.Levels n exprs a') (ts : List Target)
    (inside : Target.exprsAll ts ⊆ exprs) :
    Agree Eq ((ts.map (Target.strip n)).forM a.checkTarget) (ts.forM a'.checkTarget) := by
  induction ts with
  | nil => exact .pure rfl
  | cons t ts ih =>
    exact .bind (checkTarget_strip h fun e mem => inside (by simp [Target.exprsAll, mem]))
      fun _ _ _ => ih fun e mem => inside (by simp [Target.exprsAll, mem])

theorem checkReturn_strip (h : a.Levels n exprs a') (here : Option SymbolId) (node : Node)
    {value : Expr} (inside : value.parts ⊆ exprs) :
    Agree Eq (a.checkReturn here node (some (value.strip n)))
      (a'.checkReturn here node (some value)) := by
  cases here with
  | none => exact .throw (.refl _)
  | some method =>
    simp only [checkReturn, h.symbolType, h.symbolKind]
    cases (a.symbolKind method).isFunction with
    | false => exact .throw ⟨rfl, rfl⟩
    | true =>
      refine .bind (checkExpr_strip h value inside) fun _ _ _ => ?_
      rw [h.level value (inside value.mem_parts)]
      exact .ite (.throw ⟨rfl, rfl⟩) (.pure rfl)

theorem checkReturn_none (h : a.Levels n exprs a') (here : Option SymbolId) (node : Node) :
    Agree Eq (a.checkReturn here node none) (a'.checkReturn here node none) := by
  cases here with
  | none => exact .throw (.refl _)
  | some method =>
    simp only [checkReturn, h.symbolType, h.symbolKind]
    cases (a.symbolKind method).isFunction with
    | false => exact .pure rfl
    | true => exact .throw (.refl _)

mutual

theorem checkStmt_strip (h : a.Levels n exprs a') {here : Option SymbolId} : (s : Stmt) →
    s.exprs ⊆ exprs → Agree Eq (a.checkStmt here (s.strip n)) (a'.checkStmt here s)
  | .varDecl .., _ | .input .., _ => by
    simp only [Stmt.strip, checkStmt]
    exact .pure rfl
  | .arrayDecl _ _ size _, inside => by
    simp only [Stmt.strip, checkStmt]
    exact .bind (checkExpr_strip h size inside) fun _ _ _ =>
      checkIndex_strip h (inside size.mem_parts)
  | .method _ name _ _ _ body, inside => by
    simp only [Stmt.strip, checkStmt, h.binding]
    refine .bind (.refl (a.binding name)) fun method method' same => ?_
    subst same
    exact checkStmts_strip h body inside
  | .assign _ targets values, inside => by
    simp only [Stmt.strip, checkStmt]
    exact .bind (checkTargets_strip h targets fun e mem => inside (by simp [Stmt.exprs, mem]))
      fun _ _ _ => checkExprs_strip h values fun e mem => inside (by simp [Stmt.exprs, mem])
  | .print _ value, inside => by
    simp only [Stmt.strip, checkStmt]
    exact checkExpr_strip h value inside
  | .alternative _ gs, inside | .iterative _ gs, inside => by
    simp only [Stmt.strip, checkStmt]
    exact checkGuards_strip h gs inside
  | .block _ _ body, inside => by
    simp only [Stmt.strip, checkStmt]
    exact checkStmts_strip h body inside
  | .ret _ none, _ => by
    simp only [Stmt.strip, checkStmt]
    exact checkReturn_none h ..
  | .ret node (some value), inside => by
    simp only [Stmt.strip, checkStmt]
    exact checkReturn_strip h here node inside
  | .call _ _ args, inside => by
    simp only [Stmt.strip, checkStmt]
    exact checkExprs_strip h args inside

theorem checkStmts_strip (h : a.Levels n exprs a') {here : Option SymbolId} : (ss : List Stmt) →
    Stmt.exprsAll ss ⊆ exprs →
    Agree Eq (a.checkStmts here (Stmt.stripAll n ss)) (a'.checkStmts here ss)
  | [], _ => by
    simp only [Stmt.stripAll, checkStmts]
    exact .pure rfl
  | s :: ss, inside => by
    simp only [Stmt.stripAll, checkStmts]
    refine .bind (checkStmt_strip h s fun e mem => inside (by simp [Stmt.exprsAll, mem]))
      fun _ _ _ => ?_
    exact checkStmts_strip h ss fun e mem => inside (by simp [Stmt.exprsAll, mem])

theorem checkGuards_strip (h : a.Levels n exprs a') {here : Option SymbolId} : (gs : List Guard) →
    Guard.exprsAll gs ⊆ exprs →
    Agree Eq (a.checkGuards here (Guard.stripAll n gs)) (a'.checkGuards here gs)
  | [], _ => by
    simp only [Guard.stripAll, checkGuards]
    exact .pure rfl
  | .mk _ cond body :: gs, inside => by
    simp only [Guard.stripAll, checkGuards]
    refine .bind (checkExpr_strip h cond fun e mem => inside (by simp [Guard.exprsAll, mem]))
      fun _ _ _ => ?_
    refine .bind (checkStmt_strip h body fun e mem => inside (by simp [Guard.exprsAll, mem]))
      fun _ _ _ => ?_
    exact checkGuards_strip h gs fun e mem => inside (by simp [Guard.exprsAll, mem])

end

theorem withSymbol_strip (h : a.Levels n exprs a') : a'.withSymbol = a.withSymbol := by
  funext name code
  rw [withSymbol, withSymbol, h.binding]

theorem paramTypes_strip (h : a.Levels n exprs a') : a'.paramTypes = a.paramTypes := by
  funext id
  rw [paramTypes, paramTypes, h.params, h.symbolType]

mutual

/-- The code of an expression is made for the type that is needed, which is passed on through
parentheses. -/
theorem lowerExpr_strip (h : a.Levels n exprs a') (needed : Ty) : (e : Expr) → e.parts ⊆ exprs →
    a.lowerExpr needed (e.strip n) = a'.lowerExpr needed e
  | .int .., _ | .float .., _ | .bool .., _ => by simp only [Expr.strip, lowerExpr]
  | .paren _ inner, inside => by
    have part : inner.parts ⊆ exprs := fun e mem => inside (by simp [Expr.parts, mem])
    simp only [Expr.strip, lowerExpr]
    split
    · exact lowerExpr_strip h needed inner part
    · simp only [lowerExpr, lowerExpr_strip h needed inner part]
  | .var k name, inside => by
    have own : a'.typeOf k.id = a.typeOf k.id := h.level (.var k name) (inside (Expr.mem_parts _))
    simp only [Expr.strip, lowerExpr, own, withSymbol_strip h]
  | .index k array i, inside => by
    have own : a'.typeOf k.id = a.typeOf k.id :=
      h.level (.index k array i) (inside (Expr.mem_parts _))
    have part : i.parts ⊆ exprs := fun e mem => inside (by simp [Expr.parts, mem])
    simp only [Expr.strip, lowerExpr, own, withSymbol_strip h, lowerExpr_strip h .int i part]
  | .call k callee args, inside => by
    have own : a'.typeOf k.id = a.typeOf k.id :=
      h.level (.call k callee args) (inside (Expr.mem_parts _))
    have part : Expr.partsAll args ⊆ exprs := fun e mem => inside (by simp [Expr.parts, mem])
    simp only [Expr.strip, lowerExpr, own, withSymbol_strip h, paramTypes_strip h,
      lowerArgs_strip h args _ part]
  | .unary k .neg operand, inside => by
    have own : a'.typeOf k.id = a.typeOf k.id :=
      h.level (.unary k .neg operand) (inside (Expr.mem_parts _))
    have part : operand.parts ⊆ exprs := fun e mem => inside (by simp [Expr.parts, mem])
    simp only [Expr.strip, lowerExpr, own, lowerExpr_strip h _ operand part]
  | .unary k .not operand, inside => by
    have own : a'.typeOf k.id = a.typeOf k.id :=
      h.level (.unary k .not operand) (inside (Expr.mem_parts _))
    have part : operand.parts ⊆ exprs := fun e mem => inside (by simp [Expr.parts, mem])
    simp only [Expr.strip, lowerExpr, own, lowerExpr_strip h _ operand part]
  | .binary k op lhs rhs, inside => by
    have own : a'.typeOf k.id = a.typeOf k.id :=
      h.level (.binary k op lhs rhs) (inside (Expr.mem_parts _))
    have onLeft : lhs.parts ⊆ exprs := fun e mem => inside (by simp [Expr.parts, mem])
    have onRight : rhs.parts ⊆ exprs := fun e mem => inside (by simp [Expr.parts, mem])
    have left (ty : Ty) := lowerExpr_strip h ty lhs onLeft
    have right (ty : Ty) := lowerExpr_strip h ty rhs onRight
    simp only [Expr.strip, lowerExpr, own, left, right, ← h.level lhs (onLeft lhs.mem_parts),
      ← h.level rhs (onRight rhs.mem_parts)]

theorem lowerArgs_strip (h : a.Levels n exprs a') : (args : List Expr) → (tys : List Ty) →
    Expr.partsAll args ⊆ exprs → a.lowerArgs (Expr.stripAll n args) tys = a'.lowerArgs args tys
  | [], _, _ => by simp only [Expr.stripAll, lowerArgs]
  | _ :: _, [], _ => by simp only [Expr.stripAll, lowerArgs]
  | arg :: args, ty :: tys, inside => by
    have own : arg.parts ⊆ exprs := fun e mem => inside (by simp [Expr.partsAll, mem])
    have rest : Expr.partsAll args ⊆ exprs := fun e mem => inside (by simp [Expr.partsAll, mem])
    simp only [Expr.stripAll, lowerArgs, lowerExpr_strip h ty arg own,
      lowerArgs_strip h args tys rest]

end

theorem lowerSource_strip (h : a.Levels n exprs a') {target : Target} {value : Expr}
    (inside : target.exprs ⊆ exprs) (part : value.parts ⊆ exprs) :
    a.lowerSource (target.strip n) (value.strip n) = a'.lowerSource target value := by
  cases target with
  | var name =>
    simp only [Target.strip, lowerSource, withSymbol_strip h, h.symbolType,
      lowerExpr_strip h _ value part]
  | index array i =>
    simp only [Target.strip, lowerSource, withSymbol_strip h, h.symbolType,
      lowerExpr_strip h _ value part, lowerExpr_strip h _ i inside]

theorem lowerStore_strip (h : a.Levels n exprs a') (target : Target) :
    a.lowerStore (target.strip n) = a'.lowerStore target := by
  cases target <;> simp only [Target.strip, lowerStore, withSymbol_strip h, h.symbolType]

theorem lowerSources_strip (h : a.Levels n exprs a') : (targets : List Target) →
    (values : List Expr) → Target.exprsAll targets ⊆ exprs → Expr.partsAll values ⊆ exprs →
    ((targets.map (Target.strip n)).zip (Expr.stripAll n values)).flatMap
        (fun (t, v) => a.lowerSource t v) =
      (targets.zip values).flatMap fun (t, v) => a'.lowerSource t v
  | [], _, _, _ => rfl
  | _ :: _, [], _, _ => rfl
  | target :: targets, value :: values, inside, part => by
    have first : a.lowerSource (target.strip n) (value.strip n) = a'.lowerSource target value :=
      lowerSource_strip h (fun e mem => inside (by simp [Target.exprsAll, mem]))
        (fun e mem => part (by simp [Expr.partsAll, mem]))
    have rest := lowerSources_strip h targets values
      (fun e mem => inside (by simp [Target.exprsAll, mem]))
      (fun e mem => part (by simp [Expr.partsAll, mem]))
    simp only [List.map_cons, Expr.stripAll, List.zip_cons_cons, List.flatMap_cons, first, rest]

theorem lowerAssign_strip (h : a.Levels n exprs a') {targets : List Target} {values : List Expr}
    (inside : Target.exprsAll targets ⊆ exprs) (part : Expr.partsAll values ⊆ exprs) :
    a.lowerAssign (targets.map (Target.strip n)) (Expr.stripAll n values) =
      a'.lowerAssign targets values := by
  rw [lowerAssign, lowerAssign, lowerSources_strip h targets values inside part, ← List.map_reverse,
    List.flatMap_map]
  simp only [lowerStore_strip h]

mutual

theorem lowerStmt_strip (h : a.Levels n exprs a') {here : Option SymbolId} : (s : Stmt) →
    s.exprs ⊆ exprs → a.lowerStmt here (s.strip n) = a'.lowerStmt here s
  | .varDecl .., _ => by simp only [Stmt.strip, lowerStmt]
  | .arrayDecl _ _ size _, inside => by
    simp only [Stmt.strip, lowerStmt, lowerArrays, withSymbol_strip h,
      lowerExpr_strip h .int size inside]
  | .method _ _ _ _ _ body, inside => by
    have code (here : Option SymbolId) :
        a.lowerStmts here (Stmt.stripAll n body) = a'.lowerStmts here body :=
      lowerStmts_strip h body inside
    simp only [Stmt.strip, lowerStmt, lowerEnd, withSymbol_strip h, h.symbolKind, h.symbolType,
      code]
  | .assign _ targets values, inside => by
    simp only [Stmt.strip, lowerStmt]
    exact lowerAssign_strip h (fun e mem => inside (by simp [Stmt.exprs, mem]))
      (fun e mem => inside (by simp [Stmt.exprs, mem]))
  | .input .., _ => by
    simp only [Stmt.strip, lowerStmt, lowerInput, withSymbol_strip h, h.symbolType]
  | .print _ value, inside => by
    simp only [Stmt.strip, lowerStmt, lowerPrint, ← h.level value (inside value.mem_parts),
      lowerExpr_strip h _ value inside]
  | .alternative _ gs, inside => by
    simp only [Stmt.strip, lowerStmt, lowerChoice_strip h _ gs inside]
  | .iterative _ gs, inside => by
    simp only [Stmt.strip, lowerStmt, lowerLoop_strip h _ gs inside]
  | .block _ _ body, inside => by
    simp only [Stmt.strip, lowerStmt, lowerStmts_strip h body inside]
  | .ret _ none, _ => by simp only [Stmt.strip, lowerStmt, lowerReturn]
  | .ret _ (some value), inside => by
    simp only [Stmt.strip, lowerStmt, lowerReturn, h.symbolType, lowerExpr_strip h _ value inside]
  | .call _ _ args, inside => by
    simp only [Stmt.strip, lowerStmt, lowerCall, withSymbol_strip h, paramTypes_strip h,
      lowerArgs_strip h args _ inside]

theorem lowerStmts_strip (h : a.Levels n exprs a') {here : Option SymbolId} : (ss : List Stmt) →
    Stmt.exprsAll ss ⊆ exprs → a.lowerStmts here (Stmt.stripAll n ss) = a'.lowerStmts here ss
  | [], _ => by simp only [Stmt.stripAll, lowerStmts]
  | s :: ss, inside => by
    have own : s.exprs ⊆ exprs := fun e mem => inside (by simp [Stmt.exprsAll, mem])
    have rest : Stmt.exprsAll ss ⊆ exprs := fun e mem => inside (by simp [Stmt.exprsAll, mem])
    simp only [Stmt.stripAll, lowerStmts, lowerStmt_strip h s own, lowerStmts_strip h ss rest]

theorem lowerChoice_strip (h : a.Levels n exprs a') {here : Option SymbolId} (line : Int32) :
    (gs : List Guard) → Guard.exprsAll gs ⊆ exprs →
    a.lowerChoice here line (Guard.stripAll n gs) = a'.lowerChoice here line gs
  | [], _ => by simp only [Guard.stripAll, lowerChoice]
  | .mk _ cond body :: gs, inside => by
    have test : cond.parts ⊆ exprs := fun e mem => inside (by simp [Guard.exprsAll, mem])
    have own : body.exprs ⊆ exprs := fun e mem => inside (by simp [Guard.exprsAll, mem])
    have rest : Guard.exprsAll gs ⊆ exprs := fun e mem => inside (by simp [Guard.exprsAll, mem])
    simp only [Guard.stripAll, lowerChoice, lowerExpr_strip h _ cond test,
      lowerStmt_strip h body own, lowerChoice_strip h line gs rest]

theorem lowerLoop_strip (h : a.Levels n exprs a') {here : Option SymbolId} (before : Nat) :
    (gs : List Guard) → Guard.exprsAll gs ⊆ exprs →
    a.lowerLoop here before (Guard.stripAll n gs) = a'.lowerLoop here before gs
  | [], _ => by simp only [Guard.stripAll, lowerLoop]
  | .mk _ cond body :: gs, inside => by
    have test : cond.parts ⊆ exprs := fun e mem => inside (by simp [Guard.exprsAll, mem])
    have own : body.exprs ⊆ exprs := fun e mem => inside (by simp [Guard.exprsAll, mem])
    have rest : Guard.exprsAll gs ⊆ exprs := fun e mem => inside (by simp [Guard.exprsAll, mem])
    simp only [Guard.stripAll, lowerLoop, lowerExpr_strip h _ cond test, lowerStmt_strip h body own,
      lowerLoop_strip h _ gs rest]

end

end

end Analysis

/-! The assembler reads nothing but the symbols. -/

namespace Assemble
variable {a a' : Analysis}

theorem tables_eq (same : a'.symbols = a.symbols) : a' = ⟨a.symbols, a'.bindings, a'.types⟩ := by
  rw [← same]

theorem placeOf_congr (same : a'.symbols = a.symbols) : placeOf a' = placeOf a := by
  rw [tables_eq same]
  rfl

theorem routineOf_congr (same : a'.symbols = a.symbols) : routineOf a' = routineOf a := by
  rw [tables_eq same]
  rfl

theorem openRoutine_congr (same : a'.symbols = a.symbols) : openRoutine a' = openRoutine a := by
  rw [tables_eq same]
  rfl

mutual

theorem op_congr (same : a'.symbols = a.symbols) : (o : Op) → op a' o = op a o
  | .instr _ | .jump .. | .fault _ => by simp only [op]
  | .load _ | .store _ => by simp only [op, placeOf_congr same]
  | .invoke _ => by simp only [op, routineOf_congr same]
  | .method _ body => by simp only [op, openRoutine_congr same, ops_congr same body]

theorem ops_congr (same : a'.symbols = a.symbols) : (os : List Op) → ops a' os = ops a os
  | [] => by simp only [ops]
  | o :: os => by simp only [ops, op_congr same o, ops_congr same os]

end

end Assemble

theorem Analysis.assemble_congr {a a' : Analysis} (same : a'.symbols = a.symbols)
    (package name : String) (code : List Op) :
    a'.assemble package name code = a.assemble package name code := by
  rw [Analysis.assemble, Analysis.assemble, Assemble.ops_congr same]

/-- Code is the same with and without the parentheses. -/
theorem Analysis.Levels.generate {n : NodeId} {p : Program} {a a' : Analysis}
    (h : a.Levels n p.exprs a') (package : String) :
    a'.generate package p = a.generate package (p.strip n) := by
  have code : a.lower (p.strip n) = a'.lower p := by
    rw [Analysis.lower, Analysis.lower]
    exact congrArg (· ++ _) (Analysis.lowerStmts_strip h p.body fun _ mem => mem)
  rw [generate_eq, generate_eq, code]
  exact Analysis.assemble_congr h.symbols ..

/-- The analysis comes to the same with and without the parentheses. -/
theorem Program.analyze_strip {n m : NodeId} {p : Program} (distinct : p.ids.Nodup)
    (marked : Expr.Marked n m p.exprs) (other : m ≠ n) :
    Agree (Analysis.Levels n p.exprs) (p.strip n).analyze p.analyze := by
  unfold analyze
  rw [bind_strip]
  cases bound : p.bind with
  | error e => exact .error (.refl e)
  | ok a =>
    show Agree _ ((p.strip n).infer a >>= _) (p.infer a >>= _)
    refine .bind (infer_strip distinct marked other bound) fun b b' level => ?_
    refine .bind (Analysis.settle_strip level) fun c c' level => ?_
    exact .bind (Analysis.checkStmts_strip level p.body fun _ mem => mem) fun _ _ _ => .pure level

/-- Putting any expression of a program in parentheses of their own changes nothing. Both programs
are accepted, with the same symbols, the same symbol for every name, the same type for every node
but the new one, and the same result of generating code; or both are refused, with errors of one
kind and one message. -/
theorem Program.parentheses_redundant {p p' : Program} {n : Node} (distinct : p.ids.Nodup)
    (fresh : n.id ∉ p.ids) (wraps : p.Wraps n p') (package : String) :
    (∃ a a', p.analyze = .ok a ∧ p'.analyze = .ok a' ∧ a'.symbols = a.symbols ∧
      a'.bindings = a.bindings ∧ (∀ k, k ≠ n.id → a'.types[k]? = a.types[k]?) ∧
      a'.generate package p' = a.generate package p) ∨
    ∃ e e', p.analyze = .error e ∧ p'.analyze = .error e' ∧ e'.ctorIdx = e.ctorIdx ∧
      e'.message = e.message := by
  obtain ⟨m, other, marked⟩ := wraps.marked distinct fresh
  have agree := analyze_strip (wraps.distinct distinct fresh) marked other
  have stripped := wraps.strip_eq fresh
  rw [stripped] at agree
  generalize p.analyze = x at agree ⊢
  generalize p'.analyze = x' at agree ⊢
  cases agree with
  | @ok a a' level =>
    refine Or.inl ⟨a, a', rfl, rfl, level.symbols, level.bindings, level.types, ?_⟩
    rw [level.generate, stripped]
  | @error e e' matching => exact Or.inr ⟨e, e', rfl, rfl, matching.kind, matching.message⟩

/-- A program that reads a number and prints half of it. That the number is a float is found out
from the division, after its name has been visited. -/
def Program.halving : Program where
  name := ⟨0, "p", default⟩
  body := [
    .input ⟨2, default⟩ [⟨1, "x", default⟩],
    .print ⟨7, default⟩
      (.binary ⟨6, default⟩ .slash (.var ⟨4, default⟩ ⟨3, "x", default⟩) (.int ⟨5, default⟩ 2))]
  span := default

/-- The same with parentheses around the name. -/
def Program.halvingWrapped : Program where
  name := ⟨0, "p", default⟩
  body := [
    .input ⟨2, default⟩ [⟨1, "x", default⟩],
    .print ⟨7, default⟩
      (.binary ⟨6, default⟩ .slash
        (.paren ⟨8, default⟩ (.var ⟨4, default⟩ ⟨3, "x", default⟩)) (.int ⟨5, default⟩ 2))]
  span := default

theorem Program.parentheses_redundant_halving :
    halving.ids.Nodup ∧ 8 ∉ halving.ids ∧ halving.Wraps ⟨8, default⟩ halvingWrapped ∧
      ∃ a a', halving.analyze = .ok a ∧ halvingWrapped.analyze = .ok a' ∧
        a'.symbols = a.symbols ∧ a'.bindings = a.bindings ∧
        (∀ k, k ≠ 8 → a'.types[k]? = a.types[k]?) ∧
        a'.generate "out" halvingWrapped = a.generate "out" halving := by
  have distinct : halving.ids.Nodup := by decide
  have fresh : 8 ∉ halving.ids := by decide
  have wraps : halving.Wraps ⟨8, default⟩ halvingWrapped :=
    @Wraps.body _ _ _ [.input ⟨2, default⟩ [⟨1, "x", default⟩]] [] _ _ (.print (.left (.here _)))
  have accepted : halving.analyze.isOk = true := by decide +kernel
  refine ⟨distinct, fresh, wraps, ?_⟩
  rcases parentheses_redundant distinct fresh wraps "out" with same | ⟨e, _, failed, -⟩
  · exact same
  · rw [failed] at accepted
    cases accepted

end Guarded
