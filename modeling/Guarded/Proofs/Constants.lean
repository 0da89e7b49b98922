import Guarded.Proofs.Allocation
import Guarded.Proofs.Saving

/-!
The float constants of compiled code are finite. A literal that is not finite as a single is refused
when it is read; code takes its constants from literals, or rounds an integer of 32 bits, which is far
from the greatest single. So the code of a source fits into an object file, provided that no routine
is longer than a branch target can say.
-/

namespace Guarded

/-- Every float literal in the list is finite. -/
def FiniteLiterals (es : List Expr) : Prop :=
  ∀ n v, Expr.float n v ∈ es → v.isFinite = true

namespace FiniteLiterals
variable {xs ys : List Expr}

theorem of_append (h : FiniteLiterals (xs ++ ys)) : FiniteLiterals xs ∧ FiniteLiterals ys :=
  ⟨fun n v mem => h n v (by simp [mem]), fun n v mem => h n v (by simp [mem])⟩

theorem of_mem {e : Expr} {es : List Expr} (h : FiniteLiterals (Expr.partsAll es)) (mem : e ∈ es) :
    FiniteLiterals e.parts := by
  induction es with
  | nil => simp at mem
  | cons e' es ih =>
    obtain ⟨first, rest⟩ := of_append h
    rcases List.mem_cons.mp mem with rfl | mem
    · exact first
    · exact ih rest mem

theorem of_mem_targets {t : Target} {ts : List Target} (h : FiniteLiterals (Target.exprsAll ts))
    (mem : t ∈ ts) : FiniteLiterals t.exprs := by
  induction ts with
  | nil => simp at mem
  | cons t' ts ih =>
    obtain ⟨first, rest⟩ := of_append h
    rcases List.mem_cons.mp mem with rfl | mem
    · exact first
    · exact ih rest mem

mutual

/-- The literals of a method's body are among those of the statement around it. -/
theorem methods : {s : Stmt} → FiniteLiterals s.exprs → ∀ m ∈ s.methods,
    FiniteLiterals (Stmt.exprsAll m.body)
  | .method .., h, m, mem => by
    rcases List.mem_cons.mp mem with rfl | mem
    · exact h
    · exact methodsAll h m mem
  | .alternative .., h, m, mem | .iterative .., h, m, mem => methodsGuards h m mem
  | .block .., h, m, mem => methodsAll h m mem
  | .varDecl .., _, _, mem | .arrayDecl .., _, _, mem | .assign .., _, _, mem
  | .input .., _, _, mem | .print .., _, _, mem | .ret .., _, _, mem | .call .., _, _, mem => by
    simp [Stmt.methods] at mem

theorem methodsAll : {ss : List Stmt} → FiniteLiterals (Stmt.exprsAll ss) →
    ∀ m ∈ Stmt.methodsAll ss, FiniteLiterals (Stmt.exprsAll m.body)
  | [], _, _, mem => by simp [Stmt.methodsAll] at mem
  | _ :: _, h, m, mem => by
    obtain ⟨first, rest⟩ := of_append h
    rcases List.mem_append.mp mem with mem | mem
    · exact methods first m mem
    · exact methodsAll rest m mem

theorem methodsGuards : {gs : List Guard} → FiniteLiterals (Guard.exprsAll gs) →
    ∀ m ∈ Guard.methodsAll gs, FiniteLiterals (Stmt.exprsAll m.body)
  | [], _, _, mem => by simp [Guard.methodsAll] at mem
  | .mk .. :: _, h, m, mem => by
    obtain ⟨first, rest⟩ := of_append h
    rcases List.mem_append.mp mem with mem | mem
    · exact methods (of_append first).2 m mem
    · exact methodsGuards rest m mem

end

end FiniteLiterals

/-- The float literals of a program that was read are finite. -/
theorem parse_finite {source : String} {p : Program} (h : parse source = .ok p) :
    FiniteLiterals p.exprs := by
  obtain ⟨-, sound, -⟩ := parse_reads h
  exact fun n v mem => (sound _ mem).2 n v rfl

/-- Every float constant of the code is finite. -/
def Op.Finite (ops : List Op) : Prop :=
  ∀ v, Op.instr (.fconst v) ∈ ops → v.isFinite = true

namespace Op.Finite
variable {xs ys : List Op}

theorem append (first : Finite xs) (second : Finite ys) : Finite (xs ++ ys) := by
  intro v mem
  rcases List.mem_append.mp mem with mem | mem
  · exact first v mem
  · exact second v mem

theorem flatMap {α : Type} {f : α → List Op} {items : List α}
    (each : ∀ x ∈ items, Finite (f x)) : Finite (items.flatMap f) := by
  intro v mem
  obtain ⟨x, inside, mem⟩ := List.mem_flatMap.mp mem
  exact each x inside v mem

theorem of_not_mem (absent : ∀ v, Op.instr (.fconst v) ∉ xs) : Finite xs :=
  fun v mem => absurd mem (absent v)

theorem single (v : Float32) (finite : v.isFinite = true) : Finite [.instr (.fconst v)] := by
  intro v' mem
  simp only [List.mem_singleton, Op.instr.injEq, Instr.fconst.injEq] at mem
  rwa [mem]

theorem withSymbol {a : Analysis} {name : Ident} {code : SymbolId → List Op}
    (each : ∀ id, Finite (code id)) : Finite (a.withSymbol name code) := by
  unfold Analysis.withSymbol
  split
  · exact each _
  · exact of_not_mem (by simp)

end Op.Finite

namespace Analysis
variable {a : Analysis}

theorem cast_finite (s t : Ty) : Op.Finite (cast s t) := by
  unfold cast
  split <;> exact .of_not_mem (by simp)

theorem truth_finite (j : Jump) : Op.Finite (truth j) :=
  .of_not_mem (by simp [truth])

theorem arithmetic_ne (op : BinOp) (float : Bool) (v : Float32) :
    arithmetic op float ≠ .fconst v := by
  unfold arithmetic
  split <;> nofun

theorem floatCompare_ne (cond : Cond) (v : Float32) : floatCompare cond ≠ .fconst v := by
  cases cond <;> nofun

theorem instr_finite {i : Instr} (other : ∀ v, i ≠ .fconst v) : Op.Finite [.instr i] :=
  .of_not_mem fun v mem => other v (by simpa [eq_comm] using mem)

theorem ite_finite {p : Prop} [Decidable p] {i j : Instr} (first : ∀ v, i ≠ .fconst v)
    (second : ∀ v, j ≠ .fconst v) : Op.Finite [.instr (if p then i else j)] := by
  split
  · exact instr_finite first
  · exact instr_finite second

mutual

theorem lowerExpr_finite : (e : Expr) → (needed : Ty) → FiniteLiterals e.parts →
    Op.Finite (a.lowerExpr needed e)
  | .int _ v, needed, _ => by
    simp only [lowerExpr]
    split
    · exact .single _ (Number.singleOfInt_isFinite (by have := v.toInt_lt; have := v.le_toInt; omega))
    · exact instr_finite (by nofun)
  | .float n v, needed, h => by
    simp only [lowerExpr]
    split
    · exact instr_finite (by nofun)
    · exact .single v (h n v (Expr.mem_parts _))
  | .bool .., _, _ => by
    simp only [lowerExpr]
    exact instr_finite (by nofun)
  | .paren _ inner, needed, h => by
    simp only [lowerExpr]
    exact lowerExpr_finite inner needed (FiniteLiterals.of_append h).1
  | .var .., _, _ => by
    simp only [lowerExpr]
    exact (Op.Finite.withSymbol fun _ => .of_not_mem (by simp)).append (cast_finite _ _)
  | .index _ _ i, _, h => by
    have load (id : SymbolId) : Op.Finite [.load id] := .of_not_mem (by simp)
    have index := lowerExpr_finite i .int (FiniteLiterals.of_append h).1
    simp only [lowerExpr]
    exact (((Op.Finite.withSymbol load).append index).append (ite_finite (by nofun) (by nofun))).append
      (cast_finite _ _)
  | .call _ _ args, _, h => by
    have call (id : SymbolId) : Op.Finite (a.lowerArgs args (a.paramTypes id) ++ [.invoke id]) :=
      (lowerArgs_finite args _ (FiniteLiterals.of_append h).1).append (.of_not_mem (by simp))
    simp only [lowerExpr]
    exact (Op.Finite.withSymbol call).append (cast_finite _ _)
  | .unary _ .neg operand, _, h => by
    have value (ty : Ty) := lowerExpr_finite operand ty (FiniteLiterals.of_append h).1
    simp only [lowerExpr]
    exact ((value _).append (ite_finite (by nofun) (by nofun))).append (cast_finite _ _)
  | .unary _ .not operand, _, h => by
    have value := lowerExpr_finite operand .boolean (FiniteLiterals.of_append h).1
    simp only [lowerExpr]
    exact (value.append (truth_finite _)).append (cast_finite _ _)
  | .binary _ op lhs rhs, _, h => by
    obtain ⟨left, right⟩ := FiniteLiterals.of_append (FiniteLiterals.of_append h).1
    have both (ty : Ty) {code : List Op} (last : Op.Finite code) :
        Op.Finite (a.lowerExpr ty lhs ++ a.lowerExpr ty rhs ++ code) :=
      ((lowerExpr_finite lhs ty left).append (lowerExpr_finite rhs ty right)).append last
    simp only [lowerExpr]
    refine Op.Finite.append ?_ (cast_finite _ _)
    cases op
    case lt | gt | le | ge | eq | ne =>
      dsimp only
      split
      · exact (both _ (instr_finite (floatCompare_ne _))).append (truth_finite _)
      · exact both _ (truth_finite _)
    case add | sub | mul => exact both _ (instr_finite (arithmetic_ne _ _))
    all_goals exact both _ (instr_finite (by nofun))

theorem lowerArgs_finite : (args : List Expr) → (tys : List Ty) →
    FiniteLiterals (Expr.partsAll args) → Op.Finite (a.lowerArgs args tys)
  | [], _, _ => .of_not_mem (by simp [lowerArgs])
  | _ :: _, [], _ => .of_not_mem (by simp [lowerArgs])
  | arg :: args, ty :: tys, h => by
    obtain ⟨first, rest⟩ := FiniteLiterals.of_append h
    simp only [lowerArgs]
    exact (lowerExpr_finite arg ty first).append (lowerArgs_finite args tys rest)

end

theorem lowerSource_finite {target : Target} {value : Expr} (ofTarget : FiniteLiterals target.exprs)
    (ofValue : FiniteLiterals value.parts) : Op.Finite (a.lowerSource target value) := by
  cases target with
  | var name => exact .withSymbol fun id => lowerExpr_finite value _ ofValue
  | index array i =>
    refine .withSymbol fun id => ?_
    have load : Op.Finite [.load id] := .of_not_mem (by simp)
    exact (load.append (lowerExpr_finite i .int ofTarget)).append (lowerExpr_finite value _ ofValue)

theorem lowerStore_finite (target : Target) : Op.Finite (a.lowerStore target) := by
  cases target with
  | var name => exact .withSymbol fun id => .of_not_mem (by simp)
  | index array i => exact .withSymbol fun id => ite_finite (by nofun) (by nofun)

theorem lowerAssign_finite {targets : List Target} {values : List Expr}
    (ofTargets : FiniteLiterals (Target.exprsAll targets))
    (ofValues : FiniteLiterals (Expr.partsAll values)) :
    Op.Finite (a.lowerAssign targets values) := by
  refine .append (.flatMap fun (t, v) mem => ?_) (.flatMap fun t _ => lowerStore_finite t)
  obtain ⟨inTargets, inValues⟩ := List.of_mem_zip mem
  exact lowerSource_finite (ofTargets.of_mem_targets inTargets) (ofValues.of_mem inValues)

theorem lowerArrays_finite {ty : Ty} {size : Expr} {names : List Ident}
    (h : FiniteLiterals size.parts) : Op.Finite (a.lowerArrays ty size names) := by
  refine .flatMap fun name _ => .withSymbol fun id => ?_
  exact (lowerExpr_finite size .int h).append (.of_not_mem (by simp))

theorem lowerInput_finite (names : List Ident) : Op.Finite (a.lowerInput names) :=
  .flatMap fun _ _ => .withSymbol fun _ => .of_not_mem (by simp)

theorem lowerReturn_finite {here : Option SymbolId} {value : Option Expr}
    (h : ∀ e, value = some e → FiniteLiterals e.parts) : Op.Finite (a.lowerReturn here value) := by
  cases value with
  | none => exact instr_finite (by simp)
  | some e =>
    cases here with
    | none => exact .of_not_mem (by simp [lowerReturn])
    | some m => exact (lowerExpr_finite e _ (h e rfl)).append (ite_finite (by simp) (by simp))

theorem lowerEnd_finite (method : SymbolId) (line : Nat) : Op.Finite (a.lowerEnd method line) := by
  have zero : Float32.isFinite 0 = true := by decide +kernel
  unfold lowerEnd
  split
  · refine .append (.of_not_mem (by simp)) ?_
    split
    · exact (Op.Finite.single 0 zero).append (instr_finite (by nofun))
    · exact .of_not_mem (by simp)
  · exact instr_finite (by nofun)

mutual

theorem lowerStmt_finite : (s : Stmt) → (here : Option SymbolId) → FiniteLiterals s.exprs →
    Op.Finite (a.lowerStmt here s)
  | .varDecl .., _, _ => .of_not_mem (by simp [lowerStmt])
  | .arrayDecl .., _, h => by
    simp only [lowerStmt]
    exact lowerArrays_finite h
  | .method .., _, _ => by
    simp only [lowerStmt]
    exact .withSymbol fun _ => .of_not_mem (by simp)
  | .assign .., _, h => by
    obtain ⟨ofTargets, ofValues⟩ := FiniteLiterals.of_append h
    simp only [lowerStmt]
    exact lowerAssign_finite ofTargets ofValues
  | .input _ names, _, _ => by
    simp only [lowerStmt]
    exact lowerInput_finite names
  | .print _ value, _, h => by
    simp only [lowerStmt, lowerPrint]
    exact (lowerExpr_finite value _ h).append (instr_finite (by nofun))
  | .alternative _ gs, here, h => by
    simp only [lowerStmt]
    exact lowerChoice_finite gs here _ h
  | .iterative _ gs, here, h => by
    simp only [lowerStmt]
    exact lowerLoop_finite gs here 0 h
  | .block _ _ body, here, h => by
    simp only [lowerStmt]
    exact lowerStmts_finite body here h
  | .ret _ none, _, _ => by
    simp only [lowerStmt]
    exact lowerReturn_finite nofun
  | .ret _ (some value), _, h => by
    simp only [lowerStmt]
    exact lowerReturn_finite fun e same => Option.some.inj same ▸ h
  | .call _ _ args, _, h => by
    simp only [lowerStmt, lowerCall]
    refine .withSymbol fun id => ?_
    exact (lowerArgs_finite args _ h).append (.of_not_mem (by simp))

theorem lowerStmts_finite : (ss : List Stmt) → (here : Option SymbolId) →
    FiniteLiterals (Stmt.exprsAll ss) → Op.Finite (a.lowerStmts here ss)
  | [], _, _ => .of_not_mem (by simp [lowerStmts])
  | s :: ss, here, h => by
    obtain ⟨first, rest⟩ := FiniteLiterals.of_append h
    simp only [lowerStmts]
    exact (lowerStmt_finite s here first).append (lowerStmts_finite ss here rest)

theorem lowerChoice_finite : (gs : List Guard) → (here : Option SymbolId) → (line : Int32) →
    FiniteLiterals (Guard.exprsAll gs) → Op.Finite (a.lowerChoice here line gs)
  | [], _, _, _ => .of_not_mem (by simp [lowerChoice])
  | .mk _ cond body :: gs, here, line, h => by
    obtain ⟨first, rest⟩ := FiniteLiterals.of_append h
    obtain ⟨ofCond, ofBody⟩ := FiniteLiterals.of_append first
    have jump (j : Jump) (d : Int) : Op.Finite [.jump j d] := .of_not_mem (by simp)
    simp only [lowerChoice]
    exact ((((lowerExpr_finite cond .boolean ofCond).append (jump _ _)).append
      (lowerStmt_finite body here ofBody)).append (jump _ _)).append
      (lowerChoice_finite gs here line rest)

theorem lowerLoop_finite : (gs : List Guard) → (here : Option SymbolId) → (before : Nat) →
    FiniteLiterals (Guard.exprsAll gs) → Op.Finite (a.lowerLoop here before gs)
  | [], _, _, _ => .of_not_mem (by simp [lowerLoop])
  | .mk _ cond body :: gs, here, before, h => by
    obtain ⟨first, rest⟩ := FiniteLiterals.of_append h
    obtain ⟨ofCond, ofBody⟩ := FiniteLiterals.of_append first
    have jump (j : Jump) (d : Int) : Op.Finite [.jump j d] := .of_not_mem (by simp)
    simp only [lowerLoop]
    exact ((((lowerExpr_finite cond .boolean ofCond).append (jump _ _)).append
      (lowerStmt_finite body here ofBody)).append (jump _ _)).append
      (lowerLoop_finite gs here _ rest)

end

end Analysis

theorem Assemble.loadInstr_ne (place : Place) (slot : Slot) (v : Float32) :
    loadInstr place slot ≠ .fconst v := by
  unfold loadInstr
  repeat' split
  all_goals nofun

theorem Assemble.storeInstr_ne (place : Place) (slot : Slot) (v : Float32) :
    storeInstr place slot ≠ .fconst v := by
  unfold storeInstr
  repeat' split
  all_goals nofun

/-- A float constant of laid out code stands in the symbolic code. -/
theorem Op.Finite.laid {a : Analysis} {places : Places} {code : Array Instr} {ops : List Op}
    (h : Op.Finite ops) (laid : Op.CodeAt a places code 0 ops) (size : code.size = Op.sizeAll ops)
    {v : Float32} (mem : Instr.fconst v ∈ code.toList) : v.isFinite = true := by
  obtain ⟨k, low, found⟩ := List.mem_iff_getElem.mp mem
  have low' : k < code.size := by simpa using low
  obtain ⟨xs, op, ys, i, rfl, -, -, found', becomes⟩ := laid.item (size ▸ low')
  have same : i = .fconst v := by
    rw [Nat.zero_add, ← Array.getElem?_toList, List.getElem?_eq_getElem low, found] at found'
    exact (Option.some.inj found').symm
  subst same
  cases op with
  | instr i =>
    obtain rfl : Instr.fconst v = i := becomes
    exact h v (by simp)
  | load x =>
    obtain ⟨place, slot, -, -, same⟩ := becomes
    exact absurd same.symm (Assemble.loadInstr_ne place slot v)
  | store x =>
    obtain ⟨place, slot, -, -, same⟩ := becomes
    exact absurd same.symm (Assemble.storeInstr_ne place slot v)
  | invoke x =>
    obtain ⟨name, -, same⟩ := becomes
    cases same
  | jump j d => cases j <;> cases becomes
  | method | fault => exact becomes.elim

/-- The float constants of a unit that a source compiles to are finite. -/
theorem Program.Compiled.finite {p : Program} {a : Analysis} {places : Places} {u : ObjectUnit}
    (compiled : p.Compiled a places u) (literals : FiniteLiterals p.exprs) {r : Routine}
    (mem : r ∈ u.entry :: u.routines.toList) {v : Float32} (const : Instr.fconst v ∈ r.code.toList) :
    v.isFinite = true := by
  rcases List.mem_cons.mp mem with rfl | mem
  · have body := Analysis.lowerStmts_finite (a := a) p.body none literals
    exact (body.append (Analysis.instr_finite (by nofun))).laid compiled.code compiled.size const
  · obtain ⟨rs, perm, laid⟩ := compiled.all
    obtain ⟨i, found⟩ := List.mem_iff_getElem?.mp (perm.mem_iff.mpr mem)
    obtain ⟨m, found', laidR⟩ := exists_of_forall₂ laid.flip found
    have body := literals.methodsAll m (List.mem_of_getElem? found')
    have code := Analysis.lowerStmts_finite (a := a) m.body (some (a.compiled m).1) body
    exact (code.append (Analysis.lowerEnd_finite _ _)).laid laidR.code laidR.size const

/-- A routine has no more locals than a slot number can say. -/
theorem Program.Compiled.locals_le {p : Program} {a : Analysis} {places : Places} {u : ObjectUnit}
    (compiled : p.Compiled a places u) {r : Routine} (mem : r ∈ u.entry :: u.routines.toList) :
    r.locals.size ≤ Draft.slotLimit := by
  rcases List.mem_cons.mp mem with rfl | mem
  · rw [compiled.heading.2.2]
    exact Nat.zero_le _
  · obtain ⟨rs, perm, laid⟩ := compiled.all
    obtain ⟨i, found⟩ := List.mem_iff_getElem?.mp (perm.mem_iff.mpr mem)
    obtain ⟨m, -, laidR⟩ := exists_of_forall₂ laid.flip found
    obtain ⟨-, -, -, -, -, bounded⟩ := laidR.locals
    exact bounded

/-- The unit of a source fits into an object file if no routine is too long for a branch target and
the digits of its constants read back. -/
theorem compile_savable {package source : String} {u : ObjectUnit}
    (h : compile package source = .ok u)
    (short : ∀ r ∈ u.entry :: u.routines.toList, r.code.size ≤ 0x10000000000000000)
    (digits : ∀ r ∈ u.entry :: u.routines.toList, ∀ v, Instr.fconst v ∈ r.code.toList →
      Json.ReadsBack v) : u.Savable := by
  obtain ⟨p, a, places, parsed, analyzed, formed, compiled⟩ := Program.compile_ok h
  intro r mem i inside
  have slot {n : Nat} {ty : Slot} (found : r.locals[n]? = some ty) : n < 0x10000 :=
    (Array.getElem?_eq_some_iff.mp found).1.trans_le (compiled.locals_le mem)
  have fits := compiled.fits formed analyzed r mem i inside
  cases i with
  | fconst v => exact ⟨compiled.finite (parse_finite parsed) mem inside, digits r mem v inside⟩
  | iload n | istore n => exact fits.elim slot slot
  | fload n | fstore n => exact slot fits
  | aload n | astore n =>
    obtain ⟨ty, found, -⟩ := fits
    exact slot found
  | branch | branchCompare | goto => exact lt_of_lt_of_le fits (short r mem)
  | _ => trivial

end Guarded
