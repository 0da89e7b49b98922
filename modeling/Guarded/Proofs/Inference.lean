import Guarded.Analysis.Full
import Guarded.Proofs.Progress
import Guarded.Proofs.Typing

/-!
Soundness of type inference. The last traversal has found every demand met; settling makes an
integer of every number of unknown kind and refuses what is still open; the final checks refuse what
demands let pass. What is left is a typing of the program.

The main statement is that the tables of every program that passes the analysis type it.
-/

namespace Guarded

namespace Ty
variable {s t : Ty}

theorem settle_terminal (known : t ≠ .undefined) : t.settle.isTerminal = true := by
  cases t <;> first | rfl | exact absurd rfl known

theorem settle_of_terminal (terminal : t.isTerminal = true) : t.settle = t := by
  cases t <;> first | rfl | cases terminal

theorem settle_isNumeric : t.settle.isNumeric = t.isNumeric := by
  cases t <;> rfl

theorem settle_isTerminal (terminal : t.settle.isTerminal = true) : t ≠ .undefined := by
  rintro rfl
  cases terminal

theorem Agrees.compatible (h : s.Agrees t) (left : s ≠ .undefined) (right : t ≠ .undefined) :
    s.settle.Compatible t := by
  obtain ⟨u, h⟩ := h
  cases s <;> cases t <;> first | decide | exact absurd rfl left | exact absurd rfl right | cases h

theorem Keeps.agrees (h : s.Keeps t) : s.Agrees t :=
  ⟨_, h⟩

theorem Keeps.eq_of_le (h : s.Keeps t) (le : s ≤ t) : s = t :=
  eq_of_unify_eq le h

/-- Once the operand of a minus sign has a type, the sign has the same. -/
theorem Keeps.eq_of_le_num (h : s.Keeps t) (le : s ≤ .num) (known : t ≠ .undefined) : s = t := by
  cases s <;> cases t <;>
    first | rfl | exact absurd rfl known | exact absurd le (by decide) | cases h

theorem Compatible.settle_right (h : s.Compatible t) : s.Compatible t.settle := by
  rcases h with ⟨rfl, rfl⟩ | ⟨left, right⟩
  · exact Or.inl ⟨rfl, rfl⟩
  · exact Or.inr ⟨left, settle_isNumeric.trans right⟩

theorem Compatible.numeric (h : s.Compatible t) (right : t.isNumeric = true) :
    s.isNumeric = true := by
  rcases h with ⟨-, rfl⟩ | ⟨left, -⟩
  · cases right
  · exact left

theorem Compatible.boolean (h : s.Compatible .boolean) : s = .boolean := by
  rcases h with ⟨same, -⟩ | ⟨-, right⟩
  · exact same
  · cases right

/-- The type of a sum, difference or product once it is settled. -/
theorem settle_arithmeticType (s t : Ty) :
    (Infer.arithmeticType s t).settle =
      if s.settle = .float ∨ t.settle = .float then .float else .int := by
  cases s <;> cases t <;> rfl

theorem arithmeticType_isNumeric : (Infer.arithmeticType s t).isNumeric = true := by
  unfold Infer.arithmeticType
  split
  · rfl
  · split <;> rfl

end Ty

/-- Only procedures are left without a type. -/
theorem Symbol.settle_ok {s s' : Symbol} (h : s.settle = .ok s') :
    (∃ ps, s.kind = .procedure ps) ∧ s' = s ∨
      s.ty ≠ .undefined ∧ s' = { s with ty := s.ty.settle } := by
  unfold Symbol.settle at h
  split at h
  · rename_i kind
    exact Or.inl ⟨⟨_, kind⟩, (Except.ok.inj h).symm⟩
  · cases h
  · rename_i known
    exact Or.inr ⟨known, (Except.ok.inj h).symm⟩

namespace Analysis

/-- The second tables are the first ones with every type settled. -/
structure Settled (a b : Analysis) : Prop where
  bindings : b.bindings = a.bindings
  size : b.symbols.size = a.symbols.size
  symbols : ∀ (i : Nat) (s : Symbol), a.symbols[i]? = some s →
    ∃ s', b.symbols[i]? = some s' ∧ s.settle = .ok s'
  types : ∀ k, b.typeOf k = (a.typeOf k).settle

theorem settle_settled {a b : Analysis} (h : a.settle = .ok b) : a.Settled b := by
  unfold settle at h
  obtain ⟨symbols, mapped, done⟩ := except_bind_ok.mp h
  obtain rfl : { a with symbols, types := a.types.map fun _ ty => ty.settle } = b := by
    simpa [pure, Except.pure] using done
  have each := List.forall₂_iff_get.mp (except_mapM_array_ok mapped)
  have size : symbols.size = a.symbols.size := by simpa using each.1.symm
  refine ⟨rfl, size, fun i s found => ?_, fun k => ?_⟩
  · obtain ⟨low, rfl⟩ := Array.getElem?_eq_some_iff.mp found
    have low' : i < symbols.size := size ▸ low
    exact ⟨symbols[i], by simp [low'],
      by simpa using each.2 i (by simpa using low) (by simpa using low')⟩
  · simp only [typeOf, Std.TreeMap.getElem?_map]
    cases a.types[k]? <;> rfl

namespace Settled
variable {a b : Analysis} (settled : a.Settled b)
include settled

theorem retypes : a.Retypes b where
  bindings := settled.bindings
  size := settled.size
  symbols i s found := by
    obtain ⟨s', found', ok⟩ := settled.symbols i s found
    rcases Symbol.settle_ok ok with ⟨-, rfl⟩ | ⟨-, rfl⟩
    · exact ⟨s'.ty, fun _ => rfl, found'⟩
    · exact ⟨s.ty.settle, Ty.settle_of_terminal, found'⟩

/-- What is not a procedure has a type. -/
theorem symbol {i : Nat} {s : Symbol} (found : a.symbols[i]? = some s)
    (kind : ∀ ps, s.kind ≠ .procedure ps) :
    a.symbolType i ≠ .undefined ∧ b.symbolType i = (a.symbolType i).settle := by
  obtain ⟨s', found', ok⟩ := settled.symbols i s found
  rcases Symbol.settle_ok ok with ⟨⟨ps, isProcedure⟩, -⟩ | ⟨known, rfl⟩
  · exact absurd isProcedure (kind ps)
  · simp [symbolType, found, found', known]

theorem symbolType_of_terminal {i : Nat} (terminal : (b.symbolType i).isTerminal = true) :
    b.symbolType i = (a.symbolType i).settle := by
  cases found : a.symbols[i]? with
  | none =>
    have missing : b.symbols[i]? = none := by
      rw [Array.getElem?_eq_none_iff] at found ⊢
      rw [settled.size]
      exact found
    simp [symbolType, missing, Ty.isTerminal] at terminal
  | some s =>
    obtain ⟨s', found', ok⟩ := settled.symbols i s found
    rcases Symbol.settle_ok ok with ⟨-, rfl⟩ | ⟨-, rfl⟩
    · simp only [symbolType, found', Option.map_some, Option.getD_some] at terminal
      simp [symbolType, found, found', Ty.settle_of_terminal terminal]
    · simp [symbolType, found, found']

/-- The last step for a named expression. -/
theorem typedAs {n : Node} {name : Ident} {id : SymbolId} {s : Symbol}
    (found : a.symbols[id]? = some s) (kind : ∀ ps, s.kind ≠ .procedure ps)
    (bound : a.bindings[name.id]? = some id) (kept : (a.typeOf n.id).Keeps (a.symbolType id))
    (le : a.typeOf n.id ≤ a.symbolType id) : b.TypedAs n name := by
  obtain ⟨known, same⟩ := settled.symbol found kind
  refine ⟨id, settled.bindings ▸ bound, ?_, same ▸ Ty.settle_terminal known⟩
  rw [settled.types, same, kept.eq_of_le le]

theorem named {n : Node} {name : Ident} {ty : Ty} (known : ty ≠ .undefined)
    (met : ∃ id, a.bindings[name.id]? = some id ∧ (a.symbolType id).Keeps ty)
    (typed : b.TypedAs n name) : (b.typeOf n.id).Compatible ty := by
  obtain ⟨id, bound, kept⟩ := met
  obtain ⟨id', bound', same, terminal⟩ := typed
  obtain rfl : id = id' := by
    rw [settled.bindings, bound] at bound'
    exact Option.some.inj bound'
  have settle := settled.symbolType_of_terminal terminal
  rw [settle] at terminal
  rw [same, settle]
  exact kept.agrees.compatible (Ty.settle_isTerminal terminal) known

theorem agreed {e : Expr} {ty : Ty} (known : ty ≠ .undefined)
    (met : (a.typeOf e.id).Agrees ty) (typed : e.Typed b) : (b.typeOf e.id).Compatible ty := by
  have terminal := typed.terminal
  rw [settled.types] at terminal ⊢
  exact met.compatible (Ty.settle_isTerminal terminal) known

/-- A typed expression fits every demand it meets. -/
theorem compatible {ty : Ty} (known : ty ≠ .undefined) :
    (e : Expr) → e.Meets a ty → e.Typed b → (b.typeOf e.id).Compatible ty
  | .var n name, met, typed => settled.named known met typed
  | .index n name _, met, typed => settled.named known met typed.1
  | .call n name _, met, typed => settled.named known met typed.1
  | .paren n inner, met, typed => by
    change (b.typeOf n.id).Compatible ty
    rw [typed.2]
    exact compatible known inner met typed.1
  | .unary n .neg operand, met, typed => by
    unfold Expr.Meets at met
    split at met
    · change (b.typeOf n.id).Compatible ty
      rw [typed.2.1]
      exact compatible known operand met typed.1
    · exact settled.agreed known met typed
  | .int .., met, typed | .float .., met, typed | .bool .., met, typed
  | .unary _ .not _, met, typed | .binary .., met, typed => settled.agreed known met typed

end Settled

theorem checkIndex_ok {b : Analysis} {i : Expr} (h : b.checkIndex i = .ok ()) :
    b.typeOf i.id = .int := by
  unfold checkIndex at h
  split at h
  · cases h
  · rename_i same
    simpa using same

end Analysis

theorem Analysis.Names.symbolType {a : Analysis} {name : Ident} {id : SymbolId} {s : Symbol}
    (h : a.Names name id s) : a.symbolType id = s.ty := by
  simp [Analysis.symbolType, h.2]

theorem Analysis.Names.params {a : Analysis} {name : Ident} {id : SymbolId} {s : Symbol}
    {ps : List SymbolId} (h : a.Names name id s) (kind : s.kind.params? = some ps) :
    a.params id = ps := by
  simp [Analysis.params, Analysis.symbolKind, h.2, kind]

section Soundness
variable {p : Program} {a b : Analysis}

/-- Arguments that have been found to fit their parameters still do when all is settled. -/
theorem Program.Linked.passes (linked : p.Linked a) (settled : a.Settled b) {callee : Ident}
    {args : List Expr} {id : SymbolId} (bound : a.bindings[callee.id]? = some id)
    (arity : (a.params id).length = args.length) (typed : Expr.TypedAll b args)
    (stable : Expr.StableArgs a args (a.params id)) : b.Passes callee args := by
  refine ⟨id, settled.bindings ▸ bound, ?_⟩
  rw [settled.retypes.params]
  have kinds := fun q mem => linked.param (i := id) (q := q) mem
  generalize a.params id = params at arity stable kinds
  induction args generalizing params with
  | nil =>
    obtain rfl := List.length_eq_zero_iff.mp arity
    exact .nil
  | cons arg args ih =>
    cases params with
    | nil => cases arity
    | cons param params =>
      obtain ⟨s, found, kind, -⟩ := kinds param List.mem_cons_self
      obtain ⟨known, same⟩ := settled.symbol found (by simp [kind])
      have met := settled.compatible known arg (stable.2.1 known) typed.1
      refine .cons ⟨same ▸ met.settle_right, same ▸ Ty.settle_terminal known⟩ ?_
      exact ih typed.2 params (Nat.succ.inj arity) stable.2.2
        fun q mem => kinds q (List.mem_cons_of_mem _ mem)

/-- The operands of an operator have the types it takes. -/
theorem Analysis.Settled.operator (settled : a.Settled b) {n : Node} {op : BinOp} {lhs rhs : Expr}
    (left : lhs.Typed b) (right : rhs.Typed b) (met : Expr.OperandsMeet a op lhs rhs)
    (kept : (a.typeOf n.id).Keeps (op.resultType (a.typeOf lhs.id) (a.typeOf rhs.id)))
    (le : a.typeOf n.id ≤ op.resultType (a.typeOf lhs.id) (a.typeOf rhs.id))
    (checked : b.checkOperands n op lhs rhs = .ok ()) :
    op.Types (b.typeOf lhs.id) (b.typeOf rhs.id) (b.typeOf n.id) := by
  have result := congrArg Ty.settle (kept.eq_of_le le)
  rw [← settled.types] at result
  have fits {ty : Ty} (known : ty ≠ .undefined) (met : lhs.Meets a ty ∧ rhs.Meets a ty) :
      (b.typeOf lhs.id).Compatible ty ∧ (b.typeOf rhs.id).Compatible ty :=
    ⟨settled.compatible known lhs met.1 left, settled.compatible known rhs met.2 right⟩
  cases op
  case add | sub | mul =>
    have numeric : (Infer.arithmeticType (a.typeOf lhs.id) (a.typeOf rhs.id)).isNumeric = true :=
      Ty.arithmeticType_isNumeric
    have known : Infer.arithmeticType (a.typeOf lhs.id) (a.typeOf rhs.id) ≠ .undefined := by
      intro unknown
      rw [unknown] at numeric
      cases numeric
    obtain ⟨onLeft, onRight⟩ := fits known met
    refine ⟨onLeft.numeric numeric, onRight.numeric numeric, ?_⟩
    rw [result, BinOp.resultType, Ty.settle_arithmeticType, ← settled.types, ← settled.types]
  case slash | lt | gt | le | ge =>
    obtain ⟨onLeft, onRight⟩ := fits (by decide) met
    exact ⟨onLeft.numeric rfl, onRight.numeric rfl, result⟩
  case and | or =>
    obtain ⟨onLeft, onRight⟩ := fits (by decide) met
    exact ⟨onLeft.boolean, onRight.boolean, result⟩
  case div | mod =>
    simp only [Analysis.checkOperands] at checked
    split at checked
    · cases checked
    · rename_i same
      simp only [Bool.or_eq_true, bne_iff_ne, ne_eq, not_or, not_not] at same
      exact ⟨same.1, same.2, result⟩
  case eq | ne =>
    simp only [Analysis.checkOperands] at checked
    split at checked
    · cases checked
    · rename_i same
      exact ⟨by simpa using same, result⟩

mutual

theorem Expr.Stable.typed (linked : p.Linked a) (settled : a.Settled b)
    (behind : a.Behind p.exprs) {here : Option SymbolId} : (e : Expr) → e.parts ⊆ p.exprs →
    e.Bound a here → e.Stable a → b.checkExpr e = .ok () → e.Typed b
  | .int n v, inside, _, stable, _ => by
    have same := Ty.Keeps.eq_of_le stable (behind _ (inside (Expr.mem_parts _)))
    exact (settled.types n.id).trans (congrArg Ty.settle same)
  | .float n v, inside, _, stable, _ => by
    have same := Ty.Keeps.eq_of_le stable (behind _ (inside (Expr.mem_parts _)))
    exact (settled.types n.id).trans (congrArg Ty.settle same)
  | .bool n v, inside, _, stable, _ => by
    have same := Ty.Keeps.eq_of_le stable (behind _ (inside (Expr.mem_parts _)))
    exact (settled.types n.id).trans (congrArg Ty.settle same)
  | .var n name, inside, bound, stable, _ => by
    obtain ⟨id, s, named, kind, -⟩ := bound
    obtain ⟨id', found, kept⟩ := stable
    obtain rfl := Option.some.inj (named.1.symm.trans found)
    exact settled.typedAs named.2 (by simp [kind]) found kept
      (behind _ (inside (Expr.mem_parts _)) id found)
  | .index n array i, inside, bound, stable, checked => by
    simp only [Analysis.checkExpr, except_bind_ok] at checked
    obtain ⟨_, checkedIndex, whole⟩ := checked
    obtain ⟨⟨id, s, named, kind, -⟩, boundIndex⟩ := bound
    obtain ⟨stableIndex, -, id', found, kept⟩ := stable
    obtain rfl := Option.some.inj (named.1.symm.trans found)
    have part : i.parts ⊆ p.exprs := fun e mem => inside (by simp [Expr.parts, mem])
    refine ⟨?_, Expr.Stable.typed linked settled behind i part boundIndex stableIndex checkedIndex,
      Analysis.checkIndex_ok whole⟩
    exact settled.typedAs named.2 (by simp [kind]) found kept
      (behind _ (inside (Expr.mem_parts _)) id found)
  | .call n callee args, inside, bound, stable, checked => by
    simp only [Analysis.checkExpr] at checked
    obtain ⟨⟨id, s, named, ⟨ps, kind, arity⟩, -⟩, boundArgs⟩ := bound
    obtain ⟨id', found, stableArgs, kept⟩ := stable
    obtain rfl := Option.some.inj (named.1.symm.trans found)
    have part : Expr.partsAll args ⊆ p.exprs := fun e mem => inside (by simp [Expr.parts, mem])
    have typed := Expr.StableArgs.typed linked settled behind args (a.params id) part boundArgs
      (by rw [named.params (by rw [kind]; rfl), arity]) stableArgs checked
    refine ⟨?_, typed, linked.passes settled found
      (by rw [named.params (by rw [kind]; rfl), arity]) typed stableArgs⟩
    exact settled.typedAs named.2 (by simp [kind]) found kept
      (behind _ (inside (Expr.mem_parts _)) id found)
  | .paren n inner, inside, bound, stable, checked => by
    simp only [Analysis.checkExpr] at checked
    have part : inner.parts ⊆ p.exprs := fun e mem => inside (by simp [Expr.parts, mem])
    have same := Ty.Keeps.eq_of_le stable.2 (behind _ (inside (Expr.mem_parts _)))
    refine ⟨Expr.Stable.typed linked settled behind inner part bound stable.1 checked, ?_⟩
    rw [settled.types, settled.types, same]
  | .unary n .neg operand, inside, bound, stable, checked => by
    simp only [Analysis.checkExpr] at checked
    obtain ⟨stableOperand, met, kept⟩ := stable
    have part : operand.parts ⊆ p.exprs := fun e mem => inside (by simp [Expr.parts, mem])
    have typed := Expr.Stable.typed linked settled behind operand part bound stableOperand checked
    have known : a.typeOf operand.id ≠ .undefined := by
      have terminal := typed.terminal
      rw [settled.types] at terminal
      exact Ty.settle_isTerminal terminal
    rw [if_neg known] at kept
    have same : a.typeOf n.id = a.typeOf operand.id := by
      rcases behind _ (inside (Expr.mem_parts _)) with le | le
      · exact kept.eq_of_le_num le known
      · exact kept.eq_of_le le
    refine ⟨typed, ?_, (settled.compatible (by decide) operand met typed).numeric rfl⟩
    rw [settled.types, settled.types, same]
  | .unary n .not operand, inside, bound, stable, checked => by
    simp only [Analysis.checkExpr] at checked
    obtain ⟨stableOperand, met, kept⟩ := stable
    have part : operand.parts ⊆ p.exprs := fun e mem => inside (by simp [Expr.parts, mem])
    have typed := Expr.Stable.typed linked settled behind operand part bound stableOperand checked
    have same := kept.eq_of_le (behind _ (inside (Expr.mem_parts _)))
    exact ⟨typed, (settled.compatible (by decide) operand met typed).boolean,
      (settled.types n.id).trans (congrArg Ty.settle same)⟩
  | .binary n op lhs rhs, inside, bound, stable, checked => by
    simp only [Analysis.checkExpr, except_bind_ok] at checked
    obtain ⟨_, checkedLeft, _, checkedRight, whole⟩ := checked
    obtain ⟨stableLeft, stableRight, met, kept⟩ := stable
    have onLeft : lhs.parts ⊆ p.exprs := fun e mem => inside (by simp [Expr.parts, mem])
    have onRight : rhs.parts ⊆ p.exprs := fun e mem => inside (by simp [Expr.parts, mem])
    have left := Expr.Stable.typed linked settled behind lhs onLeft bound.1 stableLeft
      checkedLeft
    have right := Expr.Stable.typed linked settled behind rhs onRight bound.2 stableRight
      checkedRight
    exact ⟨left, right, settled.operator left right met kept
      (behind _ (inside (Expr.mem_parts _))) whole⟩

theorem Expr.StableArgs.typed (linked : p.Linked a) (settled : a.Settled b)
    (behind : a.Behind p.exprs) {here : Option SymbolId} : (args : List Expr) →
    (params : List SymbolId) → Expr.partsAll args ⊆ p.exprs → Expr.BoundAll a here args →
    params.length = args.length → Expr.StableArgs a args params → b.checkExprs args = .ok () →
    Expr.TypedAll b args
  | [], _, _, _, _, _, _ => trivial
  | arg :: args, [], _, _, arity, _, _ => by cases arity
  | arg :: args, param :: params, inside, bound, arity, stable, checked => by
    simp only [Analysis.checkExprs, except_bind_ok] at checked
    obtain ⟨_, first, rest⟩ := checked
    have own : arg.parts ⊆ p.exprs := fun e mem => inside (by simp [Expr.partsAll, mem])
    have others : Expr.partsAll args ⊆ p.exprs := fun e mem => inside (by simp [Expr.partsAll, mem])
    exact ⟨Expr.Stable.typed linked settled behind arg own bound.1 stable.1 first,
      Expr.StableArgs.typed linked settled behind args params others bound.2 (Nat.succ.inj arity)
        stable.2.2 rest⟩

end

theorem Analysis.Settled.takes (settled : a.Settled b) {name : Ident} {value : Expr} {id : SymbolId}
    {s : Symbol} (named : a.Names name id s) (kind : ∀ ps, s.kind ≠ .procedure ps)
    (typed : value.Typed b) (kept : (a.symbolType id).Keeps (a.typeOf value.id)) :
    b.Takes name value := by
  obtain ⟨known, same⟩ := settled.symbol named.2 kind
  have terminal := typed.terminal
  rw [settled.types] at terminal
  have fits := (kept.agrees.compatible known (Ty.settle_isTerminal terminal)).settle_right
  rw [← same, ← settled.types] at fits
  refine ⟨id, settled.bindings ▸ named.1, ?_, same ▸ Ty.settle_terminal known⟩
  exact fits.imp And.symm And.symm

theorem Target.Stable.typed (linked : p.Linked a) (settled : a.Settled b)
    (behind : a.Behind p.exprs) {here : Option SymbolId} {target : Target} {value : Expr}
    (inside : target.exprs ⊆ p.exprs) (part : value.parts ⊆ p.exprs) (bound : target.Bound a here)
    (boundValue : value.Bound a here) (stable : target.Stable a value)
    (checked : b.checkTarget target = .ok ()) (checkedValue : b.checkExpr value = .ok ()) :
    target.Typed b value := by
  cases target with
  | var name =>
    obtain ⟨id, s, named, kind, -⟩ := bound
    obtain ⟨stableValue, id', found, kept⟩ := stable
    obtain rfl := Option.some.inj (named.1.symm.trans found)
    have typed := Expr.Stable.typed linked settled behind value part boundValue stableValue
      checkedValue
    exact ⟨typed, settled.takes named (by simp [kind]) typed kept⟩
  | index array i =>
    simp only [Analysis.checkTarget, except_bind_ok] at checked
    obtain ⟨_, checkedIndex, whole⟩ := checked
    obtain ⟨⟨id, s, named, kind, -⟩, boundIndex⟩ := bound
    obtain ⟨stableValue, stableIndex, -, id', found, kept⟩ := stable
    obtain rfl := Option.some.inj (named.1.symm.trans found)
    have typed := Expr.Stable.typed linked settled behind value part boundValue stableValue
      checkedValue
    exact ⟨Expr.Stable.typed linked settled behind i inside boundIndex stableIndex checkedIndex,
      Analysis.checkIndex_ok whole, typed, settled.takes named (by simp [kind]) typed kept⟩

theorem assigns_typed (linked : p.Linked a) (settled : a.Settled b)
    (behind : a.Behind p.exprs) {here : Option SymbolId} : (targets : List Target) →
    (values : List Expr) → Target.exprsAll targets ⊆ p.exprs → Expr.partsAll values ⊆ p.exprs →
    targets.length = values.length → (∀ t ∈ targets, t.Bound a here) →
    Expr.BoundAll a here values → (∀ tv ∈ targets.zip values, tv.1.Stable a tv.2) →
    targets.forM b.checkTarget = .ok () → b.checkExprs values = .ok () →
    List.Forall₂ (Target.Typed b) targets values
  | [], [], _, _, _, _, _, _, _, _ => .nil
  | target :: targets, value :: values, inside, part, arity, bound, boundValues, stable, checked,
    checkedValues => by
    simp only [List.forM_eq_forM, List.forM_cons, except_bind_ok] at checked
    simp only [Analysis.checkExprs, except_bind_ok] at checkedValues
    obtain ⟨_, first, rest⟩ := checked
    obtain ⟨_, firstValue, restValues⟩ := checkedValues
    refine .cons ?_ ?_
    · exact Target.Stable.typed linked settled behind
        (fun e mem => inside (by simp [Target.exprsAll, mem]))
        (fun e mem => part (by simp [Expr.partsAll, mem]))
        (bound target List.mem_cons_self) boundValues.1 (stable (target, value) (by simp))
        first firstValue
    · exact assigns_typed linked settled behind targets values
        (fun e mem => inside (by simp [Target.exprsAll, mem]))
        (fun e mem => part (by simp [Expr.partsAll, mem])) (Nat.succ.inj arity)
        (fun t mem => bound t (List.mem_cons_of_mem _ mem)) boundValues.2
        (fun tv mem => stable tv (List.mem_cons_of_mem _ mem)) rest restValues

theorem returned_typed (linked : p.Linked a) (settled : a.Settled b)
    (behind : a.Behind p.exprs) {here : Option SymbolId} {n : Node} {value : Option Expr}
    (inside : (Stmt.ret n value).exprs ⊆ p.exprs) (bound : (Stmt.ret n value).Bound a here)
    (stable : (Stmt.ret n value).Stable a here) (checked : b.checkReturn here n value = .ok ()) :
    b.Returns here value := by
  unfold Analysis.checkReturn at checked
  cases here with
  | none => cases checked
  | some method =>
    refine ⟨method, rfl, ?_⟩
    cases function : (b.symbolKind method).isFunction with
    | true =>
      cases value with
      | none => simp only [function] at checked; cases checked
      | some e =>
        simp only [function, except_bind_ok] at checked
        obtain ⟨_, checkedValue, fits⟩ := checked
        refine ⟨rfl, Expr.Stable.typed linked settled behind e inside bound stable checkedValue, ?_⟩
        split at fits
        · cases fits
        · rename_i same
          simpa using same
    | false =>
      cases value with
      | none => rfl
      | some e => simp only [function] at checked; cases checked

mutual

theorem Stmt.Stable.typed (linked : p.Linked a) (settled : a.Settled b)
    (behind : a.Behind p.exprs) : (s : Stmt) → {here : Option SymbolId} → s.exprs ⊆ p.exprs →
    s.Bound a here → s.Stable a here → b.checkStmt here s = .ok () → s.Typed b here
  | .varDecl .., _, _, _, _, _ => trivial
  | .arrayDecl _ _ size _, _, inside, bound, stable, checked => by
    simp only [Analysis.checkStmt, except_bind_ok] at checked
    obtain ⟨_, checkedSize, whole⟩ := checked
    exact ⟨Expr.Stable.typed linked settled behind size inside bound.1 stable.1 checkedSize,
      Analysis.checkIndex_ok whole⟩
  | .method _ name _ _ _ body, _, inside, bound, stable, checked => by
    simp only [Analysis.checkStmt, except_bind_ok] at checked
    obtain ⟨method, look, checkedBody⟩ := checked
    obtain ⟨id, ⟨_, _, named, -⟩, boundBody⟩ := bound
    obtain ⟨id', found, stableBody⟩ := stable
    obtain rfl := Option.some.inj (named.1.symm.trans found)
    have found' : b.bindings[name.id]? = some id := settled.bindings ▸ found
    obtain rfl : id = method := by simpa [Analysis.binding, found'] using look
    exact ⟨id, found', Stmt.StableAll.typed linked settled behind body inside boundBody stableBody
      checkedBody⟩
  | .assign _ targets values, _, inside, bound, stable, checked => by
    simp only [Analysis.checkStmt, except_bind_ok] at checked
    obtain ⟨_, checkedTargets, checkedValues⟩ := checked
    exact assigns_typed linked settled behind targets values
      (fun e mem => inside (by simp [Stmt.exprs, mem]))
      (fun e mem => inside (by simp [Stmt.exprs, mem])) bound.1 bound.2.1 bound.2.2 stable
      checkedTargets checkedValues
  | .input _ names, _, _, bound, _, _ => by
    intro name mem
    obtain ⟨id, s, named, kind, -⟩ := bound name mem
    obtain ⟨known, same⟩ := settled.symbol named.2 (by simp [kind])
    exact ⟨id, settled.bindings ▸ named.1, same ▸ Ty.settle_terminal known⟩
  | .print _ value, _, inside, bound, stable, checked => by
    simp only [Analysis.checkStmt] at checked
    exact Expr.Stable.typed linked settled behind value inside bound stable checked
  | .alternative _ gs, _, inside, bound, stable, checked
  | .iterative _ gs, _, inside, bound, stable, checked => by
    simp only [Analysis.checkStmt] at checked
    exact Guard.StableAll.typed linked settled behind gs inside bound stable checked
  | .block _ _ body, _, inside, bound, stable, checked => by
    simp only [Analysis.checkStmt] at checked
    exact Stmt.StableAll.typed linked settled behind body inside bound stable checked
  | .ret n value, _, inside, bound, stable, checked => by
    simp only [Analysis.checkStmt] at checked
    exact returned_typed linked settled behind inside bound stable checked
  | .call _ callee args, _, inside, bound, stable, checked => by
    simp only [Analysis.checkStmt] at checked
    obtain ⟨⟨id, s, named, ⟨ps, kind, arity⟩, -⟩, boundArgs⟩ := bound
    obtain ⟨id', found, stableArgs⟩ := stable
    obtain rfl := Option.some.inj (named.1.symm.trans found)
    have length : (a.params id).length = args.length := by
      rw [named.params (by rw [kind]; rfl), arity]
    have typed := Expr.StableArgs.typed linked settled behind args (a.params id) inside boundArgs
      length stableArgs checked
    exact ⟨typed, linked.passes settled found length typed stableArgs⟩

theorem Stmt.StableAll.typed (linked : p.Linked a) (settled : a.Settled b)
    (behind : a.Behind p.exprs) : (ss : List Stmt) → {here : Option SymbolId} →
    Stmt.exprsAll ss ⊆ p.exprs → Stmt.BoundAll a here ss → Stmt.StableAll a here ss →
    b.checkStmts here ss = .ok () → Stmt.TypedAll b here ss
  | [], _, _, _, _, _ => trivial
  | s :: ss, _, inside, bound, stable, checked => by
    simp only [Analysis.checkStmts, except_bind_ok] at checked
    obtain ⟨_, first, rest⟩ := checked
    have own : s.exprs ⊆ p.exprs := fun e mem => inside (by simp [Stmt.exprsAll, mem])
    have others : Stmt.exprsAll ss ⊆ p.exprs := fun e mem => inside (by simp [Stmt.exprsAll, mem])
    exact ⟨Stmt.Stable.typed linked settled behind s own bound.1 stable.1 first,
      Stmt.StableAll.typed linked settled behind ss others bound.2 stable.2 rest⟩

theorem Guard.StableAll.typed (linked : p.Linked a) (settled : a.Settled b)
    (behind : a.Behind p.exprs) : (gs : List Guard) → {here : Option SymbolId} →
    Guard.exprsAll gs ⊆ p.exprs → Guard.BoundAll a here gs → Guard.StableAll a here gs →
    b.checkGuards here gs = .ok () → Guard.TypedAll b here gs
  | [], _, _, _, _, _ => trivial
  | .mk _ cond body :: gs, _, inside, bound, stable, checked => by
    simp only [Analysis.checkGuards, except_bind_ok] at checked
    obtain ⟨_, checkedCond, _, checkedBody, rest⟩ := checked
    have typed := Expr.Stable.typed linked settled behind cond
      (fun e mem => inside (by simp [Guard.exprsAll, mem])) bound.1 stable.1 checkedCond
    refine ⟨typed, (settled.compatible (by decide) cond stable.2.1 typed).boolean, ?_, ?_⟩
    · have own : body.exprs ⊆ p.exprs := fun e mem => inside (by simp [Guard.exprsAll, mem])
      exact Stmt.Stable.typed linked settled behind body own bound.2.1 stable.2.2.1 checkedBody
    · have others : Guard.exprsAll gs ⊆ p.exprs := fun e mem =>
        inside (by simp [Guard.exprsAll, mem])
      exact Guard.StableAll.typed linked settled behind gs others bound.2.2 stable.2.2.2 rest

end

end Soundness

namespace Program
variable {p : Program} {a : Analysis}

/-- The passes of the analysis, one after the other. -/
theorem analyze_ok (formed : p.WellFormed) (h : p.analyze = .ok a) :
    ∃ b, p.Linked b ∧ b.Behind p.exprs ∧ Stmt.StableAll b none p.body ∧ b.Settled a ∧
      a.check p = .ok () := by
  simp only [analyze, except_bind_ok] at h
  obtain ⟨b, bound, c, inferred, d, settle, _, checked, done⟩ := h
  obtain rfl : d = a := by simpa [pure, Except.pure] using done
  obtain ⟨linked, literals⟩ := bind_linked formed bound
  have distinct := exprs_nodup formed.distinct
  obtain ⟨refines, behind, stable⟩ :=
    infer_stable distinct linked.grounded (behind_of_literals distinct literals) inferred
  exact ⟨c, refines.retypes.linked formed.proper linked, behind, stable,
    Analysis.settle_settled settle, checked⟩

theorem analyze_linked (formed : p.WellFormed) (h : p.analyze = .ok a) : p.Linked a := by
  obtain ⟨b, linked, -, -, settled, -⟩ := analyze_ok formed h
  exact settled.retypes.linked formed.proper linked

theorem analyze_body_typed (formed : p.WellFormed) (h : p.analyze = .ok a) :
    Stmt.TypedAll a none p.body := by
  obtain ⟨b, linked, behind, stable, settled, checked⟩ := analyze_ok formed h
  exact Stmt.StableAll.typed linked settled behind p.body (fun _ mem => mem) linked.bound stable
    checked

/-- Only procedures have no type. -/
theorem analyze_symbols_typed (formed : p.WellFormed) (h : p.analyze = .ok a) {i : Nat}
    {s : Symbol} (found : a.symbols[i]? = some s) (kind : ∀ ps, s.kind ≠ .procedure ps) :
    s.ty.isTerminal = true := by
  obtain ⟨b, -, -, -, settled, -⟩ := analyze_ok formed h
  obtain ⟨t, found', same⟩ := settled.retypes.symbol_before found
  have kind' : ∀ ps, t.kind ≠ .procedure ps := by
    rw [same] at kind
    exact kind
  obtain ⟨known, settle⟩ := settled.symbol found' kind'
  have ty : a.symbolType i = s.ty := by simp [Analysis.symbolType, found]
  rw [← ty, settle]
  exact Ty.settle_terminal known

/-- The tables are a typing of the program. Names stand for symbols with the types that are written
for them, and everything has a type of values that fits what it is made of. -/
structure TypedBy (p : Program) (a : Analysis) : Prop where
  symbols : ∀ (i : Nat) (s : Symbol), a.symbols[i]? = some s → (∀ ps, s.kind ≠ .procedure ps) →
    s.ty.isTerminal = true
  exprs : ∀ e ∈ p.exprs, (a.typeOf e.id).isTerminal = true
  bound : Stmt.BoundAll a none p.body
  typed : Stmt.TypedAll a none p.body

/-- Whatever passes the analysis is typed by the tables it ends with. -/
theorem analyze_typedBy {source : String} (parsed : parse source = .ok p)
    (analyzed : p.analyze = .ok a) : p.TypedBy a := by
  have formed := parse_wellFormed parsed
  have typed := analyze_body_typed formed analyzed
  exact {
    symbols := fun i s => analyze_symbols_typed formed analyzed
    exprs := fun e mem => (typed.exprs e mem).terminal
    bound := (analyze_linked formed analyzed).bound
    typed := typed }

/-- A program with a function, an array, a loop and numbers of both types. -/
def sample : String :=
  "program p fun half(int n) : float \x7b return n / 2.0 \x7d int i; int[3] a; input i; " ++
  "do i > 0 :: \x7b a[i mod 3] <- i; i <- i - 1 \x7d od print half(a[1])"

theorem sample_analyzes : ∃ p a, parse sample = .ok p ∧ p.analyze = .ok a := by
  have passes : (parse sample >>= analyze).isOk = true := by decide +kernel
  obtain ⟨a, run⟩ := except_of_isOk passes
  obtain ⟨p, parsed, analyzed⟩ := except_bind_ok.mp run
  exact ⟨p, a, parsed, analyzed⟩

theorem analyze_typedBy_sample :
    ∃ p a, parse sample = .ok p ∧ p.analyze = .ok a ∧ p.TypedBy a := by
  obtain ⟨p, a, parsed, analyzed⟩ := sample_analyzes
  exact ⟨p, a, parsed, analyzed, analyze_typedBy parsed analyzed⟩

end Program

end Guarded
