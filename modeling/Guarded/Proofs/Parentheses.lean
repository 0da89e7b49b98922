import Guarded.Proofs.Fixpoint
import Guarded.Proofs.Wrapping

/-!
Names and types with and without a pair of parentheses. Binding does not see parentheses at all.
Inference gives them a type of their own, which may lag behind the type of what is inside and never
gets ahead of it; so a traversal with the parentheses does all that a traversal without them does,
and at most reports a change where the other reports none. Repeated until nothing changes, both end
alike, and then the parentheses have the type of what is inside.
-/

namespace Guarded

/-- Errors of one kind with one message. They may be about different places. -/
structure Error.Matches (e e' : Error) : Prop where
  kind : e'.ctorIdx = e.ctorIdx
  message : e'.message = e.message

theorem Error.Matches.refl (e : Error) : e.Matches e :=
  ⟨rfl, rfl⟩

namespace Bind
variable {n : NodeId} {here : Option SymbolId}

mutual

theorem expr_strip : (e : Expr) → expr here (e.strip n) = expr here e
  | .int .. | .float .. | .bool .. | .var .. => rfl
  | .index _ _ i => by rw [Expr.strip, expr, expr, expr_strip i]
  | .call _ _ args => by rw [Expr.strip, expr, expr, Expr.stripAll_length, exprs_strip args]
  | .paren _ inner => by
    rw [Expr.strip, expr]
    split
    · exact expr_strip inner
    · rw [expr, expr_strip inner]
  | .unary _ _ operand => by rw [Expr.strip, expr, expr, expr_strip operand]
  | .binary _ _ lhs rhs => by rw [Expr.strip, expr, expr, expr_strip lhs, expr_strip rhs]

theorem exprs_strip : (es : List Expr) → exprs here (Expr.stripAll n es) = exprs here es
  | [] => rfl
  | e :: es => by rw [Expr.stripAll, exprs, exprs, expr_strip e, exprs_strip es]

end

theorem target_strip (t : Target) : target here (t.strip n) = target here t := by
  cases t with
  | var name => rfl
  | index array i => rw [Target.strip, target, target, expr_strip i]

theorem targets_strip (ts : List Target) :
    (ts.map (Target.strip n)).forM (target here) = ts.forM (target here) := by
  induction ts with
  | nil => rfl
  | cons t ts ih =>
    change (do target here (t.strip n); (ts.map (Target.strip n)).forM (target here)) = _
    rw [target_strip, ih]
    rfl

mutual

theorem stmt_strip {here : Option SymbolId} : (s : Stmt) → stmt here (s.strip n) = stmt here s
  | .varDecl .. | .input .. | .ret _ none => rfl
  | .arrayDecl _ _ size _ => by rw [Stmt.strip, stmt, stmt, expr_strip size]
  | .method _ _ _ _ _ body => by
    rw [Stmt.strip, stmt, stmt]
    simp only [stmts_strip body]
  | .assign _ targets values => by
    rw [Stmt.strip, stmt, stmt, List.length_map, Expr.stripAll_length, exprs_strip, targets_strip]
  | .print _ value => by rw [Stmt.strip, stmt, stmt, expr_strip value]
  | .alternative _ gs | .iterative _ gs => by rw [Stmt.strip, stmt, stmt, guards_strip gs]
  | .block _ _ body => by rw [Stmt.strip, stmt, stmt, stmts_strip body]
  | .ret _ (some value) => by rw [Stmt.strip, stmt, stmt, expr_strip value]
  | .call _ _ args => by rw [Stmt.strip, stmt, stmt, Expr.stripAll_length, exprs_strip]

theorem stmts_strip {here : Option SymbolId} :
    (ss : List Stmt) → stmts here (Stmt.stripAll n ss) = stmts here ss
  | [] => rfl
  | s :: ss => by rw [Stmt.stripAll, stmts, stmts, stmt_strip s, stmts_strip ss]

theorem guards_strip {here : Option SymbolId} :
    (gs : List Guard) → guards here (Guard.stripAll n gs) = guards here gs
  | [] => rfl
  | .mk _ cond body :: gs => by
    rw [Guard.stripAll, guards, guards, expr_strip cond, stmt_strip body, guards_strip gs]

end

end Bind

theorem Program.bind_strip (n : NodeId) (p : Program) : (p.strip n).bind = p.bind := by
  rw [Program.bind, Program.bind, Program.strip, Bind.stmts_strip]

/-- Tables that differ at most in the type of the node `n`. -/
structure Analysis.SameBut (n : NodeId) (a a' : Analysis) : Prop where
  symbols : a'.symbols = a.symbols
  bindings : a'.bindings = a.bindings
  types : ∀ k, k ≠ n → a'.types[k]? = a.types[k]?

/-- And the second do not know more about the node `n` than the first know about the node `m`. -/
structure Analysis.Alike (n m : NodeId) (a a' : Analysis) : Prop extends a.SameBut n a' where
  behind : a'.typeOf n ≤ a.typeOf m

namespace Analysis.SameBut
variable {n : NodeId} {a a' : Analysis} (h : a.SameBut n a')
include h

theorem typeOf {k : NodeId} (other : k ≠ n) : a'.typeOf k = a.typeOf k := by
  rw [Analysis.typeOf, Analysis.typeOf, h.types k other]

theorem binding : a'.binding = a.binding := by
  funext name
  rw [Analysis.binding, Analysis.binding, h.bindings]

theorem symbolType : a'.symbolType = a.symbolType := by
  funext id
  rw [Analysis.symbolType, Analysis.symbolType, h.symbols]

theorem symbolKind : a'.symbolKind = a.symbolKind := by
  funext id
  rw [Analysis.symbolKind, Analysis.symbolKind, h.symbols]

theorem params : a'.params = a.params := by
  funext id
  rw [Analysis.params, Analysis.params, h.symbolKind]

end Analysis.SameBut

/-- Tables that are alike, where the second have changed if the first have. -/
structure Progress.Alike (n m : NodeId) (s s' : Progress) : Prop where
  tables : s.tables.Alike n m s'.tables
  changed : s.changed = true → s'.changed = true

namespace Progress.Alike
variable {n m : NodeId} {s s' : Progress} (h : s.Alike n m s')
include h

theorem setSymbol (id : SymbolId) (ty : Ty) (changed : Bool) :
    (s.setSymbol id ty changed).Alike n m (s'.setSymbol id ty changed) where
  tables := {
    symbols := congrArg (·.modify id fun t => { t with ty }) h.tables.symbols
    bindings := h.tables.bindings
    types := h.tables.types
    behind := h.tables.behind }
  changed := by
    simp only [Progress.setSymbol, Bool.or_eq_true]
    exact Or.imp_left h.changed

theorem setNode {k : NodeId} {ty : Ty} (other : k ≠ n) (le : s.tables.typeOf k ≤ ty) :
    (s.setNode k ty).Alike n m (s'.setNode k ty) where
  tables := {
    symbols := h.tables.symbols
    bindings := h.tables.bindings
    types := fun l apart => by
      simp only [Progress.setNode, Std.TreeMap.getElem?_insert, h.tables.types l apart]
    behind := by
      rw [s'.setNode_typeOf, if_neg other]
      exact h.tables.behind.trans ((s.setNode_refines k le).types m) }
  changed _ := rfl

/-- The parentheses take the type of what is inside. -/
theorem catchUp {ty : Ty} (le : ty ≤ s.tables.typeOf m) : s.Alike n m (s'.setNode n ty) where
  tables := {
    symbols := h.tables.symbols
    bindings := h.tables.bindings
    types := fun l apart => by
      rw [← h.tables.types l apart]
      simp [Progress.setNode, Std.TreeMap.getElem?_insert, Ne.symm apart]
    behind := by rwa [s'.setNode_typeOf, if_pos rfl] }
  changed _ := rfl

end Progress.Alike

/-- Two runs give the same and leave related states, or fail with errors that match. -/
inductive EndsAlike {σ α : Type} (R : σ → σ → Prop) :
    EStateM.Result Error σ α → EStateM.Result Error σ α → Prop where
  | ok {a : α} {t t' : σ} (alike : R t t') : EndsAlike R (.ok a t) (.ok a t')
  | error {e e' : Error} {t t' : σ} (matching : e.Matches e') :
    EndsAlike R (.error e t) (.error e' t')

namespace Infer

/-- Wherever the tables are alike, the second does what the first does. -/
structure Follows {α : Type} (n m : NodeId) (x x' : Infer α) : Prop where
  ends : ∀ s s' : Progress, s.Alike n m s' → EndsAlike (Progress.Alike n m) (x s) (x' s')

namespace Follows
variable {n m : NodeId} {α β : Type} {x x' : Infer α} {f f' : α → Infer β}

theorem pure (a : α) : Follows n m (pure a) (pure a) :=
  ⟨fun _ _ alike => .ok alike⟩

theorem throw {e e' : Error} (matching : e.Matches e') :
    Follows n m (throw e : Infer α) (throw e') :=
  ⟨fun _ _ _ => .error matching⟩

theorem bind (first : Follows n m x x') (second : ∀ a, Follows n m (f a) (f' a)) :
    Follows n m (x >>= f) (x' >>= f') := by
  refine ⟨fun s s' alike => ?_⟩
  change EndsAlike _ (EStateM.bind x f s) (EStateM.bind x' f' s')
  unfold EStateM.bind
  have ends := first.ends s s' alike
  generalize x s = r at ends
  generalize x' s' = r' at ends
  cases ends with
  | ok alike => exact (second _).ends _ _ alike
  | error matching => exact .error matching

theorem discard (h : Follows n m x x') : Follows n m (discard x) (discard x') :=
  h.bind fun _ => pure _

theorem ite {c : Prop} [Decidable c] {y y' : Infer α} (hx : Follows n m x x')
    (hy : Follows n m y y') : Follows n m (if c then x else y) (if c then x' else y') := by
  split
  · exact hx
  · exact hy

theorem read {g g' : Analysis → Infer β}
    (h : ∀ a a', a.Alike n m a' → Follows n m (g a) (g' a')) :
    Follows n m (tables >>= g) (tables >>= g') :=
  ⟨fun s s' alike => (h s.tables s'.tables alike.tables).ends s s' alike⟩

end Follows

variable {n m : NodeId}

theorem binding_follows (name : Ident) : Follows n m (binding name) (binding name) := by
  refine .read fun a a' alike => ?_
  rw [alike.binding]
  cases a.binding name with
  | ok id => exact .pure id
  | error e => exact .throw (.refl e)

theorem unify_follows (current proposed : Ty) (span span' : Span) :
    Follows n m (unify current proposed span) (unify current proposed span') := by
  unfold unify
  cases Ty.unify current proposed with
  | some ty => exact .pure ty
  | none => exact .throw ⟨rfl, rfl⟩

theorem refineSymbol_follows (id : SymbolId) (ty : Ty) (span span' : Span) :
    Follows n m (refineSymbol id ty span) (refineSymbol id ty span') := by
  refine .read fun a a' alike => ?_
  rw [alike.symbolType]
  refine .bind (unify_follows ..) fun r => ?_
  exact ⟨fun s s' alike => .ok (alike.setSymbol id r.1 r.2)⟩

theorem refineNode_apply (node : Node) (ty : Ty) (s : Progress) :
    refineNode node ty s = (do
      let r ← unify (s.tables.typeOf node.id) ty node.span
      if r.2 then
        modify fun p =>
          { p with tables.types := p.tables.types.insert node.id r.1, changed := true }
      return r.1 : Infer Ty) s := rfl

theorem refineNode_some {node : Node} {ty next : Ty} {changed : Bool} {s : Progress}
    (h : Ty.unify (s.tables.typeOf node.id) ty = some (next, changed)) :
    refineNode node ty s = .ok next (if changed then s.setNode node.id next else s) := by
  rw [refineNode_apply, unify, h]
  cases changed <;> rfl

theorem refineNode_none {node : Node} {ty : Ty} {s : Progress}
    (h : Ty.unify (s.tables.typeOf node.id) ty = none) :
    refineNode node ty s =
      .error (.typeConflict (s.tables.typeOf node.id).name ty.name node.span) s := by
  rw [refineNode_apply, unify, h]
  rfl

theorem refineNode_follows {node : Node} (other : node.id ≠ n) (ty : Ty) :
    Follows n m (refineNode node ty) (refineNode node ty) := by
  refine ⟨fun s s' alike => ?_⟩
  have current := alike.tables.typeOf other
  cases above : Ty.unify (s.tables.typeOf node.id) ty with
  | none =>
    rw [refineNode_none above, refineNode_none (current ▸ above)]
    exact .error ⟨rfl, by rw [current]⟩
  | some r =>
    rw [refineNode_some above, refineNode_some (current ▸ above)]
    split
    · exact .ok (alike.setNode other (Ty.le_unify above))
    · exact .ok alike

/-- A visit to the parentheses is a visit to what is inside: their type can always be brought up to
that of the inside. -/
theorem paren_follows {node : Node} (own : node.id = n) {x x' : Infer Ty} (h : Follows n m x x')
    (typed : ∀ s ty t, x s = .ok ty t → t.tables.typeOf m = ty) :
    Follows n m x (do
      let ty ← x'
      refineNode node ty) := by
  refine ⟨fun s s' alike => ?_⟩
  change EndsAlike _ (x s) (EStateM.bind x' (refineNode node) s')
  unfold EStateM.bind
  have ends := h.ends s s' alike
  have known := typed s
  generalize x s = r at ends known
  generalize x' s' = r' at ends
  cases ends with
  | error matching => exact .error matching
  | @ok ty t t' alike =>
    have inside := known ty t rfl
    have le : t'.tables.typeOf node.id ≤ ty := by
      rw [own, ← inside]
      exact alike.tables.behind
    dsimp only
    rw [refineNode_some (Ty.unify_of_le le)]
    split
    · rw [own]
      exact .ok (alike.catchUp inside.ge)
    · exact .ok alike

section
variable {exprs : List Expr}

theorem agree_follows (marked : Expr.Marked n m exprs) {e : Expr} (mem : e ∈ exprs)
    (plain : ∀ k inner, e ≠ .paren k inner) (ty : Ty) :
    Follows n m (do discard (unify ((← tables).typeOf e.id) ty e.span))
      (do discard (unify ((← tables).typeOf e.id) ty e.span)) := by
  refine .read fun a a' alike => ?_
  rw [alike.typeOf (marked.ne_id mem plain)]
  exact (unify_follows ..).discard

theorem constrain_follows (marked : Expr.Marked n m exprs) (ty : Ty) : (e : Expr) →
    e.parts ⊆ exprs → Follows n m (constrain ty (e.strip n)) (constrain ty e)
  | .var .., _ | .index .., _ | .call .., _ => by
    simp only [Expr.strip, constrain]
    exact .bind (binding_follows _) fun id => refineSymbol_follows ..
  | .paren _ inner, inside => by
    have part : inner.parts ⊆ exprs := fun e mem => inside (by simp [Expr.parts, mem])
    simp only [Expr.strip, constrain]
    split
    · exact constrain_follows marked ty inner part
    · simp only [constrain]
      exact constrain_follows marked ty inner part
  | .unary k .neg operand, inside => by
    have part : operand.parts ⊆ exprs := fun e mem => inside (by simp [Expr.parts, mem])
    simp only [Expr.strip, constrain]
    exact .ite (constrain_follows marked ty operand part)
      (agree_follows marked (e := .unary k .neg operand) (inside (Expr.mem_parts _)) (by simp) ty)
  | .int k v, inside => by
    simp only [Expr.strip, constrain]
    exact agree_follows marked (inside (Expr.mem_parts _)) (by simp) ty
  | .float k v, inside => by
    simp only [Expr.strip, constrain]
    exact agree_follows marked (inside (Expr.mem_parts _)) (by simp) ty
  | .bool k v, inside => by
    simp only [Expr.strip, constrain]
    exact agree_follows marked (inside (Expr.mem_parts _)) (by simp) ty
  | .unary k .not operand, inside => by
    simp only [Expr.strip, constrain]
    exact agree_follows marked (e := .unary k .not operand) (inside (Expr.mem_parts _)) (by simp) ty
  | .binary k op lhs rhs, inside => by
    simp only [Expr.strip, constrain]
    exact agree_follows marked (e := .binary k op lhs rhs) (inside (Expr.mem_parts _)) (by simp) ty

theorem operator_follows (marked : Expr.Marked n m exprs) (op : BinOp) {lhs rhs : Expr}
    (onLeft : lhs.parts ⊆ exprs) (onRight : rhs.parts ⊆ exprs) (left right : Ty) :
    Follows n m (operator op (lhs.strip n) (rhs.strip n) left right)
      (operator op lhs rhs left right) := by
  have first (ty : Ty) := constrain_follows marked ty lhs onLeft
  have second (ty : Ty) := constrain_follows marked ty rhs onRight
  cases op
  case eq | ne =>
    have last : Follows n m
        (if right != .undefined then do constrain right (lhs.strip n); return .boolean
          else return .boolean : Infer Ty)
        (if right != .undefined then do constrain right lhs; return .boolean
          else return .boolean) :=
      .ite (.bind (first right) fun _ => .pure _) (.pure _)
    simp only [operator]
    exact .ite (.bind (second left) fun _ => last) last
  all_goals exact .bind (first _) fun _ => .bind (second _) fun _ => .pure _

theorem passArgument_follows (marked : Expr.Marked n m exprs) (param : SymbolId) {arg : Expr}
    (part : arg.parts ⊆ exprs) (ty : Ty) :
    Follows n m (passArgument param (arg.strip n) ty) (passArgument param arg ty) := by
  refine .read fun a a' alike => ?_
  rw [alike.symbolType]
  exact .ite (refineSymbol_follows ..) (constrain_follows marked _ arg part)

/-- The last step for a named expression. -/
theorem nameNode_follows (marked : Expr.Marked n m exprs) {e : Expr} (mem : e ∈ exprs)
    (plain : ∀ k inner, e ≠ .paren k inner) (id : SymbolId) :
    Follows n m (do refineNode e.node ((← tables).symbolType id))
      (do refineNode e.node ((← tables).symbolType id)) := by
  refine .read fun a a' alike => ?_
  rw [alike.symbolType]
  exact refineNode_follows (marked.ne_id mem plain) _

mutual

theorem expr_follows (marked : Expr.Marked n m exprs) (other : m ≠ n) : (e : Expr) →
    e.parts ⊆ exprs → Follows n m (expr (e.strip n)) (expr e)
  | .int k v, inside => by
    simp only [Expr.strip, expr]
    exact refineNode_follows (marked.ne_id (inside (Expr.mem_parts (.int k v))) nofun) _
  | .float k v, inside => by
    simp only [Expr.strip, expr]
    exact refineNode_follows (marked.ne_id (inside (Expr.mem_parts (.float k v))) nofun) _
  | .bool k v, inside => by
    simp only [Expr.strip, expr]
    exact refineNode_follows (marked.ne_id (inside (Expr.mem_parts (.bool k v))) nofun) _
  | .var k name, inside => by
    simp only [Expr.strip, expr]
    exact .bind (binding_follows _) fun id =>
      nameNode_follows marked (inside (Expr.mem_parts (.var k name))) nofun id
  | .index k array i, inside => by
    have part : i.parts ⊆ exprs := fun e mem => inside (by simp [Expr.parts, mem])
    simp only [Expr.strip, expr]
    refine .bind (expr_follows marked other i part).discard fun _ => ?_
    refine .bind (constrain_follows marked .int i part) fun _ => ?_
    exact .bind (binding_follows _) fun id =>
      nameNode_follows marked (inside (Expr.mem_parts (.index k array i))) nofun id
  | .call k callee args, inside => by
    have part : Expr.partsAll args ⊆ exprs := fun e mem => inside (by simp [Expr.parts, mem])
    simp only [Expr.strip, expr]
    refine .bind (binding_follows _) fun id => .read fun a a' alike => ?_
    rw [alike.params]
    exact .bind (arguments_follows marked other args _ part) fun _ =>
      nameNode_follows marked (inside (Expr.mem_parts (.call k callee args))) nofun id
  | .paren k inner, inside => by
    have part : inner.parts ⊆ exprs := fun e mem => inside (by simp [Expr.parts, mem])
    have follows := expr_follows marked other inner part
    by_cases own : k.id = n
    · -- Without the parentheses only the inside is visited.
      have wrapped : (inner.strip n).id = m := by
        have same := marked.inner_id (inside (Expr.mem_parts _)) own
        rw [Expr.strip_id (same ▸ other), same]
      simp only [Expr.strip, if_pos own, expr]
      exact paren_follows own follows fun s ty t run => wrapped ▸ expr_type run
    · simp only [Expr.strip, if_neg own, expr]
      exact .bind follows fun ty => refineNode_follows own ty
  | .unary k .neg operand, inside => by
    have part : operand.parts ⊆ exprs := fun e mem => inside (by simp [Expr.parts, mem])
    simp only [Expr.strip, expr]
    refine .bind (expr_follows marked other operand part) fun ty => ?_
    exact .bind (constrain_follows marked .num operand part) fun _ =>
      refineNode_follows (marked.ne_id (inside (Expr.mem_parts (.unary k .neg operand))) nofun) _
  | .unary k .not operand, inside => by
    have part : operand.parts ⊆ exprs := fun e mem => inside (by simp [Expr.parts, mem])
    simp only [Expr.strip, expr]
    refine .bind (expr_follows marked other operand part).discard fun _ => ?_
    exact .bind (constrain_follows marked .boolean operand part) fun _ =>
      refineNode_follows (marked.ne_id (inside (Expr.mem_parts (.unary k .not operand))) nofun) _
  | .binary k op lhs rhs, inside => by
    have onLeft : lhs.parts ⊆ exprs := fun e mem => inside (by simp [Expr.parts, mem])
    have onRight : rhs.parts ⊆ exprs := fun e mem => inside (by simp [Expr.parts, mem])
    simp only [Expr.strip, expr]
    refine .bind (expr_follows marked other lhs onLeft) fun left => ?_
    refine .bind (expr_follows marked other rhs onRight) fun right => ?_
    exact .bind (operator_follows marked op onLeft onRight left right) fun ty =>
      refineNode_follows (marked.ne_id (inside (Expr.mem_parts (.binary k op lhs rhs))) nofun) _

theorem arguments_follows (marked : Expr.Marked n m exprs) (other : m ≠ n) : (args : List Expr) →
    (params : List SymbolId) → Expr.partsAll args ⊆ exprs →
    Follows n m (arguments (Expr.stripAll n args) params) (arguments args params)
  | [], _, _ => by
    simp only [Expr.stripAll, arguments]
    exact .pure _
  | _ :: _, [], _ => by
    simp only [Expr.stripAll, arguments]
    exact .pure _
  | arg :: args, param :: params, inside => by
    have own : arg.parts ⊆ exprs := fun e mem => inside (by simp [Expr.partsAll, mem])
    have rest : Expr.partsAll args ⊆ exprs := fun e mem => inside (by simp [Expr.partsAll, mem])
    simp only [Expr.stripAll, arguments]
    refine .bind (expr_follows marked other arg own) fun ty => ?_
    exact .bind (passArgument_follows marked param own ty) fun _ =>
      arguments_follows marked other args params rest

end

theorem take_follows (marked : Expr.Marked n m exprs) (id : SymbolId) (ty : Ty) (span : Span)
    {value : Expr} (part : value.parts ⊆ exprs) :
    Follows n m (do refineSymbol id ty span; constrain ((← tables).symbolType id) (value.strip n))
      (do refineSymbol id ty span; constrain ((← tables).symbolType id) value) := by
  refine .bind (refineSymbol_follows ..) fun _ => .read fun a a' alike => ?_
  rw [alike.symbolType]
  exact constrain_follows marked _ value part

theorem assign_follows (marked : Expr.Marked n m exprs) (other : m ≠ n) {target : Target}
    {value : Expr} (inside : target.exprs ⊆ exprs) (part : value.parts ⊆ exprs) :
    Follows n m (assign (target.strip n) (value.strip n)) (assign target value) := by
  cases target with
  | var name =>
    rw [Target.strip, assign_var, assign_var]
    refine .bind (expr_follows marked other value part) fun ty => ?_
    exact .bind (binding_follows _) fun id => take_follows marked id ty _ part
  | index array i =>
    rw [Target.strip, assign_index, assign_index]
    refine .bind (expr_follows marked other value part) fun ty => ?_
    refine .bind (expr_follows marked other i inside).discard fun _ => ?_
    refine .bind (constrain_follows marked .int i inside) fun _ => ?_
    exact .bind (binding_follows _) fun id => take_follows marked id ty _ part

theorem assigns_follows (marked : Expr.Marked n m exprs) (other : m ≠ n) : (targets : List Target) →
    (values : List Expr) → Target.exprsAll targets ⊆ exprs → Expr.partsAll values ⊆ exprs →
    Follows n m (assigns (targets.map (Target.strip n)) (Expr.stripAll n values))
      (assigns targets values)
  | [], _, _, _ => by
    simp only [List.map_nil, assigns]
    exact .pure _
  | _ :: _, [], _, _ => by
    simp only [Expr.stripAll, assigns]
    exact .pure _
  | target :: targets, value :: values, inside, part => by
    simp only [List.map_cons, Expr.stripAll, assigns]
    refine .bind (assign_follows marked other
      (fun e mem => inside (by simp [Target.exprsAll, mem]))
      (fun e mem => part (by simp [Expr.partsAll, mem]))) fun _ => ?_
    exact assigns_follows marked other targets values
      (fun e mem => inside (by simp [Target.exprsAll, mem]))
      (fun e mem => part (by simp [Expr.partsAll, mem]))

theorem returned_follows (marked : Expr.Marked n m exprs) (other : m ≠ n) (here : Option SymbolId)
    {value : Expr} (part : value.parts ⊆ exprs) :
    Follows n m (returned here (value.strip n)) (returned here value) := by
  refine .bind (expr_follows marked other value part).discard fun _ => ?_
  cases here with
  | none => exact .pure _
  | some method =>
    refine .read fun a a' alike => ?_
    rw [alike.symbolKind, alike.symbolType]
    exact .ite (constrain_follows marked _ value part) (.pure _)

mutual

theorem stmt_follows (marked : Expr.Marked n m exprs) (other : m ≠ n) {here : Option SymbolId} :
    (s : Stmt) → s.exprs ⊆ exprs → Follows n m (stmt here (s.strip n)) (stmt here s)
  | .varDecl .., _ | .input .., _ | .ret _ none, _ => by
    simp only [Stmt.strip, stmt]
    exact .pure _
  | .arrayDecl _ _ size _, inside => by
    simp only [Stmt.strip, stmt]
    exact .bind (expr_follows marked other size inside).discard fun _ =>
      constrain_follows marked .int size inside
  | .method _ _ _ _ _ body, inside => by
    simp only [Stmt.strip, stmt]
    exact .bind (binding_follows _) fun _ => stmts_follows marked other body inside
  | .assign _ targets values, inside => by
    simp only [Stmt.strip, stmt]
    exact assigns_follows marked other targets values
      (fun e mem => inside (by simp [Stmt.exprs, mem]))
      (fun e mem => inside (by simp [Stmt.exprs, mem]))
  | .print _ value, inside => by
    simp only [Stmt.strip, stmt]
    exact (expr_follows marked other value inside).discard
  | .alternative _ gs, inside | .iterative _ gs, inside => by
    simp only [Stmt.strip, stmt]
    exact guards_follows marked other gs inside
  | .block _ _ body, inside => by
    simp only [Stmt.strip, stmt]
    exact stmts_follows marked other body inside
  | .ret _ (some value), inside => by
    simp only [Stmt.strip, stmt]
    exact returned_follows marked other here inside
  | .call _ _ args, inside => by
    simp only [Stmt.strip, stmt]
    refine .bind (binding_follows _) fun id => .read fun a a' alike => ?_
    rw [alike.params]
    exact arguments_follows marked other args _ inside

theorem stmts_follows (marked : Expr.Marked n m exprs) (other : m ≠ n) {here : Option SymbolId} :
    (ss : List Stmt) → Stmt.exprsAll ss ⊆ exprs →
    Follows n m (stmts here (Stmt.stripAll n ss)) (stmts here ss)
  | [], _ => by
    simp only [Stmt.stripAll, stmts]
    exact .pure _
  | s :: ss, inside => by
    simp only [Stmt.stripAll, stmts]
    refine .bind (stmt_follows marked other s fun e mem => inside (by simp [Stmt.exprsAll, mem]))
      fun _ => ?_
    exact stmts_follows marked other ss fun e mem => inside (by simp [Stmt.exprsAll, mem])

theorem guards_follows (marked : Expr.Marked n m exprs) (other : m ≠ n) {here : Option SymbolId} :
    (gs : List Guard) → Guard.exprsAll gs ⊆ exprs →
    Follows n m (guards here (Guard.stripAll n gs)) (guards here gs)
  | [], _ => by
    simp only [Guard.stripAll, guards]
    exact .pure _
  | .mk _ cond body :: gs, inside => by
    have test : cond.parts ⊆ exprs := fun e mem => inside (by simp [Guard.exprsAll, mem])
    simp only [Guard.stripAll, guards]
    refine .bind (expr_follows marked other cond test).discard fun _ => ?_
    refine .bind (constrain_follows marked .boolean cond test) fun _ => ?_
    have own : body.exprs ⊆ exprs := fun e mem => inside (by simp [Guard.exprsAll, mem])
    refine .bind (stmt_follows marked other body own) fun _ => ?_
    exact guards_follows marked other gs fun e mem => inside (by simp [Guard.exprsAll, mem])

end

end

end Infer

namespace Program

section
variable {n m : NodeId} {p : Program} (marked : Expr.Marked n m p.exprs) (other : m ≠ n)
include marked other

theorem traversal_strip {a a' : Analysis} (alike : a.Alike n m a') :
    EndsAlike (Progress.Alike n m) (Infer.stmts none (p.strip n).body ⟨a, false⟩)
      (Infer.stmts none p.body ⟨a', false⟩) :=
  (Infer.stmts_follows marked other p.body fun _ mem => mem).ends _ _ ⟨alike, id⟩

/-- A traversal without the parentheses succeeds if one with them does, and reports a change only if
that one does. -/
theorem traverse_strip_ok {a a' b' : Analysis} {changed' : Bool} (alike : a.Alike n m a')
    (h : p.traverse a' = .ok changed' b') :
    ∃ changed b, (p.strip n).traverse a = .ok changed b ∧ b.Alike n m b' ∧
      (changed = true → changed' = true) := by
  obtain ⟨u, run⟩ := traverse_ok h
  have ends := traversal_strip marked other alike
  rw [run] at ends
  generalize without : Infer.stmts none (p.strip n).body ⟨a, false⟩ = r at ends
  cases ends with
  | @ok _ t _ alike =>
    refine ⟨t.changed, t.tables, ?_, alike.tables, alike.changed⟩
    rw [traverse, without]

theorem traverse_strip_error {a a' b' : Analysis} {e' : Error} (alike : a.Alike n m a')
    (h : p.traverse a' = .error e' b') :
    ∃ e b, (p.strip n).traverse a = .error e b ∧ e.Matches e' := by
  have ends := traversal_strip marked other alike
  generalize without : Infer.stmts none (p.strip n).body ⟨a, false⟩ = r at ends
  rw [traverse] at h
  generalize Infer.stmts none p.body ⟨a', false⟩ = r' at ends h
  cases ends with
  | ok => cases h
  | @error e _ t _ matching =>
    cases h
    refine ⟨e, t.tables, ?_, matching⟩
    rw [traverse, without]

/-- Traversals with the parentheses are repeated at least as often as those without them. Where only
the former report a change, the latter have nothing left to do. -/
theorem Repeats.strip {a' : Analysis} {k' : Nat} {r' : EStateM.Result Error Analysis Unit}
    (h : p.Repeats a' k' r') {a : Analysis} (ground : a.Grounded) (alike : a.Alike n m a') :
    ∃ k r, (p.strip n).Repeats a k r ∧ EndsAlike (Analysis.Alike n m) r r' := by
  induction h generalizing a with
  | failed last =>
    obtain ⟨e, b, run, matching⟩ := traverse_strip_error marked other alike last
    exact ⟨1, _, .failed run, .error matching⟩
  | stable last =>
    obtain ⟨changed, b, run, alike, reports⟩ := traverse_strip_ok marked other alike last
    obtain rfl : changed = false := by simpa using reports
    exact ⟨1, _, .stable run, .ok alike⟩
  | again first rest ih =>
    obtain ⟨changed, b, run, alike', -⟩ := traverse_strip_ok marked other alike first
    have moves := traverse_moves ground run
    cases changed with
    | true =>
      obtain ⟨k, r, repeats, ends⟩ := ih (moves.refines.retypes.grounded ground) alike'
      exact ⟨k + 1, r, .again run repeats, ends⟩
    | false =>
      obtain rfl : b = a := congrArg Progress.tables (moves.quiet rfl)
      exact ih ground alike'

end

variable {p : Program} {a : Analysis}

/-- Every traversal but the last one adds to the weight of the tables. -/
theorem Repeats.few {k : Nat} {r : EStateM.Result Error Analysis Unit} (h : p.Repeats a k r)
    (ground : a.Grounded) :
    k + a.weight p.exprs ≤ 2 * (a.symbols.size + p.exprs.length) + 1 := by
  induction h with
  | @failed a | @stable a =>
    have full := a.weight_le p.exprs
    omega
  | again first rest ih =>
    have moves := traverse_moves ground first
    have bound := ih (moves.refines.retypes.grounded ground)
    have size := moves.refines.size
    rcases moves.moved with same | ⟨-, more⟩
    · simp at same
    · simp only at size more
      omega

theorem Repeats.traversals {k : Nat} {r : EStateM.Result Error Analysis Unit}
    (h : p.Repeats a k r) (ground : a.Grounded) : k ≤ p.traversalBound a := by
  have few := h.few ground
  rw [traversalBound, ← exprs_length]
  omega

theorem Repeats.infer_ok {b : Analysis} {k : Nat} (h : p.Repeats a k (.ok () b))
    (ground : a.Grounded) : p.infer a = .ok b := by
  rw [infer, h.traverseUntilStable _ (h.traversals ground)]

theorem Repeats.infer_error {b : Analysis} {k : Nat} {e : Error} (h : p.Repeats a k (.error e b))
    (ground : a.Grounded) : p.infer a = .error e := by
  rw [infer, h.traverseUntilStable _ (h.traversals ground)]

end Program

section
variable {a b : Analysis}

theorem Analysis.Retypes.params_of_names (retypes : a.Retypes b) {callee : Ident}
    {id id' : SymbolId} {s : Symbol} {ps : List SymbolId} (named : a.Names callee id' s)
    (kind : s.kind.params? = some ps) (bound : b.bindings[callee.id]? = some id) :
    b.params id = ps := by
  rw [retypes.bindings] at bound
  obtain rfl := Option.some.inj (named.1.symm.trans bound)
  rw [retypes.params, named.params kind]

mutual

/-- Whoever visits an expression visits all that is inside it. -/
theorem Expr.Stable.parts (retypes : a.Retypes b) {here : Option SymbolId} : (e : Expr) →
    e.Bound a here → e.Stable b → ∀ x ∈ e.parts, x.Stable b
  | .int .., _, stable, _, mem | .float .., _, stable, _, mem | .bool .., _, stable, _, mem
  | .var .., _, stable, _, mem => by
    obtain rfl := List.mem_singleton.mp mem
    exact stable
  | .index _ _ i, bound, stable, x, mem => by
    rcases List.mem_append.mp mem with mem | mem
    · exact Expr.Stable.parts retypes i bound.2 stable.1 x mem
    · obtain rfl := List.mem_singleton.mp mem
      exact stable
  | .call _ callee args, bound, stable, x, mem => by
    rcases List.mem_append.mp mem with mem | mem
    · obtain ⟨⟨_, s, named, ⟨ps, kind, arity⟩, -⟩, bound⟩ := bound
      obtain ⟨id, found, passed, -⟩ := stable
      rw [retypes.params_of_names named (by rw [kind]; rfl) found] at passed
      exact Expr.StableArgs.parts retypes args ps arity bound passed x mem
    · obtain rfl := List.mem_singleton.mp mem
      exact stable
  | .paren _ inner, bound, stable, x, mem => by
    rcases List.mem_append.mp mem with mem | mem
    · exact Expr.Stable.parts retypes inner bound stable.1 x mem
    · obtain rfl := List.mem_singleton.mp mem
      exact stable
  | .unary _ .neg operand, bound, stable, x, mem
  | .unary _ .not operand, bound, stable, x, mem => by
    rcases List.mem_append.mp mem with mem | mem
    · exact Expr.Stable.parts retypes operand bound stable.1 x mem
    · obtain rfl := List.mem_singleton.mp mem
      exact stable
  | .binary _ _ lhs rhs, bound, stable, x, mem => by
    rcases List.mem_append.mp mem with mem | mem
    · rcases List.mem_append.mp mem with mem | mem
      · exact Expr.Stable.parts retypes lhs bound.1 stable.1 x mem
      · exact Expr.Stable.parts retypes rhs bound.2 stable.2.1 x mem
    · obtain rfl := List.mem_singleton.mp mem
      exact stable

theorem Expr.StableArgs.parts (retypes : a.Retypes b) {here : Option SymbolId} :
    (args : List Expr) →
    (params : List SymbolId) → params.length = args.length → Expr.BoundAll a here args →
    Expr.StableArgs b args params → ∀ x ∈ Expr.partsAll args, x.Stable b
  | [], _, _, _, _, _, mem => by cases mem
  | _ :: _, [], arity, _, _, _, _ => by cases arity
  | arg :: args, param :: params, arity, bound, stable, x, mem => by
    rcases List.mem_append.mp mem with mem | mem
    · exact Expr.Stable.parts retypes arg bound.1 stable.1 x mem
    · exact Expr.StableArgs.parts retypes args params (Nat.succ.inj arity) bound.2 stable.2.2 x mem

end

theorem Target.Stable.parts (retypes : a.Retypes b) {here : Option SymbolId} :
    (targets : List Target) →
    (values : List Expr) → targets.length = values.length → (∀ t ∈ targets, t.Bound a here) →
    Expr.BoundAll a here values → (∀ tv ∈ targets.zip values, tv.1.Stable b tv.2) →
    ∀ x ∈ Target.exprsAll targets ++ Expr.partsAll values, x.Stable b
  | [], [], _, _, _, _, _, mem => by cases mem
  | [], _ :: _, same, _, _, _, _, _ | _ :: _, [], same, _, _, _, _, _ => by cases same
  | target :: targets, value :: values, same, bound, bound', stable, x, mem => by
    have rest := Target.Stable.parts retypes targets values (Nat.succ.inj same)
      (fun t mem => bound t (List.mem_cons_of_mem _ mem)) bound'.2
      (fun tv mem => stable tv (List.mem_cons_of_mem _ mem)) x
    have first := stable (target, value) List.mem_cons_self
    have own := bound target List.mem_cons_self
    simp only [Target.exprsAll, Expr.partsAll, List.mem_append] at mem rest
    rcases mem with (mem | mem) | mem | mem
    · cases target with
      | var name => cases mem
      | index array i => exact Expr.Stable.parts retypes i own.2 first.2.1 x mem
    · exact rest (Or.inl mem)
    · refine Expr.Stable.parts retypes value bound'.1 ?_ x mem
      cases target with
      | var name => exact first.1
      | index array i => exact first.1
    · exact rest (Or.inr mem)

mutual

theorem Stmt.Stable.parts (retypes : a.Retypes b) {here : Option SymbolId} : (s : Stmt) →
    s.Bound a here → s.Stable b here → ∀ x ∈ s.exprs, x.Stable b
  | .varDecl .., _, _, _, mem | .input .., _, _, _, mem | .ret _ none, _, _, _, mem => by cases mem
  | .arrayDecl _ _ size _, bound, stable, x, mem =>
    Expr.Stable.parts retypes size bound.1 stable.1 x mem
  | .method _ name _ _ _ body, ⟨id, head, bound⟩, ⟨id', found, stable⟩, x, mem => by
    obtain ⟨_, _, named, -⟩ := head
    rw [retypes.bindings] at found
    obtain rfl := Option.some.inj (named.1.symm.trans found)
    exact Stmt.StableAll.parts retypes body bound stable x mem
  | .assign _ targets values, ⟨same, bound, bound'⟩, stable, x, mem =>
    Target.Stable.parts retypes targets values same bound bound' stable x mem
  | .print _ value, bound, stable, x, mem => Expr.Stable.parts retypes value bound stable x mem
  | .alternative _ gs, bound, stable, x, mem | .iterative _ gs, bound, stable, x, mem =>
    Guard.StableAll.parts retypes gs bound stable x mem
  | .block _ _ body, bound, stable, x, mem => Stmt.StableAll.parts retypes body bound stable x mem
  | .ret _ (some value), bound, stable, x, mem => Expr.Stable.parts retypes value bound stable x mem
  | .call _ callee args, bound, ⟨id, found, passed⟩, x, mem => by
    obtain ⟨⟨_, s, named, ⟨ps, kind, arity⟩, -⟩, bound⟩ := bound
    rw [retypes.params_of_names named (by rw [kind]; rfl) found] at passed
    exact Expr.StableArgs.parts retypes args ps arity bound passed x mem

theorem Stmt.StableAll.parts (retypes : a.Retypes b) {here : Option SymbolId} : (ss : List Stmt) →
    Stmt.BoundAll a here ss → Stmt.StableAll b here ss → ∀ x ∈ Stmt.exprsAll ss, x.Stable b
  | [], _, _, _, mem => by cases mem
  | s :: ss, bound, stable, x, mem => by
    rcases List.mem_append.mp mem with mem | mem
    · exact Stmt.Stable.parts retypes s bound.1 stable.1 x mem
    · exact Stmt.StableAll.parts retypes ss bound.2 stable.2 x mem

theorem Guard.StableAll.parts (retypes : a.Retypes b) {here : Option SymbolId} : (gs : List Guard) →
    Guard.BoundAll a here gs → Guard.StableAll b here gs → ∀ x ∈ Guard.exprsAll gs, x.Stable b
  | [], _, _, _, mem => by cases mem
  | .mk _ cond body :: gs, bound, stable, x, mem => by
    rcases List.mem_append.mp mem with mem | mem
    · rcases List.mem_append.mp mem with mem | mem
      · exact Expr.Stable.parts retypes cond bound.1 stable.1 x mem
      · exact Stmt.Stable.parts retypes body bound.2.1 stable.2.2.1 x mem
    · exact Guard.StableAll.parts retypes gs bound.2.2 stable.2.2.2 x mem

end

end

/-- Tables for a program with parentheses `n` and for the same without them, in which every
expression has the type it has without them. -/
structure Analysis.Levels (n : NodeId) (exprs : List Expr) (a a' : Analysis) : Prop
    extends a.SameBut n a' where
  level : ∀ e ∈ exprs, a'.typeOf e.id = a.typeOf (e.strip n).id

/-- Where nothing is left to do, the parentheses have caught up with what is inside. -/
theorem Analysis.Alike.levels {n m : NodeId} {exprs : List Expr} {a a' : Analysis}
    (h : a.Alike n m a') (marked : Expr.Marked n m exprs) (other : m ≠ n)
    (stable : ∀ e ∈ exprs, e.Stable a') : a.Levels n exprs a' where
  toSameBut := h.toSameBut
  level e mem := by
    by_cases own : e.id = n
    · obtain ⟨k, inner, rfl, rfl⟩ := marked e mem own
      have own : k.id = n := own
      have le : a'.typeOf k.id ≤ a'.typeOf inner.id := by
        rw [h.typeOf other, own]
        exact h.behind
      have kept : a'.typeOf k.id = a'.typeOf inner.id := (stable _ mem).2.eq_of_le le
      rw [Expr.strip, if_pos own, Expr.strip_id other, ← h.typeOf other]
      exact kept
    · rw [Expr.strip_id own, h.typeOf own]

/-- Both succeed with related results, or both fail, with errors that match. -/
inductive Agree {α : Type} (R : α → α → Prop) : Except Error α → Except Error α → Prop where
  | ok {a a' : α} (related : R a a') : Agree R (.ok a) (.ok a')
  | error {e e' : Error} (matching : e.Matches e') : Agree R (.error e) (.error e')

/-- Inference does not depend on the parentheses. -/
theorem Program.infer_strip {n m : NodeId} {p : Program} {a : Analysis} (distinct : p.ids.Nodup)
    (marked : Expr.Marked n m p.exprs) (other : m ≠ n) (bound : p.bind = .ok a) :
    Agree (Analysis.Levels n p.exprs) ((p.strip n).infer a) (p.infer a) := by
  obtain ⟨linked, literals⟩ := bind_linked_of_distinct distinct bound
  have unique := exprs_nodup distinct
  have ground := linked.grounded
  -- Only literals have a type now, and the parentheses are none.
  have start : a.Alike n m a := by
    refine ⟨⟨rfl, rfl, fun _ _ => rfl⟩, ?_⟩
    cases found : a.types[n]? with
    | none =>
      rw [Analysis.typeOf, found]
      exact Ty.undefined_le _
    | some ty =>
      obtain ⟨e, mem, own, literal⟩ := literals n ty found
      obtain ⟨k, inner, rfl, -⟩ := marked e mem own
      cases literal
  obtain ⟨k', r', repeats', -, -⟩ := repeats_of_room (p := p) ground (Nat.le_add_left _ _)
  obtain ⟨k, r, repeats, ends⟩ := repeats'.strip marked other ground start
  cases ends with
  | @error e e' b b' matching =>
    rw [repeats.infer_error ground, repeats'.infer_error ground]
    exact .error matching
  | @ok u b b' alike =>
    have inferred := repeats'.infer_ok ground
    obtain ⟨refines, -, stable⟩ :=
      infer_stable unique ground (behind_of_literals unique literals) inferred
    rw [repeats.infer_ok ground, inferred]
    exact .ok (alike.levels marked other
      (Stmt.StableAll.parts refines.retypes p.body linked.bound stable))

end Guarded
