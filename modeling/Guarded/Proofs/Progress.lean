import Guarded.Proofs.Refinement
import Guarded.Proofs.Sequencing

/-!
Progress of inference. Whatever part of inference is run, and whether it succeeds or fails, the
tables it leaves refine those it began with. If it reports no change, it has made none; if it
reports one, the tables have gained weight. So traversals come to an end, and one that reports no
change can be repeated without any.
-/

namespace Guarded

namespace Progress

/-- What a part of inference can do to the tables of a program with these expressions. -/
structure Moves (exprs : List Expr) (s t : Progress) : Prop where
  refines : s.tables.Refines t.tables
  moved : t = s ∨ t.changed = true ∧ s.tables.weight exprs < t.tables.weight exprs

namespace Moves
variable {exprs : List Expr} {s t u : Progress}

theorem refl (exprs : List Expr) (s : Progress) : s.Moves exprs s :=
  ⟨.refl _, Or.inl rfl⟩

theorem trans (first : s.Moves exprs t) (second : t.Moves exprs u) : s.Moves exprs u := by
  refine ⟨first.refines.trans second.refines, ?_⟩
  rcases second.moved with rfl | ⟨changed, more⟩
  · exact first.moved
  · rcases first.moved with rfl | ⟨-, more'⟩
    · exact Or.inr ⟨changed, more⟩
    · exact Or.inr ⟨changed, more'.trans more⟩

/-- Without a change at the end there has been none at all. -/
theorem quiet (h : s.Moves exprs t) (still : t.changed = false) : t = s := by
  rcases h.moved with same | ⟨changed, -⟩
  · exact same
  · simp [changed] at still

end Moves

/-- The symbol is given a type, which is reported as a change or not. -/
def setSymbol (s : Progress) (id : SymbolId) (ty : Ty) (changed : Bool) : Progress :=
  { tables := { s.tables with symbols := s.tables.symbols.modify id fun t => { t with ty } }
    changed := s.changed || changed }

/-- The node gets another type. -/
def setNode (s : Progress) (node : NodeId) (ty : Ty) : Progress :=
  { tables := { s.tables with types := s.tables.types.insert node ty }
    changed := true }

/-- A symbol that is given the type it has, without a report, leaves everything as it is. -/
theorem setSymbol_same (s : Progress) (id : SymbolId) :
    s.setSymbol id (s.tables.symbolType id) false = s := by
  have symbols : s.tables.symbols.modify id (fun t => { t with ty := s.tables.symbolType id }) =
      s.tables.symbols := by
    refine Array.ext_getElem? fun i => ?_
    rw [Array.getElem?_modify]
    split
    · rename_i same
      subst same
      cases found : s.tables.symbols[id]? with
      | none => rfl
      | some t => simp [Analysis.symbolType, found]
    · rfl
  simp [setSymbol, symbols]

theorem setSymbol_refines (s : Progress) (id : SymbolId) {ty : Ty} (changed : Bool)
    (le : s.tables.symbolType id ≤ ty) : s.tables.Refines (s.setSymbol id ty changed).tables where
  bindings := rfl
  size := by simp [setSymbol]
  symbols i t found := by
    simp only [setSymbol, Array.getElem?_modify, found]
    split
    · rename_i same
      subst same
      exact ⟨ty, by simpa [Analysis.symbolType, found] using le, rfl⟩
    · exact ⟨t.ty, le_rfl, rfl⟩
  types k := le_rfl

theorem setSymbol_symbolType (s : Progress) {id : SymbolId} (low : id < s.tables.symbols.size)
    (ty : Ty) (changed : Bool) : (s.setSymbol id ty changed).tables.symbolType id = ty := by
  rw [setSymbol, Analysis.symbolType, Array.getElem?_modify, if_pos rfl,
    Array.getElem?_eq_getElem low]
  rfl

theorem setSymbol_moves (exprs : List Expr) (s : Progress) {id : SymbolId} {ty : Ty}
    (low : id < s.tables.symbols.size) (le : s.tables.symbolType id ≤ ty)
    (ne : ty ≠ s.tables.symbolType id) : s.Moves exprs (s.setSymbol id ty true) := by
  have refines := s.setSymbol_refines id true le
  refine ⟨refines, Or.inr ⟨Bool.or_true _, refines.weight_symbol_lt low ?_⟩⟩
  rw [s.setSymbol_symbolType low]
  exact ne.symm

theorem setNode_typeOf (s : Progress) (node k : NodeId) (ty : Ty) :
    (s.setNode node ty).tables.typeOf k = if node = k then ty else s.tables.typeOf k := by
  simp only [setNode, Analysis.typeOf, Std.TreeMap.getElem?_insert, compare_eq_iff_eq]
  split <;> rfl

theorem setNode_refines (s : Progress) (node : NodeId) {ty : Ty}
    (le : s.tables.typeOf node ≤ ty) : s.tables.Refines (s.setNode node ty).tables where
  bindings := rfl
  size := rfl
  symbols i t found := ⟨t.ty, le_rfl, found⟩
  types k := by
    rw [setNode_typeOf]
    split
    · rename_i same
      exact same ▸ le
    · exact le_rfl

theorem setNode_moves {exprs : List Expr} (s : Progress) {e : Expr} {ty : Ty} (mem : e ∈ exprs)
    (le : s.tables.typeOf e.id ≤ ty) (ne : ty ≠ s.tables.typeOf e.id) :
    s.Moves exprs (s.setNode e.id ty) := by
  have refines := s.setNode_refines e.id le
  refine ⟨refines, Or.inr ⟨rfl, refines.weight_node_lt mem ?_⟩⟩
  rw [setNode_typeOf, if_pos rfl]
  exact ne.symm

end Progress

namespace Ty

/-- Taking `proposed` into account does not change the type. -/
def Keeps (current proposed : Ty) : Prop :=
  unify current proposed = some (current, false)

/-- The two types can be reconciled. -/
def Agrees (current proposed : Ty) : Prop :=
  ∃ result, unify current proposed = some result

end Ty

namespace Expr

/-- The expression meets a demand as the tables stand. -/
def Meets (a : Analysis) (ty : Ty) : Expr → Prop
  | .var _ name | .index _ name _ | .call _ name _ =>
    ∃ id, a.bindings[name.id]? = some id ∧ (a.symbolType id).Keeps ty
  | .paren _ inner => inner.Meets a ty
  | .unary n .neg operand =>
    if ty.isNumeric then operand.Meets a ty else (a.typeOf n.id).Agrees ty
  | .int n _ | .float n _ | .bool n _ | .unary n .not _ | .binary n _ _ _ =>
    (a.typeOf n.id).Agrees ty

/-- What the operands of an operator have to meet. -/
def OperandsMeet (a : Analysis) (op : BinOp) (lhs rhs : Expr) : Prop :=
  let left := a.typeOf lhs.id
  let right := a.typeOf rhs.id
  match op with
  | .and | .or => lhs.Meets a .boolean ∧ rhs.Meets a .boolean
  | .eq | .ne =>
    (left ≠ .undefined → rhs.Meets a left) ∧ (right ≠ .undefined → lhs.Meets a right)
  | .lt | .gt | .le | .ge => lhs.Meets a .num ∧ rhs.Meets a .num
  | .slash => lhs.Meets a .float ∧ rhs.Meets a .float
  | .div | .mod => lhs.Meets a .int ∧ rhs.Meets a .int
  | .add | .sub | .mul =>
    lhs.Meets a (Infer.arithmeticType left right) ∧ rhs.Meets a (Infer.arithmeticType left right)

end Expr

/-- The type an operator gives to an expression with operands of these types. -/
def BinOp.resultType (op : BinOp) (left right : Ty) : Ty :=
  match op with
  | .and | .or | .eq | .ne | .lt | .gt | .le | .ge => .boolean
  | .slash => .float
  | .div | .mod => .int
  | .add | .sub | .mul => Infer.arithmeticType left right

/-- The type is not above the one a visit to the expression computes from what is inside it. A minus
sign makes a number of an operand about which nothing is known yet. -/
def Expr.Admits (a : Analysis) (ty : Ty) : Expr → Prop
  | .int .. => ty ≤ .int
  | .float .. => ty ≤ .float
  | .bool .. => ty ≤ .boolean
  | .var _ name | .index _ name _ | .call _ name _ =>
    ∀ id, a.bindings[name.id]? = some id → ty ≤ a.symbolType id
  | .paren _ inner => ty ≤ a.typeOf inner.id
  | .unary _ .neg operand => ty ≤ .num ∨ ty ≤ a.typeOf operand.id
  | .unary _ .not _ => ty ≤ .boolean
  | .binary _ op lhs rhs => ty ≤ op.resultType (a.typeOf lhs.id) (a.typeOf rhs.id)

/-- No expression is ahead of what its type is computed from. -/
def Analysis.Behind (a : Analysis) (exprs : List Expr) : Prop :=
  ∀ e ∈ exprs, e.Admits a (a.typeOf e.id)

theorem BinOp.resultType_mono (op : BinOp) {s s' t t' : Ty} (left : s ≤ s') (right : t ≤ t') :
    op.resultType s t ≤ op.resultType s' t' := by
  cases op
  case add | sub | mul =>
    simp only [BinOp.resultType, Infer.arithmeticType]
    by_cases float : s = .float ∨ t = .float
    · have float' : s' = .float ∨ t' = .float := by
        rcases float with rfl | rfl
        · exact Or.inl (Ty.eq_of_terminal_le rfl left)
        · exact Or.inr (Ty.eq_of_terminal_le rfl right)
      simp [float, float']
    · by_cases int : s = .int ∧ t = .int
      · obtain ⟨rfl, rfl⟩ := int
        obtain rfl := Ty.eq_of_terminal_le rfl left
        obtain rfl := Ty.eq_of_terminal_le rfl right
        exact le_rfl
      · simp only [float, int, Bool.or_eq_true, Bool.and_eq_true, decide_eq_true_eq, if_false]
        refine Ty.num_le ?_
        split
        · rfl
        · split <;> rfl
  all_goals exact le_rfl

namespace Expr.Admits
variable {a b : Analysis} {e : Expr} {s t u : Ty}

theorem refine (h : e.Admits a t) (refines : a.Refines b) : e.Admits b t := by
  cases e with
  | int | float | bool => exact h
  | var _ name | index _ name _ | call _ name _ =>
    intro id found
    rw [refines.bindings] at found
    exact (h id found).trans (refines.symbolType id)
  | paren _ inner => exact le_trans h (refines.types _)
  | unary _ op operand =>
    cases op with
    | not => exact h
    | neg => exact h.imp_right fun le => le.trans (refines.types _)
  | binary _ op lhs rhs =>
    exact le_trans h (op.resultType_mono (refines.types _) (refines.types _))

theorem undefined (e : Expr) : e.Admits a .undefined := by
  cases e with
  | int | float | bool | paren | binary => exact Ty.undefined_le _
  | var | index | call => exact fun id _ => Ty.undefined_le _
  | unary _ op _ =>
    cases op with
    | not => exact Ty.undefined_le _
    | neg => exact Or.inl (Ty.undefined_le _)

theorem unify {changed : Bool} (left : e.Admits a s) (right : e.Admits a t)
    (h : Ty.unify s t = some (u, changed)) : e.Admits a u := by
  cases e with
  | int | float | bool | paren | binary => exact Ty.unify_le h left right
  | var | index | call => exact fun id found => Ty.unify_le h (left id found) (right id found)
  | unary _ op operand =>
    cases op with
    | not => exact Ty.unify_le h left right
    | neg =>
      rcases Ty.unify_cases h with rfl | rfl
      · exact left
      · exact right

end Expr.Admits

mutual

/-- A visit to the expression changes nothing. -/
def Expr.Stable (a : Analysis) : Expr → Prop
  | .int n _ => (a.typeOf n.id).Keeps .int
  | .float n _ => (a.typeOf n.id).Keeps .float
  | .bool n _ => (a.typeOf n.id).Keeps .boolean
  | .var n name => ∃ id, a.bindings[name.id]? = some id ∧ (a.typeOf n.id).Keeps (a.symbolType id)
  | .index n array i =>
    i.Stable a ∧ i.Meets a .int ∧
      ∃ id, a.bindings[array.id]? = some id ∧ (a.typeOf n.id).Keeps (a.symbolType id)
  | .call n callee args =>
    ∃ id, a.bindings[callee.id]? = some id ∧ Expr.StableArgs a args (a.params id) ∧
      (a.typeOf n.id).Keeps (a.symbolType id)
  | .paren n inner => inner.Stable a ∧ (a.typeOf n.id).Keeps (a.typeOf inner.id)
  | .unary n .neg operand =>
    operand.Stable a ∧ operand.Meets a .num ∧
      (a.typeOf n.id).Keeps
        (if a.typeOf operand.id = .undefined then .num else a.typeOf operand.id)
  | .unary n .not operand =>
    operand.Stable a ∧ operand.Meets a .boolean ∧ (a.typeOf n.id).Keeps .boolean
  | .binary n op lhs rhs =>
    lhs.Stable a ∧ rhs.Stable a ∧ Expr.OperandsMeet a op lhs rhs ∧
      (a.typeOf n.id).Keeps (op.resultType (a.typeOf lhs.id) (a.typeOf rhs.id))

/-- The same for arguments, which are passed to parameters. -/
def Expr.StableArgs (a : Analysis) : List Expr → List SymbolId → Prop
  | arg :: args, param :: params =>
    arg.Stable a ∧ (a.symbolType param ≠ .undefined → arg.Meets a (a.symbolType param)) ∧
      Expr.StableArgs a args params
  | _, _ => True

end

/-- An assignment of the value to the target changes nothing. -/
def Target.Stable (a : Analysis) (value : Expr) : Target → Prop
  | .var name =>
    value.Stable a ∧
      ∃ id, a.bindings[name.id]? = some id ∧ (a.symbolType id).Keeps (a.typeOf value.id)
  | .index array i =>
    value.Stable a ∧ i.Stable a ∧ i.Meets a .int ∧
      ∃ id, a.bindings[array.id]? = some id ∧ (a.symbolType id).Keeps (a.typeOf value.id)

mutual

/-- A visit to the statement changes nothing. -/
def Stmt.Stable (a : Analysis) (here : Option SymbolId) : Stmt → Prop
  | .varDecl .. | .input .. | .ret _ none => True
  | .arrayDecl _ _ size _ => size.Stable a ∧ size.Meets a .int
  | .method _ name _ _ _ body =>
    ∃ id, a.bindings[name.id]? = some id ∧ Stmt.StableAll a (some id) body
  | .assign _ targets values => ∀ tv ∈ targets.zip values, tv.1.Stable a tv.2
  | .print _ value => value.Stable a
  | .alternative _ guards | .iterative _ guards => Guard.StableAll a here guards
  | .block _ _ body => Stmt.StableAll a here body
  | .ret _ (some value) => value.Stable a
  | .call _ callee args =>
    ∃ id, a.bindings[callee.id]? = some id ∧ Expr.StableArgs a args (a.params id)

def Stmt.StableAll (a : Analysis) (here : Option SymbolId) : List Stmt → Prop
  | [] => True
  | s :: ss => s.Stable a here ∧ Stmt.StableAll a here ss

def Guard.StableAll (a : Analysis) (here : Option SymbolId) : List Guard → Prop
  | [] => True
  | .mk _ cond body :: gs =>
    cond.Stable a ∧ cond.Meets a .boolean ∧ body.Stable a here ∧ Guard.StableAll a here gs

end

namespace Infer

/-- The state a part of inference leaves, also when it fails. -/
def after {α : Type} (x : Infer α) (s : Progress) : Progress :=
  match x s with
  | .ok _ t | .error _ t => t

theorem after_ok {α : Type} {x : Infer α} {s t : Progress} {a : α} (h : x s = .ok a t) :
    x.after s = t := by
  rw [after, h]

theorem after_error {α : Type} {x : Infer α} {s t : Progress} {e : Error}
    (h : x s = .error e t) : x.after s = t := by
  rw [after, h]

/-- What a part of inference can do to the tables, and what holds of its result if it leaves them
alone. -/
structure Steady {α : Type} (exprs : List Expr) (x : Infer α) (s : Progress) (met : α → Prop) :
    Prop where
  moves : s.Moves exprs (x.after s)
  still : ∀ a, x s = .ok a s → met a
  behind : (exprs.map Expr.id).Nodup → s.tables.Behind exprs → ∀ a t, x s = .ok a t →
    t.tables.Behind exprs

namespace Steady
variable {α β : Type} {exprs : List Expr} {x : Infer α} {f : α → Infer β} {s : Progress}
variable {P : α → Prop} {Q : β → Prop}

theorem mono {R : α → Prop} (h : Steady exprs x s P) (weaker : ∀ a, P a → R a) :
    Steady exprs x s R :=
  ⟨h.moves, fun a run => weaker a (h.still a run), h.behind⟩

theorem pure {a : α} (holds : P a) : Steady exprs (pure a) s P := by
  refine ⟨.refl exprs s, fun b run => ?_, fun _ behind b t run => ?_⟩
  · obtain ⟨rfl, -⟩ := lasting_pure_ok.mp run
    exact holds
  · obtain ⟨-, rfl⟩ := lasting_pure_ok.mp run
    exact behind

theorem throw (e : Error) : Steady exprs (throw e) s P :=
  ⟨.refl exprs s, fun _ run => absurd run lasting_throw_ok,
    fun _ _ _ _ run => absurd run lasting_throw_ok⟩

theorem refines (h : Steady exprs x s P) {a : α} {t : Progress} (run : x s = .ok a t) :
    s.tables.Refines t.tables := by
  have moves := h.moves
  rw [after_ok run] at moves
  exact moves.refines

theorem bind (first : Steady exprs x s P)
    (second : ∀ a t, x s = .ok a t → (t = s → P a) →
      Steady exprs (f a) t fun b => t = s → Q b) :
    Steady exprs (x >>= f) s Q := by
  have moves : ∀ a t, x s = .ok a t → s.Moves exprs t := by
    intro a t run
    have moves := first.moves
    rwa [after_ok run] at moves
  have met : ∀ a t, x s = .ok a t → t = s → P a := by
    rintro a t run rfl
    exact first.still a run
  refine ⟨?_, fun b run => ?_, fun distinct behind b u run => ?_⟩
  · cases run : x s with
    | error e t =>
      have both := lasting_bind_error.mpr (Or.inl run : _ ∨ ∃ a t, x s = .ok a t ∧ f a t = _)
      rw [after_error both, ← after_error run]
      exact first.moves
    | ok a t =>
      have both : (x >>= f).after s = (f a).after t := by
        change after (EStateM.bind x f) s = _
        rw [after, EStateM.bind, run]
        rfl
      rw [both]
      exact (moves a t run).trans (second a t run (met a t run)).moves
  · obtain ⟨a, t, left, right⟩ := lasting_bind_ok.mp run
    have there := moves a t left
    have back := (second a t left (met a t left)).moves
    rw [after_ok right] at back
    -- Weight is never lost, so a run that comes back has not moved.
    have same : t = s := by
      rcases there.moved with same | ⟨-, more⟩
      · exact same
      · rcases back.moved with same | ⟨-, more'⟩
        · exact same.symm
        · omega
    subst same
    exact (second a t left (met a t left)).still b right rfl
  · obtain ⟨a, t, left, right⟩ := lasting_bind_ok.mp run
    exact (second a t left (met a t left)).behind distinct
      (first.behind distinct behind a t left) b u right

/-- The same with tables that point into themselves, as they still do after the first part. -/
theorem seq (ground : s.tables.Grounded) (first : Steady exprs x s P)
    (second : ∀ a t, x s = .ok a t → t.tables.Grounded → s.tables.Refines t.tables →
      (t = s → P a) → Steady exprs (f a) t fun b => t = s → Q b) :
    Steady exprs (x >>= f) s Q :=
  first.bind fun a t run known =>
    second a t run ((first.refines run).retypes.grounded ground) (first.refines run) known

theorem discard (h : Steady exprs x s P) : Steady exprs (discard x) s fun _ => ∃ a, P a := by
  refine ⟨?_, fun _ run => ?_, fun distinct behind _ t run => ?_⟩
  · have same : (Functor.discard x : Infer Unit).after s = x.after s := by
      change after (EStateM.map (fun _ => ()) x) s = _
      unfold after EStateM.map
      cases x s <;> rfl
    rw [same]
    exact h.moves
  · obtain ⟨a, run⟩ := lasting_discard_ok.mp run
    exact ⟨a, h.still a run⟩
  · obtain ⟨a, run⟩ := lasting_discard_ok.mp run
    exact h.behind distinct behind a t run

theorem read {g : Analysis → Infer β} (h : Steady exprs (g s.tables) s Q) :
    Steady exprs (tables >>= g) s Q :=
  ⟨h.moves, h.still, h.behind⟩

theorem named {name : Ident} {g : SymbolId → Infer β}
    (h : ∀ id, s.tables.bindings[name.id]? = some id → Steady exprs (g id) s Q) :
    Steady exprs (binding name >>= g) s Q := by
  have found : ∀ id t, binding name s = .ok id t →
      s.tables.bindings[name.id]? = some id ∧ s = t := by
    intro id t run
    simp only [binding, lasting_bind_ok] at run
    obtain ⟨a, u, look, run⟩ := run
    obtain ⟨rfl, rfl⟩ : s.tables = a ∧ s = u := lasting_pure_ok.mp look
    simp only [Analysis.binding] at run
    cases found : s.tables.bindings[name.id]? with
    | none =>
      simp only [found] at run
      exact absurd run lasting_throw_ok
    | some i =>
      simp only [found] at run
      obtain ⟨rfl, rfl⟩ := lasting_pure_ok.mp run
      exact ⟨rfl, rfl⟩
  have looked : Steady exprs (binding name) s fun _ => True := by
    refine read ?_
    split
    · exact pure trivial
    · exact throw _
  refine looked.bind fun id t run _ => ?_
  obtain ⟨bound, rfl⟩ := found id t run
  exact (h id bound).mono fun _ q _ => q

end Steady

variable {exprs : List Expr} {s : Progress}

theorem unify_steady (current proposed : Ty) (span : Span) :
    Steady exprs (unify current proposed span) s fun r => Ty.unify current proposed = some r := by
  unfold unify
  cases found : Ty.unify current proposed with
  | none => exact .throw _
  | some r => exact .pure rfl

theorem unify_ok {t : Progress} {current proposed : Ty} {r : Ty × Bool} {span : Span}
    (h : unify current proposed span s = .ok r t) :
    Ty.unify current proposed = some r ∧ s = t := by
  unfold unify at h
  cases found : Ty.unify current proposed with
  | none =>
    rw [found] at h
    exact absurd h lasting_throw_ok
  | some next =>
    rw [found] at h
    obtain ⟨rfl, rfl⟩ := lasting_pure_ok.mp h
    exact ⟨rfl, rfl⟩

/-- What refining a node comes to. -/
theorem refineNode_ok {t : Progress} {node : Node} {ty r : Ty}
    (h : refineNode node ty s = .ok r t) :
    r = s.tables.typeOf node.id ∧ t = s ∨ t = s.setNode node.id r := by
  simp only [refineNode, lasting_bind_ok] at h
  obtain ⟨a, s₁, look, ⟨next, changed⟩, s₂, unified, h⟩ := h
  obtain ⟨rfl, rfl⟩ : s.tables = a ∧ s = s₁ := lasting_pure_ok.mp look
  obtain ⟨above, rfl⟩ := unify_ok unified
  cases changed with
  | false =>
    obtain ⟨rfl, rfl⟩ := lasting_pure_ok.mp h
    exact Or.inl ⟨Ty.unify_same above, rfl⟩
  | true =>
    have step : EStateM.Result.ok next (s.setNode node.id next) =
      (.ok r t : EStateM.Result Error _ _) := h
    obtain ⟨rfl, rfl⟩ : next = r ∧ _ = t := by simpa using step
    exact Or.inr rfl

theorem refineSymbol_steady {id : SymbolId} (low : id < s.tables.symbols.size) (ty : Ty)
    (span : Span) :
    Steady exprs (refineSymbol id ty span) s fun _ => (s.tables.symbolType id).Keeps ty := by
  refine .read ((unify_steady ..).bind fun r t unified _ => ?_)
  obtain ⟨next, changed⟩ := r
  obtain ⟨above, rfl⟩ := unify_ok unified
  have le := Ty.le_unify above
  have written : ∀ u t, (modify fun p =>
      { p with
        tables.symbols := p.tables.symbols.modify id fun s => { s with ty := next }
        changed := p.changed || changed } : Infer Unit) s = .ok u t →
      s.setSymbol id next changed = t := fun u t run => (lasting_modify_ok.mp run).2
  cases changed with
  | true =>
    have ne := Ty.unify_other above
    refine ⟨s.setSymbol_moves exprs low le ne, fun u run => ?_, fun _ behind u t run => ?_⟩
    · have new := s.setSymbol_symbolType low next true
      rw [written u s run] at new
      exact absurd new.symm ne
    · obtain rfl := written u t run
      exact fun e mem => (behind e mem).refine (s.setSymbol_refines id true le)
  | false =>
    obtain rfl := Ty.unify_same above
    have back := s.setSymbol_same id
    have moves : s.Moves exprs (s.setSymbol id (s.tables.symbolType id) false) := by
      rw [back]
      exact .refl exprs s
    refine ⟨moves, fun u run _ => above, fun _ behind u t run => ?_⟩
    obtain rfl := back.symm.trans (written u t run)
    exact behind

theorem refineNode_steady {e : Expr} (mem : e ∈ exprs) {ty : Ty} (admits : e.Admits s.tables ty) :
    Steady exprs (refineNode e.node ty) s fun r =>
      r = s.tables.typeOf e.id ∧ (s.tables.typeOf e.id).Keeps ty := by
  refine .read ((unify_steady ..).bind fun r t unified _ => ?_)
  obtain ⟨next, changed⟩ := r
  obtain ⟨above, rfl⟩ := unify_ok unified
  have le := Ty.le_unify above
  cases changed with
  | true =>
    have ne : next ≠ s.tables.typeOf e.id := Ty.unify_other above
    have step : ∀ r t, (do
        modify fun p => { p with tables.types := p.tables.types.insert e.node.id next, changed := true }
        return next : Infer Ty) s = .ok r t → next = r ∧ s.setNode e.id next = t := by
      intro r t run
      simpa using (show EStateM.Result.ok next (s.setNode e.id next) =
        (.ok r t : EStateM.Result Error _ _) from run)
    refine ⟨s.setNode_moves mem le ne, fun r run => ?_, fun distinct behind r t run => ?_⟩
    · have new := s.setNode_typeOf e.id e.id next
      rw [(step r s run).2, if_pos rfl] at new
      exact absurd new.symm ne
    · obtain ⟨-, rfl⟩ := step r t run
      have refines := s.setNode_refines e.id le
      intro e' mem'
      rw [s.setNode_typeOf]
      split
      · rename_i same
        obtain rfl := List.inj_on_of_nodup_map distinct mem mem' same
        exact ((behind e mem).unify admits above).refine refines
      · exact (behind e' mem').refine refines
  | false =>
    have same : next = s.tables.typeOf e.id := Ty.unify_same above
    exact .pure fun _ => ⟨same, same ▸ above⟩

/-- A name points into the table of symbols, so its symbol can be refined. -/
theorem refineNamed_steady (ground : s.tables.Grounded) (name : Ident) (ty : Ty) (span : Span) :
    Steady exprs (do refineSymbol (← binding name) ty span : Infer Unit) s fun _ =>
      ∃ id, s.tables.bindings[name.id]? = some id ∧ (s.tables.symbolType id).Keeps ty :=
  .named fun id found =>
    (refineSymbol_steady (ground.bindings _ _ found) ty span).mono fun _ kept => ⟨id, found, kept⟩

theorem agree_steady (k : NodeId) (ty : Ty) (span : Span) :
    Steady exprs (do discard (unify ((← tables).typeOf k) ty span) : Infer Unit) s fun _ =>
      (s.tables.typeOf k).Agrees ty :=
  .read (unify_steady ..).discard

theorem constrain_steady (ty : Ty) : (e : Expr) → {s : Progress} → s.tables.Grounded →
    Steady exprs (constrain ty e) s fun _ => e.Meets s.tables ty
  | .var .., _, ground | .index .., _, ground | .call .., _, ground => by
    simp only [constrain, Expr.Meets]
    exact refineNamed_steady ground ..
  | .paren _ inner, _, ground => by
    simp only [constrain, Expr.Meets]
    exact constrain_steady ty inner ground
  | .unary _ .neg operand, _, ground => by
    simp only [constrain, Expr.Meets]
    split
    · exact constrain_steady ty operand ground
    · exact agree_steady ..
  | .int .., _, _ | .float .., _, _ | .bool .., _, _ | .unary _ .not _, _, _ | .binary .., _, _ => by
    simp only [constrain, Expr.Meets]
    exact agree_steady ..

/-- Two demands, one after the other. -/
theorem constrainBoth_steady {α : Type} (ground : s.tables.Grounded) (left right : Ty)
    (lhs rhs : Expr) (a : α) :
    Steady exprs (do constrain left lhs; constrain right rhs; return a : Infer α) s fun b =>
      b = a ∧ lhs.Meets s.tables left ∧ rhs.Meets s.tables right := by
  refine (constrain_steady left lhs ground).seq ground fun _ t _ ground _ met => ?_
  refine (constrain_steady right rhs ground).bind fun _ u _ met' => ?_
  refine .pure ?_
  rintro rfl rfl
  exact ⟨rfl, met rfl, met' rfl⟩

/-- A demand that is made only under a condition. -/
theorem constrainIf_steady {α : Type} {x : Infer α} {P : α → Prop} (ground : s.tables.Grounded)
    (c : Prop) [Decidable c] (ty : Ty) (e : Expr)
    (rest : ∀ t : Progress, t.tables.Grounded →
      Steady exprs x t fun a => t = s → (c → e.Meets s.tables ty) → P a) :
    Steady exprs (if c then do constrain ty e; x else x : Infer α) s P := by
  split
  · refine (constrain_steady ty e ground).seq ground fun _ t _ ground _ met => ?_
    refine (rest t ground).mono fun a holds same => holds same fun _ => met same
  · rename_i without
    exact (rest s ground).mono fun a holds => holds rfl fun c => absurd c without

theorem operator_steady (ground : s.tables.Grounded) (op : BinOp) (lhs rhs : Expr)
    (left right : Ty) :
    Steady exprs (operator op lhs rhs left right) s fun ty =>
      ty = op.resultType left right ∧
        (left = s.tables.typeOf lhs.id → right = s.tables.typeOf rhs.id →
          Expr.OperandsMeet s.tables op lhs rhs) := by
  cases op
  case eq | ne =>
    simp only [operator]
    refine constrainIf_steady ground _ left rhs fun t ground => ?_
    refine constrainIf_steady ground _ right lhs fun u _ => ?_
    refine .pure ?_
    rintro rfl met rfl met'
    refine ⟨rfl, ?_⟩
    rintro rfl rfl
    exact ⟨by simpa using met', by simpa using met⟩
  case and | or | lt | gt | le | ge | slash | div | mod =>
    refine (constrainBoth_steady ground ..).mono ?_
    rintro ty ⟨rfl, met⟩
    exact ⟨rfl, fun _ _ => met⟩
  case add | sub | mul =>
    refine (constrainBoth_steady ground ..).mono ?_
    rintro ty ⟨rfl, met⟩
    refine ⟨rfl, ?_⟩
    rintro rfl rfl
    exact met

theorem passArgument_steady (ground : s.tables.Grounded) {param : SymbolId}
    (low : param < s.tables.symbols.size) (arg : Expr) (argType : Ty) :
    Steady exprs (passArgument param arg argType) s fun _ =>
      s.tables.symbolType param ≠ .undefined → arg.Meets s.tables (s.tables.symbolType param) := by
  refine .read ?_
  dsimp only
  split
  · rename_i unknown
    exact (refineSymbol_steady low argType arg.span).mono fun _ _ known => absurd unknown known
  · exact (constrain_steady _ arg ground).mono fun _ met _ => met

theorem params_low {a : Analysis} (ground : a.Grounded) (method : SymbolId) :
    ∀ p ∈ a.params method, p < a.symbols.size := by
  intro p mem
  cases found : a.symbols[method]? with
  | none => simp [Analysis.params, Analysis.symbolKind, found, SymbolKind.params?] at mem
  | some s =>
    cases kind : s.kind.params? with
    | none => simp [Analysis.params, Analysis.symbolKind, found, kind] at mem
    | some ps =>
      refine ground.params method s ps found kind p ?_
      simpa [Analysis.params, Analysis.symbolKind, found, kind] using mem

/-- The last step for a named expression: its node takes the type of the symbol. -/
theorem nameNode_steady {e : Expr} (mem : e ∈ exprs) {id : SymbolId}
    (admits : e.Admits s.tables (s.tables.symbolType id)) :
    Steady exprs (do refineNode e.node ((← tables).symbolType id) : Infer Ty) s fun r =>
      r = s.tables.typeOf e.id ∧ (s.tables.typeOf e.id).Keeps (s.tables.symbolType id) :=
  .read (refineNode_steady mem admits)

theorem refineNode_type {t : Progress} {node : Node} {ty r : Ty}
    (h : refineNode node ty s = .ok r t) : t.tables.typeOf node.id = r := by
  obtain ⟨rfl, rfl⟩ | rfl := refineNode_ok h
  · rfl
  · rw [s.setNode_typeOf, if_pos rfl]

/-- The type an expression is given is the one recorded for it. -/
theorem expr_type {e : Expr} {t : Progress} {ty : Ty} (h : expr e s = .ok ty t) :
    t.tables.typeOf e.id = ty := by
  cases e with
  | int | float | bool =>
    simp only [expr] at h
    exact refineNode_type h
  | var =>
    simp only [expr, lasting_bind_ok] at h
    obtain ⟨_, _, -, _, _, -, last⟩ := h
    exact refineNode_type last
  | index =>
    simp only [expr, lasting_bind_ok] at h
    obtain ⟨_, _, -, _, _, -, _, _, -, _, _, -, last⟩ := h
    exact refineNode_type last
  | call =>
    simp only [expr, lasting_bind_ok] at h
    obtain ⟨_, _, -, _, _, -, _, _, -, _, _, -, last⟩ := h
    exact refineNode_type last
  | paren =>
    simp only [expr, lasting_bind_ok] at h
    obtain ⟨_, _, -, last⟩ := h
    exact refineNode_type last
  | unary _ op =>
    cases op <;>
    · simp only [expr, lasting_bind_ok] at h
      obtain ⟨_, _, -, _, _, -, last⟩ := h
      exact refineNode_type last
  | binary =>
    simp only [expr, lasting_bind_ok] at h
    obtain ⟨_, _, -, _, _, -, _, _, -, last⟩ := h
    exact refineNode_type last

theorem operator_type {t : Progress} {op : BinOp} {lhs rhs : Expr} {left right ty : Ty}
    (h : operator op lhs rhs left right s = .ok ty t) : ty = op.resultType left right := by
  cases op
  case eq | ne =>
    simp only [operator] at h
    split at h <;> split at h <;>
    · simp only [lasting_bind_ok, lasting_pure_ok] at h
      grind [BinOp.resultType]
  all_goals
    simp only [operator, lasting_bind_ok, lasting_pure_ok] at h
    obtain ⟨_, _, -, _, _, -, rfl, -⟩ := h
    rfl

mutual

theorem expr_steady : (e : Expr) → {s : Progress} → e.parts ⊆ exprs → s.tables.Grounded →
    Steady exprs (expr e) s fun ty => ty = s.tables.typeOf e.id ∧ e.Stable s.tables
  | .int n v, _, inside, _ => by
    simp only [expr, Expr.Stable]
    exact refineNode_steady (e := .int n v) (inside (Expr.mem_parts _)) (le_refl Ty.int)
  | .float n v, _, inside, _ => by
    simp only [expr, Expr.Stable]
    exact refineNode_steady (e := .float n v) (inside (Expr.mem_parts _)) (le_refl Ty.float)
  | .bool n v, _, inside, _ => by
    simp only [expr, Expr.Stable]
    exact refineNode_steady (e := .bool n v) (inside (Expr.mem_parts _)) (le_refl Ty.boolean)
  | .var n name, s, inside, _ => by
    simp only [expr, Expr.Stable]
    refine .named fun id found => ?_
    have admits : (Expr.var n name).Admits s.tables (s.tables.symbolType id) :=
      fun id' found' => by simp_all
    exact (nameNode_steady (inside (Expr.mem_parts _)) admits).mono
      fun _ kept => ⟨kept.1, id, found, kept.2⟩
  | .index n array i, _, inside, ground => by
    simp only [expr, Expr.Stable]
    have part : i.parts ⊆ exprs := fun e mem => inside (by simp [Expr.parts, mem])
    refine (expr_steady i part ground).discard.seq ground fun _ t _ ground _ seen => ?_
    refine (constrain_steady .int i ground).seq ground fun _ u _ ground _ met => ?_
    refine .named fun id found => ?_
    have admits : (Expr.index n array i).Admits u.tables (u.tables.symbolType id) :=
      fun id' found' => by simp_all
    refine (nameNode_steady (inside (Expr.mem_parts _)) admits).mono ?_
    rintro ty ⟨rfl, kept⟩ rfl rfl
    obtain ⟨_, -, stable⟩ := seen rfl
    exact ⟨rfl, stable, met rfl, id, found, kept⟩
  | .call n callee args, _, inside, ground => by
    simp only [expr, Expr.Stable]
    have part : Expr.partsAll args ⊆ exprs := fun e mem => inside (by simp [Expr.parts, mem])
    refine .named fun id found => .read ?_
    refine (arguments_steady args _ part ground (params_low ground id)).seq ground
      fun _ t _ _ refines seen => ?_
    have admits : (Expr.call n callee args).Admits t.tables (t.tables.symbolType id) :=
      fun id' found' => by simp_all [refines.bindings]
    refine (nameNode_steady (inside (Expr.mem_parts _)) admits).mono ?_
    rintro ty ⟨rfl, kept⟩ rfl
    exact ⟨rfl, id, found, seen rfl, kept⟩
  | .paren n inner, _, inside, ground => by
    simp only [expr, Expr.Stable]
    have part : inner.parts ⊆ exprs := fun e mem => inside (by simp [Expr.parts, mem])
    refine (expr_steady inner part ground).bind fun ty t run seen => ?_
    have admits : (Expr.paren n inner).Admits t.tables ty := (expr_type run).ge
    refine (refineNode_steady (inside (Expr.mem_parts _)) admits).mono ?_
    rintro r ⟨rfl, kept⟩ rfl
    obtain ⟨rfl, stable⟩ := seen rfl
    exact ⟨rfl, stable, kept⟩
  | .unary n .neg operand, _, inside, ground => by
    simp only [expr, Expr.Stable]
    have part : operand.parts ⊆ exprs := fun e mem => inside (by simp [Expr.parts, mem])
    refine (expr_steady operand part ground).seq ground fun ty t run ground _ seen => ?_
    refine (constrain_steady .num operand ground).seq ground fun _ u _ _ refines met => ?_
    have admits : (Expr.unary n .neg operand).Admits u.tables
        (if ty = .undefined then .num else ty) := by
      split
      · exact Or.inl le_rfl
      · exact Or.inr ((expr_type run).ge.trans (refines.types _))
    refine (refineNode_steady (inside (Expr.mem_parts _)) admits).mono ?_
    rintro r ⟨rfl, kept⟩ rfl rfl
    obtain ⟨rfl, stable⟩ := seen rfl
    exact ⟨rfl, stable, met rfl, kept⟩
  | .unary n .not operand, _, inside, ground => by
    simp only [expr, Expr.Stable]
    have part : operand.parts ⊆ exprs := fun e mem => inside (by simp [Expr.parts, mem])
    refine (expr_steady operand part ground).discard.seq ground fun ty t _ ground _ seen => ?_
    refine (constrain_steady .boolean operand ground).bind fun _ u _ met => ?_
    refine (refineNode_steady (e := .unary n .not operand) (inside (Expr.mem_parts _))
      (le_refl Ty.boolean)).mono ?_
    rintro r ⟨rfl, kept⟩ rfl rfl
    obtain ⟨_, -, stable⟩ := seen rfl
    exact ⟨rfl, stable, met rfl, kept⟩
  | .binary n op lhs rhs, _, inside, ground => by
    simp only [expr, Expr.Stable]
    have onLeft : lhs.parts ⊆ exprs := fun e mem => inside (by simp [Expr.parts, mem])
    have onRight : rhs.parts ⊆ exprs := fun e mem => inside (by simp [Expr.parts, mem])
    refine (expr_steady lhs onLeft ground).seq ground fun left t run ground _ seen => ?_
    refine (expr_steady rhs onRight ground).seq ground fun right u run' ground refines seen' => ?_
    refine (operator_steady ground op lhs rhs left right).seq ground
      fun ty v ran _ refines' met => ?_
    have admits : (Expr.binary n op lhs rhs).Admits v.tables ty := by
      have le : left ≤ v.tables.typeOf lhs.id :=
        (expr_type run).ge.trans ((refines.trans refines').types _)
      have le' : right ≤ v.tables.typeOf rhs.id := (expr_type run').ge.trans (refines'.types _)
      exact operator_type ran ▸ op.resultType_mono le le'
    refine (refineNode_steady (inside (Expr.mem_parts _)) admits).mono ?_
    rintro r ⟨rfl, kept⟩ rfl rfl rfl
    obtain ⟨rfl, stable⟩ := seen rfl
    obtain ⟨rfl, stable'⟩ := seen' rfl
    obtain ⟨rfl, demands⟩ := met rfl
    exact ⟨rfl, stable, stable', demands rfl rfl, kept⟩

theorem arguments_steady : (args : List Expr) → (params : List SymbolId) → {s : Progress} →
    Expr.partsAll args ⊆ exprs → s.tables.Grounded → (∀ p ∈ params, p < s.tables.symbols.size) →
    Steady exprs (arguments args params) s fun _ => Expr.StableArgs s.tables args params
  | [], _, s, _, _, _ => by
    simp only [arguments, Expr.StableArgs]
    exact .pure trivial
  | _ :: _, [], s, _, _, _ => by
    simp only [arguments, Expr.StableArgs]
    exact .pure trivial
  | arg :: args, param :: params, s, inside, ground, low => by
    simp only [arguments, Expr.StableArgs]
    have own : arg.parts ⊆ exprs := fun e mem => inside (by simp [Expr.partsAll, mem])
    have rest : Expr.partsAll args ⊆ exprs := fun e mem => inside (by simp [Expr.partsAll, mem])
    refine (expr_steady arg own ground).seq ground fun ty t _ ground refines seen => ?_
    rw [← refines.size] at low
    have passed : Steady exprs (passArgument param arg ty) _ _ :=
      passArgument_steady ground (low param List.mem_cons_self) arg ty
    refine passed.seq ground fun _ u _ ground refines met => ?_
    rw [← refines.size] at low
    refine (arguments_steady args params rest ground
      fun p mem => low p (List.mem_cons_of_mem _ mem)).mono ?_
    rintro _ stable rfl rfl
    exact ⟨(seen rfl).2, met rfl, stable⟩

end

/-- A target takes the type of its value and demands its own. -/
theorem take_steady (ground : s.tables.Grounded) {id : SymbolId}
    (low : id < s.tables.symbols.size) (ty : Ty) (span : Span) (value : Expr) :
    Steady exprs (do
      refineSymbol id ty span
      constrain ((← tables).symbolType id) value : Infer Unit) s fun _ =>
        (s.tables.symbolType id).Keeps ty := by
  refine (refineSymbol_steady low ty span).seq ground fun _ t _ ground _ kept => .read ?_
  exact (constrain_steady _ value ground).mono fun _ _ same => kept same

theorem assign_var (name : Ident) (value : Expr) :
    assign (.var name) value = (do
      let ty ← expr value
      let id ← binding name
      refineSymbol id ty name.span
      constrain ((← tables).symbolType id) value) := rfl

theorem assign_index (array : Ident) (i value : Expr) :
    assign (.index array i) value = (do
      let ty ← expr value
      discard (expr i)
      constrain .int i
      let id ← binding array
      refineSymbol id ty array.span
      constrain ((← tables).symbolType id) value) := rfl

theorem assign_steady {target : Target} {value : Expr} (ground : s.tables.Grounded)
    (inside : target.exprs ⊆ exprs) (part : value.parts ⊆ exprs) :
    Steady exprs (assign target value) s fun _ => target.Stable s.tables value := by
  cases target with
  | var name =>
    rw [assign_var]
    refine (expr_steady value part ground).seq ground fun ty t _ ground _ seen => ?_
    refine .named fun id found => ?_
    refine (take_steady ground (ground.bindings _ _ found) ..).mono ?_
    rintro _ kept rfl
    obtain ⟨rfl, stable⟩ := seen rfl
    exact ⟨stable, id, found, kept⟩
  | index array i =>
    rw [assign_index]
    refine (expr_steady value part ground).seq ground fun ty t _ ground _ seen => ?_
    refine (expr_steady i inside ground).discard.seq ground fun _ u _ ground _ seen' => ?_
    refine (constrain_steady .int i ground).seq ground fun _ v _ ground _ met => ?_
    refine .named fun id found => ?_
    refine (take_steady ground (ground.bindings _ _ found) ..).mono ?_
    rintro _ kept rfl rfl rfl
    obtain ⟨rfl, stable⟩ := seen rfl
    obtain ⟨_, -, stable'⟩ := seen' rfl
    exact ⟨stable, stable', met rfl, id, found, kept⟩

theorem assigns_steady : (targets : List Target) → (values : List Expr) → {s : Progress} →
    s.tables.Grounded → Target.exprsAll targets ⊆ exprs → Expr.partsAll values ⊆ exprs →
    Steady exprs (assigns targets values) s fun _ =>
      ∀ tv ∈ targets.zip values, tv.1.Stable s.tables tv.2
  | [], _, _, _, _, _ => by
    simp only [assigns]
    exact .pure (by simp)
  | _ :: _, [], _, _, _, _ => by
    simp only [assigns]
    exact .pure (by simp)
  | target :: targets, value :: values, _, ground, inside, part => by
    simp only [assigns]
    have first : Steady exprs (assign target value) _ _ := assign_steady ground
      (fun e mem => inside (by simp [Target.exprsAll, mem]))
      (fun e mem => part (by simp [Expr.partsAll, mem]))
    refine first.seq ground fun _ t _ ground _ stable => ?_
    refine (assigns_steady targets values ground
      (fun e mem => inside (by simp [Target.exprsAll, mem]))
      (fun e mem => part (by simp [Expr.partsAll, mem]))).mono ?_
    rintro _ rest rfl
    simpa using ⟨stable rfl, fun t v mem => rest (t, v) mem⟩

theorem returned_steady {here : Option SymbolId} {value : Expr} (ground : s.tables.Grounded)
    (part : value.parts ⊆ exprs) :
    Steady exprs (returned here value) s fun _ => value.Stable s.tables := by
  refine (expr_steady value part ground).discard.seq ground fun _ t _ ground _ seen => ?_
  have met : t = s → value.Stable s.tables := fun same => by
    obtain ⟨_, -, stable⟩ := seen same
    exact stable
  cases here with
  | none => exact .pure met
  | some method =>
    refine .read ?_
    split
    · exact (constrain_steady _ value ground).mono fun _ _ => met
    · exact .pure met

mutual

theorem stmt_steady : (stm : Stmt) → {here : Option SymbolId} → {s : Progress} →
    stm.exprs ⊆ exprs → s.tables.Grounded →
    Steady exprs (stmt here stm) s fun _ => stm.Stable s.tables here
  | .varDecl .., _, _, _, _ | .input .., _, _, _, _ | .ret _ none, _, _, _, _ => by
    simp only [stmt, Stmt.Stable]
    exact .pure trivial
  | .arrayDecl _ _ size _, _, _, inside, ground => by
    simp only [stmt, Stmt.Stable]
    refine (expr_steady size inside ground).discard.seq ground fun _ t _ ground _ seen => ?_
    refine (constrain_steady .int size ground).mono ?_
    rintro _ met rfl
    obtain ⟨_, -, stable⟩ := seen rfl
    exact ⟨stable, met⟩
  | .method _ name _ _ _ body, _, _, inside, ground => by
    simp only [stmt, Stmt.Stable]
    refine .named fun id found => ?_
    exact (stmts_steady body inside ground).mono fun _ stable => ⟨id, found, stable⟩
  | .assign _ targets values, _, _, inside, ground => by
    simp only [stmt, Stmt.Stable]
    exact assigns_steady targets values ground (fun e mem => inside (by simp [Stmt.exprs, mem]))
      (fun e mem => inside (by simp [Stmt.exprs, mem]))
  | .print _ value, _, _, inside, ground => by
    simp only [stmt, Stmt.Stable]
    refine (expr_steady value inside ground).discard.mono ?_
    rintro _ ⟨_, -, stable⟩
    exact stable
  | .alternative _ gs, _, _, inside, ground | .iterative _ gs, _, _, inside, ground => by
    simp only [stmt, Stmt.Stable]
    exact guards_steady gs inside ground
  | .block _ _ body, _, _, inside, ground => by
    simp only [stmt, Stmt.Stable]
    exact stmts_steady body inside ground
  | .ret _ (some value), _, _, inside, ground => by
    simp only [stmt, Stmt.Stable]
    exact returned_steady ground inside
  | .call _ callee args, _, _, inside, ground => by
    simp only [stmt, Stmt.Stable]
    refine .named fun id found => .read ?_
    exact (arguments_steady args _ inside ground (params_low ground id)).mono
      fun _ stable => ⟨id, found, stable⟩

theorem stmts_steady : (ss : List Stmt) → {here : Option SymbolId} → {s : Progress} →
    Stmt.exprsAll ss ⊆ exprs → s.tables.Grounded →
    Steady exprs (stmts here ss) s fun _ => Stmt.StableAll s.tables here ss
  | [], _, _, _, _ => by
    simp only [stmts, Stmt.StableAll]
    exact .pure trivial
  | first :: rest, _, _, inside, ground => by
    simp only [stmts, Stmt.StableAll]
    have own : first.exprs ⊆ exprs := fun e mem => inside (by simp [Stmt.exprsAll, mem])
    refine (stmt_steady first own ground).seq ground fun _ t _ ground _ stable => ?_
    refine (stmts_steady rest (fun e mem => inside (by simp [Stmt.exprsAll, mem])) ground).mono ?_
    rintro _ stable' rfl
    exact ⟨stable rfl, stable'⟩

theorem guards_steady : (gs : List Guard) → {here : Option SymbolId} → {s : Progress} →
    Guard.exprsAll gs ⊆ exprs → s.tables.Grounded →
    Steady exprs (guards here gs) s fun _ => Guard.StableAll s.tables here gs
  | [], _, _, _, _ => by
    simp only [guards, Guard.StableAll]
    exact .pure trivial
  | .mk _ cond body :: gs, _, _, inside, ground => by
    simp only [guards, Guard.StableAll]
    have test : cond.parts ⊆ exprs := fun e mem => inside (by simp [Guard.exprsAll, mem])
    have own : body.exprs ⊆ exprs := fun e mem => inside (by simp [Guard.exprsAll, mem])
    refine (expr_steady cond test ground).discard.seq ground fun _ t _ ground _ seen => ?_
    refine (constrain_steady .boolean cond ground).seq ground fun _ u _ ground _ met => ?_
    refine (stmt_steady body own ground).seq ground fun _ v _ ground _ stable => ?_
    refine (guards_steady gs (fun e mem => inside (by simp [Guard.exprsAll, mem])) ground).mono ?_
    rintro _ stable' rfl rfl rfl
    obtain ⟨_, -, tested⟩ := seen rfl
    exact ⟨tested, met rfl, stable rfl, stable'⟩

end

end Infer

namespace Program
variable {p : Program} {a a' : Analysis}

/-- The run behind a traversal. -/
theorem traverse_ok {changed : Bool} (h : p.traverse a = .ok changed a') :
    ∃ u, Infer.stmts none p.body ⟨a, false⟩ = .ok u ⟨a', changed⟩ := by
  unfold traverse at h
  split at h
  · rename_i u progress run
    obtain ⟨rfl, rfl⟩ : progress.changed = changed ∧ progress.tables = a' := by simpa using h
    exact ⟨u, run⟩
  · simp at h

theorem traverse_steady (ground : a.Grounded) :
    Infer.Steady p.exprs (Infer.stmts none p.body) ⟨a, false⟩
      fun _ => Stmt.StableAll a none p.body :=
  Infer.stmts_steady p.body (fun _ mem => mem) ground

theorem traverse_moves {changed : Bool} (ground : a.Grounded) (h : p.traverse a = .ok changed a') :
    Progress.Moves p.exprs ⟨a, false⟩ ⟨a', changed⟩ := by
  obtain ⟨u, run⟩ := traverse_ok h
  have moves := (traverse_steady (p := p) ground).moves
  rwa [Infer.after_ok run] at moves

/-- A traversal without a change has found every demand met. -/
theorem traverse_stable (ground : a.Grounded) (h : p.traverse a = .ok false a') :
    Stmt.StableAll a none p.body := by
  have same : (⟨a', false⟩ : Progress) = ⟨a, false⟩ := (traverse_moves ground h).quiet rfl
  obtain ⟨u, run⟩ := traverse_ok h
  rw [same] at run
  exact (traverse_steady ground).still u run

theorem traverse_behind {changed : Bool} (distinct : (p.exprs.map Expr.id).Nodup)
    (ground : a.Grounded) (behind : a.Behind p.exprs) (h : p.traverse a = .ok changed a') :
    a'.Behind p.exprs := by
  obtain ⟨u, run⟩ := traverse_ok h
  exact (traverse_steady ground).behind distinct behind u _ run

/-- With enough fuel the last traversal changes nothing. What traversals keep holds at the end. -/
theorem traverseUntilStable_ok {invariant : Analysis → Prop}
    (keeps : ∀ a a' changed, a.Grounded → invariant a → p.traverse a = .ok changed a' →
      invariant a') :
    ∀ {fuel : Nat} {a a' : Analysis} {n : Nat}, a.Grounded → invariant a →
      2 * (a.symbols.size + p.exprs.length) < fuel + a.weight p.exprs →
      p.traverseUntilStable fuel a = .ok n a' →
      a.Refines a' ∧ invariant a' ∧ p.traverse a' = .ok false a' := by
  intro fuel
  induction fuel with
  | zero =>
    intro a a' n _ _ enough _
    have := a.weight_le p.exprs
    omega
  | succ fuel ih =>
    intro a a' n ground holds enough h
    rw [traverseUntilStable] at h
    cases run : p.traverse a with
    | error e b => simp [run] at h
    | ok changed b =>
      have moves := traverse_moves ground run
      have holds' := keeps a b changed ground holds run
      cases changed with
      | false =>
        have same : b = a := congrArg Progress.tables (moves.quiet rfl)
        obtain ⟨-, rfl⟩ : 1 = n ∧ b = a' := by simpa [run] using h
        subst same
        exact ⟨.refl _, holds', run⟩
      | true =>
        have more : a.weight p.exprs < b.weight p.exprs := by
          rcases moves.moved with same | ⟨-, more⟩
          · simp at same
          · exact more
        simp only [run] at h
        cases rest : p.traverseUntilStable fuel b with
        | error e c => simp [rest] at h
        | ok m c =>
          obtain ⟨-, rfl⟩ : m + 1 = n ∧ c = a' := by simpa [rest] using h
          have size : b.symbols.size = a.symbols.size := moves.refines.size
          have enough' : 2 * (b.symbols.size + p.exprs.length) < fuel + b.weight p.exprs := by omega
          obtain ⟨refines, result⟩ := ih (moves.refines.retypes.grounded ground) holds' enough' rest
          exact ⟨moves.refines.trans refines, result⟩

/-- Inference ends with tables in which every demand is met. -/
theorem infer_stable (distinct : (p.exprs.map Expr.id).Nodup) (ground : a.Grounded)
    (behind : a.Behind p.exprs) (h : p.infer a = .ok a') :
    a.Refines a' ∧ a'.Behind p.exprs ∧ Stmt.StableAll a' none p.body := by
  unfold infer at h
  cases run : p.traverseUntilStable (p.traversalBound a) a with
  | error e b => simp [run] at h
  | ok n b =>
    obtain rfl : b = a' := by simpa [run] using h
    have enough : 2 * (a.symbols.size + p.exprs.length) <
        p.traversalBound a + a.weight p.exprs := by
      rw [traversalBound, exprs_length]
      omega
    obtain ⟨refines, behind', last⟩ := traverseUntilStable_ok
      (fun a a' _ ground behind run => traverse_behind distinct ground behind run)
      ground behind enough run
    exact ⟨refines, behind', traverse_stable (refines.retypes.grounded ground) last⟩

/-- The types of the literals, which are there from the start, are not ahead of anything. -/
theorem behind_of_literals (distinct : (p.exprs.map Expr.id).Nodup)
    (literals : ∀ k ty, a.types[k]? = some ty → ∃ e ∈ p.exprs, e.id = k ∧ e.literal? = some ty) :
    a.Behind p.exprs := by
  intro e mem
  cases found : a.types[e.id]? with
  | none =>
    rw [Analysis.typeOf, found]
    exact .undefined e
  | some ty =>
    rw [Analysis.typeOf, found]
    obtain ⟨e', mem', same, lit⟩ := literals e.id ty found
    obtain rfl := List.inj_on_of_nodup_map distinct mem mem' same.symm
    cases e with
    | int | float | bool =>
      obtain rfl := Option.some.inj lit
      exact le_rfl
    | var | index | call | paren | unary | binary => cases lit

end Program

end Guarded
