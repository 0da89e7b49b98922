import Guarded.Proofs.Representation

/-!
The machine follows the evaluation of expressions. An expression leaves its value on the stack, in
the type that is needed, and everything below it stays as it was.

What a call does is a parameter here, as it is of the evaluator.
-/

namespace Guarded

/-- The machine has come to a position with a stack and holds a state that is later than `s`. -/
def Arrives {a : Analysis} {σ : Type} (places : Places) (here : Option SymbolId) (q : Spot)
    (s : State a σ) (pos : Nat) (stack : List Value) (s' : State a σ) (m : Machine) : Prop :=
  ∃ mem, m = q.machine pos stack mem ∧ Shows a places here s' mem ∧ Extends s.heap s'.heap

/-- The machine has come to a position with a stack, and its memory fits the state. What fits is left
open: the operators of expressions need nothing of it. -/
def Stands {a : Analysis} {σ : Type} (fits : State a σ → Memory → Prop) (q : Spot) (pos : Nat)
    (stack : List Value) (s : State a σ) (m : Machine) : Prop :=
  ∃ mem, m = q.machine pos stack mem ∧ fits s mem

/-- The memory shows a state that is later than `s`. -/
def ShowsAfter {a : Analysis} {σ : Type} (places : Places) (here : Option SymbolId) (s : State a σ)
    (s' : State a σ) (mem : Memory) : Prop :=
  Shows a places here s' mem ∧ Extends s.heap s'.heap

namespace Follows
variable {a : Analysis} {σ α β : Type} {host : Machine.Host σ} {n : Nat} {m : Machine}
variable {s s₁ : State a σ} {x : Eval a σ α} {f : α → Eval a σ β} {places : Places}
variable {here : Option SymbolId} {q : Spot} {pos pos' : Nat} {stack : List Value}
variable {fits : State a σ → Memory → Prop}

/-- One evaluation after another. -/
theorem seq {left : α → List Value} {right : β → List Value}
    (first : Follows host n m s x fun v => Arrives places here q s pos (left v))
    (second : ∀ v s' mem, Shows a places here s' mem → Extends s.heap s'.heap →
      Follows host n (q.machine pos (left v) mem) s' (f v)
        fun w => Arrives places here q s' pos' (right w)) :
    Follows host n m s (x >>= f) fun w => Arrives places here q s pos' (right w) := by
  refine first.bind ?_
  rintro v s' - ⟨mem, rfl, shows, later⟩
  refine (second v s' mem shows later).imp ?_
  rintro w s'' m'' ⟨mem', rfl, shows', later'⟩
  exact ⟨mem', rfl, shows', later.trans later'⟩

/-- One evaluation after another, where the same fits throughout. -/
theorem next {left : α → List Value} {right : β → List Value}
    (first : Follows host n m s x fun v => Stands fits q pos (left v))
    (second : ∀ v s' mem, fits s' mem → Follows host n (q.machine pos (left v) mem) s' (f v)
      fun w => Stands fits q pos' (right w)) :
    Follows host n m s (x >>= f) fun w => Stands fits q pos' (right w) := by
  refine first.bind ?_
  rintro v s' - ⟨mem, rfl, fit⟩
  exact second v s' mem fit

theorem arrived {mem : Memory} (fit : fits s mem) {v : α} {left : α → List Value}
    (top : left v = stack) :
    Follows host n (q.machine pos stack mem) s (Pure.pure v) fun w => Stands fits q pos (left w) :=
  .pure ⟨mem, by rw [top], fit⟩

/-- A value is converted by the code for it. -/
theorem need_cast {t needed : Ty} {x : Eval a σ t.Den} (compatible : t.Compatible needed)
    (terminal : t.isTerminal = true) (terminal' : needed.isTerminal = true)
    (code : Op.CodeAt a places q.routine.code pos (Analysis.cast t needed))
    (h : Follows host n m s x fun v => Stands fits q pos (t.encode v :: stack)) :
    Follows host n m s (Eval.need needed x) fun v =>
      Stands fits q (pos + Op.sizeAll (Analysis.cast t needed)) (needed.encode v :: stack) := by
  refine h.bind ?_
  rintro v s' - ⟨mem, rfl, fit⟩
  have converts : Machine.Reaches host (q.machine pos (t.encode v :: stack) mem, s'.host)
      (q.machine (pos + Op.sizeAll (Analysis.cast t needed))
        (needed.encode (t.convert needed v) :: stack) mem, s'.host) := by
    cases t <;> cases needed <;> simp [Ty.Compatible, Ty.isNumeric, Ty.isTerminal] at *
    case int.float | float.int =>
      obtain ⟨i, found, rfl⟩ := code.1 rfl
      exact Spot.reaches_instr found rfl rfl rfl
    all_goals exact .refl _
  exact .after converts (.arrived fit rfl)

/-- Nothing is done to a value that has the needed type already. -/
theorem need_same {t needed : Ty} {x : Eval a σ t.Den} (same : t = needed)
    (h : Follows host n m s x fun v => Stands fits q pos (t.encode v :: stack)) :
    Follows host n m s (Eval.need needed x) fun v =>
      Stands fits q pos (needed.encode v :: stack) := by
  refine h.bind ?_
  rintro v s' m' stands
  exact .pure (by rwa [Ty.encode_convert same])

theorem readVar {x : SymbolId} {post : (a.symbolType x).Den → State a σ → Machine → Prop}
    (holds : post ((s.store x).vars x) s m) : Follows host n m s (Eval.readVar x) post :=
  ⟨m, .refl _, holds⟩

theorem bind_readArray {x : SymbolId} {f : Option Nat → Eval a σ β}
    {post : β → State a σ → Machine → Prop}
    (h : Follows host n m s (f ((s.store x).arrays x)) post) :
    Follows host n m s (Eval.readArray x >>= f) post :=
  h

end Follows

/-- Converting twice is converting once if the first conversion does nothing. -/
theorem Ty.convert_convert {s t needed : Ty} (same : s = t) (v : s.Den) :
    t.convert needed (s.convert t v) = s.convert needed v := by
  subst same
  rw [Ty.convert_self]

theorem Eval.need_self {a : Analysis} {σ : Type} {s : Ty} (x : Eval a σ s.Den) :
    Eval.need s x = x := by
  unfold Eval.need
  simp only [Ty.convert_self]
  exact bind_pure x

theorem Eval.need_need {a : Analysis} {σ : Type} {s t needed : Ty} (same : s = t)
    (x : Eval a σ s.Den) : Eval.need needed (Eval.need t x) = Eval.need needed x := by
  subst same
  rw [Eval.need_self]

section Steps
variable {σ : Type} {host : Machine.Host σ} {q : Spot} {pos : Nat} {stack : List Value}
variable {mem : Memory} {h : σ} {ty : Ty}

theorem reaches_negate (numeric : ty.isNumeric = true) (terminal : ty.isTerminal = true)
    {v : ty.Den} (found : q.routine.code[pos]? = some (if ty = .float then .fneg else .ineg)) :
    Machine.Reaches host (q.machine pos (ty.encode v :: stack) mem, h)
      (q.machine (pos + 1) (ty.encode (ty.negate v) :: stack) mem, h) := by
  cases ty <;> simp [Ty.isNumeric, Ty.isTerminal] at numeric terminal
  · exact Spot.reaches_instr found rfl rfl rfl
  · exact Spot.reaches_instr found rfl rfl rfl

theorem reaches_arithmetic (numeric : ty.isNumeric = true) (terminal : ty.isTerminal = true)
    {op : BinOp} {v w : ty.Den}
    (found : q.routine.code[pos]? = some (Analysis.arithmetic op (ty = .float))) :
    Machine.Reaches host (q.machine pos (ty.encode w :: ty.encode v :: stack) mem, h)
      (q.machine (pos + 1) (ty.encode (op.onNumbers ty v w) :: stack) mem, h) := by
  cases ty <;> simp [Ty.isNumeric, Ty.isTerminal] at numeric terminal
  all_goals cases op <;> exact Spot.reaches_instr found rfl rfl rfl

/-- The order of two floats as an integer says what the comparison says of them. -/
theorem Analysis.floatCompare_holds (op : BinOp) (v w : Float32) :
    (Analysis.condition op).holds
      (compare
        (Exec.orderOf (if floatCompare (condition op) = .fcmpg then 1 else -1) v w).toInt 0) =
      op.holds (Ty.order .float v w) := by
  unfold Exec.orderOf Ty.order
  by_cases less : v < w
  · simp only [if_pos less]
    cases op <;> rfl
  by_cases greater : w < v
  · simp only [if_neg less, if_pos greater]
    cases op <;> rfl
  by_cases equal : (v == w) = true
  · simp only [if_neg less, if_neg greater, if_pos equal]
    cases op <;> rfl
  · simp only [if_neg less, if_neg greater, if_neg equal]
    cases op <;> rfl

theorem Analysis.condition_holds (op : BinOp) (o : Ordering) :
    (Analysis.condition op).holds o = op.holds (some o) := by
  cases op <;> cases o <;> rfl

theorem reaches_compareFloats {cond : Cond} {v w : Float32}
    (found : q.routine.code[pos]? = some (Analysis.floatCompare cond)) :
    Machine.Reaches host (q.machine pos (.float w :: .float v :: stack) mem, h)
      (q.machine (pos + 1) (.int (Exec.orderOf
        (if Analysis.floatCompare cond = .fcmpg then 1 else -1) v w) :: stack) mem, h) := by
  cases cond <;> exact Spot.reaches_instr found rfl rfl rfl

end Steps

theorem BinOp.Types.comparison {op : BinOp} {left right result : Ty}
    (h : op.Types left right result) (known : op.isRelational = true ∨ op.isEquality = true) :
    result = .boolean := by
  cases op <;> simp [BinOp.isRelational, BinOp.isEquality] at known
  case lt | gt | le | ge => exact h.2.2
  case eq | ne => exact h.2

/-- A test stands in a routine. It jumps if the answer is no, and leaves one or zero. -/
structure Routine.TestsAt (r : Routine) (jump : Nat → Instr) (pos : Nat) : Prop where
  jump : r.code[pos]? = some (jump (pos + 3))
  one : r.code[pos + 1]? = some (.iconst 1)
  past : r.code[pos + 2]? = some (.goto (pos + 4))
  zero : r.code[pos + 3]? = some (.iconst 0)

theorem Op.CodeAt.tests {a : Analysis} {places : Places} {r : Routine} {pos : Nat} {j : Jump}
    (code : Op.CodeAt a places r.code pos (Analysis.truth j)) : r.TestsAt j.instr pos := by
  obtain ⟨jump, one, past, zero, -⟩ := code
  obtain ⟨i, jump, rfl⟩ := jump rfl
  obtain ⟨i, one, rfl⟩ := one rfl
  obtain ⟨i, past, rfl⟩ := past rfl
  obtain ⟨i, zero, rfl⟩ := zero rfl
  exact ⟨jump, one, past, zero⟩

section Truth
variable {σ : Type} {host : Machine.Host σ} {q : Spot} {pos : Nat} {stack : List Value}
variable {mem : Memory} {h : σ}

/-- The second half of a test: one or zero, as the jump was not or was taken. -/
theorem reaches_truth {jump : Nat → Instr} (test : q.routine.TestsAt jump pos) (b : Bool) :
    Machine.Reaches host (q.machine (if b then pos + 1 else pos + 3) stack mem, h)
      (q.machine (pos + 4) (.ofBool b :: stack) mem, h) := by
  cases b with
  | true =>
    exact (Spot.reaches_instr test.one rfl rfl rfl).trans
      (Spot.reaches_instr test.past rfl rfl rfl)
  | false => exact Spot.reaches_instr test.zero rfl rfl rfl

theorem reaches_truth_zero {cond : Cond} {v : Int32}
    (test : q.routine.TestsAt (.branch cond) pos) :
    Machine.Reaches host (q.machine pos (.int v :: stack) mem, h)
      (q.machine (pos + 4) (.ofBool (!cond.holds (compare v.toInt 0)) :: stack) mem, h) := by
  have jumps := q.instr_branch (pos + 1) stack mem cond (pos + 3) v
  refine .trans (Spot.reaches_instr test.jump rfl jumps rfl) ?_
  cases cond.holds (compare v.toInt 0) <;> exact reaches_truth test _

theorem reaches_truth_compare {cond : Cond} {v w : Int32}
    (test : q.routine.TestsAt (.branchCompare cond) pos) :
    Machine.Reaches host (q.machine pos (.int w :: .int v :: stack) mem, h)
      (q.machine (pos + 4) (.ofBool (!cond.holds (compare v.toInt w.toInt)) :: stack) mem, h) := by
  have jumps := q.instr_branchCompare (pos + 1) stack mem cond (pos + 3) v w
  refine .trans (Spot.reaches_instr test.jump rfl jumps rfl) ?_
  cases cond.holds (compare v.toInt w.toInt) <;> exact reaches_truth test _

end Truth

theorem Ty.eq_int {t : Ty} (numeric : t.isNumeric = true) (terminal : t.isTerminal = true)
    (noFloat : t ≠ .float) : t = .int := by
  cases t <;> simp_all [Ty.isNumeric, Ty.isTerminal]

/-- Integers and booleans are both compared as integers. -/
theorem reaches_compareOthers {σ : Type} {q : Spot} {pos : Nat} {stack : List Value} {mem : Memory}
    {h : σ} {t : Ty} {cond : Cond} (operand : t = .int ∨ t = .boolean) {v w : t.Den}
    (test : q.routine.TestsAt (.branchCompare cond) pos) :
    ∃ o, t.order v w = some o ∧ ∀ host : Machine.Host σ,
      Machine.Reaches host (q.machine pos (t.encode w :: t.encode v :: stack) mem, h)
        (q.machine (pos + 4) (.ofBool (!cond.holds o) :: stack) mem, h) := by
  rcases operand with rfl | rfl
  · exact ⟨_, rfl, fun _ => reaches_truth_compare test⟩
  · have same (b c : Bool) : compare b.toNat c.toNat =
        compare (if b then (1 : Int32) else 0).toInt (if c then (1 : Int32) else 0).toInt := by
      cases b <;> cases c <;> rfl
    exact ⟨_, congrArg some (same v w), fun _ => reaches_truth_compare test⟩

/-- A boolean is the same to a context that needs an integer. -/
theorem Analysis.lowerExpr_int_of_boolean {a : Analysis} :
    (e : Expr) → e.Typed a → a.typeOf e.id = .boolean → a.lowerExpr .int e = a.lowerExpr .boolean e
  | .int .., typed, isBoolean | .float .., typed, isBoolean => by
    cases typed.symm.trans isBoolean
  | .bool .., _, _ => by simp only [lowerExpr]
  | .paren _ inner, typed, isBoolean => by
    simp only [lowerExpr]
    exact lowerExpr_int_of_boolean inner typed.1 (typed.2.symm.trans isBoolean)
  | .var n _, _, isBoolean | .index n _ _, _, isBoolean | .call n _ _, _, isBoolean
  | .unary n .neg _, _, isBoolean | .unary n .not _, _, isBoolean
  | .binary n _ _ _, _, isBoolean => by
    have isBoolean : a.typeOf n.id = .boolean := isBoolean
    simp only [lowerExpr, isBoolean, cast]

theorem Analysis.lowerExpr_int_eq {a : Analysis} {e : Expr} (typed : e.Typed a)
    (plain : a.typeOf e.id = .int ∨ a.typeOf e.id = .boolean) :
    a.lowerExpr .int e = a.lowerExpr (a.typeOf e.id) e := by
  rcases plain with isInt | isBoolean
  · rw [isInt]
  · rw [isBoolean, lowerExpr_int_of_boolean e typed isBoolean]

/-- The locals of a call before anything but its parameters has been set. -/
def Store.Fresh {a : Analysis} (locals : Store a) (params : List SymbolId) : Prop :=
  (∀ x, x ∉ params → locals.vars x = (a.symbolType x).zero) ∧ ∀ x, locals.arrays x = none

/-- The machine follows every call that may still be made, with room for `depth` activations. -/
def CallsFollow {σ : Type} (host : Machine.Host σ) (n : Nat) (a : Analysis) (places : Places)
    (u : ObjectUnit) (depth : Nat)
    (call : (id : SymbolId) → Store a → Eval a σ (Flow (a.symbolType id))) : Prop :=
  ∀ (here : Option SymbolId) (q : Spot) (pos : Nat) (name : String) (id : SymbolId)
    (locals : Store a) (s : State a σ) (mem : Memory) (stack : List Value),
    q.unit = u → q.frames.length + 1 + depth = Exec.maxDepth →
    q.routine.code[pos]? = some (.invoke name) → places[id]? = some (.routine name) →
    Shows a places here s mem → locals.Fresh (a.params id) →
    Follows host n (q.machine pos (((a.params id).map locals.datum).reverse ++ stack) mem) s
      (call id locals) fun flow s' m =>
        if (a.symbolKind id).isFunction then
          ∃ v, flow = .returned (some v) ∧
            Arrives places here q s (pos + 1) ((a.symbolType id).encode v :: stack) s' m
        else Arrives places here q s (pos + 1) stack s' m

/-- Where code of the method `here` runs. -/
structure Setting (p : Program) (a : Analysis) (places : Places) (u : ObjectUnit)
    (here : Option SymbolId) (q : Spot) (depth : Nat) : Prop where
  compiled : p.Compiled a places u
  ready : a.Ready
  linked : p.Linked a
  slots : ∃ syms, Places.Slots a places here syms
  unit : q.unit = u
  depth : q.frames.length + 1 + depth = Exec.maxDepth

theorem Analysis.symbolOf_eq {a : Analysis} {name : Ident} {id : SymbolId}
    (found : a.bindings[name.id]? = some id) : a.symbolOf name = id := by
  simp [Analysis.symbolOf, found]

theorem Ty.compatible_of_eq {s t : Ty} (same : s = t) (terminal : t.isTerminal = true) :
    s.Compatible t := by
  subst same
  cases s <;> simp_all [Ty.Compatible, Ty.isNumeric, Ty.isTerminal]

theorem Store.datum_variable {a : Analysis} (s : Store a) {x : SymbolId}
    (kind : a.symbolKind x = .variable) : s.datum x = (a.symbolType x).encode (s.vars x) := by
  simp [Store.datum, kind]

theorem Store.datum_array {a : Analysis} (s : Store a) {x : SymbolId}
    (kind : a.symbolKind x = .array) : s.datum x = encodeHandle (s.arrays x) := by
  simp [Store.datum, kind]

/-- What is known of a variable or array that is used. -/
theorem Setting.uses {p : Program} {a : Analysis} {places : Places} {u : ObjectUnit}
    {here : Option SymbolId} {q : Spot} {depth : Nat} (setting : Setting p a places u here q depth)
    {name : Ident} {kind : SymbolKind} (plain : kind.params? = none)
    (use : a.Uses here name (· = kind)) :
    a.bindings[name.id]? = some (a.symbolOf name) ∧ a.symbolKind (a.symbolOf name) = kind ∧
      a.Storable (a.symbolOf name) ∧
      (a.ownerOf (a.symbolOf name) = none ∨ a.ownerOf (a.symbolOf name) = here) := by
  obtain ⟨id, found, storable, owner⟩ := setting.ready.uses plain use
  obtain ⟨id', s, named, rfl, -⟩ := use
  obtain rfl := Option.some.inj (found.symm.trans named.1)
  rw [Analysis.symbolOf_eq found]
  exact ⟨found, by simp [Analysis.symbolKind, named.2], storable, owner⟩

section
variable {σ : Type} (host : Machine.Host σ) (n : Nat) {a : Analysis} (places : Places)
variable (here : Option SymbolId) (q : Spot)
variable (call : (id : SymbolId) → Store a → Eval a σ (Flow (a.symbolType id)))

/-- The code of an expression leaves its value, whatever fits before fitting afterwards. -/
def Expr.Tracked (fits : State a σ → Memory → Prop) (e : Expr) : Prop :=
  ∀ (needed : Ty) (pos : Nat) (s : State a σ) (mem : Memory) (stack : List Value),
    (a.typeOf e.id).Compatible needed → needed.isTerminal = true →
    Op.CodeAt a places q.routine.code pos (a.lowerExpr needed e) → fits s mem →
    Follows host n (q.machine pos stack mem) s (Eval.need needed (e.eval call)) fun v =>
      Stands fits q (pos + Op.sizeAll (a.lowerExpr needed e)) (needed.encode v :: stack)

/-- The machine follows an expression of the method `here`: its code leaves its value. -/
def Expr.Followed (e : Expr) : Prop :=
  ∀ (needed : Ty) (pos : Nat) (s : State a σ) (mem : Memory) (stack : List Value),
    (a.typeOf e.id).Compatible needed → needed.isTerminal = true →
    Op.CodeAt a places q.routine.code pos (a.lowerExpr needed e) → Shows a places here s mem →
    Follows host n (q.machine pos stack mem) s (Eval.need needed (e.eval call)) fun v =>
      Arrives places here q s (pos + Op.sizeAll (a.lowerExpr needed e)) (needed.encode v :: stack)

/-- The machine follows the arguments of a call: their values are left in order. -/
def Expr.ArgsFollowed (args : List Expr) : Prop :=
  ∀ (params : List SymbolId) (locals : Store a) (pos : Nat) (s : State a σ) (mem : Memory)
    (stack : List Value),
    List.Forall₂ (fun arg param => (a.typeOf arg.id).Compatible (a.symbolType param) ∧
      (a.symbolType param).isTerminal = true) args params →
    params.Nodup → (∀ x ∈ params, a.symbolKind x = .variable) →
    Op.CodeAt a places q.routine.code pos (a.lowerArgs args (params.map a.symbolType)) →
    Shows a places here s mem →
    Follows host n (q.machine pos stack mem) s (Expr.evalArgs call args params locals)
      fun locals' s' m =>
        Arrives places here q s (pos + Op.sizeAll (a.lowerArgs args (params.map a.symbolType)))
          ((params.map locals'.datum).reverse ++ stack) s' m ∧
        (∀ x, x ∉ params → locals'.vars x = locals.vars x) ∧ locals'.arrays = locals.arrays

end

/-- The machine follows a call with its arguments. -/
theorem Expr.invoke_follows {σ : Type} {host : Machine.Host σ} {n : Nat} {p : Program}
    {a : Analysis} {places : Places} {u : ObjectUnit} {here : Option SymbolId} {q : Spot}
    {depth : Nat} {call : (id : SymbolId) → Store a → Eval a σ (Flow (a.symbolType id))}
    (setting : Setting p a places u here q depth)
    (calls : CallsFollow host n a places u depth call) {callee : Ident} {args : List Expr}
    {id : SymbolId} {sym : Symbol} (named : a.Names callee id sym) (isMethod : sym.isMethod = true)
    (passes : a.Passes callee args) (h : ArgsFollowed host n places here q call args) (pos : Nat)
    (s : State a σ) (mem : Memory) (stack : List Value)
    (code : Op.CodeAt a places q.routine.code pos
      (a.lowerArgs args (a.paramTypes id) ++ [.invoke id]))
    (shows : Shows a places here s mem) :
    Follows host n (q.machine pos stack mem) s
      (do let locals ← Expr.evalArgs call args (a.params id) .zero; call id locals)
      fun flow s' m =>
        let done := pos + Op.sizeAll (a.lowerArgs args (a.paramTypes id) ++ [.invoke id])
        if (a.symbolKind id).isFunction then
          ∃ v, flow = .returned (some v) ∧
            Arrives places here q s done ((a.symbolType id).encode v :: stack) s' m
        else Arrives places here q s done stack s' m := by
  obtain ⟨id', found, passes⟩ := passes
  obtain rfl := Option.some.inj (named.1.symm.trans found)
  obtain ⟨loads, invokes⟩ := Op.codeAt_append.mp code
  have opens := setting.ready.opens id sym named.2 isMethod
  have plain : ∀ x ∈ a.params id, a.symbolKind x = .variable := by
    intro x inside
    obtain ⟨sym', known, isVariable, -⟩ := setting.linked.param inside
    simp [Analysis.symbolKind, known, isVariable]
  refine (h (a.params id) .zero pos s mem stack passes opens.distinct plain loads shows).bind ?_
  rintro locals s' - ⟨⟨mem', rfl, shows', later⟩, others, noArrays⟩
  obtain ⟨i, there, name, known, rfl⟩ := invokes.1 rfl
  have called := calls here q _ name id locals s' mem' stack setting.unit setting.depth there known
    shows' ⟨fun x outside => (others x outside).trans rfl, fun x => by rw [noArrays]; rfl⟩
  refine called.imp fun flow s'' m arrives => ?_
  dsimp only
  rw [Op.sizeAll_append, ← Nat.add_assoc]
  split
  · rw [if_pos ‹_›] at arrives
    obtain ⟨v, rfl, mem'', rfl, shows'', later'⟩ := arrives
    exact ⟨v, rfl, mem'', rfl, shows'', later.trans later'⟩
  · rw [if_neg ‹_›] at arrives
    obtain ⟨mem'', rfl, shows'', later'⟩ := arrives
    exact ⟨mem'', rfl, shows'', later.trans later'⟩

namespace Expr.Tracked
variable {σ : Type} {host : Machine.Host σ} {n : Nat} {a : Analysis} {places : Places} {q : Spot}
variable {call : (id : SymbolId) → Store a → Eval a σ (Flow (a.symbolType id))} {k : Node}
variable {fits : State a σ → Memory → Prop}

/-- A literal is one instruction, in the needed type at once. -/
theorem literal {e : Expr} {t : Ty} {w : t.Den} (same : t = a.typeOf e.id)
    (value : e.eval call = pure (t.convert (a.typeOf e.id) w))
    (code : ∀ needed, t.Compatible needed → needed.isTerminal = true →
      ∃ i, a.lowerExpr needed e = [.instr i] ∧ i.isPlain = true ∧ ∀ pos stack mem,
        Exec.instr i (q.machine pos stack mem) =
          .ok ((), q.machine pos (needed.encode (t.convert needed w) :: stack) mem)) :
    Tracked host n places q call fits e := by
  intro needed pos s mem stack compatible terminal there fit
  obtain ⟨i, lowered, plain, run⟩ := code needed (same ▸ compatible) terminal
  rw [lowered] at there ⊢
  obtain ⟨i', found, rfl⟩ := there.1 rfl
  rw [value]
  refine .after (Spot.reaches_instr found plain (run ..) rfl) (.arrived fit ?_)
  rw [Ty.convert_convert same]

theorem int {v : Int32} (typed : a.typeOf k.id = .int) :
    Tracked host n places q call fits (.int k v) := by
  refine literal (t := .int) (w := v) typed.symm (by rw [eval]; rfl) fun needed known terminal => ?_
  cases needed <;> simp [Ty.Compatible, Ty.isNumeric, Ty.isTerminal] at known terminal
  all_goals exact ⟨_, rfl, rfl, fun _ _ _ => rfl⟩

theorem float {v : Float32} (typed : a.typeOf k.id = .float) :
    Tracked host n places q call fits (.float k v) := by
  refine literal (t := .float) (w := v) typed.symm (by rw [eval]; rfl)
    fun needed known terminal => ?_
  cases needed <;> simp [Ty.Compatible, Ty.isNumeric, Ty.isTerminal] at known terminal
  all_goals exact ⟨_, rfl, rfl, fun _ _ _ => rfl⟩

theorem bool {b : Bool} (typed : a.typeOf k.id = .boolean) :
    Tracked host n places q call fits (.bool k b) := by
  refine literal (t := .boolean) (w := b) typed.symm (by rw [eval]; rfl)
    fun needed known terminal => ?_
  cases needed <;> simp [Ty.Compatible, Ty.isNumeric, Ty.isTerminal] at known terminal
  exact ⟨_, rfl, rfl, fun _ _ _ => rfl⟩

theorem paren {inner : Expr} (typed : a.typeOf k.id = a.typeOf inner.id)
    (h : Tracked host n places q call fits inner) :
    Tracked host n places q call fits (.paren k inner) := by
  intro needed pos s mem stack compatible terminal code fit
  have evaluated : Eval.need needed ((Expr.paren k inner).eval call) =
      Eval.need needed (inner.eval call) := by
    rw [eval_paren]
    exact Eval.need_need typed.symm _
  rw [Analysis.lowerExpr] at code ⊢
  rw [evaluated]
  exact h needed pos s mem stack (typed ▸ compatible) terminal code fit

theorem neg {operand : Expr} (typed : operand.Typed a) (same : a.typeOf k.id = a.typeOf operand.id)
    (numeric : (a.typeOf operand.id).isNumeric = true)
    (h : Tracked host n places q call fits operand) :
    Tracked host n places q call fits (.unary k .neg operand) := by
  intro needed pos s mem stack compatible terminal code fit
  have terminal' : (a.typeOf k.id).isTerminal = true := same ▸ typed.terminal
  simp only [Analysis.lowerExpr, Op.codeAt_append, Op.sizeAll_append, Op.sizeAll_cons,
    Op.sizeAll_nil, Op.size, Nat.add_zero, ← Nat.add_assoc] at code ⊢
  obtain ⟨⟨operands, negates⟩, casts⟩ := code
  refine .need_cast compatible terminal' terminal casts ?_
  rw [eval]
  refine .next (h _ pos s mem stack (Ty.compatible_of_eq same.symm terminal') terminal' operands
    fit) fun v s' mem' fit' => ?_
  obtain ⟨i, found, rfl⟩ := negates.1 rfl
  exact .after (reaches_negate (same ▸ numeric) terminal' found) (.arrived fit' rfl)

theorem not {operand : Expr} (boolean : a.typeOf operand.id = .boolean)
    (same : a.typeOf k.id = .boolean) (h : Tracked host n places q call fits operand) :
    Tracked host n places q call fits (.unary k .not operand) := by
  intro needed pos s mem stack compatible terminal code fit
  simp only [Analysis.lowerExpr, Op.codeAt_append, Op.sizeAll_append, ← Nat.add_assoc] at code ⊢
  obtain ⟨⟨operands, tests⟩, casts⟩ := code
  refine .need_cast compatible (Analysis.terminal_of_eq same rfl) terminal casts ?_
  rw [eval]
  refine .next (h .boolean pos s mem stack (Ty.compatible_of_eq boolean rfl) rfl operands fit) ?_
  intro b s' mem' fit'
  refine .after (reaches_truth_zero tests.tests) (.arrived fit' ?_)
  refine congrArg (· :: stack) ((Ty.encode_convert same.symm _).trans ?_)
  cases b <;> rfl

section Binary
variable {op : BinOp} {lhs rhs : Expr}

/-- Two operands are evaluated in order, and an operation is done on their values. -/
theorem operands (t : Ty) (last : List Op)
    (f : t.Den → t.Den → Eval a σ (a.typeOf (Expr.binary k op lhs rhs).id).Den)
    (left : Tracked host n places q call fits lhs)
    (right : Tracked host n places q call fits rhs)
    (compatible : (a.typeOf lhs.id).Compatible t) (compatible' : (a.typeOf rhs.id).Compatible t)
    (terminal : t.isTerminal = true)
    (terminal' : (a.typeOf (Expr.binary k op lhs rhs).id).isTerminal = true)
    (value : (Expr.binary k op lhs rhs).eval call = do
      let x ← Eval.need t (lhs.eval call)
      let y ← Eval.need t (rhs.eval call)
      f x y)
    (lowered : ∀ needed, a.lowerExpr needed (.binary k op lhs rhs) =
      a.lowerExpr t lhs ++ a.lowerExpr t rhs ++ last ++ Analysis.cast (a.typeOf k.id) needed)
    (operates : ∀ (x y : t.Den) (pos : Nat) (s : State a σ) (mem : Memory) (stack : List Value),
      Op.CodeAt a places q.routine.code pos last → fits s mem →
      Follows host n (q.machine pos (t.encode y :: t.encode x :: stack) mem) s (f x y) fun v =>
        Stands fits q (pos + Op.sizeAll last)
          ((a.typeOf (Expr.binary k op lhs rhs).id).encode v :: stack)) :
    Tracked host n places q call fits (.binary k op lhs rhs) := by
  intro needed pos s mem stack compatible'' terminal'' code fit
  rw [lowered] at code ⊢
  simp only [Op.codeAt_append, Op.sizeAll_append, ← Nat.add_assoc] at code ⊢
  obtain ⟨⟨⟨first, second⟩, third⟩, casts⟩ := code
  refine .need_cast compatible'' terminal' terminal'' casts ?_
  rw [value]
  refine .next (left t pos s mem stack compatible terminal first fit) fun x s' mem' fit' => ?_
  refine .next (right t _ s' mem' _ compatible' terminal second fit') fun y s'' mem'' fit'' => ?_
  exact operates x y _ s'' mem'' stack third fit''

theorem arithmetic (known : op = .add ∨ op = .sub ∨ op = .mul)
    (left : Tracked host n places q call fits lhs) (right : Tracked host n places q call fits rhs)
    (types : op.Types (a.typeOf lhs.id) (a.typeOf rhs.id) (a.typeOf k.id)) :
    Tracked host n places q call fits (.binary k op lhs rhs) := by
  have numeric : (a.typeOf lhs.id).isNumeric = true ∧ (a.typeOf rhs.id).isNumeric = true ∧
      (a.typeOf k.id).isNumeric = true := by
    rcases known with rfl | rfl | rfl
    all_goals
      obtain ⟨left, right, result⟩ := types
      refine ⟨left, right, ?_⟩
      rw [result]
      split <;> rfl
  refine operands (a.typeOf k.id) [.instr (Analysis.arithmetic op (a.typeOf k.id = .float))]
    (fun x y => return op.onNumbers _ x y) left right (Or.inr ⟨numeric.1, numeric.2.2⟩)
    (Or.inr numeric.2) types.terminal types.terminal ?_ ?_ ?_
  · rcases known with rfl | rfl | rfl <;> rw [eval] <;> rfl
  · rcases known with rfl | rfl | rfl <;> exact fun _ => rfl
  · intro x y pos s mem stack code fit
    obtain ⟨i, found, rfl⟩ := code.1 rfl
    exact .after (reaches_arithmetic numeric.2.2 types.terminal found) (.arrived fit rfl)

theorem slash (left : Tracked host n places q call fits lhs)
    (right : Tracked host n places q call fits rhs)
    (types : BinOp.slash.Types (a.typeOf lhs.id) (a.typeOf rhs.id) (a.typeOf k.id)) :
    Tracked host n places q call fits (.binary k .slash lhs rhs) := by
  refine operands .float [.instr .fdiv] (fun x y => return Ty.convert .float _ (Float32.div x y))
    left right (Or.inr ⟨types.1, rfl⟩) (Or.inr ⟨types.2.1, rfl⟩) rfl types.terminal
    (by rw [eval]; rfl) (fun _ => rfl) ?_
  intro x y pos s mem stack code fit
  obtain ⟨i, found, rfl⟩ := code.1 rfl
  refine .after (Spot.reaches_instr found rfl rfl rfl) (.arrived fit ?_)
  exact congrArg (· :: stack) (Ty.encode_convert types.2.2.symm _)

/-- Division and remainder, with the zero divisor left to the operation. -/
theorem divide (f : Int32 → Int32 → Int32) {i : Instr} (plain : i.isPlain = true)
    (run : Exec.instr i = Exec.divide f) (left : Tracked host n places q call fits lhs)
    (right : Tracked host n places q call fits rhs) (isInt : a.typeOf lhs.id = .int)
    (isInt' : a.typeOf rhs.id = .int) (same : a.typeOf k.id = .int)
    (value : (Expr.binary k op lhs rhs).eval call = do
      let x ← Eval.need .int (lhs.eval call)
      let y ← Eval.need .int (rhs.eval call)
      return Ty.convert .int _ (← Eval.divide f x y))
    (lowered : ∀ needed, a.lowerExpr needed (.binary k op lhs rhs) =
      a.lowerExpr .int lhs ++ a.lowerExpr .int rhs ++ [.instr i] ++
        Analysis.cast (a.typeOf k.id) needed) :
    Tracked host n places q call fits (.binary k op lhs rhs) := by
  refine operands .int [.instr i] (fun x y => do return Ty.convert .int _ (← Eval.divide f x y))
    left right (Ty.compatible_of_eq isInt rfl) (Ty.compatible_of_eq isInt' rfl) rfl
    (Analysis.terminal_of_eq same rfl) value lowered ?_
  intro (x : Int32) (y : Int32) pos s mem stack code fit
  obtain ⟨i, found, rfl⟩ := code.1 rfl
  have runs : Exec.instr i (q.machine (pos + 1) (.int y :: .int x :: stack) mem) =
      if y = (0 : Int32) then .error .divisionByZero
      else .ok ((), q.machine (pos + 1) (.int (f x y) :: stack) mem) := by
    rw [run]
    show (if y = (0 : Int32) then throw _ else Exec.push (.int (f x y)) : Exec Unit)
      (q.machine (pos + 1) stack mem) = _
    split <;> rfl
  by_cases zero : y = (0 : Int32)
  · rw [if_pos zero] at runs
    have evaluated : Eval.divide f x y = (Eval.trap .divisionByZero : Eval a σ Int32) := if_pos zero
    rw [evaluated]
    exact Follows.trap (Spot.ends_instr found plain runs)
  · rw [if_neg zero] at runs
    have evaluated : Eval.divide f x y = (pure (f x y) : Eval a σ Int32) := if_neg zero
    rw [evaluated]
    refine .after (Spot.reaches_instr found plain runs rfl) ?_
    exact Follows.arrived fit (congrArg (· :: stack) (Ty.encode_convert same.symm _))

/-- Conjunction and disjunction evaluate both operands. -/
theorem logical (f : Bool → Bool → Bool) {i : Instr} (plain : i.isPlain = true)
    (run : ∀ x y pos stack mem,
      Exec.instr i (q.machine pos (Value.ofBool y :: Value.ofBool x :: stack) mem) =
        .ok ((), q.machine pos (Value.ofBool (f x y) :: stack) mem))
    (left : Tracked host n places q call fits lhs) (right : Tracked host n places q call fits rhs)
    (isBoolean : a.typeOf lhs.id = .boolean) (isBoolean' : a.typeOf rhs.id = .boolean)
    (same : a.typeOf k.id = .boolean)
    (value : (Expr.binary k op lhs rhs).eval call = do
      let x ← Eval.need .boolean (lhs.eval call)
      let y ← Eval.need .boolean (rhs.eval call)
      return Ty.convert .boolean _ (f x y))
    (lowered : ∀ needed, a.lowerExpr needed (.binary k op lhs rhs) =
      a.lowerExpr .boolean lhs ++ a.lowerExpr .boolean rhs ++ [.instr i] ++
        Analysis.cast (a.typeOf k.id) needed) :
    Tracked host n places q call fits (.binary k op lhs rhs) := by
  refine operands .boolean [.instr i] (fun x y => return Ty.convert .boolean _ (f x y))
    left right (Ty.compatible_of_eq isBoolean rfl) (Ty.compatible_of_eq isBoolean' rfl) rfl
    (Analysis.terminal_of_eq same rfl) value lowered ?_
  intro x y pos s mem stack code fit
  obtain ⟨i, found, rfl⟩ := code.1 rfl
  refine .after (Spot.reaches_instr found plain (run ..) rfl) (.arrived fit ?_)
  exact congrArg (· :: stack) (Ty.encode_convert same.symm _)

theorem eval_comparison (known : op.isRelational = true ∨ op.isEquality = true) {t : Ty}
    (same : a.comparisonType lhs rhs = t) :
    (Expr.binary k op lhs rhs).eval call = do
      let x ← Eval.need t (lhs.eval call)
      let y ← Eval.need t (rhs.eval call)
      return Ty.convert .boolean _ (op.holds (t.order x y)) := by
  subst same
  cases op <;> simp [BinOp.isRelational, BinOp.isEquality] at known
  all_goals
    rw [eval]
    rfl

/-- Floats are compared for their order, which is compared with zero. -/
theorem compareFloats (known : op.isRelational = true ∨ op.isEquality = true)
    (isFloat : a.typeOf lhs.id = .float ∨ a.typeOf rhs.id = .float)
    (left : Tracked host n places q call fits lhs) (right : Tracked host n places q call fits rhs)
    (types : op.Types (a.typeOf lhs.id) (a.typeOf rhs.id) (a.typeOf k.id)) :
    Tracked host n places q call fits (.binary k op lhs rhs) := by
  have isFloat' :
      (decide (a.typeOf lhs.id = .float) || decide (a.typeOf rhs.id = .float)) = true := by
    simpa using isFloat
  have same : a.typeOf k.id = .boolean := types.comparison known
  have numeric : (a.typeOf lhs.id).isNumeric = true ∧ (a.typeOf rhs.id).isNumeric = true := by
    cases op <;> simp [BinOp.isRelational, BinOp.isEquality] at known
    case lt | gt | le | ge => exact ⟨types.1, types.2.1⟩
    case eq | ne =>
      rw [types.1, or_self] at isFloat
      rw [types.1, isFloat]
      exact ⟨rfl, rfl⟩
  refine operands .float ([.instr (Analysis.floatCompare (Analysis.condition op))] ++
      Analysis.truth (.onZero (Analysis.condition op).negate))
    (fun x y => return Ty.convert .boolean _ (op.holds (Ty.order .float x y)))
    left right (Or.inr ⟨numeric.1, rfl⟩) (Or.inr ⟨numeric.2, rfl⟩) rfl
    (Analysis.terminal_of_eq same rfl) ?_ ?_ ?_
  · exact eval_comparison known (if_pos isFloat')
  · intro needed
    cases op <;> simp [BinOp.isRelational, BinOp.isEquality] at known
    all_goals simp only [Analysis.lowerExpr, isFloat', if_true, List.append_assoc]
  · intro x y pos s mem stack code fit
    rw [Op.codeAt_append] at code
    obtain ⟨i, found, rfl⟩ := code.1.1 rfl
    refine .after (reaches_compareFloats found) (.after (reaches_truth_zero code.2.tests) ?_)
    refine .arrived fit (congrArg (· :: stack) ((Ty.encode_convert same.symm _).trans ?_))
    rw [Cond.holds_negate, Bool.not_not]
    exact congrArg Value.ofBool (Analysis.floatCompare_holds op x y).symm

/-- Integers are compared with each other, and so are booleans. -/
theorem compareOthers (known : op.isRelational = true ∨ op.isEquality = true)
    (noFloat : a.typeOf lhs.id ≠ .float) (noFloat' : a.typeOf rhs.id ≠ .float)
    (typed : lhs.Typed a) (typed' : rhs.Typed a)
    (left : Tracked host n places q call fits lhs) (right : Tracked host n places q call fits rhs)
    (types : op.Types (a.typeOf lhs.id) (a.typeOf rhs.id) (a.typeOf k.id)) :
    Tracked host n places q call fits (.binary k op lhs rhs) := by
  have noFloats :
      (decide (a.typeOf lhs.id = .float) || decide (a.typeOf rhs.id = .float)) = false := by
    simp [noFloat, noFloat']
  have same : a.typeOf k.id = .boolean := types.comparison known
  have operand : (a.typeOf lhs.id = .int ∨ a.typeOf lhs.id = .boolean) ∧
      a.typeOf rhs.id = a.typeOf lhs.id := by
    have final := typed.terminal
    have final' := typed'.terminal
    cases op <;> simp [BinOp.isRelational, BinOp.isEquality] at known
    case lt | gt | le | ge =>
      have isInt := Ty.eq_int types.1 final noFloat
      exact ⟨Or.inl isInt, (Ty.eq_int types.2.1 final' noFloat').trans isInt.symm⟩
    case eq | ne =>
      refine ⟨?_, types.1.symm⟩
      cases known : a.typeOf lhs.id <;> simp_all [Ty.isTerminal]
  refine operands (a.typeOf lhs.id)
    (Analysis.truth (.onCompare (Analysis.condition op).negate))
    (fun x y => return Ty.convert .boolean _ (op.holds (Ty.order _ x y)))
    left right (Ty.compatible_of_eq rfl typed.terminal)
    (Ty.compatible_of_eq operand.2 typed.terminal) typed.terminal
    (Analysis.terminal_of_eq same rfl) (eval_comparison known (if_neg (by simp [noFloats]))) ?_ ?_
  · intro needed
    have plain := Analysis.lowerExpr_int_eq typed operand.1
    have plain' := Analysis.lowerExpr_int_eq typed' (operand.2 ▸ operand.1)
    rw [operand.2] at plain'
    cases op <;> simp [BinOp.isRelational, BinOp.isEquality] at known
    all_goals
      simp only [Analysis.lowerExpr, noFloats, Bool.false_eq_true, if_false, plain, plain']
  · intro x y pos s mem stack code fit
    obtain ⟨o, ordered, reaches⟩ := reaches_compareOthers operand.1 code.tests
    refine .after (reaches host) (.arrived fit (congrArg (· :: stack) ?_))
    refine (Ty.encode_convert same.symm _).trans ?_
    rw [Cond.holds_negate, Bool.not_not, Analysis.condition_holds, ← ordered]
    rfl

/-- The machine follows two operands and what is done with them. -/
theorem binary (typed : lhs.Typed a)
    (typed' : rhs.Typed a) (types : op.Types (a.typeOf lhs.id) (a.typeOf rhs.id) (a.typeOf k.id))
    (left : Tracked host n places q call fits lhs)
    (right : Tracked host n places q call fits rhs) :
    Tracked host n places q call fits (.binary k op lhs rhs) := by
  have compares (known : op.isRelational = true ∨ op.isEquality = true) :
      Tracked host n places q call fits (.binary k op lhs rhs) := by
    by_cases isFloat : a.typeOf lhs.id = .float ∨ a.typeOf rhs.id = .float
    · exact .compareFloats known isFloat left right types
    · rw [not_or] at isFloat
      exact .compareOthers known isFloat.1 isFloat.2 typed typed' left right types
  cases op with
  | add => exact .arithmetic (Or.inl rfl) left right types
  | sub => exact .arithmetic (Or.inr (Or.inl rfl)) left right types
  | mul => exact .arithmetic (Or.inr (Or.inr rfl)) left right types
  | slash => exact .slash left right types
  | div =>
    exact .divide Int32.div (i := .idiv) rfl rfl left right types.1 types.2.1 types.2.2
      (by rw [eval]; rfl) fun _ => rfl
  | mod =>
    exact .divide Int32.mod (i := .irem) rfl rfl left right types.1 types.2.1 types.2.2
      (by rw [eval]; rfl) fun _ => rfl
  | and =>
    exact .logical Bool.and (i := .iand) rfl (fun x y _ _ _ => by cases x <;> cases y <;> rfl)
      left right types.1 types.2.1 types.2.2 (by rw [eval]; rfl) fun _ => rfl
  | or =>
    exact .logical Bool.or (i := .ior) rfl (fun x y _ _ _ => by cases x <;> cases y <;> rfl)
      left right types.1 types.2.1 types.2.2 (by rw [eval]; rfl) fun _ => rfl
  | lt | gt | le | ge => exact compares (Or.inl rfl)
  | eq | ne => exact compares (Or.inr rfl)

end Binary

end Expr.Tracked

namespace Expr.Followed
variable {σ : Type} {host : Machine.Host σ} {n : Nat} {p : Program} {a : Analysis}
variable {places : Places} {u : ObjectUnit} {here : Option SymbolId} {q : Spot} {depth : Nat}
variable {call : (id : SymbolId) → Store a → Eval a σ (Flow (a.symbolType id))} {k : Node}

/-- What is followed from every state on is tracked from every state on, and conversely. -/
theorem iff_tracked {e : Expr} : Followed host n places here q call e ↔
    ∀ s, Tracked host n places q call (ShowsAfter places here s) e := by
  constructor
  · intro h s₀ needed pos s mem stack compatible terminal code fit
    refine (h needed pos s mem stack compatible terminal code fit.1).imp ?_
    rintro v s' - ⟨mem', rfl, shows, later⟩
    exact ⟨mem', rfl, shows, fit.2.trans later⟩
  · intro h needed pos s mem stack compatible terminal code shows
    exact h s needed pos s mem stack compatible terminal code ⟨shows, .refl _⟩

theorem var (setting : Setting p a places u here q depth) {name : Ident}
    (bound : a.Uses here name (· = .variable)) (typed : a.TypedAs k name) :
    Followed host n places here q call (.var k name) := by
  intro needed pos s mem stack compatible terminal code shows
  obtain ⟨found, kind, storable, owner⟩ := setting.uses rfl bound
  obtain ⟨id, found', same, terminal'⟩ := typed
  obtain rfl := Option.some.inj (found.symm.trans found')
  simp only [Analysis.lowerExpr, Analysis.withSymbol_of found, Op.codeAt_append,
    Op.sizeAll_append, Op.sizeAll_cons, Op.sizeAll_nil, Op.size, Nat.add_zero,
    ← Nat.add_assoc] at code ⊢
  refine .need_cast compatible (same ▸ terminal') terminal code.2 ?_
  rw [eval]
  refine .need_same same.symm (.after (shows.load setting.compiled storable owner code.1) ?_)
  refine .readVar ⟨mem, ?_, shows, .refl _⟩
  rw [Store.datum_variable _ kind]

theorem index (setting : Setting p a places u here q depth) {array : Ident} {i : Expr}
    (bound : a.Uses here array (· = .array)) (typed : a.TypedAs k array)
    (isInt : a.typeOf i.id = .int) (h : Followed host n places here q call i) :
    Followed host n places here q call (.index k array i) := by
  intro needed pos s mem stack compatible terminal code shows
  obtain ⟨found, kind, storable, owner⟩ := setting.uses rfl bound
  obtain ⟨id, found', same, terminal'⟩ := typed
  obtain rfl := Option.some.inj (found.symm.trans found')
  simp only [Analysis.lowerExpr, Analysis.withSymbol_of found, Op.codeAt_append,
    Op.sizeAll_append, Op.sizeAll_cons, Op.sizeAll_nil, Op.size, Nat.add_zero,
    ← Nat.add_assoc] at code ⊢
  obtain ⟨⟨⟨loads, indexes⟩, reads⟩, casts⟩ := code
  refine .need_cast compatible (same ▸ terminal') terminal casts ?_
  rw [eval]
  refine .after (shows.load setting.compiled storable owner loads) (.bind_readArray ?_)
  rw [Store.datum_array _ kind]
  refine .seq (h .int _ s mem _ (Ty.compatible_of_eq isInt rfl) rfl indexes shows) ?_
  intro j s' mem' shows' later
  refine .need_same same.symm ?_
  obtain ⟨instr, there, rfl⟩ := reads.1 rfl
  have points (h : Nat) (known : (s.store (a.symbolOf array)).arrays (a.symbolOf array) = some h) :=
    later _ _ (shows.sound _ _ h known)
  refine ((shows'.refers points).readElement there ?_).imp ?_
  · split
    · exact Or.inr rfl
    · exact Or.inl rfl
  · rintro v s'' m ⟨rfl, rfl⟩
    exact ⟨mem', rfl, shows', .refl _⟩

theorem invocation (setting : Setting p a places u here q depth)
    (calls : CallsFollow host n a places u depth call) {callee : Ident} {args : List Expr}
    (bound : a.Uses here callee fun kind => ∃ ps, kind = .function ps ∧ ps.length = args.length)
    (typed : a.TypedAs k callee) (passes : a.Passes callee args)
    (h : ArgsFollowed host n places here q call args) :
    Followed host n places here q call (.call k callee args) := by
  intro needed pos s mem stack compatible terminal code shows
  obtain ⟨id, sym, named, ⟨ps, kind, -⟩, -⟩ := bound
  obtain ⟨id', found, same, terminal'⟩ := typed
  obtain rfl := Option.some.inj (named.1.symm.trans found)
  simp only [Analysis.lowerExpr, Analysis.withSymbol_of found] at code ⊢
  rw [Op.codeAt_append] at code
  rw [Op.sizeAll_append, ← Nat.add_assoc]
  refine .need_cast compatible (same ▸ terminal') terminal code.2 ?_
  rw [eval, Analysis.symbolOf_eq found, ← bind_assoc]
  refine (invoke_follows setting calls named (by simp [Symbol.isMethod, kind, SymbolKind.params?])
    passes h pos s mem stack code.1 shows).bind ?_
  rintro flow s' m' holds
  rw [if_pos (by simp [Analysis.symbolKind, named.2, kind, SymbolKind.isFunction])] at holds
  obtain ⟨v, rfl, mem', rfl, shows', later⟩ := holds
  exact .pure ⟨mem', congrArg (fun w => q.machine _ (w :: stack) mem')
    (Ty.encode_convert same.symm v).symm, shows', later⟩

end Expr.Followed

namespace Expr
variable {σ : Type} {host : Machine.Host σ} {n : Nat} {p : Program} {a : Analysis}
variable {places : Places} {u : ObjectUnit} {here : Option SymbolId} {q : Spot} {depth : Nat}
variable {call : (id : SymbolId) → Store a → Eval a σ (Flow (a.symbolType id))}

theorem ArgsFollowed.nil : ArgsFollowed host n places here q call [] := by
  intro params locals pos s mem stack passes _ _ _ shows
  cases passes
  have evaluated : evalArgs call [] [] locals = pure locals := by simp [evalArgs]
  rw [evaluated]
  exact .pure ⟨⟨mem, rfl, shows, .refl _⟩, fun _ _ => rfl, rfl⟩

theorem ArgsFollowed.cons {arg : Expr} {args : List Expr}
    (first : Followed host n places here q call arg)
    (rest : ArgsFollowed host n places here q call args) :
    ArgsFollowed host n places here q call (arg :: args) := by
  intro params locals pos s mem stack passes distinct plain code shows
  cases passes with
  | @cons _ param _ params fits passes =>
    obtain ⟨new, distinct⟩ := List.nodup_cons.mp distinct
    obtain ⟨isVariable, plain⟩ := List.forall_mem_cons.mp plain
    simp only [List.map_cons, Analysis.lowerArgs, Op.codeAt_append, Op.sizeAll_append,
      ← Nat.add_assoc] at code ⊢
    rw [evalArgs]
    refine (first _ pos s mem stack fits.1 fits.2 code.1 shows).bind ?_
    rintro v s' - ⟨mem', rfl, shows', later⟩
    refine (rest params _ _ s' mem' _ passes distinct plain code.2 shows').imp ?_
    rintro locals' s'' m ⟨⟨mem'', rfl, shows'', later'⟩, others, noArrays⟩
    have kept : locals'.datum param = (a.symbolType param).encode v := by
      rw [Store.datum_variable _ isVariable, others param new]
      simp [Store.setVar]
    refine ⟨⟨mem'', ?_, shows'', later.trans later'⟩, fun x outside => ?_, noArrays⟩
    · simp [kept]
    · obtain ⟨different, outside⟩ := List.ne_and_not_mem_of_not_mem_cons outside
      rw [others x outside]
      simp [Store.setVar, different]

mutual

/-- The machine follows every expression of a bound and typed program. -/
theorem followed (setting : Setting p a places u here q depth)
    (calls : CallsFollow host n a places u depth call) :
    (e : Expr) → e.Bound a here → e.Typed a → Followed host n places here q call e
  | .int .., _, typed => Followed.iff_tracked.mpr fun _ => .int typed
  | .float .., _, typed => Followed.iff_tracked.mpr fun _ => .float typed
  | .bool .., _, typed => Followed.iff_tracked.mpr fun _ => .bool typed
  | .paren _ inner, bound, typed => Followed.iff_tracked.mpr fun s =>
    .paren typed.2 (Followed.iff_tracked.mp (followed setting calls inner bound typed.1) s)
  | .var .., bound, typed => .var setting bound typed
  | .index _ _ i, bound, typed =>
    .index setting bound.1 typed.1 typed.2.2 (followed setting calls i bound.2 typed.2.1)
  | .call _ _ args, bound, typed =>
    .invocation setting calls bound.1 typed.1 typed.2.2
      (argsFollowed setting calls args bound.2 typed.2.1)
  | .unary _ .neg operand, bound, typed => Followed.iff_tracked.mpr fun s =>
    .neg typed.1 typed.2.1 typed.2.2
      (Followed.iff_tracked.mp (followed setting calls operand bound typed.1) s)
  | .unary _ .not operand, bound, typed => Followed.iff_tracked.mpr fun s =>
    .not typed.2.1 typed.2.2
      (Followed.iff_tracked.mp (followed setting calls operand bound typed.1) s)
  | .binary _ _ lhs rhs, bound, typed => Followed.iff_tracked.mpr fun s =>
    .binary typed.1 typed.2.1 typed.2.2
      (Followed.iff_tracked.mp (followed setting calls lhs bound.1 typed.1) s)
      (Followed.iff_tracked.mp (followed setting calls rhs bound.2 typed.2.1) s)

theorem argsFollowed (setting : Setting p a places u here q depth)
    (calls : CallsFollow host n a places u depth call) :
    (args : List Expr) → BoundAll a here args → TypedAll a args →
      ArgsFollowed host n places here q call args
  | [], _, _ => .nil
  | arg :: args, bound, typed =>
    .cons (followed setting calls arg bound.1 typed.1)
      (argsFollowed setting calls args bound.2 typed.2)

end

end Expr

end Guarded
