import Guarded.Analysis.Full
import Guarded.Proofs.Regions
import Guarded.Proofs.SyntaxErrors

/-!
Where errors are. The tree of a program is all that binding, inference and the final checks know of
the text, so every error of theirs is about the region of a node of the tree, or about that of a
symbol, which is the region of the name that declares it.

The main statement puts together what is known of regions. The nodes of a program that is read are
over the tokens they were read from, nested in each other and in the text; and the line of every
node, and of every error, is one more than the number of line ends before its start.
-/

namespace Guarded
open Region (Every)

variable {good : Span → Prop}

/-- If an error has a region, it is a good one. -/
def Error.Blames (good : Span → Prop) (e : Error) : Prop :=
  ∀ s, e.span? = some s → good s

theorem Error.Blames.of_span {e : Error} {s : Span} (own : good s) (same : e.span? = some s) :
    e.Blames good := by
  intro s' same'
  obtain rfl : s = s' := Option.some.inj (same.symm.trans same')
  exact own

namespace Expr

mutual

/-- All nodes and names of an expression are in good places. -/
def Placed (good : Span → Prop) : Expr → Prop
  | .int n _ | .float n _ | .bool n _ => good n.span
  | .var n name => good n.span ∧ good name.span
  | .index n array i => good n.span ∧ good array.span ∧ i.Placed good
  | .call n callee args => good n.span ∧ good callee.span ∧ PlacedAll good args
  | .paren n inner => good n.span ∧ inner.Placed good
  | .unary n _ operand => good n.span ∧ operand.Placed good
  | .binary n _ lhs rhs => good n.span ∧ lhs.Placed good ∧ rhs.Placed good

def PlacedAll (good : Span → Prop) : List Expr → Prop
  | [] => True
  | e :: es => e.Placed good ∧ PlacedAll good es

end

theorem Placed.span {e : Expr} (h : e.Placed good) : good e.span := by
  cases e with
  | int | float | bool => exact h
  | var | index | call | paren | unary | binary => exact h.1

mutual

theorem every_region : (e : Expr) → Every good [e.region] → e.Placed good
  | .int n v, h | .float n v, h | .bool n b, h => by
    simpa [region, Placed] using h
  | .var n name, h => by
    simpa [region, Ident.region, Placed] using h
  | .index n array i, h => by
    obtain ⟨own, named, inner⟩ : good n.span ∧ good array.span ∧ Every good [i.region] := by
      simpa [region, Ident.region, Region.every_cons_cons] using h
    exact ⟨own, named, every_region i inner⟩
  | .call n callee args, h => by
    obtain ⟨own, named, inner⟩ : good n.span ∧ good callee.span ∧
        ∀ rs ∈ regions args, Every good rs := by
      simpa [region, Ident.region] using h
    exact ⟨own, named, every_regions args inner⟩
  | .paren n inner, h => by
    obtain ⟨own, within⟩ : good n.span ∧ Every good [inner.region] := by
      simpa [region, Region.every_cons_cons] using h
    exact ⟨own, every_region inner within⟩
  | .unary n op operand, h => by
    obtain ⟨own, within⟩ : good n.span ∧ Every good [operand.region] := by
      simpa [region] using h
    exact ⟨own, every_region operand within⟩
  | .binary n op lhs rhs, h => by
    obtain ⟨own, left, right⟩ : good n.span ∧ Every good [lhs.region] ∧ Every good [rhs.region] := by
      simpa [region, Region.every_cons_cons] using h
    exact ⟨own, every_region lhs left, every_region rhs right⟩

theorem every_regions : (es : List Expr) → (∀ rs ∈ regions es, Every good rs) → PlacedAll good es
  | [], _ => trivial
  | e :: es, h => by
    obtain ⟨first, rest⟩ := List.forall_mem_cons.mp h
    exact ⟨every_region e first, every_regions es rest⟩

end

end Expr

def Target.Placed (good : Span → Prop) : Target → Prop
  | .var name => good name.span
  | .index array i => good array.span ∧ i.Placed good

theorem Target.every_regions (t : Target) (h : Every good t.regions) : t.Placed good := by
  cases t with
  | var name => simpa [regions, Ident.region, Placed] using h
  | index array i =>
    obtain ⟨named, inner⟩ : good array.span ∧ Every good [i.region] := by
      simpa [regions, Ident.region, Region.every_cons_cons] using h
    exact ⟨named, i.every_region inner⟩

theorem Ident.every_regions {names : List Ident} (h : Every good (Ident.regions names)) :
    ∀ name ∈ names, good name.span := by
  simpa [Ident.regions, Ident.region] using h

theorem Param.every_regions {params : List Param}
    (h : ∀ rs ∈ params.map Param.regions, Every good rs) : ∀ p ∈ params, good p.name.span := by
  intro p mem
  have own := h p.regions (List.mem_map_of_mem mem)
  simp only [Param.regions, Ident.region, Region.every_append, Region.every_node] at own
  exact own.2.1

mutual

/-- All nodes and names of a statement are in good places. -/
def Stmt.Placed (good : Span → Prop) : Stmt → Prop
  | .varDecl n _ names => good n.span ∧ ∀ name ∈ names, good name.span
  | .arrayDecl n _ size names =>
    good n.span ∧ size.Placed good ∧ ∀ name ∈ names, good name.span
  | .method n name params _ inner body =>
    good n.span ∧ good name.span ∧ (∀ p ∈ params, good p.name.span) ∧ good inner.span ∧
      Stmt.PlacedAll good body
  | .assign n targets values =>
    good n.span ∧ (∀ t ∈ targets, t.Placed good) ∧ Expr.PlacedAll good values
  | .input n names => good n.span ∧ ∀ name ∈ names, good name.span
  | .print n value => good n.span ∧ value.Placed good
  | .alternative n guards | .iterative n guards => good n.span ∧ Guard.PlacedAll good guards
  | .block n inner body => good n.span ∧ good inner.span ∧ Stmt.PlacedAll good body
  | .ret n none => good n.span
  | .ret n (some value) => good n.span ∧ value.Placed good
  | .call n callee args => good n.span ∧ good callee.span ∧ Expr.PlacedAll good args

def Stmt.PlacedAll (good : Span → Prop) : List Stmt → Prop
  | [] => True
  | s :: ss => s.Placed good ∧ Stmt.PlacedAll good ss

def Guard.PlacedAll (good : Span → Prop) : List Guard → Prop
  | [] => True
  | .mk n cond body :: gs =>
    good n.span ∧ cond.Placed good ∧ body.Placed good ∧ Guard.PlacedAll good gs

end

mutual

theorem Stmt.every_region : (s : Stmt) → Every good [s.region] → s.Placed good
  | .varDecl n ty names, h => by
    obtain ⟨own, -, named⟩ :
        good n.span ∧ Every good ty.regions ∧ Every good (Ident.regions names) := by
      simpa [Stmt.region] using h
    exact ⟨own, Ident.every_regions named⟩
  | .arrayDecl n ty size names, h => by
    obtain ⟨own, -, inner, named⟩ : good n.span ∧ Every good ty.regions ∧ Every good [size.region] ∧
        Every good (Ident.regions names) := by
      simpa [Stmt.region, Region.every_cons_cons] using h
    exact ⟨own, size.every_region inner, Ident.every_regions named⟩
  | .method n name params result inner body, h => by
    simp only [Stmt.region, headRegions, Ident.region, Region.every_node, Region.every_append,
      Region.every_kind, Region.every_commas] at h
    obtain ⟨own, ⟨⟨named, -, parameters, -⟩, around, ⟨within, -⟩, -⟩, -⟩ := h
    exact ⟨own, named, Param.every_regions parameters, around, Stmt.every_regions body within⟩
  | .assign n targets values, h => by
    simp only [Stmt.region, Region.every_node, Region.every_append, Region.every_kind,
      Region.every_commas] at h
    obtain ⟨own, ⟨left, right⟩, -⟩ := h
    refine ⟨own, fun t mem => ?_, Expr.every_regions values right⟩
    exact t.every_regions (left _ (List.mem_map_of_mem mem))
  | .input n names, h => by
    simp only [Stmt.region, Region.every_node, Region.every_kind] at h
    exact ⟨h.1, Ident.every_regions h.2.1⟩
  | .print n value, h => by
    simp only [Stmt.region, Region.every_node, Region.every_kind] at h
    exact ⟨h.1, value.every_region h.2.1⟩
  | .alternative n guards, h | .iterative n guards, h => by
    simp only [Stmt.region, Region.every_node, Region.every_append, Region.every_kind] at h
    exact ⟨h.1, Guard.every_regions guards h.2.1.1⟩
  | .block n inner body, h => by
    simp only [Stmt.region, Region.every_node, Region.every_append, Region.every_kind] at h
    obtain ⟨own, ⟨around, ⟨within, -⟩, -⟩, -⟩ := h
    exact ⟨own, around, Stmt.every_regions body within⟩
  | .ret n none, h => by
    simpa [Stmt.region, Stmt.Placed] using h
  | .ret n (some value), h => by
    simp only [Stmt.region, Region.every_node, Region.every_kind] at h
    exact ⟨h.1, value.every_region h.2.1⟩
  | .call n callee args, h => by
    simp only [Stmt.region, Ident.region, Region.every_node, Region.every_append,
      Region.every_kind, Region.every_commas] at h
    exact ⟨h.1, h.2.1.1, Expr.every_regions args h.2.1.2.2.1⟩

theorem Stmt.every_regions : (ss : List Stmt) → Every good (Stmt.regions ss) →
    Stmt.PlacedAll good ss
  | [], _ => trivial
  | s :: ss, h => by
    simp only [Stmt.regions, Region.every_cons_cons, Region.every_semicolon] at h
    exact ⟨s.every_region h.1, Stmt.every_regions ss h.2⟩

theorem Guard.every_regions : (gs : List Guard) → Every good (Guard.regions gs) →
    Guard.PlacedAll good gs
  | [], _ => trivial
  | .mk n cond body :: gs, h => by
    simp only [Guard.regions, Region.every_node, Region.every_cons_cons, Region.every_kind,
      Region.every_semicolon, Region.every_nil] at h
    obtain ⟨own, ⟨test, -, allowed, -⟩, rest⟩ := h
    exact ⟨own, cond.every_region test, body.every_region allowed, Guard.every_regions gs rest⟩

end

/-- All symbols were declared in good places. -/
def Located (good : Span → Prop) (symbols : Array Symbol) : Prop :=
  ∀ s ∈ symbols, good s.span

namespace Located
variable {symbols : Array Symbol}

theorem push (h : Located good symbols) {s : Symbol} (own : good s.span) :
    Located good (symbols.push s) := by
  intro s' mem
  rcases Array.mem_push.mp mem with mem | rfl
  · exact h s' mem
  · exact own

theorem modify (h : Located good symbols) (i : Nat) {f : Symbol → Symbol}
    (same : ∀ s, (f s).span = s.span) : Located good (symbols.modify i f) := by
  intro s mem
  obtain ⟨j, found⟩ := Array.mem_iff_getElem?.mp mem
  rw [Array.getElem?_modify] at found
  split at found
  · obtain ⟨t, found', rfl⟩ := Option.map_eq_some_iff.mp found
    rw [same]
    exact h t (Array.mem_of_getElem? found')
  · exact h s (Array.mem_of_getElem? found)

end Located

namespace Bind

/-- A step of binding keeps all symbols in good places, and its errors are about good places. -/
def Blames {α : Type} (good : Span → Prop) (x : Bind α) : Prop :=
  ∀ b : Binder, Located good b.scopes.symbols →
    (∀ a b', x b = .ok (a, b') → Located good b'.scopes.symbols) ∧
      ∀ e, x b = .error e → e.Blames good

namespace Blames
variable {α β : Type} {x : Bind α} {f : α → Bind β}

theorem pure (a : α) : Blames good (Pure.pure a : Bind α) := by
  intro b located
  refine ⟨fun a' b' run => ?_, fun e run => ?_⟩
  · obtain ⟨rfl, rfl⟩ := state_pure_ok.mp run
    exact located
  · cases run

theorem bind (first : Blames good x) (second : ∀ a, Blames good (f a)) :
    Blames good (x >>= f) := by
  intro b located
  obtain ⟨ok, error⟩ := first b located
  refine ⟨fun a b' run => ?_, fun e run => ?_⟩
  · obtain ⟨a', c, hx, hf⟩ := state_bind_ok.mp run
    exact (second a' c (ok a' c hx)).1 a b' hf
  · cases hx : x b with
    | error e' =>
      obtain rfl : e' = e := by simpa [Bind.bind, StateT.bind, Except.bind, hx] using run
      exact error e' hx
    | ok r =>
      refine (second r.1 r.2 (ok r.1 r.2 hx)).2 e ?_
      simpa [Bind.bind, StateT.bind, Except.bind, hx] using run

theorem throw {e : Error} (blamed : e.Blames good) : Blames good (MonadExcept.throw e : Bind β) := by
  intro b _
  refine ⟨fun a b' run => absurd run state_throw_ok, fun e' run => ?_⟩
  obtain rfl : e = e' := Except.error.inj run
  exact blamed

theorem discard (h : Blames good x) : Blames good (Functor.discard x) := by
  have same : (Functor.discard x : Bind PUnit) = x >>= fun _ => Pure.pure PUnit.unit :=
    map_eq_pure_bind _ x
  rw [same]
  exact h.bind fun _ => pure _

theorem ite {p : Prop} [Decidable p] {y z : Bind β} (hy : Blames good y) (hz : Blames good z) :
    Blames good (if p then y else z) := by
  split
  · exact hy
  · exact hz

/-- Reading the state keeps it. -/
theorem inspect {g : Binder → β} : Blames good (do return g (← get) : Bind β) := by
  intro b located
  refine ⟨fun a b' run => ?_, fun e run => ?_⟩
  · obtain ⟨-, rfl⟩ : g b = a ∧ b = b' := state_pure_ok.mp run
    exact located
  · cases run

theorem state {g : Binder → Bind β}
    (h : ∀ b, Located good b.scopes.symbols → Blames good (g b)) : Blames good (get >>= g) :=
  fun b located => h b located b located

theorem lift {y : Except Error α} (error : ∀ e, y = .error e → e.Blames good)
    (rest : ∀ a, y = .ok a → Blames good (f a)) : Blames good ((liftM y : Bind α) >>= f) := by
  cases y with
  | error e => exact throw (error e rfl)
  | ok a => exact rest a rfl

theorem modifyGet {g : Binder → β × Binder}
    (same : ∀ b, Located good b.scopes.symbols → Located good (g b).2.scopes.symbols) :
    Blames good (MonadState.modifyGet g : Bind β) := by
  intro b located
  refine ⟨fun a b' run => ?_, fun e run => ?_⟩
  · obtain rfl : (g b).2 = b' := congrArg Prod.snd (Except.ok.inj run)
    exact same b located
  · cases run

theorem forM {xs : List α} {g : α → Bind PUnit} (each : ∀ x ∈ xs, Blames good (g x)) :
    Blames good (xs.forM g) := by
  induction xs with
  | nil => exact pure _
  | cons x xs ih =>
    exact (each x List.mem_cons_self).bind fun _ => ih fun y mem =>
      each y (List.mem_cons_of_mem _ mem)

end Blames

variable {name : Ident}

theorem record_blames (id : SymbolId) : Blames good (record name id) :=
  .modifyGet fun _ located => located

theorem annotate_blames (node : NodeId) (ty : Ty) : Blames good (annotate node ty) :=
  .modifyGet fun _ located => located

theorem enter_blames : Blames good enter :=
  .modifyGet fun _ located => located

theorem exit_blames : Blames good exit := by
  refine .modifyGet fun b located => ?_
  rw [← b.scopes.exit_symbols] at located
  exact located

theorem declare_blames (own : good name.span) (owner : Option SymbolId) (kind : SymbolKind)
    (ty : Ty) : Blames good (declare owner name kind ty) := by
  refine .state fun b located => .lift (fun e failed => ?_) fun r done => ?_
  · unfold Scopes.declare at failed
    split at failed
    · obtain rfl := Except.error.inj failed
      exact .of_span own rfl
    · cases failed
  · have located' : Located good r.2.symbols := by
      unfold Scopes.declare at done
      split at done
      · cases done
      · obtain rfl := Except.ok.inj done
        exact located.push own
    exact .bind (.modifyGet fun _ _ => located') fun _ => record_blames _

theorem refer_blames (own : good name.span) (here : Option SymbolId) (id : SymbolId) :
    Blames good (refer here name id) := by
  refine .bind .inspect fun found => ?_
  cases found with
  | none => exact record_blames id
  | some s => exact .ite (.throw (.of_span own rfl)) (record_blames id)

theorem useVariable_blames (own : good name.span) (here : Option SymbolId) :
    Blames good (useVariable here name) := by
  refine .bind .inspect fun found => ?_
  cases found with
  | none => exact .throw (.of_span own rfl)
  | some id =>
    refine .bind .inspect fun found => ?_
    split
    · exact refer_blames own here id
    · exact .throw (.of_span own rfl)

theorem destination_blames (own : good name.span) (here : Option SymbolId) :
    Blames good (destination here name) := by
  refine .bind .inspect fun found => ?_
  cases found with
  | none => exact declare_blames own here .variable .undefined
  | some id => exact useVariable_blames own here

theorem useArray_blames (own : good name.span) (here : Option SymbolId) :
    Blames good (useArray here name) := by
  refine .bind .inspect fun found => ?_
  cases found with
  | none => exact .throw (.of_span own rfl)
  | some id =>
    refine .bind .inspect fun found => ?_
    split
    · exact refer_blames own here id
    · exact .throw (.of_span own rfl)

theorem noSuchMethod_blames (own : good name.span) (function : Bool) :
    (noSuchMethod function name).Blames good := by
  cases function
  · exact .of_span own rfl
  · exact .of_span own rfl

theorem calleeParams_blames (own : good name.span) {function : Bool} {kind : Option SymbolKind}
    {e : Error} (h : calleeParams function name kind = .error e) : e.Blames good := by
  unfold calleeParams at h
  split at h
  · cases function <;> cases h
    exact .of_span own rfl
  · cases function <;> cases h
    exact .of_span own rfl
  · cases h
    exact noSuchMethod_blames own function

theorem useMethod_blames (own : good name.span) {span : Span} (around : good span)
    (here : Option SymbolId) (function : Bool) (count : Nat) :
    Blames good (useMethod here function name count span) := by
  refine .bind .inspect fun found => ?_
  cases found with
  | none => exact .throw (noSuchMethod_blames own function)
  | some id =>
    refine .bind .inspect fun found => ?_
    refine .lift (fun e failed => calleeParams_blames own failed) fun params _ => ?_
    exact .ite (.throw (.of_span around rfl)) (refer_blames own here id)

mutual

theorem expr_blames (here : Option SymbolId) : (e : Expr) → e.Placed good →
    Blames good (expr here e)
  | .int n _, _ => annotate_blames n.id .int
  | .float n _, _ => annotate_blames n.id .float
  | .bool n _, _ => annotate_blames n.id .boolean
  | .var _ _, ⟨_, named⟩ => .discard (useVariable_blames named here)
  | .index _ _ i, ⟨_, named, inner⟩ =>
    .bind (.discard (useArray_blames named here)) fun _ => expr_blames here i inner
  | .call _ _ args, ⟨own, named, inner⟩ =>
    .bind (.discard (useMethod_blames named own here true _)) fun _ =>
      exprs_blames here args inner
  | .paren _ inner, ⟨_, within⟩ => expr_blames here inner within
  | .unary _ _ operand, ⟨_, inner⟩ => expr_blames here operand inner
  | .binary _ _ lhs rhs, ⟨_, left, right⟩ =>
    .bind (expr_blames here lhs left) fun _ => expr_blames here rhs right

theorem exprs_blames (here : Option SymbolId) : (es : List Expr) → Expr.PlacedAll good es →
    Blames good (exprs here es)
  | [], _ => .pure _
  | e :: es, ⟨first, rest⟩ =>
    .bind (expr_blames here e first) fun _ => exprs_blames here es rest

end

theorem target_blames (here : Option SymbolId) : (t : Target) → t.Placed good →
    Blames good (target here t)
  | .var _, named => .discard (destination_blames named here)
  | .index _ i, ⟨named, inner⟩ =>
    .bind (.discard (useArray_blames named here)) fun _ => expr_blames here i inner

theorem declareParams_blames (method : SymbolId) : (ps : List Param) →
    (∀ p ∈ ps, good p.name.span) → Blames good (declareParams method ps)
  | [], _ => .pure _
  | p :: ps, h => by
    obtain ⟨first, rest⟩ := List.forall_mem_cons.mp h
    exact .bind (declare_blames first (some method) .variable _) fun _ =>
      .bind (declareParams_blames method ps rest) fun _ => .pure _

theorem declareMethod_blames (own : good name.span) (result : Option Ty) :
    Blames good (declareMethod name result) := by
  cases result with
  | none => exact declare_blames own none (.procedure []) .undefined
  | some ty => exact declare_blames own none (.function []) ty

mutual

theorem stmt_blames (here : Option SymbolId) : (s : Stmt) → s.Placed good →
    Blames good (stmt here s)
  | .varDecl _ ty _, ⟨_, named⟩ =>
    .forM fun name mem => .discard (declare_blames (named name mem) here .variable ty)
  | .arrayDecl _ ty size _, ⟨_, inner, named⟩ =>
    .bind (expr_blames here size inner) fun _ =>
      .forM fun name mem => .discard (declare_blames (named name mem) here .array ty)
  | .method _ name params result _ body, ⟨_, named, parameters, _, within⟩ => by
    refine .bind (declareMethod_blames named result) fun method => ?_
    refine .bind enter_blames fun _ => ?_
    refine .bind (declareParams_blames method params parameters) fun ids => ?_
    refine .bind (.modifyGet fun b located => ?_) fun _ => ?_
    · exact located.modify method (f := fun s => { s with kind := s.kind.withParams ids })
        fun _ => rfl
    exact .bind (stmts_blames (some method) body within) fun _ => exit_blames
  | .assign _ targets values, ⟨own, left, right⟩ => by
    have rest : Blames good (do exprs here values; targets.forM (target here)) :=
      .bind (exprs_blames here values right) fun _ =>
        .forM fun t mem => target_blames here t (left t mem)
    exact .ite (.bind (.throw (.of_span own rfl)) fun _ => rest) rest
  | .input _ _, ⟨_, named⟩ =>
    .forM fun name mem => .discard (destination_blames (named name mem) here)
  | .print _ value, ⟨_, inner⟩ => expr_blames here value inner
  | .alternative _ guards, ⟨_, inner⟩ | .iterative _ guards, ⟨_, inner⟩ =>
    guards_blames here guards inner
  | .block _ _ body, ⟨_, _, within⟩ =>
    .bind enter_blames fun _ => .bind (stmts_blames here body within) fun _ => exit_blames
  | .ret _ none, _ => .pure _
  | .ret _ (some value), ⟨_, inner⟩ => expr_blames here value inner
  | .call _ _ args, ⟨own, named, inner⟩ =>
    .bind (.discard (useMethod_blames named own here false _)) fun _ =>
      exprs_blames here args inner

theorem stmts_blames (here : Option SymbolId) : (ss : List Stmt) → Stmt.PlacedAll good ss →
    Blames good (stmts here ss)
  | [], _ => .pure _
  | s :: ss, ⟨first, rest⟩ =>
    .bind (stmt_blames here s first) fun _ => stmts_blames here ss rest

theorem guards_blames (here : Option SymbolId) : (gs : List Guard) → Guard.PlacedAll good gs →
    Blames good (guards here gs)
  | [], _ => .pure _
  | .mk _ cond body :: gs, ⟨_, test, allowed, rest⟩ =>
    .bind (expr_blames here cond test) fun _ => .bind (stmt_blames here body allowed) fun _ =>
      guards_blames here gs rest

end

end Bind

namespace Infer

/-- A step of inference keeps all symbols in good places, and its errors are about good places. -/
def Blames {α : Type} (good : Span → Prop) (x : Infer α) : Prop :=
  ∀ p : Progress, Located good p.tables.symbols →
    (∀ a p', x p = .ok a p' → Located good p'.tables.symbols) ∧
      ∀ e p', x p = .error e p' → e.Blames good

namespace Blames
variable {α β : Type} {x : Infer α} {f : α → Infer β}

theorem pure (a : α) : Blames good (Pure.pure a : Infer α) := by
  intro p located
  refine ⟨fun a' p' run => ?_, fun e p' run => ?_⟩
  · obtain ⟨rfl, rfl⟩ := lasting_pure_ok.mp run
    exact located
  · cases run

theorem bind (first : Blames good x) (second : ∀ a, Blames good (f a)) :
    Blames good (x >>= f) := by
  intro p located
  obtain ⟨ok, error⟩ := first p located
  refine ⟨fun b q run => ?_, fun e q run => ?_⟩
  · obtain ⟨a, p', hx, hf⟩ := lasting_bind_ok.mp run
    exact (second a p' (ok a p' hx)).1 b q hf
  · rcases lasting_bind_error.mp run with hx | ⟨a, p', hx, hf⟩
    · exact error e q hx
    · exact (second a p' (ok a p' hx)).2 e q hf

theorem throw {e : Error} (blamed : e.Blames good) :
    Blames good (MonadExcept.throw e : Infer β) := by
  intro p _
  refine ⟨fun a p' run => absurd run lasting_throw_ok, fun e' p' run => ?_⟩
  obtain rfl : e = e' := by
    injection run
  exact blamed

theorem discard (h : Blames good x) : Blames good (Functor.discard x) :=
  (h.bind fun _ => pure _ : Blames good (x >>= fun _ => Pure.pure PUnit.unit))

theorem ite {p : Prop} [Decidable p] {y z : Infer β} (hy : Blames good y) (hz : Blames good z) :
    Blames good (if p then y else z) := by
  split
  · exact hy
  · exact hz

/-- Reading the state keeps it. -/
theorem inspect {g : Progress → β} : Blames good (do return g (← get) : Infer β) := by
  intro p located
  refine ⟨fun a p' run => ?_, fun e p' run => ?_⟩
  · obtain ⟨-, rfl⟩ : g p = a ∧ p = p' := lasting_pure_ok.mp run
    exact located
  · cases run

theorem modify {g : Progress → Progress}
    (same : ∀ p, Located good p.tables.symbols → Located good (g p).tables.symbols) :
    Blames good (modifyThe Progress g : Infer PUnit) := by
  intro p located
  refine ⟨fun a p' run => ?_, fun e p' run => ?_⟩
  · obtain ⟨-, rfl⟩ := lasting_modify_ok.mp run
    exact same p located
  · cases run

end Blames

theorem binding_blames (name : Ident) : Blames good (binding name) := by
  refine .bind .inspect fun a => ?_
  unfold Analysis.binding
  cases a.bindings[name.id]? with
  | some id => exact .pure id
  | none => exact .throw nofun

theorem unify_blames {s : Span} (own : good s) (current proposed : Ty) :
    Blames good (unify current proposed s) := by
  unfold unify
  split
  · exact .pure _
  · exact .throw (.of_span own rfl)

theorem refineSymbol_blames {s : Span} (own : good s) (id : SymbolId) (ty : Ty) :
    Blames good (refineSymbol id ty s) := by
  refine .bind .inspect fun a => .bind (unify_blames own _ _) fun next => .modify ?_
  exact fun p located => located.modify id (f := fun s => { s with ty := next.1 }) fun _ => rfl

theorem refineNode_blames {n : Node} (own : good n.span) (ty : Ty) :
    Blames good (refineNode n ty) := by
  refine .bind .inspect fun a => .bind (unify_blames own _ _) fun next => ?_
  exact .ite (.bind (.modify fun p located => located) fun _ => .pure _) (.pure _)

theorem constrain_blames (ty : Ty) : (e : Expr) → e.Placed good → Blames good (constrain ty e)
  | .var _ _, ⟨own, _⟩ => .bind (binding_blames _) fun _ => refineSymbol_blames own _ ty
  | .index _ _ _, ⟨own, _⟩ => .bind (binding_blames _) fun _ => refineSymbol_blames own _ ty
  | .call _ _ _, ⟨own, _⟩ => .bind (binding_blames _) fun _ => refineSymbol_blames own _ ty
  | .paren _ inner, ⟨_, within⟩ => constrain_blames ty inner within
  | .unary _ .neg operand, ⟨own, inner⟩ =>
    .ite (constrain_blames ty operand inner)
      (.bind .inspect fun _ => .discard (unify_blames own _ ty))
  | .unary _ .not _, ⟨own, _⟩ => .bind .inspect fun _ => .discard (unify_blames own _ ty)
  | .binary _ _ _ _, ⟨own, _⟩ => .bind .inspect fun _ => .discard (unify_blames own _ ty)
  | .int _ _, own | .float _ _, own | .bool _ _, own =>
    .bind .inspect fun _ => .discard (unify_blames own _ ty)

theorem operator_blames (op : BinOp) {lhs rhs : Expr} (left : lhs.Placed good)
    (right : rhs.Placed good) (s t : Ty) : Blames good (operator op lhs rhs s t) := by
  have both : ∀ u v w : Ty, Blames good (do constrain u lhs; constrain v rhs; return w) :=
    fun u v w => .bind (constrain_blames u lhs left) fun _ =>
      .bind (constrain_blames v rhs right) fun _ => .pure w
  have comparison : Blames good (operator .eq lhs rhs s t) := by
    have last : Blames good (do
        if t != .undefined then constrain t lhs
        return Ty.boolean) :=
      .ite (.bind (constrain_blames t lhs left) fun _ => .pure _) (.pure _)
    exact .ite (.bind (constrain_blames s rhs right) fun _ => last) last
  cases op with
  | and | or => exact both .boolean .boolean .boolean
  | eq | ne => exact comparison
  | lt | gt | le | ge => exact both .num .num .boolean
  | slash => exact both .float .float .float
  | div | mod => exact both .int .int .int
  | add | sub | mul => exact both _ _ _

theorem passArgument_blames {arg : Expr} (h : arg.Placed good) (param : SymbolId) (ty : Ty) :
    Blames good (passArgument param arg ty) :=
  .bind .inspect fun _ => .ite (refineSymbol_blames h.span param ty) (constrain_blames _ arg h)

mutual

theorem expr_blames : (e : Expr) → e.Placed good → Blames good (expr e)
  | .int _ _, own | .float _ _, own | .bool _ _, own => refineNode_blames own _
  | .var _ _, ⟨own, _⟩ =>
    .bind (binding_blames _) fun _ => .bind .inspect fun _ => refineNode_blames own _
  | .index _ _ i, ⟨own, _, inner⟩ =>
    .bind (.discard (expr_blames i inner)) fun _ => .bind (constrain_blames .int i inner) fun _ =>
      .bind (binding_blames _) fun _ => .bind .inspect fun _ => refineNode_blames own _
  | .call _ _ args, ⟨own, _, inner⟩ =>
    .bind (binding_blames _) fun _ => .bind .inspect fun _ =>
      .bind (arguments_blames args _ inner) fun _ => .bind .inspect fun _ =>
        refineNode_blames own _
  | .paren _ inner, ⟨own, within⟩ =>
    .bind (expr_blames inner within) fun ty => refineNode_blames own ty
  | .unary _ .neg operand, ⟨own, inner⟩ =>
    .bind (expr_blames operand inner) fun _ => .bind (constrain_blames .num operand inner) fun _ =>
      refineNode_blames own _
  | .unary _ .not operand, ⟨own, inner⟩ =>
    .bind (.discard (expr_blames operand inner)) fun _ =>
      .bind (constrain_blames .boolean operand inner) fun _ => refineNode_blames own _
  | .binary _ op lhs rhs, ⟨own, left, right⟩ =>
    .bind (expr_blames lhs left) fun s => .bind (expr_blames rhs right) fun t =>
      .bind (operator_blames op left right s t) fun ty => refineNode_blames own ty

theorem arguments_blames : (args : List Expr) → (params : List SymbolId) →
    Expr.PlacedAll good args → Blames good (arguments args params)
  | [], _, _ => .pure _
  | _ :: _, [], _ => .pure _
  | arg :: args, param :: params, ⟨first, rest⟩ =>
    .bind (expr_blames arg first) fun ty => .bind (passArgument_blames first param ty) fun _ =>
      arguments_blames args params rest

end

theorem assign_blames {t : Target} {value : Expr} (left : t.Placed good)
    (right : value.Placed good) : Blames good (assign t value) := by
  have rest : ∀ (id : SymbolId) (ty : Ty) (s : Span), good s → Blames good (do
      refineSymbol id ty s
      constrain ((← tables).symbolType id) value) :=
    fun id ty s own => .bind (refineSymbol_blames own id ty) fun _ => .bind .inspect fun _ =>
      constrain_blames _ value right
  refine .bind (expr_blames value right) fun ty => ?_
  cases t with
  | var name => exact .bind (binding_blames name) fun id => rest id ty name.span left
  | index array i =>
    exact .bind (.discard (expr_blames i left.2)) fun _ =>
      .bind (constrain_blames .int i left.2) fun _ =>
        .bind (binding_blames array) fun id => rest id ty array.span left.1

theorem assigns_blames : (ts : List Target) → (values : List Expr) → (∀ t ∈ ts, t.Placed good) →
    Expr.PlacedAll good values → Blames good (assigns ts values)
  | [], _, _, _ => .pure _
  | _ :: _, [], _, _ => .pure _
  | t :: ts, _ :: values, left, ⟨first, rest⟩ =>
    .bind (assign_blames (left t List.mem_cons_self) first) fun _ =>
      assigns_blames ts values (fun u mem => left u (List.mem_cons_of_mem _ mem)) rest

theorem returned_blames (here : Option SymbolId) {value : Expr} (h : value.Placed good) :
    Blames good (returned here value) := by
  refine .bind (.discard (expr_blames value h)) fun _ => ?_
  cases here with
  | none => exact .pure _
  | some method => exact .bind .inspect fun a => .ite (constrain_blames _ value h) (.pure _)

mutual

theorem stmt_blames (here : Option SymbolId) : (s : Stmt) → s.Placed good →
    Blames good (stmt here s)
  | .varDecl .., _ | .input .., _ | .ret _ none, _ => .pure _
  | .arrayDecl _ _ size _, ⟨_, inner, _⟩ =>
    .bind (.discard (expr_blames size inner)) fun _ => constrain_blames .int size inner
  | .method _ name _ _ _ body, ⟨_, _, _, _, within⟩ =>
    .bind (binding_blames name) fun method => stmts_blames (some method) body within
  | .assign _ targets values, ⟨_, left, right⟩ => assigns_blames targets values left right
  | .print _ _, ⟨_, inner⟩ => .discard (expr_blames _ inner)
  | .alternative _ guards, ⟨_, inner⟩ | .iterative _ guards, ⟨_, inner⟩ =>
    guards_blames here guards inner
  | .block _ _ body, ⟨_, _, within⟩ => stmts_blames here body within
  | .ret _ (some _), ⟨_, inner⟩ => returned_blames here inner
  | .call _ callee args, ⟨_, _, inner⟩ =>
    .bind (binding_blames callee) fun _ => .bind .inspect fun _ => arguments_blames args _ inner

theorem stmts_blames (here : Option SymbolId) : (ss : List Stmt) → Stmt.PlacedAll good ss →
    Blames good (stmts here ss)
  | [], _ => .pure _
  | s :: ss, ⟨first, rest⟩ =>
    .bind (stmt_blames here s first) fun _ => stmts_blames here ss rest

theorem guards_blames (here : Option SymbolId) : (gs : List Guard) → Guard.PlacedAll good gs →
    Blames good (guards here gs)
  | [], _ => .pure _
  | .mk _ cond body :: gs, ⟨_, test, allowed, rest⟩ =>
    .bind (.discard (expr_blames cond test)) fun _ =>
      .bind (constrain_blames .boolean cond test) fun _ =>
        .bind (stmt_blames here body allowed) fun _ => guards_blames here gs rest

end

end Infer

/-- A result keeps all symbols in good places, or is an error about a good place. -/
def Analysis.Outcome (good : Span → Prop) : Except Error Analysis → Prop
  | .ok a => Located good a.symbols
  | .error e => e.Blames good

namespace Program
variable {p : Program}

theorem bind_blames (placed : Stmt.PlacedAll good p.body) : Analysis.Outcome good p.bind := by
  obtain ⟨ok, error⟩ :=
    Bind.stmts_blames none p.body placed ⟨.empty, ∅, ∅⟩ (by simp [Located, Scopes.empty])
  unfold bind
  cases run : (Bind.stmts none p.body).run ⟨.empty, ∅, ∅⟩ with
  | ok r => exact ok r.1 r.2 run
  | error e => exact error e run

theorem traverse_blames (placed : Stmt.PlacedAll good p.body) {a : Analysis}
    (located : Located good a.symbols) :
    (∀ c a', p.traverse a = .ok c a' → Located good a'.symbols) ∧
      ∀ e a', p.traverse a = .error e a' → e.Blames good := by
  obtain ⟨ok, error⟩ := Infer.stmts_blames none p.body placed ⟨a, false⟩ located
  unfold traverse
  split
  · rename_i q run
    refine ⟨fun c a' done => ?_, fun _ _ failed => by simp at failed⟩
    obtain ⟨-, rfl⟩ := EStateM.Result.ok.inj done
    exact ok _ q run
  · rename_i e q run
    refine ⟨fun _ _ done => by simp at done, fun e' a' failed => ?_⟩
    obtain ⟨rfl, -⟩ := EStateM.Result.error.inj failed
    exact error e q run

theorem traverseUntilStable_blames (placed : Stmt.PlacedAll good p.body) (fuel : Nat)
    {a : Analysis} (located : Located good a.symbols) :
    (∀ n a', p.traverseUntilStable fuel a = .ok n a' → Located good a'.symbols) ∧
      ∀ e a', p.traverseUntilStable fuel a = .error e a' → e.Blames good := by
  induction fuel generalizing a with
  | zero =>
    refine ⟨fun n a' done => ?_, fun _ _ failed => by simp [traverseUntilStable] at failed⟩
    obtain ⟨-, rfl⟩ := EStateM.Result.ok.inj done
    exact located
  | succ fuel ih =>
    obtain ⟨ok, error⟩ := traverse_blames placed located
    rw [traverseUntilStable]
    split
    · rename_i e a' run
      refine ⟨fun _ _ done => by simp at done, fun e' a'' failed => ?_⟩
      obtain ⟨rfl, -⟩ := EStateM.Result.error.inj failed
      exact error e a' run
    · rename_i a' run
      refine ⟨fun n a'' done => ?_, fun _ _ failed => by simp at failed⟩
      obtain ⟨-, rfl⟩ := EStateM.Result.ok.inj done
      exact ok false a' run
    · rename_i a' run
      obtain ⟨ok', error'⟩ := ih (ok true a' run)
      split
      · rename_i n b again
        refine ⟨fun n' b' done => ?_, fun _ _ failed => by simp at failed⟩
        obtain ⟨-, rfl⟩ := EStateM.Result.ok.inj done
        exact ok' n b again
      · rename_i e b again
        refine ⟨fun _ _ done => by simp at done, fun e' b' failed => ?_⟩
        obtain ⟨rfl, -⟩ := EStateM.Result.error.inj failed
        exact error' e b again

theorem infer_blames (placed : Stmt.PlacedAll good p.body) {a : Analysis}
    (located : Located good a.symbols) : Analysis.Outcome good (p.infer a) := by
  obtain ⟨ok, error⟩ := traverseUntilStable_blames placed (p.traversalBound a) located
  unfold infer
  split
  · exact ok _ _ ‹_›
  · exact error _ _ ‹_›

end Program

/-- If the result is an error, it is about a good place. -/
def Blamed {α : Type} (good : Span → Prop) (x : Except Error α) : Prop :=
  ∀ e, x = .error e → e.Blames good

namespace Blamed
variable {α β : Type} {x : Except Error α} {f : α → Except Error β}

theorem pure (a : α) : Blamed good (Pure.pure a : Except Error α) :=
  nofun

theorem bind (first : Blamed good x) (second : ∀ a, x = .ok a → Blamed good (f a)) :
    Blamed good (x >>= f) := by
  cases x with
  | error e => exact fun e' run => first e' (Except.error.inj run ▸ rfl)
  | ok a => exact second a rfl

theorem throw {s : Span} {e : Error} (own : good s) (same : e.span? = some s) :
    Blamed good (MonadExcept.throw e : Except Error α) := by
  intro e' run
  obtain rfl : e = e' := Except.error.inj run
  exact .of_span own same

theorem ite {p : Prop} [Decidable p] {y z : Except Error α} (hy : Blamed good y)
    (hz : Blamed good z) : Blamed good (if p then y else z) := by
  split
  · exact hy
  · exact hz

theorem forM {xs : List α} {g : α → Except Error PUnit} (each : ∀ x ∈ xs, Blamed good (g x)) :
    Blamed good (xs.forM g) := by
  induction xs with
  | nil => exact pure _
  | cons x xs ih =>
    exact (each x List.mem_cons_self).bind fun _ _ => ih fun y mem =>
      each y (List.mem_cons_of_mem _ mem)

theorem mapM {xs : List α} {g : α → Except Error β} (each : ∀ x ∈ xs, Blamed good (g x)) :
    Blamed good (xs.mapM g) := by
  induction xs with
  | nil => exact pure _
  | cons x xs ih =>
    rw [List.mapM_cons]
    refine (each x List.mem_cons_self).bind fun _ _ => ?_
    exact bind (ih fun y mem => each y (List.mem_cons_of_mem _ mem)) fun _ _ => pure _

end Blamed

namespace Analysis
variable {a : Analysis}

theorem settle_blames (located : Located good a.symbols) : Blamed good a.settle := by
  refine .bind ?_ fun _ _ => .pure _
  rw [Array.mapM_eq_mapM_toList]
  refine .bind (.mapM fun s mem => ?_) fun _ _ => .pure _
  have own := located s (Array.mem_toList_iff.mp mem)
  unfold Symbol.settle
  split
  · exact .pure _
  · exact .throw own rfl
  · exact .pure _

theorem binding_blames (name : Ident) : Blamed good (a.binding name) := by
  unfold binding
  split
  · exact .pure _
  · rintro e ⟨⟩
    exact nofun

theorem checkIndex_blames {i : Expr} (h : i.Placed good) : Blamed good (a.checkIndex i) :=
  .ite (.throw h.span rfl) (.pure _)

theorem checkOperands_blames {n : Node} (own : good n.span) (op : BinOp) (lhs rhs : Expr) :
    Blamed good (a.checkOperands n op lhs rhs) := by
  cases op with
  | eq | ne => exact .ite (.throw own rfl) (.pure _)
  | div | mod => exact .ite (.throw own rfl) (.pure _)
  | add | sub | mul | slash | lt | gt | le | ge | and | or => exact .pure _

mutual

theorem checkExpr_blames : (e : Expr) → e.Placed good → Blamed good (a.checkExpr e)
  | .int .., _ | .float .., _ | .bool .., _ | .var .., _ => .pure _
  | .index _ _ i, ⟨_, _, inner⟩ =>
    .bind (checkExpr_blames i inner) fun _ _ => checkIndex_blames inner
  | .call _ _ args, ⟨_, _, inner⟩ => checkExprs_blames args inner
  | .paren _ inner, ⟨_, within⟩ => checkExpr_blames inner within
  | .unary _ _ operand, ⟨_, inner⟩ => checkExpr_blames operand inner
  | .binary _ op lhs rhs, ⟨own, left, right⟩ =>
    .bind (checkExpr_blames lhs left) fun _ _ => .bind (checkExpr_blames rhs right) fun _ _ =>
      checkOperands_blames own op lhs rhs

theorem checkExprs_blames : (es : List Expr) → Expr.PlacedAll good es →
    Blamed good (a.checkExprs es)
  | [], _ => .pure _
  | e :: es, ⟨first, rest⟩ =>
    .bind (checkExpr_blames e first) fun _ _ => checkExprs_blames es rest

end

theorem checkTarget_blames : (t : Target) → t.Placed good → Blamed good (a.checkTarget t)
  | .var _, _ => .pure _
  | .index _ i, ⟨_, inner⟩ =>
    .bind (checkExpr_blames i inner) fun _ _ => checkIndex_blames inner

theorem checkReturn_blames (here : Option SymbolId) {n : Node} (own : good n.span)
    {value : Option Expr} (h : ∀ e, value = some e → e.Placed good) :
    Blamed good (a.checkReturn here n value) := by
  unfold checkReturn
  cases here with
  | none => exact .throw own rfl
  | some method =>
    dsimp only
    split
    · have placed := h _ rfl
      exact .bind (checkExpr_blames _ placed) fun _ _ => .ite (.throw placed.span rfl) (.pure _)
    · exact .throw own rfl
    · exact .throw (h _ rfl).span rfl
    · exact .pure _

mutual

theorem checkStmt_blames (here : Option SymbolId) : (s : Stmt) → s.Placed good →
    Blamed good (a.checkStmt here s)
  | .varDecl .., _ | .input .., _ => .pure _
  | .arrayDecl _ _ size _, ⟨_, inner, _⟩ =>
    .bind (checkExpr_blames size inner) fun _ _ => checkIndex_blames inner
  | .method _ name _ _ _ body, ⟨_, _, _, _, within⟩ =>
    .bind (binding_blames name) fun method _ => checkStmts_blames (some method) body within
  | .assign _ _ values, ⟨_, left, right⟩ =>
    .bind (.forM fun t mem => checkTarget_blames t (left t mem)) fun _ _ =>
      checkExprs_blames values right
  | .print _ value, ⟨_, inner⟩ => checkExpr_blames value inner
  | .alternative _ guards, ⟨_, inner⟩ | .iterative _ guards, ⟨_, inner⟩ =>
    checkGuards_blames here guards inner
  | .block _ _ body, ⟨_, _, within⟩ => checkStmts_blames here body within
  | .ret _ none, own => checkReturn_blames here own nofun
  | .ret _ (some _), ⟨own, inner⟩ =>
    checkReturn_blames here own fun _ same => Option.some.inj same ▸ inner
  | .call _ _ args, ⟨_, _, inner⟩ => checkExprs_blames args inner

theorem checkStmts_blames (here : Option SymbolId) : (ss : List Stmt) → Stmt.PlacedAll good ss →
    Blamed good (a.checkStmts here ss)
  | [], _ => .pure _
  | s :: ss, ⟨first, rest⟩ =>
    .bind (checkStmt_blames here s first) fun _ _ => checkStmts_blames here ss rest

theorem checkGuards_blames (here : Option SymbolId) : (gs : List Guard) →
    Guard.PlacedAll good gs → Blamed good (a.checkGuards here gs)
  | [], _ => .pure _
  | .mk _ cond body :: gs, ⟨_, test, allowed, rest⟩ =>
    .bind (checkExpr_blames cond test) fun _ _ =>
      .bind (checkStmt_blames here body allowed) fun _ _ => checkGuards_blames here gs rest

end

end Analysis

/-- Every error of the analysis is about a place in the tree. -/
theorem Program.analyze_blames {p : Program} (every : Every good [p.region]) :
    Blamed good p.analyze := by
  have placed : Stmt.PlacedAll good p.body := by
    simp only [Program.region, Ident.region, Region.every_node, Region.every_kind] at every
    exact Stmt.every_regions p.body every.2.1.2.2
  have bound := p.bind_blames placed
  refine .bind ?_ fun a run => ?_
  · intro e run
    rw [run] at bound
    exact bound
  rw [run] at bound
  have inferred := p.infer_blames placed bound
  refine .bind ?_ fun a' run' => ?_
  · intro e run'
    rw [run'] at inferred
    exact inferred
  rw [run'] at inferred
  refine .bind (Analysis.settle_blames inferred) fun b _ => ?_
  exact .bind (Analysis.checkStmts_blames none p.body placed) fun _ _ => .pure _

namespace Cursor
variable {text : List Char} {ts : List Token} {last : Token}

theorem ofTokens_sound (cut : Scanner.Cut text 0 ts last) :
    (ofTokens (ts ++ [last])).Sound := by
  obtain ⟨ahead, closing⟩ := ofTokens_cut cut.ended
  exact ⟨by rw [closing, cut.ended], by rw [ahead]; exact cut.ordered.left⟩

/-- A program covers all tokens up to the end of the text. -/
theorem program_cover (cut : Scanner.Cut text 0 ts last) {p : Program} {d : Cursor}
    (read : (ofTokens (ts ++ [last])).program = .ok p d) : Region.Cover [p.region] ts := by
  obtain ⟨ahead, -⟩ := ofTokens_cut cut.ended
  obtain ⟨taken, moves, cover⟩ :=
    Parse.program_lays _ (ofTokens_sound cut) (.none rfl rfl rfl) p d read
  obtain ⟨_, _, -, stop, -⟩ := Parse.program_reads _ (ofTokens_fit _) p d read
  rw [moves.ahead] at ahead
  have rest : d.ahead = [] := by
    cases left : d.ahead with
    | nil => rfl
    | cons t more =>
      have mem : t ∈ ts := by simp [← ahead, left]
      have kind : t.kind = .eof := by simpa [current, left] using stop
      exact absurd kind (cut.more t mem)
  rw [rest, List.append_nil] at ahead
  exact ahead ▸ cover

end Cursor

/-- Every location is true. A program that is read covers the tokens of the text, each of its nodes
from the start of its first token to the end of its last; its regions are nested, within the text;
and the line of every node, as that of every error found in the text or in the program, is one more
than the number of line ends before its start. -/
theorem locations_true (source : String) :
    (∀ p, parse source = .ok p →
      ∃ ts last, tokenize source = ts ++ [last] ∧ Scanner.Cut source.toList 0 ts last ∧
        Region.Cover [p.region] ts ∧ Region.Nested ⟨0, source.length, 1⟩ [p.region] ∧
          Every (Span.TrueIn source.toList) [p.region]) ∧
      ∀ e s, (parse source = .error e ∨ ∃ p, parse source = .ok p ∧ p.analyze = .error e) →
        e.span? = some s → s.TrueIn source.toList := by
  obtain ⟨ts, last, split, cut⟩ := tokenize_cut source
  have covered : ∀ p, parse source = .ok p → Region.Cover [p.region] ts := by
    intro p parsed
    obtain ⟨d, read⟩ := Cursor.program_of_parse parsed
    exact Cursor.program_cover cut (split ▸ read)
  have every : ∀ p, parse source = .ok p → Every (Span.TrueIn source.toList) [p.region] :=
    fun p parsed => (covered p parsed).every fun t mem _ =>
      (cut.places t (List.mem_append_left _ mem)).line
  refine ⟨fun p parsed => ?_, fun e s failed own => ?_⟩
  · refine ⟨ts, last, split, cut, covered p parsed, ?_, every p parsed⟩
    refine (covered p parsed).nested cut.ordered.left fun t mem => ?_
    refine ⟨Nat.zero_le _, cut.ordered.left.each t mem, ?_⟩
    rw [← String.length_toList]
    exact cut.inside t mem
  · rcases failed with failed | ⟨p, parsed, failed⟩
    · obtain ⟨d, read⟩ := Cursor.error_of_parse failed
      rw [split] at read
      obtain ⟨before, t, after, parts, about⟩ :=
        (Parse.program_sure _ (Cursor.ofTokens_clear cut.ended)).2 e d read
      obtain rfl : t.span = s := Option.some.inj (about.span.symm.trans own)
      exact (cut.places t (by simp [parts])).line
    · exact p.analyze_blames (every p parsed) e failed s own

/-- A guard with its semicolon on the next line. -/
def overLines : String :=
  "program p\nint x; x <- 1\nif x < 2 ::\n  print (x)\n; fi"

/-- A name that is never declared, on the third line. -/
def undeclared : String :=
  "program p\nprint\n  y"

theorem locations_true_overLines :
    (∃ p, parse overLines = .ok p ∧ Region.Nested ⟨0, overLines.length, 1⟩ [p.region] ∧
      Every (Span.TrueIn overLines.toList) [p.region]) ∧
      ∃ p e s, parse undeclared = .ok p ∧ p.analyze = .error e ∧ e.span? = some s ∧
        s = ⟨18, 19, 3⟩ ∧ s.TrueIn undeclared.toList := by
  constructor
  · obtain ⟨p, parsed⟩ : ∃ p, parse overLines = .ok p := except_of_isOk (by decide +kernel)
    obtain ⟨_, _, -, -, -, nested, every⟩ := (locations_true overLines).1 p parsed
    exact ⟨p, parsed, nested, every⟩
  · obtain ⟨p, parsed⟩ : ∃ p, parse undeclared = .ok p := except_of_isOk (by decide +kernel)
    have run : ((parse undeclared).bind fun p => p.analyze.map fun _ => ()) =
        .error (.undefinedSymbol "y" ⟨18, 19, 3⟩) := by decide +kernel
    rw [parsed] at run
    cases failed : p.analyze with
    | ok a => simp [failed, Except.bind, Except.map] at run
    | error e =>
      obtain rfl : e = .undefinedSymbol "y" ⟨18, 19, 3⟩ := by
        simpa [failed, Except.bind, Except.map] using run
      exact ⟨p, _, _, parsed, failed, rfl, rfl,
        (locations_true undeclared).2 _ _ (.inr ⟨p, parsed, failed⟩) rfl⟩

end Guarded
