import Guarded.Analysis
import Guarded.Proofs.Tree
import Mathlib.Data.List.Forall2

/-!
Bound programs. In a bound program every name stands for a symbol of the kind its use needs, which
is global or belongs to the method around the use, and a call has as many arguments as its callee
has parameters.

`Analysis.Carries` says what may happen to tables without undoing what has been bound: tables grow
while names are bound, and later passes refine types, but nothing else.
-/

namespace Guarded

namespace Analysis

/-- The method a symbol belongs to. -/
def ownerOf (a : Analysis) (id : SymbolId) : Option SymbolId :=
  a.symbols[id]?.bind Symbol.owner

/-- A name stands for a symbol. -/
def Names (a : Analysis) (name : Ident) (id : SymbolId) (s : Symbol) : Prop :=
  a.bindings[name.id]? = some id ∧ a.symbols[id]? = some s

/-- A name is used for a symbol that the method `here` may use. -/
def Uses (a : Analysis) (here : Option SymbolId) (name : Ident) (fits : SymbolKind → Prop) : Prop :=
  ∃ id s, a.Names name id s ∧ fits s.kind ∧ (s.owner = none ∨ s.owner = here)

/-- A name is declared in the method `here`. -/
def Declares (a : Analysis) (here : Option SymbolId) (name : Ident) (kind : SymbolKind) (ty : Ty) :
    Prop :=
  ∃ id s, a.Names name id s ∧ s.kind = kind ∧ s.owner = here ∧ s.ty = ty

/-- A parameter of a method. -/
def DeclaresParam (a : Analysis) (method : SymbolId) (p : Param) (id : SymbolId) : Prop :=
  ∃ s, a.Names p.name id s ∧ s.kind = .variable ∧ s.owner = some method ∧
    ∀ ty, p.ty = some ty → s.ty = ty

/-- A method has the kind its result type asks for. -/
def methodKind (result : Option Ty) (params : List SymbolId) : SymbolKind :=
  if result.isSome then .function params else .procedure params

/-- The name and parameters of a method are those of its symbol. -/
def Heads (a : Analysis) (id : SymbolId) (name : Ident) (params : List Param) (result : Option Ty) :
    Prop :=
  ∃ s ids, a.Names name id s ∧ s.name = name.name ∧ s.owner = none ∧
    s.kind = methodKind result ids ∧ (∀ ty, result = some ty → s.ty = ty) ∧
    ids.Nodup ∧ List.Forall₂ (a.DeclaresParam id) params ids

end Analysis

mutual

/-- Every name of an expression in the method `here` is bound. -/
def Expr.Bound (a : Analysis) (here : Option SymbolId) : Expr → Prop
  | .int .. | .float .. | .bool .. => True
  | .var _ name => a.Uses here name (· = .variable)
  | .index _ array i => a.Uses here array (· = .array) ∧ i.Bound a here
  | .call _ callee args =>
    a.Uses here callee (fun k => ∃ ps, k = .function ps ∧ ps.length = args.length) ∧
      Expr.BoundAll a here args
  | .paren _ inner => inner.Bound a here
  | .unary _ _ operand => operand.Bound a here
  | .binary _ _ lhs rhs => lhs.Bound a here ∧ rhs.Bound a here

def Expr.BoundAll (a : Analysis) (here : Option SymbolId) : List Expr → Prop
  | [] => True
  | e :: es => e.Bound a here ∧ Expr.BoundAll a here es

end

def Target.Bound (a : Analysis) (here : Option SymbolId) : Target → Prop
  | .var name => a.Uses here name (· = .variable)
  | .index array i => a.Uses here array (· = .array) ∧ i.Bound a here

mutual

/-- Every name of a statement in the method `here` is bound. -/
def Stmt.Bound (a : Analysis) (here : Option SymbolId) : Stmt → Prop
  | .varDecl _ ty names => ∀ name ∈ names, a.Declares here name .variable ty
  | .arrayDecl _ ty size names =>
    size.Bound a here ∧ ∀ name ∈ names, a.Declares here name .array ty
  | .method _ name params result _ body =>
    ∃ id, a.Heads id name params result ∧ Stmt.BoundAll a (some id) body
  | .assign _ targets values =>
    targets.length = values.length ∧ (∀ t ∈ targets, t.Bound a here) ∧
      Expr.BoundAll a here values
  | .input _ names => ∀ name ∈ names, a.Uses here name (· = .variable)
  | .print _ value => value.Bound a here
  | .alternative _ guards | .iterative _ guards => Guard.BoundAll a here guards
  | .block _ _ body => Stmt.BoundAll a here body
  | .ret _ none => True
  | .ret _ (some value) => value.Bound a here
  | .call _ callee args =>
    a.Uses here callee (fun k => ∃ ps, k = .procedure ps ∧ ps.length = args.length) ∧
      Expr.BoundAll a here args

def Stmt.BoundAll (a : Analysis) (here : Option SymbolId) : List Stmt → Prop
  | [] => True
  | s :: ss => s.Bound a here ∧ Stmt.BoundAll a here ss

def Guard.BoundAll (a : Analysis) (here : Option SymbolId) : List Guard → Prop
  | [] => True
  | .mk _ cond body :: gs => cond.Bound a here ∧ body.Bound a here ∧ Guard.BoundAll a here gs

end

/-- The same symbol, where a type that was still open may have been refined. -/
structure Symbol.Carries (s s' : Symbol) : Prop where
  name : s'.name = s.name
  kind : s'.kind = s.kind
  owner : s'.owner = s.owner
  ty : s.ty.isTerminal = true → s'.ty = s.ty

/-- Tables in which the names with these numbers stand for the same symbols. -/
structure Analysis.Carries (a a' : Analysis) (ids : List NodeId) : Prop where
  bindings : ∀ k ∈ ids, a'.bindings[k]? = a.bindings[k]?
  symbols : ∀ (i : SymbolId) (s : Symbol), a.symbols[i]? = some s →
    ∃ s', a'.symbols[i]? = some s' ∧ s.Carries s'

/-- Every symbol stays as it is. -/
def Analysis.Fixes (a a' : Analysis) : Prop :=
  ∀ (i : SymbolId) (s : Symbol), a.symbols[i]? = some s → a'.symbols[i]? = some s

namespace Analysis.Carries
variable {a a' : Analysis} {ids : List NodeId} {here : Option SymbolId}

theorem mono {more : List NodeId} (h : a.Carries a' more) (sub : ids ⊆ more) : a.Carries a' ids :=
  ⟨fun k mem => h.bindings k (sub mem), h.symbols⟩

theorem names (h : a.Carries a' ids) {name : Ident} (mem : name.id ∈ ids) {id : SymbolId}
    {s : Symbol} (named : a.Names name id s) : ∃ s', a'.Names name id s' ∧ s.Carries s' := by
  obtain ⟨s', found, same⟩ := h.symbols id s named.2
  exact ⟨s', ⟨(h.bindings _ mem).trans named.1, found⟩, same⟩

theorem uses (h : a.Carries a' ids) {name : Ident} (mem : name.id ∈ ids)
    {fits : SymbolKind → Prop} (use : a.Uses here name fits) : a'.Uses here name fits := by
  obtain ⟨id, s, named, kind, owner⟩ := use
  obtain ⟨s', named', same⟩ := h.names mem named
  exact ⟨id, s', named', same.kind ▸ kind, same.owner ▸ owner⟩

/-- A type of values stays, and any type does if symbols stay as they are. -/
theorem type_eq {name : Ident} {id : SymbolId} {s s' : Symbol} (same : s.Carries s')
    (named : a.Names name id s) (named' : a'.Names name id s')
    (kept : s.ty.isTerminal = true ∨ a.Fixes a') : s'.ty = s.ty := by
  rcases kept with terminal | fixed
  · exact same.ty terminal
  · obtain rfl := Option.some.inj ((fixed id s named.2).symm.trans named'.2)
    rfl

theorem declares (h : a.Carries a' ids) {name : Ident} (mem : name.id ∈ ids) {kind : SymbolKind}
    {ty : Ty} (kept : ty.isTerminal = true ∨ a.Fixes a') (decl : a.Declares here name kind ty) :
    a'.Declares here name kind ty := by
  obtain ⟨id, s, named, hkind, owner, rfl⟩ := decl
  obtain ⟨s', named', same⟩ := h.names mem named
  exact ⟨id, s', named', same.kind.trans hkind, same.owner.trans owner,
    type_eq same named named' kept⟩

theorem declaresParam (h : a.Carries a' ids) {method id : SymbolId} {p : Param}
    (mem : p.name.id ∈ ids) (kept : p.Proper ∨ a.Fixes a') (decl : a.DeclaresParam method p id) :
    a'.DeclaresParam method p id := by
  obtain ⟨s, named, kind, owner, written⟩ := decl
  obtain ⟨s', named', same⟩ := h.names mem named
  refine ⟨s', named', same.kind.trans kind, same.owner.trans owner, fun ty hty => ?_⟩
  have before := written ty hty
  have kept : s.ty.isTerminal = true ∨ a.Fixes a' :=
    kept.imp_left fun proper => before ▸ proper ty hty
  exact (type_eq same named named' kept).trans before

theorem heads (h : a.Carries a' ids) {id : SymbolId} {name : Ident} {params : List Param}
    {result : Option Ty} (mem : name.id ∈ ids) (inside : params.map (·.name.id) ⊆ ids)
    (kept : (∀ p ∈ params, p.Proper) ∨ a.Fixes a')
    (kept' : (∀ ty, result = some ty → ty.isTerminal = true) ∨ a.Fixes a')
    (head : a.Heads id name params result) : a'.Heads id name params result := by
  obtain ⟨s, ps, named, hname, owner, kind, written, distinct, declared⟩ := head
  obtain ⟨s', named', same⟩ := h.names mem named
  refine ⟨s', ps, named', same.name.trans hname, same.owner.trans owner, same.kind.trans kind,
    fun ty hty => ?_, distinct, ?_⟩
  · have before := written ty hty
    have kept : s.ty.isTerminal = true ∨ a.Fixes a' :=
      kept'.imp_left fun proper => before ▸ proper ty hty
    exact (type_eq same named named' kept).trans before
  · clear kind named
    induction declared with
    | nil => exact .nil
    | @cons p q ps qs first rest ih =>
      simp only [List.map_cons, List.cons_subset] at inside
      exact .cons (h.declaresParam inside.1 (kept.imp_left fun proper => proper p List.mem_cons_self)
          first)
        (ih inside.2 (kept.imp_left fun proper p mem => proper p (List.mem_cons_of_mem _ mem))
          (List.nodup_cons.mp distinct).2)

end Analysis.Carries

mutual

theorem Expr.Bound.carry {a a' : Analysis} {here : Option SymbolId} :
    {e : Expr} → a.Carries a' e.ids → e.Bound a here → e.Bound a' here
  | .int .., _, _ | .float .., _, _ | .bool .., _, _ => trivial
  | .var .., h, bound => h.uses (by simp [Expr.ids]) bound
  | .index .., h, bound =>
    ⟨h.uses (by simp [Expr.ids]) bound.1,
      Expr.Bound.carry (h.mono fun _ mem => by simp [Expr.ids, mem]) bound.2⟩
  | .call .., h, bound =>
    ⟨h.uses (by simp [Expr.ids]) bound.1,
      Expr.BoundAll.carry (h.mono fun _ mem => by simp [Expr.ids, mem]) bound.2⟩
  | .paren _ inner, h, bound =>
    Expr.Bound.carry (e := inner) (h.mono fun _ mem => by simp [Expr.ids, mem]) bound
  | .unary _ _ operand, h, bound =>
    Expr.Bound.carry (e := operand) (h.mono fun _ mem => by simp [Expr.ids, mem]) bound
  | .binary .., h, bound =>
    ⟨Expr.Bound.carry (h.mono fun _ mem => by simp [Expr.ids, mem]) bound.1,
      Expr.Bound.carry (h.mono fun _ mem => by simp [Expr.ids, mem]) bound.2⟩

theorem Expr.BoundAll.carry {a a' : Analysis} {here : Option SymbolId} :
    {es : List Expr} → a.Carries a' (Expr.idsAll es) → Expr.BoundAll a here es →
      Expr.BoundAll a' here es
  | [], _, _ => trivial
  | _ :: _, h, bound =>
    ⟨Expr.Bound.carry (h.mono fun _ mem => by simp [Expr.idsAll, mem]) bound.1,
      Expr.BoundAll.carry (h.mono fun _ mem => by simp [Expr.idsAll, mem]) bound.2⟩

end

theorem Target.idsAll_mem {t : Target} {ts : List Target} (mem : t ∈ ts) :
    t.ids ⊆ Target.idsAll ts := by
  induction ts with
  | nil => simp at mem
  | cons u us ih =>
    rcases List.mem_cons.mp mem with rfl | mem
    · exact List.subset_append_left _ _
    · exact List.Subset.trans (ih mem) (List.subset_append_right _ _)

theorem Target.Bound.carry {a a' : Analysis} {here : Option SymbolId} {t : Target}
    (h : a.Carries a' t.ids) (bound : t.Bound a here) : t.Bound a' here := by
  cases t with
  | var name =>
    have use : a.Uses here name (· = .variable) := bound
    exact h.uses (by simp [Target.ids]) use
  | index array i =>
    exact ⟨h.uses (by simp [Target.ids]) bound.1,
      Expr.Bound.carry (h.mono fun _ mem => by simp [Target.ids, mem]) bound.2⟩

mutual

theorem Stmt.Bound.carry {a a' : Analysis} {here : Option SymbolId} :
    {s : Stmt} → (s.Proper ∨ a.Fixes a') → a.Carries a' s.ids → s.Bound a here → s.Bound a' here
  | .varDecl .., kept, h, bound => fun name mem =>
    h.declares (by simpa [Stmt.ids] using Or.inl ⟨name, mem, rfl⟩) kept (bound name mem)
  | .arrayDecl .., kept, h, bound =>
    ⟨bound.1.carry (h.mono fun _ mem => by simp [Stmt.ids, mem]), fun name mem =>
      h.declares (by simpa [Stmt.ids] using Or.inr (Or.inl ⟨name, mem, rfl⟩)) kept
        (bound.2 name mem)⟩
  | .method .., kept, h, ⟨id, head, body⟩ =>
    ⟨id, h.heads (by simp [Stmt.ids]) (fun _ mem => by
        simp only [Stmt.ids, List.mem_cons, List.mem_append]
        exact Or.inr (Or.inl (Or.inl mem))) (kept.imp_left fun proper => proper.2.1)
        (kept.imp_left fun proper => proper.2.2.1) head,
      Stmt.BoundAll.carry (kept.imp_left fun proper => proper.2.2.2)
        (h.mono fun _ mem => by simp [Stmt.ids, mem]) body⟩
  | .assign .., _, h, bound =>
    ⟨bound.1, fun t mem => (bound.2.1 t mem).carry
      (h.mono fun k hk => by simp [Stmt.ids, Target.idsAll_mem mem hk]),
      bound.2.2.carry (h.mono fun _ mem => by simp [Stmt.ids, mem])⟩
  | .input .., _, h, bound => fun name mem =>
    h.uses (by simpa [Stmt.ids] using Or.inl ⟨name, mem, rfl⟩) (bound name mem)
  | .print .., _, h, bound => Expr.Bound.carry (h.mono fun _ mem => by simp [Stmt.ids, mem]) bound
  | .alternative .., kept, h, bound =>
    Guard.BoundAll.carry kept (h.mono fun _ mem => by simp [Stmt.ids, mem]) bound
  | .iterative .., kept, h, bound =>
    Guard.BoundAll.carry kept (h.mono fun _ mem => by simp [Stmt.ids, mem]) bound
  | .block .., kept, h, bound =>
    Stmt.BoundAll.carry kept (h.mono fun _ mem => by simp [Stmt.ids, mem]) bound
  | .ret _ none, _, _, _ => trivial
  | .ret _ (some _), _, h, bound =>
    Expr.Bound.carry (h.mono fun _ mem => by simp [Stmt.ids, mem]) bound
  | .call .., _, h, bound =>
    ⟨h.uses (by simp [Stmt.ids]) bound.1,
      bound.2.carry (h.mono fun _ mem => by simp [Stmt.ids, mem])⟩

theorem Stmt.BoundAll.carry {a a' : Analysis} {here : Option SymbolId} :
    {ss : List Stmt} → (Stmt.ProperAll ss ∨ a.Fixes a') → a.Carries a' (Stmt.idsAll ss) →
      Stmt.BoundAll a here ss → Stmt.BoundAll a' here ss
  | [], _, _, _ => trivial
  | _ :: _, kept, h, bound =>
    ⟨Stmt.Bound.carry (kept.imp_left And.left) (h.mono fun _ mem => by simp [Stmt.idsAll, mem])
        bound.1,
      Stmt.BoundAll.carry (kept.imp_left And.right)
        (h.mono fun _ mem => by simp [Stmt.idsAll, mem]) bound.2⟩

theorem Guard.BoundAll.carry {a a' : Analysis} {here : Option SymbolId} :
    {gs : List Guard} → (Guard.ProperAll gs ∨ a.Fixes a') → a.Carries a' (Guard.idsAll gs) →
      Guard.BoundAll a here gs → Guard.BoundAll a' here gs
  | [], _, _, _ => trivial
  | .mk .. :: _, kept, h, bound =>
    ⟨bound.1.carry (h.mono fun _ mem => by simp [Guard.idsAll, mem]),
      Stmt.Bound.carry (kept.imp_left And.left) (h.mono fun _ mem => by simp [Guard.idsAll, mem])
        bound.2.1,
      Guard.BoundAll.carry (kept.imp_left And.right)
        (h.mono fun _ mem => by simp [Guard.idsAll, mem]) bound.2.2⟩

end

mutual

/-- A method declared in a bound statement has its symbol, and its body is bound. -/
theorem Stmt.Bound.methods {a : Analysis} {here : Option SymbolId} :
    {s : Stmt} → s.Bound a here → ∀ m ∈ s.methods,
      ∃ id, a.Heads id m.name m.params m.result ∧ Stmt.BoundAll a (some id) m.body
  | .method _ name params result _ body, bound, m, mem => by
    obtain ⟨id, heads, inside⟩ := bound
    rcases List.mem_cons.mp mem with rfl | mem
    · exact ⟨id, heads, inside⟩
    · exact Stmt.BoundAll.methods inside m mem
  | .alternative .., bound, m, mem | .iterative .., bound, m, mem =>
    Guard.BoundAll.methods bound m mem
  | .block .., bound, m, mem => Stmt.BoundAll.methods bound m mem
  | .varDecl .., _, _, mem | .arrayDecl .., _, _, mem | .assign .., _, _, mem
  | .input .., _, _, mem | .print .., _, _, mem | .ret .., _, _, mem | .call .., _, _, mem => by
    simp [Stmt.methods] at mem

theorem Stmt.BoundAll.methods {a : Analysis} {here : Option SymbolId} :
    {ss : List Stmt} → Stmt.BoundAll a here ss → ∀ m ∈ Stmt.methodsAll ss,
      ∃ id, a.Heads id m.name m.params m.result ∧ Stmt.BoundAll a (some id) m.body
  | [], _, _, mem => by simp [Stmt.methodsAll] at mem
  | _ :: _, bound, m, mem => by
    rcases List.mem_append.mp mem with mem | mem
    · exact Stmt.Bound.methods bound.1 m mem
    · exact Stmt.BoundAll.methods bound.2 m mem

theorem Guard.BoundAll.methods {a : Analysis} {here : Option SymbolId} :
    {gs : List Guard} → Guard.BoundAll a here gs → ∀ m ∈ Guard.methodsAll gs,
      ∃ id, a.Heads id m.name m.params m.result ∧ Stmt.BoundAll a (some id) m.body
  | [], _, _, mem => by simp [Guard.methodsAll] at mem
  | .mk .. :: _, bound, m, mem => by
    rcases List.mem_append.mp mem with mem | mem
    · exact Stmt.Bound.methods bound.2.1 m mem
    · exact Guard.BoundAll.methods bound.2.2 m mem

end

mutual

theorem Expr.Bound.parts {a : Analysis} {here : Option SymbolId} :
    {e : Expr} → e.Bound a here → ∀ e' ∈ e.parts, e'.Bound a here
  | .int .., bound, _, mem | .float .., bound, _, mem | .bool .., bound, _, mem
  | .var .., bound, _, mem => by
    obtain rfl := List.mem_singleton.mp mem
    exact bound
  | .index .., bound, e', mem => by
    rcases List.mem_append.mp mem with mem | mem
    · exact bound.2.parts e' mem
    · obtain rfl := List.mem_singleton.mp mem
      exact bound
  | .call .., bound, e', mem => by
    rcases List.mem_append.mp mem with mem | mem
    · exact Expr.BoundAll.parts bound.2 e' mem
    · obtain rfl := List.mem_singleton.mp mem
      exact bound
  | .paren _ inner, bound, e', mem | .unary _ _ inner, bound, e', mem => by
    rcases List.mem_append.mp mem with mem | mem
    · exact Expr.Bound.parts (e := inner) bound e' mem
    · obtain rfl := List.mem_singleton.mp mem
      exact bound
  | .binary .., bound, e', mem => by
    rcases List.mem_append.mp mem with mem | mem
    · rcases List.mem_append.mp mem with mem | mem
      · exact bound.1.parts e' mem
      · exact bound.2.parts e' mem
    · obtain rfl := List.mem_singleton.mp mem
      exact bound

theorem Expr.BoundAll.parts {a : Analysis} {here : Option SymbolId} :
    {es : List Expr} → Expr.BoundAll a here es → ∀ e' ∈ Expr.partsAll es, e'.Bound a here
  | [], _, _, mem => by simp [Expr.partsAll] at mem
  | _ :: _, bound, e', mem => by
    rcases List.mem_append.mp mem with mem | mem
    · exact bound.1.parts e' mem
    · exact Expr.BoundAll.parts bound.2 e' mem

end

theorem Target.exprsAll_bound {a : Analysis} {here : Option SymbolId} :
    {targets : List Target} → (∀ t ∈ targets, t.Bound a here) →
      ∀ e ∈ Target.exprsAll targets, e.Bound a here
  | [], _, _, mem => by simp [Target.exprsAll] at mem
  | t :: ts, bound, e, mem => by
    obtain ⟨first, rest⟩ := List.forall_mem_cons.mp bound
    rcases List.mem_append.mp mem with mem | mem
    · cases t with
      | var name => simp [Target.exprs] at mem
      | index array i => exact first.2.parts e mem
    · exact Target.exprsAll_bound rest e mem

mutual

/-- Every expression of a bound statement is bound, in the method it stands in. -/
theorem Stmt.Bound.exprs {a : Analysis} {here : Option SymbolId} :
    {s : Stmt} → s.Bound a here → ∀ e ∈ s.exprs, ∃ here', e.Bound a here'
  | .varDecl .., _, _, mem | .input .., _, _, mem | .ret _ none, _, _, mem => by
    simp [Stmt.exprs] at mem
  | .arrayDecl .., bound, e, mem => ⟨here, bound.1.parts e mem⟩
  | .method .., bound, e, mem => by
    obtain ⟨id, -, inside⟩ := bound
    exact Stmt.BoundAll.exprs inside e mem
  | .assign .., bound, e, mem => by
    rcases List.mem_append.mp mem with mem | mem
    · exact ⟨here, Target.exprsAll_bound bound.2.1 e mem⟩
    · exact ⟨here, Expr.BoundAll.parts bound.2.2 e mem⟩
  | .print _ value, bound, e, mem => ⟨here, Expr.Bound.parts (e := value) bound e mem⟩
  | .alternative .., bound, e, mem | .iterative .., bound, e, mem =>
    Guard.BoundAll.exprs bound e mem
  | .block .., bound, e, mem => Stmt.BoundAll.exprs bound e mem
  | .ret _ (some value), bound, e, mem => ⟨here, Expr.Bound.parts (e := value) bound e mem⟩
  | .call .., bound, e, mem => ⟨here, Expr.BoundAll.parts bound.2 e mem⟩

theorem Stmt.BoundAll.exprs {a : Analysis} {here : Option SymbolId} :
    {ss : List Stmt} → Stmt.BoundAll a here ss → ∀ e ∈ Stmt.exprsAll ss, ∃ here', e.Bound a here'
  | [], _, _, mem => by simp [Stmt.exprsAll] at mem
  | _ :: _, bound, e, mem => by
    rcases List.mem_append.mp mem with mem | mem
    · exact Stmt.Bound.exprs bound.1 e mem
    · exact Stmt.BoundAll.exprs bound.2 e mem

theorem Guard.BoundAll.exprs {a : Analysis} {here : Option SymbolId} :
    {gs : List Guard} → Guard.BoundAll a here gs → ∀ e ∈ Guard.exprsAll gs, ∃ here', e.Bound a here'
  | [], _, _, mem => by simp [Guard.exprsAll] at mem
  | .mk .. :: _, bound, e, mem => by
    rcases List.mem_append.mp mem with mem | mem
    · rcases List.mem_append.mp mem with mem | mem
      · exact ⟨here, bound.1.parts e mem⟩
      · exact Stmt.Bound.exprs bound.2.1 e mem
    · exact Guard.BoundAll.exprs bound.2.2 e mem

end

end Guarded
