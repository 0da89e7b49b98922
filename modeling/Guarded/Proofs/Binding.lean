import Guarded.Analysis.Binding
import Guarded.Proofs.Bound
import Guarded.Proofs.Numbering

/-!
Binding a program makes it bound. The walk over the program only adds to the tables: symbols are
appended, and a statement binds no names but its own. Every method in the table of symbols comes from
exactly one declaration, because declarations are numbered in the order in which they are met.
-/

namespace Guarded

/-- The bindings and the parameter lists point into the table of symbols. -/
structure Analysis.Grounded (a : Analysis) : Prop where
  bindings : ∀ (k id : Nat), a.bindings[k]? = some id → id < a.symbols.size
  params : ∀ (i : Nat) (s : Symbol) (ps : List Nat), a.symbols[i]? = some s →
    s.kind.params? = some ps → ∀ p ∈ ps, p < a.symbols.size

/-- The type a literal has by itself. -/
def Expr.literal? : Expr → Option Ty
  | .int .. => some .int
  | .float .. => some .float
  | .bool .. => some .boolean
  | _ => none

namespace Binder

def tables (b : Binder) : Analysis :=
  ⟨b.scopes.symbols, b.bindings, b.types⟩

/-- The number of symbols so far. -/
def size (b : Binder) : Nat :=
  b.scopes.symbols.size

/-- What happens to the tables while a piece of a program is bound that has these numbers,
expressions and methods. -/
structure Grows (b b' : Binder) (ids : List NodeId) (exprs : List Expr) (methods : List Method) :
    Prop where
  size : b.size ≤ b'.size
  symbols : ∀ i, i < b.size → b'.scopes.symbols[i]? = b.scopes.symbols[i]?
  bindings : ∀ k, k ∉ ids → b'.bindings[k]? = b.bindings[k]?
  types : ∀ k ty, b'.types[k]? = some ty →
    b.types[k]? = some ty ∨ ∃ e ∈ exprs, e.id = k ∧ e.literal? = some ty
  grounded : b.tables.Grounded → b'.tables.Grounded
  inside : ∀ m ∈ methods, m.name.id ∈ ids
  /-- Methods are declared one after the other. -/
  ascending : ∃ ms : List Nat, methods.map (fun m => b'.bindings[m.name.id]?) = ms.map some ∧
    ms.Pairwise (· < ·) ∧ ∀ i ∈ ms, b.size ≤ i ∧ i < b'.size
  declared : ∀ (i : Nat) (s : Symbol), b.size ≤ i → b'.scopes.symbols[i]? = some s →
    s.isMethod = true → ∃ m ∈ methods, b'.bindings[m.name.id]? = some i

namespace Grows
variable {b c d : Binder} {xs ys : List NodeId} {es fs : List Expr} {ms ns : List Method}

/-- A step that leaves the symbols, the bindings and the types alone. -/
theorem of_eq (symbols : c.scopes.symbols = b.scopes.symbols) (bindings : c.bindings = b.bindings)
    (types : c.types = b.types) : b.Grows c [] [] [] where
  size := by simp [Binder.size, symbols]
  symbols := by simp [symbols]
  bindings := by simp [bindings]
  types := by simp [types]
  grounded := by
    have same : c.tables = b.tables := by simp [tables, symbols, bindings, types]
    simp [same]
  inside := by simp
  ascending := ⟨[], by simp⟩
  declared := by
    intro i s low found
    have high := (Array.getElem?_eq_some_iff.mp found).1
    rw [symbols] at high
    exact absurd high (by simpa [Binder.size] using low)

theorem trans (first : b.Grows c xs es ms) (second : c.Grows d ys fs ns)
    (apart : ∀ k ∈ xs, k ∉ ys) : b.Grows d (xs ++ ys) (es ++ fs) (ms ++ ns) where
  size := first.size.trans second.size
  symbols i low := (second.symbols i (low.trans_le first.size)).trans (first.symbols i low)
  bindings k out := by
    rw [List.mem_append, not_or] at out
    exact (second.bindings k out.2).trans (first.bindings k out.1)
  types k ty found := by
    rcases second.types k ty found with old | ⟨e, mem, rest⟩
    · rcases first.types k ty old with old | ⟨e, mem, rest⟩
      · exact Or.inl old
      · exact Or.inr ⟨e, List.mem_append_left _ mem, rest⟩
    · exact Or.inr ⟨e, List.mem_append_right _ mem, rest⟩
  grounded h := second.grounded (first.grounded h)
  inside m mem := by
    rcases List.mem_append.mp mem with mem | mem
    · exact List.mem_append_left _ (first.inside m mem)
    · exact List.mem_append_right _ (second.inside m mem)
  ascending := by
    obtain ⟨is, found, sorted, range⟩ := first.ascending
    obtain ⟨js, found', sorted', range'⟩ := second.ascending
    refine ⟨is ++ js, ?_, List.pairwise_append.mpr ⟨sorted, sorted', ?_⟩, ?_⟩
    · rw [List.map_append, List.map_append, ← found, ← found']
      congr 1
      apply List.map_congr_left
      intro m mem
      exact second.bindings _ (apart _ (first.inside m mem))
    · intro i hi j hj
      exact (range i hi).2.trans_le (range' j hj).1
    · intro i mem
      have := first.size
      have := second.size
      rcases List.mem_append.mp mem with mem | mem
      · have := range i mem
        omega
      · have := range' i mem
        omega
  declared i s low found isMethod := by
    by_cases old : i < c.size
    · rw [second.symbols i old] at found
      obtain ⟨m, mem, bound⟩ := first.declared i s low found isMethod
      refine ⟨m, List.mem_append_left _ mem, ?_⟩
      rw [second.bindings _ (apart _ (first.inside m mem)), bound]
    · obtain ⟨m, mem, bound⟩ := second.declared i s (by omega) found isMethod
      exact ⟨m, List.mem_append_right _ mem, bound⟩

/-- What has been bound stays bound while other names are. -/
theorem carries (h : b.Grows c ys es ms) (apart : ∀ k ∈ xs, k ∉ ys) :
    b.tables.Carries c.tables xs where
  bindings k mem := h.bindings k (apart k mem)
  symbols i s found := by
    have low : i < b.size := (Array.getElem?_eq_some_iff.mp found).1
    exact ⟨s, (h.symbols i low).trans found, rfl, rfl, rfl, fun _ => rfl⟩

theorem fixes (h : b.Grows c ys es ms) : b.tables.Fixes c.tables := fun i _ found =>
  (h.symbols i (Array.getElem?_eq_some_iff.mp found).1).trans found

/-- What a name that is not among these is used for does not change. -/
theorem uses (h : b.Grows c ys es ms) {here : Option SymbolId} {name : Ident}
    {fits : SymbolKind → Prop} (apart : name.id ∉ ys) (use : b.tables.Uses here name fits) :
    c.tables.Uses here name fits := by
  have carried : b.tables.Carries c.tables [name.id] := h.carries (by simpa using apart)
  exact carried.uses (by simp) use

/-- Numbers, expressions and methods may be listed otherwise, as long as none is missing. -/
theorem relist (h : b.Grows c xs es ms) (ids : xs ⊆ ys) (exprs : es ⊆ fs) : b.Grows c ys fs ms where
  size := h.size
  symbols := h.symbols
  bindings k out := h.bindings k fun mem => out (ids mem)
  types k ty found := by
    rcases h.types k ty found with old | ⟨e, mem, rest⟩
    · exact Or.inl old
    · exact Or.inr ⟨e, exprs mem, rest⟩
  grounded := h.grounded
  inside m mem := ids (h.inside m mem)
  ascending := h.ascending
  declared := h.declared

/-- A scope is left, which changes none of the tables. -/
theorem exit (h : b.Grows c xs es ms) : b.Grows { c with scopes := c.scopes.exit } xs es ms := by
  have left : c.Grows { c with scopes := c.scopes.exit } [] [] [] :=
    of_eq c.scopes.exit_symbols rfl rfl
  simpa using h.trans left (by simp)

end Grows

theorem exit_tables (b : Binder) :
    ({ b with scopes := b.scopes.exit } : Binder).tables = b.tables := by
  simp [tables, Scopes.exit_symbols]

end Binder

namespace Bind
variable {b b' : Binder} {here : Option SymbolId} {name : Ident}

theorem bindings_insert (m : Std.TreeMap NodeId SymbolId) (k j : NodeId) (id : SymbolId) :
    (m.insert k id)[j]? = if k = j then some id else m[j]? := by
  rw [Std.TreeMap.getElem?_insert]
  simp only [compare_eq_iff_eq]

theorem record_ok {id v : SymbolId} (h : record name id b = .ok (v, b')) :
    v = id ∧ b' = { b with bindings := b.bindings.insert name.id id } := by
  have run : Except.ok (id, { b with bindings := b.bindings.insert name.id id }) =
      (Except.ok (v, b') : Except Error _) := h
  obtain ⟨rfl, rfl⟩ : id = v ∧ _ = b' := by simpa using run
  exact ⟨rfl, rfl⟩

theorem grows_record {id : SymbolId} (low : id < b.size) :
    b.Grows { b with bindings := b.bindings.insert name.id id } [name.id] [] [] where
  size := le_rfl
  symbols := by simp
  bindings k out := by
    have other : name.id ≠ k := by simpa [eq_comm] using out
    simp [bindings_insert, other]
  types := by simp
  grounded h := by
    refine ⟨fun k j found => ?_, h.params⟩
    simp only [Binder.tables, bindings_insert] at found
    split at found
    · obtain rfl := Option.some.inj found
      exact low
    · exact h.bindings k j found
  inside := by simp
  ascending := ⟨[], by simp⟩
  declared i s low found := by
    have high := (Array.getElem?_eq_some_iff.mp found).1
    exact absurd high (by simpa [Binder.size] using low)

theorem lookup_ok {found : Option SymbolId} (h : lookup name b = .ok (found, b')) :
    b.scopes.lookup name.name = found ∧ b = b' :=
  state_pure_ok.mp h

theorem symbol?_ok {id : SymbolId} {found : Option Symbol} (h : symbol? id b = .ok (found, b')) :
    b.scopes.symbols[id]? = found ∧ b = b' :=
  state_pure_ok.mp h

/-- A name is bound to the symbol it is found to have, of a kind that fits, which the method `here`
may use. -/
structure Referred (b b' : Binder) (here : Option SymbolId) (name : Ident)
    (fits : SymbolKind → Prop) (id : SymbolId) (s : Symbol) : Prop where
  looked : b.scopes.lookup name.name = some id
  found : b.scopes.symbols[id]? = some s
  kind : fits s.kind
  owner : s.owner = none ∨ s.owner = here
  recorded : b' = { b with bindings := b.bindings.insert name.id id }

theorem Referred.binds {fits : SymbolKind → Prop} {id : SymbolId} {s : Symbol}
    (h : Referred b b' here name fits id s) :
    b.Grows b' [name.id] [] [] ∧ b'.tables.Uses here name fits := by
  obtain ⟨-, found, kind, owner, rfl⟩ := h
  have low : id < b.size := (Array.getElem?_eq_some_iff.mp found).1
  exact ⟨grows_record low, id, s, ⟨by simp [Binder.tables], found⟩, kind, owner⟩

theorem refer_ok {id v : SymbolId} {s : Symbol} (looked : b.scopes.lookup name.name = some id)
    (found : b.scopes.symbols[id]? = some s) (h : refer here name id b = .ok (v, b'))
    {fits : SymbolKind → Prop} (kind : fits s.kind) : Referred b b' here name fits id s := by
  simp only [refer, state_bind_ok] at h
  obtain ⟨found', c, look, h⟩ := h
  obtain ⟨rfl, rfl⟩ := symbol?_ok look
  simp only [found] at h
  by_cases captured : (s.isLocal && s.owner != here) = true
  · rw [if_pos captured] at h
    exact absurd h state_throw_ok
  · rw [if_neg captured] at h
    refine ⟨looked, found, kind, ?_, (record_ok h).2⟩
    cases owner : s.owner with
    | none => exact Or.inl rfl
    | some m =>
      refine Or.inr ?_
      simpa [Symbol.isLocal, owner] using captured

theorem useVariable_ok {v : SymbolId} (h : useVariable here name b = .ok (v, b')) :
    ∃ id s, Referred b b' here name (· = .variable) id s := by
  simp only [useVariable, state_bind_ok] at h
  obtain ⟨found, c, look, h⟩ := h
  obtain ⟨looked, rfl⟩ := lookup_ok look
  cases found with
  | none => exact absurd h state_throw_ok
  | some id =>
    simp only [state_bind_ok] at h
    obtain ⟨s, c, look, h⟩ := h
    obtain ⟨found, rfl⟩ := symbol?_ok look
    split at h
    · exact ⟨id, _, refer_ok looked found h rfl⟩
    · exact absurd h state_throw_ok

theorem useArray_ok {v : SymbolId} (h : useArray here name b = .ok (v, b')) :
    ∃ id s, Referred b b' here name (· = .array) id s := by
  simp only [useArray, state_bind_ok] at h
  obtain ⟨found, c, look, h⟩ := h
  obtain ⟨looked, rfl⟩ := lookup_ok look
  cases found with
  | none => exact absurd h state_throw_ok
  | some id =>
    simp only [state_bind_ok] at h
    obtain ⟨s, c, look, h⟩ := h
    obtain ⟨found, rfl⟩ := symbol?_ok look
    split at h
    · exact ⟨id, _, refer_ok looked found h rfl⟩
    · exact absurd h state_throw_ok

/-- The kind of a callee in an expression or in a statement. -/
def calleeKind (function : Bool) (params : List SymbolId) : SymbolKind :=
  if function then .function params else .procedure params

theorem calleeParams_ok {function : Bool} {kind : Option SymbolKind} {params : List SymbolId}
    (h : calleeParams function name kind = .ok params) :
    kind = some (calleeKind function params) := by
  unfold calleeParams at h
  split at h
  · split at h
    · obtain rfl := Except.ok.inj h
      simp [calleeKind, *]
    · simp at h
  · split at h
    · simp at h
    · obtain rfl := Except.ok.inj h
      simp [calleeKind, *]
  · simp at h

theorem useMethod_ok {function : Bool} {count : Nat} {span : Span} {v : SymbolId}
    (h : useMethod here function name count span b = .ok (v, b')) :
    ∃ id s, Referred b b' here name
      (fun k => ∃ ps, k = calleeKind function ps ∧ ps.length = count) id s := by
  simp only [useMethod, state_bind_ok] at h
  obtain ⟨found, c, look, h⟩ := h
  obtain ⟨looked, rfl⟩ := lookup_ok look
  cases found with
  | none => exact absurd h state_throw_ok
  | some id =>
    simp only [state_bind_ok] at h
    obtain ⟨found, c, look, params, d, fits, h⟩ := h
    obtain ⟨found, rfl⟩ := symbol?_ok look
    obtain ⟨arity, rfl⟩ := state_lift_ok.mp fits
    split at h
    · exact absurd h state_throw_ok
    · rename_i same
      subst found
      obtain ⟨s, found, kind⟩ := Option.map_eq_some_iff.mp (calleeParams_ok arity)
      exact ⟨id, s, refer_ok looked found h ⟨params, kind, by simpa using same⟩⟩

/-- What declaring a name does to the tables. -/
structure Declared (b b' : Binder) (name : Ident) (s : Symbol) : Prop where
  scopes : b.scopes.declare s = .ok (b.size, b'.scopes)
  bindings : b'.bindings = b.bindings.insert name.id b.size
  types : b'.types = b.types

namespace Declared
variable {s : Symbol} (h : Declared b b' name s)
include h

theorem symbols : b'.scopes.symbols = b.scopes.symbols.push s := by
  have made := h.scopes
  unfold Scopes.declare at made
  split at made
  · cases made
  · rw [← (Prod.mk.inj (Except.ok.inj made)).2]

theorem size : b'.size = b.size + 1 := by
  simp [Binder.size, h.symbols]

theorem names : b'.tables.Names name b.size s := by
  constructor
  · simp [Binder.tables, h.bindings]
  · simp [Binder.tables, h.symbols, Binder.size]

theorem symbols_low {i : Nat} (low : i < b.size) :
    b'.scopes.symbols[i]? = b.scopes.symbols[i]? := by
  rw [h.symbols, Array.getElem?_push_lt low]
  exact (Array.getElem?_eq_getElem low).symm

theorem grounded (params : ∀ ps, s.kind.params? = some ps → ps = [])
    (ground : b.tables.Grounded) : b'.tables.Grounded where
  bindings k id found := by
    change id < b'.size
    rw [h.size]
    simp only [Binder.tables, h.bindings, bindings_insert] at found
    split at found
    · obtain rfl := Option.some.inj found
      exact Nat.lt_succ_self _
    · exact (ground.bindings k id found).trans (Nat.lt_succ_self _)
  params i t ps found kind p mem := by
    change p < b'.size
    rw [h.size]
    by_cases low : i < b.size
    · have old : b.tables.symbols[i]? = some t := (h.symbols_low low).symm.trans found
      exact (ground.params i t ps old kind p mem).trans (Nat.lt_succ_self _)
    · have high : i < b'.size := (Array.getElem?_eq_some_iff.mp found).1
      have last : i = b.size := by rw [h.size] at high; omega
      obtain rfl : s = t := by
        have new := h.names.2
        rw [← last, found] at new
        exact (Option.some.inj new).symm
      simp [params ps kind] at mem

theorem grows (kind : s.kind.params? = none) : b.Grows b' [name.id] [] [] where
  size := by rw [h.size]; omega
  symbols i low := h.symbols_low low
  bindings k out := by
    have other : name.id ≠ k := by simpa [eq_comm] using out
    rw [h.bindings, bindings_insert, if_neg other]
  types k ty found := Or.inl (h.types ▸ found)
  grounded := h.grounded (by simp [kind])
  inside := by simp
  ascending := ⟨[], by simp⟩
  declared i t low found isMethod := by
    have high : i < b'.size := (Array.getElem?_eq_some_iff.mp found).1
    have last : i = b.size := by rw [h.size] at high; omega
    obtain rfl : s = t := by
      have new := h.names.2
      rw [← last] at new
      exact Option.some.inj (new.symm.trans found)
    simp [Symbol.isMethod, kind] at isMethod

end Declared

theorem declare_declared {owner : Option SymbolId} {kind : SymbolKind} {ty : Ty} {v : SymbolId}
    (h : declare owner name kind ty b = .ok (v, b')) :
    v = b.size ∧ Declared b b' name ⟨name.name, kind, ty, owner, name.span⟩ := by
  simp only [declare, state_bind_ok] at h
  obtain ⟨c, d, got, p, e, lifted, _, f, put, h⟩ := h
  obtain ⟨rfl, rfl⟩ : b = c ∧ b = d := state_pure_ok.mp got
  obtain ⟨made, rfl⟩ := state_lift_ok.mp lifted
  obtain ⟨rfl, rfl⟩ := record_ok h
  obtain rfl : { b with scopes := p.2 } = f := state_set_ok.mp put
  have next : p.1 = b.size := by
    unfold Scopes.declare at made
    split at made
    · cases made
    · rw [← Except.ok.inj made]
      rfl
  exact ⟨next, next ▸ made, by rw [next], rfl⟩

theorem destination_binds {v : SymbolId} (h : destination here name b = .ok (v, b')) :
    b.Grows b' [name.id] [] [] ∧ b'.tables.Uses here name (· = .variable) := by
  simp only [destination, state_bind_ok] at h
  obtain ⟨found, c, look, h⟩ := h
  obtain ⟨-, rfl⟩ := lookup_ok look
  cases found with
  | some id =>
    obtain ⟨id, s, referred⟩ := useVariable_ok h
    exact referred.binds
  | none =>
    obtain ⟨-, made⟩ := declare_declared h
    exact ⟨made.grows rfl, b.size, _, made.names, rfl, Or.inr rfl⟩

theorem annotate_grows {e : Expr} {ty : Ty} {u : Unit} (lit : e.literal? = some ty)
    (h : annotate e.id ty b = .ok (u, b')) : b.Grows b' [e.id] [e] [] := by
  obtain rfl : { b with types := b.types.insert e.id ty } = b' := by
    simpa [annotate, modify, modifyGet, MonadStateOf.modifyGet, StateT.modifyGet, pure,
      Except.pure] using h
  refine ⟨le_rfl, by simp, by simp, ?_, fun ground => ⟨ground.bindings, ground.params⟩, by simp,
    ⟨[], by simp⟩, ?_⟩
  · intro k t found
    simp only [Std.TreeMap.getElem?_insert, compare_eq_iff_eq] at found
    split at found
    · rename_i same
      obtain rfl := Option.some.inj found
      exact Or.inr ⟨e, by simp, same, lit⟩
    · exact Or.inl found
  · intro i s low found
    have high := (Array.getElem?_eq_some_iff.mp found).1
    exact absurd high (by simpa [Binder.size] using low)

/-- A name and then more. -/
theorem then_grows {c : Binder} {n : NodeId} {ids : List NodeId} {es : List Expr}
    {ms : List Method} (first : b.Grows b' [n] [] []) (second : b'.Grows c ids es ms)
    (out : n ∉ ids) : b.Grows c (n :: ids) es ms := by
  have both := first.trans second (by simpa using out)
  simpa using both

mutual

theorem expr_binds : (e : Expr) → {b b' : Binder} → {u : Unit} → e.ids.Nodup →
    expr here e b = .ok (u, b') →
      b.Grows b' e.ids e.parts [] ∧ e.Bound b'.tables here
  | .int n v, b, b', u, _, h => by
    simp only [expr] at h
    exact ⟨annotate_grows (e := .int n v) rfl h, trivial⟩
  | .float n v, b, b', u, _, h => by
    simp only [expr] at h
    exact ⟨annotate_grows (e := .float n v) rfl h, trivial⟩
  | .bool n v, b, b', u, _, h => by
    simp only [expr] at h
    exact ⟨annotate_grows (e := .bool n v) rfl h, trivial⟩
  | .var n name, b, b', u, _, h => by
    simp only [expr, state_discard_ok] at h
    obtain ⟨v, h⟩ := h
    obtain ⟨id, s, referred⟩ := useVariable_ok h
    obtain ⟨grows, use⟩ := referred.binds
    exact ⟨grows.relist (by simp [Expr.ids]) (by simp), use⟩
  | .index n array i, b, b', u, distinct, h => by
    simp only [expr, state_bind_ok, state_discard_ok] at h
    obtain ⟨_, c, ⟨v, first⟩, second⟩ := h
    simp only [Expr.ids, List.nodup_cons, List.nodup_append, List.mem_append, not_or] at distinct
    obtain ⟨id, s, referred⟩ := useArray_ok first
    obtain ⟨grows, use⟩ := referred.binds
    obtain ⟨grows', bound⟩ := expr_binds i distinct.2.1 second
    refine ⟨(then_grows grows grows' distinct.1.1).relist ?_ ?_, ?_, bound⟩
    · simp [Expr.ids]
    · simp [Expr.parts]
    · exact grows'.uses (by simpa using distinct.1.1) use
  | .call n callee args, b, b', u, distinct, h => by
    simp only [expr, state_bind_ok, state_discard_ok] at h
    obtain ⟨_, c, ⟨v, first⟩, second⟩ := h
    simp only [Expr.ids, List.nodup_cons, List.nodup_append, List.mem_append, not_or] at distinct
    obtain ⟨id, s, referred⟩ := useMethod_ok first
    obtain ⟨grows, use⟩ := referred.binds
    obtain ⟨grows', bound⟩ := exprs_binds args distinct.2.1 second
    refine ⟨(then_grows grows grows' distinct.1.1).relist ?_ ?_, ?_, bound⟩
    · simp [Expr.ids]
    · simp [Expr.parts]
    · exact grows'.uses (by simpa using distinct.1.1) use
  | .paren n inner, b, b', u, distinct, h => by
    simp only [expr] at h
    obtain ⟨grows, bound⟩ := expr_binds inner (List.nodup_append.mp distinct).1 h
    exact ⟨grows.relist (by simp [Expr.ids]) (by simp [Expr.parts]), bound⟩
  | .unary n op operand, b, b', u, distinct, h => by
    simp only [expr] at h
    obtain ⟨grows, bound⟩ := expr_binds operand (List.nodup_append.mp distinct).1 h
    exact ⟨grows.relist (by simp [Expr.ids]) (by simp [Expr.parts]), bound⟩
  | .binary n op lhs rhs, b, b', u, distinct, h => by
    simp only [expr, state_bind_ok] at h
    obtain ⟨_, c, first, second⟩ := h
    have operands := (List.nodup_append.mp distinct).1
    have apart : ∀ k ∈ lhs.ids, k ∉ rhs.ids := fun k hl hr =>
      (List.nodup_append.mp operands).2.2 k hl k hr rfl
    obtain ⟨grows, bound⟩ := expr_binds lhs (List.nodup_append.mp operands).1 first
    obtain ⟨grows', bound'⟩ := expr_binds rhs (List.nodup_append.mp operands).2.1 second
    refine ⟨(grows.trans grows' apart).relist ?_ ?_, bound.carry (grows'.carries apart), bound'⟩
    · simp [Expr.ids]
    · simp [Expr.parts]

theorem exprs_binds : (es : List Expr) → {b b' : Binder} → {u : Unit} → (Expr.idsAll es).Nodup →
    exprs here es b = .ok (u, b') →
      b.Grows b' (Expr.idsAll es) (Expr.partsAll es) [] ∧ Expr.BoundAll b'.tables here es
  | [], b, b', u, _, h => by
    simp only [exprs, state_pure_ok] at h
    obtain ⟨-, rfl⟩ := h
    exact ⟨.of_eq rfl rfl rfl, trivial⟩
  | e :: es, b, b', u, distinct, h => by
    simp only [exprs, state_bind_ok] at h
    obtain ⟨_, c, first, second⟩ := h
    obtain ⟨own, rest, apart⟩ := List.nodup_append.mp distinct
    have apart : ∀ k ∈ e.ids, k ∉ Expr.idsAll es := fun k hl hr => apart k hl k hr rfl
    obtain ⟨grows, bound⟩ := expr_binds e own first
    obtain ⟨grows', bound'⟩ := exprs_binds es rest second
    exact ⟨grows.trans grows' apart, bound.carry (grows'.carries apart), bound'⟩

end

theorem declareAll_binds {kind : SymbolKind} {ty : Ty} (plain : kind.params? = none) :
    (names : List Ident) → {b b' : Binder} → {u : Unit} → (names.map Ident.id).Nodup →
    names.forM (fun name => discard (declare here name kind ty)) b = .ok (u, b') →
      b.Grows b' (names.map Ident.id) [] [] ∧
        ∀ name ∈ names, b'.tables.Declares here name kind ty
  | [], b, b', u, _, h => by
    obtain ⟨-, rfl⟩ := state_pure_ok.mp h
    exact ⟨.of_eq rfl rfl rfl, by simp⟩
  | name :: names, b, b', u, distinct, h => by
    simp only [List.forM_eq_forM, List.forM_cons, state_bind_ok, state_discard_ok] at h
    obtain ⟨_, c, ⟨v, first⟩, second⟩ := h
    obtain ⟨out, rest⟩ := List.nodup_cons.mp distinct
    obtain ⟨-, made⟩ := declare_declared first
    obtain ⟨grows, declares⟩ := declareAll_binds plain names rest second
    refine ⟨then_grows (made.grows plain) grows out, ?_⟩
    intro n mem
    rcases List.mem_cons.mp mem with rfl | mem
    · have low : b.size < c.size := by rw [made.size]; omega
      refine ⟨b.size, _, ⟨?_, (grows.symbols _ low).trans made.names.2⟩, rfl, rfl, rfl⟩
      exact (grows.bindings _ out).trans made.names.1
    · exact declares n mem

theorem destinations_binds : (names : List Ident) → {b b' : Binder} → {u : Unit} →
    (names.map Ident.id).Nodup →
    names.forM (fun name => discard (destination here name)) b = .ok (u, b') →
      b.Grows b' (names.map Ident.id) [] [] ∧
        ∀ name ∈ names, b'.tables.Uses here name (· = .variable)
  | [], b, b', u, _, h => by
    obtain ⟨-, rfl⟩ := state_pure_ok.mp h
    exact ⟨.of_eq rfl rfl rfl, by simp⟩
  | name :: names, b, b', u, distinct, h => by
    simp only [List.forM_eq_forM, List.forM_cons, state_bind_ok, state_discard_ok] at h
    obtain ⟨_, c, ⟨v, first⟩, second⟩ := h
    obtain ⟨out, rest⟩ := List.nodup_cons.mp distinct
    obtain ⟨grows, use⟩ := destination_binds first
    obtain ⟨grows', uses⟩ := destinations_binds names rest second
    refine ⟨then_grows grows grows' out, ?_⟩
    intro n mem
    rcases List.mem_cons.mp mem with rfl | mem
    · exact grows'.uses (by simpa using out) use
    · exact uses n mem

theorem target_binds {t : Target} {u : Unit} (distinct : t.ids.Nodup)
    (h : target here t b = .ok (u, b')) :
    b.Grows b' t.ids t.exprs [] ∧ t.Bound b'.tables here := by
  cases t with
  | var name =>
    simp only [target, state_discard_ok] at h
    obtain ⟨v, h⟩ := h
    exact destination_binds h
  | index array i =>
    simp only [target, state_bind_ok, state_discard_ok] at h
    obtain ⟨_, c, ⟨v, first⟩, second⟩ := h
    obtain ⟨out, rest⟩ := List.nodup_cons.mp distinct
    obtain ⟨id, s, referred⟩ := useArray_ok first
    obtain ⟨grows, use⟩ := referred.binds
    obtain ⟨grows', bound⟩ := expr_binds i rest second
    refine ⟨then_grows grows grows' out, ?_, bound⟩
    exact grows'.uses (by simpa using out) use

theorem targets_binds : (ts : List Target) → {b b' : Binder} → {u : Unit} →
    (Target.idsAll ts).Nodup → ts.forM (target here) b = .ok (u, b') →
      b.Grows b' (Target.idsAll ts) (Target.exprsAll ts) [] ∧
        ∀ t ∈ ts, t.Bound b'.tables here
  | [], b, b', u, _, h => by
    obtain ⟨-, rfl⟩ := state_pure_ok.mp h
    exact ⟨.of_eq rfl rfl rfl, by simp⟩
  | t :: ts, b, b', u, distinct, h => by
    simp only [List.forM_eq_forM, List.forM_cons, state_bind_ok] at h
    obtain ⟨_, c, first, second⟩ := h
    obtain ⟨own, rest, apart⟩ := List.nodup_append.mp distinct
    have apart : ∀ k ∈ t.ids, k ∉ Target.idsAll ts := fun k hl hr => apart k hl k hr rfl
    obtain ⟨grows, bound⟩ := target_binds own first
    obtain ⟨grows', bounds⟩ := targets_binds ts rest second
    refine ⟨grows.trans grows' apart, ?_⟩
    intro t' mem
    rcases List.mem_cons.mp mem with rfl | mem
    · exact bound.carry (grows'.carries apart)
    · exact bounds t' mem

/-- Parameters are numbered one after the other. -/
theorem declareParams_binds {method : SymbolId} : (ps : List Param) → {b b' : Binder} →
    {ids : List SymbolId} → (ps.map (·.name.id)).Nodup →
    declareParams method ps b = .ok (ids, b') →
      b.Grows b' (ps.map (·.name.id)) [] [] ∧ ids = List.range' b.size ps.length ∧
        b'.size = b.size + ps.length ∧ List.Forall₂ (b'.tables.DeclaresParam method) ps ids
  | [], b, b', ids, _, h => by
    obtain ⟨rfl, rfl⟩ := state_pure_ok.mp h
    exact ⟨.of_eq rfl rfl rfl, rfl, rfl, .nil⟩
  | p :: ps, b, b', ids, distinct, h => by
    simp only [declareParams, state_bind_ok, state_pure_ok] at h
    obtain ⟨v, c, first, more, d, second, rfl, rfl⟩ := h
    obtain ⟨out, rest⟩ := List.nodup_cons.mp distinct
    obtain ⟨rfl, made⟩ := declare_declared first
    obtain ⟨grows, rfl, size, declares⟩ := declareParams_binds ps rest second
    have low : b.size < c.size := by rw [made.size]; omega
    refine ⟨then_grows (made.grows rfl) grows out, ?_, ?_, .cons ?_ declares⟩
    · rw [List.length_cons, List.range'_succ, made.size]
    · rw [size, made.size, List.length_cons]
      omega
    · refine ⟨_, ⟨?_, (grows.symbols _ low).trans made.names.2⟩, rfl, rfl, ?_⟩
      · exact (grows.bindings _ out).trans made.names.1
      · intro ty written
        simp [written]

/-- What a method's symbol is before its parameters are known. -/
def headless (name : Ident) (result : Option Ty) : Symbol :=
  ⟨name.name, Analysis.methodKind result [], result.getD .undefined, none, name.span⟩

theorem declareMethod_declared {result : Option Ty} {v : SymbolId}
    (h : declareMethod name result b = .ok (v, b')) :
    v = b.size ∧ Declared b b' name (headless name result) := by
  cases result with
  | none => exact declare_declared h
  | some ty => exact declare_declared h

theorem methodKind_withParams (result : Option Ty) (ps qs : List SymbolId) :
    (Analysis.methodKind result ps).withParams qs = Analysis.methodKind result qs := by
  cases result <;> rfl

theorem methodKind_params (result : Option Ty) (ps : List SymbolId) :
    (Analysis.methodKind result ps).params? = some ps := by
  cases result <;> rfl

theorem params_withParams {kind : SymbolKind} {qs ps : List SymbolId}
    (h : (kind.withParams qs).params? = some ps) : ps = qs := by
  cases kind with
  | procedure | function => exact (Option.some.inj h).symm
  | _ => cases h

/-- A method may be given any symbols as its parameters. -/
theorem setParams_grounded {m : SymbolId} {ids : List SymbolId} (ground : b.tables.Grounded)
    (low : ∀ q ∈ ids, q < b.size) :
    ({ b with scopes := b.scopes.setParams m ids } : Binder).tables.Grounded := by
  have size : (b.scopes.setParams m ids).symbols.size = b.size := by
    simp [Scopes.setParams, Binder.size]
  constructor
  · intro k id found
    exact (ground.bindings k id found).trans_eq size.symm
  · intro i s ps found kind q mem
    refine Nat.lt_of_lt_of_eq ?_ size.symm
    by_cases head : m = i
    · change (b.scopes.setParams m ids).symbols[i]? = some s at found
      rw [Scopes.setParams, Array.getElem?_modify, if_pos head] at found
      obtain ⟨t, -, rfl⟩ := Option.map_eq_some_iff.mp found
      exact low q (params_withParams kind ▸ mem)
    · have old := (b.scopes.setParams_symbols_of_ne ids head).symm.trans found
      exact ground.params i s ps old kind q mem

/-- The name and the parameters of a method, up to its body. -/
theorem head_binds {c d e : Binder} {params : List Param} {result : Option Ty} {body : List Stmt}
    {ids : List SymbolId} (made : Declared b b' name (headless name result))
    (same : c.scopes.symbols = b'.scopes.symbols ∧ c.bindings = b'.bindings ∧ c.types = b'.types)
    (distinct : (name.id :: params.map (·.name.id)).Nodup)
    (h : declareParams b.size params c = .ok (ids, d))
    (given : e = { d with scopes := d.scopes.setParams b.size ids }) :
    b.Grows e (name.id :: params.map (·.name.id)) [] [⟨name, params, result, body⟩] ∧
      e.tables.Heads b.size name params result := by
  obtain ⟨symbols, bindings, types⟩ := same
  obtain ⟨out, rest⟩ := List.nodup_cons.mp distinct
  have csize : c.size = b.size + 1 := by rw [← made.size, Binder.size, symbols, Binder.size]
  obtain ⟨grows, rfl, dsize, declares⟩ := declareParams_binds params rest h
  have low : b.size < c.size := by omega
  have own : d.scopes.symbols[b.size]? = some (headless name result) := by
    rw [grows.symbols _ low, symbols]
    exact made.names.2
  have size : e.size = d.size := by simp [given, Scopes.setParams, Binder.size]
  have ebindings : e.bindings = d.bindings := by rw [given]
  have etypes : e.types = d.types := by rw [given]
  have ownName : e.bindings[name.id]? = some b.size := by
    rw [ebindings, grows.bindings _ out, bindings]
    exact made.names.1
  -- Only the method itself changes when it gets its parameters.
  have ownSymbol : e.scopes.symbols[b.size]? = some { headless name result with
      kind := Analysis.methodKind result (List.range' c.size params.length) } := by
    rw [given, Scopes.setParams, Array.getElem?_modify, if_pos rfl, own]
    simp [headless, methodKind_withParams]
  have others : ∀ i, i ≠ b.size → e.scopes.symbols[i]? = d.scopes.symbols[i]? := by
    intro i other
    rw [given, Scopes.setParams_symbols_of_ne _ _ (Ne.symm other)]
  constructor
  · refine ⟨by omega, ?_, ?_, ?_, ?_, by simp, ⟨[b.size], by simp [ownName], by simp, ?_⟩, ?_⟩
    · intro i small
      rw [others i (by omega), grows.symbols i (by omega), symbols]
      exact made.symbols_low small
    · intro k apart
      rw [List.mem_cons, not_or] at apart
      rw [ebindings, grows.bindings k apart.2, bindings, made.bindings, bindings_insert,
        if_neg (Ne.symm apart.1)]
    · intro k ty found
      rcases grows.types k ty (etypes ▸ found) with old | ⟨e, mem, -⟩
      · exact Or.inl (by rwa [types, made.types] at old)
      · simp at mem
    · intro ground
      have groundC : c.tables.Grounded := by
        have same : c.tables = b'.tables := by simp [Binder.tables, symbols, bindings, types]
        rw [same]
        exact made.grounded (by simp [headless, methodKind_params]) ground
      rw [given]
      refine setParams_grounded (grows.grounded groundC) fun q mem => ?_
      exact (List.mem_range'_1.mp mem).2.trans_eq dsize.symm
    · intro i mem
      obtain rfl := List.mem_singleton.mp mem
      omega
    · intro i s large found isMethod
      by_cases head : i = b.size
      · exact ⟨_, List.mem_singleton_self _, by rw [head]; exact ownName⟩
      · obtain ⟨m, mem, -⟩ :=
          grows.declared i s (by omega) ((others i head).symm.trans found) isMethod
        simp at mem
  · refine ⟨_, List.range' c.size params.length, ⟨ownName, ownSymbol⟩, rfl, rfl, rfl, ?_,
      List.nodup_range', ?_⟩
    · intro ty written
      simp [headless, written]
    · refine declares.imp ?_
      rintro p id ⟨s, named, kind, owner, written⟩
      have other : id ≠ b.size := by
        rintro rfl
        obtain rfl := Option.some.inj (own.symm.trans named.2)
        have params := methodKind_params result []
        rw [show Analysis.methodKind result [] = .variable from kind] at params
        simp [SymbolKind.params?] at params
      have name : e.bindings[p.name.id]? = some id := by rw [ebindings]; exact named.1
      exact ⟨s, ⟨name, (others id other).trans named.2⟩, kind, owner, written⟩

mutual

theorem stmt_binds : (s : Stmt) → {here : Option SymbolId} → {b b' : Binder} → {u : Unit} →
    s.ids.Nodup → stmt here s b = .ok (u, b') →
      b.Grows b' s.ids s.exprs s.methods ∧ s.Bound b'.tables here
  | .varDecl n ty names, here, b, b', u, distinct, h => by
    simp only [stmt] at h
    obtain ⟨grows, declares⟩ := declareAll_binds rfl names (List.nodup_append.mp distinct).1 h
    exact ⟨grows.relist (by simp [Stmt.ids]) (by simp), declares⟩
  | .arrayDecl n ty size names, here, b, b', u, distinct, h => by
    simp only [stmt, state_bind_ok] at h
    obtain ⟨_, c, first, second⟩ := h
    obtain ⟨own, rest, apart⟩ := List.nodup_append.mp (List.nodup_append.mp distinct).1
    have apart : ∀ k ∈ size.ids, k ∉ names.map Ident.id := fun k hl hr => apart k hl k hr rfl
    obtain ⟨grows, bound⟩ := expr_binds size own first
    obtain ⟨grows', declares⟩ := declareAll_binds rfl names rest second
    refine ⟨(grows.trans grows' apart).relist ?_ ?_, bound.carry (grows'.carries apart), declares⟩
    · simp [Stmt.ids]
    · simp [Stmt.exprs]
  | .method n name params result block body, here, b, b', u, distinct, h => by
    simp only [stmt, state_bind_ok] at h
    obtain ⟨method, c, first, _, d, entered, ids, e, second, _, f, given, _, g, third, left⟩ := h
    obtain ⟨rfl, made⟩ := declareMethod_declared first
    obtain ⟨-, rfl⟩ : () = _ ∧ { c with scopes := c.scopes.enter } = d := state_pure_ok.mp entered
    obtain ⟨-, given⟩ : () = _ ∧ { e with scopes := e.scopes.setParams b.size ids } = f :=
      state_pure_ok.mp given
    obtain ⟨-, rfl⟩ : () = u ∧ { g with scopes := g.scopes.exit } = b' := state_pure_ok.mp left
    have parts := distinct
    simp only [Stmt.ids] at parts
    rw [← List.cons_append, ← List.cons_append] at parts
    obtain ⟨heading, inside, apart⟩ := List.nodup_append.mp (List.nodup_append.mp parts).1
    have apart : ∀ k ∈ name.id :: params.map (·.name.id), k ∉ Stmt.idsAll body := fun k hl hr =>
      apart k hl k (List.mem_append_left _ hr) rfl
    obtain ⟨grows, head⟩ := head_binds (c := { c with scopes := c.scopes.enter }) (b := b)
      made ⟨rfl, rfl, rfl⟩ heading second given.symm
    obtain ⟨grows', bound⟩ := stmts_binds body (List.nodup_append.mp inside).1 third
    rw [Binder.exit_tables]
    refine ⟨(grows.trans grows' apart).exit.relist ?_ ?_, b.size, ?_, bound⟩
    · intro k
      simp only [Stmt.ids, List.mem_append, List.mem_cons]
      tauto
    · simp [Stmt.exprs]
    · exact (grows'.carries apart).heads List.mem_cons_self (List.subset_cons_self ..)
        (.inr grows'.fixes) (.inr grows'.fixes) head
  | .assign n targets values, here, b, b', u, distinct, h => by
    simp only [stmt] at h
    by_cases arity : (targets.length != values.length) = true
    · rw [if_pos arity, state_bind_ok] at h
      obtain ⟨_, c, thrown, -⟩ := h
      exact absurd thrown state_throw_ok
    · rw [if_neg arity, state_bind_ok] at h
      obtain ⟨_, c, first, second⟩ := h
      obtain ⟨own, rest, apart⟩ := List.nodup_append.mp (List.nodup_append.mp distinct).1
      have apart : ∀ k ∈ Expr.idsAll values, k ∉ Target.idsAll targets := fun k hl hr =>
        apart k hr k hl rfl
      obtain ⟨grows, bound⟩ := exprs_binds values rest first
      obtain ⟨grows', bound'⟩ := targets_binds targets own second
      refine ⟨(grows.trans grows' apart).relist ?_ ?_, by simpa using arity, bound',
        bound.carry (grows'.carries apart)⟩
      · intro k
        simp only [Stmt.ids, List.mem_append]
        tauto
      · intro e
        simp only [Stmt.exprs, List.mem_append]
        tauto
  | .input n names, here, b, b', u, distinct, h => by
    simp only [stmt] at h
    obtain ⟨grows, uses⟩ := destinations_binds names (List.nodup_append.mp distinct).1 h
    exact ⟨grows.relist (by simp [Stmt.ids]) (by simp), uses⟩
  | .print n value, here, b, b', u, distinct, h => by
    simp only [stmt] at h
    obtain ⟨grows, bound⟩ := expr_binds value (List.nodup_append.mp distinct).1 h
    exact ⟨grows.relist (by simp [Stmt.ids]) (by simp [Stmt.exprs]), bound⟩
  | .alternative n guards, here, b, b', u, distinct, h => by
    simp only [stmt] at h
    obtain ⟨grows, bound⟩ := guards_binds guards (List.nodup_append.mp distinct).1 h
    exact ⟨grows.relist (by simp [Stmt.ids]) (by simp [Stmt.exprs]), bound⟩
  | .iterative n guards, here, b, b', u, distinct, h => by
    simp only [stmt] at h
    obtain ⟨grows, bound⟩ := guards_binds guards (List.nodup_append.mp distinct).1 h
    exact ⟨grows.relist (by simp [Stmt.ids]) (by simp [Stmt.exprs]), bound⟩
  | .block n block body, here, b, b', u, distinct, h => by
    simp only [stmt, state_bind_ok] at h
    obtain ⟨_, c, entered, _, d, inner, left⟩ := h
    obtain ⟨-, rfl⟩ : () = _ ∧ { b with scopes := b.scopes.enter } = c := state_pure_ok.mp entered
    obtain ⟨-, rfl⟩ : () = u ∧ { d with scopes := d.scopes.exit } = b' := state_pure_ok.mp left
    have inside := (List.nodup_append.mp (List.nodup_append.mp distinct).1).1
    obtain ⟨grows, bound⟩ := stmts_binds body inside inner
    have opened : b.Grows { b with scopes := b.scopes.enter } [] [] [] := .of_eq rfl rfl rfl
    rw [Binder.exit_tables]
    refine ⟨(opened.trans grows (by simp)).exit.relist ?_ ?_, bound⟩
    · simp +contextual [Stmt.ids, List.subset_def]
    · simp [Stmt.exprs]
  | .ret n none, here, b, b', u, _, h => by
    simp only [stmt, state_pure_ok] at h
    obtain ⟨-, rfl⟩ := h
    exact ⟨(Binder.Grows.of_eq rfl rfl rfl).relist (by simp) (by simp), trivial⟩
  | .ret n (some value), here, b, b', u, distinct, h => by
    simp only [stmt] at h
    obtain ⟨grows, bound⟩ := expr_binds value (List.nodup_append.mp distinct).1 h
    exact ⟨grows.relist (by simp [Stmt.ids]) (by simp [Stmt.exprs]), bound⟩
  | .call n callee args, here, b, b', u, distinct, h => by
    simp only [stmt, state_bind_ok, state_discard_ok] at h
    obtain ⟨_, c, ⟨v, first⟩, second⟩ := h
    simp only [Stmt.ids, List.nodup_cons, List.nodup_append, List.mem_append, not_or] at distinct
    obtain ⟨id, s, referred⟩ := useMethod_ok first
    obtain ⟨grows, use⟩ := referred.binds
    obtain ⟨grows', bound⟩ := exprs_binds args distinct.2.1 second
    refine ⟨(then_grows grows grows' distinct.1.1).relist ?_ ?_, ?_, bound⟩
    · simp [Stmt.ids]
    · simp [Stmt.exprs]
    · exact grows'.uses (by simpa using distinct.1.1) use

theorem stmts_binds : (ss : List Stmt) → {here : Option SymbolId} → {b b' : Binder} → {u : Unit} →
    (Stmt.idsAll ss).Nodup → stmts here ss b = .ok (u, b') →
      b.Grows b' (Stmt.idsAll ss) (Stmt.exprsAll ss) (Stmt.methodsAll ss) ∧
        Stmt.BoundAll b'.tables here ss
  | [], here, b, b', u, _, h => by
    simp only [stmts, state_pure_ok] at h
    obtain ⟨-, rfl⟩ := h
    exact ⟨.of_eq rfl rfl rfl, trivial⟩
  | s :: ss, here, b, b', u, distinct, h => by
    simp only [stmts, state_bind_ok] at h
    obtain ⟨_, c, first, second⟩ := h
    obtain ⟨own, rest, apart⟩ := List.nodup_append.mp distinct
    have apart : ∀ k ∈ s.ids, k ∉ Stmt.idsAll ss := fun k hl hr => apart k hl k hr rfl
    obtain ⟨grows, bound⟩ := stmt_binds s own first
    obtain ⟨grows', bound'⟩ := stmts_binds ss rest second
    exact ⟨grows.trans grows' apart, bound.carry (.inr grows'.fixes) (grows'.carries apart), bound'⟩

theorem guards_binds : (gs : List Guard) → {here : Option SymbolId} → {b b' : Binder} →
    {u : Unit} → (Guard.idsAll gs).Nodup → guards here gs b = .ok (u, b') →
      b.Grows b' (Guard.idsAll gs) (Guard.exprsAll gs) (Guard.methodsAll gs) ∧
        Guard.BoundAll b'.tables here gs
  | [], here, b, b', u, _, h => by
    simp only [guards, state_pure_ok] at h
    obtain ⟨-, rfl⟩ := h
    exact ⟨.of_eq rfl rfl rfl, trivial⟩
  | .mk n cond body :: gs, here, b, b', u, distinct, h => by
    simp only [guards, state_bind_ok] at h
    obtain ⟨_, c, first, _, d, second, third⟩ := h
    obtain ⟨here', rest, apart⟩ := List.nodup_append.mp distinct
    obtain ⟨own, own', apart'⟩ := List.nodup_append.mp (List.nodup_append.mp here').1
    have apart : ∀ k ∈ cond.ids ++ body.ids, k ∉ Guard.idsAll gs := fun k hl hr =>
      apart k (List.mem_append_left _ hl) k hr rfl
    have apart' : ∀ k ∈ cond.ids, k ∉ body.ids := fun k hl hr => apart' k hl k hr rfl
    obtain ⟨grows, bound⟩ := expr_binds cond own first
    obtain ⟨grows', bound'⟩ := stmt_binds body own' second
    obtain ⟨grows'', bound''⟩ := guards_binds gs rest third
    have whole := (grows.trans grows' apart').trans grows'' apart
    have later := grows''.carries apart
    refine ⟨?_, ?_, ?_, bound''⟩
    · refine whole.relist ?_ ?_
      · intro k
        simp only [Guard.idsAll, List.mem_append]
        tauto
      · simp [Guard.exprsAll]
    · exact (bound.carry (grows'.carries apart')).carry
        (later.mono (List.subset_append_left ..))
    · exact bound'.carry (.inr grows''.fixes) (later.mono (List.subset_append_right ..))

end

end Bind

/-- The names of a program are bound, and its methods have been declared in order. -/
structure Program.Linked (p : Program) (a : Analysis) : Prop where
  bound : Stmt.BoundAll a none p.body
  grounded : a.Grounded
  ascending : ∃ ms : List Nat, p.methods.map (fun m => a.bindings[m.name.id]?) = ms.map some ∧
    ms.Pairwise (· < ·)
  declared : ∀ (i : Nat) (s : Symbol), a.symbols[i]? = some s → s.isMethod = true →
    ∃ m ∈ p.methods, a.bindings[m.name.id]? = some i

/-- Every method symbol has its declaration. -/
theorem Program.Linked.method {p : Program} {a : Analysis} (linked : p.Linked a) {i : Nat}
    {s : Symbol} (found : a.symbols[i]? = some s) (isMethod : s.isMethod = true) :
    ∃ m ∈ p.methods, a.Heads i m.name m.params m.result ∧ Stmt.BoundAll a (some i) m.body := by
  obtain ⟨m, mem, named⟩ := linked.declared i s found isMethod
  obtain ⟨id, heads, body⟩ := linked.bound.methods m mem
  have same : i = id := by
    obtain ⟨_, _, names, -⟩ := heads
    exact Option.some.inj (named.symm.trans names.1)
  exact ⟨m, mem, same ▸ heads, same ▸ body⟩

/-- Parameters are variables of their method. -/
theorem Program.Linked.param {p : Program} {a : Analysis} (linked : p.Linked a) {i q : Nat}
    (mem : q ∈ a.params i) :
    ∃ s, a.symbols[q]? = some s ∧ s.kind = .variable ∧ s.owner = some i := by
  cases found : a.symbols[i]? with
  | none => simp [Analysis.params, Analysis.symbolKind, found, SymbolKind.params?] at mem
  | some t =>
    have isMethod : t.isMethod = true := by
      cases kind : t.kind.params? with
      | none => simp [Analysis.params, Analysis.symbolKind, found, kind] at mem
      | some ps => simp [Symbol.isMethod, kind]
    obtain ⟨m, -, ⟨t', ids, names, -, -, kind, -, -, declares⟩, -⟩ := linked.method found isMethod
    obtain rfl := Option.some.inj (found.symm.trans names.2)
    have same : a.params i = ids := by
      simp [Analysis.params, Analysis.symbolKind, found, kind, Bind.methodKind_params]
    rw [same] at mem
    clear same kind
    generalize m.params = params at declares
    induction declares with
    | nil => cases mem
    | cons first _ ih =>
      rcases List.mem_cons.mp mem with rfl | mem
      · obtain ⟨s, named, kind, owner, -⟩ := first
        exact ⟨s, named.2, kind, owner⟩
      · exact ih mem

/-- Right after binding nothing but the literals has a type. -/
theorem Program.bind_linked_of_distinct {p : Program} {a : Analysis} (distinct : p.ids.Nodup)
    (h : p.bind = .ok a) : p.Linked a ∧
      ∀ k ty, a.types[k]? = some ty → ∃ e ∈ p.exprs, e.id = k ∧ e.literal? = some ty := by
  unfold Program.bind at h
  obtain ⟨⟨⟨⟩, b⟩, run, done⟩ := except_bind_ok.mp h
  obtain rfl : b.tables = a := by simpa [Binder.tables, pure, Except.pure] using done
  obtain ⟨grows, bound⟩ :=
    Bind.stmts_binds p.body (List.nodup_cons.mp distinct).2 run
  refine ⟨⟨bound, grows.grounded ⟨by simp [Binder.tables], by simp [Binder.tables, Scopes.empty]⟩,
    ?_, ?_⟩, ?_⟩
  · obtain ⟨ms, found, sorted, -⟩ := grows.ascending
    exact ⟨ms, found, sorted⟩
  · intro i s found isMethod
    exact grows.declared i s (Nat.zero_le _) found isMethod
  · intro k ty found
    rcases grows.types k ty found with old | new
    · simp at old
    · exact new

theorem Program.bind_linked {p : Program} {a : Analysis} (formed : p.WellFormed)
    (h : p.bind = .ok a) : p.Linked a ∧
      ∀ k ty, a.types[k]? = some ty → ∃ e ∈ p.exprs, e.id = k ∧ e.literal? = some ty :=
  bind_linked_of_distinct formed.distinct h

/-- Tables that differ in types only, where a type of values stays as it is. -/
structure Analysis.Retypes (a b : Analysis) : Prop where
  bindings : b.bindings = a.bindings
  size : b.symbols.size = a.symbols.size
  symbols : ∀ (i : Nat) (s : Symbol), a.symbols[i]? = some s →
    ∃ ty, (s.ty.isTerminal = true → ty = s.ty) ∧ b.symbols[i]? = some { s with ty }

namespace Analysis.Retypes
variable {a b : Analysis}

/-- The symbol a retyped symbol comes from. -/
theorem symbol_before (h : a.Retypes b) {i : Nat} {t : Symbol} (found : b.symbols[i]? = some t) :
    ∃ s, a.symbols[i]? = some s ∧ t = { s with ty := t.ty } := by
  have low : i < a.symbols.size := h.size ▸ (Array.getElem?_eq_some_iff.mp found).1
  obtain ⟨ty, -, found'⟩ := h.symbols i _ (Array.getElem?_eq_getElem low)
  obtain rfl := Option.some.inj (found'.symm.trans found)
  exact ⟨_, Array.getElem?_eq_getElem low, rfl⟩

theorem symbolKind (h : a.Retypes b) (i : Nat) : b.symbolKind i = a.symbolKind i := by
  cases found : a.symbols[i]? with
  | none =>
    have missing : b.symbols[i]? = none := by
      rw [Array.getElem?_eq_none_iff] at found ⊢
      rw [h.size]
      exact found
    simp [Analysis.symbolKind, found, missing]
  | some s =>
    obtain ⟨ty, -, found'⟩ := h.symbols i s found
    simp [Analysis.symbolKind, found, found']

theorem params (h : a.Retypes b) (i : Nat) : b.params i = a.params i := by
  rw [Analysis.params, h.symbolKind, Analysis.params]

theorem carries (h : a.Retypes b) (ids : List NodeId) : a.Carries b ids where
  bindings k _ := by rw [h.bindings]
  symbols i s found := by
    obtain ⟨ty, same, found'⟩ := h.symbols i s found
    exact ⟨_, found', rfl, rfl, rfl, same⟩

theorem grounded (h : a.Retypes b) (ground : a.Grounded) : b.Grounded where
  bindings k id found := by
    rw [h.bindings] at found
    rw [h.size]
    exact ground.bindings k id found
  params i t ps found kind p mem := by
    obtain ⟨s, found', same⟩ := h.symbol_before found
    rw [h.size]
    rw [same] at kind
    exact ground.params i s ps found' kind p mem

theorem linked (h : a.Retypes b) {p : Program} (proper : Stmt.ProperAll p.body)
    (linked : p.Linked a) : p.Linked b where
  bound := linked.bound.carry (.inl proper) (h.carries _)
  grounded := h.grounded linked.grounded
  ascending := by
    rw [h.bindings]
    exact linked.ascending
  declared i t found isMethod := by
    obtain ⟨s, found', same⟩ := h.symbol_before found
    rw [same] at isMethod
    rw [h.bindings]
    exact linked.declared i s found' isMethod

end Analysis.Retypes

end Guarded
