import Guarded.Proofs.Resolution
import Guarded.Proofs.ScopeTables
import Mathlib.Data.List.Perm.Basic

/-!
Names are bound by lexical scoping. The walk that binds them keeps track of its site and of what has
been declared: a step may enter a scope, leave it or visit a name, and the names that are visited are
resolved.
-/

namespace Guarded

namespace Binder

/-- A binder stands at this site after these declarations. -/
structure Tracks (b : Binder) (site : Site) (decls : List Occurrence) : Prop where
  size : b.size = decls.length
  chain : b.scopes.Chain decls b.scopes.current site.scopes

/-- A number that has not been used, for a name or for a scope. -/
structure Fresh (b : Binder) (site : Site) (decls : List Occurrence) (k : NodeId) : Prop where
  unbound : b.bindings[k]? = none
  outside : k ∉ site.scopes
  undeclared : ∀ d ∈ decls, k ∉ d.site.scopes

theorem Fresh.undeclared_snoc {b : Binder} {decls : List Occurrence} {o : Occurrence} {k : NodeId}
    (h : b.Fresh o.site decls k) : ∀ d ∈ decls ++ [o], k ∉ d.site.scopes := by
  intro d mem
  rcases List.mem_append.mp mem with old | own
  · exact h.undeclared d old
  · rw [List.mem_singleton.mp own]
    exact h.outside

/-- What is needed to visit names with these numbers in the method `here`. -/
structure Ready (b : Binder) (here : Option SymbolId) (site : Site) (decls : List Occurrence)
    (ids : List NodeId) : Prop where
  tracks : b.Tracks site decls
  inside : site.Inside b.tables here
  distinct : ids.Nodup
  fresh : ∀ k ∈ ids, b.Fresh site decls k

/-- What a binder keeps up, from one site to another, while it visits these names. The numbers are
those of the names and of the scopes that are entered. -/
structure Walks (b b' : Binder) (site site' : Site) (decls : List Occurrence)
    (ids : List NodeId) (os : List Occurrence) : Prop where
  tracks : b'.Tracks site' (declarations decls os)
  extended : b.tables.Extends b'.tables
  bindings : ∀ k, k ∉ os.map (·.name.id) → b'.bindings[k]? = b.bindings[k]?
  fresh : ∀ k, k ∉ ids → b.Fresh site decls k → b'.Fresh site' (declarations decls os) k

/-- A binder visits names at one site, and binds them as it should. -/
structure Visits (b b' : Binder) (site : Site) (decls : List Occurrence) (ids : List NodeId)
    (os : List Occurrence) : Prop extends b.Walks b' site site decls ids os where
  resolved : Resolves b'.tables decls os

section
variable {b c d : Binder} {here : Option SymbolId} {site site' site'' : Site}
  {decls : List Occurrence} {xs ys : List NodeId} {os ps : List Occurrence} {o : Occurrence}
  {id : SymbolId}

/-- A name that is found belongs to the innermost declaration that is seen. -/
theorem Tracks.lookup_some (h : b.Tracks o.site decls)
    (look : b.scopes.lookup o.name.name = some id) :
    ∃ d, decls[id]? = some d ∧ o.Sees d ∧
      ∀ d' ∈ decls, o.Sees d' → d'.site.scopes <:+ d.site.scopes := by
  obtain ⟨d, found, innermost⟩ := h.chain.lookup_some look
  refine ⟨d, found, ⟨innermost.named, innermost.around⟩, fun d' mem sees => ?_⟩
  exact innermost.inner d' mem sees.1 sees.2

/-- A name that is not found sees no declaration. -/
theorem Tracks.lookup_none (h : b.Tracks o.site decls) (look : b.scopes.lookup o.name.name = none) :
    ∀ d ∈ decls, ¬o.Sees d := by
  obtain ⟨_, _, found, -⟩ := h.chain.head
  have low := (Array.getElem?_eq_some_iff.mp found).1
  intro d mem sees
  exact h.chain.lookup_none low look d mem sees.1 sees.2

/-- Fewer numbers are needed. -/
theorem Ready.sub (h : b.Ready here site decls ys) (sub : xs.Subperm ys) :
    b.Ready here site decls xs := by
  obtain ⟨zs, perm, sub⟩ := sub
  refine ⟨h.tracks, h.inside, perm.nodup_iff.mp (sub.nodup h.distinct), fun k mem => ?_⟩
  exact h.fresh k (sub.subset (perm.mem_iff.mpr mem))

theorem Ready.left (h : b.Ready here site decls (xs ++ ys)) : b.Ready here site decls xs :=
  h.sub (List.sublist_append_left ..).subperm

namespace Walks

theorem trans (first : b.Walks c site site' decls xs os)
    (second : c.Walks d site' site'' (declarations decls os) ys ps) :
    b.Walks d site site'' decls (xs ++ ys) (os ++ ps) where
  tracks := declarations_append .. ▸ second.tracks
  extended := first.extended.trans second.extended
  bindings k out := by
    rw [List.map_append, List.mem_append, not_or] at out
    exact (second.bindings k out.2).trans (first.bindings k out.1)
  fresh k out new := by
    rw [List.mem_append, not_or] at out
    exact declarations_append .. ▸ second.fresh k out.2 (first.fresh k out.1 new)

/-- More numbers may be listed. -/
theorem relist (h : b.Walks c site site' decls xs os) (sub : xs ⊆ ys) :
    b.Walks c site site' decls ys os :=
  { h with fresh := fun k out new => h.fresh k (fun mem => out (sub mem)) new }

/-- What comes next can be visited. -/
theorem ready {here' : Option SymbolId} (h : b.Walks c site site' decls xs os)
    (before : b.Ready here site decls (xs ++ ys)) (inside : site'.Inside c.tables here') :
    c.Ready here' site' (declarations decls os) ys := by
  obtain ⟨-, rest, apart⟩ := List.nodup_append.mp before.distinct
  refine ⟨h.tracks, inside, rest, fun k mem => ?_⟩
  refine h.fresh k (fun own => apart k own k mem rfl) (before.fresh k ?_)
  exact List.mem_append_right _ mem

/-- Nothing but the scopes changes. -/
theorem of_scopes (tracks : c.Tracks site' decls) (symbols : c.scopes.symbols = b.scopes.symbols)
    (bindings : c.bindings = b.bindings)
    (outside : ∀ k, k ∉ xs → k ∉ site.scopes → k ∉ site'.scopes) :
    b.Walks c site site' decls xs [] where
  tracks := tracks
  extended := ⟨by simp [Binder.tables, bindings], by simp [Binder.tables, symbols]⟩
  bindings := by simp [bindings]
  fresh k out new := ⟨bindings ▸ new.unbound, outside k out new.outside, new.undeclared⟩

/-- A scope is entered. -/
theorem enter {n : NodeId} (tracks : b.Tracks site decls) (new : ∀ d ∈ decls, n ∉ d.site.scopes)
    (scopes : site'.scopes = n :: site.scopes) :
    b.Walks { b with scopes := b.scopes.enter } site site' decls [n] [] := by
  refine of_scopes ⟨tracks.size, ?_⟩ rfl rfl ?_
  · rw [scopes]
    exact tracks.chain.enter new
  · intro k out outside
    rw [scopes, List.mem_cons, not_or]
    exact ⟨by simpa using out, outside⟩

/-- A scope is left. -/
theorem exit {n : NodeId} (tracks : b.Tracks site decls) (scopes : site.scopes = n :: site'.scopes) :
    b.Walks { b with scopes := b.scopes.exit } site site' decls [] [] := by
  have symbols := b.scopes.exit_symbols
  refine of_scopes ⟨?_, ?_⟩ symbols rfl ?_
  · rw [← tracks.size, Binder.size, symbols, Binder.size]
  · exact (scopes ▸ tracks.chain).exit
  · intro k _ outside inside
    exact outside (scopes ▸ List.mem_cons_of_mem n inside)

/-- A method gets its parameters, after it was declared. -/
theorem setParams (h : b.Walks c site site' decls xs os) {m : SymbolId} (new : b.size ≤ m)
    (ids : List SymbolId) :
    b.Walks { c with scopes := c.scopes.setParams m ids } site site' decls xs os where
  tracks := by
    refine ⟨?_, h.tracks.chain.carry (fun _ _ => rfl) fun _ _ _ listed => listed⟩
    simpa [Binder.size, Scopes.setParams] using h.tracks.size
  extended := by
    refine ⟨h.extended.bindings, fun i s found => ?_⟩
    have low : i < b.size := (Array.getElem?_eq_some_iff.mp found).1
    have other : m ≠ i := (low.trans_le new).ne'
    exact (c.scopes.setParams_symbols_of_ne ids other).trans (h.extended.symbols i s found)
  bindings := h.bindings
  fresh k out new := ⟨(h.fresh k out new).unbound, (h.fresh k out new).outside,
    (h.fresh k out new).undeclared⟩

/-- After the names in front of a scope, and those in it, the scope is left. -/
theorem around {n : NodeId} (opened : b.Walks c site site' decls xs os)
    (resolved : Resolves c.tables decls os) (visits : c.Visits d site' (declarations decls os) ys ps)
    (scopes : site'.scopes = n :: site.scopes) :
    b.Visits { d with scopes := d.scopes.exit } site decls (xs ++ ys) (os ++ ps) := by
  have left : d.Walks { d with scopes := d.scopes.exit } site' site
      (declarations (declarations decls os) ps) [] [] := .exit visits.tracks scopes
  have walks := (opened.trans visits.toWalks).trans (declarations_append decls os ps ▸ left)
  rw [List.append_nil, List.append_nil] at walks
  refine ⟨walks, resolves_append.mpr ⟨?_, visits.resolved.mono left.extended⟩⟩
  exact resolved.mono (visits.extended.trans left.extended)

end Walks

theorem Visits.trans (first : b.Visits c site decls xs os)
    (second : c.Visits d site (declarations decls os) ys ps) :
    b.Visits d site decls (xs ++ ys) (os ++ ps) :=
  ⟨first.toWalks.trans second.toWalks,
    resolves_append.mpr ⟨first.resolved.mono second.extended, second.resolved⟩⟩

theorem Visits.relist (h : b.Visits c site decls xs os) (sub : xs ⊆ ys) :
    b.Visits c site decls ys os :=
  ⟨h.toWalks.relist sub, h.resolved⟩

end

end Binder

namespace Bind
variable {b b' : Binder} {here : Option SymbolId} {site : Site} {decls : List Occurrence}

/-- A number that was not used is bound, and nothing else changes. -/
theorem insert_extends {m : Std.TreeMap NodeId SymbolId} {k : NodeId} (new : m[k]? = none)
    (id : SymbolId) (j : NodeId) (old : SymbolId) (found : m[j]? = some old) :
    (m.insert k id)[j]? = some old := by
  rw [bindings_insert, if_neg, found]
  rintro rfl
  cases new.symm.trans found

/-- A name that refers is visited. -/
theorem Referred.visits (o : Occurrence) {fits : SymbolKind → Prop} {id : SymbolId} {s : Symbol}
    (h : Referred b b' here o.name fits id s) (ready : b.Ready here o.site decls [o.name.id])
    (refers : ¬o.Declares decls) (needs : o.role.Needs b'.tables s.kind) :
    b.Visits b' o.site decls [o.name.id] [o] := by
  have same := declarations_refers refers
  have new := ready.fresh _ (List.mem_singleton_self _)
  have extended : b.tables.Extends b'.tables := by
    rw [h.recorded]
    exact ⟨insert_extends new.unbound id, fun _ _ found => found⟩
  refine ⟨⟨?_, extended, ?_, ?_⟩, ⟨id, s, ⟨?_, ?_⟩, needs, ?_⟩, trivial⟩
  · rw [same, h.recorded]
    exact ⟨ready.tracks.size, ready.tracks.chain⟩
  · intro k out
    rw [h.recorded, bindings_insert, if_neg (by simpa [eq_comm] using out)]
  · intro k out fresh
    rw [same, h.recorded]
    refine ⟨?_, fresh.outside, fresh.undeclared⟩
    rw [bindings_insert, if_neg (by simpa [eq_comm] using out), fresh.unbound]
  · simp [h.recorded, Binder.tables]
  · rw [h.recorded]
    exact h.found
  · rw [if_neg refers]
    refine ⟨ready.tracks.lookup_some h.looked, h.owner.imp_right fun own => ?_⟩
    rw [own]
    exact ready.inside.mono extended.bindings

namespace Declared
variable (o : Occurrence) {s : Symbol} (h : Declared b b' o.name s)
  (ready : b.Ready here o.site decls [o.name.id])
include h ready

/-- A name that declares is the only one of its name in its scope. -/
theorem tracks (named : s.name = o.name.name) :
    (∀ d ∈ decls, d.Apart o) ∧ b'.Tracks o.site (decls ++ [o]) := by
  obtain ⟨only, chain⟩ := ready.tracks.chain.declare ready.tracks.size named h.scopes
  refine ⟨only, ?_, chain⟩
  rw [h.size, ready.tracks.size, List.length_append, List.length_singleton]

theorem walks (named : s.name = o.name.name) (declares : o.Declares decls) :
    b.Walks b' o.site o.site decls [o.name.id] [o] := by
  have more := declarations_declares declares
  have new := ready.fresh _ (List.mem_singleton_self _)
  refine ⟨more ▸ (h.tracks o ready named).2, ⟨?_, ?_⟩, ?_, ?_⟩
  · rw [Binder.tables, Binder.tables, h.bindings]
    exact insert_extends new.unbound b.size
  · intro i t found
    have low : i < b.size := (Array.getElem?_eq_some_iff.mp found).1
    exact (h.symbols_low low).trans found
  · intro k out
    rw [h.bindings, bindings_insert, if_neg (by simpa [eq_comm] using out)]
  · intro k out fresh
    refine ⟨?_, fresh.outside, more ▸ fresh.undeclared_snoc⟩
    rw [h.bindings, bindings_insert, if_neg (by simpa [eq_comm] using out), fresh.unbound]

/-- A variable or an array is declared. -/
theorem visits (named : s.name = o.name.name) (declares : o.Declares decls)
    (plain : o.role.isMethod = false) (owner : s.owner = here)
    (needs : o.role.Needs b'.tables s.kind) : b.Visits b' o.site decls [o.name.id] [o] := by
  have walks := h.walks o ready named declares
  refine ⟨walks, ⟨b.size, s, h.names, needs, ?_⟩, trivial⟩
  rw [if_pos declares]
  refine ⟨ready.tracks.size, (h.tracks o ready named).1, named, ?_⟩
  rw [plain, owner]
  exact ready.inside.mono walks.extended.bindings

end Declared

/-- An action in the method `here` visits these names at a site. -/
def Visits (here : Option SymbolId) (site : Site) (ids : List NodeId) (os : List Occurrence)
    {α : Type} (x : Bind α) : Prop :=
  ∀ ⦃b b' : Binder⦄ ⦃v : α⦄ ⦃decls : List Occurrence⦄, b.Ready here site decls ids →
    x b = .ok (v, b') → b.Visits b' site decls ids os

namespace Visits
variable {α β : Type} {x : Bind α} {f : α → Bind β} {xs ys : List NodeId} {os ps : List Occurrence}

/-- Nothing is visited. -/
theorem of_eq
    (same : ∀ b b' v, x b = .ok (v, b') → b'.scopes = b.scopes ∧ b'.bindings = b.bindings) :
    Visits here site [] [] x := by
  intro b b' v decls ready h
  obtain ⟨scopes, bindings⟩ := same b b' v h
  refine ⟨.of_scopes ⟨?_, ?_⟩ (by rw [scopes]) bindings fun _ _ outside => outside, trivial⟩
  · rw [Binder.size, scopes]
    exact ready.tracks.size
  · rw [scopes]
    exact ready.tracks.chain

theorem pure (v : α) : Visits here site [] [] (pure v : Bind α) := by
  refine of_eq fun b b' w h => ?_
  obtain ⟨-, rfl⟩ := state_pure_ok.mp h
  exact ⟨rfl, rfl⟩

theorem bind (first : Visits here site xs os x) (second : ∀ v, Visits here site ys ps (f v)) :
    Visits here site (xs ++ ys) (os ++ ps) (x >>= f) := by
  intro b b' w decls ready h
  obtain ⟨v, c, h, h'⟩ := state_bind_ok.mp h
  have visited := first ready.left h
  have inside := ready.inside.mono visited.extended.bindings
  exact visited.trans (second v (visited.ready ready inside) h')

theorem discard (h : Visits here site xs os x) : Visits here site xs os (discard x) := by
  intro b b' u decls ready run
  obtain ⟨v, run⟩ := state_discard_ok.mp run
  exact h ready run

/-- More numbers may be listed, in another order. -/
theorem relist (h : Visits here site xs os x) (sub : xs.Subperm ys) : Visits here site ys os x := by
  intro b b' v decls ready run
  exact (h (ready.sub sub) run).relist sub.subset

theorem forM {γ : Type} {act : γ → Bind Unit} {ids : γ → List NodeId} {names : γ → List Occurrence}
    (each : ∀ y, Visits here site (ids y) (names y) (act y)) (items : List γ) :
    Visits here site (items.flatMap ids) (items.flatMap names) (items.forM act) := by
  induction items with
  | nil => exact pure ()
  | cons y items ih =>
    rw [List.flatMap_cons, List.flatMap_cons, List.forM_eq_forM, List.forM_cons]
    exact (each y).bind fun _ => ih

end Visits

theorem annotate_visits (node : NodeId) (ty : Ty) : Visits here site [] [] (annotate node ty) := by
  refine .of_eq fun b b' v h => ?_
  obtain ⟨-, rfl⟩ : () = v ∧ { b with types := b.types.insert node ty } = b' := state_pure_ok.mp h
  exact ⟨rfl, rfl⟩

theorem useVariable_visits (name : Ident) :
    Visits here site [name.id] [⟨name, .read, site⟩] (useVariable here name) := by
  intro b b' v decls ready h
  obtain ⟨id, s, referred⟩ := useVariable_ok h
  exact referred.visits ⟨name, .read, site⟩ ready
    (by simp [Occurrence.Declares, Role.isDeclaration]) referred.kind

theorem useArray_visits (name : Ident) :
    Visits here site [name.id] [⟨name, .element, site⟩] (useArray here name) := by
  intro b b' v decls ready h
  obtain ⟨id, s, referred⟩ := useArray_ok h
  exact referred.visits ⟨name, .element, site⟩ ready
    (by simp [Occurrence.Declares, Role.isDeclaration]) referred.kind

theorem useMethod_visits (function : Bool) (name : Ident) (count : Nat) (span : Span) :
    Visits here site [name.id] [⟨name, .called function count, site⟩]
      (useMethod here function name count span) := by
  intro b b' v decls ready h
  obtain ⟨id, s, referred⟩ := useMethod_ok h
  exact referred.visits ⟨name, .called function count, site⟩ ready
    (by simp [Occurrence.Declares, Role.isDeclaration]) referred.kind

/-- A destination refers to what its name is, and declares it if there is nothing yet. -/
theorem destination_visits (name : Ident) :
    Visits here site [name.id] [⟨name, .assigned, site⟩] (destination here name) := by
  intro b b' v decls ready h
  simp only [destination, state_bind_ok] at h
  obtain ⟨found, c, look, h⟩ := h
  obtain ⟨looked, rfl⟩ := lookup_ok look
  cases found with
  | some id =>
    obtain ⟨id, s, referred⟩ := useVariable_ok h
    obtain ⟨d, found, sees, -⟩ := ready.tracks.lookup_some (o := ⟨name, .assigned, site⟩) looked
    refine referred.visits ⟨name, .assigned, site⟩ ready ?_ referred.kind
    rintro (declares | ⟨-, unseen⟩)
    · cases declares
    · exact unseen d (List.mem_of_getElem? found) sees
  | none =>
    obtain ⟨-, made⟩ := declare_declared h
    have unseen := ready.tracks.lookup_none (o := ⟨name, .assigned, site⟩) looked
    exact made.visits ⟨name, .assigned, site⟩ ready rfl (.inr ⟨rfl, unseen⟩) rfl rfl rfl

theorem declare_visits (role : Role) {kind : SymbolKind} (declares : role.isDeclaration = true)
    (plain : role.isMethod = false) (needs : ∀ a, role.Needs a kind) (name : Ident) (ty : Ty) :
    Visits here site [name.id] [⟨name, role, site⟩] (declare here name kind ty) := by
  intro b b' v decls ready h
  obtain ⟨-, made⟩ := declare_declared h
  exact made.visits ⟨name, role, site⟩ ready rfl (.inl declares) plain rfl (needs _)

theorem declareParams_visits (method : SymbolId) : (ps : List Param) →
    Visits (some method) site (ps.map (·.name.id)) (Param.occurrences site ps)
      (declareParams method ps)
  | [] => .pure []
  | p :: ps => by
    have first : Visits (some method) site [p.name.id] [⟨p.name, .variable, site⟩]
        (declare (some method) p.name .variable (p.ty.getD .undefined)) :=
      declare_visits .variable rfl rfl (fun _ => rfl) p.name _
    refine first.bind fun id => ?_
    have rest := (declareParams_visits method ps).bind fun ids => .pure (id :: ids)
    rwa [List.append_nil, List.append_nil] at rest

mutual

theorem expr_visits : (e : Expr) → Visits here site e.ids (e.occurrences site) (expr here e)
  | .int n _ | .float n _ | .bool n _ => (annotate_visits n.id _).relist List.nil_subperm
  | .var _ name => (useVariable_visits name).discard.relist (List.sublist_append_left ..).subperm
  | .index _ array i =>
    ((useArray_visits array).discard.bind fun _ => expr_visits i).relist
      ((List.sublist_append_left ..).cons_cons array.id).subperm
  | .call n callee args =>
    ((useMethod_visits true callee args.length n.span).discard.bind fun _ =>
      exprs_visits args).relist ((List.sublist_append_left ..).cons_cons callee.id).subperm
  | .paren _ inner => (expr_visits inner).relist (List.sublist_append_left ..).subperm
  | .unary _ _ operand => (expr_visits operand).relist (List.sublist_append_left ..).subperm
  | .binary _ _ lhs rhs =>
    ((expr_visits lhs).bind fun _ => expr_visits rhs).relist
      (List.sublist_append_left ..).subperm

theorem exprs_visits : (es : List Expr) →
    Visits here site (Expr.idsAll es) (Expr.occurrencesAll site es) (exprs here es)
  | [] => .pure ()
  | e :: es => (expr_visits e).bind fun _ => exprs_visits es

end

/-- The name and the parameters of a method, up to its body. -/
theorem head_visits {c e f : Binder} {name : Ident} {params : List Param} {result : Option Ty}
    {method : SymbolId} {ids : List SymbolId} {m : Occurrence}
    (own : m = ⟨name, .method result.isSome (params.map Param.name), site⟩)
    (ready : b.Ready here site decls (name.id :: params.map (·.name.id)))
    (first : declareMethod name result b = .ok (method, c))
    (second : declareParams method params { c with scopes := c.scopes.enter } = .ok (ids, e))
    (given : { e with scopes := e.scopes.setParams method ids } = f) :
    b.Walks f site (site.inMethod name) decls (name.id :: params.map (·.name.id))
        (m :: Param.occurrences (site.inMethod name) params) ∧
      Resolves f.tables decls (m :: Param.occurrences (site.inMethod name) params) ∧
      (site.inMethod name).Inside f.tables (some method) := by
  obtain ⟨rfl, made⟩ := declareMethod_declared first
  obtain rfl : m.name = name := by rw [own]
  obtain rfl : m.site = site := by rw [own]
  have declares : m.Declares decls := .inl (by rw [own]; rfl)
  have new := ready.fresh _ List.mem_cons_self
  have walks : b.Walks c m.site m.site decls [m.name.id] [m] :=
    made.walks m ready.left rfl declares
  have opened : c.Walks { c with scopes := c.scopes.enter } m.site (m.site.inMethod m.name)
      (declarations decls [m]) [m.name.id] [] :=
    .enter walks.tracks (declarations_declares declares ▸ new.undeclared_snoc) rfl
  have inside : (m.site.inMethod m.name).Inside c.tables (some b.size) := by
    simp [Site.Inside, Site.inMethod, made.names.1]
  have heading := (walks.trans opened).relist (by simp : _ ⊆ [m.name.id])
  have visits := declareParams_visits b.size params (heading.ready ready inside) second
  have whole := (heading.trans visits.toWalks).setParams le_rfl ids
  rw [given] at whole
  -- The method is told its parameters last: its own symbol changes once more, and no other does.
  have bindings : f.bindings = e.bindings := by rw [← given]
  have others : ∀ i, b.size ≠ i → f.scopes.symbols[i]? = e.scopes.symbols[i]? := by
    intro i other
    rw [← given, Scopes.setParams_symbols_of_ne _ _ other]
  refine ⟨whole, ⟨?_, ?_⟩, ?_⟩
  · have both : b.Grows f _ [] [⟨m.name, params, result, []⟩] ∧ _ :=
      head_binds (c := { c with scopes := c.scopes.enter }) made ⟨rfl, rfl, rfl⟩ ready.distinct
        second given.symm
    exact m.resolved_of_heads both.2 (by rw [own]) ready.tracks.size
      (made.tracks m ready.left rfl).1
  · refine visits.resolved.carry ?_ (fun i s high found => (others i ?_).trans found) ?_
    · intro k id found
      rw [Binder.tables, bindings]
      exact found
    · rw [← walks.tracks.size, made.size] at high
      exact Nat.ne_of_lt high
    · intro o mem
      obtain ⟨p, -, rfl⟩ := List.mem_map.mp mem
      rfl
  · refine inside.mono fun k id found => ?_
    rw [Binder.tables, bindings]
    exact visits.extended.bindings k id found

theorem target_visits : (t : Target) → Visits here site t.ids (t.occurrences site) (target here t)
  | .var name => (destination_visits name).discard
  | .index array i => (useArray_visits array).discard.bind fun _ => expr_visits i

theorem targets_visits (ts : List Target) :
    Visits here site (Target.idsAll ts) (ts.flatMap (Target.occurrences site))
      (ts.forM (target here)) := by
  have listed : Target.idsAll ts = ts.flatMap Target.ids := by
    induction ts with
    | nil => rfl
    | cons t ts ih => rw [Target.idsAll, List.flatMap_cons, ih]
  rw [listed]
  exact .forM target_visits ts

/-- The names of a declaration or of an input. -/
theorem names_visits {role : Role} {act : Ident → Bind SymbolId}
    (each : ∀ name, Visits here site [name.id] [⟨name, role, site⟩] (act name))
    (names : List Ident) :
    Visits here site (names.map Ident.id) (names.map fun name => ⟨name, role, site⟩)
      (names.forM fun name => discard (act name)) := by
  rw [List.map_eq_flatMap, List.map_eq_flatMap]
  exact .forM (fun name => (each name).discard) names

section Scopes
variable (n : Node) {body : List Stmt}
  (inner : ∀ here site, Visits here site (Stmt.idsAll body) (Stmt.occurrencesAll site body)
    (stmts here body))
include inner

/-- The parameters and the body of a method are visited in its scope. -/
theorem method_visits (name : Ident) (params : List Param) (result : Option Ty) (block : Node) :
    Visits here site (Stmt.method n name params result block body).ids
      ((Stmt.method n name params result block body).occurrences site)
      (stmt here (.method n name params result block body)) := by
  intro b b' u decls ready h
  simp only [stmt, state_bind_ok] at h
  obtain ⟨method, c, first, _, d, entered, ids, e, second, _, f, given, _, g, third, left⟩ := h
  obtain ⟨-, rfl⟩ : () = _ ∧ { c with scopes := c.scopes.enter } = d := state_pure_ok.mp entered
  obtain ⟨-, given⟩ : () = _ ∧ { e with scopes := e.scopes.setParams method ids } = f :=
    state_pure_ok.mp given
  obtain ⟨-, rfl⟩ : () = u ∧ { g with scopes := g.scopes.exit } = b' := state_pure_ok.mp left
  have listed : (name.id :: params.map (·.name.id) ++ Stmt.idsAll body).Subperm _ :=
    ((((List.sublist_append_left _ [block.id]).append_left _).trans
      (List.sublist_append_left _ [n.id])).cons_cons name.id).subperm
  have ready := ready.sub listed
  obtain ⟨walks, resolved, inside⟩ := head_visits rfl ready.left first second given
  have visits := inner (some method) _ (walks.ready ready inside) third
  exact (walks.around resolved visits rfl).relist listed.subset

/-- The body of a block is visited in its scope. -/
theorem block_visits (block : Node) :
    Visits here site (Stmt.block n block body).ids ((Stmt.block n block body).occurrences site)
      (stmt here (.block n block body)) := by
  intro b b' u decls ready h
  simp only [stmt, state_bind_ok] at h
  obtain ⟨_, c, entered, _, d, third, left⟩ := h
  obtain ⟨-, rfl⟩ : () = _ ∧ { b with scopes := b.scopes.enter } = c := state_pure_ok.mp entered
  obtain ⟨-, rfl⟩ : () = u ∧ { d with scopes := d.scopes.exit } = b' := state_pure_ok.mp left
  have listed : ([block.id] ++ Stmt.idsAll body).Subperm _ :=
    List.perm_append_comm.subperm.trans (List.sublist_append_left _ [n.id]).subperm
  have ready := ready.sub listed
  have opened : b.Walks { b with scopes := b.scopes.enter } site (site.inBlock block) decls
      [block.id] [] :=
    .enter ready.tracks (ready.fresh _ List.mem_cons_self).undeclared rfl
  have visits := inner here _ (opened.ready ready ready.inside) third
  exact (opened.around trivial visits rfl).relist listed.subset

end Scopes

theorem assign_visits (n : Node) (targets : List Target) (values : List Expr) :
    Visits here site (Stmt.assign n targets values).ids
      ((Stmt.assign n targets values).occurrences site) (stmt here (.assign n targets values)) := by
  intro b b' u decls ready h
  simp only [stmt] at h
  by_cases arity : (targets.length != values.length) = true
  · rw [if_pos arity, state_bind_ok] at h
    obtain ⟨_, c, thrown, -⟩ := h
    exact absurd thrown state_throw_ok
  · rw [if_neg arity] at h
    -- The values are visited first, though the numbers of the targets are listed before theirs.
    have both : Visits here site (Expr.idsAll values ++ Target.idsAll targets) _ _ :=
      (exprs_visits values).bind fun _ => targets_visits targets
    refine both.relist ?_ ready h
    exact List.perm_append_comm.subperm.trans (List.sublist_append_left ..).subperm

mutual

theorem stmt_visits : (s : Stmt) → (here : Option SymbolId) → (site : Site) →
    Visits here site s.ids (s.occurrences site) (stmt here s)
  | .varDecl _ ty names, _, _ =>
    (names_visits (declare_visits .variable rfl rfl (fun _ => rfl) · ty) names).relist
      (List.sublist_append_left ..).subperm
  | .arrayDecl _ ty size names, _, _ =>
    ((expr_visits size).bind fun _ =>
      names_visits (declare_visits .array rfl rfl (fun _ => rfl) · ty) names).relist
        (List.sublist_append_left ..).subperm
  | .method n name params result block body, _, _ =>
    method_visits n (stmts_visits body) name params result block
  | .assign n targets values, _, _ => assign_visits n targets values
  | .input _ names, _, _ =>
    (names_visits destination_visits names).relist (List.sublist_append_left ..).subperm
  | .print _ value, _, _ | .ret _ (some value), _, _ =>
    (expr_visits value).relist (List.sublist_append_left ..).subperm
  | .alternative _ guards, here, site | .iterative _ guards, here, site =>
    (guards_visits guards here site).relist (List.sublist_append_left ..).subperm
  | .block n block body, _, _ => block_visits n (stmts_visits body) block
  | .ret _ none, _, _ => (Visits.pure ()).relist List.nil_subperm
  | .call n callee args, _, _ =>
    ((useMethod_visits false callee args.length n.span).discard.bind fun _ =>
      exprs_visits args).relist ((List.sublist_append_left ..).cons_cons callee.id).subperm

theorem stmts_visits : (ss : List Stmt) → (here : Option SymbolId) → (site : Site) →
    Visits here site (Stmt.idsAll ss) (Stmt.occurrencesAll site ss) (stmts here ss)
  | [], _, _ => .pure ()
  | s :: ss, here, site => (stmt_visits s here site).bind fun _ => stmts_visits ss here site

theorem guards_visits : (gs : List Guard) → (here : Option SymbolId) → (site : Site) →
    Visits here site (Guard.idsAll gs) (Guard.occurrencesAll site gs) (guards here gs)
  | [], _, _ => .pure ()
  | .mk _ cond body :: gs, here, site => by
    have all := (expr_visits cond).bind fun _ => (stmt_visits body here site).bind fun _ =>
      guards_visits gs here site
    rw [← List.append_assoc, ← List.append_assoc] at all
    exact all.relist ((List.sublist_append_left ..).append_right _).subperm

end

end Bind

namespace Program

/-- The names of a program are bound by lexical scoping. -/
structure Scoped (p : Program) (a : Analysis) : Prop where
  /-- All names are bound but that of the program. -/
  bound : ∀ k, k ∈ a.bindings ↔ k ∈ p.idents.map Ident.id
  unnamed : p.name.id ∉ a.bindings
  /-- The symbols are those of the declarations, in the order in which these are visited. -/
  symbols : a.symbols.size = (declarations [] p.occurrences).length
  declared : ∀ (id : SymbolId) d, (declarations [] p.occurrences)[id]? = some d →
    ∃ s, a.Names d.name id s ∧ s.name = d.name.name
  /-- Each name is bound as the names before it demand. -/
  resolved : ∀ before o after, p.occurrences = before ++ o :: after →
    o.Resolved a (declarations [] before)
  /-- No scope declares a name twice. -/
  distinct : (declarations [] p.occurrences).Pairwise Occurrence.Apart
  /-- The symbols that belong to a method are the variables and arrays that are declared in it. -/
  locals : ∀ (id : SymbolId) d s, (declarations [] p.occurrences)[id]? = some d →
    a.symbols[id]? = some s → ∀ m, s.owner = some m ↔
      (s.kind = .variable ∨ s.kind = .array) ∧ ∃ n, d.site.method = some n ∧ a.bindings[n]? = some m
  /-- What belongs to a method is used in it only. -/
  inside : ∀ o ∈ p.occurrences, ∀ id s, a.Names o.name id s → ∀ m, s.owner = some m →
    ∃ n, o.site.method = some n ∧ a.bindings[n]? = some m

section Whole
variable {p : Program} {b : Binder}

/-- The binder before anything has been visited. -/
def unvisited : Binder :=
  ⟨.empty, ∅, ∅⟩

theorem unvisited_fresh (k : NodeId) : unvisited.Fresh .top [] k :=
  ⟨by simp [unvisited], by simp [Site.top], by simp⟩

/-- Binding visits a program as a whole. -/
theorem bind_visits {a : Analysis} (formed : p.WellFormed) (h : p.bind = .ok a) :
    ∃ b, b.tables = a ∧ unvisited.Visits b .top [] (Stmt.idsAll p.body) p.occurrences := by
  unfold Program.bind at h
  obtain ⟨⟨⟨⟩, b⟩, run, done⟩ := except_bind_ok.mp h
  have tracks : unvisited.Tracks .top [] := ⟨rfl, .outermost rfl (.empty (by simp))⟩
  have distinct := (List.nodup_cons.mp formed.distinct).2
  refine ⟨b, by simpa [Binder.tables, pure, Except.pure] using done, ?_⟩
  exact Bind.stmts_visits p.body none .top
    ⟨tracks, rfl, distinct, fun k _ => unvisited_fresh k⟩ run

variable (visits : unvisited.Visits b .top [] (Stmt.idsAll p.body) p.occurrences)
include visits

/-- Each name is resolved after the declarations before it. -/
theorem resolved_of_visits {before after : List Occurrence} {o : Occurrence}
    (split : p.occurrences = before ++ o :: after) :
    o.Resolved b.tables (declarations [] before) := by
  have all := visits.resolved
  rw [split] at all
  exact (resolves_append.mp all).2.1

/-- What is visited is what is bound. -/
theorem mem_bindings_iff (k : NodeId) : k ∈ b.bindings ↔ k ∈ p.idents.map Ident.id := by
  have perm := (Stmt.occurrencesAll_perm p.body .top).map Ident.id
  rw [idents, ← perm.mem_iff, List.map_map, Std.TreeMap.mem_iff_isSome_getElem?]
  constructor
  · intro bound
    by_contra out
    have same := visits.bindings k out
    simp [same, unvisited] at bound
  · intro named
    obtain ⟨o, mem, rfl⟩ := List.mem_map.mp named
    obtain ⟨before, after, split⟩ := List.append_of_mem mem
    obtain ⟨id, s, names, -⟩ := resolved_of_visits visits split
    exact Option.isSome_of_eq_some names.1

end Whole

/-- Binding succeeds by lexical scoping only. -/
theorem bind_scoped {source : String} {p : Program} {a : Analysis} (parsed : parse source = .ok p)
    (h : p.bind = .ok a) : p.Scoped a := by
  have formed := parse_wellFormed parsed
  obtain ⟨b, rfl, visits⟩ := bind_visits formed h
  refine ⟨mem_bindings_iff visits, ?_, visits.tracks.size, fun id d declared => ?_,
    fun _ _ _ split => resolved_of_visits visits split, visits.resolved.distinct .nil, ?_, ?_⟩
  · have outside := (List.nodup_cons.mp formed.distinct).1
    have unbound := (visits.fresh p.name.id outside (unvisited_fresh _)).unbound
    simp [Std.TreeMap.mem_iff_isSome_getElem?, Binder.tables, unbound]
  · obtain ⟨before, s, names, -, -, makes⟩ := visits.resolved.declared declared (Nat.zero_le _)
    exact ⟨s, names, makes.name⟩
  · intro id d s declared found m
    obtain ⟨before, s', names, needs, declares, makes⟩ :=
      visits.resolved.declared declared (Nat.zero_le _)
    obtain rfl := Option.some.inj (names.2.symm.trans found)
    exact makes.owner_iff declares needs
  · intro o mem id s names m owner
    obtain ⟨before, after, split⟩ := List.append_of_mem mem
    exact (resolved_of_visits visits split).inside names owner

/-- A program in which a method and a block declare again what is declared around them. -/
def nested : String :=
  "program nested int x; " ++
  "proc show(int x) \x7b y <- x; \x7b int y; y <- x; print y \x7d; print y \x7d " ++
  "x <- 2; show(x); z <- x"

/-- The symbols of the names of a program in the order in which they are visited. -/
def boundSymbols (p : Program) (a : Analysis) : List (Option SymbolId) :=
  p.occurrences.map fun o => a.bindings[o.name.id]?

theorem nested_binds : ∃ p a, parse nested = .ok p ∧ p.bind = .ok a ∧
    p.boundSymbols a = [0, 1, 2, 2, 3, 4, 2, 4, 4, 3, 0, 1, 0, 0, 5].map some := by
  have checked : (do
      let p ← parse nested
      return p.boundSymbols (← p.bind) : Except Error _) =
        .ok ([0, 1, 2, 2, 3, 4, 2, 4, 4, 3, 0, 1, 0, 0, 5].map some) :=
    except_of_toOption (by decide +kernel)
  obtain ⟨p, parsed, checked⟩ := except_bind_ok.mp checked
  obtain ⟨a, bound, symbols⟩ := except_bind_ok.mp checked
  exact ⟨p, a, parsed, bound, Except.ok.inj symbols⟩

theorem bind_scoped_nested : ∃ p a, parse nested = .ok p ∧ p.bind = .ok a ∧
    p.boundSymbols a = [0, 1, 2, 2, 3, 4, 2, 4, 4, 3, 0, 1, 0, 0, 5].map some ∧ p.Scoped a := by
  obtain ⟨p, a, parsed, bound, symbols⟩ := nested_binds
  exact ⟨p, a, parsed, bound, symbols, bind_scoped parsed bound⟩

end Program

end Guarded
