import Guarded.Proofs.Binding
import Guarded.Proofs.Occurrences

/-!
Lexical scoping. A name that declares gets a symbol of its own, and any other name the symbol of the
innermost declaration that it sees. `Resolves` says this of names in the order in which they are
visited, after some declarations, and stays true when the tables grow.
-/

namespace Guarded

/-- The symbol of the method around a site; outside of methods there is none. -/
def Site.Inside (a : Analysis) (site : Site) (owner : Option SymbolId) : Prop :=
  site.method.map (fun n => a.bindings[n]?) = owner.map some

theorem Site.inside_some {a : Analysis} {site : Site} {m : SymbolId} :
    site.Inside a (some m) ↔ ∃ n, site.method = some n ∧ a.bindings[n]? = some m := by
  cases method : site.method with
  | none => simp [Site.Inside, method]
  | some n => simp [Site.Inside, method]

/-- The kind of symbol that a role asks for. -/
def Role.Needs (a : Analysis) : Role → SymbolKind → Prop
  | .variable, kind | .assigned, kind | .read, kind => kind = .variable
  | .array, kind | .element, kind => kind = .array
  | .method function params, kind => ∃ ids, kind = Bind.calleeKind function ids ∧
      List.Forall₂ (fun (p : Ident) id => a.bindings[p.id]? = some id) params ids
  | .called function count, kind => ∃ ids, kind = Bind.calleeKind function ids ∧ ids.length = count

namespace Occurrence

/-- Two declarations in one scope have different names. -/
def Apart (d d' : Occurrence) : Prop :=
  d.site.scopes = d'.site.scopes → d.name.name ≠ d'.name.name

/-- A name that declares, after these declarations, has the next symbol. It is the only one of its
name in its scope, and belongs to the method around it unless it is a method itself. -/
structure Makes (o : Occurrence) (a : Analysis) (decls : List Occurrence) (id : SymbolId)
    (s : Symbol) : Prop where
  next : id = decls.length
  only : ∀ d ∈ decls, d.Apart o
  name : s.name = o.name.name
  owner : if o.role.isMethod then s.owner = none else o.site.Inside a s.owner

/-- A name that does not declare has the symbol of the innermost declaration it sees, which is global
or belongs to the method around the name. -/
structure Finds (o : Occurrence) (a : Analysis) (decls : List Occurrence) (id : SymbolId)
    (s : Symbol) : Prop where
  declared : ∃ d, decls[id]? = some d ∧ o.Sees d ∧
    ∀ d' ∈ decls, o.Sees d' → d'.site.scopes <:+ d.site.scopes
  owner : s.owner = none ∨ o.site.Inside a s.owner

/-- A name is bound, after these declarations, to the symbol it should have. -/
def Resolved (a : Analysis) (decls : List Occurrence) (o : Occurrence) : Prop :=
  ∃ id s, a.Names o.name id s ∧ o.role.Needs a s.kind ∧
    if o.Declares decls then o.Makes a decls id s else o.Finds a decls id s

/-- Of what is declared, the variables and arrays belong to the method around them. -/
theorem Makes.owner_iff {a : Analysis} {decls : List Occurrence} {o : Occurrence} {id m : SymbolId}
    {s : Symbol} (h : o.Makes a decls id s) (declares : o.Declares decls)
    (needs : o.role.Needs a s.kind) : s.owner = some m ↔
      (s.kind = .variable ∨ s.kind = .array) ∧
        ∃ n, o.site.method = some n ∧ a.bindings[n]? = some m := by
  have owner := h.owner
  cases isMethod : o.role.isMethod with
  | true =>
    rw [if_pos isMethod] at owner
    cases role : o.role with
    | method function params =>
      rw [role] at needs
      obtain ⟨ids, kind, -⟩ := needs
      cases function <;> simp [owner, kind, Bind.calleeKind]
    | _ => simp [role, Role.isMethod] at isMethod
  | false =>
    have plain : s.kind = .variable ∨ s.kind = .array := by
      cases role : o.role with
      | read | element | called => simp [Declares, role, Role.isDeclaration] at declares
      | method => simp [role, Role.isMethod] at isMethod
      | array => exact .inr (by simpa [role, Role.Needs] using needs)
      | _ => exact .inl (by simpa [role, Role.Needs] using needs)
    rw [isMethod, if_neg Bool.false_ne_true] at owner
    constructor
    · intro own
      exact ⟨plain, Site.inside_some.mp (own ▸ owner)⟩
    · rintro ⟨-, n, method, bound⟩
      simpa [Site.Inside, method, bound, eq_comm] using owner

/-- What belongs to a method is named in it only. -/
theorem Resolved.inside {a : Analysis} {decls : List Occurrence} {o : Occurrence} {id m : SymbolId}
    {s : Symbol} (h : o.Resolved a decls) (names : a.Names o.name id s) (owner : s.owner = some m) :
    ∃ n, o.site.method = some n ∧ a.bindings[n]? = some m := by
  obtain ⟨id', s', names', needs, rest⟩ := h
  obtain rfl := Option.some.inj (names.1.symm.trans names'.1)
  obtain rfl := Option.some.inj (names.2.symm.trans names'.2)
  split at rest
  · next declares => exact ((rest.owner_iff declares needs).mp owner).2
  · exact Site.inside_some.mp (owner ▸ rest.owner.resolve_left (by simp [owner]))

/-- The name of a method is resolved if the method has its parameters. -/
theorem resolved_of_heads {a : Analysis} {decls : List Occurrence} {o : Occurrence} {id : SymbolId}
    {params : List Param} {result : Option Ty} (heads : a.Heads id o.name params result)
    (role : o.role = .method result.isSome (params.map Param.name)) (next : id = decls.length)
    (only : ∀ d ∈ decls, d.Apart o) : o.Resolved a decls := by
  obtain ⟨s, ids, names, named, owner, kind, -, -, declared⟩ := heads
  refine ⟨id, s, names, ?_, ?_⟩
  · rw [role, kind]
    refine ⟨ids, rfl, List.forall₂_map_left_iff.mpr (declared.imp ?_)⟩
    rintro p id ⟨t, names, -⟩
    exact names.1
  · have declares : o.Declares decls := .inl (by rw [role]; rfl)
    rw [if_pos declares]
    refine ⟨next, only, named, ?_⟩
    rw [role]
    exact owner

end Occurrence

/-- All names are bound to the symbols they should have. -/
def Resolves (a : Analysis) (decls : List Occurrence) : List Occurrence → Prop
  | [] => True
  | o :: os => o.Resolved a decls ∧ Resolves a (declarations decls [o]) os

theorem resolves_append {a : Analysis} {decls xs ys : List Occurrence} :
    Resolves a decls (xs ++ ys) ↔
      Resolves a decls xs ∧ Resolves a (declarations decls xs) ys := by
  induction xs generalizing decls with
  | nil => simp [Resolves, declarations]
  | cons o xs ih =>
    rw [List.cons_append, Resolves, Resolves, ih, ← declarations_append, and_assoc]
    rfl

/-- Tables to which names and symbols have been added. -/
structure Analysis.Extends (a a' : Analysis) : Prop where
  bindings : ∀ (k : NodeId) (id : SymbolId), a.bindings[k]? = some id → a'.bindings[k]? = some id
  symbols : ∀ (i : SymbolId) (s : Symbol), a.symbols[i]? = some s → a'.symbols[i]? = some s

section Extension
variable {a a' a'' : Analysis}

theorem Analysis.Extends.trans (first : a.Extends a') (second : a'.Extends a'') : a.Extends a'' :=
  ⟨fun k id found => second.bindings k id (first.bindings k id found),
    fun i s found => second.symbols i s (first.symbols i s found)⟩

variable (more : ∀ (k : NodeId) (id : SymbolId), a.bindings[k]? = some id → a'.bindings[k]? = some id)
include more

theorem Site.Inside.mono {site : Site} {owner : Option SymbolId} (h : site.Inside a owner) :
    site.Inside a' owner := by
  cases owner with
  | none =>
    cases method : site.method with
    | none => simp [Site.Inside, method]
    | some n => simp [Site.Inside, method] at h
  | some m =>
    cases method : site.method with
    | none => simp [Site.Inside, method] at h
    | some n =>
      simp only [Site.Inside, method, Option.map_some, Option.some.injEq] at h ⊢
      exact more n m h

theorem Role.Needs.mono {role : Role} {kind : SymbolKind} (h : role.Needs a kind) :
    role.Needs a' kind := by
  cases role with
  | method function params =>
    obtain ⟨ids, same, bound⟩ := h
    exact ⟨ids, same, bound.imp fun p id found => more p.id id found⟩
  | _ => exact h

theorem Occurrence.Resolved.mono {o : Occurrence} {decls : List Occurrence} (h : o.Resolved a decls)
    (kept : ∀ id s, a.Names o.name id s → a'.symbols[id]? = some s) : o.Resolved a' decls := by
  obtain ⟨id, s, names, needs, rest⟩ := h
  refine ⟨id, s, ⟨more _ _ names.1, kept id s names⟩, needs.mono more, ?_⟩
  split
  · next declares =>
    rw [if_pos declares] at rest
    obtain ⟨next, only, name, owner⟩ := rest
    refine ⟨next, only, name, ?_⟩
    split
    · next isMethod => simpa [isMethod] using owner
    · next other =>
      rw [if_neg other] at owner
      exact owner.mono more
  · next refers =>
    rw [if_neg refers] at rest
    obtain ⟨declared, owner⟩ := rest
    exact ⟨declared, owner.imp_right (Site.Inside.mono more)⟩

end Extension

theorem Resolves.mono {a a' : Analysis} {decls os : List Occurrence} (more : a.Extends a')
    (h : Resolves a decls os) : Resolves a' decls os := by
  induction os generalizing decls with
  | nil => trivial
  | cons o os ih =>
    exact ⟨h.1.mono more.bindings fun id s names => more.symbols id s names.2, ih h.2⟩

/-- Names that only declare have new symbols, so the old ones may change. -/
theorem Resolves.carry {a a' : Analysis} {decls os : List Occurrence}
    (more : ∀ (k : NodeId) (id : SymbolId), a.bindings[k]? = some id → a'.bindings[k]? = some id)
    (new : ∀ (i : SymbolId) (s : Symbol), decls.length ≤ i → a.symbols[i]? = some s →
      a'.symbols[i]? = some s)
    (declare : ∀ o ∈ os, o.role.isDeclaration = true) (h : Resolves a decls os) :
    Resolves a' decls os := by
  induction os generalizing decls with
  | nil => trivial
  | cons o os ih =>
    have declares : o.Declares decls := .inl (declare o List.mem_cons_self)
    refine ⟨h.1.mono more fun id s names => new id s ?_ names.2, ih ?_ ?_ h.2⟩
    · obtain ⟨id', s', names', -, makes⟩ := h.1
      rw [if_pos declares] at makes
      exact (makes.next.symm.trans (Option.some.inj (names'.1.symm.trans names.1))).le
    · exact fun i s high => new i s ((le_declarations decls [o]).length_le.trans high)
    · exact fun o' mem => declare o' (List.mem_cons_of_mem o mem)

namespace Resolves
variable {a : Analysis} {decls os : List Occurrence}

/-- No name is declared twice in a scope. -/
theorem distinct (h : Resolves a decls os) (before : decls.Pairwise Occurrence.Apart) :
    (declarations decls os).Pairwise Occurrence.Apart := by
  induction os generalizing decls with
  | nil => exact before
  | cons o os ih =>
    refine ih h.2 ?_
    split
    · next declares =>
      obtain ⟨id, s, -, -, makes⟩ := h.1
      rw [if_pos declares] at makes
      refine List.pairwise_append.mpr ⟨before, List.pairwise_singleton .., fun d mem d' own => ?_⟩
      rw [List.mem_singleton.mp own]
      exact makes.only d mem
    · exact before

/-- A symbol was made by the declaration of its number. -/
theorem declared (h : Resolves a decls os) {i : SymbolId} {d : Occurrence}
    (found : (declarations decls os)[i]? = some d) (new : decls.length ≤ i) :
    ∃ before s, a.Names d.name i s ∧ d.role.Needs a s.kind ∧ d.Declares before ∧
      d.Makes a before i s := by
  induction os generalizing decls with
  | nil =>
    rw [declarations, List.getElem?_eq_none new] at found
    cases found
  | cons o os ih =>
    have rest := h.2
    by_cases declares : o.Declares decls
    · rw [declarations_declares declares] at rest
      rw [declarations, if_pos declares] at found
      rcases new.eq_or_lt with rfl | later
      · obtain ⟨id, s, names, needs, makes⟩ := h.1
        rw [if_pos declares] at makes
        obtain rfl : o = d := by
          obtain ⟨more, same⟩ := le_declarations (decls ++ [o]) os
          simpa [← same] using found
        obtain rfl := makes.next
        exact ⟨decls, s, names, needs, declares, makes⟩
      · exact ih rest found (by simpa using Nat.succ_le_of_lt later)
    · rw [declarations_refers declares] at rest
      rw [declarations, if_neg declares] at found
      exact ih rest found new

end Resolves

end Guarded
