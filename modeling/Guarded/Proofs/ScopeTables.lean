import Guarded.Proofs.Occurrences
import Guarded.Scope
import Mathlib.Order.Nat

/-!
Tables of scopes. At each point of a program the tables of the scopes around it list just what has
been declared in them so far, so that a name is found to have the symbol of the innermost declaration
that it sees.
-/

namespace Guarded

/-- Of the declarations of a name that stand in these scopes, this is an innermost one. -/
structure Innermost (decls : List Occurrence) (name : String) (scopes : List NodeId)
    (d : Occurrence) : Prop where
  named : d.name.name = name
  around : d.site.scopes <:+ scopes
  inner : ∀ d' ∈ decls, d'.name.name = name → d'.site.scopes <:+ scopes →
    d'.site.scopes <:+ d.site.scopes

/-- A scope that does not declare the name makes no difference. -/
theorem Innermost.enter {decls : List Occurrence} {name : String} {scopes : List NodeId}
    {d : Occurrence} {n : NodeId} (h : Innermost decls name scopes d)
    (absent : ∀ d' ∈ decls, d'.name.name = name → d'.site.scopes ≠ n :: scopes) :
    Innermost decls name (n :: scopes) d := by
  refine ⟨h.named, h.around.trans (List.suffix_cons n scopes), fun d' mem named around => ?_⟩
  rcases List.suffix_cons_iff.mp around with same | further
  · exact absurd same (absent d' mem named)
  · exact h.inner d' mem named further

/-- A table of names holds what has been declared in a scope. -/
def Lists (decls : List Occurrence) (scopes : List NodeId) (names : Std.TreeMap String SymbolId) :
    Prop :=
  ∀ (name : String) (id : SymbolId), names[name]? = some id ↔
    ∃ d, decls[id]? = some d ∧ d.site.scopes = scopes ∧ d.name.name = name

namespace Lists
variable {decls : List Occurrence} {scopes : List NodeId} {names : Std.TreeMap String SymbolId}
  {o : Occurrence}

/-- The table of a scope in which nothing has been declared. -/
theorem empty (new : ∀ d ∈ decls, d.site.scopes ≠ scopes) : Lists decls scopes ∅ := by
  intro name id
  simp only [Std.TreeMap.getElem?_emptyc, reduceCtorEq, false_iff]
  rintro ⟨d, found, same, -⟩
  exact new d (List.mem_of_getElem? found) same

/-- What is not in the table has not been declared. -/
theorem absent (h : Lists decls scopes names) {name : String} (free : names[name]? = none) :
    ∀ d ∈ decls, d.name.name = name → d.site.scopes ≠ scopes := by
  intro d mem named same
  obtain ⟨id, found⟩ := List.mem_iff_getElem?.mp mem
  have listed := (h name id).mpr ⟨d, found, same, named⟩
  rw [free] at listed
  cases listed

/-- What one more declaration changes. -/
theorem getElem?_snoc {id : SymbolId} {d : Occurrence} :
    (decls ++ [o])[id]? = some d ↔ decls[id]? = some d ∨ id = decls.length ∧ o = d := by
  rcases Nat.lt_trichotomy id decls.length with low | rfl | high
  · rw [List.getElem?_append_left low]
    exact ⟨Or.inl, fun h => h.resolve_right fun new => absurd new.1 (Nat.ne_of_lt low)⟩
  · simp
  · rw [List.getElem?_eq_none (by simp; exact high), List.getElem?_eq_none high.le]
    simp [Nat.ne_of_gt high]

/-- A declaration makes no difference to another scope or name. -/
theorem exists_snoc_iff {name : String} {id : SymbolId}
    (other : ¬(o.site.scopes = scopes ∧ o.name.name = name)) :
    (∃ d, (decls ++ [o])[id]? = some d ∧ d.site.scopes = scopes ∧ d.name.name = name) ↔
      ∃ d, decls[id]? = some d ∧ d.site.scopes = scopes ∧ d.name.name = name := by
  constructor
  · rintro ⟨d, found, own⟩
    rcases getElem?_snoc.mp found with old | ⟨-, rfl⟩
    · exact ⟨d, old, own⟩
    · exact absurd own other
  · rintro ⟨d, found, own⟩
    exact ⟨d, getElem?_snoc.mpr (.inl found), own⟩

theorem push_other (h : Lists decls scopes names) (other : o.site.scopes ≠ scopes) :
    Lists (decls ++ [o]) scopes names := by
  intro name id
  rw [h name id, exists_snoc_iff fun own => other own.1]

theorem push_own (h : Lists decls scopes names) (own : o.site.scopes = scopes)
    (free : names[o.name.name]? = none) :
    Lists (decls ++ [o]) scopes (names.insert o.name.name decls.length) := by
  intro name id
  rw [Std.TreeMap.getElem?_insert]
  split
  · next same =>
    obtain rfl := Std.LawfulEqOrd.eq_of_compare same
    constructor
    · rintro ⟨rfl⟩
      exact ⟨o, getElem?_snoc.mpr (.inr ⟨rfl, rfl⟩), own, rfl⟩
    · rintro ⟨d, found, same, named⟩
      rcases getElem?_snoc.mp found with old | ⟨rfl, -⟩
      · exact absurd same (h.absent free d (List.mem_of_getElem? old) named)
      · rfl
  · next other =>
    rw [h name id, exists_snoc_iff fun own => other (Std.compare_eq_iff_eq.mpr own.2)]

/-- What is in the table is the innermost declaration of its name. -/
theorem innermost (h : Lists decls scopes names) {name : String} {id : SymbolId}
    (listed : names[name]? = some id) : ∃ d, decls[id]? = some d ∧ Innermost decls name scopes d := by
  obtain ⟨d, found, same, named⟩ := (h name id).mp listed
  exact ⟨d, found, named, same ▸ List.suffix_refl _, fun d' _ _ around => same ▸ around⟩

end Lists

/-- From a scope outwards, the tables of names hold what has been declared in these scopes. -/
inductive Scopes.Chain (s : Scopes) (decls : List Occurrence) : ScopeId → List NodeId → Prop
  | outermost {id : ScopeId} {names : Std.TreeMap String SymbolId}
      (found : s.all[id]? = some ⟨none, names⟩) (lists : Lists decls [] names) : Chain s decls id []
  | inner {id parent : ScopeId} {names : Std.TreeMap String SymbolId} {n : NodeId}
      {outer : List NodeId} (found : s.all[id]? = some ⟨some parent, names⟩) (below : parent < id)
      (lists : Lists decls (n :: outer) names) (rest : Chain s decls parent outer) :
      Chain s decls id (n :: outer)

namespace Scopes.Chain
variable {s s' : Scopes} {decls : List Occurrence} {id : ScopeId} {scopes : List NodeId}
  {name : String} {fuel : Nat}

/-- The table of the scope that a chain starts from. -/
theorem head (chain : s.Chain decls id scopes) :
    ∃ parent names, s.all[id]? = some ⟨parent, names⟩ ∧ Lists decls scopes names := by
  cases chain with
  | outermost found lists => exact ⟨_, _, found, lists⟩
  | inner found _ lists _ => exact ⟨_, _, found, lists⟩

/-- One step of the search for a name. -/
theorem lookupFrom_succ {parent : Option ScopeId} {names : Std.TreeMap String SymbolId}
    (found : s.all[id]? = some ⟨parent, names⟩) :
    s.lookupFrom name (fuel + 1) id = names[name]?.or (parent.bind (s.lookupFrom name fuel)) := by
  rw [lookupFrom, nameIn, found]
  cases listed : names[name]? with
  | some k => simp [listed]
  | none => cases parent <;> simp [listed]

/-- A name that is found stands for the innermost declaration. -/
theorem lookup_some (chain : s.Chain decls id scopes) {found : SymbolId}
    (look : s.lookupFrom name fuel id = some found) :
    ∃ d, decls[found]? = some d ∧ Innermost decls name scopes d := by
  induction chain generalizing fuel with
  | outermost present lists =>
    cases fuel with
    | zero => cases look
    | succ fuel =>
      rw [lookupFrom_succ present] at look
      exact lists.innermost (by simpa using look)
  | inner present below lists rest ih =>
    cases fuel with
    | zero => cases look
    | succ fuel =>
      rw [lookupFrom_succ present, Option.or_eq_some_iff] at look
      rcases look with listed | ⟨free, look⟩
      · exact lists.innermost listed
      · obtain ⟨d, declared, innermost⟩ := ih look
        exact ⟨d, declared, innermost.enter (lists.absent free)⟩

/-- A name that is not found has not been declared. -/
theorem lookup_none (chain : s.Chain decls id scopes) (enough : id < fuel)
    (look : s.lookupFrom name fuel id = none) :
    ∀ d ∈ decls, d.name.name = name → ¬d.site.scopes <:+ scopes := by
  induction chain generalizing fuel with
  | outermost present lists =>
    obtain ⟨fuel, rfl⟩ := Nat.exists_eq_add_one_of_ne_zero (Nat.ne_zero_of_lt enough)
    rw [lookupFrom_succ present, Option.or_eq_none_iff] at look
    intro d mem named around
    exact lists.absent look.1 d mem named (List.suffix_nil.mp around)
  | inner present below lists rest ih =>
    obtain ⟨fuel, rfl⟩ := Nat.exists_eq_add_one_of_ne_zero (Nat.ne_zero_of_lt enough)
    rw [lookupFrom_succ present, Option.or_eq_none_iff] at look
    intro d mem named around
    rcases List.suffix_cons_iff.mp around with same | further
    · exact lists.absent look.1 d mem named same
    -- The scope around this one has a lower number, so the fuel lasts.
    · exact ih (below.trans_le (Nat.lt_succ_iff.mp enough)) look.2 d mem named further

/-- The scopes around a scope have lower numbers, so a chain does not see changes above it. -/
theorem carry {decls' : List Occurrence} (chain : s.Chain decls id scopes)
    (same : ∀ i ≤ id, s'.all[i]? = s.all[i]?)
    (lists : ∀ outer names, outer <:+ scopes → Lists decls outer names → Lists decls' outer names) :
    s'.Chain decls' id scopes := by
  induction chain with
  | outermost found listed =>
    exact .outermost ((same _ le_rfl).trans found) (lists _ _ (List.suffix_refl _) listed)
  | @inner id parent names n outer found below listed rest ih =>
    refine .inner ((same _ le_rfl).trans found) below (lists _ _ (List.suffix_refl _) listed) ?_
    exact ih (fun i low => same i (low.trans below.le))
      fun further names around => lists further names (around.trans (List.suffix_cons n outer))

/-- A new scope is entered, in which nothing has been declared. -/
theorem enter (chain : s.Chain decls s.current scopes) {n : NodeId}
    (new : ∀ d ∈ decls, n ∉ d.site.scopes) :
    s.enter.Chain decls s.enter.current (n :: scopes) := by
  obtain ⟨_, _, found, -⟩ := chain.head
  have low : s.current < s.all.size := (Array.getElem?_eq_some_iff.mp found).1
  have opened : s.enter.all[s.enter.current]? = some ⟨some s.current, ∅⟩ := by simp [Scopes.enter]
  refine .inner opened low (.empty fun d mem same => new d mem (same ▸ List.mem_cons_self)) ?_
  refine chain.carry (fun i le => ?_) fun _ _ _ listed => listed
  exact Array.getElem?_push_lt (le.trans_lt low) |>.trans (Array.getElem?_eq_getElem _).symm

/-- A scope is left. -/
theorem exit {n : NodeId} (chain : s.Chain decls s.current (n :: scopes)) :
    s.exit.Chain decls s.exit.current scopes := by
  cases chain with
  | @inner _ parent names _ _ found below lists rest =>
    have left : s.exit = { s with current := parent } := by simp [Scopes.exit, found]
    rw [left]
    exact rest.carry (fun _ _ => rfl) fun _ _ _ listed => listed

/-- Something is declared in the innermost scope. -/
theorem declare {o : Occurrence} {symbol : Symbol} {new : SymbolId × Scopes}
    (chain : s.Chain decls s.current o.site.scopes) (size : s.symbols.size = decls.length)
    (named : symbol.name = o.name.name) (made : s.declare symbol = .ok new) :
    (∀ d ∈ decls, d.site.scopes = o.site.scopes → d.name.name ≠ o.name.name) ∧
      new.2.Chain (decls ++ [o]) new.2.current o.site.scopes := by
  unfold Scopes.declare at made
  split at made
  · cases made
  next free =>
  obtain rfl := Except.ok.inj made
  rw [lookupLocal, nameIn, named] at free
  obtain ⟨parent, names, found, lists⟩ := chain.head
  have free : names[o.name.name]? = none := by simpa [found] using free
  refine ⟨fun d mem same named => lists.absent free d mem named same, ?_⟩
  have head : (s.all.modify s.current fun sc =>
      { sc with names := sc.names.insert symbol.name s.symbols.size })[s.current]? =
        some ⟨parent, names.insert o.name.name decls.length⟩ := by
    simp [Array.getElem?_modify, found, named, size]
  have own := lists.push_own rfl free
  generalize around : o.site.scopes = scopes at chain own
  cases chain with
  | outermost found' _ =>
    obtain ⟨rfl, rfl⟩ : none = parent ∧ _ = names := by simpa using found'.symm.trans found
    exact .outermost head own
  | @inner _ _ _ n outer found' below _ rest =>
    obtain ⟨rfl, rfl⟩ : some _ = parent ∧ _ = names := by simpa using found'.symm.trans found
    refine .inner head below own (rest.carry ?_ ?_)
    · intro i low
      simp [Array.getElem?_modify, Nat.ne_of_gt (low.trans_lt below)]
    · intro further names around' listed
      refine listed.push_other fun same => ?_
      have longer : (n :: outer).length ≤ outer.length := (around ▸ same ▸ around').length_le
      exact Nat.not_succ_le_self _ longer

end Scopes.Chain

end Guarded
