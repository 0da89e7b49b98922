import Guarded.Compile
import Guarded.Proofs.Linking
import Mathlib.Data.List.Dedup

/-!
The unit of a program. Each method is found under the name of its routine, and each global variable
has a field of its own.

Checking a source and compiling it come to the same, but for one thing: a method may need more slots
than a routine can have.
-/

namespace Guarded

theorem find?_of_unique {α : Type} {p : α → Bool} {xs : List α} {x : α} (mem : x ∈ xs)
    (isP : p x = true) (only : ∀ y ∈ xs, p y = true → y = x) : xs.find? p = some x := by
  cases found : xs.find? p with
  | none => exact absurd isP (List.find?_eq_none.mp found x mem)
  | some y => rw [only y (List.mem_of_find?_eq_some found) (List.find?_some found)]

/-- The last of several equal names is found; here there is only one. -/
theorem findRev?_of_unique {α : Type} {p : α → Bool} {xs : Array α} {x : α} (mem : x ∈ xs.toList)
    (isP : p x = true) (only : ∀ y ∈ xs.toList, p y = true → y = x) : xs.findRev? p = some x := by
  rw [Array.findRev?_eq_find?_reverse, ← Array.find?_toList, Array.toList_reverse]
  exact find?_of_unique (List.mem_reverse.mpr mem) isP fun y inside =>
    only y (List.mem_reverse.mp inside)

/-- In related lists each item has its partner. -/
theorem exists_of_forall₂ {α β : Type} {R : α → β → Prop} {xs : List α} {ys : List β}
    (h : List.Forall₂ R xs ys) {n : Nat} {x : α} (found : xs[n]? = some x) :
    ∃ y, ys[n]? = some y ∧ R x y := by
  obtain ⟨low, rfl⟩ := List.getElem?_eq_some_iff.mp found
  have low' : n < ys.length := h.length_eq ▸ low
  exact ⟨ys[n], List.getElem?_eq_getElem low', h.get low low'⟩

/-- Finished routines have different names. -/
theorem routine_unique {a : Analysis} {s : Assembly} (tidy : s.Tidy a)
    {bodies : List (SymbolId × List Op)} (distinct : (bodies.map Prod.fst).Nodup)
    {rs : List Routine} (laid : List.Forall₂ (Laid a s.places) bodies rs) {r r' : Routine}
    (mem : r ∈ rs) (mem' : r' ∈ rs) (same : r.name = r'.name) : r = r' := by
  obtain ⟨i, found⟩ := List.mem_iff_getElem?.mp mem
  obtain ⟨j, found'⟩ := List.mem_iff_getElem?.mp mem'
  obtain ⟨b, at_, laidB⟩ := exists_of_forall₂ laid.flip found
  obtain ⟨b', at', laidB'⟩ := exists_of_forall₂ laid.flip found'
  have sameSymbol : b.1 = b'.1 :=
    (tidy.routines b'.1 _ laidB'.name).2.2.2.2 b.1 (same ▸ laidB.name)
  have sameIndex : i = j := by
    refine (List.getElem?_inj ?_ distinct).mp ?_
    · obtain ⟨low, -⟩ := List.getElem?_eq_some_iff.mp at_
      simpa using low
    · simp [List.getElem?_map, at_, at', sameSymbol]
  rw [sameIndex] at found
  exact Option.some.inj (found.symm.trans found')

/-- The unit of a program, with the places of its symbols. -/
structure Program.Compiled (p : Program) (a : Analysis) (places : Places) (u : ObjectUnit) :
    Prop where
  entry : u.entry.name = entryName
  heading : u.entry.params = #[] ∧ u.entry.result = none ∧ u.entry.locals = #[]
  code : Op.CodeAt a places u.entry.code 0 (a.lower p)
  size : u.entry.code.size = Op.sizeAll (a.lower p)
  placed : ∀ x ∈ Op.touched (a.lower p), places[x]? ≠ none
  fields : ∀ (x : SymbolId) (f : String), places[x]? = some (.field f) →
    a.ownerOf x = none ∧
      (∃ slot, Assemble.slotOf a x = .ok slot ∧ ⟨f, slot⟩ ∈ u.globals.toList) ∧
      ∀ (y : SymbolId), places[y]? = some (.field f) → y = x
  slots : ∀ (x : SymbolId) (n : Nat), places[x]? = some (.slot n) → (a.ownerOf x).isSome = true
  stored : ∀ (x : SymbolId) (place : Place), places[x]? = some place →
    a.Storable x ∨ ∃ n, place = .routine n
  named : ∀ (x : SymbolId) (n : String), places[x]? = some (.routine n) → a.Callable x
  apart : ∀ (x : SymbolId) (n : String), places[x]? = some (.routine n) →
    n ≠ entryName ∧ ∀ (y : SymbolId), places[y]? = some (.routine n) → y = x
  distinct : (u.globals.toList.map Field.name).Nodup
  routines : ∀ m ∈ p.methods, ∃ r, Laid a places (a.compiled m) r ∧
    u.routines.findRev? (fun r' => r'.name == r.name) = some r
  all : ∃ rs, rs.Perm u.routines.toList ∧
    List.Forall₂ (fun m r => Laid a places (a.compiled m) r) p.methods rs

namespace Program
variable {p : Program} {a : Analysis}

/-- A variable or array is in a field if it is global and in a slot if it is local. -/
theorem Compiled.place {places : Places} {u : ObjectUnit} (compiled : p.Compiled a places u)
    {x : SymbolId} (storable : a.Storable x) {place : Place} (found : places[x]? = some place) :
    (a.ownerOf x = none ∧ ∃ f, place = .field f) ∨
      ∃ m n, a.ownerOf x = some m ∧ place = .slot n := by
  cases place with
  | field f => exact Or.inl ⟨(compiled.fields x f found).1, f, rfl⟩
  | slot n =>
    obtain ⟨m, own⟩ := Option.isSome_iff_exists.mp (compiled.slots x n found)
    exact Or.inr ⟨m, n, own, rfl⟩
  | routine n =>
    obtain ⟨s, known, isMethod, -⟩ := compiled.named x n found
    obtain ⟨s', -, known', notMethod, -⟩ := storable
    obtain rfl := Option.some.inj (known.symm.trans known')
    simp [isMethod] at notMethod

theorem initial_writing : Assembly.initial.Writing a none [] where
  tidy :=
    { main := by simp [Assembly.initial]
      taken := by
        intro n mem
        obtain rfl := List.mem_singleton.mp mem
        exact Or.inl (by decide)
      routines := by simp [Assembly.initial]
      fields := by simp [Assembly.initial]
      listed := by simp [Assembly.initial]
      distinct := by simp [Assembly.initial]
      slots := by simp [Assembly.initial] }
  plain := rfl
  slots := by simp [Places.Slots]
  typed := .nil
  bounded := by simp [Assembly.initial, Draft.start]

/-- The lowered program, laid out from the start, is the program compiled. -/
theorem compiled_of_assembles (piece : Op.Piece a none (a.lower p) (Stmt.namesAll p.body) p.methods)
    (distinct : ((Op.bodiesAll (a.lower p)).map Prod.fst).Nodup) {syms : List SymbolId}
    {t : Assembly} (done : Assembles a none [] syms (a.lower p) .initial t) (package : String) :
    p.Compiled a t.places
      ⟨package, p.name.name, t.fields, t.draft.toRoutine, t.routines⟩ := by
  have tidy := done.writing.tidy
  obtain ⟨rs, pushed, laid⟩ := done.routines
  have whole : t.routines.toList = rs := pushed
  exact
    { entry := done.heading.1
      heading := by
        -- The entry routine is in no method, so no symbol has a slot of it.
        have none : syms = [] := by
          refine List.eq_nil_iff_forall_not_mem.mpr fun x mem => ?_
          obtain ⟨m, inside, -⟩ := done.writing.slots.owner mem
          cases inside
        have size := done.writing.length
        rw [none] at size
        exact ⟨done.heading.2.1, done.heading.2.2, Array.eq_empty_of_size_eq_zero size.symm⟩
      code := (done.code_toRoutine rfl).1
      size := (done.code_toRoutine rfl).2
      placed := done.placed
      fields := fun x f found => (tidy.fields x f found).2
      slots := fun x n found => (tidy.slots x n found).2
      stored := by
        intro x place found
        cases place with
        | slot n => exact Or.inl (tidy.slots x n found).1
        | field f => exact Or.inl (tidy.fields x f found).1
        | routine n => exact Or.inr ⟨n, rfl⟩
      named := fun x n found => (tidy.routines x n found).1
      apart := by
        intro x n found
        obtain ⟨-, -, notEntry, -, only⟩ := tidy.routines x n found
        exact ⟨notEntry, only⟩
      distinct := tidy.distinct
      routines := by
        intro m mem
        obtain ⟨n, found⟩ := List.mem_iff_getElem?.mp
          (piece.bodies.mem_iff.mpr (List.mem_map_of_mem mem))
        obtain ⟨r, found', laidR⟩ := exists_of_forall₂ laid found
        have inside := List.mem_of_getElem? found'
        refine ⟨r, laidR, findRev?_of_unique (by simp [whole, inside]) (by simp) ?_⟩
        intro r' mem' same
        have inside' : r' ∈ rs := whole ▸ mem'
        exact routine_unique tidy distinct laid inside' inside (by simpa using same)
      all := by
        obtain ⟨rs', laid', perm⟩ := List.perm_comp_forall₂ piece.bodies.symm laid
        exact ⟨rs', whole ▸ perm, List.forall₂_map_left_iff.mp laid'⟩ }

/-- The code of an analysed program becomes a unit, or some method has too many locals. -/
theorem generate_ends (formed : p.WellFormed) (h : p.analyze = .ok a) (package : String) :
    (∃ u places, a.generate package p = .ok (u, places) ∧ p.Compiled a places u) ∨
      ∃ m ∈ p.methods, ∃ n, NamedAfter a (a.compiled m).1 n ∧
        Overflows a (a.compiled m).1 (a.params (a.compiled m).1) (Op.touched (a.compiled m).2) ∧
        a.generate package p = .error (tooManyLocals n) := by
  have piece := lower_piece formed h
  have layable : Assemble.Layable a none (a.lower p) .initial :=
    { inScope := piece.inScope
      distinct := by
        refine (piece.bodies.map Prod.fst).nodup_iff.mpr ?_
        simpa [List.map_map, Function.comp_def] using (analyze_linked formed h).compiled_nodup
      outside := by simp
      unopened := by simp [Assembly.initial] }
  rcases Assemble.ops_yields initial_writing (a.lower p) layable with
    ⟨_, t, eq, syms, done⟩ | ⟨e, eq, ⟨m, inside, -⟩ | ⟨b, mem, excess, n, named, rfl⟩⟩
  · refine Or.inl ⟨_, t.places, ?_, compiled_of_assembles piece layable.distinct done package⟩
    rw [a.generate_eq package p]
    show (Assemble.ops a (a.lower p) .initial).bind _ = _
    rw [eq]
    show (t.draft.finish).bind _ = _
    rw [done.writing.plain.finish]
    rfl
  · cases inside
  · obtain ⟨m, listed, rfl⟩ := List.mem_map.mp (piece.bodies.mem_iff.mp mem)
    refine Or.inr ⟨m, listed, n, named, excess, ?_⟩
    rw [a.generate_eq package p]
    show (Assemble.ops a (a.lower p) .initial).bind _ = _
    rw [eq]
    rfl

theorem generate_compiled (formed : p.WellFormed) (h : p.analyze = .ok a) {package : String}
    {u : ObjectUnit} {places : Places} (generated : a.generate package p = .ok (u, places)) :
    p.Compiled a places u := by
  rcases generate_ends formed h package with ⟨u', places', ok, laid⟩ | ⟨_, _, _, _, _, failed⟩
  · obtain ⟨rfl, rfl⟩ := Prod.mk.inj (Except.ok.inj (generated.symm.trans ok))
    exact laid
  · cases generated.symm.trans failed

/-- A compiled source is a program with tables, from which the unit is generated. -/
theorem generate_of_compile {package source : String} {u : ObjectUnit}
    (h : compile package source = .ok u) :
    ∃ p a places, parse source = .ok p ∧ p.analyze = .ok a ∧
      a.generate package p = .ok (u, places) := by
  obtain ⟨p, parsed, h⟩ := except_bind_ok.mp h
  obtain ⟨a, analyzed, h⟩ := except_bind_ok.mp h
  obtain ⟨⟨u', places⟩, generated, same⟩ := except_bind_ok.mp h
  obtain rfl : u' = u := by simpa [pure, Except.pure] using same
  exact ⟨p, a, places, parsed, analyzed, generated⟩

theorem compile_ok {package source : String} {u : ObjectUnit}
    (h : compile package source = .ok u) :
    ∃ p a places, parse source = .ok p ∧ p.analyze = .ok a ∧ p.WellFormed ∧
      p.Compiled a places u := by
  obtain ⟨p, a, places, parsed, analyzed, generated⟩ := generate_of_compile h
  have formed := parse_wellFormed parsed
  exact ⟨p, a, places, parsed, analyzed, formed, generate_compiled formed analyzed generated⟩

end Program

/-- The symbols that need a slot in the routine of a method: its parameters, and those of its locals
that its body reads or writes. -/
def Method.locals (a : Analysis) (m : Method) : List SymbolId :=
  match a.bindings[m.name.id]? with
  | some id =>
    (a.params id ++
      (a.symbolsOf (Stmt.namesAll m.body)).filter fun x => a.ownerOf x = some id).dedup
  | none => []

namespace Program
variable {p : Program} {a : Analysis}

theorem mem_locals (formed : p.WellFormed) (h : p.analyze = .ok a) {m : Method}
    (mem : m ∈ p.methods) {x : SymbolId} :
    x ∈ m.locals a ↔ x ∈ a.params (a.compiled m).1 ∨
      x ∈ Op.touched (a.compiled m).2 ∧ a.ownerOf x = some (a.compiled m).1 := by
  obtain ⟨named, piece⟩ := method_piece formed h mem
  simp [Method.locals, named, piece.touched]

/-- The symbol of a method has its name. -/
theorem nameOf_compiled (formed : p.WellFormed) (h : p.analyze = .ok a) {m : Method}
    (mem : m ∈ p.methods) : Assemble.nameOf a (a.compiled m).1 = m.name.name := by
  obtain ⟨named, -⟩ := method_piece formed h mem
  obtain ⟨id, ⟨s, ids, names, name, -⟩, -⟩ := (analyze_linked formed h).bound.methods m mem
  obtain rfl := Option.some.inj (named.symm.trans names.1)
  simp [Assemble.nameOf, names.2, name]

/-- A routine that overflows is one of a method with too many locals. -/
theorem locals_of_overflows (formed : p.WellFormed) (h : p.analyze = .ok a) {m : Method}
    (mem : m ∈ p.methods)
    (excess : Overflows a (a.compiled m).1 (a.params (a.compiled m).1)
      (Op.touched (a.compiled m).2)) : Draft.slotLimit < (m.locals a).length := by
  obtain ⟨xs, nodup, many, each⟩ := excess
  exact many.trans_le (List.subperm_of_subset nodup fun x inside =>
    (mem_locals formed h mem).mpr (each x inside)).length_le

/-- A local of a method has a slot in its routine. -/
theorem slot_of_local (formed : p.WellFormed) (h : p.analyze = .ok a) {m : Method}
    (mem : m ∈ p.methods) {places : Places} {u : ObjectUnit} (compiled : p.Compiled a places u)
    {r : Routine} (laid : Laid a places (a.compiled m) r) {x : SymbolId}
    (isLocal : x ∈ m.locals a) :
    ∃ n, places[x]? = some (.slot n) ∧ a.ownerOf x = some (a.compiled m).1 := by
  obtain ⟨-, piece⟩ := method_piece formed h mem
  rcases (mem_locals formed h mem).mp isLocal with param | ⟨touched, own⟩
  · obtain ⟨syms, slots, -, params, -⟩ := laid.locals
    obtain ⟨n, found⟩ := List.mem_iff_getElem?.mp (params.subset param)
    obtain ⟨placed, method, same, own⟩ := (slots n x).mp found
    exact ⟨n, placed, same ▸ own⟩
  · obtain ⟨place, found⟩ := Option.ne_none_iff_exists'.mp (laid.placed x touched)
    rcases compiled.place (piece.inScope.touched touched).1 found with
      ⟨isGlobal, -⟩ | ⟨method, n, -, rfl⟩
    · simp [own] at isGlobal
    · exact ⟨n, found, own⟩

/-- In a unit every method has a slot for each of its locals. -/
theorem locals_of_laid (formed : p.WellFormed) (h : p.analyze = .ok a) {m : Method}
    (mem : m ∈ p.methods) {places : Places} {u : ObjectUnit} (compiled : p.Compiled a places u) :
    (m.locals a).length ≤ Draft.slotLimit := by
  obtain ⟨r, laid, -⟩ := compiled.routines m mem
  obtain ⟨syms, slots, slotted, -, -, bounded⟩ := laid.locals
  have size : syms.length = r.locals.size := by simpa using slotted.length_eq
  have nodup : (m.locals a).Nodup := by
    unfold Method.locals
    split
    · exact List.nodup_dedup _
    · exact List.nodup_nil
  have inside : m.locals a ⊆ syms := by
    intro x isLocal
    obtain ⟨n, found, own⟩ := slot_of_local formed h mem compiled laid isLocal
    exact List.mem_of_getElem? ((slots n x).mpr ⟨found, _, rfl, own⟩)
  have few := (List.subperm_of_subset nodup inside).length_le
  omega

/-- Compiling fails exactly as checking does, or for the only reason of its own: the parameters and
the locals that some method uses are more than a routine has slots. -/
theorem compile_agrees_with_check (package source : String) :
    match check source with
    | .error e => compile package source = .error e
    | .ok a => ∃ p, parse source = .ok p ∧ p.analyze = .ok a ∧
      ((∃ u, compile package source = .ok u) ∧ (∀ m ∈ p.methods, (m.locals a).length ≤ 65536) ∨
        ∃ m ∈ p.methods, 65536 < (m.locals a).length ∧
          ∃ name, (name = m.name.name ∨ ∃ k : Nat, name = s!"{m.name.name}${k}") ∧
            compile package source = .error (.codeGen s!"too many locals in {name}")) := by
  have checked : check source = (parse source).bind Program.analyze := rfl
  have compiled : compile package source = (parse source).bind fun p =>
    p.analyze.bind fun a => (a.generate package p).bind fun r => .ok r.1 := rfl
  rw [checked, compiled]
  cases parsed : parse source with
  | error e => rfl
  | ok p =>
    simp only [Except.bind]
    cases analyzed : p.analyze with
    | error e => rfl
    | ok a =>
      have formed := parse_wellFormed parsed
      refine ⟨p, rfl, analyzed, ?_⟩
      rcases generate_ends formed analyzed package with
        ⟨u, places, ok, laid⟩ | ⟨m, mem, n, named, excess, failed⟩
      · refine Or.inl ⟨⟨u, by simp only [ok]⟩, fun m mem => ?_⟩
        exact locals_of_laid formed analyzed mem laid
      · refine Or.inr ⟨m, mem, locals_of_overflows formed analyzed mem excess, n, ?_, ?_⟩
        · rw [← nameOf_compiled formed analyzed mem]
          exact named
        · simp only [failed]
          rfl

end Program

end Guarded
