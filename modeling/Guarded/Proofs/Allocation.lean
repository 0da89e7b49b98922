import Guarded.Proofs.Compiled
import Guarded.Proofs.Jumps
import Mathlib.Data.List.Perm.Basic

/-!
Storage allocation. Different variables never share a field or a slot of one routine, and different
methods never share a routine. What an instruction names is there: a field of the unit, a slot of
the routine it stands in and of the type it moves, a routine, or a place in its own code.

The tables of a program are only read on the way; places are all that is added to them.
-/

namespace Guarded

namespace Instr

/-- What the instruction names is there for the routine `r` of a unit, and is of the type that the
instruction moves. The machine and the unit find the same routine under a name. -/
def Fits (u : ObjectUnit) (r : Routine) : Instr → Prop
  | iload n | istore n => r.locals[n]? = some .int ∨ r.locals[n]? = some .boolean
  | fload n | fstore n => r.locals[n]? = some .float
  | aload n | astore n => ∃ slot, r.locals[n]? = some slot ∧ slot.isArray = true
  | getstatic f | putstatic f => ∃ field ∈ u.globals.toList, field.name = f
  | branch _ target | branchCompare _ target | goto target => target < r.code.size
  | invoke name => ∃ callee ∈ u.routines.toList, callee.name = name ∧
      u.routine? name = some callee ∧ u.routines.findRev? (·.name == name) = some callee
  | _ => True

theorem fits_of_isNameless {i : Instr} (plain : i.isNameless = true) (u : ObjectUnit) (r : Routine) :
    i.Fits u r := by
  cases i <;> trivial

end Instr

/-- Each instruction of laid out code comes from an item. -/
theorem Op.CodeAt.item {a : Analysis} {places : Places} {code : Array Instr} {ops : List Op}
    {pos k : Nat} (h : CodeAt a places code pos ops) (low : k < sizeAll ops) :
    ∃ xs op ys i, ops = xs ++ op :: ys ∧ sizeAll xs = k ∧ op.size = 1 ∧
      code[pos + k]? = some i ∧ op.Becomes a places (pos + k) i := by
  induction ops generalizing pos k with
  | nil => simp at low
  | cons op ops ih =>
    by_cases here : op.size = 1 ∧ k = 0
    · obtain ⟨one, rfl⟩ := here
      obtain ⟨i, found, becomes⟩ := h.1 one
      exact ⟨[], op, ops, i, rfl, rfl, one, found, becomes⟩
    · have small : op.size ≤ 1 := by cases op <;> simp [size]
      rw [sizeAll_cons] at low
      obtain ⟨xs, op', ys, i, rfl, size, one, found, becomes⟩ :=
        ih (k := k - op.size) h.2 (by omega)
      have place : pos + op.size + (k - op.size) = pos + k := by omega
      rw [place] at found becomes
      refine ⟨op :: xs, op', ys, i, rfl, ?_, one, found, becomes⟩
      rw [sizeAll_cons]
      omega

/-- The variables and arrays that the code of a program reads and writes, in its methods too. -/
def Program.accesses (p : Program) : List Ident :=
  Stmt.namesAll p.body ++ p.methods.flatMap fun m => Stmt.namesAll m.body

/-- The routine of a method. Its first slots are those of the parameters, in order, and each local
that it uses has a slot of its own, of its type. Its code loads, stores and calls symbols where they
have their places. -/
structure Method.Housed (a : Analysis) (places : Places) (m : Method) (id : SymbolId)
    (r : Routine) : Prop where
  symbol : a.bindings[m.name.id]? = some id
  name : places[id]? = some (.routine r.name)
  params : List.Forall₂ (fun x slot => Assemble.slotOf a x = .ok slot) (a.params id)
    r.params.toList
  result : Assemble.resultOf a id = .ok r.result
  inOrder : ∀ (i : Nat) (x : SymbolId), (a.params id)[i]? = some x → places[x]? = some (.slot i)
  locals : ∀ x ∈ m.locals a, ∃ n slot, places[x]? = some (.slot n) ∧
    Assemble.slotOf a x = .ok slot ∧ r.locals[n]? = some slot
  apart : ∀ x ∈ m.locals a, ∀ y ∈ m.locals a, places[x]? = places[y]? → x = y
  code : Op.CodeAt a places r.code 0
    (a.lowerStmts (some id) m.body ++ a.lowerEnd id m.name.span.line)
  size : r.code.size =
    Op.sizeAll (a.lowerStmts (some id) m.body ++ a.lowerEnd id m.name.span.line)

/-- The sort of place that a symbol may have: methods have routines, global variables fields and
local ones slots. -/
def Place.Suits (s : Symbol) : Place → Prop
  | .slot _ => s.isMethod = false ∧ s.isLocal = true
  | .field _ => s.isMethod = false ∧ s.isLocal = false
  | .routine _ => s.isMethod = true

/-- Every symbol that the code uses has its place, where the code finds it, and no other symbol has
the same. -/
structure Program.Allocated (p : Program) (a : Analysis) (places : Places) (u : ObjectUnit) :
    Prop where
  sorts : ∀ (x : SymbolId) (place : Place), places[x]? = some place →
    ∃ s, a.symbols[x]? = some s ∧ place.Suits s
  fields : ∀ x ∈ a.symbolsOf p.accesses, a.ownerOf x = none →
    ∃ f slot, places[x]? = some (.field f) ∧ Assemble.slotOf a x = .ok slot ∧
      u.globals.toList.filter (·.name = f) = [⟨f, slot⟩]
  fieldsApart : ∀ (x y : SymbolId) (f : String), places[x]? = some (.field f) →
    places[y]? = some (.field f) → x = y
  entry : u.entry.name = "main" ∧ u.entry.params = #[] ∧ u.entry.result = none ∧
    u.entry.locals = #[]
  code : Op.CodeAt a places u.entry.code 0 (a.lower p)
  size : u.entry.code.size = Op.sizeAll (a.lower p)
  routines : ∃ rs, rs.Perm u.routines.toList ∧
    List.Forall₂ (fun m r => ∃ id, m.Housed a places id r) p.methods rs
  routinesApart : ∀ (x y : SymbolId) (n : String), places[x]? = some (.routine n) →
    places[y]? = some (.routine n) → x = y
  notMain : ∀ (x : SymbolId) (n : String), places[x]? = some (.routine n) → n ≠ "main"
  fits : ∀ r ∈ u.entry :: u.routines.toList, ∀ i ∈ r.code.toList, i.Fits u r

namespace Program
variable {p : Program} {a : Analysis} {places : Places} {u : ObjectUnit}

namespace Compiled

/-- A field is listed once, with the slot of its symbol. -/
theorem field_once (compiled : p.Compiled a places u) {x : SymbolId} {f : String}
    (found : places[x]? = some (.field f)) :
    ∃ slot, Assemble.slotOf a x = .ok slot ∧
      u.globals.toList.filter (·.name = f) = [⟨f, slot⟩] := by
  obtain ⟨-, ⟨slot, ok, mem⟩, -⟩ := compiled.fields x f found
  refine ⟨slot, ok, ?_⟩
  have nodup : u.globals.toList.Nodup := compiled.distinct.of_map
  have only : ∀ g : Field, g ∈ u.globals.toList.filter (·.name = f) ↔ g = ⟨f, slot⟩ := by
    intro g
    rw [List.mem_filter, decide_eq_true_eq]
    constructor
    · rintro ⟨mem', same⟩
      exact List.inj_on_of_nodup_map compiled.distinct mem' mem same
    · rintro rfl
      exact ⟨mem, rfl⟩
  exact List.perm_singleton.mp ((List.perm_ext_iff_of_nodup (nodup.filter _)
    (List.nodup_singleton _)).mpr fun g => by rw [only, List.mem_singleton])

/-- Routines have different names, because their methods are different. -/
theorem names_nodup (compiled : p.Compiled a places u) (linked : p.Linked a) :
    (u.routines.toList.map Routine.name).Nodup := by
  obtain ⟨rs, perm, laid⟩ := compiled.all
  have same : ((p.methods.map fun m => (a.compiled m).1).map fun x => places[x]?) =
      (rs.map Routine.name).map fun n => some (Place.routine n) := by
    rw [← List.forall₂_eq_eq_eq, List.map_map, List.map_map, List.forall₂_map_left_iff,
      List.forall₂_map_right_iff]
    exact laid.imp fun _ _ laid => laid.name
  have nodup : ((rs.map Routine.name).map fun n => some (Place.routine n)).Nodup := by
    rw [← same]
    refine List.Nodup.map_on (fun x mem y _ eq => ?_) linked.compiled_nodup
    obtain ⟨m, inside, rfl⟩ := List.mem_map.mp mem
    obtain ⟨r, laidR, -⟩ := compiled.routines m inside
    exact ((compiled.apart _ _ laidR.name).2 y (eq ▸ laidR.name)).symm
  exact (perm.map Routine.name).nodup_iff.mp nodup.of_map

/-- The machine and the unit find the same routine under the name of a method. -/
theorem routine_found (compiled : p.Compiled a places u) (linked : p.Linked a) {x : SymbolId}
    {n : String} (found : places[x]? = some (.routine n)) :
    ∃ r ∈ u.routines.toList, r.name = n ∧ u.routine? n = some r ∧
      u.routines.findRev? (·.name == n) = some r := by
  obtain ⟨s, known, isMethod, -⟩ := compiled.named x n found
  obtain ⟨m, mem, ⟨_, _, named, -⟩, -⟩ := linked.method known isMethod
  obtain ⟨rs, perm, laid⟩ := compiled.all
  obtain ⟨i, at_⟩ := List.mem_iff_getElem?.mp mem
  obtain ⟨r, inside, laidR⟩ := exists_of_forall₂ laid at_
  have same : (a.compiled m).1 = x := by simp [Analysis.compiled, named.1]
  obtain rfl : r.name = n := by simpa [same, found, eq_comm] using laidR.name
  have listed : r ∈ u.routines.toList := perm.mem_iff.mp (List.mem_of_getElem? inside)
  have only : ∀ r' ∈ u.routines.toList, (r'.name == r.name) = true → r' = r := fun r' mem' eq =>
    List.inj_on_of_nodup_map (compiled.names_nodup linked) mem' listed (by simpa using eq)
  refine ⟨r, listed, rfl, ?_, findRev?_of_unique listed (by simp) only⟩
  rw [ObjectUnit.routine?, ← Array.find?_toList]
  exact find?_of_unique listed (by simp) only

/-- A place is read and written by instructions that fit it. -/
theorem access_fits (compiled : p.Compiled a places u) {r : Routine} {here : Option SymbolId}
    (slots : ∀ (x : SymbolId) (n : Nat), places[x]? = some (.slot n) → a.ownerOf x = here →
      ∃ slot, Assemble.slotOf a x = .ok slot ∧ r.locals[n]? = some slot)
    {x : SymbolId} (storable : a.Storable x) (owner : a.ownerOf x = none ∨ a.ownerOf x = here)
    {place : Place} {slot : Slot} (found : places[x]? = some place)
    (ok : Assemble.slotOf a x = .ok slot) :
    (Assemble.loadInstr place slot).Fits u r ∧ (Assemble.storeInstr place slot).Fits u r := by
  rcases compiled.place storable found with ⟨-, f, rfl⟩ | ⟨m, n, own, rfl⟩
  · obtain ⟨-, ⟨slot', -, mem⟩, -⟩ := compiled.fields x f found
    exact ⟨⟨_, mem, rfl⟩, ⟨_, mem, rfl⟩⟩
  · obtain ⟨slot', ok', there⟩ := slots x n found (owner.resolve_left (by simp [own]))
    obtain rfl := Except.ok.inj (ok.symm.trans ok')
    cases slot <;>
      simp [Assemble.loadInstr, Assemble.storeInstr, Instr.Fits, Slot.isArray, there]

/-- All instructions of a routine fit, if its code is in scope and no jump leaves it. -/
theorem code_fits (compiled : p.Compiled a places u) (linked : p.Linked a) {r : Routine}
    {here : Option SymbolId} {ops : List Op} (code : Op.CodeAt a places r.code 0 ops)
    (size : r.code.size = Op.sizeAll ops) (inScope : Op.ScopedAll a here ops)
    (contained : Op.Contained 0 0 ops)
    (slots : ∀ (x : SymbolId) (n : Nat), places[x]? = some (.slot n) → a.ownerOf x = here →
      ∃ slot, Assemble.slotOf a x = .ok slot ∧ r.locals[n]? = some slot) :
    ∀ i ∈ r.code.toList, i.Fits u r := by
  intro i mem
  obtain ⟨k, found⟩ := List.mem_iff_getElem?.mp mem
  rw [Array.getElem?_toList] at found
  obtain ⟨low, -⟩ := Array.getElem?_eq_some_iff.mp found
  obtain ⟨xs, op, ys, i', rfl, before, one, found', becomes⟩ := code.item (size ▸ low)
  rw [Nat.zero_add] at found' becomes
  obtain rfl := Option.some.inj (found.symm.trans found')
  have asked := (Op.scopedAll_append.mp inScope).2.1
  cases op with
  | instr j =>
    obtain rfl : i = j := becomes
    exact Instr.fits_of_isNameless contained.item u r
  | load x =>
    obtain ⟨place, slot, placed, ok, rfl⟩ := becomes
    exact (compiled.access_fits slots asked.1 asked.2 placed ok).1
  | store x =>
    obtain ⟨place, slot, placed, ok, rfl⟩ := becomes
    exact (compiled.access_fits slots asked.1 asked.2 placed ok).2
  | invoke x =>
    obtain ⟨name, placed, rfl⟩ := becomes
    exact compiled.routine_found linked placed
  | jump j d =>
    obtain ⟨-, near⟩ := contained.item
    have target : (k + d).toNat < r.code.size := by
      rw [size, Op.sizeAll_append, Op.sizeAll_cons, Op.size]
      · omega
      · simp
    obtain rfl : i = j.instr (k + d).toNat := becomes
    cases j <;> exact target
  | method | fault => cases becomes

/-- The locals of a routine are where their places say. -/
theorem slot_typed {b : SymbolId × List Op} {r : Routine} (laid : Laid a places b r)
    (x : SymbolId) (n : Nat) (found : places[x]? = some (.slot n))
    (own : a.ownerOf x = some b.1) :
    ∃ slot, Assemble.slotOf a x = .ok slot ∧ r.locals[n]? = some slot := by
  obtain ⟨syms, slots, typed, -⟩ := laid.locals
  obtain ⟨slot, there, ok⟩ := exists_of_forall₂ typed ((slots n x).mpr ⟨found, _, rfl, own⟩)
  exact ⟨slot, ok, by simpa using there⟩

theorem housed (compiled : p.Compiled a places u) (formed : p.WellFormed)
    (h : p.analyze = .ok a) {m : Method} (mem : m ∈ p.methods) {r : Routine}
    (laid : Laid a places (a.compiled m) r) : m.Housed a places (a.compiled m).1 r := by
  obtain ⟨syms, slots, -, params, -⟩ := laid.locals
  refine ⟨(method_piece formed h mem).1, laid.name, laid.params, laid.result, ?_, ?_, ?_, laid.code,
    laid.size⟩
  · intro i x found
    obtain ⟨rest, rfl⟩ := params
    have there : (a.params (a.compiled m).1 ++ rest)[i]? = some x := by
      rw [List.getElem?_append_left (List.getElem?_eq_some_iff.mp found).1, found]
    exact ((slots i x).mp there).1
  · intro x isLocal
    obtain ⟨n, found, own⟩ := slot_of_local formed h mem compiled laid isLocal
    obtain ⟨slot, ok, there⟩ := slot_typed laid x n found own
    exact ⟨n, slot, found, ok, there⟩
  · intro x isLocal y isLocal' same
    obtain ⟨n, found, own⟩ := slot_of_local formed h mem compiled laid isLocal
    obtain ⟨n', found', own'⟩ := slot_of_local formed h mem compiled laid isLocal'
    obtain rfl : n = n' := by simpa [found, found'] using same
    have atX := (slots n x).mpr ⟨found, _, rfl, own⟩
    have atY := (slots n y).mpr ⟨found', _, rfl, own'⟩
    exact Option.some.inj (atX.symm.trans atY)

/-- Each symbol that the code reads or writes has a place. -/
theorem placed_of_access (compiled : p.Compiled a places u) (formed : p.WellFormed)
    (h : p.analyze = .ok a) {x : SymbolId} (mem : x ∈ a.symbolsOf p.accesses) :
    a.Storable x ∧ ∃ place, places[x]? = some place := by
  obtain ⟨name, inside, bound⟩ := Analysis.mem_symbolsOf.mp mem
  rcases List.mem_append.mp inside with inside | inside
  · have piece := lower_piece formed h
    have touched := (piece.touched x).mpr (Analysis.mem_symbolsOf.mpr ⟨name, inside, bound⟩)
    exact ⟨(piece.inScope.touched touched).1,
      Option.ne_none_iff_exists'.mp (compiled.placed x touched)⟩
  · obtain ⟨m, mem', inside⟩ := List.mem_flatMap.mp inside
    obtain ⟨-, piece⟩ := method_piece formed h mem'
    obtain ⟨r, laid, -⟩ := compiled.routines m mem'
    have touched := (piece.touched x).mpr (Analysis.mem_symbolsOf.mpr ⟨name, inside, bound⟩)
    exact ⟨(piece.inScope.touched touched).1,
      Option.ne_none_iff_exists'.mp (laid.placed x touched)⟩

theorem sorts (compiled : p.Compiled a places u) {x : SymbolId} {place : Place}
    (found : places[x]? = some place) : ∃ s, a.symbols[x]? = some s ∧ place.Suits s := by
  rcases compiled.stored x place found with ⟨s, slot, known, plain, ok⟩ | ⟨n, rfl⟩
  · have owner : a.ownerOf x = s.owner := by simp [Analysis.ownerOf, known]
    rcases compiled.place ⟨s, slot, known, plain, ok⟩ found with ⟨isGlobal, f, rfl⟩ |
      ⟨m, n, own, rfl⟩
    · exact ⟨s, known, plain, by simp [Symbol.isLocal, ← owner, isGlobal]⟩
    · exact ⟨s, known, plain, by simp [Symbol.isLocal, ← owner, own]⟩
  · obtain ⟨s, known, isMethod, -⟩ := compiled.named x n found
    exact ⟨s, known, isMethod⟩

theorem fits (compiled : p.Compiled a places u) (formed : p.WellFormed) (h : p.analyze = .ok a) :
    ∀ r ∈ u.entry :: u.routines.toList, ∀ i ∈ r.code.toList, i.Fits u r := by
  have linked := analyze_linked formed h
  intro r mem
  rcases List.mem_cons.mp mem with rfl | mem
  · refine compiled.code_fits linked compiled.code compiled.size (lower_piece formed h).inScope
      (Analysis.lower_contained p) fun x n found own => ?_
    have isLocal := compiled.slots x n found
    simp [own] at isLocal
  · obtain ⟨rs, perm, laid⟩ := compiled.all
    obtain ⟨i, found⟩ := List.mem_iff_getElem?.mp (perm.mem_iff.mpr mem)
    obtain ⟨m, found', laidR⟩ := exists_of_forall₂ laid.flip found
    obtain ⟨-, piece⟩ := method_piece formed h (List.mem_of_getElem? found')
    exact compiled.code_fits linked laidR.code laidR.size piece.inScope
      (Analysis.lowerMethod_contained ..) (slot_typed laidR)

theorem allocated (compiled : p.Compiled a places u) (formed : p.WellFormed)
    (h : p.analyze = .ok a) : p.Allocated a places u where
  sorts _ _ found := compiled.sorts found
  fields x mem isGlobal := by
    obtain ⟨storable, place, found⟩ := compiled.placed_of_access formed h mem
    rcases compiled.place storable found with ⟨-, f, rfl⟩ | ⟨m, n, own, -⟩
    · obtain ⟨slot, ok, once⟩ := compiled.field_once found
      exact ⟨f, slot, found, ok, once⟩
    · simp [isGlobal] at own
  fieldsApart x y f found found' := (compiled.fields y f found').2.2 x found
  entry := ⟨compiled.entry, compiled.heading⟩
  code := compiled.code
  size := compiled.size
  routines := by
    obtain ⟨rs, perm, laid⟩ := compiled.all
    refine ⟨rs, perm, List.forall₂_iff_zip.mpr ⟨laid.length_eq, fun mem => ?_⟩⟩
    exact ⟨_, compiled.housed formed h (List.of_mem_zip mem).1 (List.forall₂_zip laid mem)⟩
  routinesApart x y n found found' := (compiled.apart y n found').2 x found
  notMain x n found := (compiled.apart x n found).1
  fits := compiled.fits formed h

end Compiled

/-- In the unit of a source, storage is allocated without overlap and all that the code names is
there. -/
theorem compile_allocates {package source : String} {u : ObjectUnit}
    (h : compile package source = .ok u) :
    ∃ p a places, parse source = .ok p ∧ p.analyze = .ok a ∧
      a.generate package p = .ok (u, places) ∧ p.Allocated a places u := by
  obtain ⟨p, a, places, parsed, analyzed, generated⟩ := generate_of_compile h
  have formed := parse_wellFormed parsed
  have compiled := generate_compiled formed analyzed generated
  exact ⟨p, a, places, parsed, analyzed, generated, compiled.allocated formed analyzed⟩

/-- A program with a name declared twice, and with two methods of the name of the entry routine. -/
def shadowed : String :=
  "program p int x; boolean[2] b; proc main(int n) \x7b float y; y <- n; " ++
  "proc main(float z) \x7b x <- 1; z <- x \x7d main(y) \x7d " ++
  "b[0] <- true; main(x) \x7b int x; x <- 2; print x \x7d"

theorem shadowed_compiles : ∃ u, compile "demo" shadowed = .ok u :=
  except_of_isOk (by decide +kernel)

theorem compile_allocates_shadowed :
    ∃ u, compile "demo" shadowed = .ok u ∧
      ∃ p a places, parse shadowed = .ok p ∧ p.analyze = .ok a ∧
        a.generate "demo" p = .ok (u, places) ∧ p.Allocated a places u := by
  obtain ⟨u, compiled⟩ := shadowed_compiles
  exact ⟨u, compiled, compile_allocates compiled⟩

end Program

end Guarded
