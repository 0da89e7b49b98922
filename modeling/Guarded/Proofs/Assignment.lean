import Guarded.Proofs.CallFree
import Mathlib.Data.List.Basic

/-!
Assignments to several targets at once. Every operand is computed before the first value is stored,
and the stores go from the last target to the first. So each target denotes its location, and each
value is computed, in the memory before the assignment, and where targets denote one location the
leftmost of them wins.
-/

namespace Guarded

/-- Where a value is kept. -/
inductive Location where
  | slot (n : Nat)
  | field (name : String)
  | element (handle i : Nat)
deriving DecidableEq

def Place.location : Place → Location
  | .slot n => .slot n
  | .field name | .routine name => .field name

namespace Memory

/-- What is at a location. -/
def at? (mem : Memory) : Location → Option Value
  | .slot n => mem.locals[n]?
  | .field name => mem.globals[name]?
  | .element handle i => mem.heap[handle]?.bind fun items => items[i]?

/-- The memory with another value at a location. -/
def set (mem : Memory) (l : Location) (v : Value) : Memory :=
  match l with
  | .slot n => { mem with locals := mem.locals.setIfInBounds n v }
  | .field name => { mem with globals := mem.globals.insert name v }
  | .element handle i =>
    { mem with heap := mem.heap.modify handle fun items => items.setIfInBounds i v }

/-- Memories with the same locations. -/
structure Alike (mem mem' : Memory) : Prop where
  locations : ∀ l, (mem'.at? l).isSome = (mem.at? l).isSome
  sizes : mem'.heap.map Array.size = mem.heap.map Array.size

variable {mem mem' : Memory} {l : Location}

theorem read_eq (mem : Memory) (place : Place) : mem.read place = mem.at? place.location := by
  cases place <;> rfl

/-- A value that is set is there, and no other location changes. -/
theorem at?_set (known : (mem.at? l).isSome = true) (v : Value) (l' : Location) :
    (mem.set l v).at? l' = if l = l' then some v else mem.at? l' := by
  cases l with
  | slot n =>
    have low : n < mem.locals.size := by simpa [at?] using known
    cases l' with
    | slot k => grind [set, at?]
    | field | element => rfl
  | field name =>
    cases l' with
    | field other =>
      simp only [set, at?, Std.TreeMap.getElem?_insert, Std.compare_eq_iff_eq, Location.field.injEq]
    | slot | element => rfl
  | element handle i =>
    cases l' with
    | element other j =>
      obtain ⟨items, found, low⟩ : ∃ items, mem.heap[handle]? = some items ∧ i < items.size := by
        cases found : mem.heap[handle]? with
        | none => simp [at?, found] at known
        | some items => exact ⟨items, rfl, by simpa [at?, found] using known⟩
      simp only [set, at?, Array.getElem?_modify, Location.element.injEq]
      by_cases same : handle = other
      · subst same
        simp [found, Array.getElem?_setIfInBounds, low]
      · simp [same]
    | slot | field => rfl

theorem Alike.refl (mem : Memory) : mem.Alike mem :=
  ⟨fun _ => rfl, rfl⟩

theorem Alike.set (alike : mem.Alike mem') (known : (mem.at? l).isSome = true) (v : Value) :
    mem.Alike (mem'.set l v) := by
  have known' : (mem'.at? l).isSome = true := by rw [alike.locations, known]
  refine ⟨fun l' => ?_, ?_⟩
  · rw [at?_set known']
    split
    · rename_i same
      rw [← same, known]
      rfl
    · exact alike.locations l'
  · rw [← alike.sizes]
    cases l with
    | slot | field => rfl
    | element handle i =>
      refine Array.ext_getElem? fun k => ?_
      simp only [Memory.set, Array.getElem?_map, Array.getElem?_modify]
      split <;> simp [Function.comp_def]

/-- Values are set from the last to the first. -/
def setAll (mem : Memory) (sets : List (Location × Value)) : Memory :=
  sets.foldr (fun s mem => mem.set s.1 s.2) mem

theorem setAll_alike {sets : List (Location × Value)}
    (known : ∀ s ∈ sets, (mem.at? s.1).isSome = true) : mem.Alike (mem.setAll sets) := by
  induction sets with
  | nil => exact .refl mem
  | cons s sets ih =>
    obtain ⟨first, rest⟩ := List.forall_mem_cons.mp known
    exact (ih rest).set first s.2

/-- What is set first in the list is set last, and stays. -/
theorem at?_setAll {sets : List (Location × Value)}
    (known : ∀ s ∈ sets, (mem.at? s.1).isSome = true) (l : Location) :
    (mem.setAll sets).at? l =
      ((sets.find? fun s => s.1 = l).map Prod.snd).or (mem.at? l) := by
  induction sets with
  | nil => rfl
  | cons s sets ih =>
    obtain ⟨first, rest⟩ := List.forall_mem_cons.mp known
    have known' : ((mem.setAll sets).at? s.1).isSome = true := by
      rw [(setAll_alike rest).locations, first]
    rw [List.find?_cons]
    show ((mem.setAll sets).set s.1 s.2).at? l = _
    rw [at?_set known', ih rest]
    by_cases same : s.1 = l
    · simp [same]
    · simp [same]

end Memory

namespace Target

/-- No function is called to find the target. -/
def isCallFree : Target → Bool
  | .var _ => true
  | .index _ i => i.isCallFree

/-- The variable or array that a target names. -/
def symbol (a : Analysis) : Target → SymbolId
  | .var name | .index name _ => a.symbolOf name

section
variable {a : Analysis} {σ : Type} (places : Places)
variable (call : (id : SymbolId) → Store a → Eval a σ (Flow (a.symbolType id)))
variable (mem : Memory) (h : σ)

/-- The location a target denotes. That of an element is known by the array and the index, as they
are in this memory. -/
def Denotes : Target → Location → Prop
  | .var name, l => ∃ place, places[a.symbolOf name]? = some place ∧ l = place.location
  | .index array i, l => ∃ place handle, ∃ j : Int32, places[a.symbolOf array]? = some place ∧
      mem.read place = some (.array handle) ∧
      Eval.need .int (i.eval call) (mem.state a places h) = .ok j (mem.state a places h) ∧
      0 ≤ j ∧ l = .element handle j.toInt.toNat

/-- The value has a value in this memory, which in the type of the target is `v`, and the target
denotes a location that there is. -/
def Writes (target : Target) (value : Expr) (l : Location) (v : Value) : Prop :=
  target.Denotes places call mem h l ∧ (mem.at? l).isSome = true ∧
    ∃ w, Eval.need (a.symbolType (target.symbol a)) (value.eval call) (mem.state a places h) =
      .ok w (mem.state a places h) ∧ v = (a.symbolType (target.symbol a)).encode w

/-- The locations and values that an assignment writes. -/
def WriteAll (pairs : List (Target × Expr)) (sets : List (Location × Value)) : Prop :=
  List.Forall₂ (fun pair s => pair.1.Writes places call mem h pair.2 s.1 s.2) pairs sets

/-- Every pair of an assignment can be written. -/
def Feasible (pairs : List (Target × Expr)) : Prop :=
  ∀ pair ∈ pairs, ∃ l v, pair.1.Writes places call mem h pair.2 l v

/-- What is below the value on the stack when the stores begin: for an element its index, and below
that its array. -/
def Finds (place : Place) : Target → List Value → Prop
  | .var _, operands => operands = []
  | .index _ i, operands => ∃ handle, ∃ j : Int32, mem.read place = some (encodeHandle handle) ∧
      Eval.need .int (i.eval call) (mem.state a places h) = .ok j (mem.state a places h) ∧
      operands = [.int j, encodeHandle handle]

/-- What is on the stack for a target when the stores begin. -/
def Leaves (target : Target) (value : Expr) (operands : List Value) : Prop :=
  ∃ place v below, places[target.symbol a]? = some place ∧ (mem.read place).isSome = true ∧
    Eval.need (a.symbolType (target.symbol a)) (value.eval call) (mem.state a places h) =
      .ok v (mem.state a places h) ∧
    target.Finds places call mem h place below ∧
    operands = (a.symbolType (target.symbol a)).encode v :: below

end

section
variable {a : Analysis} {σ : Type} {places : Places}
variable {call : (id : SymbolId) → Store a → Eval a σ (Flow (a.symbolType id))}
variable {mem : Memory} {h : σ} {target : Target} {l l' : Location}
variable {pairs : List (Target × Expr)} {sets : List (Location × Value)}

theorem Denotes.unique (denotes : target.Denotes places call mem h l)
    (denotes' : target.Denotes places call mem h l') : l = l' := by
  cases target with
  | var name =>
    obtain ⟨place, known, rfl⟩ := denotes
    obtain ⟨place', known', rfl⟩ := denotes'
    rw [Option.some.inj (known.symm.trans known')]
  | index array i =>
    obtain ⟨place, handle, j, known, reads, run, -, rfl⟩ := denotes
    obtain ⟨place', handle', j', known', reads', run', -, rfl⟩ := denotes'
    obtain rfl := Option.some.inj (known.symm.trans known')
    obtain rfl := Value.array.inj (Option.some.inj (reads.symm.trans reads'))
    obtain ⟨rfl, -⟩ := EStateM.Result.ok.inj (run.symm.trans run')
    rfl

namespace WriteAll

theorem known (writes : WriteAll places call mem h pairs sets) :
    ∀ s ∈ sets, (mem.at? s.1).isSome = true := by
  induction writes with
  | nil => nofun
  | cons write _ ih => exact List.forall_mem_cons.mpr ⟨write.2.1, ih⟩

theorem feasible (writes : WriteAll places call mem h pairs sets) :
    Feasible places call mem h pairs := by
  induction writes with
  | nil => nofun
  | cons write _ ih => exact List.forall_mem_cons.mpr ⟨⟨_, _, write⟩, ih⟩

/-- Nothing is set at a location that no target denotes. -/
theorem find_none (writes : WriteAll places call mem h pairs sets)
    (unnamed : ∀ pair ∈ pairs, ¬ pair.1.Denotes places call mem h l) :
    sets.find? (fun s => s.1 = l) = none := by
  induction writes with
  | nil => rfl
  | @cons _ s _ _ write _ ih =>
    obtain ⟨first, rest⟩ := List.forall_mem_cons.mp unnamed
    have other : s.1 ≠ l := fun same => first (same ▸ write.1)
    rw [List.find?_cons_of_neg (by simpa using other), ih rest]

/-- The leftmost target that denotes a location says what is set there last. -/
theorem find_first {before after : List (Target × Expr)} {pair : Target × Expr}
    (writes : WriteAll places call mem h (before ++ pair :: after) sets)
    (denotes : pair.1.Denotes places call mem h l)
    (leftmost : ∀ other ∈ before, ¬ other.1.Denotes places call mem h l) :
    ∃ v, pair.1.Writes places call mem h pair.2 l v ∧
      sets.find? (fun s => s.1 = l) = some (l, v) := by
  induction before generalizing sets with
  | nil =>
    obtain _ | @⟨_, s, _, _, write, -⟩ := writes
    obtain rfl := write.1.unique denotes
    exact ⟨s.2, write, by simp⟩
  | cons other before ih =>
    obtain ⟨first, rest⟩ := List.forall_mem_cons.mp leftmost
    obtain _ | @⟨_, s, _, _, write, writes⟩ := writes
    have other : s.1 ≠ l := fun same => first (same ▸ write.1)
    rw [List.find?_cons_of_neg (by simpa using other)]
    exact ih writes rest

end WriteAll

end

/-- A target and a value of a program whose names are all stored as they should be. -/
structure Assignable (a : Analysis) (here : Option SymbolId) (places : Places) (mem : Memory)
    (target : Target) (value : Expr) : Prop where
  bound : target.Bound a here
  boundValue : value.Bound a here
  typed : target.Typed a value
  free : target.isCallFree = true
  freeValue : value.isCallFree = true
  keeps : ∀ name ∈ target.names, mem.Keeps a places (a.symbolOf name)
  keepsValue : ∀ name ∈ value.names, mem.Keeps a places (a.symbolOf name)

end Target

section Straight
variable {a : Analysis}

theorem Analysis.lowerSource_straight {target : Target} {value : Expr}
    (free : target.isCallFree = true) (freeValue : value.isCallFree = true) :
    (a.lowerSource target value).all Op.isStraight = true := by
  cases target with
  | var name => exact withSymbol_straight _ fun id => lowerExpr_straight value _ freeValue
  | index array i =>
    refine withSymbol_straight _ fun id => ?_
    rw [List.all_append, List.all_append, lowerExpr_straight i _ free,
      lowerExpr_straight value _ freeValue]
    rfl

theorem Analysis.lowerStore_straight (target : Target) :
    (a.lowerStore target).all Op.isStraight = true := by
  cases target <;> exact withSymbol_straight _ fun id => rfl

theorem Analysis.lowerAssign_cons (a : Analysis) (target : Target) (targets : List Target)
    (value : Expr) (values : List Expr) : a.lowerAssign (target :: targets) (value :: values) =
      a.lowerSource target value ++ a.lowerAssign targets values ++ a.lowerStore target := by
  simp [Analysis.lowerAssign]

theorem Analysis.lowerAssign_straight : {pairs : List (Target × Expr)} →
    (∀ pair ∈ pairs, pair.1.isCallFree = true ∧ pair.2.isCallFree = true) →
      (a.lowerAssign (pairs.map Prod.fst) (pairs.map Prod.snd)).all Op.isStraight = true
  | [], _ => rfl
  | _ :: _, free => by
    obtain ⟨first, rest⟩ := List.forall_mem_cons.mp free
    simp only [List.map_cons, lowerAssign_cons, List.all_append,
      lowerSource_straight first.1 first.2, lowerAssign_straight rest, lowerStore_straight]
    rfl

end Straight

section Assigning
variable {σ : Type} {host : Machine.Host σ} {a : Analysis} {places : Places} {q : Spot}
variable {call : (id : SymbolId) → Store a → Eval a σ (Flow (a.symbolType id))}
variable {here : Option SymbolId} {mem : Memory} {h : σ} {stack : List Value} {pos : Nat}
variable {target : Target} {value : Expr}

/-- A run ends with a fault of the program. -/
def Traps (host : Machine.Host σ) (m : Machine) (h : σ) : Prop :=
  ∃ t : Trap, Machine.Ends host (m, h) (.error t.error h)

/-- The operands of a target are computed, or the run ends and nothing can be written. -/
theorem Target.Assignable.sources (pair : target.Assignable a here places mem value)
    (code : Op.CodeAt a places q.routine.code pos (a.lowerSource target value)) :
    (∃ operands, target.Leaves places call mem h value operands ∧
      Machine.Reaches host (q.machine pos stack mem, h)
        (q.machine (pos + Op.sizeAll (a.lowerSource target value)) (operands ++ stack) mem, h)) ∨
    Traps host (q.machine pos stack mem) h ∧ ∀ l v, ¬ target.Writes places call mem h value l v := by
  cases target with
  | var name =>
    obtain ⟨typed, id, found, fits, terminal⟩ := pair.typed
    obtain rfl := Analysis.symbolOf_eq found
    simp only [Analysis.lowerSource, Analysis.withSymbol_of found] at code ⊢
    obtain ⟨place, -, w, known, -, there, -⟩ := pair.keeps name List.mem_cons_self
    rcases Expr.computes host call h stack pair.freeValue pair.boundValue typed pair.keepsValue fits
      terminal code with ⟨v, run, reaches⟩ | ⟨t, run, ends⟩
    · exact Or.inl ⟨_, ⟨place, v, [], known, by simp [there], run, rfl, rfl⟩, reaches⟩
    · refine Or.inr ⟨⟨t, ends⟩, ?_⟩
      rintro l v ⟨-, -, w, run', -⟩
      cases run.symm.trans run'
  | index array i =>
    obtain ⟨⟨id, sym, named, kind, -⟩, boundIndex⟩ := pair.bound
    obtain ⟨typedIndex, isInt, typed, id', found, fits, terminal⟩ := pair.typed
    obtain rfl := Option.some.inj (named.1.symm.trans found)
    obtain rfl := Analysis.symbolOf_eq found
    have isArray : a.symbolKind (a.symbolOf array) = .array := by
      simp [Analysis.symbolKind, named.2, kind]
    have low := (Array.getElem?_eq_some_iff.mp named.2).1
    obtain ⟨keeps, keepsIndex⟩ := List.forall_mem_cons.mp pair.keeps
    obtain ⟨place, handle, known, there, -⟩ := keeps.array isArray terminal low h
    simp only [Analysis.lowerSource, Analysis.withSymbol_of found, Op.codeAt_append,
      Op.sizeAll_append, ← Nat.add_assoc] at code ⊢
    obtain ⟨⟨loads, indexes⟩, values⟩ := code
    have load : Machine.Reaches host (q.machine pos stack mem, h)
        (q.machine (pos + 1) (encodeHandle handle :: stack) mem, h) :=
      Memory.reaches_load loads known there
    rcases Expr.computes host call h (encodeHandle handle :: stack) pair.free boundIndex typedIndex
      keepsIndex (Ty.compatible_of_eq isInt rfl) rfl indexes with ⟨j, run, reaches⟩ | ⟨t, run, ends⟩
    · rcases Expr.computes host call h (.int j :: encodeHandle handle :: stack) pair.freeValue
        pair.boundValue typed pair.keepsValue fits terminal values with
        ⟨v, run', reaches'⟩ | ⟨t, run', ends⟩
      · exact Or.inl ⟨_, ⟨place, v, _, known, by simp [there], run', ⟨handle, j, there, run, rfl⟩,
          rfl⟩, load.trans (reaches.trans reaches')⟩
      · refine Or.inr ⟨⟨t, load.ends (reaches.ends ends)⟩, ?_⟩
        rintro l v ⟨-, -, w, run'', -⟩
        cases run'.symm.trans run''
    · refine Or.inr ⟨⟨t, load.ends ends⟩, ?_⟩
      rintro l v ⟨⟨place', handle', j, -, -, run', -⟩, -⟩
      cases run.symm.trans run'

/-- A value is stored at the place of a symbol. -/
theorem Memory.reaches_store {x : SymbolId} {place : Place} {v : Value}
    (code : Op.CodeAt a places q.routine.code pos [.store x]) (known : places[x]? = some place)
    (there : (mem.at? place.location).isSome = true) :
    Machine.Reaches host (q.machine pos (v :: stack) mem, h)
      (q.machine (pos + 1) stack (mem.set place.location v), h) := by
  obtain ⟨i, found, place', slot, known', -, rfl⟩ := code.1 rfl
  obtain rfl := Option.some.inj (known.symm.trans known')
  obtain ⟨w, there⟩ := Option.isSome_iff_exists.mp there
  cases place with
  | slot n =>
    have stores := Assemble.storeInstr_slot n slot
    refine Spot.reaches_instr found stores.2 ?_ rfl
    rw [stores.1]
    exact Exec.storeLocal_ok (m := q.machine (pos + 1) stack mem) rfl
      (Array.getElem?_eq_some_iff.mp there).1
  | field f | routine f =>
    exact Spot.reaches_instr found rfl
      (Exec.storeGlobal_ok (m := q.machine (pos + 1) stack mem) there) rfl

theorem Memory.at?_element {handle i : Nat} :
    (mem.at? (.element handle i)).isSome = true ↔ i < (mem.heap[handle]?.map Array.size).getD 0 := by
  cases found : mem.heap[handle]? <;> simp [Memory.at?, found]

/-- A value is stored in an array if there is such an element. -/
theorem Memory.stores_element {instr : Instr} (found : q.routine.code[pos]? = some instr)
    (stores : instr = .iastore ∨ instr = .fastore) (handle : Option Nat) (j : Int32) (v : Value) :
    (∃ k, handle = some k ∧ 0 ≤ j ∧ (mem.at? (.element k j.toInt.toNat)).isSome = true ∧
      Machine.Reaches host (q.machine pos (v :: .int j :: encodeHandle handle :: stack) mem, h)
        (q.machine (pos + 1) stack (mem.set (.element k j.toInt.toNat) v), h)) ∨
    Traps host (q.machine pos (v :: .int j :: encodeHandle handle :: stack) mem) h ∧
      ∀ k, handle = some k → 0 ≤ j → (mem.at? (.element k j.toInt.toNat)).isSome = false := by
  have plain : instr.isPlain = true := by rcases stores with rfl | rfl <;> rfl
  have located := Exec.element_eq
    (q.machine (pos + 1) (.int j :: encodeHandle handle :: stack) mem) j handle rfl
  have ends {e : Error} (fails : Exec.element (q.machine (pos + 1)
      (.int j :: encodeHandle handle :: stack) mem) = .error e) : Machine.Ends host
        (q.machine pos (v :: .int j :: encodeHandle handle :: stack) mem, h) (.error e h) := by
    refine Spot.ends_instr found plain ?_
    rw [Exec.instr_putElement stores rfl]
    exact congrArg (Except.bind · _) fails
  cases handle with
  | none => exact Or.inr ⟨⟨.nullArray, ends located⟩, nofun⟩
  | some k =>
    dsimp only at located
    split at located
    · rename_i inside
      simp only [Bool.and_eq_true, decide_eq_true_eq] at inside
      refine Or.inl ⟨k, rfl, inside.1, at?_element.mpr inside.2,
        Spot.reaches_instr found plain ?_ rfl⟩
      rw [Exec.instr_putElement stores rfl]
      exact congrArg (Except.bind · _) located
    · rename_i outside
      refine Or.inr ⟨⟨.indexOutOfBounds .., ends located⟩, ?_⟩
      rintro k' ⟨⟩ positive
      rw [Bool.eq_false_iff, ne_eq, at?_element]
      exact fun low => outside (by simpa using ⟨positive, low⟩)

/-- A target gets its value, or the run ends and nothing can be written. The memory may have changed
since the operands were computed. -/
theorem Target.Assignable.stores (pair : target.Assignable a here places mem value)
    {operands : List Value} (leaves : target.Leaves places call mem h value operands)
    {mem' : Memory} (alike : mem.Alike mem')
    (code : Op.CodeAt a places q.routine.code pos (a.lowerStore target)) :
    (∃ l v, target.Writes places call mem h value l v ∧
      Machine.Reaches host (q.machine pos (operands ++ stack) mem', h)
        (q.machine (pos + Op.sizeAll (a.lowerStore target)) stack (mem'.set l v), h)) ∨
    Traps host (q.machine pos (operands ++ stack) mem') h ∧
      ∀ l v, ¬ target.Writes places call mem h value l v := by
  obtain ⟨place, v, below, known, there, run, finds, rfl⟩ := leaves
  cases target with
  | var name =>
    obtain ⟨typed, id, found, fits, terminal⟩ := pair.typed
    obtain rfl := Analysis.symbolOf_eq found
    obtain rfl : below = [] := finds
    simp only [Analysis.lowerStore, Analysis.withSymbol_of found] at code ⊢
    rw [Memory.read_eq] at there
    exact Or.inl ⟨place.location, _, ⟨⟨place, known, rfl⟩, there, v, run, rfl⟩,
      Memory.reaches_store code known (by rw [alike.locations, there])⟩
  | index array i =>
    obtain ⟨typedIndex, isInt, typed, id, found, fits, terminal⟩ := pair.typed
    obtain rfl := Analysis.symbolOf_eq found
    obtain ⟨handle, j, reads, index, rfl⟩ := finds
    simp only [Analysis.lowerStore, Analysis.withSymbol_of found] at code ⊢
    obtain ⟨instr, there', same⟩ := code.1 rfl
    have isStore : instr = .iastore ∨ instr = .fastore := by
      rw [same]
      split
      · exact Or.inr rfl
      · exact Or.inl rfl
    rcases Memory.stores_element there' isStore handle j _ with
      ⟨k, rfl, positive, inside, reaches⟩ | ⟨traps, outside⟩
    · rw [alike.locations] at inside
      exact Or.inl ⟨_, _, ⟨⟨place, k, j, known, reads, index, positive, rfl⟩, inside, v, run, rfl⟩,
        reaches⟩
    · refine Or.inr ⟨traps, ?_⟩
      rintro l w ⟨⟨place', k, j', known', reads', index', positive, rfl⟩, inside, -⟩
      obtain rfl := Option.some.inj (known.symm.trans known')
      obtain ⟨rfl, -⟩ := EStateM.Result.ok.inj (index.symm.trans index')
      obtain rfl : handle = some k := by
        cases handle with
        | none => cases Option.some.inj (reads.symm.trans reads')
        | some k' => exact congrArg some (Value.array.inj (Option.some.inj (reads.symm.trans reads')))
      have absent := outside k rfl positive
      rw [alike.locations, inside] at absent
      cases absent

/-- The code of an assignment encloses that of the assignment without its first pair. So what is set
for the rest is set first, and the first target gets a value that was computed before. -/
theorem Target.assigns : {pairs : List (Target × Expr)} → {pos : Nat} → {stack : List Value} →
    (∀ pair ∈ pairs, pair.1.Assignable a here places mem pair.2) →
    Op.CodeAt a places q.routine.code pos
      (a.lowerAssign (pairs.map Prod.fst) (pairs.map Prod.snd)) →
    (∃ sets, Target.WriteAll places call mem h pairs sets ∧
      Machine.Reaches host (q.machine pos stack mem, h) (q.machine (pos + Op.sizeAll
        (a.lowerAssign (pairs.map Prod.fst) (pairs.map Prod.snd))) stack (mem.setAll sets), h)) ∨
    Traps host (q.machine pos stack mem) h ∧ ¬ Target.Feasible places call mem h pairs
  | [], pos, stack, _, _ => Or.inl ⟨[], .nil, .refl _⟩
  | (target, value) :: pairs, pos, stack, assignable, code => by
    obtain ⟨first, rest⟩ := List.forall_mem_cons.mp assignable
    simp only [List.map_cons, Analysis.lowerAssign_cons, Op.codeAt_append, Op.sizeAll_append,
      ← Nat.add_assoc] at code ⊢
    obtain ⟨⟨sources, inner⟩, stores⟩ := code
    have infeasible (never : ∀ l v, ¬ target.Writes places call mem h value l v) :
        ¬ Target.Feasible places call mem h ((target, value) :: pairs) := fun feasible =>
      let ⟨l, v, writes⟩ := feasible _ List.mem_cons_self
      never l v writes
    rcases first.sources sources with ⟨operands, leaves, reaches⟩ | ⟨traps, never⟩
    · rcases Target.assigns rest inner with ⟨sets, writes, reaches'⟩ | ⟨⟨t, ends⟩, never⟩
      · rcases first.stores leaves (Memory.setAll_alike writes.known) stores with
          ⟨l, v, write, reaches''⟩ | ⟨⟨t, ends⟩, never⟩
        · exact Or.inl ⟨(l, v) :: sets, .cons write writes,
            reaches.trans (reaches'.trans reaches'')⟩
        · exact Or.inr ⟨⟨t, reaches.ends (reaches'.ends ends)⟩, infeasible never⟩
      · exact Or.inr ⟨⟨t, reaches.ends ends⟩,
          fun feasible => never (List.forall_mem_cons.mp feasible).2⟩
    · exact Or.inr ⟨traps, infeasible never⟩

/-- What an assignment makes of a memory. A location that targets denote holds what the leftmost of
them was to get, and the others are as they were. -/
structure Assigned (places : Places)
    (call : (id : SymbolId) → Store a → Eval a σ (Flow (a.symbolType id))) (h : σ)
    (pairs : List (Target × Expr)) (mem mem' : Memory) : Prop where
  stored : ∀ before pair after l, pairs = before ++ pair :: after →
    pair.1.Denotes places call mem h l →
    (∀ other ∈ before, ¬ other.1.Denotes places call mem h l) →
    ∃ w, Eval.need (a.symbolType (pair.1.symbol a)) (pair.2.eval call) (mem.state a places h) =
        .ok w (mem.state a places h) ∧
      mem'.at? l = some ((a.symbolType (pair.1.symbol a)).encode w)
  kept : ∀ l, (∀ pair ∈ pairs, ¬ pair.1.Denotes places call mem h l) → mem'.at? l = mem.at? l
  sizes : mem'.heap.map Array.size = mem.heap.map Array.size

theorem Target.WriteAll.assigned {pairs : List (Target × Expr)} {sets : List (Location × Value)}
    (writes : Target.WriteAll places call mem h pairs sets) :
    Assigned places call h pairs mem (mem.setAll sets) where
  stored := by
    rintro before pair after l rfl denotes leftmost
    obtain ⟨v, ⟨-, -, w, run, rfl⟩, found⟩ := writes.find_first denotes leftmost
    exact ⟨w, run, by simp [Memory.at?_setAll writes.known, found]⟩
  kept l unnamed := by
    simp [Memory.at?_setAll writes.known, writes.find_none unnamed]
  sizes := (Memory.setAll_alike writes.known).sizes

/-- Memories that hold the same. -/
structure Memory.Agrees (mem mem' : Memory) : Prop where
  locations : ∀ l, mem'.at? l = mem.at? l
  sizes : mem'.heap.map Array.size = mem.heap.map Array.size

/-- Targets that denote no location in common. -/
def Target.Apart (places : Places)
    (call : (id : SymbolId) → Store a → Eval a σ (Flow (a.symbolType id))) (mem : Memory) (h : σ)
    (target target' : Target) : Prop :=
  ∀ l, target.Denotes places call mem h l → ¬ target'.Denotes places call mem h l

variable (host call h stack) in
/-- The code of an assignment runs through if every pair can be written, and ends otherwise. -/
theorem Emission.assigns {targets : List Target} {values : List Expr} {s t : Assembly}
    (code : Emission (Assemble.assign a targets values) q.routine s t)
    (arity : targets.length = values.length) (below : Places.Below t.places places)
    (assignable : ∀ pair ∈ targets.zip values, pair.1.Assignable a here places mem pair.2) :
    (Target.Feasible places call mem h (targets.zip values) ∧
      ∃ mem', Machine.Reaches host (q.machine s.draft.code.size stack mem, h)
          (q.machine t.draft.code.size stack mem', h) ∧
        Assigned places call h (targets.zip values) mem mem') ∨
    ¬ Target.Feasible places call mem h (targets.zip values) ∧
      Traps host (q.machine s.draft.code.size stack mem) h := by
  have realizes := Assemble.assign_realizes (a := a) (fun _ _ => False) s targets values
  have same : a.lowerAssign targets values = a.lowerAssign ((targets.zip values).map Prod.fst)
      ((targets.zip values).map Prod.snd) := by
    rw [List.map_fst_zip arity.le, List.map_snd_zip arity.ge]
  rw [same] at realizes
  have straight := Analysis.lowerAssign_straight (a := a)
    fun pair inside => ⟨(assignable pair inside).free, (assignable pair inside).freeValue⟩
  obtain ⟨codeAt, size, -⟩ := code.codeAt realizes straight
  rw [size]
  rcases Target.assigns assignable (codeAt.mono below) with
    ⟨sets, writes, reaches⟩ | ⟨traps, infeasible⟩
  · exact Or.inl ⟨writes.feasible, _, reaches, writes.assigned⟩
  · exact Or.inr ⟨infeasible, traps⟩

/-- With targets apart the order of the pairs does not matter. -/
theorem Assigned.agrees {pairs pairs' : List (Target × Expr)} {mem' mem'' : Memory}
    (assigned : Assigned places call h pairs mem mem')
    (assigned' : Assigned places call h pairs' mem mem'') (perm : pairs'.Perm pairs)
    (apart : pairs.Pairwise fun x y => x.1.Apart places call mem h y.1) : mem'.Agrees mem'' := by
  refine ⟨fun l => ?_, assigned'.sizes.trans assigned.sizes.symm⟩
  have apart' : pairs'.Pairwise fun x y => x.1.Apart places call mem h y.1 :=
    (perm.pairwise_iff fun distinct l denotes denotes' => distinct l denotes' denotes).mpr apart
  -- A target that denotes a location is the leftmost one to do so.
  have alone {pairs : List (Target × Expr)} {pair : Target × Expr} (inside : pair ∈ pairs)
      (apart : pairs.Pairwise fun x y => x.1.Apart places call mem h y.1)
      (denotes : pair.1.Denotes places call mem h l) : ∃ before after,
        pairs = before ++ pair :: after ∧
        ∀ other ∈ before, ¬ other.1.Denotes places call mem h l := by
    obtain ⟨before, after, rfl⟩ := List.append_of_mem inside
    refine ⟨before, after, rfl, fun other early denotes' => ?_⟩
    exact (List.pairwise_append.mp apart).2.2 other early pair List.mem_cons_self l denotes' denotes
  by_cases named : ∃ pair ∈ pairs, pair.1.Denotes places call mem h l
  · obtain ⟨pair, inside, denotes⟩ := named
    obtain ⟨before, after, same, leftmost⟩ := alone inside apart denotes
    obtain ⟨before', after', same', leftmost'⟩ := alone (perm.mem_iff.mpr inside) apart' denotes
    obtain ⟨w, run, stored⟩ := assigned.stored _ _ _ l same denotes leftmost
    obtain ⟨w', run', stored'⟩ := assigned'.stored _ _ _ l same' denotes leftmost'
    obtain ⟨rfl, -⟩ := EStateM.Result.ok.inj (run.symm.trans run')
    rw [stored, stored']
  · have unnamed : ∀ pair ∈ pairs, ¬ pair.1.Denotes places call mem h l :=
      fun pair inside denotes => named ⟨pair, inside, denotes⟩
    rw [assigned.kept l unnamed,
      assigned'.kept l fun pair inside => unnamed pair (perm.mem_iff.mp inside)]

end Assigning

section Statements
variable {a : Analysis} {here : Option SymbolId}

mutual

/-- Every statement inside a statement is bound and typed, in the method it stands in. -/
theorem Stmt.inner_checked {here : Option SymbolId} : {s : Stmt} → s.Bound a here →
    s.Typed a here → ∀ s' ∈ s.inner, ∃ here', s'.Bound a here' ∧ s'.Typed a here'
  | .method .., bound, typed, s', inside => by
    obtain ⟨id, ⟨sym, ids, named, -⟩, bound⟩ := bound
    obtain ⟨id', named', typed⟩ := typed
    obtain rfl := Option.some.inj (named.1.symm.trans named')
    exact Stmt.innerAll_checked bound typed s' inside
  | .block .., bound, typed, s', inside => Stmt.innerAll_checked bound typed s' inside
  | .alternative .., bound, typed, s', inside | .iterative .., bound, typed, s', inside =>
    Guard.innerAll_checked bound typed s' inside
  | .varDecl .., _, _, _, inside | .arrayDecl .., _, _, _, inside | .assign .., _, _, _, inside
  | .input .., _, _, _, inside | .print .., _, _, _, inside | .ret .., _, _, _, inside
  | .call .., _, _, _, inside => by simp [Stmt.inner] at inside

theorem Stmt.innerAll_checked {here : Option SymbolId} : {ss : List Stmt} →
    Stmt.BoundAll a here ss → Stmt.TypedAll a here ss →
      ∀ s' ∈ Stmt.innerAll ss, ∃ here', s'.Bound a here' ∧ s'.Typed a here'
  | [], _, _, _, inside => by simp [Stmt.innerAll] at inside
  | _ :: _, bound, typed, s', inside => by
    rcases List.mem_cons.mp inside with rfl | inside
    · exact ⟨here, bound.1, typed.1⟩
    · rcases List.mem_append.mp inside with inside | inside
      · exact Stmt.inner_checked bound.1 typed.1 s' inside
      · exact Stmt.innerAll_checked bound.2 typed.2 s' inside

theorem Guard.innerAll_checked {here : Option SymbolId} : {gs : List Guard} →
    Guard.BoundAll a here gs → Guard.TypedAll a here gs →
      ∀ s' ∈ Guard.innerAll gs, ∃ here', s'.Bound a here' ∧ s'.Typed a here'
  | [], _, _, _, inside => by simp [Guard.innerAll] at inside
  | .mk .. :: _, bound, typed, s', inside => by
    rcases List.mem_cons.mp inside with rfl | inside
    · exact ⟨here, bound.2.1, typed.2.2.1⟩
    · rcases List.mem_append.mp inside with inside | inside
      · exact Stmt.inner_checked bound.2.1 typed.2.2.1 s' inside
      · exact Guard.innerAll_checked bound.2.2 typed.2.2.2 s' inside

end

theorem Expr.BoundAll.mem {e : Expr} : {es : List Expr} → Expr.BoundAll a here es → e ∈ es →
    e.Bound a here
  | _ :: _, bound, inside => by
    rcases List.mem_cons.mp inside with rfl | inside
    · exact bound.1
    · exact Expr.BoundAll.mem bound.2 inside

theorem Expr.names_subset {e : Expr} : {es : List Expr} → e ∈ es → e.names ⊆ Expr.namesAll es
  | _ :: _, inside => by
    rcases List.mem_cons.mp inside with rfl | inside
    · exact List.subset_append_left ..
    · exact List.Subset.trans (Expr.names_subset inside) (List.subset_append_right ..)

/-- Every pair of an assignment without calls. -/
theorem Stmt.assignable {node : Node} {targets : List Target} {values : List Expr}
    {places : Places} {mem : Memory} (bound : (Stmt.assign node targets values).Bound a here)
    (typed : (Stmt.assign node targets values).Typed a here)
    (free : ∀ target ∈ targets, target.isCallFree = true)
    (freeValues : ∀ value ∈ values, value.isCallFree = true)
    (keeps : ∀ name ∈ (Stmt.assign node targets values).names,
      mem.Keeps a places (a.symbolOf name)) :
    ∀ pair ∈ targets.zip values, pair.1.Assignable a here places mem pair.2 := by
  rintro ⟨target, value⟩ inside
  obtain ⟨inTargets, inValues⟩ := List.of_mem_zip inside
  obtain ⟨-, boundTargets, boundValues⟩ := bound
  exact {
    bound := boundTargets target inTargets
    boundValue := boundValues.mem inValues
    typed := (List.forall₂_iff_zip.mp typed).2 inside
    free := free target inTargets
    freeValue := freeValues value inValues
    keeps name used := keeps name
      (List.mem_append_left _ (List.mem_flatMap.mpr ⟨target, inTargets, used⟩))
    keepsValue name used := keeps name
      (List.mem_append_right _ (Expr.names_subset inValues used)) }

end Statements

namespace Program

/-- An assignment to several targets at once, whose values and indices call no function. If every
target denotes a location and every value can be computed, in the memory before, its code runs
through. Then each location that targets denote holds what the leftmost of them was to get, and
nothing else has changed. Otherwise the run ends with a fault. If the targets denote different
locations, the order of the pairs does not matter. -/
theorem assign_simultaneous {source : String} {p : Program} {a : Analysis}
    (parsed : parse source = .ok p) (analyzed : p.analyze = .ok a) {node : Node}
    {targets : List Target} {values : List Expr} (inside : .assign node targets values ∈ p.stmts)
    (free : ∀ target ∈ targets, target.isCallFree = true)
    (freeValues : ∀ value ∈ values, value.isCallFree = true) {q : Spot} {s t : Assembly}
    (code : Emission (Assemble.assign a targets values) q.routine s t) {places : Places}
    (below : Places.Below t.places places) {mem : Memory}
    (keeps : ∀ name ∈ (Stmt.assign node targets values).names,
      mem.Keeps a places (a.symbolOf name)) {σ : Type} (host : Machine.Host σ) (h : σ)
    (stack : List Value) (call : (id : SymbolId) → Store a → Eval a σ (Flow (a.symbolType id))) :
    let pairs := targets.zip values
    let start := q.machine s.draft.code.size stack mem
    let stop := q.machine t.draft.code.size stack
    let feasible := Target.Feasible places call mem h pairs
    ((feasible ∧ ∃ mem', Machine.Reaches host (start, h) (stop mem', h) ∧
        Assigned places call h pairs mem mem') ∨
      ¬ feasible ∧ Traps host start h) ∧
    ((pairs.Pairwise fun x y => x.1.Apart places call mem h y.1) →
      ∀ (targets' : List Target) (values' : List Expr), targets'.length = values'.length →
        (targets'.zip values').Perm pairs → ∀ (q' : Spot) (s' t' : Assembly),
        Emission (Assemble.assign a targets' values') q'.routine s' t' →
        Places.Below t'.places places →
      let start' := q'.machine s'.draft.code.size stack mem
      let stop' := q'.machine t'.draft.code.size stack
      (∃ mem' mem'', Machine.Reaches host (start, h) (stop mem', h) ∧
        Machine.Reaches host (start', h) (stop' mem'', h) ∧ mem'.Agrees mem'') ∨
      Traps host start h ∧ Traps host start' h) := by
  have formed := parse_wellFormed parsed
  obtain ⟨here, bound, typed⟩ := Stmt.innerAll_checked (analyze_linked formed analyzed).bound
    (analyze_body_typed formed analyzed) _ inside
  have assignable := Stmt.assignable bound typed free freeValues keeps
  have first := code.assigns host call h stack bound.1 below assignable
  refine ⟨first, fun apart targets' values' arity perm q' s' t' code' below' => ?_⟩
  have second := code'.assigns host call h stack arity below'
    fun pair inside => assignable pair (perm.mem_iff.mp inside)
  rcases first with ⟨feasible, mem', reaches, assigned⟩ | ⟨infeasible, traps⟩
  · rcases second with ⟨-, mem'', reaches', assigned'⟩ | ⟨infeasible, -⟩
    · exact Or.inl ⟨mem', mem'', reaches, reaches', assigned.agrees assigned' perm apart⟩
    · exact absurd (fun pair inside => feasible pair (perm.mem_iff.mp inside)) infeasible
  · rcases second with ⟨feasible, -⟩ | ⟨-, traps'⟩
    · exact absurd (fun pair inside => feasible pair (perm.mem_iff.mpr inside)) infeasible
    · exact Or.inr ⟨traps, traps'⟩

/-- An element and the index it is found with change places. -/
def rotated : String :=
  "program p int i; int[2] a; a[i], i <- i, a[i]"

/-- The targets and values of a statement that assigns to an element and to a variable. -/
def elementAndVariable? : Stmt → Option (Node × (Ident × Expr) × Ident × Expr × Expr)
  | .assign node [.index array i, .var name] [v, w] => some (node, (array, i), name, v, w)
  | _ => none

theorem elementAndVariable?_eq_some {s : Stmt} {node : Node} {array name : Ident} {i v w : Expr}
    (h : elementAndVariable? s = some (node, (array, i), name, v, w)) :
    s = .assign node [.index array i, .var name] [v, w] := by
  unfold elementAndVariable? at h
  split at h
  · simp only [Option.some.injEq, Prod.mk.injEq] at h
    obtain ⟨rfl, ⟨rfl, rfl⟩, rfl, rfl, rfl⟩ := h
    rfl
  · cases h

theorem assign_simultaneous_rotated : ∃ p a node array i name v w t t' r,
    parse rotated = .ok p ∧ p.analyze = .ok a ∧
    .assign node [.index array i, .var name] [v, w] ∈ p.stmts ∧ t'.draft.finish = .ok r ∧
    Emission (Assemble.assign a [.index array i, .var name] [v, w]) r .initial t ∧
    Emission (Assemble.assign a [.var name, .index array i] [w, v]) r t t' ∧
    ∀ (host : Machine.Host Unit)
      (call : (id : SymbolId) → Store a → Eval a Unit (Flow (a.symbolType id))),
      let pairs := [(.index array i, v), (.var name, w)]
      let start := (alone r).machine 0 [] mixedMemory
      let stop := (alone r).machine t.draft.code.size []
      let start' := (alone r).machine t.draft.code.size [] mixedMemory
      let stop' := (alone r).machine t'.draft.code.size []
      ((Target.Feasible t'.places call mixedMemory () pairs ∧
          ∃ mem', Machine.Reaches host (start, ()) (stop mem', ()) ∧
            Assigned t'.places call () pairs mixedMemory mem') ∨
        ¬ Target.Feasible t'.places call mixedMemory () pairs ∧ Traps host start ()) ∧
      ((∃ mem' mem'', Machine.Reaches host (start, ()) (stop mem', ()) ∧
          Machine.Reaches host (start', ()) (stop' mem'', ()) ∧ mem'.Agrees mem'') ∨
        Traps host start () ∧ Traps host start' ()) := by
  have passes : (do
      let p ← parse rotated
      let a ← p.analyze
      let s ← (p.stmts.getLast?.elim (.error .stackOverflow) .ok : Except Error Stmt)
      let parts ← ((elementAndVariable? s).elim (.error .stackOverflow) .ok : Except Error _)
      let (_, (array, i), name, v, w) := parts
      let written ← Assemble.assign a [.index array i, .var name] [v, w] .initial
      let written' ← Assemble.assign a [.var name, .index array i] [w, v] written.2
      let r ← written'.2.draft.finish
      if i.isCallFree ∧ v.isCallFree ∧ w.isCallFree ∧ hasWritten r .initial written.2 ∧
        hasWritten r written.2 written'.2 ∧
        (a.lowerAssign [.var name, .index array i] [w, v]).all Op.isStraight ∧
        ∀ name ∈ s.names, isMixed a written'.2 (a.symbolOf name) = true
      then .ok () else .error .stackOverflow : Except Error Unit).isOk = true := by
    decide +kernel
  obtain ⟨⟨⟩, run⟩ := except_of_isOk passes
  obtain ⟨p, parsed, run⟩ := except_bind_ok.mp run
  obtain ⟨a, analyzed, run⟩ := except_bind_ok.mp run
  obtain ⟨s, last, run⟩ := except_bind_ok.mp run
  obtain ⟨⟨node, ⟨array, i⟩, name, v, w⟩, parts, run⟩ := except_bind_ok.mp run
  obtain ⟨⟨⟨⟩, t⟩, written, run⟩ := except_bind_ok.mp run
  obtain ⟨⟨⟨⟩, t'⟩, written', run⟩ := except_bind_ok.mp run
  obtain ⟨r, finished, run⟩ := except_bind_ok.mp run
  have inside : s ∈ p.stmts := List.mem_of_getLast? (except_of_elim last)
  obtain rfl := elementAndVariable?_eq_some (except_of_elim parts)
  split at run
  case isFalse => cases run
  case isTrue holds =>
    obtain ⟨freeIndex, free, free', has, has', straight, names⟩ := holds
    have code : Emission (Assemble.assign a [.index array i, .var name] [v, w])
        (alone r).routine .initial t := emission_of_hasWritten written has
    have code' : Emission (Assemble.assign a [.var name, .index array i] [w, v])
        (alone r).routine t t' := emission_of_hasWritten written' has'
    have below := (code'.codeAt (Assemble.assign_realizes _ t _ _) straight).2.2
    refine ⟨p, a, node, array, i, name, v, w, t, t', r, parsed, analyzed, inside, finished, code,
      code', fun host call => ?_⟩
    have result := assign_simultaneous parsed analyzed inside (by simpa [Target.isCallFree])
      (by simpa using ⟨free, free'⟩) code below
      (fun name used => mixedMemory_keeps (names name used)) host () [] call
    have apart : Target.Apart t'.places call mixedMemory () (.index array i) (.var name) := by
      rintro l ⟨place, handle, j, -, -, -, -, rfl⟩ ⟨place', -, same⟩
      cases place' <;> cases same
    exact ⟨result.1, result.2 (by simpa using apart) [.var name, .index array i] [w, v] rfl
      (.swap ..) _ _ _ code' (Places.Below.refl _)⟩

end Program

end Guarded
