import Guarded.Analysis
import Guarded.Object.Draft
import Std.Data.TreeMap

/-!
A unit while it is put together. Symbols get their places when the code first asks for them: a
local symbol takes the next slot of its routine, a global one a field named after it and a running
number, and a method a routine of its own name, or of its name and that number if the name is
taken. The routine of a method is written on its own, whatever routine it is declared in.
-/

namespace Guarded

/-- Where a symbol is found at run time. -/
inductive Place where
  | slot (n : Nat)
  | field (name : String)
  | routine (name : String)
deriving DecidableEq, Repr

structure Assembly where
  places : Std.TreeMap SymbolId Place
  fields : Array Field
  /-- The names of the entry routine and of all methods met so far. -/
  taken : List String
  /-- The running number of the next field. -/
  counter : Nat
  routines : Array Routine
  /-- The routine under construction. -/
  draft : Draft
  /-- The method whose routine it is; the entry routine has none. -/
  here : Option SymbolId
  /-- Where a guard goes on whose body is done, innermost first: the end of a choice, or the top of a
  loop. -/
  targets : List Label

abbrev Assemble := StateT Assembly (Except Error)

namespace Assemble

/-- The slot a symbol's values need. -/
def slotOf (a : Analysis) (id : SymbolId) : Except Error Slot :=
  match a.symbolKind id with
  | .array => Slot.array (a.symbolType id)
  | _ => Slot.scalar (a.symbolType id)

def nameOf (a : Analysis) (id : SymbolId) : String :=
  (a.symbols[id]?.map Symbol.name).getD ""

def isLocal (a : Analysis) (id : SymbolId) : Bool :=
  (a.symbols[id]?.map Symbol.isLocal).getD false

def emit (i : Instr) : Assemble Unit :=
  modify fun s => { s with draft := s.draft.emit i }

/-- Gives a symbol the next local slot of the routine under construction. -/
def allocate (id : SymbolId) (slot : Slot) : Assemble Place := fun s =>
  match s.draft.allocLocal slot with
  | .ok n draft => .ok (.slot n, { s with draft, places := s.places.insert id (.slot n) })
  | .error e _ => .error e

/-- A field for a global symbol. -/
def newField (name : String) (id : SymbolId) (slot : Slot) : Assemble Place :=
  modifyGet fun s =>
    let field := s!"{name}${s.counter}"
    (.field field, { s with
      places := s.places.insert id (.field field)
      fields := s.fields.push ⟨field, slot⟩
      counter := s.counter + 1 })

/-- The place of a variable or array, given to it on first use. -/
def placeOf (a : Analysis) (id : SymbolId) : Assemble (Place × Slot) := do
  let slot ← slotOf a id
  match (← get).places[id]? with
  | some place => return (place, slot)
  | none =>
    let place ← if isLocal a id then allocate id slot else newField (nameOf a id) id slot
    return (place, slot)

/-- The routine of a method, named on first use. -/
def routineOf (a : Analysis) (id : SymbolId) : Assemble String :=
  modifyGet fun (s : Assembly) =>
    match s.places[id]? with
    | some (.routine name) => (name, s)
    | _ =>
      let plain := nameOf a id
      let clash := s.taken.contains plain
      let name := if clash then s!"{plain}${s.counter}" else plain
      (name, { s with
        places := s.places.insert id (.routine name)
        taken := name :: s.taken
        counter := if clash then s.counter + 1 else s.counter })

/-- Reads a place. -/
def loadInstr : Place → Slot → Instr
  | .slot n, slot => if slot.isArray then .aload n else if slot = .float then .fload n else .iload n
  | .field name, _ | .routine name, _ => .getstatic name

/-- Writes a place. -/
def storeInstr : Place → Slot → Instr
  | .slot n, slot =>
    if slot.isArray then .astore n else if slot = .float then .fstore n else .istore n
  | .field name, _ | .routine name, _ => .putstatic name

/-- The slot of a function's result; procedures have none. -/
def resultOf (a : Analysis) (method : SymbolId) : Except Error (Option Slot) :=
  if (a.symbolKind method).isFunction then some <$> Slot.scalar (a.symbolType method)
  else .ok none

/-- Opens the routine of a method: its name, its result, and a local slot for each parameter. No
choice or loop is open in it. -/
def openRoutine (a : Analysis) (method : SymbolId) : Assemble Unit := do
  let name ← routineOf a method
  let result ← resultOf a method
  let params := a.params method
  let slots ← (params.mapM (slotOf a) : Except Error (List Slot))
  modify fun s =>
    { s with draft := .start name slots.toArray result, here := some method, targets := [] }
  (params.zip slots).forM fun (id, slot) => discard (allocate id slot)

/-- Closes the routine under construction and goes on with the one around it. -/
def closeRoutine (outer : Assembly) : Assemble Unit := do
  let routine ← (← get).draft.finish
  modify fun s =>
    { s with
      routines := s.routines.push routine
      draft := outer.draft
      here := outer.here
      targets := outer.targets }

end Assemble

/-- The name of the entry routine. -/
def entryName : String :=
  "main"

def Assembly.initial : Assembly :=
  ⟨∅, #[], [entryName], 0, #[], .start entryName #[] none, none, []⟩

end Guarded
