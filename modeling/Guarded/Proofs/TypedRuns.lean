import Guarded.Proofs.Preservation
import Guarded.Proofs.RoutineTyping

/-!
Runs of typed code. Every array on the heap has a type for its elements, which it keeps, and which
decides whether a handle is a value of an array type. What an array holds at some time would not do:
an array of zeros is one of integers as well as one of truth values, and an integer that is stored in
it by one name would be read as a truth value by the other.

Each activation has its own part of the operand stack. An activation that waits for a call to end
goes on with the result of the call on top of that part.
-/

namespace Guarded

/-- What holds of each pair in two lists still holds if it is kept where the second list changes. -/
theorem forall₂_modify {α β : Type} {R : α → β → Prop} {xs : List α} {ys : List β}
    (h : List.Forall₂ R xs ys) {n : Nat} {f : β → β}
    (keeps : ∀ x y, xs[n]? = some x → R x y → R x (f y)) : List.Forall₂ R xs (ys.modify n f) := by
  induction h generalizing n with
  | nil => simp
  | @cons x y xs ys first rest ih =>
    cases n with
    | zero => exact .cons (keeps x y rfl first) rest
    | succ n => exact .cons first (ih fun x y found => keeps x y found)

namespace Slot

/-- The value is a single one of the type. Truth values are zero and one. -/
def Single : Slot → Value → Prop
  | int, v => ∃ n, v = .int n
  | float, v => ∃ x, v = .float x
  | boolean, v => v = .int 0 ∨ v = .int 1
  | intArray, _ | floatArray, _ | booleanArray, _ => False

/-- The value is one of the type: a single one, or an array of the heap with elements of the element
type. An array that has not been made yet is of every array type. -/
def Admits (heap : Array (Array Value)) (slot : Slot) (v : Value) : Prop :=
  match slot.element? with
  | none => slot.Single v
  | some item =>
    v = .null ∨ ∃ handle values, v = .array handle ∧ heap[handle]? = some values ∧
      ∀ x ∈ values, item.Single x

/-- The value is one of the type, if the elements of arrays have these types. -/
def Holds (types : List Slot) (slot : Slot) (v : Value) : Prop :=
  match slot.element? with
  | none => slot.Single v
  | some item => v = .null ∨ ∃ handle, v = .array handle ∧ types[handle]? = some item

variable {types types' : List Slot} {slot item : Slot} {v : Value}

theorem holds_single (noArray : slot.element? = none) : slot.Holds types v ↔ slot.Single v := by
  rw [Holds, noArray]

theorem holds_array (items : slot.element? = some item) :
    slot.Holds types v ↔ v = .null ∨ ∃ handle, v = .array handle ∧ types[handle]? = some item := by
  rw [Holds, items]

theorem holds_int (types : List Slot) (n : Int32) : int.Holds types (.int n) :=
  Exists.intro n rfl

theorem holds_float (types : List Slot) (x : Float32) : float.Holds types (.float x) :=
  Exists.intro x rfl

theorem single_boolean : boolean.Single v ↔ ∃ b, v = .ofBool b := by
  constructor
  · rintro (rfl | rfl)
    · exact ⟨false, rfl⟩
    · exact ⟨true, rfl⟩
  · rintro ⟨_ | _, rfl⟩
    · exact Or.inl rfl
    · exact Or.inr rfl

theorem holds_ofBool (types : List Slot) (b : Bool) : boolean.Holds types (.ofBool b) :=
  single_boolean.mpr ⟨b, rfl⟩

/-- There are no arrays of arrays. -/
theorem element?_element (items : slot.element? = some item) : item.element? = none := by
  cases slot <;> cases items <;> rfl

theorem holds_zero (types : List Slot) (slot : Slot) : slot.Holds types (Value.zero slot) := by
  cases slot with
  | int => exact holds_int types 0
  | float => exact holds_float types 0
  | boolean => exact holds_ofBool types false
  | intArray | floatArray | booleanArray => exact Or.inl rfl

theorem Holds.mono (h : slot.Holds types v) (later : types <+: types') :
    slot.Holds types' v := by
  cases known : slot.element? with
  | none => exact (holds_single known).mpr ((holds_single known).mp h)
  | some item =>
    refine (holds_array known).mpr (((holds_array known).mp h).imp_right ?_)
    rintro ⟨handle, rfl, there⟩
    obtain ⟨more, rfl⟩ := later
    refine ⟨handle, rfl, ?_⟩
    rw [List.getElem?_append_left (List.getElem?_eq_some_iff.mp there).1, there]

end Slot

theorem Elem.Makes.single {elem : Elem} {item : Slot} (makes : elem.Makes item) :
    item.Single (Value.zeroElem elem) := by
  cases elem with
  | int =>
    rcases makes with rfl | rfl
    · exact ⟨0, rfl⟩
    · exact Or.inl rfl
  | float =>
    obtain rfl : item = .float := makes
    exact ⟨0, rfl⟩

/-- Every array has elements of its type. -/
def HeapTyped (types : List Slot) (heap : Array (Array Value)) : Prop :=
  List.Forall₂ (fun item (values : Array Value) => ∀ v ∈ values, item.Single v) types heap.toList

theorem Slot.Holds.admits {types : List Slot} {slot : Slot} {v : Value} (h : slot.Holds types v)
    {heap : Array (Array Value)} (typed : HeapTyped types heap) : slot.Admits heap v := by
  cases known : slot.element? with
  | none =>
    rw [Admits, known]
    exact (holds_single known).mp h
  | some item =>
    rw [Admits, known]
    refine ((holds_array known).mp h).imp_right ?_
    rintro ⟨handle, rfl, there⟩
    obtain ⟨values, found, single⟩ := exists_of_forall₂ typed there
    exact ⟨handle, values, rfl, by simpa using found, single⟩

/-- The value is what the place of the stack is to hold. -/
def Cell.Holds (types : List Slot) : Cell → Value → Prop
  | .of slot, v => slot.Holds types v
  | .name, v => ∃ s, v = .text s

/-- The operands are of a shape. -/
def Shape.Fits (types : List Slot) (shape : Shape) (operands : List Value) : Prop :=
  List.Forall₂ (Cell.Holds types) shape operands

theorem Shape.Fits.split {types : List Slot} {rest : Shape} : {takes : Shape} →
    {operands : List Value} → (takes ++ rest).Fits types operands →
    ∃ own others, takes.Fits types own ∧ rest.Fits types others ∧ operands = own ++ others
  | [], operands, fits => ⟨[], operands, .nil, fits, rfl⟩
  | _ :: _, _ :: _, .cons first fits => by
    obtain ⟨own, others, fitsOwn, fitsOthers, rfl⟩ := split fits
    exact ⟨_ :: own, others, .cons first fitsOwn, fitsOthers, rfl⟩

/-- Integers and truth values are both compared as integers. -/
theorem Shape.Fits.two_ints {types : List Slot} {rest : Shape} {operands : List Value} {slot : Slot}
    (fits : Shape.Fits types (.of slot :: .of slot :: rest) operands)
    (single : slot = .int ∨ slot = .boolean) :
    ∃ v w others, operands = .int w :: .int v :: others ∧ rest.Fits types others := by
  obtain _ | ⟨right, _ | ⟨left, fits⟩⟩ := fits
  rcases single with rfl | rfl
  · obtain ⟨w, rfl⟩ := right
    obtain ⟨v, rfl⟩ := left
    exact ⟨v, w, _, rfl, fits⟩
  · obtain ⟨y, rfl⟩ := Slot.single_boolean.mp right
    obtain ⟨x, rfl⟩ := Slot.single_boolean.mp left
    exact ⟨_, _, _, rfl, fits⟩

/-- What the running activation of a routine keeps is typed. -/
structure Memory.Typed (u : ObjectUnit) (r : Routine) (types : List Slot) (mem : Memory) :
    Prop where
  locals : List.Forall₂ (Slot.Holds types) r.locals.toList mem.locals.toList
  globals : ∀ f ∈ u.globals.toList, ∃ v, mem.globals[f.name]? = some v ∧ f.slot.Holds types v
  heap : HeapTyped types mem.heap

section Mono
variable {types types' : List Slot} (later : types <+: types')
include later

theorem Cell.Holds.mono {cell : Cell} {v : Value} (h : cell.Holds types v) :
    cell.Holds types' v := by
  cases cell with
  | of slot => exact Slot.Holds.mono h later
  | name => exact h

theorem Shape.Fits.mono {shape : Shape} {operands : List Value} (h : shape.Fits types operands) :
    shape.Fits types' operands :=
  h.imp fun _ _ holds => holds.mono later

theorem locals_mono {slots : List Slot} {values : List Value}
    (h : List.Forall₂ (Slot.Holds types) slots values) :
    List.Forall₂ (Slot.Holds types') slots values :=
  h.imp fun _ _ holds => holds.mono later

theorem globals_mono {u : ObjectUnit} {globals : Std.TreeMap String Value}
    (h : ∀ f ∈ u.globals.toList, ∃ v, globals[f.name]? = some v ∧ f.slot.Holds types v) :
    ∀ f ∈ u.globals.toList, ∃ v, globals[f.name]? = some v ∧ f.slot.Holds types' v := by
  intro f mem
  obtain ⟨v, found, holds⟩ := h f mem
  exact ⟨v, found, holds.mono later⟩

end Mono

namespace Spot

/-- What an instruction makes of the operands it takes: others on the same stack, and a memory that
is typed again. -/
def Turned (u : ObjectUnit) (q : Spot) (types : List Slot) (pc : Nat) (leaves : Shape)
    (stack : List Value) (m : Machine) : Prop :=
  ∃ types' operands mem, types <+: types' ∧ m = q.machine pc (operands ++ stack) mem ∧
    leaves.Fits types' operands ∧ mem.Typed u q.routine types'

variable {u : ObjectUnit} {q : Spot} {types : List Slot} {pc : Nat} {takes leaves : Shape}
variable {stack operands : List Value} {mem : Memory} {m : Machine} {i : Instr}

/-- An instruction that leaves the memory alone. -/
theorem Turned.of_eq {result : List Value} {x : Except Error (Unit × Machine)}
    (typed : mem.Typed u q.routine types) (fits : leaves.Fits types result)
    (same : x = .ok ((), q.machine pc (result ++ stack) mem)) (run : x = .ok ((), m)) :
    Turned u q types pc leaves stack m := by
  have here : q.machine pc (result ++ stack) mem = m := by
    simpa using same.symm.trans run
  exact ⟨types, result, mem, List.prefix_rfl, here.symm, fits, typed⟩

theorem instr_iand (x y : Bool) :
    Exec.instr .iand (q.machine pc (.ofBool y :: .ofBool x :: stack) mem) =
      .ok ((), q.machine pc (.ofBool (x && y) :: stack) mem) := by
  cases x <;> cases y <;> rfl

theorem instr_ior (x y : Bool) :
    Exec.instr .ior (q.machine pc (.ofBool y :: .ofBool x :: stack) mem) =
      .ok ((), q.machine pc (.ofBool (x || y) :: stack) mem) := by
  cases x <;> cases y <;> rfl

theorem divide_ok {op : Int32 → Int32 → Int32} {a b : Int32}
    (run : Exec.divide op (q.machine pc (.int b :: .int a :: stack) mem) = .ok ((), m)) :
    Exec.divide op (q.machine pc (.int b :: .int a :: stack) mem) =
      .ok ((), q.machine pc (.int (op a b) :: stack) mem) := by
  have opened : Exec.divide op (q.machine pc (.int b :: .int a :: stack) mem) =
      (if b = 0 then throw .divisionByZero else Exec.push (.int (op a b)) : Exec Unit)
        (q.machine pc stack mem) := rfl
  rw [opened] at run ⊢
  split at run
  · cases run
  · rename_i nonzero
    rw [if_neg nonzero]
    rfl

theorem turned_fixed (typed : mem.Typed u q.routine types)
    (known : i.signature? = some (takes, leaves)) (plain : i.isPlain = true)
    (fits : takes.Fits types operands)
    (run : Exec.instr i (q.machine pc (operands ++ stack) mem) = .ok ((), m)) :
    Turned u q types pc leaves stack m := by
  cases i with
  | fconst x =>
    cases known
    cases fits
    exact .of_eq typed (.cons (Slot.holds_float types x) .nil) rfl run
  | sconst s =>
    cases known
    cases fits
    exact .of_eq typed (.cons (Exists.intro s rfl) .nil) rfl run
  | iadd | isub | imul | fcmpl | fcmpg =>
    cases known
    obtain _ | ⟨⟨b, rfl⟩, _ | ⟨⟨a, rfl⟩, ⟨⟩⟩⟩ := fits
    exact .of_eq typed (.cons (Slot.holds_int types _) .nil) rfl run
  | idiv | irem =>
    cases known
    obtain _ | ⟨⟨b, rfl⟩, _ | ⟨⟨a, rfl⟩, ⟨⟩⟩⟩ := fits
    exact .of_eq typed (.cons (Slot.holds_int types _) .nil) (divide_ok run) run
  | ineg | f2i =>
    cases known
    obtain _ | ⟨⟨a, rfl⟩, ⟨⟩⟩ := fits
    exact .of_eq typed (.cons (Slot.holds_int types _) .nil) rfl run
  | fadd | fsub | fmul | fdiv =>
    cases known
    obtain _ | ⟨⟨b, rfl⟩, _ | ⟨⟨a, rfl⟩, ⟨⟩⟩⟩ := fits
    exact .of_eq typed (.cons (Slot.holds_float types _) .nil) rfl run
  | fneg | i2f =>
    cases known
    obtain _ | ⟨⟨a, rfl⟩, ⟨⟩⟩ := fits
    exact .of_eq typed (.cons (Slot.holds_float types _) .nil) rfl run
  | iand =>
    cases known
    obtain _ | ⟨right, _ | ⟨left, ⟨⟩⟩⟩ := fits
    obtain ⟨y, rfl⟩ := Slot.single_boolean.mp right
    obtain ⟨x, rfl⟩ := Slot.single_boolean.mp left
    exact .of_eq typed (.cons (Slot.holds_ofBool types _) .nil) (instr_iand x y) run
  | ior =>
    cases known
    obtain _ | ⟨right, _ | ⟨left, ⟨⟩⟩⟩ := fits
    obtain ⟨y, rfl⟩ := Slot.single_boolean.mp right
    obtain ⟨x, rfl⟩ := Slot.single_boolean.mp left
    exact .of_eq typed (.cons (Slot.holds_ofBool types _) .nil) (instr_ior x y) run
  | service => cases plain
  | _ => cases known

end Spot

namespace Memory.Typed
variable {u : ObjectUnit} {r : Routine} {types : List Slot} {mem : Memory}
variable (typed : mem.Typed u r types)
include typed

theorem setLocal {n : Nat} {slot : Slot} {v : Value} (there : r.locals[n]? = some slot)
    (holds : slot.Holds types v) :
    Memory.Typed u r types { mem with locals := mem.locals.setIfInBounds n v } := by
  refine { typed with locals := ?_ }
  rw [Array.toList_setIfInBounds, List.set_eq_modify]
  refine forall₂_modify typed.locals fun slot' _ found _ => ?_
  obtain rfl : slot = slot' := by simpa [there] using found
  exact holds

theorem setField (distinct : (u.globals.toList.map Field.name).Nodup) {f : String} {slot : Slot}
    {v : Value} (there : ⟨f, slot⟩ ∈ u.globals.toList) (holds : slot.Holds types v) :
    Memory.Typed u r types { mem with globals := mem.globals.insert f v } := by
  refine { typed with globals := fun g inside => ?_ }
  by_cases same : f = g.name
  · obtain rfl : g = ⟨f, slot⟩ := List.inj_on_of_nodup_map distinct inside there same.symm
    exact ⟨v, by simp, holds⟩
  · obtain ⟨w, found, holds⟩ := typed.globals g inside
    exact ⟨w, by simp [Std.TreeMap.getElem?_insert, same, found], holds⟩

theorem push {item : Slot} {values : Array Value} (single : ∀ v ∈ values, item.Single v) :
    Memory.Typed u r (types ++ [item]) { mem with heap := mem.heap.push values } where
  locals := locals_mono (List.prefix_append types [item]) typed.locals
  globals := globals_mono (List.prefix_append types [item]) typed.globals
  heap := by
    unfold HeapTyped
    rw [Array.toList_push]
    exact List.rel_append typed.heap (.cons single .nil)

theorem setElement {handle : Nat} {item : Slot} (there : types[handle]? = some item) (k : Nat)
    {v : Value} (single : item.Single v) :
    Memory.Typed u r types { mem with
      heap := mem.heap.modify handle fun values => values.setIfInBounds k v } := by
  refine { typed with heap := ?_ }
  unfold HeapTyped
  rw [Array.toList_modify]
  refine forall₂_modify typed.heap fun item' values found each w inside => ?_
  obtain rfl := Option.some.inj (there.symm.trans found)
  rcases Array.mem_or_eq_of_mem_setIfInBounds inside with inside | rfl
  · exact each w inside
  · exact single

/-- An element that is found is in an array of the type that the array is known by. -/
theorem element {q : Spot} {pc handle k : Nat} {stack : List Value} {m : Machine}
    {slot item : Slot} {n : Int32} {array : Value} (items : slot.element? = some item)
    (holds : slot.Holds types array)
    (run : Exec.element (q.machine pc (.int n :: array :: stack) mem) = .ok ((handle, k), m)) :
    m = q.machine pc stack mem ∧ types[handle]? = some item ∧
      ∃ values, mem.heap[handle]? = some values ∧ (∀ v ∈ values, item.Single v) ∧
        k < values.size := by
  rcases (Slot.holds_array items).mp holds with rfl | ⟨h, rfl, there⟩
  · rw [Exec.element_eq _ n none rfl] at run
    cases run
  · obtain ⟨values, found, single⟩ := exists_of_forall₂ typed.heap there
    replace found : mem.heap[h]? = some values := by simpa using found
    rw [Exec.element_eq _ n (some h) rfl] at run
    dsimp only [Spot.machine] at run
    rw [found] at run
    split at run
    · rename_i inside
      obtain ⟨⟨rfl, rfl⟩, rfl⟩ := by simpa using run
      refine ⟨rfl, there, values, found, single, ?_⟩
      simpa using (Bool.and_eq_true_iff.mp inside).2
    · cases run

end Memory.Typed

namespace Spot
variable {u : ObjectUnit} {q : Spot} {types : List Slot} {pc : Nat} {takes leaves : Shape}
variable {stack operands : List Value} {mem : Memory} {m : Machine} {i : Instr}

theorem turned_getElement (typed : mem.Typed u q.routine types) {slot item : Slot}
    (form : i = .iaload ∨ i = .faload) (items : slot.element? = some item)
    (fits : Shape.Fits types [.of .int, .of slot] operands)
    (run : Exec.instr i (q.machine pc (operands ++ stack) mem) = .ok ((), m)) :
    Turned u q types pc [.of item] stack m := by
  obtain _ | ⟨⟨n, rfl⟩, _ | ⟨holds, ⟨⟩⟩⟩ := fits
  rw [Exec.instr_getElement form] at run
  obtain ⟨⟨⟨handle, k⟩, m'⟩, located, run⟩ := except_bind_ok.mp run
  obtain ⟨rfl, -, values, found, single, low⟩ := typed.element items holds located
  have value : (mem.heap[handle]?.bind fun values => values[k]?).getD .null = values[k] := by
    simp [found, low]
  obtain rfl : _ = m := by simpa using run
  refine ⟨types, [values[k]], mem, List.prefix_rfl, ?_, .cons ?_ .nil, typed⟩
  · rw [← value]
    rfl
  · exact (Slot.holds_single (Slot.element?_element items)).mpr (single _ (Array.getElem_mem low))

theorem turned_putElement (typed : mem.Typed u q.routine types) {slot item : Slot}
    (form : i = .iastore ∨ i = .fastore) (items : slot.element? = some item)
    (fits : Shape.Fits types [.of item, .of .int, .of slot] operands)
    (run : Exec.instr i (q.machine pc (operands ++ stack) mem) = .ok ((), m)) :
    Turned u q types pc [] stack m := by
  obtain _ | @⟨_, v, _, _, value, _ | ⟨⟨n, rfl⟩, _ | ⟨holds, ⟨⟩⟩⟩⟩ := fits
  rw [Exec.instr_putElement form rfl] at run
  obtain ⟨⟨⟨handle, k⟩, m'⟩, located, run⟩ := except_bind_ok.mp run
  obtain ⟨rfl, there, -⟩ := typed.element items holds located
  obtain rfl : _ = m := by simpa using run
  have single := (Slot.holds_single (Slot.element?_element items)).mp value
  exact ⟨types, [], _, List.prefix_rfl, rfl, .nil, typed.setElement there k single⟩

theorem turned_newarray (typed : mem.Typed u q.routine types) {elem : Elem} {slot item : Slot}
    (items : slot.element? = some item) (makes : elem.Makes item)
    (fits : Shape.Fits types [.of .int] operands)
    (run : Exec.instr (.newarray elem) (q.machine pc (operands ++ stack) mem) = .ok ((), m)) :
    Turned u q types pc [.of slot] stack m := by
  obtain _ | ⟨⟨size, rfl⟩, ⟨⟩⟩ := fits
  rw [List.singleton_append, q.instr_newarray] at run
  split at run
  · cases run
  · obtain rfl : _ = m := by simpa using run
    have zeros : ∀ v ∈ Array.replicate size.toInt.toNat (Value.zeroElem elem), item.Single v := by
      intro v inside
      rw [(Array.mem_replicate.mp inside).2]
      exact makes.single
    have length : types.length = mem.heap.size := by simpa using typed.heap.length_eq
    refine ⟨types ++ [item], [.array mem.heap.size], _, List.prefix_append .., rfl,
      .cons ?_ .nil, typed.push zeros⟩
    exact (Slot.holds_array items).mpr (Or.inr ⟨_, rfl, by simp [← length]⟩)

/-- Instructions that neither call nor ask keep memory typed. -/
theorem turned (typed : mem.Typed u q.routine types)
    (distinct : (u.globals.toList.map Field.name).Nodup)
    (turns : i.Turns u q.routine takes leaves) (plain : i.isPlain = true)
    (fits : takes.Fits types operands)
    (run : Exec.instr i (q.machine pc (operands ++ stack) mem) = .ok ((), m)) :
    Turned u q types pc leaves stack m := by
  cases turns with
  | fixed known => exact turned_fixed typed known plain fits run
  | int v =>
    cases fits
    exact .of_eq typed (.cons (Slot.holds_int types v) .nil) rfl run
  | boolean b =>
    cases fits
    exact .of_eq typed (.cons (Slot.holds_ofBool types b) .nil) rfl run
  | @load _ n slot form there =>
    cases fits
    obtain ⟨v, found, holds⟩ := exists_of_forall₂ typed.locals (by simpa using there)
    replace found : mem.locals[n]? = some v := by simpa using found
    have loads : Exec.instr i (q.machine pc ([] ++ stack) mem) =
        Exec.loadLocal n (q.machine pc stack mem) := by
      rcases form with rfl | rfl | rfl <;> rfl
    exact .of_eq typed (.cons holds .nil) (loads.trans (Exec.loadLocal_ok rfl found)) run
  | @store _ n slot form there =>
    obtain _ | @⟨_, v, _, _, holds, ⟨⟩⟩ := fits
    obtain ⟨w, found, -⟩ := exists_of_forall₂ typed.locals (by simpa using there)
    have low : n < mem.locals.size := by simpa using (List.getElem?_eq_some_iff.mp found).1
    have stores : Exec.instr i (q.machine pc ([v] ++ stack) mem) =
        Exec.storeLocal n v (q.machine pc stack mem) := by
      rcases form with rfl | rfl | rfl <;> rfl
    rw [stores, Exec.storeLocal_ok rfl low] at run
    obtain rfl : _ = m := by simpa using run
    exact ⟨types, [], _, List.prefix_rfl, rfl, .nil, typed.setLocal there holds⟩
  | getstatic there =>
    cases fits
    obtain ⟨v, found, holds⟩ := typed.globals _ there
    exact .of_eq typed (.cons holds .nil)
      (Exec.loadGlobal_ok (m := q.machine pc stack mem) found) run
  | @putstatic f slot there =>
    obtain _ | @⟨_, v, _, _, holds, ⟨⟩⟩ := fits
    obtain ⟨w, found, -⟩ := typed.globals _ there
    have stores : Exec.instr (.putstatic f) (q.machine pc ([v] ++ stack) mem) =
        Exec.storeGlobal f v (q.machine pc stack mem) := rfl
    rw [stores, Exec.storeGlobal_ok found] at run
    obtain rfl : _ = m := by simpa using run
    exact ⟨types, [], _, List.prefix_rfl, rfl, .nil, typed.setField distinct there holds⟩
  | newarray items makes => exact turned_newarray typed items makes fits run
  | getElement form items => exact turned_getElement typed form items fits run
  | putElement form items => exact turned_putElement typed form items fits run
  | invoke => cases plain

end Spot

/-- The places that activations go through, and the shapes that they have there. An activation is
known by its routine and by how many others wait for it. -/
abbrev Course := Nat → Routine → Nat → Shape → Prop

/-- Activations, the innermost first, and their operands. What is `given` comes on top of the
operands of the innermost one before it goes on. -/
inductive Activations (u : ObjectUnit) (course : Course) (types : List Slot) :
    Shape → List Frame → List Value → Prop where
  | none {given : Shape} {stack : List Value} : Activations u course types given [] stack
  | frame {given shape : Shape} {f : Frame} {frames : List Frame} {own stack : List Value}
    (known : f.routine = u.entry ∨ f.routine ∈ u.routines.toList)
    (locals : List.Forall₂ (Slot.Holds types) f.routine.locals.toList f.locals.toList)
    (operands : shape.Fits types own) (on : course frames.length f.routine f.pc (given ++ shape))
    (others : Activations u course types (f.routine.result.toList.map .of) frames stack) :
    Activations u course types given (f :: frames) (own ++ stack)

namespace Activations
variable {u : ObjectUnit} {course : Course} {types types' : List Slot} {given : Shape}
variable {frames : List Frame} {stack values : List Value}

theorem mono (h : Activations u course types given frames stack) (later : types <+: types') :
    Activations u course types' given frames stack := by
  induction h with
  | none => exact .none
  | frame known locals operands on others ih =>
    exact .frame known (locals_mono later locals) (operands.mono later) on ih

/-- The innermost activation goes on. -/
theorem resume (h : Activations u course types given frames stack)
    (fits : given.Fits types values) : Activations u course types [] frames (values ++ stack) := by
  cases h with
  | none => exact .none
  | @frame _ shape _ _ own _ known locals operands on others =>
    rw [← List.append_assoc]
    exact .frame known locals (List.rel_append fits operands) on others

end Activations

/-- The machine is on a course, and all that it has is typed. -/
structure Machine.OnCourse (u : ObjectUnit) (course : Course) (types : List Slot) (m : Machine) :
    Prop where
  unit : m.unit = u
  globals : ∀ f ∈ u.globals.toList, ∃ v, m.globals[f.name]? = some v ∧ f.slot.Holds types v
  heap : HeapTyped types m.heap
  frames : Activations u course types [] m.frames m.stack

/-- The machine runs typed code, and all that it has is typed. -/
abbrev Machine.Conforms (u : ObjectUnit) (types : List Slot) (m : Machine) : Prop :=
  m.OnCourse u (fun _ r => r.Safe u) types

namespace Spot

/-- The activation is on top, at an instruction. -/
def At (q : Spot) (pc : Nat) (m : Machine) : Prop :=
  ∃ locals, m.frames = ⟨q.routine, pc, locals⟩ :: q.frames

/-- The activation waits for a call, and will go on with an instruction. -/
def Waits (q : Spot) (pc : Nat) (m : Machine) : Prop :=
  ∃ f above locals, m.frames = f :: above ++ ⟨q.routine, pc, locals⟩ :: q.frames

/-- What the instruction at hand makes of the activation on top. It goes on with the next instruction
or with the target of a jump, it waits for a call that it has made, or it has ended. -/
inductive Moves (q : Spot) (pc : Nat) (m : Machine) : Prop where
  | next (at_ : q.At (pc + 1) m)
  | jump {i : Instr} {target : Nat} (here : q.routine.code[pc]? = some i)
    (jumps : i.target? = some target) (at_ : q.At target m)
  | call (waits : q.Waits (pc + 1) m)
  | back {i : Instr} (here : q.routine.code[pc]? = some i) (returns : i.isReturn = true)
    (frames : m.frames = q.frames)

variable {u : ObjectUnit} {q : Spot} {types : List Slot} {pc : Nat} {takes leaves : Shape}
variable {stack operands : List Value} {mem : Memory} {m : Machine} {i : Instr}

theorem at_machine (q : Spot) (pc : Nat) (stack : List Value) (mem : Memory) :
    q.At pc (q.machine pc stack mem) :=
  ⟨mem.locals, rfl⟩

/-- A branch goes one way or the other. -/
theorem Moves.ite {target : Nat} (here : q.routine.code[pc]? = some i)
    (jumps : i.target? = some target) (b : Bool) :
    q.Moves pc (q.machine (if b then target else pc + 1) stack mem) := by
  cases b with
  | true => exact .jump here jumps (at_machine ..)
  | false => exact .next (at_machine ..)

/-- A routine of the unit is running, and those that wait for it are typed. -/
structure Within (u : ObjectUnit) (course : Course) (types : List Slot) (q : Spot)
    (stack : List Value) : Prop where
  unit : q.unit = u
  known : q.routine = u.entry ∨ q.routine ∈ u.routines.toList
  others : Activations u course types (q.routine.result.toList.map .of) q.frames stack

/-- Where the activation itself may be. -/
abbrev course (q : Spot) (course : Course) : Nat → Shape → Prop :=
  course q.frames.length q.routine

variable {course : Course}

theorem Within.mono {types' : List Slot} (h : q.Within u course types stack)
    (later : types <+: types') : q.Within u course types' stack :=
  ⟨h.unit, h.known, h.others.mono later⟩

theorem Within.onCourse (within : q.Within u course types stack)
    (typed : mem.Typed u q.routine types) {shape : Shape} (fits : shape.Fits types operands)
    (on : q.course course pc shape) :
    (q.machine pc (operands ++ stack) mem).OnCourse u course types :=
  ⟨within.unit, typed.globals, typed.heap,
    .frame within.known typed.locals fits on within.others⟩

/-- After a branch, whichever way it goes. -/
theorem Within.onCourse_ite (within : q.Within u course types stack)
    (typed : mem.Typed u q.routine types) {shape : Shape} (fits : shape.Fits types operands)
    {target : Nat} (on : q.course course pc shape) (away : q.course course target shape) (b : Bool) :
    (q.machine (if b then target else pc) (operands ++ stack) mem).OnCourse u course types := by
  cases b with
  | true => exact within.onCourse typed fits away
  | false => exact within.onCourse typed fits on

theorem Turned.at (h : Turned u q types pc leaves stack m) : q.At pc m := by
  obtain ⟨types', operands, mem, -, rfl, -⟩ := h
  exact at_machine ..

/-- After an instruction that leaves what the code goes on with. -/
theorem Turned.onCourse {rest : Shape} {others : List Value}
    (within : q.Within u course types stack)
    (h : Turned u q types pc leaves (others ++ stack) m) (fits : rest.Fits types others)
    (on : q.course course pc (leaves ++ rest)) : ∃ types', m.OnCourse u course types' := by
  obtain ⟨types', operands, mem, later, rfl, left, typed⟩ := h
  refine ⟨types', ?_⟩
  rw [← List.append_assoc]
  exact (within.mono later).onCourse typed (List.rel_append left (fits.mono later)) on

/-- A step that is made is that of the instruction at hand. -/
theorem advance_inl {σ : Type} {host : Machine.Host σ} {s s' : σ}
    (found : q.routine.code[pc]? = some i)
    (h : Machine.advance host (q.machine pc stack mem, s) = .inl (m, s')) :
    ((∀ service, i ≠ .service service) ∧
      Exec.instr i (q.machine (pc + 1) stack mem) = .ok ((), m)) ∨
    ∃ service r m' reply, i = .service service ∧
      Exec.request service (q.machine (pc + 1) stack mem) = .ok (r, m') ∧
      m = m'.resume r reply := by
  by_cases asks : ∃ service, i = .service service
  · obtain ⟨service, rfl⟩ := asks
    cases run : Exec.request service (q.machine (pc + 1) stack mem) with
    | ok asked =>
      obtain ⟨r, m'⟩ := asked
      rw [advance_service found run] at h
      cases answer : host r s with
      | ok reply s'' =>
        rw [answer] at h
        obtain ⟨rfl, -⟩ := Prod.mk.inj (Sum.inl.inj h)
        exact Or.inr ⟨service, r, m', reply, rfl, run, rfl⟩
      | error e s'' =>
        rw [answer] at h
        cases h
    | error e =>
      rw [advance_refused found run] at h
      cases h
  · have noService : ∀ service, i ≠ .service service := fun service same => asks ⟨service, same⟩
    refine Or.inl ⟨noService, ?_⟩
    cases run : Exec.instr i (q.machine (pc + 1) stack mem) with
    | ok done =>
      rw [advance_instr found noService run] at h
      obtain ⟨rfl, -⟩ := Prod.mk.inj (Sum.inl.inj h)
      rfl
    | error e =>
      rw [advance_fails found noService run] at h
      cases h

/-- An instruction that asks for no service is carried out by the machine alone. -/
theorem advance_inl_instr {σ : Type} {host : Machine.Host σ} {s s' : σ}
    (found : q.routine.code[pc]? = some i) (noService : ∀ service, i ≠ .service service)
    (h : Machine.advance host (q.machine pc stack mem, s) = .inl (m, s')) :
    Exec.instr i (q.machine (pc + 1) stack mem) = .ok ((), m) := by
  rcases advance_inl found h with ⟨-, run⟩ | ⟨service, _, _, _, same, -⟩
  · exact run
  · exact absurd same (noService service)

/-- What is asked for comes back in the type that the code goes on with. -/
theorem request_fits {service : Service} {r : Request} {reply : r.Reply}
    (known : (Instr.service service).signature? = some (takes, leaves))
    (fits : takes.Fits types operands)
    (run : Exec.request service (q.machine pc (operands ++ stack) mem) = .ok (r, m)) :
    ∃ values, leaves.Fits types values ∧
      m.resume r reply = q.machine pc (values ++ stack) mem := by
  cases service with
  | printInt | printFloat =>
    cases known
    obtain _ | ⟨⟨v, rfl⟩, ⟨⟩⟩ := fits
    cases run
    exact ⟨[], .nil, rfl⟩
  | printBoolean =>
    cases known
    obtain _ | ⟨holds, ⟨⟩⟩ := fits
    obtain ⟨b, rfl⟩ := Slot.single_boolean.mp holds
    cases run
    exact ⟨[], .nil, rfl⟩
  | inputInt =>
    cases known
    obtain _ | ⟨⟨name, rfl⟩, ⟨⟩⟩ := fits
    cases run
    exact ⟨[.int reply], .cons (Slot.holds_int types reply) .nil, rfl⟩
  | inputFloat =>
    cases known
    obtain _ | ⟨⟨name, rfl⟩, ⟨⟩⟩ := fits
    cases run
    exact ⟨[.float reply], .cons (Slot.holds_float types reply) .nil, rfl⟩
  | inputBoolean =>
    cases known
    obtain _ | ⟨⟨name, rfl⟩, ⟨⟩⟩ := fits
    cases run
    exact ⟨[.ofBool reply], .cons (Slot.holds_ofBool types reply) .nil, rfl⟩
  | abortNoAlternative | abortNoFunctionReturn => cases known

/-- The slots of a new activation hold the arguments and zeros. -/
theorem entryLocals_hold {callee : Routine} (params : callee.params.toList <+: callee.locals.toList)
    {args : List Value}
    (fits : Shape.Fits types (callee.params.toList.reverse.map .of) args.reverse) :
    List.Forall₂ (Slot.Holds types) callee.locals.toList (callee.entryLocals args).toList := by
  obtain ⟨rest, whole⟩ := params
  have given : List.Forall₂ (Slot.Holds types) callee.params.toList args :=
    List.forall₂_reverse_iff.mp (List.forall₂_map_left_iff (f := Cell.of).mp fits)
  have others : callee.locals.toList.drop callee.params.size = rest := by
    rw [← whole, List.drop_left' (by simp)]
  have zeros : List.Forall₂ (Slot.Holds types) rest (rest.map Value.zero) :=
    List.forall₂_map_right_iff.mpr (List.forall₂_same.mpr fun slot _ => Slot.holds_zero types slot)
  rw [Routine.entryLocals, others, ← whole]
  exact List.rel_append given zeros

theorem invoke_onCourse (unitTyped : u.Typed) (within : q.Within u course types stack)
    (typed : mem.Typed u q.routine types) {name : String} {callee : Routine}
    (search : u.routines.findRev? (·.name == name) = some callee) {rest : Shape}
    {others : List Value} (fits : Shape.Fits types (callee.params.toList.reverse.map .of) operands)
    (fitsOthers : rest.Fits types others)
    (on : q.course course pc (callee.result.toList.map .of ++ rest))
    (enters : ∀ r ∈ u.routines.toList, course (q.frames.length + 1) r 0 [])
    (run : Exec.instr (.invoke name) (q.machine pc (operands ++ (others ++ stack)) mem) =
      .ok ((), m)) : m.OnCourse u course types ∧ q.Waits pc m := by
  have inside : callee ∈ u.routines.toList := by
    rw [Array.findRev?_eq_find?_reverse] at search
    simpa using Array.mem_of_find?_eq_some search
  have callable := unitTyped.routines callee inside
  have count : operands.length = callee.params.size := by simpa using fits.length_eq.symm
  have slots : callee.params.size ≤ callee.locals.size := by simpa using callable.params.length_le
  have entered : Exec.instr (.invoke name) (q.machine pc (operands ++ (others ++ stack)) mem) =
      Exec.enter callee (q.machine pc (operands ++ (others ++ stack)) mem) := by
    refine Exec.invoke_ok ?_
    rw [← search, ← within.unit]
    rfl
  rw [entered] at run
  have top : (q.machine pc (operands ++ (others ++ stack)) mem).stack =
      operands.reverse.reverse ++ (others ++ stack) := by
    rw [List.reverse_reverse]
    rfl
  rcases Nat.lt_or_ge (q.machine pc (operands ++ (others ++ stack)) mem).frames.length
    Exec.maxDepth with room | full
  · rw [Exec.enter_ok room slots (by simpa using count) top] at run
    obtain rfl : _ = m := by simpa using run
    have called : Spot.Within u course types ⟨q.unit, callee, ⟨q.routine, pc, mem.locals⟩ :: q.frames⟩
        (others ++ stack) :=
      ⟨within.unit, Or.inr inside,
        .frame within.known typed.locals fitsOthers on within.others⟩
    have fresh : Memory.Typed u callee types
        { mem with locals := callee.entryLocals operands.reverse } :=
      ⟨entryLocals_hold callable.params (by rwa [List.reverse_reverse]), typed.globals, typed.heap⟩
    exact ⟨called.onCourse fresh .nil (enters callee inside), _, [], _, rfl⟩
  · rw [Exec.enter_overflow full] at run
    cases run

/-- A routine that is over gives its result to the one that waits for it. -/
theorem Within.back (within : q.Within u course types stack) (typed : mem.Typed u q.routine types)
    (fits : Shape.Fits types (q.routine.result.toList.map .of) operands) :
    Machine.OnCourse u course types ⟨q.unit, q.frames, operands ++ stack, mem.globals, mem.heap⟩ :=
  ⟨within.unit, typed.globals, typed.heap, within.others.resume fits⟩

/-- An instruction that goes on to the next keeps all typed. -/
theorem turn_onCourse {σ : Type} {host : Machine.Host σ} {s s' : σ} (unitTyped : u.Typed)
    (within : q.Within u course types stack) (typed : mem.Typed u q.routine types) {rest : Shape}
    (here : q.routine.code[pc]? = some i) (turns : i.Turns u q.routine takes leaves)
    (on : q.course course (pc + 1) (leaves ++ rest))
    (enters : ∀ r ∈ u.routines.toList, course (q.frames.length + 1) r 0 [])
    (fits : (takes ++ rest).Fits types operands)
    (h : Machine.advance host (q.machine pc (operands ++ stack) mem, s) = .inl (m, s')) :
    (∃ types', m.OnCourse u course types') ∧ q.Moves pc m := by
  obtain ⟨own, others, fitsOwn, fitsOthers, rfl⟩ := fits.split
  rw [List.append_assoc] at h
  rcases advance_inl here h with ⟨noService, run⟩ | ⟨service, r, m', reply, rfl, run, rfl⟩
  · by_cases calls : ∃ name, i = .invoke name
    · obtain ⟨name, rfl⟩ := calls
      obtain ⟨callee, search, rfl, rfl⟩ := turns.of_invoke
      obtain ⟨onCourse, waits⟩ :=
        invoke_onCourse unitTyped within typed search fitsOwn fitsOthers on enters run
      exact ⟨⟨types, onCourse⟩, .call waits⟩
    · have plain : i.isPlain = true := by
        cases i with
        | invoke name => exact absurd ⟨name, rfl⟩ calls
        | service service => exact absurd rfl (noService service)
        | _ => rfl
      have done := turned typed unitTyped.distinct turns plain fitsOwn run
      exact ⟨done.onCourse within fitsOthers on, .next done.at⟩
  · obtain ⟨values, left, same⟩ := request_fits turns.of_service fitsOwn run
    rw [same, ← List.append_assoc]
    exact ⟨⟨types, within.onCourse typed (List.rel_append left fitsOthers) on⟩,
      .next (at_machine ..)⟩

/-- A step of typed code. -/
theorem advance_onCourse {σ : Type} {host : Machine.Host σ} {s s' : σ} (unitTyped : u.Typed)
    (within : q.Within u course types stack) (typed : mem.Typed u q.routine types) {shape : Shape}
    (fits : shape.Fits types operands) (allows : q.routine.Allows u (q.course course) pc shape)
    (enters : ∀ r ∈ u.routines.toList, course (q.frames.length + 1) r 0 [])
    (h : Machine.advance host (q.machine pc (operands ++ stack) mem, s) = .inl (m, s')) :
    (∃ types', m.OnCourse u course types') ∧ q.Moves pc m := by
  cases allows with
  | turn here turns on => exact turn_onCourse unitTyped within typed here turns on enters fits h
  | branch here on away =>
    obtain _ | ⟨holds, fits⟩ := fits
    obtain ⟨b, rfl⟩ := Slot.single_boolean.mp holds
    have run := advance_inl_instr here nofun h
    rw [List.cons_append, Value.ofBool, instr_branch] at run
    obtain rfl : _ = m := by simpa using run
    exact ⟨⟨types, within.onCourse_ite typed fits on away _⟩, .ite here rfl _⟩
  | branchOrder here compared on away =>
    obtain _ | ⟨⟨v, rfl⟩, fits⟩ := fits
    have run := advance_inl_instr here nofun h
    rw [List.cons_append, instr_branch] at run
    obtain rfl : _ = m := by simpa using run
    exact ⟨⟨types, within.onCourse_ite typed fits on away _⟩, .ite here rfl _⟩
  | branchCompare here single on away =>
    obtain ⟨v, w, others, rfl, left⟩ := fits.two_ints single
    have run := advance_inl_instr here nofun h
    rw [List.cons_append, List.cons_append, instr_branchCompare] at run
    obtain rfl : _ = m := by simpa using run
    exact ⟨⟨types, within.onCourse_ite typed left on away _⟩, .ite here rfl _⟩
  | goto here away =>
    have run := advance_inl_instr here nofun h
    cases run
    exact ⟨⟨types, within.onCourse typed fits away⟩, .jump here rfl (at_machine ..)⟩
  | abort here aborts =>
    obtain _ | ⟨⟨line, rfl⟩, fits⟩ := fits
    rcases advance_inl here h with ⟨noService, -⟩ | ⟨service, r, m', reply, same, run, -⟩
    · exact absurd rfl (noService _)
    · cases same
      rcases aborts with rfl | rfl
      · cases run
        exact nomatch reply
      · cases run
        exact nomatch reply
  | @give i slot here form result =>
    obtain _ | @⟨_, v, _, _, holds, ⟨⟩⟩ := fits
    have run := advance_inl_instr here (by rcases form with rfl | rfl <;> nofun) h
    have back : Exec.instr i (q.machine (pc + 1) ([v] ++ stack) mem) =
        .ok ((), ⟨q.unit, q.frames, [v] ++ stack, mem.globals, mem.heap⟩) := by
      rcases form with rfl | rfl <;> rfl
    obtain rfl : _ = m := by simpa using back.symm.trans run
    have given : Shape.Fits types (q.routine.result.toList.map .of) [v] := by
      rw [result]
      exact .cons holds .nil
    have returns : i.isReturn = true := by rcases form with rfl | rfl <;> rfl
    exact ⟨⟨types, within.back typed given⟩, .back here returns rfl⟩
  | ret here result =>
    cases fits
    have run := advance_inl_instr here nofun h
    cases run
    refine ⟨⟨types, within.back typed ?_⟩, .back here rfl rfl⟩
    rw [result]
    exact .nil

end Spot

theorem Activations.typed {u : ObjectUnit} {course : Course} {types : List Slot} {given : Shape}
    {frames : List Frame} {stack : List Value} (h : Activations u course types given frames stack) :
    ∀ f ∈ frames, (f.routine = u.entry ∨ f.routine ∈ u.routines.toList) ∧
      List.Forall₂ (Slot.Holds types) f.routine.locals.toList f.locals.toList := by
  induction h with
  | none => nofun
  | frame known locals operands on others ih =>
    exact List.forall_mem_cons.mpr ⟨⟨known, locals⟩, ih⟩

namespace Machine

/-- Every field of the unit and every slot of every activation holds a value of its type. -/
structure Typed (u : ObjectUnit) (m : Machine) : Prop where
  globals : ∀ f ∈ u.globals.toList, ∃ v, m.globals[f.name]? = some v ∧ f.slot.Admits m.heap v
  locals : ∀ f ∈ m.frames, (f.routine = u.entry ∨ f.routine ∈ u.routines.toList) ∧
    List.Forall₂ (Slot.Admits m.heap) f.routine.locals.toList f.locals.toList

end Machine

namespace Machine
variable {σ : Type} {host : Host σ} {s s' : σ} {u : ObjectUnit} {course : Course}
variable {types : List Slot} {m m' : Machine}

theorem OnCourse.typed (h : m.OnCourse u course types) : m.Typed u := by
  refine ⟨fun f mem => ?_, fun f mem => ?_⟩
  · obtain ⟨v, found, holds⟩ := h.globals f mem
    exact ⟨v, found, holds.admits h.heap⟩
  · obtain ⟨known, locals⟩ := h.frames.typed f mem
    exact ⟨known, locals.imp fun _ _ holds => holds.admits h.heap⟩

/-- The innermost activation is on its course, with the operands it has. -/
theorem OnCourse.operands {q : Spot} {pc : Nat} {stack : List Value} {mem : Memory}
    (h : (q.machine pc stack mem).OnCourse u course types) :
    ∃ shape own rest, stack = own ++ rest ∧ shape.Fits types own ∧ q.course course pc shape := by
  have frames : Activations u course types [] (⟨q.routine, pc, mem.locals⟩ :: q.frames) stack :=
    h.frames
  cases frames with
  | @frame _ shape _ _ own rest _ _ fits on _ => exact ⟨shape, own, rest, rfl, fits, on⟩

/-- A step keeps to the course if the innermost activation may be where its instruction leads, and
routines may be begun. It moves that activation. -/
theorem OnCourse.step (unitTyped : u.Typed) (h : m.OnCourse u course types)
    (goes : ∀ f below, m.frames = f :: below →
      (∀ r ∈ u.routines.toList, course (below.length + 1) r 0 []) ∧
      ∀ shape, course below.length f.routine f.pc shape →
        f.routine.Allows u (course below.length f.routine) f.pc shape)
    (next : Machine.advance host (m, s) = .inl (m', s')) :
    (∃ types', m'.OnCourse u course types') ∧
      ∀ (q : Spot) (pc : Nat), q.unit = u → q.At pc m → q.Moves pc m' := by
  obtain ⟨unit, frames, stack, globals, heap⟩ := m
  obtain ⟨rfl, fields, arrays, activations⟩ := h
  dsimp only at fields arrays activations
  cases activations with
  | none => cases next
  | @frame _ shape f frames own stack known locals fits on others =>
    obtain ⟨enters, allows⟩ := goes f frames rfl
    obtain ⟨routine, pc, slots⟩ := f
    have within : Spot.Within unit course types ⟨unit, routine, frames⟩ stack := ⟨rfl, known, others⟩
    have typed : Memory.Typed unit routine types ⟨slots, globals, heap⟩ := ⟨locals, fields, arrays⟩
    obtain ⟨onCourse, moves⟩ := Spot.advance_onCourse unitTyped within typed fits (allows shape on)
      enters next
    refine ⟨onCourse, ?_⟩
    rintro ⟨_, _, _⟩ _ rfl ⟨_, same⟩
    cases same
    exact moves

namespace Conforms

/-- A step leaves all typed, and moves the activation on top. -/
theorem step (unitTyped : u.Typed) (h : m.Conforms u types)
    (next : Machine.advance host (m, s) = .inl (m', s')) :
    (∃ types', m'.Conforms u types') ∧
      ∀ (q : Spot) (pc : Nat), q.unit = u → q.At pc m → q.Moves pc m' := by
  refine OnCourse.step unitTyped h (fun f below _ => ⟨fun r mem => ?_, fun shape safe => ?_⟩) next
  · exact (unitTyped.routines r mem).safe
  · exact safe.allows

theorem advance (unitTyped : u.Typed) (h : m.Conforms u types)
    (next : Machine.advance host (m, s) = .inl (m', s')) : ∃ types', m'.Conforms u types' :=
  (h.step unitTyped next).1

theorem after (unitTyped : u.Typed) (h : m.Conforms u types) {n : Nat}
    (run : Machine.after host n (m, s) = some (m', s')) : ∃ types', m'.Conforms u types' := by
  induction n generalizing m s types with
  | zero =>
    obtain ⟨rfl, -⟩ := by simpa [Machine.after] using run
    exact ⟨types, h⟩
  | succ n ih =>
    rw [Machine.after] at run
    cases next : Machine.advance host (m, s) with
    | inl c =>
      rw [next] at run
      obtain ⟨types', conforms⟩ := h.advance unitTyped next
      exact ih conforms run
    | inr r =>
      rw [next] at run
      cases run

end Conforms

end Machine

/-- At first all that a compiled unit has is zero. -/
theorem Program.Compiled.start_conforms {p : Program} {a : Analysis} {places : Places}
    {u : ObjectUnit} (compiled : p.Compiled a places u) (unitTyped : u.Typed) :
    (u.spot.machine 0 [] u.memory).Conforms u [] := by
  obtain ⟨params, -, -⟩ := compiled.heading
  have within : Spot.Within u (fun _ r => r.Safe u) [] u.spot [] := ⟨rfl, Or.inl rfl, .none⟩
  have noArgs : Shape.Fits [] (u.entry.params.toList.reverse.map .of) ([] : List Value).reverse := by
    rw [params]
    exact .nil
  have typed : Memory.Typed u u.entry [] u.memory := by
    refine ⟨Spot.entryLocals_hold unitTyped.entry.params noArgs, fun f mem => ?_, .nil⟩
    refine ⟨Value.zero f.slot, ?_, Slot.holds_zero [] f.slot⟩
    show (Machine.idle u).globals[f.name]? = _
    rw [Machine.idle_globals, Machine.zeroFields_get compiled.distinct mem]
  exact within.onCourse typed .nil unitTyped.entry.safe

end Guarded
