import Guarded.Proofs.Rendering

/-!
Object files hold units. What is written for a unit is read back as that unit, instruction by
instruction, if its operands fit into the file: slot numbers have 16 bits, branch targets 64, and
float constants are finite and read back from their digits.
-/

namespace Guarded

open Json

section Tags

theorem Slot.ofJson_toJson (s : Slot) : Slot.ofJson s.toJson = some s := by
  cases s <;> rfl

theorem Elem.ofJson_tag (e : Elem) : Elem.ofJson (.text e.tag) = some e := by
  cases e <;> rfl

theorem Cond.ofJson_tag (c : Cond) : Cond.ofJson (.text c.tag) = some c := by
  cases c <;> rfl

theorem Service.ofJson_tag (s : Service) : Service.ofJson (.text s.tag) = some s := by
  cases s <;> rfl

end Tags

/-- The digits that are written for a float are read back as that float. -/
def Json.ReadsBack (v : Float32) : Prop :=
  Json.single (Json.floatStyle.chars Number.single v.toBits.toNat) = some v

instance (v : Float32) : Decidable (Json.ReadsBack v) :=
  inferInstanceAs (Decidable (_ = some v))

namespace Instr

/-- The operand of an instruction savable into an object file. -/
def Savable : Instr → Prop
  | fconst v => v.isFinite = true ∧ Json.ReadsBack v
  | iload n | fload n | aload n | istore n | fstore n | astore n => n < 0x10000
  | branch _ t | branchCompare _ t | goto t => t < 0x10000000000000000
  | _ => True

theorem slotOfJson_nat {n : Nat} (small : n < 0x10000) : slotOfJson (.nat n) = some n := by
  rw [slotOfJson, Json.nat_eq_int, Json.asInt_int (by omega) (by omega)]
  rfl

theorem targetOfJson_nat {t : Nat} (small : t < 0x10000000000000000) :
    targetOfJson (.nat t) = some t := by
  rw [targetOfJson, Json.nat_eq_int, Json.asInt_int (by omega) (by omega)]
  rfl

theorem branchOfJson_pair (c : Cond) {t : Nat} (small : t < 0x10000000000000000) :
    branchOfJson (.array [.text c.tag, .nat t]) = some (c, t) := by
  rw [branchOfJson, Cond.ofJson_tag, targetOfJson_nat small]
  rfl

/-- An instruction with an operand is found through its name. -/
theorem ofJson_operand {i : Instr} {operand : Json} (found : i.operand? = some operand)
    (content : operand ≠ .null) : ofJson i.toJson = ofOperand i.tag operand := by
  have notBare : (Json.tagged i.tag operand).bare = none := by
    cases operand with
    | null => exact absurd rfl content
    | _ => rfl
  rw [toJson, found]
  dsimp only
  rw [ofJson, notBare]
  rfl

theorem ofJson_toJson {i : Instr} (savable : i.Savable) : ofJson i.toJson = some i := by
  cases i with
  | iconst v =>
    have low := v.le_toInt
    have high := v.toInt_lt
    refine (ofJson_operand rfl (by nofun)).trans ?_
    change ((Json.int v.toInt).asInt (-0x80000000) 0x7fffffff).map _ = _
    rw [Json.asInt_int (by omega) (by omega)]
    simp
  | fconst v =>
    obtain ⟨finite, reads⟩ := savable
    have operand : (fconst v).operand? =
        some (.number (floatStyle.chars Number.single v.toBits.toNat)) :=
      congrArg some (if_pos finite)
    refine (ofJson_operand operand (by nofun)).trans ?_
    change (Json.single _).map fconst = _
    rw [reads]
    rfl
  | iload n | fload n | aload n | istore n | fstore n | astore n =>
    refine (ofJson_operand rfl (by nofun)).trans ?_
    change (slotOfJson _).map _ = _
    rw [slotOfJson_nat savable]
    rfl
  | goto t =>
    refine (ofJson_operand rfl (by nofun)).trans ?_
    change (targetOfJson _).map _ = _
    rw [targetOfJson_nat savable]
    rfl
  | branch c t | branchCompare c t =>
    refine (ofJson_operand rfl (by nofun)).trans ?_
    change (branchOfJson _).map _ = _
    rw [branchOfJson_pair c savable]
    rfl
  | newarray e =>
    refine (ofJson_operand rfl (by nofun)).trans ?_
    change (Elem.ofJson _).map _ = _
    rw [Elem.ofJson_tag]
    rfl
  | service s =>
    refine (ofJson_operand rfl (by nofun)).trans ?_
    change (Service.ofJson _).map _ = _
    rw [Service.ofJson_tag]
    rfl
  | _ => rfl

theorem toJson_sound (i : Instr) : i.toJson.Sound := by
  have keyed {operand : Json} (tag : String) (sound : operand.Sound) :
      (Json.tagged tag operand).Sound :=
    ⟨rfl, sound, trivial⟩
  have natural (n : Nat) : (Json.nat n).Sound := by
    rw [Json.nat_eq_int]
    exact numeral_int n
  cases i with
  | iconst v => exact keyed _ (numeral_int v.toInt)
  | fconst v =>
    have constant : (Json.float v).Sound := by
      rw [Json.float]
      split
      · exact floatStyle.chars_numeral ‹_›
      · trivial
    exact keyed _ constant
  | iload n | fload n | aload n | istore n | fstore n | astore n | goto n => exact keyed _ (natural n)
  | branch c t | branchCompare c t => exact keyed _ ⟨rfl, natural t, trivial⟩
  | sconst s | getstatic s | putstatic s | invoke s => exact keyed _ rfl
  | newarray e => exact keyed _ rfl
  | service s => exact keyed _ rfl
  | _ => rfl

end Instr

section Lists

variable {α : Type}

theorem soundItems_map {f : α → Json} {xs : List α} (each : ∀ x ∈ xs, (f x).Sound) :
    SoundItems (xs.map f) := by
  induction xs with
  | nil => trivial
  | cons x xs ih =>
    rw [List.forall_mem_cons] at each
    exact ⟨each.1, ih each.2⟩

theorem asList_map {f : α → Json} {g : Json → Option α} {xs : List α}
    (each : ∀ x ∈ xs, g (f x) = some x) : Json.asList g (.array (xs.map f)) = some xs := by
  rw [Json.asList]
  induction xs with
  | nil => rfl
  | cons x xs ih =>
    rw [List.forall_mem_cons] at each
    rw [List.map_cons, List.mapM_cons, each.1, ih each.2]
    rfl

end Lists

theorem Field.ofJson_toJson (f : Field) : Field.ofJson f.toJson = some f := by
  have found : f.toJson.fields ["name", "ty"] = some [some (.text f.name), some f.slot.toJson] := rfl
  rw [Field.ofJson, found]
  simp only [Slot.ofJson_toJson]
  rfl

theorem Field.toJson_sound (f : Field) : f.toJson.Sound :=
  ⟨rfl, rfl, rfl, rfl, trivial⟩

namespace Routine
variable {r : Routine}

theorem resultOfJson_toJson (result : Option Slot) :
    resultOfJson (some ((result.map Slot.toJson).getD .null)) = some result := by
  cases result with
  | none => rfl
  | some slot =>
    change (Slot.ofJson slot.toJson).map some = _
    rw [Slot.ofJson_toJson]
    rfl

/-- Reading a routine comes down to reading its code. -/
theorem ofJson_eq (r : Routine) : ofJson r.toJson =
    (Json.asList Instr.ofJson (.array (r.code.toList.map Instr.toJson))).map
      fun code => { r with code := code.toArray } := by
  have found : r.toJson.fields ["name", "params", "ret", "locals", "code"] =
      some [some (.text r.name), some (.array (r.params.toList.map Slot.toJson)),
        some ((r.result.map Slot.toJson).getD .null),
        some (.array (r.locals.toList.map Slot.toJson)),
        some (.array (r.code.toList.map Instr.toJson))] := rfl
  have params := asList_map fun s (_ : s ∈ r.params.toList) => Slot.ofJson_toJson s
  have locals := asList_map fun s (_ : s ∈ r.locals.toList) => Slot.ofJson_toJson s
  rw [ofJson, found]
  simp only [resultOfJson_toJson, params, locals]
  cases Json.asList Instr.ofJson (.array (r.code.toList.map Instr.toJson)) <;> rfl

theorem ofJson_toJson (savable : ∀ i ∈ r.code.toList, i.Savable) : ofJson r.toJson = some r := by
  rw [ofJson_eq, asList_map fun i mem => Instr.ofJson_toJson (savable i mem)]
  rfl

theorem toJson_sound (r : Routine) : r.toJson.Sound := by
  have slots (xs : List Slot) : (Json.array (xs.map Slot.toJson)).Sound :=
    soundItems_map fun s _ => show s.toJson.Sound from rfl
  have code : (Json.array (r.code.toList.map Instr.toJson)).Sound :=
    soundItems_map fun i _ => i.toJson_sound
  have result : ((r.result.map Slot.toJson).getD .null).Sound := by
    cases r.result with
    | none => trivial
    | some slot => rfl
  exact ⟨rfl, rfl, rfl, slots _, rfl, result, rfl, slots _, rfl, code, trivial⟩

end Routine

namespace ObjectUnit
variable {u : ObjectUnit}

/-- Every operand in the code of a unit fits into an object file. -/
def Savable (u : ObjectUnit) : Prop :=
  ∀ r ∈ u.entry :: u.routines.toList, ∀ i ∈ r.code.toList, i.Savable

/-- Reading a unit comes down to reading its routines. -/
theorem ofJson_eq (u : ObjectUnit) : ofJson u.toJson =
    (Routine.ofJson u.entry.toJson).bind fun entry =>
      (Json.asList Routine.ofJson (.array (u.routines.toList.map Routine.toJson))).map
        fun routines => { u with entry, routines := routines.toArray } := by
  have found : u.toJson.fields ["package", "name", "globals", "entry", "routines"] =
      some [some (.text u.package), some (.text u.name),
        some (.array (u.globals.toList.map Field.toJson)), some u.entry.toJson,
        some (.array (u.routines.toList.map Routine.toJson))] := rfl
  have globals := asList_map fun f (_ : f ∈ u.globals.toList) => Field.ofJson_toJson f
  rw [ofJson, found]
  simp only [globals]
  cases Routine.ofJson u.entry.toJson with
  | none => rfl
  | some entry =>
    cases Json.asList Routine.ofJson (.array (u.routines.toList.map Routine.toJson)) <;> rfl

theorem ofJson_toJson (savable : u.Savable) : ofJson u.toJson = some u := by
  obtain ⟨inEntry, inRoutines⟩ := List.forall_mem_cons.mp savable
  rw [ofJson_eq, Routine.ofJson_toJson inEntry,
    asList_map fun r mem => Routine.ofJson_toJson (inRoutines r mem)]
  rfl

theorem toJson_sound (u : ObjectUnit) : u.toJson.Sound := by
  have globals : (Json.array (u.globals.toList.map Field.toJson)).Sound :=
    soundItems_map fun f _ => f.toJson_sound
  have routines : (Json.array (u.routines.toList.map Routine.toJson)).Sound :=
    soundItems_map fun r _ => r.toJson_sound
  exact ⟨rfl, rfl, rfl, rfl, rfl, globals, rfl, u.entry.toJson_sound, rfl, routines, trivial⟩

/-- Whatever the unit, the text that is written for it is JSON. -/
theorem read_save (u : ObjectUnit) : Json.read u.save = some u.toJson :=
  read_render indented_blank u.toJson_sound

/-- A unit is loaded as it was saved. -/
theorem load_save (savable : u.Savable) : load u.save = .ok u := by
  rw [load, read_save, Option.bind_some, ofJson_toJson savable]

end ObjectUnit

end Guarded
