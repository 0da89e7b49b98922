import Guarded.Proofs.Saving
import Guarded.Proofs.Sequencing

/-!
Units come back from their files exactly if their constants are finite. Whatever an object file holds,
and however it is spelled, the slot numbers and branch targets that are read from it have the sizes of
the format, so they can be written again. Float constants are the exception: a numeral beyond the
greatest single is read as an infinity, an infinity is written `null`, and `null` is no constant.
-/

namespace Guarded

namespace Instr

/-- A slot number has 16 bits and a branch target 64. -/
def isSized : Instr → Bool
  | iload n | fload n | aload n | istore n | fstore n | astore n => n < 0x10000
  | branch _ t | branchCompare _ t | goto t => t < 0x10000000000000000
  | _ => true

def constant? : Instr → Option Float32
  | fconst v => some v
  | _ => none

theorem constant?_eq_some {i : Instr} {v : Float32} (h : i.constant? = some v) : i = fconst v := by
  cases i <;> cases h
  rfl

theorem savable_of_sized {i : Instr} (sized : i.isSized = true)
    (constant : ∀ v, i = fconst v → v.isFinite = true ∧ Json.ReadsBack v) : i.Savable := by
  cases i with
  | fconst v => exact constant v rfl
  | iload | fload | aload | istore | fstore | astore | branch | branchCompare | goto =>
    exact of_decide_eq_true (p := _ < _) sized
  | _ => trivial

section Sizes

variable {j : Json} {n t : Nat} {i : Instr}

theorem asInt_range {lo hi v : Int} (h : j.asInt lo hi = some v) : lo ≤ v ∧ v ≤ hi := by
  unfold Json.asInt at h
  split at h
  · split at h
    · split at h
      · next within =>
        obtain rfl := Option.some.inj h
        simpa using within
      · cases h
    · cases h
  · cases h

theorem slotOfJson_lt (h : slotOfJson j = some n) : n < 0x10000 := by
  obtain ⟨v, read, rfl⟩ := Option.map_eq_some_iff.mp h
  have range := asInt_range read
  omega

theorem targetOfJson_lt (h : targetOfJson j = some t) : t < 0x10000000000000000 := by
  obtain ⟨v, read, rfl⟩ := Option.map_eq_some_iff.mp h
  have range := asInt_range read
  omega

theorem branchOfJson_lt {c : Cond} (h : branchOfJson j = some (c, t)) :
    t < 0x10000000000000000 := by
  unfold branchOfJson at h
  split at h
  · simp only [Option.bind_eq_bind, Option.bind_eq_some_iff, Option.pure_def] at h
    obtain ⟨c', -, t', read, same⟩ := h
    cases same
    exact targetOfJson_lt read
  · cases h

/-- What is read with an operand has the sizes of the format. -/
theorem ofOperand_sized {tag : String} (h : ofOperand tag j = some i) : i.isSized = true := by
  have slot {build : Nat → Instr} (read : (slotOfJson j).map build = some i)
      (sized : ∀ n < 0x10000, (build n).isSized = true) : i.isSized = true := by
    obtain ⟨n, found, rfl⟩ := Option.map_eq_some_iff.mp read
    exact sized n (slotOfJson_lt found)
  have branch {build : Cond × Nat → Instr} (read : (branchOfJson j).map build = some i)
      (sized : ∀ c, ∀ t < 0x10000000000000000, (build (c, t)).isSized = true) :
      i.isSized = true := by
    obtain ⟨⟨c, t⟩, found, rfl⟩ := Option.map_eq_some_iff.mp read
    exact sized c t (branchOfJson_lt found)
  have other {α : Type} {x : Option α} {build : α → Instr} (read : x.map build = some i)
      (sized : ∀ a, (build a).isSized = true) : i.isSized = true := by
    obtain ⟨a, -, rfl⟩ := Option.map_eq_some_iff.mp read
    exact sized a
  unfold ofOperand at h
  split at h
  case h_15 =>
    obtain ⟨t, found, rfl⟩ := Option.map_eq_some_iff.mp h
    exact decide_eq_true (targetOfJson_lt found)
  case h_4 | h_5 | h_6 | h_7 | h_8 | h_9 => exact slot h fun n small => decide_eq_true small
  case h_13 | h_14 => exact branch h fun c t small => decide_eq_true small
  case h_18 => cases h
  all_goals exact other h fun _ => rfl

theorem ofJson_sized (h : ofJson j = some i) : i.isSized = true := by
  unfold ofJson at h
  split at h
  · next found =>
    obtain rfl := Option.some.inj h
    obtain ⟨name, -, listed⟩ := Option.bind_eq_some_iff.mp found
    have each : ∀ i ∈ bare, i.isSized = true := by decide
    exact each _ (List.mem_of_find?_eq_some listed)
  · split at h
    · exact ofOperand_sized h
    · cases h

end Sizes

/-- A constant that is not finite does not come back. -/
theorem ofJson_infinite {v : Float32} (infinite : v.isFinite = false) :
    ofJson (fconst v).toJson = none := by
  have operand : Json.float v = .null := by
    rw [Json.float, infinite]
    rfl
  have json : (fconst v).toJson = .tagged "FConst" (Json.float v) := rfl
  rw [json, operand]
  rfl

end Instr

section Lists

variable {α : Type}

theorem asList_mem {f : Json → Option α} {j : Json} {xs : List α} (h : j.asList f = some xs) :
    ∀ x ∈ xs, ∃ item, f item = some x := by
  cases j with
  | array items =>
    change items.mapM f = some xs at h
    induction items generalizing xs with
    | nil =>
      obtain rfl := Option.some.inj h
      simp
    | cons item items ih =>
      simp only [List.mapM_cons, Option.bind_eq_bind, Option.bind_eq_some_iff, Option.pure_def,
        Option.some.injEq] at h
      obtain ⟨x, first, rest, others, rfl⟩ := h
      exact List.forall_mem_cons.mpr ⟨⟨item, first⟩, ih others⟩
  | _ => cases h

theorem asList_none {f : α → Json} {g : Json → Option α} {xs : List α} {x : α} (mem : x ∈ xs)
    (fails : g (f x) = none) : Json.asList g (.array (xs.map f)) = none := by
  rw [Json.asList]
  induction xs with
  | nil => cases mem
  | cons y ys ih =>
    rw [List.map_cons, List.mapM_cons]
    rcases List.mem_cons.mp mem with rfl | mem
    · rw [fails]
      rfl
    · rw [ih mem]
      cases g (f y) <;> rfl

end Lists

namespace Routine
variable {r : Routine}

theorem ofJson_sized {j : Json} (h : ofJson j = some r) :
    ∀ i ∈ r.code.toList, i.isSized = true := by
  unfold ofJson at h
  split at h
  · simp only [Option.bind_eq_bind, Option.bind_eq_some_iff, Option.pure_def,
      Option.some.injEq] at h
    obtain ⟨_, -, _, -, _, -, _, -, code, read, rfl⟩ := h
    intro i mem
    obtain ⟨item, found⟩ := asList_mem read i mem
    exact Instr.ofJson_sized found
  · cases h

theorem ofJson_infinite {v : Float32} (const : Instr.fconst v ∈ r.code.toList)
    (infinite : v.isFinite = false) : ofJson r.toJson = none := by
  rw [ofJson_eq, asList_none const (Instr.ofJson_infinite infinite)]
  rfl

end Routine

namespace ObjectUnit
variable {u : ObjectUnit}

def allRoutines (u : ObjectUnit) : List Routine :=
  u.entry :: u.routines.toList

/-- The float constants in the code of a unit. -/
def constants (u : ObjectUnit) : List Float32 :=
  u.allRoutines.flatMap fun r => r.code.toList.filterMap Instr.constant?

/-- Slot numbers and branch targets have the sizes of the format. -/
def Sized (u : ObjectUnit) : Prop :=
  ∀ r ∈ u.allRoutines, ∀ i ∈ r.code.toList, i.isSized = true

def Finite (u : ObjectUnit) : Prop :=
  ∀ v ∈ u.constants, v.isFinite = true

/-- The digits that are written for the finite constants read back. -/
def DigitsReadBack (u : ObjectUnit) : Prop :=
  ∀ v ∈ u.constants, v.isFinite = true → Json.ReadsBack v

instance (u : ObjectUnit) : Decidable u.Sized :=
  inferInstanceAs (Decidable (∀ r ∈ u.allRoutines, ∀ i ∈ r.code.toList, i.isSized = true))

instance (u : ObjectUnit) : Decidable u.Finite :=
  inferInstanceAs (Decidable (∀ v ∈ u.constants, v.isFinite = true))

instance (u : ObjectUnit) : Decidable u.DigitsReadBack :=
  inferInstanceAs (Decidable (∀ v ∈ u.constants, v.isFinite = true → Json.ReadsBack v))

theorem mem_constants {v : Float32} :
    v ∈ u.constants ↔ ∃ r ∈ u.allRoutines, Instr.fconst v ∈ r.code.toList := by
  simp only [constants, List.mem_flatMap, List.mem_filterMap]
  constructor
  · rintro ⟨r, mem, i, inside, const⟩
    exact ⟨r, mem, Instr.constant?_eq_some const ▸ inside⟩
  · rintro ⟨r, mem, inside⟩
    exact ⟨r, mem, _, inside, rfl⟩

theorem savable_of_finite (sized : u.Sized) (digits : u.DigitsReadBack) (finite : u.Finite) :
    u.Savable := by
  intro r mem i inside
  refine Instr.savable_of_sized (sized r mem i inside) ?_
  rintro v rfl
  have const : v ∈ u.constants := mem_constants.mpr ⟨r, mem, inside⟩
  exact ⟨finite v const, digits v const (finite v const)⟩

/-- A unit with a constant that is not finite is not read back. -/
theorem load_save_infinite (infinite : ¬u.Finite) :
    load u.save = .error (.malformed "not an object unit") := by
  simp only [Finite, not_forall, Bool.not_eq_true] at infinite
  obtain ⟨v, const, infinite⟩ := infinite
  obtain ⟨r, mem, inside⟩ := mem_constants.mp const
  have fails := Routine.ofJson_infinite inside infinite
  have none : ofJson u.toJson = none := by
    rw [ofJson_eq]
    rcases List.mem_cons.mp mem with rfl | mem
    · rw [fails]
      rfl
    · rw [asList_none mem fails]
      cases Routine.ofJson u.entry.toJson <;> rfl
  rw [load, read_save, Option.bind_some, none]

/-- Whatever is loaded has the sizes of the format. -/
theorem load_sized {text : String} (loaded : load text = .ok u) : u.Sized := by
  unfold load at loaded
  split at loaded
  · next found =>
    obtain rfl := Except.ok.inj loaded
    obtain ⟨j, -, read⟩ := Option.bind_eq_some_iff.mp found
    unfold ofJson at read
    split at read
    · simp only [Option.bind_eq_bind, Option.bind_eq_some_iff, Option.pure_def,
        Option.some.injEq] at read
      obtain ⟨_, -, _, -, _, -, entry, inEntry, routines, inRoutines, rfl⟩ := read
      refine List.forall_mem_cons.mpr ⟨Routine.ofJson_sized inEntry, fun r mem => ?_⟩
      obtain ⟨item, found⟩ := asList_mem inRoutines r mem
      exact Routine.ofJson_sized found
    · cases read
  · cases loaded

/-- A unit with a constant that is not finite has a file that is refused. All others come back, and so
have files of their own; the digits that are written for their constants are assumed to read back. -/
theorem round_trip (u : ObjectUnit) :
    (¬u.Finite → ∃ reason, load u.save = .error (.malformed reason)) ∧
    (u.Finite → u.Sized → u.DigitsReadBack → load u.save = .ok u ∧
      ∀ other : ObjectUnit, other.Finite → other.Sized → other.DigitsReadBack →
        u.save = other.save → u = other) := by
  have back {w : ObjectUnit} (finite : w.Finite) (sized : w.Sized) (digits : w.DigitsReadBack) :
      load w.save = .ok w := load_save (savable_of_finite sized digits finite)
  refine ⟨fun infinite => ⟨_, load_save_infinite infinite⟩, fun finite sized digits => ?_⟩
  have here := back finite sized digits
  refine ⟨here, fun other finite' sized' digits' same => ?_⟩
  rw [same, back finite' sized' digits'] at here
  exact (Except.ok.inj here).symm

/-- A unit with the greatest numbers of each size, constants at the ends of their range, and texts that
need escapes. -/
def edges : ObjectUnit where
  package := "p\"\\/"
  name := "\n\x01\x7fé"
  globals := #[⟨"a$0", .booleanArray⟩]
  entry := ⟨"main", #[], none, #[.float], #[.fconst (Float32.ofBits 0x3dcccccd),
    .fconst (Float32.ofBits 0x80000000), .fconst (Float32.ofBits 0x00000001),
    .fconst (Float32.ofBits 0x7f7fffff), .branch .ge 0xffffffffffffffff, .aload 0xffff,
    .sconst "\t", .service .inputFloat, .ret]⟩
  routines := #[⟨"f", #[.int], some .intArray, #[.int], #[.iconst (-0x80000000), .ireturn]⟩]

/-- The same unit with one more constant in front. -/
def edgesWith (v : Float32) : ObjectUnit :=
  { edges with entry := { edges.entry with code := #[.fconst v] ++ edges.entry.code } }

theorem round_trip_edges :
    (edges.Finite ∧ edges.Sized ∧ edges.DigitsReadBack ∧ load edges.save = .ok edges) ∧
    ∀ v ∈ [Float32.ofBits 0x7f800000, Float32.ofBits 0xff800000, Float32.ofBits 0x7fc00000],
      ¬(edgesWith v).Finite ∧ ∃ reason, load (edgesWith v).save = .error (.malformed reason) := by
  obtain ⟨finite, sized, digits⟩ : edges.Finite ∧ edges.Sized ∧ edges.DigitsReadBack := by
    decide +kernel
  have infinite : ∀ v ∈ [Float32.ofBits 0x7f800000, Float32.ofBits 0xff800000,
      Float32.ofBits 0x7fc00000], ¬(edgesWith v).Finite := by
    decide +kernel
  refine ⟨⟨finite, sized, digits, ((round_trip edges).2 finite sized digits).1⟩, ?_⟩
  exact fun v mem => ⟨infinite v mem, (round_trip _).1 (infinite v mem)⟩

/-- What was loaded can be saved and loaded again exactly if its constants are finite. -/
theorem reload_iff {text : String} (loaded : load text = .ok u) (digits : u.DigitsReadBack) :
    load u.save = .ok u ↔ u.Finite := by
  constructor
  · intro back
    by_contra infinite
    rw [load_save_infinite infinite] at back
    cases back
  · intro finite
    exact load_save (savable_of_finite (load_sized loaded) digits finite)

/-- A file with one constant. Its records are written as arrays, and the last instruction as an object,
as no file that was saved has them. -/
def fileWith (numeral : String) : String :=
  "[\"p\", \"n\", [], [\"main\", [], null, [], [\x7b\"FConst\": " ++ numeral ++
    "\x7d, \x7b\"Return\": null\x7d]], []]"

/-- The unit in that file. -/
def unitWith (v : Float32) : ObjectUnit where
  package := "p"
  name := "n"
  globals := #[]
  entry := ⟨"main", #[], none, #[], #[.fconst v, .ret]⟩
  routines := #[]

theorem reload_iff_tenth :
    load (fileWith "1000e-4") = .ok (unitWith (Float32.ofBits 0x3dcccccd)) ∧
    (unitWith (Float32.ofBits 0x3dcccccd)).DigitsReadBack ∧
    (load (unitWith (Float32.ofBits 0x3dcccccd)).save = .ok (unitWith (Float32.ofBits 0x3dcccccd)) ↔
      (unitWith (Float32.ofBits 0x3dcccccd)).Finite) ∧
    (unitWith (Float32.ofBits 0x3dcccccd)).Finite := by
  have loaded : load (fileWith "1000e-4") = .ok (unitWith (Float32.ofBits 0x3dcccccd)) :=
    except_of_toOption (by decide +kernel)
  have digits : (unitWith (Float32.ofBits 0x3dcccccd)).DigitsReadBack := by decide +kernel
  exact ⟨loaded, digits, reload_iff loaded digits, by decide +kernel⟩

/-- A numeral beyond the greatest single is loaded, and what was loaded is saved as a file that is
refused. -/
theorem reload_overflow : ∃ u, load (fileWith "1e39") = .ok u ∧ load u.save ≠ .ok u := by
  have loaded : load (fileWith "1e39") = .ok (unitWith (Float32.ofBits 0x7f800000)) :=
    except_of_toOption (by decide +kernel)
  have infinite : ¬(unitWith (Float32.ofBits 0x7f800000)).Finite := by decide +kernel
  refine ⟨_, loaded, ?_⟩
  rw [load_save_infinite infinite]
  nofun

end ObjectUnit

end Guarded
