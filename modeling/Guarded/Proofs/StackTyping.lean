import Guarded.Object

/-!
Types for object code. A shape says what an activation has on the operand stack. An instruction may
be carried out at some shapes and leaves others; code leads somewhere if it can be carried out
without end, or until it gets to one of the goals. Code that leads nowhere in particular never meets
operands of the wrong type.

Constants are integers or truth values, as the code after them needs it, and so are arrays of them.
-/

namespace Guarded

/-- What one place of an operand stack holds. -/
inductive Cell where
  | of (slot : Slot)
  /-- A text, which is only there to be asked for. -/
  | name

/-- The operands of one activation, the top first. -/
abbrev Shape := List Cell

/-- The slot of the elements of an array. -/
def Slot.element? : Slot → Option Slot
  | .intArray => some .int
  | .floatArray => some .float
  | .booleanArray => some .boolean
  | .int | .float | .boolean => none

/-- Zeros of this kind are values of the slot. -/
def Elem.Makes : Elem → Slot → Prop
  | .int, slot => slot = .int ∨ slot = .boolean
  | .float, slot => slot = .float

namespace Instr

/-- What an instruction takes and leaves, if that is always the same. -/
def signature? : Instr → Option (Shape × Shape)
  | fconst _ => some ([], [.of .float])
  | sconst _ => some ([], [.name])
  | iadd | isub | imul | idiv | irem => some ([.of .int, .of .int], [.of .int])
  | ineg => some ([.of .int], [.of .int])
  | fadd | fsub | fmul | fdiv => some ([.of .float, .of .float], [.of .float])
  | fneg => some ([.of .float], [.of .float])
  | i2f => some ([.of .int], [.of .float])
  | f2i => some ([.of .float], [.of .int])
  | iand | ior => some ([.of .boolean, .of .boolean], [.of .boolean])
  | fcmpl | fcmpg => some ([.of .float, .of .float], [.of .int])
  | service .printInt => some ([.of .int], [])
  | service .printFloat => some ([.of .float], [])
  | service .printBoolean => some ([.of .boolean], [])
  | service .inputInt => some ([.name], [.of .int])
  | service .inputFloat => some ([.name], [.of .float])
  | service .inputBoolean => some ([.name], [.of .boolean])
  | _ => none

/-- What an instruction of the routine `r` may take and leave before the next one is carried out. -/
inductive Turns (u : ObjectUnit) (r : Routine) : Instr → Shape → Shape → Prop where
  | fixed {i : Instr} {takes leaves : Shape} (known : i.signature? = some (takes, leaves)) :
    Turns u r i takes leaves
  | int (v : Int32) : Turns u r (.iconst v) [] [.of .int]
  | boolean (b : Bool) : Turns u r (.iconst (if b then 1 else 0)) [] [.of .boolean]
  | load {i : Instr} {n : Nat} {slot : Slot} (form : i = .iload n ∨ i = .fload n ∨ i = .aload n)
    (there : r.locals[n]? = some slot) : Turns u r i [] [.of slot]
  | store {i : Instr} {n : Nat} {slot : Slot} (form : i = .istore n ∨ i = .fstore n ∨ i = .astore n)
    (there : r.locals[n]? = some slot) : Turns u r i [.of slot] []
  | getstatic {f : String} {slot : Slot} (there : ⟨f, slot⟩ ∈ u.globals.toList) :
    Turns u r (.getstatic f) [] [.of slot]
  | putstatic {f : String} {slot : Slot} (there : ⟨f, slot⟩ ∈ u.globals.toList) :
    Turns u r (.putstatic f) [.of slot] []
  | newarray {elem : Elem} {slot item : Slot} (items : slot.element? = some item)
    (makes : elem.Makes item) : Turns u r (.newarray elem) [.of .int] [.of slot]
  | getElement {i : Instr} {slot item : Slot} (form : i = .iaload ∨ i = .faload)
    (items : slot.element? = some item) : Turns u r i [.of .int, .of slot] [.of item]
  | putElement {i : Instr} {slot item : Slot} (form : i = .iastore ∨ i = .fastore)
    (items : slot.element? = some item) : Turns u r i [.of item, .of .int, .of slot] []
  | invoke {name : String} {callee : Routine}
    (found : u.routines.findRev? (·.name == name) = some callee) :
    Turns u r (.invoke name) (callee.params.toList.reverse.map .of)
      (callee.result.toList.map .of)

variable {u : ObjectUnit} {r : Routine} {takes leaves : Shape}

theorem Turns.of_signature {i : Instr} {takes' leaves' : Shape}
    (known : i.signature? = some (takes', leaves')) (h : i.Turns u r takes leaves) :
    takes = takes' := by
  cases h with
  | fixed known' =>
    obtain ⟨rfl, -⟩ := Prod.mk.inj (Option.some.inj (known'.symm.trans known))
    rfl
  | load form | store form => rcases form with rfl | rfl | rfl <;> cases known
  | getElement form | putElement form => rcases form with rfl | rfl <;> cases known
  | int | boolean | getstatic | putstatic | newarray | invoke => cases known

/-- What goes on to the next instruction is no jump. -/
theorem Turns.target?_eq_none {i : Instr} (h : i.Turns u r takes leaves) : i.target? = none := by
  cases h with
  | fixed known => cases i <;> first | rfl | cases known
  | load form | store form => rcases form with rfl | rfl | rfl <;> rfl
  | getElement form | putElement form => rcases form with rfl | rfl <;> rfl
  | int | boolean | getstatic | putstatic | newarray | invoke => rfl

theorem Turns.of_invoke {name : String} (h : (Instr.invoke name).Turns u r takes leaves) :
    ∃ callee, u.routines.findRev? (·.name == name) = some callee ∧
      takes = callee.params.toList.reverse.map .of ∧ leaves = callee.result.toList.map .of := by
  cases h with
  | invoke found => exact ⟨_, found, rfl, rfl⟩
  | fixed known => cases known
  | load form | store form => simp at form
  | getElement form | putElement form => simp at form

theorem Turns.of_service {s : Service} (h : (Instr.service s).Turns u r takes leaves) :
    (Instr.service s).signature? = some (takes, leaves) := by
  cases h with
  | fixed known => exact known
  | load form | store form => simp at form
  | getElement form | putElement form => simp at form

end Instr

namespace Routine

/-- The instruction before this one compares floats. -/
def Compared (r : Routine) (pc : Nat) : Prop :=
  ∃ k, pc = k + 1 ∧ (r.code[k]? = some .fcmpl ∨ r.code[k]? = some .fcmpg)

/-- The instruction at a place can be carried out at a shape, and whatever comes of it is in `next`.
Only the order of two floats is an integer that is branched on. -/
inductive Allows (u : ObjectUnit) (r : Routine) (next : Nat → Shape → Prop) (pc : Nat) :
    Shape → Prop where
  | turn {i : Instr} {takes leaves rest : Shape} (here : r.code[pc]? = some i)
    (turns : i.Turns u r takes leaves) (on : next (pc + 1) (leaves ++ rest)) :
    Allows u r next pc (takes ++ rest)
  | branch {cond : Cond} {target : Nat} {rest : Shape}
    (here : r.code[pc]? = some (.branch cond target)) (on : next (pc + 1) rest)
    (away : next target rest) : Allows u r next pc (.of .boolean :: rest)
  | branchOrder {cond : Cond} {target : Nat} {rest : Shape}
    (here : r.code[pc]? = some (.branch cond target)) (compared : r.Compared pc)
    (on : next (pc + 1) rest) (away : next target rest) :
    Allows u r next pc (.of .int :: rest)
  | branchCompare {cond : Cond} {target : Nat} {slot : Slot} {rest : Shape}
    (here : r.code[pc]? = some (.branchCompare cond target))
    (single : slot = .int ∨ slot = .boolean) (on : next (pc + 1) rest)
    (away : next target rest) : Allows u r next pc (.of slot :: .of slot :: rest)
  | goto {target : Nat} {shape : Shape} (here : r.code[pc]? = some (.goto target))
    (away : next target shape) : Allows u r next pc shape
  | abort {service : Service} {rest : Shape} (here : r.code[pc]? = some (.service service))
    (aborts : service = .abortNoAlternative ∨ service = .abortNoFunctionReturn) :
    Allows u r next pc (.of .int :: rest)
  | give {i : Instr} {slot : Slot} (here : r.code[pc]? = some i)
    (form : i = .ireturn ∨ i = .freturn) (result : r.result = some slot) :
    Allows u r next pc [.of slot]
  | ret (here : r.code[pc]? = some .ret) (result : r.result = none) : Allows u r next pc []

theorem Allows.mono {u : ObjectUnit} {r : Routine} {next next' : Nat → Shape → Prop} {pc : Nat}
    {shape : Shape} (h : r.Allows u next pc shape)
    (imp : ∀ pc shape, next pc shape → next' pc shape) : r.Allows u next' pc shape := by
  cases h with
  | turn here turns on => exact .turn here turns (imp _ _ on)
  | branch here on away => exact .branch here (imp _ _ on) (imp _ _ away)
  | branchOrder here compared on away =>
    exact .branchOrder here compared (imp _ _ on) (imp _ _ away)
  | branchCompare here single on away =>
    exact .branchCompare here single (imp _ _ on) (imp _ _ away)
  | goto here away => exact .goto here (imp _ _ away)
  | abort here aborts => exact .abort here aborts
  | give here form result => exact .give here form result
  | ret here result => exact .ret here result

section Inversion
variable {u : ObjectUnit} {r : Routine} {next : Nat → Shape → Prop} {pc target : Nat}
variable {shape : Shape} {cond : Cond} (h : r.Allows u next pc shape)
include h

theorem Allows.of_signature {i : Instr} (found : r.code[pc]? = some i) {takes leaves : Shape}
    (known : i.signature? = some (takes, leaves)) : ∃ rest, shape = takes ++ rest := by
  cases h with
  | @turn _ _ _ rest here turns on =>
    obtain rfl := Option.some.inj (found.symm.trans here)
    exact ⟨rest, by rw [turns.of_signature known]⟩
  | branch here | branchOrder here | branchCompare here | goto here | ret here =>
    obtain rfl := Option.some.inj (found.symm.trans here)
    cases known
  | abort here aborts =>
    obtain rfl := Option.some.inj (found.symm.trans here)
    rcases aborts with rfl | rfl <;> cases known
  | give here form =>
    obtain rfl := Option.some.inj (found.symm.trans here)
    rcases form with rfl | rfl <;> cases known

/-- A branch is on a truth value, unless two floats have just been compared. -/
theorem Allows.of_branch (found : r.code[pc]? = some (.branch cond target))
    (alone : ¬ r.Compared pc) : ∃ rest, shape = .of .boolean :: rest := by
  cases h with
  | turn here turns =>
    obtain rfl := Option.some.inj (found.symm.trans here)
    cases turns.target?_eq_none
  | @branch _ _ rest => exact ⟨rest, rfl⟩
  | branchOrder here compared => exact absurd compared alone
  | branchCompare here | goto here | abort here | ret here => cases found.symm.trans here
  | give here form =>
    obtain rfl := Option.some.inj (found.symm.trans here)
    rcases form with form | form <;> cases form

theorem Allows.of_branchCompare (found : r.code[pc]? = some (.branchCompare cond target)) :
    ∃ slot rest, (slot = .int ∨ slot = .boolean) ∧ shape = .of slot :: .of slot :: rest := by
  cases h with
  | turn here turns =>
    obtain rfl := Option.some.inj (found.symm.trans here)
    cases turns.target?_eq_none
  | @branchCompare _ _ slot rest here single => exact ⟨slot, rest, single, rfl⟩
  | branch here | branchOrder here | goto here | abort here | ret here =>
    cases found.symm.trans here
  | give here form =>
    obtain rfl := Option.some.inj (found.symm.trans here)
    rcases form with form | form <;> cases form

end Inversion

/-- The code can be carried out from here, and if it leaves the shapes that it goes through, it gets
to a goal. At least one instruction is carried out. -/
def Leads (u : ObjectUnit) (r : Routine) (goal : Nat → Shape → Prop) (pc : Nat) (shape : Shape) :
    Prop :=
  ∃ within : Nat → Shape → Prop, within pc shape ∧ ∀ pc shape, within pc shape →
    r.Allows u (fun pc shape => within pc shape ∨ goal pc shape) pc shape

/-- The same, or this is a goal. -/
def Gets (u : ObjectUnit) (r : Routine) (goal : Nat → Shape → Prop) (pc : Nat) (shape : Shape) :
    Prop :=
  goal pc shape ∨ r.Leads u goal pc shape

variable {u : ObjectUnit} {r : Routine} {goal goal' : Nat → Shape → Prop} {pc : Nat} {shape : Shape}

theorem Leads.allows (h : r.Leads u goal pc shape) : r.Allows u (r.Gets u goal) pc shape := by
  obtain ⟨within, inside, closed⟩ := h
  refine (closed pc shape inside).mono fun pc shape on => ?_
  rcases on with inside | reached
  · exact Or.inr ⟨within, inside, closed⟩
  · exact Or.inl reached

/-- The shapes that code goes through may be given by any set that it does not leave. -/
theorem Leads.of_closed (within : Nat → Shape → Prop) (inside : within pc shape)
    (closed : ∀ pc shape, within pc shape →
      r.Allows u (fun pc shape => within pc shape ∨ r.Gets u goal pc shape) pc shape) :
    r.Leads u goal pc shape := by
  refine ⟨fun pc shape => within pc shape ∨ r.Leads u goal pc shape, Or.inl inside, ?_⟩
  rintro pc shape (inside | leads)
  · refine (closed pc shape inside).mono ?_
    rintro pc shape (inside | reached | leads)
    · exact Or.inl (Or.inl inside)
    · exact Or.inr reached
    · exact Or.inl (Or.inr leads)
  · refine leads.allows.mono ?_
    rintro pc shape (reached | leads)
    · exact Or.inr reached
    · exact Or.inl (Or.inr leads)

/-- One instruction. -/
theorem Leads.step (h : r.Allows u (r.Gets u goal) pc shape) : r.Leads u goal pc shape := by
  refine .of_closed (fun pc' shape' => pc' = pc ∧ shape' = shape) ⟨rfl, rfl⟩ ?_
  rintro _ _ ⟨rfl, rfl⟩
  exact h.mono fun _ _ gets => Or.inr gets

/-- Code that goes on from each of its goals. -/
theorem Leads.bind (h : r.Leads u goal pc shape)
    (more : ∀ pc shape, goal pc shape → r.Gets u goal' pc shape) : r.Leads u goal' pc shape := by
  refine .of_closed (r.Leads u goal) h fun pc shape leads => leads.allows.mono ?_
  rintro pc shape (reached | leads)
  · exact Or.inr (more pc shape reached)
  · exact Or.inl leads

theorem Gets.bind (h : r.Gets u goal pc shape)
    (more : ∀ pc shape, goal pc shape → r.Gets u goal' pc shape) : r.Gets u goal' pc shape := by
  rcases h with reached | leads
  · exact more pc shape reached
  · exact Or.inr (leads.bind more)

/-- Code that may come back to where it started. -/
theorem Leads.loop (head : Nat → Shape → Prop)
    (round : ∀ pc shape, head pc shape →
      r.Leads u (fun pc shape => head pc shape ∨ goal pc shape) pc shape)
    (h : head pc shape) : r.Leads u goal pc shape := by
  refine .of_closed (r.Leads u fun pc shape => head pc shape ∨ goal pc shape) (round pc shape h) ?_
  intro pc shape leads
  refine leads.allows.mono ?_
  rintro pc shape ((again | reached) | leads)
  · exact Or.inl (round pc shape again)
  · exact Or.inr (Or.inl reached)
  · exact Or.inl leads

/-- The code can be carried out from here without end. -/
def Safe (u : ObjectUnit) (r : Routine) : Nat → Shape → Prop :=
  r.Leads u fun _ _ => False

theorem Safe.allows (h : r.Safe u pc shape) : r.Allows u (r.Safe u) pc shape := by
  refine Leads.allows h |>.mono ?_
  rintro pc shape (reached | leads)
  · exact reached.elim
  · exact leads

theorem Safe.gets (h : r.Safe u pc shape) : r.Gets u goal pc shape :=
  Or.inr (h.bind fun _ _ reached => reached.elim)

/-- From one place and shape to another. -/
def Runs (u : ObjectUnit) (r : Routine) (pc : Nat) (shape : Shape) (pc' : Nat) (shape' : Shape) :
    Prop :=
  r.Gets u (fun pc shape => pc = pc' ∧ shape = shape') pc shape

namespace Runs
variable {pc' pc'' : Nat} {shape' shape'' : Shape}

theorem refl (pc : Nat) (shape : Shape) : r.Runs u pc shape pc shape :=
  Or.inl ⟨rfl, rfl⟩

theorem gets (h : r.Runs u pc shape pc' shape') (more : r.Gets u goal pc' shape') :
    r.Gets u goal pc shape := by
  refine Gets.bind h ?_
  rintro _ _ ⟨rfl, rfl⟩
  exact more

theorem trans (first : r.Runs u pc shape pc' shape') (second : r.Runs u pc' shape' pc'' shape'') :
    r.Runs u pc shape pc'' shape'' :=
  first.gets second

theorem safe (first : r.Runs u pc shape pc' shape') (second : r.Safe u pc' shape') :
    r.Safe u pc shape := by
  rcases first.gets (Or.inr second) with reached | leads
  · exact reached.elim
  · exact leads

/-- What changes the shape takes an instruction. -/
theorem leads (h : r.Runs u pc shape pc' shape') (ne : shape ≠ shape') :
    r.Leads u (fun pc shape => pc = pc' ∧ shape = shape') pc shape := by
  rcases h with ⟨-, same⟩ | leads
  · exact absurd same ne
  · exact leads

/-- An instruction that goes on to the next. -/
theorem turn {i : Instr} {takes leaves : Shape} (here : r.code[pc]? = some i)
    (turns : i.Turns u r takes leaves) (rest : Shape) :
    r.Runs u pc (takes ++ rest) (pc + 1) (leaves ++ rest) :=
  Or.inr (.step (.turn here turns (Runs.refl _ _)))

end Runs

/-- A routine that can be called: its parameters are the first of its locals, and its code can be
carried out from the start. -/
structure Typed (u : ObjectUnit) (r : Routine) : Prop where
  params : r.params.toList <+: r.locals.toList
  safe : r.Safe u 0 []

end Routine

/-- Code in which every routine can be called. -/
structure ObjectUnit.Typed (u : ObjectUnit) : Prop where
  entry : u.entry.Typed u
  routines : ∀ r ∈ u.routines.toList, r.Typed u
  distinct : (u.globals.toList.map Field.name).Nodup

end Guarded
