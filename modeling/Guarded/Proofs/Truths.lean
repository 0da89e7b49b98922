import Guarded.Proofs.Control

/-!
Truth values in runs of compiled programs. What is stored as a truth value is zero or one, so logical
instructions answer as logic has it.

For a comparison the code does not tell truth values from integers: both are compared by the same
instructions. Where the code of a comparison of truth values begins, its operands are computed first,
whatever they call, and they leave truth values because their code is typed. To follow one activation
through that code, it is put on a course of its own, while all others are on the course of typed code.
-/

namespace Guarded

section UpTo
variable {u : ObjectUnit} {r : Routine} {stop pc : Nat} {i : Instr}

/-- A routine without its code from some instruction on. -/
def Routine.upTo (r : Routine) (stop : Nat) : Routine :=
  { r with code := (r.code.toList.take stop).toArray }

theorem Routine.upTo_code :
    (r.upTo stop).code[pc]? = some i ↔ pc < stop ∧ r.code[pc]? = some i := by
  simp only [upTo, List.getElem?_toArray, List.getElem?_take, Array.getElem?_toList]
  split <;> simp_all

theorem Instr.Turns.of_upTo {takes leaves : Shape} (h : i.Turns u (r.upTo stop) takes leaves) :
    i.Turns u r takes leaves := by
  cases h with
  | fixed known => exact .fixed known
  | int v => exact .int v
  | boolean b => exact .boolean b
  | load form there => exact .load form there
  | store form there => exact .store form there
  | getstatic there => exact .getstatic there
  | putstatic there => exact .putstatic there
  | newarray items makes => exact .newarray items makes
  | getElement form items => exact .getElement form items
  | putElement form items => exact .putElement form items
  | invoke found => exact .invoke found

theorem Routine.Allows.of_upTo {next : Nat → Shape → Prop} {shape : Shape}
    (h : (r.upTo stop).Allows u next pc shape) : r.Allows u next pc shape := by
  have given {pc : Nat} {i : Instr} (here : (r.upTo stop).code[pc]? = some i) :
      r.code[pc]? = some i := (upTo_code.mp here).2
  cases h with
  | turn here turns on => exact .turn (given here) turns.of_upTo on
  | branch here on away => exact .branch (given here) on away
  | branchOrder here compared on away =>
    obtain ⟨k, next, compares⟩ := compared
    exact .branchOrder (given here) ⟨k, next, compares.imp given given⟩ on away
  | branchCompare here single on away => exact .branchCompare (given here) single on away
  | goto here away => exact .goto (given here) away
  | abort here aborts => exact .abort (given here) aborts
  | give here form result => exact .give (given here) form result
  | ret here result => exact .ret (given here) result

theorem Routine.Allows.exists_code {next : Nat → Shape → Prop} {shape : Shape}
    (h : r.Allows u next pc shape) : ∃ i, r.code[pc]? = some i := by
  cases h with
  | turn here | branch here | branchOrder here | branchCompare here | goto here | abort here
  | give here | ret here => exact ⟨_, here⟩

/-- Nothing can be carried out where the code has been cut off. -/
theorem Routine.Gets.goal_of_upTo {goal : Nat → Shape → Prop} {shape : Shape}
    (h : (r.upTo stop).Gets u goal stop shape) : goal stop shape := by
  rcases h with reached | leads
  · exact reached
  · obtain ⟨i, here⟩ := leads.allows.exists_code
    exact absurd (upTo_code.mp here).1 (Nat.lt_irrefl stop)

theorem Op.CodeAt.upTo {a : Analysis} {places : Places} {pos : Nat} {ops : List Op}
    (code : CodeAt a places r.code pos ops) (low : pos + sizeAll ops ≤ stop) :
    CodeAt a places (r.upTo stop).code pos ops := by
  induction ops generalizing pos with
  | nil => trivial
  | cons op ops ih =>
    rw [sizeAll_cons] at low
    refine ⟨fun one => ?_, ih code.2 (by omega)⟩
    obtain ⟨i, found, becomes⟩ := code.1 one
    exact ⟨i, Routine.upTo_code.mpr ⟨by omega, found⟩, becomes⟩

theorem Scene.upTo {p : Program} {a : Analysis} {places : Places} {here : Option SymbolId}
    (scene : Scene p a places u here r) (stop : Nat) : Scene p a places u here (r.upTo stop) :=
  { scene with slots := scene.slots, result := scene.result }

end UpTo

/-- An activation makes for a goal before the instruction at `stop`. All others just go on. -/
def Spot.toward (q : Spot) (u : ObjectUnit) (stop : Nat) (goal : Nat → Shape → Prop) : Course :=
  fun depth r pc shape =>
    if depth = q.frames.length then (r.upTo stop).Gets u goal pc shape else r.Safe u pc shape

/-- Activations keep to every course that is the same for them. -/
theorem Activations.imp {u : ObjectUnit} {course course' : Course} {types : List Slot}
    {given : Shape} {frames : List Frame} {stack : List Value}
    (h : Activations u course types given frames stack)
    (same : ∀ depth < frames.length, ∀ r pc shape, course depth r pc shape →
      course' depth r pc shape) : Activations u course' types given frames stack := by
  induction h with
  | none => exact .none
  | @frame _ _ _ frames _ _ known locals operands on others ih =>
    refine .frame known locals operands (same _ (Nat.lt_succ_self _) _ _ _ on) (ih ?_)
    exact fun depth low => same depth (Nat.lt_succ_of_lt low)

namespace Spot
variable {σ : Type} {host : Machine.Host σ} {u : ObjectUnit} {types : List Slot} {q : Spot}
variable {pos lo hi : Nat} {goal : Nat → Shape → Prop} {m m' : Machine} {s s' : σ}
variable {c c' : Machine × σ}

/-- An activation that has come to some code is on the course to where this code leads. -/
theorem toward_of_conforms {stack : List Value} {mem : Memory} {goal : Shape → Nat → Shape → Prop}
    (conforms : (q.machine pos stack mem).Conforms u types)
    (leads : ∀ shape, (q.routine.upTo hi).Gets u (goal shape) pos shape) :
    ∃ shape, (q.machine pos stack mem).OnCourse u (q.toward u hi (goal shape)) types := by
  have frames : Activations u (fun _ r => r.Safe u) types []
    (⟨q.routine, pos, mem.locals⟩ :: q.frames) stack := conforms.frames
  cases frames with
  | @frame _ shape _ _ own rest known locals fits safe others =>
    refine ⟨shape, conforms.unit, conforms.globals, conforms.heap, .frame known locals fits ?_ ?_⟩
    · exact (if_pos rfl).mpr (leads shape)
    · exact others.imp fun depth low r pc shape safe => (if_neg (Nat.ne_of_lt low)).mpr safe

/-- A step of code before the goal keeps to the course. -/
theorem Inside.toward (unitTyped : u.Typed) (inside : q.Inside lo hi m)
    (ends : ∀ pc shape, goal pc shape → pc = hi)
    (h : m.OnCourse u (q.toward u hi goal) types)
    (next : Machine.advance host (m, s) = .inl (m', s')) :
    ∃ types', m'.OnCourse u (q.toward u hi goal) types' := by
  have begun {depth : Nat} (other : depth ≠ q.frames.length) (r : Routine)
      (mem : r ∈ u.routines.toList) : q.toward u hi goal depth r 0 [] :=
    (if_neg other).mpr (unitTyped.routines r mem).safe
  refine (h.step unitTyped (fun f below frames => ?_) next).1
  obtain ⟨pc, -, ⟨high, locals, frames'⟩ | ⟨-, g, above, locals, frames'⟩⟩ := inside
  · obtain ⟨rfl, rfl⟩ := List.cons.inj (frames.symm.trans frames')
    refine ⟨begun (Nat.succ_ne_self _), fun shape on => ?_⟩
    rcases (if_pos rfl).mp on with reached | leads
    · exact absurd (ends pc shape reached) (Nat.ne_of_lt high)
    · exact leads.allows.of_upTo.mono fun pc shape gets => (if_pos rfl).mpr gets
  · have deeper : q.frames.length < below.length := by
      obtain ⟨-, rfl⟩ := List.cons.inj (frames.symm.trans frames')
      simp
      omega
    refine ⟨begun (by omega), fun shape on => ?_⟩
    have safe := (if_neg (Nat.ne_of_gt deeper)).mp on
    exact safe.allows.mono fun pc shape safe => (if_neg (Nat.ne_of_gt deeper)).mpr safe

/-- So does a run through such code. -/
theorem Travels.toward (unitTyped : u.Typed) (travels : q.Travels host lo hi c c')
    (ends : ∀ pc shape, goal pc shape → pc = hi)
    (h : c.1.OnCourse u (q.toward u hi goal) types) :
    ∃ types', c'.1.OnCourse u (q.toward u hi goal) types' := by
  obtain ⟨n, run, inside⟩ := travels
  induction n generalizing c' with
  | zero =>
    obtain rfl : c = c' := by simpa [Machine.after] using run
    exact ⟨types, h⟩
  | succ n ih =>
    obtain ⟨d, earlier, next⟩ := Machine.after_last.mp run
    obtain ⟨types', onCourse⟩ := ih earlier fun k low => inside k (Nat.lt_succ_of_lt low)
    exact (inside n (Nat.lt_succ_self n) d earlier).toward unitTyped ends onCourse next

end Spot

/-- Code that leaves operands has left them when an activation gets to its end. -/
theorem Op.Shapes.crosses {σ : Type} {host : Machine.Host σ} {u : ObjectUnit} {types : List Slot}
    {q : Spot} {a : Analysis} {places : Places} {ops : List Op} {pos : Nat} {stack : List Value}
    {mem : Memory} {h : σ} (leaves : Shape)
    (shapes : ∀ rest, Op.Shapes a places u (q.routine.upTo (pos + sizeAll ops)) ops rest
      (leaves ++ rest)) (unitTyped : u.Typed) (same : q.unit = u)
    (conforms : (q.machine pos stack mem).Conforms u types)
    (code : Op.CodeAt a places q.routine.code pos ops) (onward : Op.Onward ops) :
    q.Remains host pos (pos + sizeAll ops) (q.machine pos stack mem, h) ∨
      ∃ own stack' mem' h' types', leaves.Fits types' own ∧
        q.Crosses host pos (pos + sizeAll ops) (q.machine pos stack mem, h)
          (q.machine (pos + sizeAll ops) (own ++ stack') mem', h') := by
  have confines := code.confines onward.contained
  rcases Spot.passes (c := (q.machine pos stack mem, h)) unitTyped conforms same confines
    (Nat.le_add_right ..) (Spot.at_machine ..) with
    remains | ⟨⟨m, h'⟩, travels, arrived⟩ | ⟨-, pc, i, low, high, found, returns⟩
  · exact Or.inl remains
  · obtain ⟨shape, start⟩ := Spot.toward_of_conforms conforms fun shape =>
      shapes shape pos (code.upTo (Nat.le_refl _))
    obtain ⟨types', onCourse⟩ := travels.toward unitTyped (fun pc shape => And.left) start
    obtain ⟨stack', mem', rfl⟩ := arrived.eq_machine (onCourse.unit.trans same.symm)
    obtain ⟨shape', own, rest, rfl, fits, on⟩ := onCourse.operands
    obtain ⟨-, rfl⟩ := ((if_pos rfl).mp on).goal_of_upTo
    obtain ⟨own, others, fitsOwn, -, rfl⟩ := fits.split
    rw [List.append_assoc] at travels arrived
    exact Or.inr ⟨own, others ++ rest, mem', h', types', fitsOwn, travels, arrived⟩
  · rw [code.stays_of_onward onward low high found] at returns
    cases returns

/-- Where the machine is, logical instructions and tests answer as logic has it. A test of one value
that is not the order of two floats negates a truth value. -/
structure Spot.Logical {σ : Type} (host : Machine.Host σ) (s : σ) (q : Spot) (pc : Nat)
    (stack : List Value) (mem : Memory) : Prop where
  and : q.routine.code[pc]? = some .iand → ∃ x y rest, stack = .ofBool y :: .ofBool x :: rest ∧
    Machine.advance host (q.machine pc stack mem, s) =
      .inl (q.machine (pc + 1) (.ofBool (x && y) :: rest) mem, s)
  or : q.routine.code[pc]? = some .ior → ∃ x y rest, stack = .ofBool y :: .ofBool x :: rest ∧
    Machine.advance host (q.machine pc stack mem, s) =
      .inl (q.machine (pc + 1) (.ofBool (x || y) :: rest) mem, s)
  not : q.routine.TestsAt (.branch .ne) pc → ¬ q.routine.Compared pc →
    ∃ x rest, stack = .ofBool x :: rest ∧
      Machine.Reaches host (q.machine pc stack mem, s)
        (q.machine (pc + 4) (.ofBool (!x) :: rest) mem, s)
  compare : ∀ cond target, q.routine.code[pc]? = some (.branchCompare cond target) →
    ∃ v w rest, stack = .int w :: .int v :: rest
  equal : q.routine.TestsAt (.branchCompare .ne) pc →
    ∀ x y rest, stack = .ofBool y :: .ofBool x :: rest →
      Machine.Reaches host (q.machine pc stack mem, s)
        (q.machine (pc + 4) (.ofBool (x == y) :: rest) mem, s)
  unequal : q.routine.TestsAt (.branchCompare .eq) pc →
    ∀ x y rest, stack = .ofBool y :: .ofBool x :: rest →
      Machine.Reaches host (q.machine pc stack mem, s)
        (q.machine (pc + 4) (.ofBool (x != y) :: rest) mem, s)

namespace Machine.Conforms
variable {σ : Type} {host : Host σ} {s : σ} {u : ObjectUnit} {types : List Slot}

/-- What takes two truth values finds them. -/
theorem two_truths {q : Spot} {pc : Nat} {stack : List Value} {mem : Memory}
    (h : (q.machine pc stack mem).Conforms u types) {i : Instr} {leaves : Shape}
    (found : q.routine.code[pc]? = some i)
    (known : i.signature? = some ([.of .boolean, .of .boolean], leaves)) :
    ∃ x y rest, stack = .ofBool y :: .ofBool x :: rest := by
  obtain ⟨shape, own, rest, rfl, fits, safe⟩ := h.operands
  obtain ⟨more, rfl⟩ := safe.allows.of_signature found known
  obtain _ | ⟨right, _ | ⟨left, others⟩⟩ := fits
  obtain ⟨y, rfl⟩ := Slot.single_boolean.mp right
  obtain ⟨x, rfl⟩ := Slot.single_boolean.mp left
  exact ⟨x, y, _, rfl⟩

theorem logical {q : Spot} {pc : Nat} {stack : List Value} {mem : Memory}
    (h : (q.machine pc stack mem).Conforms u types) : q.Logical host s pc stack mem where
  and found := by
    obtain ⟨x, y, rest, rfl⟩ := h.two_truths found rfl
    exact ⟨x, y, rest, rfl, Spot.advance_instr found (by nofun) (Spot.instr_iand x y)⟩
  or found := by
    obtain ⟨x, y, rest, rfl⟩ := h.two_truths found rfl
    exact ⟨x, y, rest, rfl, Spot.advance_instr found (by nofun) (Spot.instr_ior x y)⟩
  not test alone := by
    obtain ⟨shape, own, rest, rfl, fits, safe⟩ := h.operands
    obtain ⟨more, rfl⟩ := safe.allows.of_branch test.jump alone
    obtain _ | ⟨holds, others⟩ := fits
    obtain ⟨x, rfl⟩ := Slot.single_boolean.mp holds
    refine ⟨x, _, rfl, ?_⟩
    cases x <;> exact reaches_truth_zero test
  compare cond target found := by
    obtain ⟨shape, own, rest, rfl, fits, safe⟩ := h.operands
    obtain ⟨slot, more, single, rfl⟩ := safe.allows.of_branchCompare found
    obtain ⟨v, w, others, rfl, -⟩ := fits.two_ints single
    exact ⟨v, w, _, rfl⟩
  equal test x y rest top := by
    subst top
    cases x <;> cases y <;> exact reaches_truth_compare test
  unequal test x y rest top := by
    subst top
    cases x <;> cases y <;> exact reaches_truth_compare test

end Machine.Conforms

/-- The routine that is carried out for a method, or for the program itself. -/
def ObjectUnit.routineOf? (u : ObjectUnit) (places : Places) : Option SymbolId → Option Routine
  | none => some u.entry
  | some id =>
    match places[id]? with
    | some (.routine name) => u.routines.findRev? (·.name == name)
    | _ => none

theorem Program.Compiled.scene {p : Program} {a : Analysis} {places : Places} {u : ObjectUnit}
    (compiled : p.Compiled a places u) (formed : p.WellFormed) (analyzed : p.analyze = .ok a)
    {here : Option SymbolId} {r : Routine} (carried : u.routineOf? places here = some r) :
    Scene p a places u here r := by
  cases here with
  | none =>
    obtain rfl : u.entry = r := Option.some.inj carried
    exact compiled.entry_scene formed analyzed
  | some id =>
    rw [ObjectUnit.routineOf?] at carried
    split at carried
    case h_1 _ name found =>
      obtain ⟨s, known, isMethod, -⟩ := compiled.named id name found
      obtain ⟨m, mem, ⟨_, _, named, -⟩, -⟩ :=
        (Program.analyze_linked formed analyzed).method known isMethod
      obtain ⟨callee, laid, search⟩ := compiled.routines m mem
      have same : (a.compiled m).1 = id := by simp [Analysis.compiled, named.1]
      obtain rfl : callee.name = name := by simpa [same, found, eq_comm] using laid.name
      obtain rfl := Option.some.inj (search.symm.trans carried)
      exact same ▸ compiled.routine_scene formed analyzed laid
    case h_2 => cases carried

/-- Where the code of a comparison of truth values begins, its operands come first, and they may
never be done with. They leave truth values, and the test says whether these are equal. -/
def Spot.Equates {σ : Type} (host : Machine.Host σ) (s : σ) (p : Program) (a : Analysis)
    (places : Places) (q : Spot) (pos : Nat) (stack : List Value) (mem : Memory) : Prop :=
  ∀ here k op lhs rhs, q.unit.routineOf? places here = some q.routine →
    .binary k op lhs rhs ∈ p.exprs → (Expr.binary k op lhs rhs).Bound a here →
    op.isEquality = true → a.typeOf lhs.id = .boolean →
    Op.CodeAt a places q.routine.code pos (a.lowerExpr .boolean (.binary k op lhs rhs)) →
    let test := pos + Op.sizeAll (a.lowerExpr .boolean lhs ++ a.lowerExpr .boolean rhs)
    let stop := pos + Op.sizeAll (a.lowerExpr .boolean (.binary k op lhs rhs))
    q.Remains host pos test (q.machine pos stack mem, s) ∨ ∃ x y rest mem' s',
      let tested := (q.machine test (.ofBool y :: .ofBool x :: rest) mem', s')
      q.Crosses host pos test (q.machine pos stack mem, s) tested ∧
        Machine.Reaches host tested
          (q.machine stop (.ofBool (if op = .eq then x == y else x != y) :: rest) mem', s')

/-- A comparison of truth values is one of integers. -/
theorem Analysis.lowerExpr_equality {a : Analysis} {k : Node} {op : BinOp} {lhs rhs : Expr}
    (typed : (Expr.binary k op lhs rhs).Typed a) (equality : op.isEquality = true)
    (isBoolean : a.typeOf lhs.id = .boolean) :
    a.typeOf rhs.id = .boolean ∧ a.lowerExpr .boolean (.binary k op lhs rhs) =
      a.lowerExpr .boolean lhs ++ a.lowerExpr .boolean rhs ++
        truth (.onCompare (condition op).negate) := by
  obtain ⟨typedL, typedR, types⟩ := typed
  have both : a.typeOf lhs.id = a.typeOf rhs.id ∧ a.typeOf k.id = .boolean := by
    cases op <;> first | exact types | cases equality
  have isBoolean' : a.typeOf rhs.id = .boolean := both.1 ▸ isBoolean
  refine ⟨isBoolean', ?_⟩
  cases op <;> cases equality
  all_goals simp [lowerExpr, isBoolean, isBoolean', both.2, cast,
    lowerExpr_int_of_boolean lhs typedL isBoolean, lowerExpr_int_of_boolean rhs typedR isBoolean']

theorem Machine.Conforms.equates {σ : Type} {host : Machine.Host σ} {s : σ} {p : Program}
    {a : Analysis} {places : Places} {u : ObjectUnit} {types : List Slot} {q : Spot} {pos : Nat}
    {stack : List Value} {mem : Memory} (compiled : p.Compiled a places u) (formed : p.WellFormed)
    (analyzed : p.analyze = .ok a) (h : (q.machine pos stack mem).Conforms u types) :
    q.Equates host s p a places pos stack mem := by
  intro here k op lhs rhs carried inside bound equality isBoolean code
  have same : q.unit = u := h.unit
  have scene := compiled.scene formed analyzed (same ▸ carried)
  have typed := (Program.analyze_body_typed formed analyzed).exprs _ inside
  obtain ⟨isBoolean', lowered⟩ := Analysis.lowerExpr_equality typed equality isBoolean
  rw [lowered] at code ⊢
  obtain ⟨operands, test⟩ := Op.codeAt_append.mp code
  have scene' := scene.upTo (pos + Op.sizeAll (a.lowerExpr .boolean lhs ++ a.lowerExpr .boolean rhs))
  have left := Expr.leaves scene' lhs bound.1 typed.1 .boolean
  have right := Expr.leaves scene' rhs bound.2 typed.2.1 .boolean
  have shapes (rest : Shape) := (left rest (Ty.compatible_of_eq isBoolean rfl) rfl).append
    (right _ (Ty.compatible_of_eq isBoolean' rfl) rfl)
  have unitTyped := compiled.typed formed analyzed
  have onward := (a.lowerExpr_onward lhs .boolean).append (a.lowerExpr_onward rhs .boolean)
  rcases Op.Shapes.crosses (h := s) [.of .boolean, .of .boolean] shapes unitTyped same h operands
    onward with remains | ⟨own, rest, mem', s', types', fits, crosses⟩
  · exact Or.inl remains
  · obtain _ | ⟨holds', _ | ⟨holds, ⟨⟩⟩⟩ := fits
    obtain ⟨y, rfl⟩ := Slot.single_boolean.mp holds'
    obtain ⟨x, rfl⟩ := Slot.single_boolean.mp holds
    refine Or.inr ⟨x, y, rest, mem', s', crosses, ?_⟩
    rw [Op.sizeAll_append (_ ++ _), ← Nat.add_assoc]
    cases op <;> cases equality
    all_goals cases x <;> cases y <;> exact reaches_truth_compare test.tests

namespace Program

/-- A run of a compiled program keeps what it stores typed, whatever it reads. In every state that it
comes to, each field and each slot of each activation holds a value of its type, where the only
truth values are zero and one; and so logical instructions and tests answer as logic has it, and
comparisons of truth values say whether they are equal. -/
theorem run_typed {package source : String} {u : ObjectUnit} (h : compile package source = .ok u)
    {σ : Type} (host : Machine.Host σ) (s : σ) :
    ∃ p a places start, parse source = .ok p ∧ p.analyze = .ok a ∧
      a.generate package p = .ok (u, places) ∧ Machine.start u = .ok start ∧
      ∀ n m t, Machine.after host n (start, s) = some (m, t) →
        m.Typed u ∧ ∀ q pc stack mem, m = Spot.machine q pc stack mem →
          q.Logical host t pc stack mem ∧ q.Equates host t p a places pc stack mem := by
  obtain ⟨p, a, places, parsed, analyzed, generated⟩ := generate_of_compile h
  have formed := parse_wellFormed parsed
  have compiled := generate_compiled formed analyzed generated
  have unitTyped := compiled.typed formed analyzed
  refine ⟨p, a, places, _, parsed, analyzed, generated, compiled.start, fun n m t run => ?_⟩
  obtain ⟨types, conforms⟩ := (compiled.start_conforms unitTyped).after unitTyped run
  refine ⟨conforms.typed, ?_⟩
  rintro q pc stack mem rfl
  exact ⟨conforms.logical, conforms.equates compiled formed analyzed⟩

/-- A program with truth values in a variable, an array and a function. -/
def flags : String :=
  "program p boolean b; boolean[2] f; fun other(boolean x) : boolean \x7b return ~x \x7d " ++
  "input b; f[0] <- b & other(b); f[1] <- b = f[0] | ~b; print f[1]"

theorem flags_compiles : ∃ u, compile "demo" flags = .ok u :=
  except_of_isOk (by decide +kernel)

theorem run_typed_flags :
    ∃ u p a places start, compile "demo" flags = .ok u ∧ parse flags = .ok p ∧ p.analyze = .ok a ∧
      a.generate "demo" p = .ok (u, places) ∧ Machine.start u = .ok start ∧
      ∀ n m t, Machine.after Console.answer n (start, ⟨[49, 10], ""⟩) = some (m, t) →
        m.Typed u ∧ ∀ q pc stack mem, m = Spot.machine q pc stack mem →
          q.Logical Console.answer t pc stack mem ∧
            q.Equates Console.answer t p a places pc stack mem := by
  obtain ⟨u, compiled⟩ := flags_compiles
  obtain ⟨p, a, places, start, run⟩ := run_typed compiled Console.answer ⟨[49, 10], ""⟩
  exact ⟨u, p, a, places, start, compiled, run⟩

end Program

end Guarded
