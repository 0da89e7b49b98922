import Guarded.Proofs.Simulation

/-!
The machine follows statements. After a statement it is past the code of it with the stack it had
before, or it is at a return instruction with the value to be returned, if there is one, on top.

A loop that is out of fuel has jumped back once for each round, so the machine has taken at least as
many steps.
-/

namespace Guarded

/-- How the machine stands after a statement of the method `here`: past the code of it, or at a
return that fits the method. -/
def Flows {a : Analysis} {σ : Type} (places : Places) (here : Option SymbolId) (q : Spot)
    (s : State a σ) (pos : Nat) (stack : List Value) {t : Ty} (flow : Flow t) (s' : State a σ)
    (m : Machine) : Prop :=
  match flow with
  | .normal => Arrives places here q s pos stack s' m
  | .returned none =>
    ∃ method pc, here = some method ∧ (a.symbolKind method).isFunction = false ∧
      q.routine.code[pc]? = some .ret ∧ Arrives places here q s pc stack s' m
  | .returned (some v) =>
    ∃ method pc i, here = some method ∧ (a.symbolKind method).isFunction = true ∧
      q.routine.code[pc]? = some i ∧ (i = .ireturn ∨ i = .freturn) ∧
      Arrives places here q s pc (t.encode v :: stack) s' m

theorem Arrives.of_later {a : Analysis} {σ : Type} {places : Places} {here : Option SymbolId}
    {q : Spot} {s s' s'' : State a σ} {pos : Nat} {stack : List Value} {m : Machine}
    (later : Extends s.heap s'.heap) (h : Arrives places here q s' pos stack s'' m) :
    Arrives places here q s pos stack s'' m := by
  obtain ⟨mem, rfl, shows, later'⟩ := h
  exact ⟨mem, rfl, shows, later.trans later'⟩

namespace Flows
variable {a : Analysis} {σ : Type} {places : Places} {here : Option SymbolId} {q : Spot}
variable {s s' s'' : State a σ} {pos pos' : Nat} {stack : List Value} {t : Ty} {m : Machine}

theorem of_later {flow : Flow t} (later : Extends s.heap s'.heap)
    (h : Flows places here q s' pos stack flow s'' m) :
    Flows places here q s pos stack flow s'' m := by
  match flow, h with
  | .normal, h => exact Arrives.of_later later h
  | .returned none, ⟨method, pc, inside, kind, found, arrives⟩ =>
    exact ⟨method, pc, inside, kind, found, arrives.of_later later⟩
  | .returned (some _), ⟨method, pc, i, inside, kind, found, isReturn, arrives⟩ =>
    exact ⟨method, pc, i, inside, kind, found, isReturn, arrives.of_later later⟩

/-- After a return it does not matter where the code of the statement ends. -/
theorem returned {v : Option t.Den} (h : Flows places here q s pos stack (.returned v) s' m) :
    Flows places here q s pos' stack (.returned v) s' m := by
  cases v <;> exact h

end Flows

namespace Follows
variable {a : Analysis} {σ α β : Type} {host : Machine.Host σ} {n k : Nat} {m m' : Machine}
variable {s : State a σ} {x : Eval a σ α} {places : Places} {here : Option SymbolId} {q : Spot}
variable {pos pos' : Nat} {stack stack' : List Value} {t : Ty}

/-- Something that only changes the state, and then a statement. -/
theorem flow {x : Eval a σ Unit} {f : Eval a σ (Flow t)}
    (first : Follows host n m s x fun _ => Arrives places here q s pos stack)
    (second : ∀ s' mem, Shows a places here s' mem → Extends s.heap s'.heap →
      Follows host n (q.machine pos stack mem) s' f (Flows places here q s' pos' stack')) :
    Follows host n m s (do x; f) (Flows places here q s pos' stack') := by
  refine first.bind ?_
  rintro ⟨⟩ s' - ⟨mem, rfl, shows, later⟩
  exact (second s' mem shows later).imp fun _ _ _ h => h.of_later later

theorem normal {x : Eval a σ Unit}
    (h : Follows host n m s x fun _ => Arrives places here q s pos stack) :
    Follows host n m s (do x; return .normal) (Flows (t := t) places here q s pos stack) :=
  h.flow fun _ mem shows _ => .pure ⟨mem, rfl, shows, .refl _⟩

/-- A step of the machine is one step of those it must take. -/
theorem step {post : α → State a σ → Machine → Prop} (h : Follows host k m' s x post)
    (next : Machine.advance host (m, s.host) = .inl (m', s.host)) (noCall : ∀ r, ¬ m.Calls r)
    (level : m'.depth = m.depth) :
    Follows host (k + 1) m s x post := by
  have reaches := Machine.Reaches.of_step next noCall level
  exact h.transport (fun _ _ m₁ reaches' holds => ⟨m₁, reaches.trans reaches', holds⟩)
    (fun lasts => lasts.of_step next noCall level) fun _ => reaches.ends

end Follows

/-- The surroundings are not part of the memory. -/
theorem Shows.withHost {σ : Type} {a : Analysis} {places : Places} {here : Option SymbolId}
    {s : State a σ} {mem : Memory} (shows : Shows a places here s mem) (h : σ) :
    Shows a places here { s with host := h } mem :=
  ⟨shows.globals, shows.locals, shows.heap, shows.globalArrays, shows.localArrays⟩

section
variable {σ : Type} {host : Machine.Host σ} {n : Nat} {p : Program} {a : Analysis}
variable {places : Places} {u : ObjectUnit} {here : Option SymbolId} {q : Spot} {depth : Nat}
variable {call : (id : SymbolId) → Store a → Eval a σ (Flow (a.symbolType id))}
variable {s : State a σ} {mem : Memory} {pos : Nat} {stack : List Value}

/-- What is known of an array that is declared. -/
theorem Setting.declares (setting : Setting p a places u here q depth) {name : Ident} {ty : Ty}
    (declared : a.Declares here name .array ty) :
    a.bindings[name.id]? = some (a.symbolOf name) ∧ a.symbolKind (a.symbolOf name) = .array ∧
      a.Storable (a.symbolOf name) ∧
      (a.ownerOf (a.symbolOf name) = none ∨ a.ownerOf (a.symbolOf name) = here) ∧
      a.symbolType (a.symbolOf name) = ty ∧ ty.isTerminal = true := by
  obtain ⟨id, sym, named, kind, owner, rfl⟩ := declared
  obtain ⟨found, isArray, storable, owner'⟩ :=
    setting.uses rfl ⟨id, sym, named, kind, Or.inr owner⟩
  refine ⟨found, isArray, storable, owner', ?_, ?_⟩
  · rw [Analysis.symbolOf_eq named.1, named.symbolType]
  · exact setting.ready.typed id sym named.2 (by simp [kind])

/-- A variable is set to the value on top. -/
theorem Shows.writeVar (shows : Shows a places here s mem)
    (setting : Setting p a places u here q depth) {x : SymbolId}
    (isVariable : a.symbolKind x = .variable) (storable : a.Storable x)
    (inScope : a.ownerOf x = none ∨ a.ownerOf x = here)
    (code : Op.CodeAt a places q.routine.code pos [.store x]) (v : (a.symbolType x).Den) :
    Follows host n (q.machine pos ((a.symbolType x).encode v :: stack) mem) s (Eval.writeVar x v)
      fun _ => Arrives places here q s (pos + 1) stack := by
  obtain ⟨syms, slots⟩ := setting.slots
  have kept : ∀ (y : SymbolId), y ≠ x →
      ((s.store x).setVar x v).datum y = (s.store x).datum y := by
    intro y different
    simp [Store.datum, Store.setVar, different]
  have sound : ((s.store x).setVar x v).Sound s.heap := shows.sound x
  have top : ((s.store x).setVar x v).datum x = (a.symbolType x).encode v := by
    simp [Store.datum, isVariable, Store.setVar]
  obtain ⟨mem', reaches, shows'⟩ : ∃ mem', Machine.Reaches host
      (q.machine pos (_ :: stack) mem, s.host) (q.machine (pos + 1) stack mem', s.host) ∧ _ :=
    shows.store setting.compiled slots storable inScope code kept sound
  rw [top] at reaches
  refine .after reaches (.changed (State.setStore_host ..) ⟨mem', rfl, shows', ?_⟩)
  rw [State.setStore_heap]
  exact .refl _

/-- Arrays are made in order. -/
theorem Expr.newArrays_follows (setting : Setting p a places u here q depth) {size : Expr} {ty : Ty}
    (followed : Expr.Followed host n places here q call size) (isInt : a.typeOf size.id = .int) :
    (names : List Ident) → (∀ name ∈ names, a.Declares here name .array ty) →
    ∀ pos s mem, Op.CodeAt a places q.routine.code pos (a.lowerArrays ty size names) →
      Shows a places here s mem →
      Follows host n (q.machine pos stack mem) s (size.newArrays call names)
        fun _ => Arrives places here q s (pos + Op.sizeAll (a.lowerArrays ty size names)) stack
  | [], _, _, _, mem, _, shows => .pure ⟨mem, rfl, shows, .refl _⟩
  | name :: names, declared, pos, s, mem, code, shows => by
    obtain ⟨first, rest⟩ := List.forall_mem_cons.mp declared
    obtain ⟨found, isArray, storable, inScope, same, terminal⟩ := setting.declares first
    obtain ⟨syms, slots⟩ := setting.slots
    have next := newArrays_follows setting followed isInt names rest
    simp only [Analysis.lowerArrays, List.flatMap_cons, Analysis.withSymbol_of found,
      Op.codeAt_append, Op.sizeAll_append, ← Nat.add_assoc] at code next ⊢
    refine .seq (followed .int pos s mem stack (Ty.compatible_of_eq isInt rfl) rfl code.1.1 shows)
      fun count s' mem' shows' _ => ?_
    refine .seq (shows'.newArray setting.compiled slots storable isArray inScope ?_ code.1.2 count)
      fun _ s'' mem'' shows'' _ => next _ s'' mem'' code.2 shows''
    rw [same]
    cases ty <;> first | rfl | cases terminal

/-- A value is read: its name goes on the stack, and the answer takes its place. -/
theorem Eval.input_follows {ty : Ty} {service : Service}
    (fits : service = match ty with
      | .float => .inputFloat
      | .boolean => .inputBoolean
      | _ => .inputInt)
    (terminal : ty.isTerminal = true) {name : String}
    (code : Op.CodeAt a places q.routine.code pos
      [.instr (.sconst name), .instr (.service service)])
    (shows : Shows a places here s mem) :
    Follows host n (q.machine pos stack mem) s (Eval.input host name ty) fun v =>
      Arrives places here q s (pos + 2) (ty.encode v :: stack) := by
  obtain ⟨i, found, rfl⟩ := code.1 rfl
  obtain ⟨i, asks, rfl⟩ := code.2.1 rfl
  refine .after (Spot.reaches_instr found rfl rfl rfl) ?_
  cases ty <;> simp [Ty.isTerminal] at terminal
  all_goals
    subst fits
    refine (Follows.ask asks rfl fun _ => rfl).imp ?_
    rintro v s' m' ⟨rfl, h, rfl⟩
    exact ⟨mem, rfl, shows.withHost h, .refl _⟩

/-- Values are read in order. -/
theorem Ident.inputs_follows (setting : Setting p a places u here q depth) :
    (names : List Ident) → (∀ name ∈ names, a.Uses here name (· = .variable)) →
    (∀ name ∈ names, ∃ id, a.bindings[name.id]? = some id ∧ (a.symbolType id).isTerminal = true) →
    ∀ pos s mem, Op.CodeAt a places q.routine.code pos (a.lowerInput names) →
      Shows a places here s mem →
      Follows host n (q.machine pos stack mem) s (Ident.inputs host names)
        fun _ => Arrives places here q s (pos + Op.sizeAll (a.lowerInput names)) stack
  | [], _, _, _, _, mem, _, shows => .pure ⟨mem, rfl, shows, .refl _⟩
  | name :: names, uses, typed, pos, s, mem, code, shows => by
    obtain ⟨use, uses⟩ := List.forall_mem_cons.mp uses
    obtain ⟨⟨id, found', terminal⟩, typed⟩ := List.forall_mem_cons.mp typed
    obtain ⟨found, isVariable, storable, inScope⟩ := setting.uses rfl use
    obtain rfl := Option.some.inj (found.symm.trans found')
    have next := inputs_follows setting names uses typed
    simp only [Analysis.lowerInput, List.flatMap_cons, Analysis.withSymbol_of found,
      Op.codeAt_append, Op.sizeAll_append, ← Nat.add_assoc] at code next ⊢
    obtain ⟨⟨first, second, third⟩, code⟩ := code
    refine .seq (Eval.input_follows rfl terminal ⟨first, second, trivial⟩ shows)
      fun v s' mem' shows' _ => ?_
    refine .seq (shows'.writeVar setting isVariable storable inScope third v)
      fun _ s'' mem'' shows'' _ => next _ s'' mem'' code shows''

/-- The value on top is printed. -/
theorem Eval.print_follows {ty : Ty} {service : Service}
    (fits : service = match ty with
      | .float => .printFloat
      | .boolean => .printBoolean
      | _ => .printInt)
    (terminal : ty.isTerminal = true) {v : ty.Den}
    (found : q.routine.code[pos]? = some (.service service)) (shows : Shows a places here s mem) :
    Follows host n (q.machine pos (ty.encode v :: stack) mem) s (Eval.print host ty v) fun _ =>
      Arrives places here q s (pos + 1) stack := by
  have printed {r : Request} (asks : Exec.request service
      (q.machine (pos + 1) (ty.encode v :: stack) mem) = .ok (r, q.machine (pos + 1) stack mem))
      (same : ∀ reply, (q.machine (pos + 1) stack mem).resume r reply =
        q.machine (pos + 1) stack mem) :
      Follows host n (q.machine pos (ty.encode v :: stack) mem) s (Eval.ask host r) fun _ =>
        Arrives places here q s (pos + 1) stack := by
    refine (Follows.ask found asks fun reply => by rw [same]; rfl).imp ?_
    rintro reply s' m' ⟨rfl, h, rfl⟩
    exact ⟨mem, same reply, shows.withHost h, .refl _⟩
  cases ty <;> simp [Ty.isTerminal] at terminal
  · exact printed (by subst fits; rfl) fun _ => rfl
  · exact printed (by subst fits; rfl) fun _ => rfl
  · refine printed ?_ fun _ => rfl
    subst fits
    cases v <;> rfl

/-- What the machine keeps on the stack for a store that is still to be made. -/
def Pending.operands : Pending a → List Value
  | .var x v => [(a.symbolType x).encode v]
  | .element x handle i v => [(a.symbolType x).encode v, .int i, encodeHandle handle]

/-- A store goes to a target. If that is an element, its array is on the heap. -/
def Pending.GoesTo (heap : Array Block) : Pending a → Target → Prop
  | .var x _, .var name => x = a.symbolOf name
  | .element x handle _ _, .index array _ =>
    x = a.symbolOf array ∧ ∀ k, handle = some k → Points heap (a.symbolType x) k
  | _, _ => False

theorem Pending.GoesTo.mono {heap heap' : Array Block} (later : Extends heap heap') :
    {w : Pending a} → {target : Target} → w.GoesTo heap target → w.GoesTo heap' target
  | .var .., .var _, same => same
  | .element .., .index .., ⟨same, points⟩ => ⟨same, fun k known => later _ _ (points k known)⟩

/-- What a store needs is computed from left to right. -/
theorem Target.pending_follows (setting : Setting p a places u here q depth)
    (calls : CallsFollow host n a places u depth call) {target : Target} {value : Expr}
    (bound : target.Bound a here) (boundValue : value.Bound a here) (typed : target.Typed a value)
    (code : Op.CodeAt a places q.routine.code pos (a.lowerSource target value))
    (shows : Shows a places here s mem) :
    Follows host n (q.machine pos stack mem) s (target.pending call value) fun w s' m =>
      Arrives places here q s (pos + Op.sizeAll (a.lowerSource target value))
        (w.operands ++ stack) s' m ∧ w.GoesTo s'.heap target := by
  cases target with
  | var name =>
    obtain ⟨found, -, -, -⟩ := setting.uses rfl bound
    obtain ⟨typed, id, found', fits, terminal⟩ := typed
    obtain rfl := Option.some.inj (found.symm.trans found')
    simp only [Analysis.lowerSource, Analysis.withSymbol_of found] at code ⊢
    have computed := Expr.followed setting calls value boundValue typed
    refine (computed _ pos s mem stack fits terminal code shows).bind ?_
    rintro v s' m' arrives
    exact .pure ⟨arrives, rfl⟩
  | index array i =>
    obtain ⟨found, isArray, storable, inScope⟩ := setting.uses rfl bound.1
    obtain ⟨typedIndex, isInt, typed, id, found', fits, terminal⟩ := typed
    obtain rfl := Option.some.inj (found.symm.trans found')
    simp only [Analysis.lowerSource, Analysis.withSymbol_of found, Op.codeAt_append,
      Op.sizeAll_append, ← Nat.add_assoc] at code ⊢
    obtain ⟨⟨loads, indexes⟩, values⟩ := code
    have located := Expr.followed setting calls i bound.2 typedIndex
    have computed := Expr.followed setting calls value boundValue typed
    refine .after (shows.load setting.compiled storable inScope loads) (.bind_readArray ?_)
    rw [Store.datum_array _ isArray]
    refine (located .int _ s mem _ (Ty.compatible_of_eq isInt rfl) rfl indexes shows).bind ?_
    rintro j s₁ - ⟨mem₁, rfl, shows₁, later₁⟩
    refine (computed _ _ s₁ mem₁ _ fits terminal values shows₁).bind ?_
    rintro v s₂ - ⟨mem₂, rfl, shows₂, later₂⟩
    exact .pure ⟨⟨mem₂, rfl, shows₂, later₁.trans later₂⟩, rfl,
      fun k known => later₂ _ _ (later₁ _ _ (shows.sound _ _ _ known))⟩

theorem Target.pendingAll_follows (setting : Setting p a places u here q depth)
    (calls : CallsFollow host n a places u depth call) {targets : List Target} {values : List Expr}
    (typed : List.Forall₂ (Target.Typed a) targets values) :
    (∀ t ∈ targets, t.Bound a here) → Expr.BoundAll a here values →
    ∀ pos s mem stack, Op.CodeAt a places q.routine.code pos
        ((targets.zip values).flatMap fun (t, v) => a.lowerSource t v) →
      Shows a places here s mem →
      Follows host n (q.machine pos stack mem) s (Target.pendingAll call targets values)
        fun ws s' m =>
          Arrives places here q s (pos + Op.sizeAll ((targets.zip values).flatMap fun (t, v) =>
            a.lowerSource t v)) (ws.reverse.flatMap Pending.operands ++ stack) s' m ∧
          List.Forall₂ (Pending.GoesTo s'.heap) ws targets := by
  induction typed with
  | nil => exact fun _ _ _ _ mem _ _ shows => .pure ⟨⟨mem, rfl, shows, .refl _⟩, .nil⟩
  | @cons target value targets values first rest ih =>
    intro bound boundValues pos s mem stack code shows
    obtain ⟨boundTarget, bound⟩ := List.forall_mem_cons.mp bound
    simp only [List.zip_cons_cons, List.flatMap_cons, Op.codeAt_append, Op.sizeAll_append,
      ← Nat.add_assoc] at code ⊢
    refine (Target.pending_follows setting calls boundTarget boundValues.1 first code.1
      shows).bind ?_
    rintro w s₁ - ⟨⟨mem₁, rfl, shows₁, later₁⟩, goes⟩
    refine (ih bound boundValues.2 _ s₁ mem₁ _ code.2 shows₁).bind ?_
    rintro ws s₂ - ⟨⟨mem₂, rfl, shows₂, later₂⟩, goesAll⟩
    refine .pure ⟨⟨mem₂, ?_, shows₂, later₁.trans later₂⟩, .cons (goes.mono later₂) goesAll⟩
    simp

/-- A store is made. -/
theorem Eval.perform_follows (setting : Setting p a places u here q depth) {w : Pending a}
    {target : Target} (bound : target.Bound a here) (goes : w.GoesTo s.heap target)
    (code : Op.CodeAt a places q.routine.code pos (a.lowerStore target))
    (shows : Shows a places here s mem) :
    Follows host n (q.machine pos (w.operands ++ stack) mem) s (Eval.perform w) fun _ =>
      Arrives places here q s (pos + Op.sizeAll (a.lowerStore target)) stack := by
  match w, target, goes with
  | .var x v, .var name, same =>
    obtain rfl : x = a.symbolOf name := same
    obtain ⟨found, isVariable, storable, inScope⟩ := setting.uses rfl bound
    simp only [Analysis.lowerStore, Analysis.withSymbol_of found] at code ⊢
    exact shows.writeVar setting isVariable storable inScope code v
  | .element x handle i v, .index array _, ⟨same, points⟩ =>
    subst same
    obtain ⟨found, -, -, -⟩ := setting.uses rfl bound.1
    simp only [Analysis.lowerStore, Analysis.withSymbol_of found] at code ⊢
    obtain ⟨instr, there, rfl⟩ := code.1 rfl
    refine shows.writeElement points there ?_
    split
    · exact Or.inr rfl
    · exact Or.inl rfl

theorem Eval.performAll_follows (setting : Setting p a places u here q depth) :
    (ws : List (Pending a)) → (targets : List Target) → (∀ t ∈ targets, t.Bound a here) →
    ∀ pos s mem, List.Forall₂ (Pending.GoesTo s.heap) ws targets →
      Op.CodeAt a places q.routine.code pos (targets.flatMap a.lowerStore) →
      Shows a places here s mem →
      Follows host n (q.machine pos (ws.flatMap Pending.operands ++ stack) mem) s
        (Eval.performAll ws) fun _ =>
          Arrives places here q s (pos + Op.sizeAll (targets.flatMap a.lowerStore)) stack
  | _, _, _, _, _, mem, .nil, _, shows => .pure ⟨mem, rfl, shows, .refl _⟩
  | w :: ws, target :: targets, bound, pos, s, mem, .cons goes goesAll, code, shows => by
    obtain ⟨boundTarget, bound⟩ := List.forall_mem_cons.mp bound
    simp only [List.flatMap_cons, Op.codeAt_append, Op.sizeAll_append, ← Nat.add_assoc,
      List.append_assoc] at code ⊢
    refine .seq (Eval.perform_follows setting boundTarget goes code.1 shows)
      fun _ s' mem' shows' later => ?_
    exact performAll_follows setting ws targets bound _ s' mem'
      (goesAll.imp fun _ _ h => h.mono later) code.2 shows'

end

/-- The code of guards stands at a position. Each test jumps past its body if it is false, and a body
that is done goes to `target`. Past the last guard is `stop`. -/
def Guard.StandAt (a : Analysis) (places : Places) (here : Option SymbolId) (code : Array Instr)
    (target : Nat) : List Guard → Nat → Nat → Prop
  | [], pos, stop => pos = stop
  | .mk _ cond body :: gs, pos, stop =>
    let test := pos + Op.sizeAll (a.lowerExpr .boolean cond)
    let done := test + 1 + Op.sizeAll (a.lowerStmt here body)
    Op.CodeAt a places code pos (a.lowerExpr .boolean cond) ∧
      code[test]? = some (.branch .eq (done + 1)) ∧
      Op.CodeAt a places code (test + 1) (a.lowerStmt here body) ∧
      code[done]? = some (.goto target) ∧ StandAt a places here code target gs (done + 1) stop

section Guards
variable {a : Analysis} {places : Places} {here : Option SymbolId} {code : Array Instr}

/-- A jump stands at a position with its target. -/
theorem Op.CodeAt.jump {j : Jump} {d : Int} {pos target : Nat}
    (h : Op.CodeAt a places code pos [.jump j d]) (goes : (pos : Int) + d = target) :
    code[pos]? = some (j.instr target) := by
  obtain ⟨i, found, rfl⟩ := h.1 rfl
  rw [found, goes, Int.toNat_natCast]

/-- In a choice a body that is done goes to the end, and past the last guard is the abort. -/
theorem Analysis.lowerChoice_stands (line : Int32) : (gs : List Guard) → (pos : Nat) →
    Op.CodeAt a places code pos (a.lowerChoice here line gs) →
    ∃ stop, Guard.StandAt a places here code (pos + Op.sizeAll (a.lowerChoice here line gs)) gs pos
        stop ∧
      Op.CodeAt a places code stop
        [.instr (.iconst line), .instr (.service .abortNoAlternative)]
  | [], pos, h => by
    rw [lowerChoice] at h
    exact ⟨pos, rfl, h⟩
  | .mk _ cond body :: gs, pos, h => by
    simp only [lowerChoice, Op.codeAt_append, Op.sizeAll_append, Op.sizeAll_cons, Op.sizeAll_nil,
      Op.size, Nat.add_zero, ← Nat.add_assoc] at h ⊢
    obtain ⟨⟨⟨⟨test, branch⟩, inner⟩, leave⟩, rest⟩ := h
    obtain ⟨stop, stands, aborts⟩ := lowerChoice_stands line gs _ rest
    exact ⟨stop, ⟨test, branch.jump (by omega), inner, leave.jump (by omega),
      stands⟩, aborts⟩

/-- In a loop a body that is done goes back to the first guard, and past the last is the end. -/
theorem Analysis.lowerLoop_stands (start : Nat) : (gs : List Guard) → (before : Nat) →
    Op.CodeAt a places code (start + before) (a.lowerLoop here before gs) →
    Guard.StandAt a places here code start gs (start + before)
      (start + before + Op.sizeAll (a.lowerLoop here before gs))
  | [], _, _ => rfl
  | .mk _ cond body :: gs, before, h => by
    simp only [lowerLoop, Op.codeAt_append, Op.sizeAll_append, Op.sizeAll_cons, Op.sizeAll_nil,
      Op.size, Nat.add_zero, ← Nat.add_assoc] at h ⊢
    obtain ⟨⟨⟨⟨test, branch⟩, inner⟩, back⟩, rest⟩ := h
    refine ⟨test, branch.jump (by omega), inner, back.jump (by omega), ?_⟩
    have stands := lowerLoop_stands start gs
      (before + Op.sizeAll (a.lowerExpr .boolean cond) + 1 + Op.sizeAll (a.lowerStmt here body) + 1)
    simp only [← Nat.add_assoc] at stands
    exact stands rest

end Guards

/-- How the machine stands after guards have been tried: past the last if none is true, and where the
body of the chosen guard leaves it otherwise. -/
def Chosen {a : Analysis} {σ : Type} (places : Places) (here : Option SymbolId) (q : Spot)
    (s : State a σ) (target stop : Nat) (stack : List Value) {t : Ty} (choice : Option (Flow t))
    (s' : State a σ) (m : Machine) : Prop :=
  match choice with
  | none => Arrives places here q s stop stack s' m
  | some .normal =>
    ∃ pc, q.routine.code[pc]? = some (.goto target) ∧ Arrives places here q s pc stack s' m
  | some (.returned v) => Flows places here q s stop stack (.returned v) s' m

theorem Chosen.of_later {a : Analysis} {σ : Type} {places : Places} {here : Option SymbolId}
    {q : Spot} {s s' s'' : State a σ} {target stop : Nat} {stack : List Value} {t : Ty}
    {choice : Option (Flow t)} {m : Machine} (later : Extends s.heap s'.heap)
    (h : Chosen places here q s' target stop stack choice s'' m) :
    Chosen places here q s target stop stack choice s'' m := by
  match choice, h with
  | none, h => exact Arrives.of_later later h
  | some .normal, ⟨pc, found, arrives⟩ => exact ⟨pc, found, arrives.of_later later⟩
  | some (.returned _), h => exact Flows.of_later later h

section
variable {σ : Type} (host : Machine.Host σ) (n : Nat) {a : Analysis} (places : Places)
variable (here : Option SymbolId) (q : Spot)
variable (call : (id : SymbolId) → Store a → Eval a σ (Flow (a.symbolType id))) (t : Ty)

/-- The machine follows what a piece of code stands for. -/
def Carries (ops : List Op) (x : Eval a σ (Flow t)) : Prop :=
  ∀ (pos : Nat) (s : State a σ) (mem : Memory) (stack : List Value),
    Op.CodeAt a places q.routine.code pos ops → Shows a places here s mem →
    Follows host n (q.machine pos stack mem) s x
      (Flows places here q s (pos + Op.sizeAll ops) stack)

/-- The machine follows the choice of a guard and its body. -/
def Guard.Followed (gs : List Guard) : Prop :=
  ∀ (target pos stop : Nat) (s : State a σ) (mem : Memory) (stack : List Value),
    Guard.StandAt a places here q.routine.code target gs pos stop → Shows a places here s mem →
    Follows host n (q.machine pos stack mem) s (Guard.choose (t := t) host n call gs)
      (Chosen places here q s target stop stack)

end

section
variable {σ : Type} {host : Machine.Host σ} {n : Nat} {p : Program} {a : Analysis}
variable {places : Places} {u : ObjectUnit} {here : Option SymbolId} {q : Spot} {depth : Nat}
variable {call : (id : SymbolId) → Store a → Eval a σ (Flow (a.symbolType id))} {t : Ty}

/-- Code that stands for nothing. -/
theorem Carries.nothing {ops : List Op} (empty : Op.sizeAll ops = 0) :
    Carries (a := a) host n places here q t ops (pure .normal) := by
  intro pos s mem stack _ shows
  rw [empty]
  exact .pure ⟨mem, rfl, shows, .refl _⟩

/-- One statement after another. -/
theorem Carries.append {xs ys : List Op} {x y : Eval a σ (Flow t)}
    (first : Carries host n places here q t xs x) (second : Carries host n places here q t ys y) :
    Carries host n places here q t (xs ++ ys) (do
      match ← x with
      | .normal => y
      | .returned v => return .returned v) := by
  intro pos s mem stack code shows
  simp only [Op.codeAt_append, Op.sizeAll_append, ← Nat.add_assoc] at code ⊢
  refine (first pos s mem stack code.1 shows).bind ?_
  rintro (_ | v) s' m' flows
  · obtain ⟨mem', rfl, shows', later⟩ := flows
    exact (second _ s' mem' stack code.2 shows').imp fun _ _ _ h => h.of_later later
  · exact .pure flows.returned

theorem reaches_branch {b : Bool} {pc target : Nat} {stack : List Value} {mem : Memory} {h : σ}
    (found : q.routine.code[pc]? = some (.branch .eq target)) :
    Machine.Reaches host (q.machine pc (.ofBool b :: stack) mem, h)
      (q.machine (if b then pc + 1 else target) stack mem, h) := by
  cases b <;> exact Spot.reaches_instr found rfl rfl rfl

theorem Guard.Followed.nil : Guard.Followed host n places here q call t [] := by
  intro target pos stop s mem stack same shows
  obtain rfl : pos = stop := same
  rw [Guard.choose]
  exact .pure ⟨mem, rfl, shows, .refl _⟩

theorem Guard.Followed.cons {k : Node} {cond : Expr} {body : Stmt} {gs : List Guard}
    (test : Expr.Followed host n places here q call cond) (isBoolean : a.typeOf cond.id = .boolean)
    (inner : Carries host n places here q t (a.lowerStmt here body) (body.exec host n call))
    (rest : Guard.Followed host n places here q call t gs) :
    Guard.Followed host n places here q call t (.mk k cond body :: gs) := by
  intro target pos stop s mem stack ⟨tests, branches, code, leaves, stands⟩ shows
  rw [Guard.choose]
  refine (test .boolean pos s mem stack (Ty.compatible_of_eq isBoolean rfl) rfl tests shows).bind ?_
  rintro (isTrue : Bool) s' - ⟨mem', rfl, shows', later⟩
  refine .after (reaches_branch branches) ?_
  cases isTrue with
  | false =>
    exact (rest target _ stop s' mem' stack stands shows').imp fun _ _ _ h => h.of_later later
  | true =>
    refine (inner _ s' mem' stack code shows').bind ?_
    rintro (_ | v) s'' m'' flows
    · exact .pure ⟨_, leaves, Arrives.of_later later flows⟩
    · exact .pure (Flows.of_later later flows).returned

/-- A loop jumps back after each round but the last. -/
theorem Eval.rounds_follows {round : Eval a σ (Option (Flow t))} {pos stop : Nat}
    {stack : List Value}
    (each : ∀ s mem, Shows a places here s mem → Follows host n (q.machine pos stack mem) s round
      (Chosen places here q s pos stop stack)) (k : Nat) (le : k ≤ n) :
    ∀ s mem, Shows a places here s mem →
      Follows host k (q.machine pos stack mem) s (Eval.rounds round k)
        (Flows places here q s stop stack) := by
  induction k with
  | zero => exact fun s mem _ => Machine.Lasts.zero _
  | succ k ih =>
    intro s mem shows
    refine ((each s mem shows).mono le).bind ?_
    rintro (_ | _ | v) s' m' chosen
    · exact .pure chosen
    · obtain ⟨pc, found, mem', rfl, shows', later⟩ := chosen
      have again := (ih (by omega) s' mem' shows').imp fun _ _ _ h => h.of_later later
      exact again.step (Spot.advance_instr found (by nofun) rfl)
        (fun _ => Spot.not_calls found (by nofun)) rfl
    · exact .pure chosen

namespace Stmt

theorem arrayDecl_carries (setting : Setting p a places u here q depth)
    (calls : CallsFollow host n a places u depth call) {k : Node} {ty : Ty} {size : Expr}
    {names : List Ident} (bound : (Stmt.arrayDecl k ty size names).Bound a here)
    (typed : (Stmt.arrayDecl k ty size names).Typed a here) :
    Carries host n places here q t (a.lowerStmt here (.arrayDecl k ty size names))
      ((Stmt.arrayDecl k ty size names).exec host n call) := by
  intro pos s mem stack code shows
  rw [Analysis.lowerStmt] at code ⊢
  rw [exec]
  exact .normal (Expr.newArrays_follows setting
    (Expr.followed setting calls size bound.1 typed.1) typed.2 names bound.2 pos s mem code shows)

theorem assign_carries (setting : Setting p a places u here q depth)
    (calls : CallsFollow host n a places u depth call) {k : Node} {targets : List Target}
    {values : List Expr} (bound : (Stmt.assign k targets values).Bound a here)
    (typed : (Stmt.assign k targets values).Typed a here) :
    Carries host n places here q t (a.lowerStmt here (.assign k targets values))
      ((Stmt.assign k targets values).exec host n call) := by
  intro pos s mem stack code shows
  obtain ⟨-, boundTargets, boundValues⟩ := bound
  simp only [Analysis.lowerStmt, Analysis.lowerAssign, Op.codeAt_append, Op.sizeAll_append,
    ← Nat.add_assoc] at code ⊢
  rw [exec]
  refine (Target.pendingAll_follows setting calls typed boundTargets boundValues pos s mem stack
    code.1 shows).bind ?_
  rintro ws s' - ⟨⟨mem', rfl, shows', later⟩, goes⟩
  refine (Follows.normal (Eval.performAll_follows setting ws.reverse targets.reverse
    (fun w inside => boundTargets w (List.mem_reverse.mp inside)) _ s' mem'
    (List.forall₂_reverse_iff.mpr goes) code.2 shows')).imp fun _ _ _ h => h.of_later later

theorem input_carries (setting : Setting p a places u here q depth) {k : Node}
    {names : List Ident} (bound : (Stmt.input k names).Bound a here)
    (typed : (Stmt.input k names).Typed a here) :
    Carries host n places here q t (a.lowerStmt here (.input k names))
      ((Stmt.input k names).exec host n call) := by
  intro pos s mem stack code shows
  rw [Analysis.lowerStmt] at code ⊢
  rw [exec]
  exact .normal (Ident.inputs_follows setting names bound typed pos s mem code shows)

theorem print_carries (setting : Setting p a places u here q depth)
    (calls : CallsFollow host n a places u depth call) {k : Node} {value : Expr}
    (bound : value.Bound a here) (typed : value.Typed a) :
    Carries host n places here q t (a.lowerStmt here (.print k value))
      ((Stmt.print k value).exec host n call) := by
  intro pos s mem stack code shows
  simp only [Analysis.lowerStmt, Analysis.lowerPrint, Op.codeAt_append, Op.sizeAll_append,
    ← Nat.add_assoc] at code ⊢
  rw [exec]
  have computed := Expr.followed setting calls value bound typed _ pos s mem stack
    (Ty.compatible_of_eq rfl typed.terminal) typed.terminal code.1 shows
  rw [Eval.need_self] at computed
  refine computed.bind ?_
  rintro v s' - ⟨mem', rfl, shows', later⟩
  obtain ⟨i, found, rfl⟩ := code.2.1 rfl
  exact (Follows.normal (Eval.print_follows rfl typed.terminal found shows')).imp
    fun _ _ _ h => h.of_later later

theorem alternative_carries {k : Node} {gs : List Guard}
    (guards : Guard.Followed host n places here q call t gs) :
    Carries host n places here q t (a.lowerStmt here (.alternative k gs))
      ((Stmt.alternative k gs).exec host n call) := by
  intro pos s mem stack code shows
  rw [Analysis.lowerStmt] at code ⊢
  obtain ⟨stop, stands, aborts⟩ := Analysis.lowerChoice_stands _ gs pos code
  rw [exec]
  refine (guards _ pos stop s mem stack stands shows).bind ?_
  rintro (_ | _ | v) s' m' chosen
  · obtain ⟨mem', rfl, shows', -⟩ := chosen
    obtain ⟨i, found, rfl⟩ := aborts.1 rfl
    obtain ⟨i, asks, rfl⟩ := aborts.2.1 rfl
    refine .after (Spot.reaches_instr found rfl rfl rfl) ?_
    exact (Follows.ask (r := .abortNoAlternative _) asks rfl fun reply => nomatch reply).bind
      fun reply => nomatch reply
  · obtain ⟨pc, found, mem', rfl, shows', later⟩ := chosen
    exact .after (Spot.reaches_instr found rfl rfl rfl) (.pure ⟨mem', rfl, shows', later⟩)
  · exact .pure (Flows.returned chosen)

theorem iterative_carries {k : Node} {gs : List Guard}
    (guards : Guard.Followed host n places here q call t gs) :
    Carries host n places here q t (a.lowerStmt here (.iterative k gs))
      ((Stmt.iterative k gs).exec host n call) := by
  intro pos s mem stack code shows
  rw [Analysis.lowerStmt] at code ⊢
  have stands := Analysis.lowerLoop_stands pos gs 0 code
  rw [exec]
  exact Eval.rounds_follows (fun s mem shows => guards pos pos _ s mem stack stands shows) n le_rfl
    s mem shows

theorem ret_carries (setting : Setting p a places u here q depth)
    (calls : CallsFollow host n a places u depth call)
    (result : ∀ method, here = some method → t = a.symbolType method) {k : Node}
    {value : Option Expr} (bound : (Stmt.ret k value).Bound a here)
    (typed : (Stmt.ret k value).Typed a here) :
    Carries host n places here q t (a.lowerStmt here (.ret k value))
      ((Stmt.ret k value).exec host n call) := by
  intro pos s mem stack code shows
  obtain ⟨method, rfl, typed⟩ := typed
  obtain rfl := result method rfl
  cases value with
  | none =>
    simp only [Analysis.lowerStmt, Analysis.lowerReturn] at code ⊢
    obtain ⟨i, found, rfl⟩ := code.1 rfl
    rw [exec]
    exact .pure ⟨method, pos, rfl, typed, found, mem, rfl, shows, .refl _⟩
  | some value =>
    simp only [Analysis.lowerStmt, Analysis.lowerReturn, Op.codeAt_append] at code ⊢
    obtain ⟨isFunction, typed, same⟩ := typed
    obtain ⟨i, found, hi⟩ := code.2.1 rfl
    have isReturn : i = .ireturn ∨ i = .freturn := by
      obtain rfl : i = _ := hi
      split
      · exact Or.inr rfl
      · exact Or.inl rfl
    have terminal : (a.symbolType method).isTerminal = true := same ▸ typed.terminal
    rw [exec]
    refine (Expr.followed setting calls value bound typed _ pos s mem stack
      (Ty.compatible_of_eq same terminal) terminal code.1 shows).bind ?_
    rintro v s' m' arrives
    exact .pure ⟨method, _, i, rfl, isFunction, found, isReturn, arrives⟩

theorem call_carries (setting : Setting p a places u here q depth)
    (calls : CallsFollow host n a places u depth call) {k : Node} {callee : Ident}
    {args : List Expr} (bound : (Stmt.call k callee args).Bound a here)
    (typed : (Stmt.call k callee args).Typed a here) :
    Carries host n places here q t (a.lowerStmt here (.call k callee args))
      ((Stmt.call k callee args).exec host n call) := by
  intro pos s mem stack code shows
  obtain ⟨⟨id, sym, named, ⟨ps, kind, -⟩, -⟩, boundArgs⟩ := bound
  simp only [Analysis.lowerStmt, Analysis.lowerCall, Analysis.withSymbol_of named.1] at code ⊢
  rw [exec, Expr.invoke, Analysis.symbolOf_eq named.1]
  have called := Expr.invoke_follows setting calls named
    (by simp [Symbol.isMethod, kind, SymbolKind.params?]) typed.2
    (Expr.argsFollowed setting calls args boundArgs typed.1) pos s mem stack code shows
  refine .normal (called.bind ?_)
  rintro flow s' m' arrives
  rw [if_neg (by simp [Analysis.symbolKind, named.2, kind, SymbolKind.isFunction])] at arrives
  exact .pure arrives

mutual

/-- The machine follows every statement of a bound and typed program. -/
theorem carries (setting : Setting p a places u here q depth)
    (calls : CallsFollow host n a places u depth call)
    (result : ∀ method, here = some method → t = a.symbolType method) :
    (stmt : Stmt) → stmt.Bound a here → stmt.Typed a here →
    Carries host n places here q t (a.lowerStmt here stmt) (stmt.exec host n call)
  | .varDecl .., _, _ => by
    rw [Analysis.lowerStmt, exec]
    exact .nothing rfl
  | .method .., _, ⟨_, found, _⟩ => by
    rw [Analysis.lowerStmt, exec, Analysis.withSymbol_of found]
    exact .nothing rfl
  | .arrayDecl .., bound, typed => arrayDecl_carries setting calls bound typed
  | .assign .., bound, typed => assign_carries setting calls bound typed
  | .input .., bound, typed => input_carries setting bound typed
  | .print .., bound, typed => print_carries setting calls bound typed
  | .alternative _ gs, bound, typed =>
    alternative_carries (guardsFollowed setting calls result gs bound typed)
  | .iterative _ gs, bound, typed =>
    iterative_carries (guardsFollowed setting calls result gs bound typed)
  | .block _ _ body, bound, typed => by
    rw [Analysis.lowerStmt, exec]
    exact carriesAll setting calls result body bound typed
  | .ret .., bound, typed => ret_carries setting calls result bound typed
  | .call .., bound, typed => call_carries setting calls bound typed

theorem carriesAll (setting : Setting p a places u here q depth)
    (calls : CallsFollow host n a places u depth call)
    (result : ∀ method, here = some method → t = a.symbolType method) :
    (ss : List Stmt) → Stmt.BoundAll a here ss → Stmt.TypedAll a here ss →
    Carries host n places here q t (a.lowerStmts here ss) (Stmt.execAll host n call ss)
  | [], _, _ => by
    rw [Analysis.lowerStmts, execAll]
    exact .nothing rfl
  | stmt :: ss, bound, typed => by
    rw [Analysis.lowerStmts, execAll]
    exact (carries setting calls result stmt bound.1 typed.1).append
      (carriesAll setting calls result ss bound.2 typed.2)

theorem guardsFollowed (setting : Setting p a places u here q depth)
    (calls : CallsFollow host n a places u depth call)
    (result : ∀ method, here = some method → t = a.symbolType method) :
    (gs : List Guard) → Guard.BoundAll a here gs → Guard.TypedAll a here gs →
    Guard.Followed host n places here q call t gs
  | [], _, _ => .nil
  | .mk _ cond body :: gs, bound, typed =>
    .cons (Expr.followed setting calls cond bound.1 typed.1) typed.2.1
      (carries setting calls result body bound.2.1 typed.2.2.1)
      (guardsFollowed setting calls result gs bound.2.2 typed.2.2.2)

end

end Stmt

end

end Guarded
