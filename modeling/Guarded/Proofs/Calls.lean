import Guarded.Proofs.Statements

/-!
The machine follows calls. A call moves the arguments from the stack into the first slots of a new
activation, whose other slots are zero, and a return goes back to the activation before with the
result, if there is one, on the stack.

There is room for a fixed number of activations. The evaluator counts them down and the machine
counts them up, so both run out of them at the same call.
-/

namespace Guarded

/-- The slots of a new activation: its arguments, and zeros. -/
def Routine.entryLocals (r : Routine) (args : List Value) : Array Value :=
  (args ++ (r.locals.toList.drop r.params.size).map Value.zero).toArray

theorem Exec.enter_overflow {r : Routine} {m : Machine} (full : Exec.maxDepth ≤ m.frames.length) :
    Exec.enter r m = .error .stackOverflow := by
  show (if Exec.maxDepth ≤ m.frames.length then throw _ else _ : Exec Unit) m = _
  rw [if_pos full]
  rfl

theorem Exec.invoke_ok {m : Machine} {name : String} {r : Routine}
    (found : (m.unit.routines.findRev? fun r => r.name == name) = some r) :
    Exec.invoke name m = Exec.enter r m := by
  simp only [Exec.invoke, bind, StateT.bind, get, getThe, MonadStateOf.get, StateT.get, pure,
    Except.pure, Except.bind, found]

theorem Exec.enter_ok {r : Routine} {m : Machine} {args stack : List Value}
    (room : m.frames.length < Exec.maxDepth) (slots : r.params.size ≤ r.locals.size)
    (count : args.length = r.params.size) (top : m.stack = args.reverse ++ stack) :
    Exec.enter r m = .ok ((), { m with
      stack, frames := ⟨r, 0, r.entryLocals args⟩ :: m.frames }) := by
  have taken : m.stack.take r.params.size = args.reverse := by
    rw [top, List.take_left' (by simpa using count)]
  have left : m.stack.drop r.params.size = stack := by
    rw [top, List.drop_left' (by simpa using count)]
  show (if Exec.maxDepth ≤ m.frames.length then throw _
    else if r.locals.size < r.params.size then throw _
    else if (m.stack.take r.params.size).length < r.params.size then throw _
    else set ({ m with
      stack := m.stack.drop r.params.size
      frames := ⟨r, 0, ((m.stack.take r.params.size).reverse ++
        (r.locals.toList.drop r.params.size).map Value.zero).toArray⟩ :: m.frames } : Machine) :
      Exec Unit) m = _
  rw [if_neg (by omega), if_neg (by omega), taken, if_neg (by simp [count]), left,
    List.reverse_reverse]
  rfl

/-- A new variable is zero and a new array is not there yet. -/
theorem Store.zero_eq_datum {a : Analysis} {locals : Store a} {x : SymbolId} {slot : Slot}
    (ok : Assemble.slotOf a x = .ok slot) (zero : locals.vars x = (a.symbolType x).zero)
    (none : locals.arrays x = none) : Value.zero slot = locals.datum x := by
  unfold Assemble.slotOf at ok
  unfold Store.datum
  rw [zero, none]
  split at ok
  · rename_i isArray
    rw [if_pos isArray]
    cases known : a.symbolType x <;> rw [known] at ok <;> cases ok <;> rfl
  · rename_i notArray
    rw [if_neg notArray]
    cases known : a.symbolType x <;> rw [known] at ok <;> cases ok <;> rfl

/-- A method, its routine, and what is known of its body. -/
structure Program.Callee (p : Program) (a : Analysis) (places : Places) (u : ObjectUnit)
    (id : SymbolId) (m : Method) (r : Routine) : Prop where
  method : p.methodOf a id = some m
  laid : Laid a places (id, a.lowerStmts (some id) m.body ++ a.lowerEnd id m.name.span.line) r
  routine : u.routines.findRev? (fun r' => r'.name == r.name) = some r
  bound : Stmt.BoundAll a (some id) m.body
  typed : Stmt.TypedAll a (some id) m.body

/-- A method is found by its symbol. -/
theorem Program.methodOf_eq {p : Program} {a : Analysis} (linked : p.Linked a) {m : Method}
    (mem : m ∈ p.methods) {id : SymbolId} (named : a.bindings[m.name.id]? = some id) :
    p.methodOf a id = some m := by
  unfold methodOf
  cases found : p.methods.find? fun m => a.bindings[m.name.id]? = some id with
  | none =>
    have := List.find?_eq_none.mp found m mem
    simp [named] at this
  | some m' =>
    have named' : a.bindings[m'.name.id]? = some id := by simpa using List.find?_some found
    rw [List.inj_on_of_nodup_map linked.compiled_nodup (List.mem_of_find?_eq_some found) mem]
    simp [Analysis.compiled, named, named']

/-- Every routine that has a place is that of a method. -/
theorem Program.Compiled.callee {p : Program} {a : Analysis} {places : Places} {u : ObjectUnit}
    (compiled : p.Compiled a places u) (formed : p.WellFormed) (analyzed : p.analyze = .ok a)
    {id : SymbolId} {name : String} (known : places[id]? = some (.routine name)) :
    ∃ m r, p.Callee a places u id m r ∧ r.name = name := by
  have linked := analyze_linked formed analyzed
  obtain ⟨sym, found, isMethod, -⟩ := compiled.named id name known
  obtain ⟨m, mem, ⟨_, _, names, -⟩, bound⟩ := linked.method found isMethod
  obtain ⟨id', named, typed⟩ := (analyze_body_typed formed analyzed).methods m mem
  obtain rfl := Option.some.inj (named.symm.trans names.1)
  obtain ⟨r, laid, routine⟩ := compiled.routines m mem
  have code : a.compiled m = (id', a.lowerStmts (some id') m.body ++
      a.lowerEnd id' m.name.span.line) := by
    simp [Analysis.compiled, named]
  rw [code] at laid
  have same : r.name = name := by
    have := laid.name.symm.trans known
    simpa using this
  exact ⟨m, r, ⟨methodOf_eq linked mem named, laid, routine, bound, typed⟩, same⟩

namespace Program.Callee
variable {σ : Type} {host : Machine.Host σ} {n : Nat} {p : Program} {a : Analysis}
variable {places : Places} {u : ObjectUnit} {here : Option SymbolId} {q : Spot} {depth : Nat}
variable {id : SymbolId} {m : Method} {r : Routine} {locals : Store a} {s : State a σ}
variable {mem : Memory} {pos : Nat} {stack : List Value}

theorem count (callee : p.Callee a places u id m r) :
    (a.params id).length = r.params.size ∧ r.params.size ≤ r.locals.size := by
  obtain ⟨syms, -, slotted, inside, -⟩ := callee.laid.locals
  have params : (a.params id).length = r.params.size := by
    simpa using callee.laid.params.length_eq
  have all : syms.length = r.locals.size := by simpa using slotted.length_eq
  have few : (a.params id).length ≤ syms.length := inside.length_le
  exact ⟨params, by omega⟩

/-- A function is a routine with a result. -/
theorem result_isSome (callee : p.Callee a places u id m r) :
    r.result.isSome = (a.symbolKind id).isFunction := by
  have result : Assemble.resultOf a id = .ok r.result := callee.laid.result
  unfold Assemble.resultOf at result
  split at result
  · rename_i isFunction
    rw [isFunction]
    cases known : Slot.scalar (a.symbolType id) with
    | error e => simp [known] at result
    | ok slot =>
      rw [known] at result
      have same : some slot = r.result := Except.ok.inj result
      rw [← same]
      rfl
  · rename_i noFunction
    have same : none = r.result := Except.ok.inj result
    rw [← same]
    simp [noFunction]

/-- A new activation holds the arguments and zeros. -/
theorem shows (callee : p.Callee a places u id m r) (before : Shows a places here s mem)
    (fresh : locals.Fresh (a.params id)) :
    Shows a places (some id) { s with locals }
      { mem with locals := r.entryLocals ((a.params id).map locals.datum) } := by
  refine ⟨before.globals, ?_, before.heap, before.globalArrays, ?_⟩
  · intro x method k inside own known
    obtain rfl := Option.some.inj inside
    obtain ⟨syms, slots, slotted, ⟨rest, rfl⟩, -⟩ := callee.laid.locals
    have found := (slots k x).mpr ⟨known, id, rfl, own⟩
    have count := callee.count.1
    simp only [Routine.entryLocals, List.getElem?_toArray]
    rcases Nat.lt_or_ge k (a.params id).length with isParam | noParam
    · rw [List.getElem?_append_left isParam] at found
      rw [List.getElem?_append_left (by simpa using isParam), List.getElem?_map, found]
      rfl
    · have outside : x ∉ a.params id := by
        rw [List.getElem?_append_right noParam] at found
        exact fun mem => List.disjoint_of_nodup_append slots.nodup mem (List.mem_of_getElem? found)
      obtain ⟨slot, listed, ok⟩ := exists_of_forall₂ slotted found
      rw [List.getElem?_append_right (by simpa using noParam), List.getElem?_map,
        List.getElem?_drop, List.length_map,
        show r.params.size + (k - (a.params id).length) = k by omega, listed,
        ← Store.zero_eq_datum ok (fresh.1 x outside) (fresh.2 x)]
      rfl
  · intro x h found
    rw [fresh.2 x] at found
    cases found

/-- The place of a new activation. -/
abbrev spot (q : Spot) (pos : Nat) (mem : Memory) (r : Routine) : Spot :=
  ⟨q.unit, r, ⟨q.routine, pos + 1, mem.locals⟩ :: q.frames⟩

theorem run_invoke (callee : p.Callee a places u id m r) (unit : q.unit = u)
    {stack : List Value} :
    Exec.instr (.invoke r.name) (q.machine (pos + 1) stack mem) =
      Exec.enter r (q.machine (pos + 1) stack mem) := by
  refine Exec.invoke_ok ?_
  rw [← callee.routine, ← unit]
  rfl

/-- A call begins. -/
theorem advance_invoke (callee : p.Callee a places u id m r) (unit : q.unit = u)
    (room : q.frames.length + 1 < Exec.maxDepth)
    (found : q.routine.code[pos]? = some (.invoke r.name)) {h : σ} :
    Machine.advance host
      (q.machine pos (((a.params id).map locals.datum).reverse ++ stack) mem, h) =
      .inl ((spot q pos mem r).machine 0 stack
        { mem with locals := r.entryLocals ((a.params id).map locals.datum) }, h) := by
  have count := callee.count
  refine Spot.advance_instr found (by nofun) ?_
  rw [callee.run_invoke unit]
  exact Exec.enter_ok room count.2 (by simpa using count.1) rfl

/-- A call fails if there is no room for it. -/
theorem ends_invoke (callee : p.Callee a places u id m r) (unit : q.unit = u)
    (full : Exec.maxDepth ≤ q.frames.length + 1)
    (found : q.routine.code[pos]? = some (.invoke r.name)) {h : σ} :
    Machine.Ends host (q.machine pos stack mem, h) (.error .stackOverflow h) := by
  refine ⟨0, _, .refl _, Spot.advance_fails found (by nofun) ?_⟩
  rw [callee.run_invoke unit]
  exact Exec.enter_overflow full

/-- The routine that is called is that of the method. -/
theorem eq_of_calls (callee : p.Callee a places u id m r) (unit : q.unit = u)
    (found : q.routine.code[pos]? = some (.invoke r.name)) {r' : Routine}
    (calls : (q.machine pos stack mem).Calls r') : r' = r := by
  obtain ⟨f, frames, name, eq, there, known⟩ := calls
  obtain ⟨rfl, rfl⟩ := List.cons.inj eq
  obtain rfl : r.name = name := by simpa using found.symm.trans there
  have same : q.unit.routines.findRev? (fun r'' => r''.name == r.name) = some r' := known
  rw [unit, callee.routine] at same
  exact (Option.some.inj same).symm

end Program.Callee

namespace Follows
variable {a : Analysis} {σ α : Type} {host : Machine.Host σ} {n : Nat} {m m₁ : Machine}
variable {s s₁ : State a σ} {x y : Eval a σ α} {post post' : α → State a σ → Machine → Prop}

/-- An evaluation that does what another does in a state with the same surroundings. -/
theorem of_eq (same : x s = y s₁) (hosts : s.host = s₁.host) (h : Follows host n m s₁ y post) :
    Follows host n m s x post := by
  unfold Follows at h ⊢
  rw [same, hosts]
  exact h

/-- A change of state that the machine need not make. -/
theorem change_seq {g : State a σ → State a σ} (hosts : s.host = (g s).host)
    (h : Follows host n m (g s) x post) : Follows host n m s (do modify g; x) post :=
  of_eq (show (do modify g; x) s = x (g s) from rfl) hosts h

/-- An evaluation that the machine does in an activation of its own. -/
theorem call (next : Machine.advance host (m, s.host) = .inl (m₁, s.host))
    (deeper : m₁.depth = m.depth + 1) (body : Follows host n m₁ s x post)
    (back : ∀ v s' m₂, post v s' m₂ → ∃ m₃,
      Machine.advance host (m₂, s'.host) = .inl (m₃, s'.host) ∧ (∀ r, ¬ m₂.Calls r) ∧
      m₃.depth = m.depth ∧ (∀ r, m.Calls r → Machine.Returned r m m₃) ∧ post' v s' m₃) :
    Follows host n m s x post' := by
  have below : m.depth < m₁.depth := by omega
  refine body.transport (fun v s' m₂ reaches holds => ?_) (fun h => h.enter next below)
    fun _ h => h.enter next below
  obtain ⟨m₃, returns, noCall, level, balanced, holds'⟩ := back v s' m₂ holds
  exact ⟨m₃, .call next deeper reaches returns noCall level balanced, holds'⟩

end Follows

/-- The caller finds its own locals again, and all else as the callee left it. -/
theorem Shows.back {σ : Type} {a : Analysis} {places : Places} {here inner : Option SymbolId}
    {s s' : State a σ} {mem mem' : Memory} (before : Shows a places here s mem)
    (after : Shows a places inner s' mem') (later : Extends s.heap s'.heap) :
    Shows a places here { s' with locals := s.locals } { mem' with locals := mem.locals } :=
  ⟨after.globals, before.locals, after.heap, after.globalArrays, before.localArrays.mono later⟩

namespace Program.Callee
variable {σ : Type} {host : Machine.Host σ} {n : Nat} {p : Program} {a : Analysis}
variable {places : Places} {u : ObjectUnit} {here : Option SymbolId} {q : Spot} {depth : Nat}
variable {id : SymbolId} {m : Method} {r : Routine} {s : State a σ} {mem : Memory} {pos : Nat}
variable {stack : List Value}

/-- A routine is about to return to the activation before it, with its result on the stack if it is
one of a function. -/
def Leaving (places : Places) (here : Option SymbolId) (q : Spot) (pos : Nat) (mem : Memory)
    (id : SymbolId) (r : Routine) (s : State a σ) (stack : List Value)
    (flow : Flow (a.symbolType id)) (s' : State a σ) (m₂ : Machine) : Prop :=
  ∃ pc i top mem', m₂ = (spot q pos mem r).machine pc (top ++ stack) mem' ∧
    r.code[pc]? = some i ∧ Shows a places here s' { mem' with locals := mem.locals } ∧
    Extends s.heap s'.heap ∧
    if (a.symbolKind id).isFunction then
      ∃ v, flow = .returned (some v) ∧ top = [(a.symbolType id).encode v] ∧
        (i = .ireturn ∨ i = .freturn)
    else top = [] ∧ i = .ret

/-- The end of a body, or a return in it. -/
theorem leaves (callee : p.Callee a places u id m r) (before : Shows a places here s mem)
    {flow : Flow (a.symbolType id)} {s₁ s' : State a σ} {m' : Machine} (heap : s₁.heap = s.heap)
    (flows : Flows places (some id) (spot q pos mem r) s₁
      (Op.sizeAll (a.lowerStmts (some id) m.body)) stack flow s' m') :
    Follows host n m' s' (match flow, (a.symbolKind id).isFunction with
      | .normal, true =>
        (do nomatch ← Eval.ask host (.abortNoFunctionReturn (lineOperand m.name.span.line)) :
          Eval a σ (Flow (a.symbolType id)))
      | flow, _ => do
        modify fun t => { t with locals := s.locals }
        return flow)
      (Leaving places here q pos mem id r s stack) := by
  have ending := (Op.codeAt_append.mp callee.laid.code).2
  rw [Nat.zero_add] at ending
  match flow with
  | .normal =>
    obtain ⟨mem', rfl, shows', later⟩ := flows
    rw [heap] at later
    cases kind : (a.symbolKind id).isFunction with
    | true =>
      simp only [Analysis.lowerEnd, kind, if_true] at ending
      obtain ⟨i, found, rfl⟩ := ending.1 rfl
      obtain ⟨i, asks, rfl⟩ := ending.2.1 rfl
      refine .after (Spot.reaches_instr found rfl rfl rfl) ?_
      exact (Follows.ask (r := .abortNoFunctionReturn _) asks rfl fun reply => nomatch reply).bind
        fun reply => nomatch reply
    | false =>
      simp only [Analysis.lowerEnd, kind, Bool.false_eq_true, if_false] at ending
      obtain ⟨i, found, rfl⟩ := ending.1 rfl
      refine .change_seq rfl (.pure
        ⟨_, _, [], mem', rfl, found, before.back shows' later, later, ?_⟩)
      rw [if_neg (by simp [kind])]
      exact ⟨rfl, rfl⟩
  | .returned none =>
    obtain ⟨method, pc, inside, kind, found, mem', rfl, shows', later⟩ := flows
    obtain rfl := Option.some.inj inside
    rw [heap] at later
    refine .change_seq rfl (.pure
      ⟨pc, _, [], mem', rfl, found, before.back shows' later, later, ?_⟩)
    rw [if_neg (by simp [kind])]
    exact ⟨rfl, rfl⟩
  | .returned (some v) =>
    obtain ⟨method, pc, i, inside, kind, found, isReturn, mem', rfl, shows', later⟩ := flows
    obtain rfl := Option.some.inj inside
    rw [heap] at later
    refine .change_seq rfl (.pure
      ⟨pc, i, [_], mem', rfl, found, before.back shows' later, later, ?_⟩)
    rw [if_pos kind]
    exact ⟨v, rfl, rfl, isReturn⟩

/-- The step back to the caller. -/
theorem advance_return (callee : p.Callee a places u id m r) (unit : q.unit = u)
    (found : q.routine.code[pos]? = some (.invoke r.name)) {args : List Value}
    (count : args.length = r.params.size) {flow : Flow (a.symbolType id)} {s' : State a σ}
    {m₂ : Machine} (leaving : Leaving places here q pos mem id r s stack flow s' m₂) :
    ∃ m₃, Machine.advance host (m₂, s'.host) = .inl (m₃, s'.host) ∧ (∀ r', ¬ m₂.Calls r') ∧
      m₃.depth = q.frames.length + 1 ∧
      (∀ r', (q.machine pos (args.reverse ++ stack) mem).Calls r' →
        Machine.Returned r' (q.machine pos (args.reverse ++ stack) mem) m₃) ∧
      if (a.symbolKind id).isFunction then
        ∃ v, flow = .returned (some v) ∧
          Arrives places here q s (pos + 1) ((a.symbolType id).encode v :: stack) s' m₃
      else Arrives places here q s (pos + 1) stack s' m₃ := by
  obtain ⟨pc, i, top, mem', rfl, there, shows', later, kind⟩ := leaving
  have left : (args.reverse ++ stack).drop r.params.size = stack :=
    List.drop_left' (by simpa using count)
  have enough : r.params.size ≤ (args.reverse ++ stack).length := by
    simp [count]
  have isPlain : i.isPlain = true ∧ Exec.instr i
      ((spot q pos mem r).machine (pc + 1) (top ++ stack) mem') =
        .ok ((), q.machine (pos + 1) (top ++ stack) { mem' with locals := mem.locals }) := by
    split at kind
    · obtain ⟨v, -, rfl, rfl | rfl⟩ := kind <;> exact ⟨rfl, rfl⟩
    · obtain ⟨rfl, rfl⟩ := kind
      exact ⟨rfl, rfl⟩
  refine ⟨_, Spot.advance_instr there ?_ isPlain.2, fun _ => Spot.not_calls there ?_, rfl, ?_, ?_⟩
  · rintro service rfl
    cases isPlain.1
  · rintro name rfl
    cases isPlain.1
  · intro r' calls
    obtain rfl := callee.eq_of_calls unit found calls
    refine ⟨enough, ?_⟩
    rw [callee.result_isSome]
    split at kind
    · obtain ⟨v, -, rfl, -⟩ := kind
      rw [if_pos ‹_›]
      exact ⟨_, congrArg _ left.symm⟩
    · obtain ⟨rfl, -⟩ := kind
      rw [if_neg ‹_›]
      exact left.symm
  · split at kind
    · obtain ⟨v, rfl, rfl, -⟩ := kind
      rw [if_pos ‹_›]
      exact ⟨v, rfl, _, rfl, shows', later⟩
    · obtain ⟨rfl, -⟩ := kind
      rw [if_neg ‹_›]
      exact ⟨_, rfl, shows', later⟩

/-- A call, if there is room for it and for the calls in it. -/
theorem call_follows (callee : p.Callee a places u id m r) (compiled : p.Compiled a places u)
    (ready : a.Ready) (linked : p.Linked a)
    (calls : CallsFollow host n a places u depth (p.invoke a host n depth)) (unit : q.unit = u)
    (room : q.frames.length + 1 + (depth + 1) = Exec.maxDepth)
    (found : q.routine.code[pos]? = some (.invoke r.name)) (shows : Shows a places here s mem)
    {locals : Store a} (fresh : locals.Fresh (a.params id)) :
    Follows host n (q.machine pos (((a.params id).map locals.datum).reverse ++ stack) mem) s
      (p.invoke a host n (depth + 1) id locals) fun flow s' m =>
        if (a.symbolKind id).isFunction then
          ∃ v, flow = .returned (some v) ∧
            Arrives places here q s (pos + 1) ((a.symbolType id).encode v :: stack) s' m
        else Arrives places here q s (pos + 1) stack s' m := by
  have opened : p.invoke a host n (depth + 1) id locals s =
      (do
        match ← Stmt.execAll host n (p.invoke a host n depth) m.body,
          (a.symbolKind id).isFunction with
        | .normal, true =>
          nomatch ← Eval.ask host (.abortNoFunctionReturn (lineOperand m.name.span.line))
        | flow, _ =>
          modify fun t => { t with locals := s.locals }
          return flow : Eval a σ (Flow (a.symbolType id))) { s with locals } := by
    simp only [Program.invoke, callee.method]
    rfl
  obtain ⟨syms, slots, -⟩ := callee.laid.locals
  have setting : Setting p a places u (some id) (spot q pos mem r) depth :=
    { compiled, ready, linked, slots := ⟨syms, slots⟩, unit, depth := by simp; omega }
  have result (method : SymbolId) (inside : some id = some method) :
      a.symbolType id = a.symbolType method := by
    rw [Option.some.inj inside]
  have body := Stmt.carriesAll setting calls result m.body callee.bound callee.typed 0
    { s with locals } _ stack
    (Op.codeAt_append.mp callee.laid.code).1 (callee.shows shows fresh)
  rw [Nat.zero_add] at body
  refine .of_eq opened rfl (.call (callee.advance_invoke unit (by omega) found) rfl
    (body.bind fun flow s' m' flows => callee.leaves shows rfl flows) ?_)
  intro flow s' m₂ leaving
  exact callee.advance_return unit found (by simpa using callee.count.1) leaving

end Program.Callee

/-- The machine follows every call of a compiled program. -/
theorem Program.callsFollow {σ : Type} {host : Machine.Host σ} {n : Nat} {p : Program}
    {a : Analysis} {places : Places} {u : ObjectUnit} (formed : p.WellFormed)
    (analyzed : p.analyze = .ok a) (compiled : p.Compiled a places u) (depth : Nat) :
    CallsFollow host n a places u depth (p.invoke a host n depth) := by
  induction depth with
  | zero =>
    intro here q pos name id locals s mem stack unit full found known shows fresh
    obtain ⟨m, r, callee, rfl⟩ := compiled.callee formed analyzed known
    exact Follows.trap (callee.ends_invoke unit (by omega) found)
  | succ depth ih =>
    intro here q pos name id locals s mem stack unit room found known shows fresh
    obtain ⟨m, r, callee, rfl⟩ := compiled.callee formed analyzed known
    exact callee.call_follows compiled (analyze_ready formed analyzed)
      (analyze_linked formed analyzed) ih unit room found shows fresh

end Guarded
