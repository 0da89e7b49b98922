import Guarded.Proofs.TypedRuns

/-!
The code of expressions without calls, taken by itself. Wherever it is written, and whatever else the
machine holds, it needs no more than that the variables and arrays it reads hold values of their
types. It leaves the value of the expression and changes nothing, or it ends with the fault that the
evaluation ends with.
-/

namespace Guarded

/-- No function is called. -/
def Expr.isCallFree : Expr → Bool
  | .int .. | .float .. | .bool .. | .var .. => true
  | .call .. => false
  | .index _ _ inner | .paren _ inner | .unary _ _ inner => inner.isCallFree
  | .binary _ _ lhs rhs => lhs.isCallFree && rhs.isCallFree

/-- Items that take room and name no routine. -/
def Op.isStraight : Op → Bool
  | .invoke _ | .method .. => false
  | _ => true

namespace Analysis
variable {a : Analysis}

theorem withSymbol_straight (name : Ident) {code : SymbolId → List Op}
    (straight : ∀ id, (code id).all Op.isStraight = true) :
    (a.withSymbol name code).all Op.isStraight = true := by
  unfold withSymbol
  cases a.binding name with
  | ok id => exact straight id
  | error e => rfl

theorem cast_straight (s t : Ty) : (cast s t).all Op.isStraight = true := by
  cases s <;> cases t <;> rfl

theorem lowerExpr_straight : (e : Expr) → (needed : Ty) → e.isCallFree = true →
    (a.lowerExpr needed e).all Op.isStraight = true
  | .int .., _, _ | .float .., _, _ | .bool .., _, _ => by simp [lowerExpr, Op.isStraight]
  | .paren _ inner, needed, free => by
    rw [lowerExpr]
    exact lowerExpr_straight inner needed free
  | .var .., _, _ => by
    simp only [lowerExpr, List.all_append, cast_straight, Bool.and_true]
    exact withSymbol_straight _ fun _ => rfl
  | .index _ _ i, _, free => by
    have inner := lowerExpr_straight i .int free
    simp only [lowerExpr, List.all_append, cast_straight, inner, Bool.and_true]
    rw [withSymbol_straight _ fun _ => rfl]
    rfl
  | .unary _ .neg operand, _, free | .unary _ .not operand, _, free => by
    simp only [lowerExpr, List.all_append, cast_straight, lowerExpr_straight operand _ free]
    rfl
  | .binary _ op lhs rhs, _, free => by
    obtain ⟨left, right⟩ := Bool.and_eq_true_iff.mp free
    cases op
    case lt | gt | le | ge | eq | ne =>
      simp only [lowerExpr, List.all_append, cast_straight]
      split <;> simp [lowerExpr_straight lhs _ left, lowerExpr_straight rhs _ right, truth,
        Op.isStraight]
    all_goals
      simp only [lowerExpr, List.all_append, cast_straight, lowerExpr_straight lhs _ left,
        lowerExpr_straight rhs _ right]
      rfl

end Analysis

namespace Assemble
variable {a : Analysis} {s t : Assembly}

/-- Whatever the assembly, the place of a symbol stays once it has one. -/
theorem placeOf_ok {id : SymbolId} {v : Place × Slot} (run : placeOf a id s = .ok (v, t)) :
    slotOf a id = .ok v.2 ∧ t.places[id]? = some v.1 ∧ Places.Below s.places t.places ∧
      t.draft.code = s.draft.code := by
  cases ok : slotOf a id with
  | error e => simp [placeOf, ok, state_bind_ok, state_lift_ok] at run
  | ok slot =>
    cases found : s.places[id]? with
    | some place =>
      obtain ⟨rfl, rfl⟩ : (place, slot) = v ∧ s = t := by
        simpa [placeOf_known ok found] using run
      exact ⟨rfl, found, .refl _, rfl⟩
    | none =>
      rw [placeOf_new ok found] at run
      split at run
      · rw [allocate_eq] at run
        split at run
        · obtain ⟨rfl, rfl⟩ : (_, slot) = v ∧ s.withSlot id slot = t := by
            simpa [bind, Except.bind] using run
          exact ⟨rfl, by simp [Assembly.withSlot], Places.below_insert found _, rfl⟩
        · simp [bind, Except.bind] at run
      · obtain ⟨rfl, rfl⟩ : (Place.field (numbered (nameOf a id) s.counter), slot) = v ∧
            s.withField (nameOf a id) id slot = t := Prod.mk.inj (Except.ok.inj run)
        exact ⟨rfl, by simp [Assembly.withField], Places.below_insert found _, rfl⟩

/-- A straight item becomes one instruction at the end of the code. -/
theorem op_writes {o : Op} (straight : o.isStraight = true) (run : op a o s = .ok ((), t)) :
    ∃ i, t.draft.code = s.draft.code.push i ∧ Places.Below s.places t.places ∧
      o.Becomes a t.places s.draft.code.size i := by
  cases o with
  | invoke | method => cases straight
  | fault e => exact absurd run state_throw_ok
  | instr i =>
    obtain rfl := (Prod.mk.inj (Except.ok.inj run)).2
    exact ⟨i, rfl, .refl _, rfl⟩
  | jump j distance =>
    obtain rfl := (Prod.mk.inj (Except.ok.inj run)).2
    exact ⟨_, rfl, .refl _, rfl⟩
  | load id | store id =>
    obtain ⟨v, u, placed, emitted⟩ := state_bind_ok.mp run
    obtain ⟨ok, found, below, same⟩ := placeOf_ok placed
    obtain rfl := (Prod.mk.inj (Except.ok.inj emitted)).2
    exact ⟨_, by rw [← same]; rfl, below, v.1, v.2, found, ok, rfl⟩

/-- What a straight piece of code is in a routine that has it where it was written. -/
theorem ops_codeAt {r : Routine} : {os : List Op} → {s : Assembly} → ops a os s = .ok ((), t) →
    (∀ k i, s.draft.code.size ≤ k → t.draft.code[k]? = some i → r.code[k]? = some i) →
    os.all Op.isStraight = true →
      Op.CodeAt a t.places r.code s.draft.code.size os ∧ Places.Below s.places t.places ∧
      s.draft.code.toList <+: t.draft.code.toList
  | [], s, run, _, _ => by
    obtain rfl := (Prod.mk.inj (Except.ok.inj run)).2
    exact ⟨trivial, .refl _, List.prefix_rfl⟩
  | o :: os, s, run, stands, straight => by
    obtain ⟨first, rest⟩ := Bool.and_eq_true_iff.mp straight
    obtain ⟨⟨⟩, u, head, tail⟩ := state_bind_ok.mp run
    obtain ⟨i, code, below, becomes⟩ := op_writes first head
    have size : u.draft.code.size = s.draft.code.size + o.size := by
      rw [code, Array.size_push]
      cases o <;> first | rfl | cases first
    obtain ⟨codeAt, below', kept⟩ :=
      ops_codeAt tail (fun k j low => stands k j (by omega)) rest
    have here : t.draft.code[s.draft.code.size]? = some i := by
      obtain ⟨more, whole⟩ := kept
      rw [← Array.getElem?_toList, ← whole, code]
      simp
    refine ⟨⟨fun _ => ⟨i, stands _ i le_rfl here, becomes.mono below'⟩, ?_⟩,
      below.trans below', ?_⟩
    · rwa [← size]
    · refine List.IsPrefix.trans ?_ kept
      rw [code, Array.toList_push]
      exact List.prefix_append _ _

end Assemble

/-- An instruction as it stands in a finished routine. At a fixup it is a branch to a label, and goes
where the label has been placed. -/
def Draft.patched (d : Draft) (fixups : List Nat) (pos : Nat) (i : Instr) : Instr :=
  if pos ∈ fixups then (i.target?.bind fun label => d.labels[label]?.join).elim i i.retarget else i

theorem Draft.patched_entry {d : Draft} {entries : List Draft.Entry} {pos k : Nat}
    {entry : Draft.Entry} {i : Instr} (found : entries[k]? = some entry)
    (links : entry.Links (fun l n => d.labels[l]? = some (some n)) i) :
    d.patched (Draft.Entry.marks pos entries) (pos + k) entry.raw = i := by
  cases links with
  | plain i => simp [patched, Draft.Entry.mem_marks, found, Draft.Entry.raw]
  | branch known =>
    simp [patched, Draft.Entry.mem_marks, found, Draft.Entry.raw, Jump.target?_instr, known,
      Jump.retarget_instr]

/-- An action has written code between two states of an assembly. A routine has that code where it
was written, with its branches to labels resolved. -/
structure Emission (x : Assemble Unit) (r : Routine) (s t : Assembly) : Prop where
  written : x s = .ok ((), t)
  stands : ∀ (k : Nat) (i : Instr), s.draft.code.size ≤ k → t.draft.code[k]? = some i →
    r.code[k]? = some (t.draft.patched (t.draft.fixups.toList.drop s.draft.fixups.size) k i)

/-- What straight code is, wherever it has been emitted. -/
theorem Emission.codeAt {a : Analysis} {x : Assemble Unit} {ops : List Op} {r : Routine}
    {s t : Assembly} (h : Emission x r s t)
    (realizes : Assemble.Realizes a (fun _ _ => False) s x ops)
    (straight : ops.all Op.isStraight = true) :
    Op.CodeAt a t.places r.code s.draft.code.size ops ∧
      t.draft.code.size = s.draft.code.size + Op.sizeAll ops ∧ Places.Below s.places t.places := by
  rcases realizes s.draft.code.toList Array.length_toList with
    ⟨⟨⟩, t', is, run, run', length, emits⟩ | ⟨e, run, -⟩
  · obtain rfl := (Prod.mk.inj (Except.ok.inj (run.symm.trans h.written))).2
    obtain ⟨xs, code, fixups, links⟩ := emits.entries
    have added : t'.draft.fixups.toList.drop s.draft.fixups.size =
        Draft.Entry.marks s.draft.code.size xs := by simp [fixups]
    -- Symbolic code has no fixups: it is written as it stands in the routine.
    have stands (k : Nat) (i : Instr) (low : s.draft.code.size ≤ k)
        (there : (s.draft.code.toList ++ is)[k]? = some i) : r.code[k]? = some i := by
      obtain ⟨k, rfl⟩ := Nat.exists_eq_add_of_le low
      rw [List.getElem?_append_right (by simp), Array.length_toList, Nat.add_sub_cancel_left] at there
      obtain ⟨entry, found, link⟩ := exists_of_forall₂ links.flip there
      have written : t'.draft.code[s.draft.code.size + k]? = some entry.raw := by
        rw [← Array.getElem?_toList, code, List.getElem?_append_right (by simp)]
        simp [found]
      rw [h.stands _ _ low written, added, Draft.patched_entry found (link.mono fun l n known =>
        known.resolve_right id)]
    have symbolic := Assemble.ops_codeAt run' (by simpa [Assembly.recode] using stands) straight
    exact ⟨by simpa [Assembly.recode] using symbolic.1, by rw [emits.size, length], symbolic.2.1⟩
  · cases run.symm.trans h.written

/-- The evaluation leaves the state alone, and nothing but a fault of the program stops it. -/
def Eval.Reads {a : Analysis} {σ α : Type} (x : Eval a σ α) (s : State a σ) : Prop :=
  (∃ v, x s = .ok v s) ∨ ∃ t, x s = .error (.trap t) s

namespace Eval.Reads
variable {a : Analysis} {σ α β : Type} {x : Eval a σ α} {f : α → Eval a σ β} {s : State a σ}

theorem pure (v : α) : Reads (pure v : Eval a σ α) s :=
  Or.inl ⟨v, rfl⟩

theorem bind (first : Reads x s) (second : ∀ v, Reads (f v) s) : Reads (x >>= f) s := by
  rcases first with ⟨v, run⟩ | ⟨t, run⟩
  · have opened : (x >>= f) s = f v s := by
      show EStateM.bind x f s = _
      simp only [EStateM.bind, run]
    rw [Reads, opened]
    exact second v
  · refine Or.inr ⟨t, ?_⟩
    show EStateM.bind x f s = _
    simp only [EStateM.bind, run]

theorem need {ty needed : Ty} {x : Eval a σ ty.Den} (h : Reads x s) :
    Reads (Eval.need needed x) s :=
  h.bind fun _ => pure _

theorem divide (g : Int32 → Int32 → Int32) (v w : Int32) :
    Reads (Eval.divide g v w : Eval a σ Int32) s := by
  unfold Eval.divide
  split
  · exact Or.inr ⟨_, rfl⟩
  · exact pure _

theorem readElement (ty : Ty) (handle : Option Nat) (i : Int32) :
    Reads (Eval.readElement ty handle i : Eval a σ ty.Den) s := by
  refine bind ?_ fun r => Or.inl ⟨_, rfl⟩
  rw [Reads, Eval.locate_eq]
  cases handle with
  | none => exact Or.inr ⟨_, rfl⟩
  | some k =>
    dsimp only
    split
    · exact Or.inl ⟨_, rfl⟩
    · exact Or.inr ⟨_, rfl⟩

end Eval.Reads

/-- An expression without calls only reads. -/
theorem Expr.eval_reads {a : Analysis} {σ : Type} {s : State a σ}
    (call : (id : SymbolId) → Store a → Eval a σ (Flow (a.symbolType id))) :
    (e : Expr) → e.isCallFree = true → Eval.Reads (e.eval call) s
  | .int .., _ | .float .., _ | .bool .., _ => by
    rw [eval]
    exact .pure _
  | .var .., _ => by
    rw [eval]
    exact .need (Or.inl ⟨_, rfl⟩)
  | .paren _ inner, free => by
    rw [eval]
    exact .need (inner.eval_reads call free)
  | .index _ _ i, free => by
    rw [eval]
    refine .bind (Or.inl ⟨_, rfl⟩) fun handle => .bind (.need (i.eval_reads call free)) fun j => ?_
    exact .need (.readElement ..)
  | .unary _ .neg operand, free | .unary _ .not operand, free => by
    rw [eval]
    exact .bind (.need (operand.eval_reads call free)) fun v => .pure _
  | .binary _ op lhs rhs, free => by
    obtain ⟨left, right⟩ := Bool.and_eq_true_iff.mp free
    have left := lhs.eval_reads call left (s := s)
    have right := rhs.eval_reads call right (s := s)
    cases op <;> rw [eval]
    case div | mod =>
      exact .bind left.need fun v => .bind right.need fun w => .bind (.divide _ v w) fun _ => .pure _
    all_goals exact .bind left.need fun v => .bind right.need fun w => .pure _

namespace Ty

/-- What the machine has, as a value of a type. -/
def decode : (ty : Ty) → Value → ty.Den
  | int, .int v => v
  | float, .float v => v
  | boolean, .int v => decide (v ≠ 0)
  | ty, _ => ty.zero

theorem encode_decode {ty : Ty} (terminal : ty.isTerminal = true) {v : Value}
    (single : ty.slot.Single v) : ty.encode (ty.decode v) = v := by
  rcases cases_of_terminal terminal with rfl | rfl | rfl
  · obtain ⟨n, rfl⟩ := single
    rfl
  · obtain ⟨x, rfl⟩ := single
    rfl
  · rcases single with rfl | rfl <;> rfl

end Ty

namespace Memory

/-- What is at a place. -/
def read (mem : Memory) : Place → Option Value
  | .slot n => mem.locals[n]?
  | .field name | .routine name => mem.globals[name]?

/-- The place of a symbol holds a value of the type of the symbol. -/
def Keeps (a : Analysis) (places : Places) (mem : Memory) (x : SymbolId) : Prop :=
  ∃ place slot v, places[x]? = some place ∧ Assemble.slotOf a x = .ok slot ∧
    mem.read place = some v ∧ slot.Admits mem.heap v

/-- What is at the place of a symbol. -/
def value (places : Places) (mem : Memory) (x : SymbolId) : Value :=
  (places[x]?.bind mem.read).getD .null

/-- The elements of an array. -/
def elements (mem : Memory) : Value → Array Value
  | .array handle => mem.heap[handle]?.getD #[]
  | _ => #[]

/-- The symbol itself stands for the array that is its value. -/
def reference (x : SymbolId) : Value → Option Nat
  | .array _ => some x
  | _ => none

/-- The state that a memory stands for. Every symbol has a block of its own on the heap, numbered as
the symbol is; those of one array have the same elements. -/
def state {σ : Type} (a : Analysis) (places : Places) (mem : Memory) (host : σ) : State a σ :=
  let store : Store a := {
    vars x := (a.symbolType x).decode (mem.value places x)
    arrays x := reference x (mem.value places x) }
  let block (x : Fin a.symbols.size) : Block :=
    ⟨a.symbolType x, (mem.elements (mem.value places x)).map (a.symbolType x).decode⟩
  ⟨store, store, Array.ofFn block, host⟩

variable {σ : Type} {a : Analysis} {places : Places} {mem : Memory} {x : SymbolId}

theorem Keeps.variable (keeps : mem.Keeps a places x) (kind : a.symbolKind x = .variable)
    (terminal : (a.symbolType x).isTerminal = true) (host : σ) :
    ∃ place, places[x]? = some place ∧ mem.read place =
      some ((a.symbolType x).encode (((mem.state a places host).store x).vars x)) := by
  obtain ⟨place, slot, v, known, ok, found, admits⟩ := keeps
  obtain rfl := Except.ok.inj (ok.symm.trans (Analysis.slotOf_variable kind terminal))
  have value : mem.value places x = v := by simp [value, known, found]
  have single : (a.symbolType x).slot.Single v := by
    rcases Ty.cases_of_terminal terminal with same | same | same <;>
      · rw [same] at admits ⊢
        exact admits
  have held : ((mem.state a places host).store x).vars x = (a.symbolType x).decode v := by
    rw [← value, State.store]
    split <;> rfl
  exact ⟨place, known, by rw [held, Ty.encode_decode terminal single, found]⟩

theorem Keeps.array (keeps : mem.Keeps a places x) (kind : a.symbolKind x = .array)
    (terminal : (a.symbolType x).isTerminal = true) (low : x < a.symbols.size) (host : σ) :
    ∃ place handle, places[x]? = some place ∧ mem.read place = some (encodeHandle handle) ∧
      Refers (mem.state a places host) mem.heap (a.symbolType x)
        (((mem.state a places host).store x).arrays x) handle := by
  obtain ⟨place, slot, v, known, ok, found, admits⟩ := keeps
  obtain rfl := Except.ok.inj (ok.symm.trans (Analysis.slotOf_array kind terminal))
  have value : mem.value places x = v := by simp [value, known, found]
  have held : ((mem.state a places host).store x).arrays x = reference x v := by
    rw [← value, State.store]
    split <;> rfl
  rw [Slot.Admits, Ty.arraySlot_element] at admits
  rcases admits with rfl | ⟨h, values, rfl, there, single⟩
  · exact ⟨place, none, known, found, Or.inl ⟨held, rfl⟩⟩
  · refine ⟨place, some h, known, found, Or.inr ⟨x, h, held, rfl, ?_⟩⟩
    have items : (mem.state a places host).items (a.symbolType x) x =
        values.map (a.symbolType x).decode := by
      simp [State.items, state, low, Block.view, value, elements, there]
    rw [items, there, Array.map_map]
    refine congrArg some (Array.ext_getElem? fun i => ?_)
    rw [Array.getElem?_map]
    cases entry : values[i]? with
    | none => rfl
    | some w =>
      simp [Ty.encode_decode terminal (single w (Array.mem_of_getElem? entry))]

end Memory

/-- The value at the place of a symbol is loaded. -/
theorem Memory.reaches_load {σ : Type} {host : Machine.Host σ} {a : Analysis} {places : Places}
    {q : Spot} {pos : Nat} {stack : List Value} {mem : Memory} {h : σ} {x : SymbolId}
    {place : Place} {v : Value} (code : Op.CodeAt a places q.routine.code pos [.load x])
    (known : places[x]? = some place) (found : mem.read place = some v) :
    Machine.Reaches host (q.machine pos stack mem, h) (q.machine (pos + 1) (v :: stack) mem, h) := by
  obtain ⟨i, there, place', slot, known', -, rfl⟩ := code.1 rfl
  obtain rfl := Option.some.inj (known.symm.trans known')
  cases place with
  | slot n =>
    have loads := Assemble.loadInstr_slot n slot
    refine Spot.reaches_instr there loads.2 ?_ rfl
    rw [loads.1]
    exact Exec.loadLocal_ok rfl found
  | field f | routine f => exact Spot.reaches_instr there rfl (Exec.loadGlobal_ok found) rfl

section Reading
variable {σ : Type} {host : Machine.Host σ} {n : Nat} {a : Analysis} {places : Places} {q : Spot}
variable {call : (id : SymbolId) → Store a → Eval a σ (Flow (a.symbolType id))}
variable {here : Option SymbolId} {mem : Memory} {h : σ}

/-- The memory and the state it stands for are what they were. -/
def Memory.Still (a : Analysis) (places : Places) (mem : Memory) (h : σ) (s : State a σ)
    (mem' : Memory) : Prop :=
  s = mem.state a places h ∧ mem' = mem

theorem Expr.Tracked.var {k : Node} {name : Ident}
    (bound : a.Uses here name (· = .variable)) (typed : a.TypedAs k name)
    (keeps : mem.Keeps a places (a.symbolOf name)) :
    Tracked host n places q call (mem.Still a places h) (.var k name) := by
  intro needed pos s mem' stack compatible terminal code fit
  obtain ⟨id, sym, named, kind, -⟩ := bound
  obtain ⟨id', found, same, terminal'⟩ := typed
  obtain rfl := Option.some.inj (named.1.symm.trans found)
  have symbol := Analysis.symbolOf_eq found
  have isVariable : a.symbolKind id = .variable := by simp [Analysis.symbolKind, named.2, kind]
  rw [symbol] at keeps
  simp only [Analysis.lowerExpr, Analysis.withSymbol_of found, Op.codeAt_append,
    Op.sizeAll_append, Op.sizeAll_cons, Op.sizeAll_nil, Op.size, Nat.add_zero,
    ← Nat.add_assoc] at code ⊢
  refine .need_cast compatible (same ▸ terminal') terminal code.2 ?_
  rw [eval, symbol]
  obtain ⟨rfl, rfl⟩ := fit
  obtain ⟨place, known, there⟩ := keeps.variable isVariable terminal' h
  exact .need_same same.symm
    (.after (Memory.reaches_load code.1 known there) (.readVar ⟨mem', rfl, rfl, rfl⟩))

theorem Expr.Tracked.index {k : Node} {array : Ident} {i : Expr}
    (bound : a.Uses here array (· = .array)) (typed : a.TypedAs k array)
    (isInt : a.typeOf i.id = .int) (keeps : mem.Keeps a places (a.symbolOf array))
    (inner : Tracked host n places q call (mem.Still a places h) i) :
    Tracked host n places q call (mem.Still a places h) (.index k array i) := by
  intro needed pos s mem' stack compatible terminal code fit
  obtain ⟨id, sym, named, kind, -⟩ := bound
  obtain ⟨id', found, same, terminal'⟩ := typed
  obtain rfl := Option.some.inj (named.1.symm.trans found)
  have symbol := Analysis.symbolOf_eq found
  have isArray : a.symbolKind id = .array := by simp [Analysis.symbolKind, named.2, kind]
  have low : id < a.symbols.size := (Array.getElem?_eq_some_iff.mp named.2).1
  rw [symbol] at keeps
  simp only [Analysis.lowerExpr, Analysis.withSymbol_of found, Op.codeAt_append,
    Op.sizeAll_append, Op.sizeAll_cons, Op.sizeAll_nil, Op.size, Nat.add_zero,
    ← Nat.add_assoc] at code ⊢
  obtain ⟨⟨⟨loads, indexes⟩, reads⟩, casts⟩ := code
  refine .need_cast compatible (same ▸ terminal') terminal casts ?_
  rw [eval, symbol]
  obtain ⟨rfl, rfl⟩ := fit
  obtain ⟨place, handle, known, there, refers⟩ := keeps.array isArray terminal' low h
  refine .after (Memory.reaches_load loads known there) (.bind_readArray ?_)
  refine .next (inner .int _ _ mem' _ (Ty.compatible_of_eq isInt rfl) rfl indexes ⟨rfl, rfl⟩) ?_
  rintro j s' mem'' ⟨rfl, rfl⟩
  refine .need_same same.symm ?_
  obtain ⟨instr, there', rfl⟩ := reads.1 rfl
  refine (refers.readElement there' ?_).imp ?_
  · split
    · exact Or.inr rfl
    · exact Or.inl rfl
  · rintro v s'' m ⟨rfl, rfl⟩
    exact ⟨mem'', rfl, rfl, rfl⟩

/-- The code of an expression without calls leaves its value, and the memory as it was. -/
theorem Expr.tracked : (e : Expr) → e.isCallFree = true → e.Bound a here → e.Typed a →
    (∀ name ∈ e.names, mem.Keeps a places (a.symbolOf name)) →
      Tracked host n places q call (mem.Still a places h) e
  | .int .., _, _, typed, _ => .int typed
  | .float .., _, _, typed, _ => .float typed
  | .bool .., _, _, typed, _ => .bool typed
  | .paren _ inner, free, bound, typed, keeps =>
    .paren typed.2 (inner.tracked free bound typed.1 keeps)
  | .var _ name, _, bound, typed, keeps => .var bound typed (keeps name List.mem_cons_self)
  | .index _ array i, free, bound, typed, keeps =>
    .index bound.1 typed.1 typed.2.2 (keeps array List.mem_cons_self)
      (i.tracked free bound.2 typed.2.1 fun name mem => keeps name (List.mem_cons_of_mem _ mem))
  | .unary _ .neg operand, free, bound, typed, keeps =>
    .neg typed.1 typed.2.1 typed.2.2 (operand.tracked free bound typed.1 keeps)
  | .unary _ .not operand, free, bound, typed, keeps =>
    .not typed.2.1 typed.2.2 (operand.tracked free bound typed.1 keeps)
  | .binary _ _ lhs rhs, free, bound, typed, keeps => by
    obtain ⟨left, right⟩ := Bool.and_eq_true_iff.mp free
    obtain ⟨keepsLeft, keepsRight⟩ := List.forall_mem_append.mp keeps
    exact .binary typed.1 typed.2.1 typed.2.2 (lhs.tracked left bound.1 typed.1 keepsLeft)
      (rhs.tracked right bound.2 typed.2.1 keepsRight)

end Reading

/-- Between two positions the machine leaves on the stack what an evaluation gives, or ends with the
fault that the evaluation ends with. Nothing else changes, and nothing is asked of the host. -/
def Spot.Computes {a : Analysis} {σ : Type} (host : Machine.Host σ) (q : Spot) (s : State a σ)
    (mem : Memory) (stack : List Value) (start stop : Nat) {ty : Ty} (x : Eval a σ ty.Den) : Prop :=
  (∃ v, x s = .ok v s ∧ Machine.Reaches host (q.machine start stack mem, s.host)
    (q.machine stop (ty.encode v :: stack) mem, s.host)) ∨
  ∃ t, x s = .error (.trap t) s ∧
    Machine.Ends host (q.machine start stack mem, s.host) (.error t.error s.host)

/-- Where the evaluation gives a value, the machine leaves it. -/
theorem Spot.Computes.reaches {a : Analysis} {σ : Type} {host : Machine.Host σ} {q : Spot}
    {s : State a σ} {mem : Memory} {stack : List Value} {start stop : Nat} {ty : Ty}
    {x : Eval a σ ty.Den} (computes : q.Computes host s mem stack start stop x) {v : ty.Den}
    (run : x s = .ok v s) : Machine.Reaches host (q.machine start stack mem, s.host)
      (q.machine stop (ty.encode v :: stack) mem, s.host) := by
  rcases computes with ⟨w, run', reaches⟩ | ⟨t, run', -⟩
  · obtain rfl : v = w := by simpa [run] using run'
    exact reaches
  · simp [run] at run'

section Computing
variable {σ : Type} {host : Machine.Host σ} {a : Analysis} {places : Places} {q : Spot}
variable {call : (id : SymbolId) → Store a → Eval a σ (Flow (a.symbolType id))}
variable {here : Option SymbolId} {mem : Memory} {h : σ} {stack : List Value} {start stop : Nat}

theorem Follows.computes {ty : Ty} {x : Eval a σ ty.Den}
    (follows : Follows host 0 (q.machine start stack mem) (mem.state a places h) x
      fun v => Stands (mem.Still a places h) q stop (ty.encode v :: stack))
    (reads : Eval.Reads x (mem.state a places h)) :
    q.Computes host (mem.state a places h) mem stack start stop x := by
  unfold Follows at follows
  rcases reads with ⟨v, run⟩ | ⟨t, run⟩
  · rw [run] at follows
    obtain ⟨-, reaches, mem', rfl, -, rfl⟩ := follows
    exact Or.inl ⟨v, run, reaches⟩
  · rw [run] at follows
    exact Or.inr ⟨t, run, follows⟩

variable (host call h stack)
variable {e : Expr} {needed : Ty}

theorem Expr.computes (free : e.isCallFree = true) (bound : e.Bound a here) (typed : e.Typed a)
    (keeps : ∀ name ∈ e.names, mem.Keeps a places (a.symbolOf name))
    (compatible : (a.typeOf e.id).Compatible needed) (terminal : needed.isTerminal = true)
    (code : Op.CodeAt a places q.routine.code start (a.lowerExpr needed e)) :
    q.Computes host (mem.state a places h) mem stack start
      (start + Op.sizeAll (a.lowerExpr needed e)) (Eval.need needed (e.eval call)) :=
  (e.tracked free bound typed keeps needed start _ mem stack compatible terminal code
    ⟨rfl, rfl⟩).computes (e.eval_reads call free).need

/-- A value that is made in its own type and converted then is the same. -/
theorem Expr.computes_cast (free : e.isCallFree = true) (bound : e.Bound a here)
    (typed : e.Typed a) (keeps : ∀ name ∈ e.names, mem.Keeps a places (a.symbolOf name))
    (compatible : (a.typeOf e.id).Compatible needed) (terminal : needed.isTerminal = true)
    (code : Op.CodeAt a places q.routine.code start
      (a.lowerExpr (a.typeOf e.id) e ++ Analysis.cast (a.typeOf e.id) needed)) :
    q.Computes host (mem.state a places h) mem stack start
      (start + Op.sizeAll (a.lowerExpr (a.typeOf e.id) e ++ Analysis.cast (a.typeOf e.id) needed))
      (Eval.need needed (e.eval call)) := by
  rw [Op.codeAt_append] at code
  rw [Op.sizeAll_append, ← Nat.add_assoc]
  have tracked : Tracked host 0 places q call (mem.Still a places h) e :=
    e.tracked free bound typed keeps
  have made := tracked (a.typeOf e.id) start _ mem stack
    (Ty.compatible_of_eq rfl typed.terminal) typed.terminal code.1 ⟨rfl, rfl⟩
  rw [Eval.need_self] at made
  exact (made.need_cast compatible typed.terminal terminal code.2).computes
    (e.eval_reads call free).need

end Computing

/-- A literal reads nothing and has a value by itself. -/
theorem Expr.eval_literal {a : Analysis} {σ : Type} {e : Expr}
    (call : (id : SymbolId) → Store a → Eval a σ (Flow (a.symbolType id)))
    (literal : e.literal?.isSome = true) :
    e.names = [] ∧ ∃ v, ∀ s : State a σ, e.eval call s = .ok v s := by
  cases e with
  | int | float | bool =>
    rw [eval]
    exact ⟨rfl, _, fun s => rfl⟩
  | _ => cases literal

/-- A literal is one instruction in every type. -/
theorem Analysis.sizeAll_literal {a : Analysis} {e : Expr} (literal : e.literal?.isSome = true)
    (needed : Ty) : Op.sizeAll (a.lowerExpr needed e) = 1 := by
  cases e with
  | int | float | bool => rw [lowerExpr]; rfl
  | _ => cases literal

theorem Ty.compatible_of_fits {t needed : Ty} (terminal : t.isTerminal = true)
    (fits : if t = .boolean then needed = .boolean else needed = .int ∨ needed = .float) :
    needed.isTerminal = true ∧ t.Compatible needed := by
  rcases Ty.cases_of_terminal terminal with rfl | rfl | rfl
  · rcases (fits : needed = .int ∨ needed = .float) with rfl | rfl <;> decide
  · rcases (fits : needed = .int ∨ needed = .float) with rfl | rfl <;> decide
  · obtain rfl : needed = .boolean := fits
    decide

theorem Ty.encode_truth {t : Ty} (same : t = .boolean) (b : Bool) :
    Ty.encode .boolean (t.convert .boolean (Ty.convert .boolean t b)) = .ofBool b := by
  subst same
  rfl

/-- Of operands without order nothing but their difference is true. -/
theorem BinOp.holds_none {op : BinOp} (known : op.isRelational = true ∨ op.isEquality = true) :
    op.holds none = decide (op = .ne) := by
  cases op <;> first | rfl | simp [isRelational, isEquality] at known

theorem Eval.need_ok {a : Analysis} {σ : Type} {ty needed : Ty} {x : Eval a σ ty.Den}
    {s s' : State a σ} {v : ty.Den} (run : x s = .ok v s') :
    Eval.need needed x s = .ok (ty.convert needed v) s' := by
  show EStateM.bind x _ s = _
  simp only [EStateM.bind, run]
  rfl

theorem Eval.bind_of_ok {a : Analysis} {σ α β : Type} {x : Eval a σ α} {f : α → Eval a σ β}
    {s s' : State a σ} {v : α} (run : x s = .ok v s') : (x >>= f) s = f v s' := by
  show EStateM.bind x f s = _
  simp only [EStateM.bind, run]

/-- If one of the operands is a float, both are compared as floats. -/
theorem Expr.eval_compareFloats {a : Analysis} {σ : Type} {s : State a σ} {k : Node} {op : BinOp}
    {lhs rhs : Expr} {call : (id : SymbolId) → Store a → Eval a σ (Flow (a.symbolType id))}
    (known : op.isRelational = true ∨ op.isEquality = true)
    (isFloat : a.typeOf lhs.id = .float ∨ a.typeOf rhs.id = .float)
    {x : (a.typeOf lhs.id).Den} {y : (a.typeOf rhs.id).Den} (left : lhs.eval call s = .ok x s)
    (right : rhs.eval call s = .ok y s) :
    (Expr.binary k op lhs rhs).eval call s = .ok (Ty.convert .boolean _ (op.holds
      (Ty.order .float ((a.typeOf lhs.id).convert .float x) ((a.typeOf rhs.id).convert .float y))))
        s := by
  have same : a.comparisonType lhs rhs = .float := if_pos (by simpa using isFloat)
  rw [Tracked.eval_comparison known same, Eval.bind_of_ok (Eval.need_ok left),
    Eval.bind_of_ok (Eval.need_ok right)]
  rfl

namespace Program

/-- The code of an expression without calls computes the expression, for every type that a context
may need, wherever it is written, and as soon as the variables and arrays it reads hold values of
their types. A literal that is written in the needed type at once is what comes of writing it in its
own type and converting it. Where an operand of a comparison is a float, both are compared as
floats, and of operands without order nothing but `ne` is true. -/
theorem callFree_computes {source : String} {p : Program} {a : Analysis}
    (parsed : parse source = .ok p) (analyzed : p.analyze = .ok a) {e : Expr} (inside : e ∈ p.exprs)
    (free : e.isCallFree = true) {needed : Ty}
    (fits : if a.typeOf e.id = .boolean then needed = .boolean
      else needed = .int ∨ needed = .float)
    {q : Spot} {s t : Assembly} (code : Emission (Assemble.expr a needed e) q.routine s t)
    {mem : Memory} (keeps : ∀ name ∈ e.names, mem.Keeps a t.places (a.symbolOf name)) {σ : Type}
    (host : Machine.Host σ) (h : σ) (stack : List Value)
    (call : (id : SymbolId) → Store a → Eval a σ (Flow (a.symbolType id))) :
    let state := mem.state a t.places h
    let start := s.draft.code.size
    let stop := t.draft.code.size
    q.Computes host state mem stack start stop (Eval.need needed (e.eval call)) ∧
    (e.literal?.isSome = true → stop = start + 1 ∧ ∀ (q' : Spot) (s' t' : Assembly),
      Emission (do
        Assemble.expr a (a.typeOf e.id) e
        Assemble.cast (a.typeOf e.id) needed) q'.routine s' t' →
      ∃ v, Machine.Reaches host (q.machine start stack mem, h)
          (q.machine stop (v :: stack) mem, h) ∧
        Machine.Reaches host (q'.machine s'.draft.code.size stack mem, h)
          (q'.machine t'.draft.code.size (v :: stack) mem, h)) ∧
    ∀ k op lhs rhs, e = .binary k op lhs rhs → op.isRelational = true ∨ op.isEquality = true →
      a.typeOf lhs.id = .float ∨ a.typeOf rhs.id = .float →
      ∀ x y, lhs.eval call state = .ok x state → rhs.eval call state = .ok y state →
        let order := Ty.order .float ((a.typeOf lhs.id).convert .float x)
          ((a.typeOf rhs.id).convert .float y)
        Machine.Reaches host (q.machine start stack mem, h)
          (q.machine stop (.ofBool (op.holds order) :: stack) mem, h) ∧
        (order = none → op.holds order = decide (op = .ne)) := by
  have formed := parse_wellFormed parsed
  have typed := (analyze_body_typed formed analyzed).exprs e inside
  obtain ⟨here, bound⟩ := (analyze_linked formed analyzed).bound.exprs e inside
  obtain ⟨terminal, compatible⟩ := Ty.compatible_of_fits typed.terminal fits
  obtain ⟨codeAt, size, -⟩ := code.codeAt (Assemble.expr_realizes e needed s)
    (Analysis.lowerExpr_straight e needed free)
  have computes := Expr.computes host call h stack free bound typed keeps compatible terminal codeAt
  rw [← size] at computes
  refine ⟨computes, fun literal => ⟨?_, fun q' s' t' code' => ?_⟩, ?_⟩
  · rw [size, Analysis.sizeAll_literal literal]
  · obtain ⟨unread, v, run⟩ := e.eval_literal call literal
    have straight := Analysis.lowerExpr_straight (a := a) e (a.typeOf e.id) free
    obtain ⟨codeAt', size', -⟩ := code'.codeAt ((Assemble.expr_realizes e (a.typeOf e.id) s').append
      fun _ _ _ _ => Assemble.cast_realizes (a.typeOf e.id) needed) (by
        rw [List.all_append, straight, Analysis.cast_straight]
        rfl)
    have keeps' : ∀ name ∈ e.names, mem.Keeps a t'.places (a.symbolOf name) := by simp [unread]
    have computes' := Expr.computes_cast host call h stack free bound typed keeps' compatible
      terminal codeAt'
    rw [← size'] at computes'
    exact ⟨_, computes.reaches (Eval.need_ok (run _)), computes'.reaches (Eval.need_ok (run _))⟩
  · rintro k op lhs rhs rfl known isFloat x y left right
    have same : a.typeOf (Expr.binary k op lhs rhs).id = .boolean := typed.2.2.comparison known
    obtain rfl : needed = .boolean := (if_pos same).mp fits
    have reaches := computes.reaches
      (Eval.need_ok (Expr.eval_compareFloats (k := k) known isFloat left right))
    rw [Ty.encode_truth same] at reaches
    exact ⟨reaches, fun unordered => by rw [unordered, BinOp.holds_none known]⟩

/-- An element and an integer are compared, after a sum has made a float of the element. -/
def mixed : String :=
  "program p int i; int[2] a; print a[i] + 0.5 < i"

/-- The array has two elements, and the index is that of the second. -/
def mixedMemory : Memory :=
  ⟨#[], (∅ : Std.TreeMap String Value).insert "a$0" (.array 0) |>.insert "i$1" (.int 1),
    #[#[.int 3, .int 4]]⟩

/-- The symbol has its place and its type in `mixedMemory`. -/
def isMixed (a : Analysis) (t : Assembly) (x : SymbolId) : Bool :=
  t.places[x]? = some (.field "a$0") && (Assemble.slotOf a x).toOption = some .intArray ||
    t.places[x]? = some (.field "i$1") && (Assemble.slotOf a x).toOption = some .int

theorem mixedMemory_keeps {a : Analysis} {t : Assembly} {x : SymbolId} (h : isMixed a t x = true) :
    mixedMemory.Keeps a t.places x := by
  simp only [isMixed, Bool.or_eq_true, Bool.and_eq_true, decide_eq_true_eq] at h
  rcases h with ⟨place, slot⟩ | ⟨place, slot⟩
  · refine ⟨_, _, .array 0, place, except_of_toOption slot, rfl, Or.inr ⟨0, _, rfl, rfl, ?_⟩⟩
    simp [mixedMemory, Slot.Single]
  · exact ⟨_, _, .int 1, place, except_of_toOption slot, rfl, 1, rfl⟩

/-- A unit with nothing but its entry. -/
def alone (r : Routine) : Spot :=
  ⟨⟨"", "", #[], r, #[]⟩, r, []⟩

/-- A routine has the code that was written from `s` to `t`. -/
def hasWritten (r : Routine) (s t : Assembly) : Bool :=
  decide (∀ k < t.draft.code.size, s.draft.code.size ≤ k → r.code[k]? = t.draft.code[k]?.map
    (t.draft.patched (t.draft.fixups.toList.drop s.draft.fixups.size) k))

theorem emission_of_hasWritten {x : Assemble Unit} {r : Routine} {s t : Assembly}
    (written : x s = .ok ((), t)) (has : hasWritten r s t = true) : Emission x r s t := by
  refine ⟨written, fun k i low there => ?_⟩
  have inside := (Array.getElem?_eq_some_iff.mp there).1
  rw [of_decide_eq_true has k inside low, there]
  rfl

theorem callFree_computes_mixed : ∃ p a e t r, parse mixed = .ok p ∧ p.analyze = .ok a ∧
    e ∈ p.exprs ∧ e.isCallFree = true ∧ a.typeOf e.id = .boolean ∧ t.draft.finish = .ok r ∧
    Emission (Assemble.expr a .boolean e) r .initial t ∧
    (∀ name ∈ e.names, mixedMemory.Keeps a t.places (a.symbolOf name)) ∧
    ∀ (host : Machine.Host Unit) (call : (id : SymbolId) → Store a → Eval a Unit _),
      (alone r).Computes host (mixedMemory.state a t.places ()) mixedMemory [] 0
        t.draft.code.size (Eval.need .boolean (e.eval call)) := by
  have passes : (do
      let p ← parse mixed
      let a ← p.analyze
      let e ← (p.exprs.getLast?.elim (.error .stackOverflow) .ok : Except Error Expr)
      let written ← Assemble.expr a .boolean e .initial
      let r ← written.2.draft.finish
      if e.isCallFree ∧ a.typeOf e.id = .boolean ∧ hasWritten r .initial written.2 ∧
        ∀ name ∈ e.names, isMixed a written.2 (a.symbolOf name) = true
      then .ok () else .error .stackOverflow : Except Error Unit).isOk = true := by
    decide +kernel
  obtain ⟨⟨⟩, run⟩ := except_of_isOk passes
  obtain ⟨p, parsed, run⟩ := except_bind_ok.mp run
  obtain ⟨a, analyzed, run⟩ := except_bind_ok.mp run
  obtain ⟨e, last, run⟩ := except_bind_ok.mp run
  obtain ⟨⟨⟨⟩, t⟩, written, run⟩ := except_bind_ok.mp run
  obtain ⟨r, finished, run⟩ := except_bind_ok.mp run
  have inside : e ∈ p.exprs := List.mem_of_getLast? (except_of_elim last)
  split at run
  case isFalse => cases run
  case isTrue holds =>
    obtain ⟨free, boolean, has, names⟩ := holds
    have keeps (name : Ident) (mem : name ∈ e.names) := mixedMemory_keeps (names name mem)
    have code : Emission (Assemble.expr a .boolean e) (alone r).routine .initial t :=
      emission_of_hasWritten written has
    refine ⟨p, a, e, t, r, parsed, analyzed, inside, free, boolean, finished, code, keeps,
      fun host call => ?_⟩
    exact (callFree_computes parsed analyzed inside free ((if_pos boolean).mpr rfl) code keeps host
      () [] call).1

end Program

end Guarded
