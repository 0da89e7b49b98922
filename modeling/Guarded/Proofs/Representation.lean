import Guarded.Proofs.Compiled
import Guarded.Proofs.Evaluation
import Guarded.Proofs.Run

/-!
How the machine holds what a program computes. Booleans are the integers zero and one, an array is
its handle on the heap, and each variable is in its slot or field. The arrays of the machine's heap
are those of the evaluator, in the same order.
-/

namespace Guarded

namespace Ty

/-- A value as the machine has it. -/
def encode : (ty : Ty) → ty.Den → Value
  | int, v => .int v
  | float, v => .float v
  | boolean, b => .ofBool b
  | undefined, _ | num, _ => .null

/-- A value that is converted to its own type stays as it is. -/
theorem convert_self (ty : Ty) (v : ty.Den) : ty.convert ty v = v := by
  cases ty <;> rfl

theorem encode_convert {s t : Ty} (same : s = t) (v : s.Den) :
    t.encode (s.convert t v) = s.encode v := by
  subst same
  rw [convert_self]

end Ty

/-- A reference to an array as the machine has it. -/
def encodeHandle : Option Nat → Value
  | some h => .array h
  | none => .null

/-- What the machine has for a variable or an array. -/
def Store.datum {a : Analysis} (s : Store a) (x : SymbolId) : Value :=
  if a.symbolKind x = .array then encodeHandle (s.arrays x) else (a.symbolType x).encode (s.vars x)

def Block.encode (b : Block) : Array Value :=
  b.items.map b.ty.encode

/-- A handle stands for an array with elements of a type. -/
def Points (heap : Array Block) (ty : Ty) (h : Nat) : Prop :=
  ∃ b, heap[h]? = some b ∧ b.ty = ty

/-- Whatever a handle stands for, it goes on to stand for. -/
def Extends (heap heap' : Array Block) : Prop :=
  ∀ ty h, Points heap ty h → Points heap' ty h

theorem Extends.refl (heap : Array Block) : Extends heap heap :=
  fun _ _ points => points

theorem Extends.trans {p q r : Array Block} (first : Extends p q) (second : Extends q r) :
    Extends p r :=
  fun ty h points => second ty h (first ty h points)

theorem Extends.push (heap : Array Block) (b : Block) : Extends heap (heap.push b) := by
  rintro ty h ⟨b', found, same⟩
  refine ⟨b', ?_, same⟩
  rw [Array.getElem?_push, if_neg]
  · exact found
  · rintro rfl
    simp at found

theorem Extends.set {heap : Array Block} {ty : Ty} {k : Nat} (points : Points heap ty k)
    (items : Array ty.Den) : Extends heap (heap.setIfInBounds k ⟨ty, items⟩) := by
  rintro ty' h ⟨b, found, same⟩
  obtain ⟨b', found', same'⟩ := points
  by_cases here : k = h
  · subst here
    obtain rfl := Option.some.inj (found.symm.trans found')
    refine ⟨⟨ty, items⟩, ?_, same'.symm.trans same⟩
    simp [(Array.getElem?_eq_some_iff.mp found).1]
  · exact ⟨b, by rw [Array.getElem?_setIfInBounds_ne here, found], same⟩

/-- The arrays of a store are on the heap. -/
def Store.Sound {a : Analysis} (s : Store a) (heap : Array Block) : Prop :=
  ∀ (x : SymbolId) (h : Nat), s.arrays x = some h → Points heap (a.symbolType x) h

theorem Store.Sound.mono {a : Analysis} {s : Store a} {heap heap' : Array Block}
    (sound : s.Sound heap) (ext : Extends heap heap') : s.Sound heap' :=
  fun x h found => ext _ _ (sound x h found)

/-- What a machine keeps outside its stack, apart from activations that wait. -/
structure Memory where
  locals : Array Value
  globals : Std.TreeMap String Value
  heap : Array (Array Value)

/-- The memory of an activation of the method `here` holds the state of an evaluation. -/
structure Shows {σ : Type} (a : Analysis) (places : Places) (here : Option SymbolId)
    (s : State a σ) (mem : Memory) : Prop where
  globals : ∀ (x : SymbolId) (f : String), places[x]? = some (.field f) →
    mem.globals[f]? = some (s.globals.datum x)
  locals : ∀ (x m : SymbolId) (n : Nat), here = some m → a.ownerOf x = some m →
    places[x]? = some (.slot n) → mem.locals[n]? = some (s.locals.datum x)
  heap : mem.heap = s.heap.map Block.encode
  globalArrays : s.globals.Sound s.heap
  localArrays : s.locals.Sound s.heap

/-- A routine that is running, and the activations that wait for it. -/
structure Spot where
  unit : ObjectUnit
  routine : Routine
  frames : List Frame

/-- The machine at an instruction of the running routine. -/
def Spot.machine (q : Spot) (pc : Nat) (stack : List Value) (mem : Memory) : Machine :=
  ⟨q.unit, ⟨q.routine, pc, mem.locals⟩ :: q.frames, stack, mem.globals, mem.heap⟩

/-- Instructions that neither call a routine nor ask for anything. -/
def Instr.isPlain : Instr → Bool
  | .invoke _ | .service _ => false
  | _ => true

namespace Spot
variable {σ : Type} {host : Machine.Host σ} {q : Spot} {pc : Nat} {stack : List Value}
variable {mem : Memory} {i : Instr} {s : σ} {m : Machine}

theorem not_calls (found : q.routine.code[pc]? = some i) (noCall : ∀ name, i ≠ .invoke name)
    {r : Routine} : ¬ (q.machine pc stack mem).Calls r := by
  rintro ⟨f, frames, name, eq, calls, -⟩
  obtain ⟨rfl, rfl⟩ := List.cons.inj eq
  exact noCall name (Option.some.inj (found.symm.trans calls))

theorem advance_instr (found : q.routine.code[pc]? = some i)
    (noService : ∀ service, i ≠ .service service)
    (run : Exec.instr i (q.machine (pc + 1) stack mem) = .ok ((), m)) :
    Machine.advance host (q.machine pc stack mem, s) = .inl (m, s) := by
  have step : (q.machine pc stack mem).step = .next m := by
    unfold Machine.step
    simp only [machine, found]
    cases i with
    | service service => exact absurd rfl (noService service)
    | _ =>
      have run := run
      simp only [machine] at run
      simp only [run]
  simp [Machine.advance, step]

/-- An instruction is carried out. -/
theorem reaches_instr (found : q.routine.code[pc]? = some i) (plain : i.isPlain = true)
    (run : Exec.instr i (q.machine (pc + 1) stack mem) = .ok ((), m))
    (level : m.depth = q.frames.length + 1) :
    Machine.Reaches host (q.machine pc stack mem, s) (m, s) := by
  refine .of_step (advance_instr found ?_ run) (fun r => not_calls found ?_) level
  · rintro service rfl
    cases plain
  · rintro name rfl
    cases plain

theorem advance_fails {e : Error} (found : q.routine.code[pc]? = some i)
    (noService : ∀ service, i ≠ .service service)
    (run : Exec.instr i (q.machine (pc + 1) stack mem) = .error e) :
    Machine.advance host (q.machine pc stack mem, s) = .inr (.error e s) := by
  have step : (q.machine pc stack mem).step = .fail e := by
    unfold Machine.step
    simp only [machine, found]
    cases i with
    | service service => exact absurd rfl (noService service)
    | _ =>
      have run := run
      simp only [machine] at run
      simp only [run]
  simp [Machine.advance, step]

/-- An instruction fails. -/
theorem ends_instr {e : Error} (found : q.routine.code[pc]? = some i) (plain : i.isPlain = true)
    (run : Exec.instr i (q.machine (pc + 1) stack mem) = .error e) :
    Machine.Ends host (q.machine pc stack mem, s) (.error e s) := by
  refine ⟨0, _, .refl _, advance_fails found ?_ run⟩
  rintro service rfl
  cases plain

theorem advance_service {service : Service} {r : Request}
    (found : q.routine.code[pc]? = some (.service service))
    (run : Exec.request service (q.machine (pc + 1) stack mem) = .ok (r, m)) :
    Machine.advance host (q.machine pc stack mem, s) = match host r s with
      | .ok reply s' => .inl (m.resume r reply, s')
      | .error e s' => .inr (.error e s') := by
  have step : (q.machine pc stack mem).step = .ask r m := by
    unfold Machine.step
    simp only [machine, found]
    have run := run
    simp only [machine] at run
    simp only [run]
  cases answer : host r s <;> simp only [Machine.advance, step, answer]

/-- A branch goes to its target or to the next instruction. -/
theorem instr_branch (q : Spot) (pc : Nat) (stack : List Value) (mem : Memory) (cond : Cond)
    (target : Nat) (v : Int32) :
    Exec.instr (.branch cond target) (q.machine pc (.int v :: stack) mem) =
      .ok ((), q.machine (if cond.holds (compare v.toInt 0) then target else pc) stack mem) := by
  show (if cond.holds (compare v.toInt 0) then Exec.jump target else pure () : Exec Unit)
    (q.machine pc stack mem) = _
  cases cond.holds (compare v.toInt 0) <;> rfl

theorem instr_branchCompare (q : Spot) (pc : Nat) (stack : List Value) (mem : Memory) (cond : Cond)
    (target : Nat) (v w : Int32) :
    Exec.instr (.branchCompare cond target) (q.machine pc (.int w :: .int v :: stack) mem) =
      .ok ((), q.machine (if cond.holds (compare v.toInt w.toInt) then target else pc) stack
        mem) := by
  show (if cond.holds (compare v.toInt w.toInt) then Exec.jump target else pure () : Exec Unit)
    (q.machine pc stack mem) = _
  cases cond.holds (compare v.toInt w.toInt) <;> rfl

theorem advance_refused {service : Service} {e : Error}
    (found : q.routine.code[pc]? = some (.service service))
    (run : Exec.request service (q.machine (pc + 1) stack mem) = .error e) :
    Machine.advance host (q.machine pc stack mem, s) = .inr (.error e s) := by
  have step : (q.machine pc stack mem).step = .fail e := by
    unfold Machine.step
    simp only [machine, found]
    have run := run
    simp only [machine] at run
    simp only [run]
  simp [Machine.advance, step]

end Spot

/-- An error that the surroundings may answer with. -/
def Machine.Host.Refuses {σ : Type} (host : Machine.Host σ) (e : Error) : Prop :=
  ∃ r h h', host r h = .error e h'

/-- A run of the machine follows an evaluation. If the evaluation gives a value, the run comes to a
configuration that fits; if it fails, the run ends with the same error; and if it is out of fuel, the
run takes at least `n` steps. -/
def Follows {a : Analysis} {σ α : Type} (host : Machine.Host σ) (n : Nat) (m : Machine)
    (s : State a σ) (x : Eval a σ α) (post : α → State a σ → Machine → Prop) : Prop :=
  match x s with
  | .ok v s' => ∃ m', Machine.Reaches host (m, s.host) (m', s'.host) ∧ post v s' m'
  | .error .outOfFuel _ => Machine.Lasts host n (m, s.host)
  | .error (.trap t) s' => Machine.Ends host (m, s.host) (.error t.error s'.host)
  | .error (.refused e) s' =>
    Machine.Ends host (m, s.host) (.error e s'.host) ∧ Machine.Host.Refuses host e

namespace Follows
variable {a : Analysis} {σ α β : Type} {host : Machine.Host σ} {n k : Nat} {m m' : Machine}
variable {s s' : State a σ} {x : Eval a σ α} {f : α → Eval a σ β}
variable {post post' : α → State a σ → Machine → Prop} {post₂ : β → State a σ → Machine → Prop}

theorem pure {v : α} (holds : post v s m) : Follows host n m s (pure v) post :=
  ⟨m, .refl _, holds⟩

/-- What is shown of one run is shown of another by showing it for each way the run may go. -/
theorem transport (h : Follows host n m s x post)
    (value : ∀ v s' m₁, Machine.Reaches host (m, s.host) (m₁, s'.host) → post v s' m₁ →
      ∃ m₂, Machine.Reaches host (m', s.host) (m₂, s'.host) ∧ post' v s' m₂)
    (lasts : Machine.Lasts host n (m, s.host) → Machine.Lasts host k (m', s.host))
    (ends : ∀ r, Machine.Ends host (m, s.host) r → Machine.Ends host (m', s.host) r) :
    Follows host k m' s x post' := by
  unfold Follows at h ⊢
  cases done : x s with
  | ok v s' =>
    rw [done] at h
    obtain ⟨m₁, reaches, holds⟩ := h
    exact value v s' m₁ reaches holds
  | error e s' =>
    rw [done] at h
    cases e with
    | outOfFuel => exact lasts h
    | trap t => exact ends _ h
    | refused e => exact ⟨ends _ h.1, h.2⟩

theorem imp (h : Follows host n m s x post) (weaker : ∀ v s' m', post v s' m' → post' v s' m') :
    Follows host n m s x post' :=
  h.transport (fun v s' m₁ reaches holds => ⟨m₁, reaches, weaker v s' m₁ holds⟩) (fun h => h)
    fun _ h => h

theorem mono (h : Follows host n m s x post) (le : k ≤ n) : Follows host k m s x post :=
  h.transport (fun _ _ m₁ reaches holds => ⟨m₁, reaches, holds⟩) (fun h => h.mono le) fun _ h => h

/-- Steps of the machine before the evaluation begins. -/
theorem after (reaches : Machine.Reaches host (m, s.host) (m', s.host))
    (h : Follows host n m' s x post) : Follows host n m s x post :=
  h.transport (fun _ _ m₁ reaches' holds => ⟨m₁, reaches.trans reaches', holds⟩) reaches.lasts
    fun _ => reaches.ends

theorem bind (first : Follows host n m s x post)
    (second : ∀ v s' m', post v s' m' → Follows host n m' s' (f v) post₂) :
    Follows host n m s (x >>= f) post₂ := by
  have opened : (x >>= f) s = match x s with
      | .ok v s' => f v s'
      | .error e s' => .error e s' := by
    show EStateM.bind x f s = _
    unfold EStateM.bind
    cases x s <;> rfl
  unfold Follows at first ⊢
  rw [opened]
  cases done : x s with
  | ok v s' =>
    rw [done] at first
    obtain ⟨m', reaches, holds⟩ := first
    have rest := second v s' m' holds
    unfold Follows at rest
    dsimp only
    cases done' : f v s' with
    | ok w s'' =>
      rw [done'] at rest
      obtain ⟨m'', reaches', holds'⟩ := rest
      exact ⟨m'', reaches.trans reaches', holds'⟩
    | error e s'' =>
      rw [done'] at rest
      cases e with
      | outOfFuel => exact reaches.lasts rest
      | trap t => exact reaches.ends rest
      | refused e => exact ⟨reaches.ends rest.1, rest.2⟩
  | error e s' =>
    rw [done] at first
    cases e <;> exact first

/-- A request of the machine and the same request of the evaluation. -/
theorem ask {q : Spot} {pc : Nat} {stack : List Value} {mem : Memory} {service : Service}
    {r : Request} {m₁ : Machine} (found : q.routine.code[pc]? = some (.service service))
    (run : Exec.request service (q.machine (pc + 1) stack mem) = .ok (r, m₁))
    (level : ∀ reply, (m₁.resume r reply).depth = q.frames.length + 1) :
    Follows host n (q.machine pc stack mem) s (Eval.ask host r) fun reply s' m' =>
      m' = m₁.resume r reply ∧ ∃ h, s' = { s with host := h } := by
  have next : Machine.advance host (q.machine pc stack mem, s.host) = _ :=
    Spot.advance_service found run
  unfold Follows Eval.ask
  cases answer : host r s.host with
  | ok reply h =>
    rw [answer] at next
    refine ⟨_, .of_step next (fun _ => Spot.not_calls found (by nofun)) (level reply), rfl, h, rfl⟩
  | error e h =>
    rw [answer] at next
    exact ⟨⟨0, _, .refl _, next⟩, r, s.host, h, answer⟩

/-- A change of state that the machine has made already. -/
theorem changed {g : State a σ → State a σ} {post : PUnit → State a σ → Machine → Prop}
    (same : (g s).host = s.host) (holds : post ⟨⟩ (g s) m) :
    Follows host n m s (modify g) post :=
  ⟨m, by rw [same]; exact .refl _, holds⟩

/-- A fault of the machine and the same fault of the evaluation. -/
theorem trap {t : Trap} (ends : Machine.Ends host (m, s.host) (.error t.error s.host)) :
    Follows host n m s (Eval.trap t) post :=
  ends

end Follows

theorem Assemble.loadInstr_slot (n : Nat) (slot : Slot) :
    Exec.instr (Assemble.loadInstr (.slot n) slot) = Exec.loadLocal n ∧
      (Assemble.loadInstr (.slot n) slot).isPlain = true := by
  cases slot <;> exact ⟨rfl, rfl⟩

theorem Assemble.storeInstr_slot (n : Nat) (slot : Slot) :
    Exec.instr (Assemble.storeInstr (.slot n) slot) =
        (do Exec.storeLocal n (← Exec.pop)) ∧
      (Assemble.storeInstr (.slot n) slot).isPlain = true := by
  cases slot <;> exact ⟨rfl, rfl⟩

@[simp]
theorem State.setStore_host {a : Analysis} {σ : Type} (s : State a σ) (x : SymbolId)
    (store : Store a) : (s.setStore x store).host = s.host := by
  unfold State.setStore
  split <;> rfl

@[simp]
theorem State.setStore_heap {a : Analysis} {σ : Type} (s : State a σ) (x : SymbolId)
    (store : Store a) : (s.setStore x store).heap = s.heap := by
  unfold State.setStore
  split <;> rfl

section Access
variable {σ : Type} {host : Machine.Host σ} {p : Program} {a : Analysis} {places : Places}
variable {u : ObjectUnit} {here : Option SymbolId} {s : State a σ} {mem : Memory} {q : Spot}
variable {pos : Nat} {stack : List Value} {h : σ} {x : SymbolId}

theorem State.store_of_global (s : State a σ) (isGlobal : a.ownerOf x = none) :
    s.store x = s.globals := by
  simp [State.store, isGlobal]

theorem State.store_of_local (s : State a σ) {m : SymbolId} (own : a.ownerOf x = some m) :
    s.store x = s.locals := by
  simp [State.store, own]

/-- The arrays of a state are on its heap. -/
theorem Shows.sound (shows : Shows a places here s mem) (x : SymbolId) :
    (s.store x).Sound s.heap := by
  unfold State.store
  split
  · exact shows.globalArrays
  · exact shows.localArrays

theorem Exec.loadGlobal_ok {m : Machine} {field : String} {v : Value}
    (found : m.globals[field]? = some v) :
    Exec.loadGlobal field m = .ok ((), { m with stack := v :: m.stack }) := by
  simp only [Exec.loadGlobal, bind, StateT.bind, get, getThe, MonadStateOf.get, StateT.get, pure,
    Except.pure, Except.bind, found]
  rfl

theorem Exec.loadLocal_ok {m : Machine} {f : Frame} {frames : List Frame} {slot : Nat} {v : Value}
    (running : m.frames = f :: frames) (found : f.locals[slot]? = some v) :
    Exec.loadLocal slot m = .ok ((), { m with stack := v :: m.stack }) := by
  have active : Exec.frame m = .ok (f, m) := by
    simp only [Exec.frame, bind, StateT.bind, get, getThe, MonadStateOf.get, StateT.get, pure,
      Except.pure, Except.bind, running]
    rfl
  simp only [Exec.loadLocal, bind, StateT.bind, Except.bind, active, found]
  rfl

theorem Exec.storeGlobal_ok {m : Machine} {field : String} {v w : Value}
    (found : m.globals[field]? = some w) :
    Exec.storeGlobal field v m = .ok ((), { m with globals := m.globals.insert field v }) := by
  have there : m.globals.contains field = true := by
    rw [Std.TreeMap.contains_eq_isSome_getElem?, found]
    rfl
  show (if m.globals.contains field then set _ else throw _ : Exec Unit) m = _
  rw [if_pos there]
  rfl

theorem Exec.storeLocal_ok {m : Machine} {f : Frame} {frames : List Frame} {slot : Nat} {v : Value}
    (running : m.frames = f :: frames) (low : slot < f.locals.size) :
    Exec.storeLocal slot v m = .ok ((), { m with
      frames := { f with locals := f.locals.setIfInBounds slot v } :: frames }) := by
  simp only [Exec.storeLocal, bind, StateT.bind, get, getThe, MonadStateOf.get, StateT.get, pure,
    Except.pure, Except.bind, running, if_pos low]
  rfl

/-- A variable or an array is read. -/
theorem Shows.load (shows : Shows a places here s mem) (compiled : p.Compiled a places u)
    (storable : a.Storable x) (inScope : a.ownerOf x = none ∨ a.ownerOf x = here)
    (code : Op.CodeAt a places q.routine.code pos [.load x]) :
    Machine.Reaches host (q.machine pos stack mem, h)
      (q.machine (pos + 1) ((s.store x).datum x :: stack) mem, h) := by
  obtain ⟨i, found, place, slot, known, -, rfl⟩ := code.1 rfl
  rcases compiled.place storable known with ⟨isGlobal, f, rfl⟩ | ⟨m, n, own, rfl⟩
  · refine Spot.reaches_instr found rfl ?_ rfl
    rw [State.store_of_global s isGlobal]
    exact Exec.loadGlobal_ok (shows.globals x f known)
  · have inside := Analysis.here_of_ownerOf inScope own
    have loads := Assemble.loadInstr_slot n slot
    refine Spot.reaches_instr found loads.2 ?_ rfl
    rw [loads.1, State.store_of_local s own]
    exact Exec.loadLocal_ok rfl (shows.locals x m n inside own known)

/-- A field is written, which holds one global alone. -/
theorem Shows.setGlobal (shows : Shows a places here s mem) {f : String}
    (known : places[x]? = some (.field f))
    (only : ∀ (y : SymbolId), places[y]? = some (.field f) → y = x) {store : Store a}
    (others : ∀ (y : SymbolId), y ≠ x → store.datum y = s.globals.datum y)
    (sound : store.Sound s.heap) :
    Shows a places here { s with globals := store }
      { mem with globals := mem.globals.insert f (store.datum x) } := by
  refine ⟨fun y g known' => ?_, shows.locals, shows.heap, sound, shows.localArrays⟩
  rw [Std.TreeMap.getElem?_insert]
  simp only [Std.compare_eq_iff_eq]
  split
  · rename_i same
    subst same
    rw [only y known']
  · rename_i different
    rw [shows.globals y g known', others y]
    rintro rfl
    rw [known] at known'
    simp at known'
    exact different known'

/-- A slot is written, which holds one local of the method alone. -/
theorem Shows.setLocal {syms : List SymbolId} (shows : Shows a places here s mem)
    (slots : Places.Slots a places here syms) {m : SymbolId} {n : Nat} (inside : here = some m)
    (own : a.ownerOf x = some m) (known : places[x]? = some (.slot n)) {store : Store a}
    (others : ∀ (y : SymbolId), y ≠ x → store.datum y = s.locals.datum y)
    (sound : store.Sound s.heap) :
    Shows a places here { s with locals := store }
      { mem with locals := mem.locals.setIfInBounds n (store.datum x) } := by
  refine ⟨shows.globals, fun y m' k inside' own' known' => ?_, shows.heap, shows.globalArrays,
    sound⟩
  obtain rfl := Option.some.inj (inside.symm.trans inside')
  rw [Array.getElem?_setIfInBounds]
  split
  · rename_i same
    subst same
    have left := (slots n x).mpr ⟨known, m, inside, own⟩
    have right := (slots n y).mpr ⟨known', m, inside, own'⟩
    obtain rfl := Option.some.inj (left.symm.trans right)
    simp [(Array.getElem?_eq_some_iff.mp (shows.locals x m n inside own known)).1]
  · rename_i different
    rw [shows.locals y m k inside own' known', others y]
    rintro rfl
    rw [known] at known'
    simp at known'
    exact different known'

/-- A variable or an array is written: its store changes for it alone. -/
theorem Shows.store {syms : List SymbolId} (shows : Shows a places here s mem)
    (compiled : p.Compiled a places u) (slots : Places.Slots a places here syms)
    (storable : a.Storable x) (inScope : a.ownerOf x = none ∨ a.ownerOf x = here)
    (code : Op.CodeAt a places q.routine.code pos [.store x]) {store : Store a}
    (others : ∀ (y : SymbolId), y ≠ x → store.datum y = (s.store x).datum y)
    (sound : store.Sound s.heap) :
    ∃ mem', Machine.Reaches host (q.machine pos (store.datum x :: stack) mem, h)
      (q.machine (pos + 1) stack mem', h) ∧ Shows a places here (s.setStore x store) mem' := by
  obtain ⟨i, found, place, slot, known, -, rfl⟩ := code.1 rfl
  rcases compiled.place storable known with ⟨isGlobal, f, rfl⟩ | ⟨m, n, own, rfl⟩
  · rw [State.store_of_global s isGlobal] at others
    have changed : s.setStore x store = { s with globals := store } := by
      simp [State.setStore, isGlobal]
    rw [changed]
    refine ⟨_, Spot.reaches_instr found rfl ?_ rfl,
      shows.setGlobal known (compiled.fields x f known).2.2 others sound⟩
    exact Exec.storeGlobal_ok (m := q.machine (pos + 1) stack mem) (shows.globals x f known)
  · have inside := Analysis.here_of_ownerOf inScope own
    rw [State.store_of_local s own] at others
    have changed : s.setStore x store = { s with locals := store } := by
      simp [State.setStore, own]
    have stores := Assemble.storeInstr_slot n slot
    rw [changed]
    refine ⟨_, Spot.reaches_instr found stores.2 ?_ rfl,
      shows.setLocal slots inside own known others sound⟩
    rw [stores.1]
    exact Exec.storeLocal_ok (m := q.machine (pos + 1) stack mem) rfl
      (Array.getElem?_eq_some_iff.mp (shows.locals x m n inside own known)).1

/-- The machine has the elements that the evaluator has. -/
theorem State.encode_items {ty : Ty} {handle : Nat} (points : Points s.heap ty handle) :
    (s.heap.map Block.encode)[handle]? = some ((s.items ty handle).map ty.encode) := by
  obtain ⟨b, found, rfl⟩ := points
  simp [State.items, found, Block.view, Block.encode]

theorem State.encode_set {ty : Ty} {k : Nat} (points : Points s.heap ty k) (j : Nat) (v : ty.Den) :
    (s.heap.map Block.encode).modify k (fun items => items.setIfInBounds j (ty.encode v)) =
      (s.heap.setIfInBounds k ⟨ty, (s.items ty k).setIfInBounds j v⟩).map Block.encode := by
  refine Array.ext_getElem? fun i => ?_
  have before := State.encode_items points
  rw [Array.getElem?_modify]
  conv_rhs => rw [Array.getElem?_map, Array.getElem?_setIfInBounds]
  split
  · rename_i same
    subst same
    have low : k < s.heap.size := by
      obtain ⟨b, found, -⟩ := points
      exact (Array.getElem?_eq_some_iff.mp found).1
    rw [before, if_pos low]
    simp [Block.encode, Array.map_setIfInBounds]
  · rw [Array.getElem?_map]

theorem Exec.element_eq (m : Machine) (i : Int32) (handle : Option Nat)
    (top : m.stack = .int i :: encodeHandle handle :: stack) :
    Exec.element m = match handle with
      | none => .error .nullArray
      | some h =>
        let length := (m.heap[h]?.map Array.size).getD 0
        if 0 ≤ i && i.toInt.toNat < length then
          .ok ((h, i.toInt.toNat), { m with stack })
        else .error (.indexOutOfBounds i length) := by
  obtain ⟨unit, frames, stack', globals, heap⟩ := m
  obtain rfl : stack' = _ := top
  cases handle with
  | none => rfl
  | some h =>
    show (if 0 ≤ i && i.toInt.toNat < (heap[h]?.map Array.size).getD 0 then Pure.pure _
      else throw _ : Exec (Nat × Nat)) _ = _
    dsimp only
    split <;> rfl

theorem Eval.locate_eq (ty : Ty) (handle : Option Nat) (i : Int32) (s : State a σ) :
    Eval.locate ty handle i s = match handle with
      | none => .error (.trap .nullArray) s
      | some h =>
        let length := (s.items ty h).size
        if 0 ≤ i && i.toInt.toNat < length then .ok (h, i.toInt.toNat) s
        else .error (.trap (.indexOutOfBounds i length)) s := by
  cases handle with
  | none => rfl
  | some h =>
    show (if 0 ≤ i && i.toInt.toNat < (s.items ty h).size then Pure.pure _
      else Eval.trap _ : Eval a σ (Nat × Nat)) s = _
    dsimp only
    split <;> rfl

variable {n : Nat} {ty : Ty} {handle : Option Nat} {index : Int32}

/-- A reference of the evaluator and one of the machine are to the same elements. -/
def Refers (s : State a σ) (heap : Array (Array Value)) (ty : Ty) (handle handle' : Option Nat) :
    Prop :=
  handle = none ∧ handle' = none ∨ ∃ k k', handle = some k ∧ handle' = some k' ∧
    heap[k']? = some ((s.items ty k).map ty.encode)

theorem Shows.refers (shows : Shows a places here s mem)
    (points : ∀ k, handle = some k → Points s.heap ty k) :
    Refers s mem.heap ty handle handle := by
  cases handle with
  | none => exact Or.inl ⟨rfl, rfl⟩
  | some k =>
    refine Or.inr ⟨k, k, rfl, rfl, ?_⟩
    rw [shows.heap, State.encode_items (points k rfl)]

/-- The machine and the evaluator find the same element, or fail in the same way. -/
theorem Refers.locate {heap : Array (Array Value)} {handle' : Option Nat}
    (refers : Refers s heap ty handle handle') {m : Machine} (same : m.heap = heap)
    (top : m.stack = .int index :: encodeHandle handle' :: stack) :
    (∃ t : Trap, Exec.element m = .error t.error ∧
      Eval.locate ty handle index s = .error (.trap t) s) ∨
    ∃ k k' j, handle = some k ∧ handle' = some k' ∧ j < (s.items ty k).size ∧
      heap[k']? = some ((s.items ty k).map ty.encode) ∧
      Exec.element m = .ok ((k', j), { m with stack }) ∧
      Eval.locate ty handle index s = .ok (k, j) s := by
  rw [Exec.element_eq m index handle' top, Eval.locate_eq]
  rcases refers with ⟨rfl, rfl⟩ | ⟨k, k', rfl, rfl, found⟩
  · exact Or.inl ⟨.nullArray, rfl, rfl⟩
  · have length : (m.heap[k']?.map Array.size).getD 0 = (s.items ty k).size := by
      simp [same, found]
    dsimp only
    rw [length]
    split
    · rename_i inside
      simp only [Bool.and_eq_true, decide_eq_true_eq] at inside
      exact Or.inr ⟨k, k', _, rfl, rfl, inside.2, found, rfl, rfl⟩
    · exact Or.inl ⟨.indexOutOfBounds .., rfl, rfl⟩

theorem Exec.instr_getElement {i : Instr} (loads : i = .iaload ∨ i = .faload) (m : Machine) :
    Exec.instr i m = (Exec.element m).bind fun r => .ok ((), { r.2 with
      stack := (r.2.heap[r.1.1]?.bind fun items => items[r.1.2]?).getD .null :: r.2.stack }) := by
  rcases loads with rfl | rfl <;> rfl

theorem Exec.instr_putElement {i : Instr} (stores : i = .iastore ∨ i = .fastore) {m : Machine}
    {v : Value} {rest : List Value} (top : m.stack = v :: rest) :
    Exec.instr i m = (Exec.element { m with stack := rest }).bind fun r => .ok ((), { r.2 with
      heap := r.2.heap.modify r.1.1 fun items => items.setIfInBounds r.1.2 v }) := by
  obtain ⟨unit, frames, stack', globals, heap⟩ := m
  obtain rfl : stack' = _ := top
  rcases stores with rfl | rfl <;> rfl

theorem Spot.instr_newarray (q : Spot) (pc : Nat) (stack : List Value) (mem : Memory) (e : Elem)
    (size : Int32) :
    Exec.instr (.newarray e) (q.machine pc (.int size :: stack) mem) =
      if size < 0 then .error (.negativeArraySize size)
      else .ok ((), q.machine pc (.array mem.heap.size :: stack) { mem with
        heap := mem.heap.push (Array.replicate size.toInt.toNat (Value.zeroElem e)) }) := by
  show (if size < 0 then throw _ else do
    let m ← get
    set { m with heap := m.heap.push (Array.replicate size.toInt.toNat (Value.zeroElem e)) }
    Exec.push (.array m.heap.size) : Exec Unit) (q.machine pc stack mem) = _
  split <;> rfl

/-- An element is read. -/
theorem Refers.readElement {handle' : Option Nat} (refers : Refers s mem.heap ty handle handle')
    {i : Instr} (found : q.routine.code[pos]? = some i) (loads : i = .iaload ∨ i = .faload) :
    Follows host n (q.machine pos (.int index :: encodeHandle handle' :: stack) mem) s
      (Eval.readElement ty handle index) fun v s' m' =>
        s' = s ∧ m' = q.machine (pos + 1) (ty.encode v :: stack) mem := by
  have plain : i.isPlain = true := by rcases loads with rfl | rfl <;> rfl
  have evaluated : Eval.readElement ty handle index s = match Eval.locate ty handle index s with
      | .ok r s => .ok ((s.items ty r.1)[r.2]?.getD ty.zero) s
      | .error e s => .error e s := by
    show EStateM.bind (Eval.locate ty handle index) _ s = _
    unfold EStateM.bind
    cases Eval.locate ty handle index s <;> rfl
  unfold Follows
  rw [evaluated]
  rcases refers.locate (m := q.machine (pos + 1) (.int index :: encodeHandle handle' :: stack) mem)
    rfl rfl with ⟨t, fails, traps⟩ | ⟨k, k', j, rfl, rfl, low, there, finds, located⟩
  · rw [traps]
    refine Spot.ends_instr found plain ?_
    rw [Exec.instr_getElement loads, fails]
    rfl
  · rw [located]
    refine ⟨_, Spot.reaches_instr found plain ?_ rfl, rfl, rfl⟩
    have value : (mem.heap[k']?.bind fun items => items[j]?).getD .null =
        ty.encode ((s.items ty k)[j]?.getD ty.zero) := by
      simp [there, low]
    rw [Exec.instr_getElement loads, finds, ← value]
    rfl

/-- An element is written. -/
theorem Shows.writeElement (shows : Shows a places here s mem) {i : Instr} {v : ty.Den}
    (points : ∀ k, handle = some k → Points s.heap ty k)
    (found : q.routine.code[pos]? = some i) (stores : i = .iastore ∨ i = .fastore) :
    Follows host n (q.machine pos (ty.encode v :: .int index :: encodeHandle handle :: stack) mem) s
      (Eval.writeElement ty handle index v) fun _ s' m' =>
        ∃ mem', m' = q.machine (pos + 1) stack mem' ∧ Shows a places here s' mem' ∧
          Extends s.heap s'.heap := by
  have plain : i.isPlain = true := by rcases stores with rfl | rfl <;> rfl
  have evaluated : Eval.writeElement ty handle index v s = match Eval.locate ty handle index s with
      | .ok r s => .ok () { s with
          heap := s.heap.setIfInBounds r.1 ⟨ty, (s.items ty r.1).setIfInBounds r.2 v⟩ }
      | .error e s => .error e s := by
    show EStateM.bind (Eval.locate ty handle index) _ s = _
    unfold EStateM.bind
    cases Eval.locate ty handle index s <;> rfl
  unfold Follows
  rw [evaluated]
  rcases (shows.refers points).locate (m := q.machine (pos + 1)
    (.int index :: encodeHandle handle :: stack) mem) rfl rfl with
    ⟨t, fails, traps⟩ | ⟨k, k', j, rfl, same, low, -, finds, located⟩
  · rw [traps]
    refine Spot.ends_instr found plain ?_
    rw [Exec.instr_putElement stores rfl]
    exact congrArg (Except.bind · _) fails
  · obtain rfl := Option.some.inj same
    rw [located]
    have later := Extends.set (points k rfl) ((s.items ty k).setIfInBounds j v)
    refine ⟨_, Spot.reaches_instr found plain ?_ rfl, ⟨mem.locals, mem.globals,
      mem.heap.modify k fun items => items.setIfInBounds j (ty.encode v)⟩, rfl, ?_, later⟩
    · rw [Exec.instr_putElement stores rfl]
      exact congrArg (Except.bind · _) finds
    · refine ⟨shows.globals, shows.locals, ?_, shows.globalArrays.mono later,
        shows.localArrays.mono later⟩
      rw [shows.heap, State.encode_set (points k rfl)]

/-- An array is made and kept. -/
theorem Shows.newArray {syms : List SymbolId} (shows : Shows a places here s mem)
    (compiled : p.Compiled a places u) (slots : Places.Slots a places here syms)
    (storable : a.Storable x) (isArray : a.symbolKind x = .array)
    (inScope : a.ownerOf x = none ∨ a.ownerOf x = here) {e : Elem}
    (elem : Value.zeroElem e = (a.symbolType x).encode (a.symbolType x).zero)
    (code : Op.CodeAt a places q.routine.code pos [.instr (.newarray e), .store x]) (size : Int32) :
    Follows host n (q.machine pos (.int size :: stack) mem) s (Eval.newArray x size)
      fun _ s' m' => ∃ mem', m' = q.machine (pos + 2) stack mem' ∧ Shows a places here s' mem' ∧
        Extends s.heap s'.heap := by
  obtain ⟨i, found, same⟩ := code.1 rfl
  obtain rfl : i = .newarray e := same
  have run := q.instr_newarray (pos + 1) stack mem e size
  by_cases negative : size < 0
  · rw [if_pos negative] at run
    rw [Eval.newArray, if_pos negative]
    exact .trap (Spot.ends_instr found rfl run)
  · rw [if_neg negative] at run
    rw [Eval.newArray, if_neg negative]
    obtain ⟨block, hblock⟩ : ∃ b : Block, b = ⟨a.symbolType x,
      Array.replicate size.toInt.toNat (a.symbolType x).zero⟩ := ⟨_, rfl⟩
    have later := Extends.push s.heap block
    have grown : Shows a places here { s with heap := s.heap.push block } { mem with
        heap := mem.heap.push (Array.replicate size.toInt.toNat (Value.zeroElem e)) } := by
      refine ⟨shows.globals, shows.locals, ?_, shows.globalArrays.mono later,
        shows.localArrays.mono later⟩
      rw [Array.map_push, ← shows.heap, elem, hblock]
      simp [Block.encode]
    have sound : ((s.store x).setArray x s.heap.size).Sound (s.heap.push block) := by
      intro y h found
      simp only [Store.setArray, Function.update_apply] at found
      split at found
      · rename_i same
        subst same
        obtain rfl := Option.some.inj found
        exact ⟨block, by simp, by rw [hblock]⟩
      · exact later _ _ (shows.sound x y h found)
    have kept : ∀ (y : SymbolId), y ≠ x →
        ((s.store x).setArray x s.heap.size).datum y = (s.store x).datum y := by
      intro y different
      simp [Store.datum, Store.setArray, different]
    have top : ((s.store x).setArray x s.heap.size).datum x = .array mem.heap.size := by
      simp [Store.datum, isArray, Store.setArray, encodeHandle, shows.heap]
    obtain ⟨mem', reaches, shows'⟩ : ∃ mem', Machine.Reaches host
        (q.machine (pos + 1) (_ :: stack) _, s.host) (q.machine (pos + 1 + 1) stack mem', s.host) ∧
        _ := grown.store compiled slots storable inScope code.2 kept sound
    rw [top] at reaches
    have pushed : { s.setStore x ((s.store x).setArray x s.heap.size) with
        heap := (s.setStore x ((s.store x).setArray x s.heap.size)).heap.push block } =
        State.setStore { s with heap := s.heap.push block } x
          ((s.store x).setArray x s.heap.size) := by
      unfold State.setStore
      split <;> rfl
    refine .after (Spot.reaches_instr found rfl run rfl) (.after reaches (.changed ?_ ?_))
    · dsimp only
      exact State.setStore_host ..
    · dsimp only
      rw [← hblock, pushed]
      refine ⟨mem', rfl, shows', ?_⟩
      rwa [State.setStore_heap]

end Access

end Guarded
