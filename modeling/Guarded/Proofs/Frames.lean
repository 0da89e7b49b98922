import Guarded.Proofs.Run
import Guarded.Proofs.Sequencing

/-!
Activations while arbitrary code runs. Nothing is known of the code here: it may have been written by
hand or loaded from a file, and it may be malformed. Whatever it does, a step changes at most the
activation on top, puts one on top of it or takes it off. So a routine finds its activation as it left
it when a call comes back, and no run has more than a fixed number of activations at a time.
-/

namespace Guarded

/-- Nothing but the activation on top has changed, as far as the activations are concerned. -/
structure Machine.TopOnly (m m' : Machine) : Prop where
  unit : m'.unit = m.unit
  depth : m'.depth = m.depth
  below : m'.frames.tail = m.frames.tail

namespace Machine.TopOnly
variable {m m' m'' : Machine}

theorem refl (m : Machine) : m.TopOnly m :=
  ⟨rfl, rfl, rfl⟩

theorem trans (first : m.TopOnly m') (second : m'.TopOnly m'') : m.TopOnly m'' where
  unit := second.unit.trans first.unit
  depth := second.depth.trans first.depth
  below := second.below.trans first.below

/-- There is still an activation on top. -/
theorem cons (h : m.TopOnly m') {f : Frame} {below : List Frame} (frames : m.frames = f :: below) :
    ∃ g, m'.frames = g :: below := by
  have length : m'.frames.length = below.length + 1 := by
    have same : m'.frames.length = m.frames.length := h.depth
    rw [same, frames, List.length_cons]
  obtain ⟨g, rest, split⟩ := List.exists_cons_of_length_eq_add_one length
  have tail : rest = below := by
    have same := h.below
    rwa [split, frames] at same
  exact ⟨g, by rw [split, tail]⟩

end Machine.TopOnly

namespace Exec
variable {α β : Type} {x : Exec α} {f : α → Exec β}

/-- If this succeeds on the machine, nothing but the activation on top has changed. -/
def StaysAt (m : Machine) (x : Exec α) : Prop :=
  ∀ (a : α) (m' : Machine), x m = .ok (a, m') → m.TopOnly m'

/-- Whenever this succeeds, nothing but the activation on top has changed. -/
def Stays (x : Exec α) : Prop :=
  ∀ m : Machine, StaysAt m x

namespace Stays

theorem pure (a : α) : Stays (Pure.pure a) := by
  intro m b m' run
  obtain ⟨-, rfl⟩ := state_pure_ok.mp run
  exact .refl m

theorem bind (first : Stays x) (second : ∀ a, Stays (f a)) : Stays (x >>= f) := by
  intro m b m' run
  obtain ⟨a, t, hx, hf⟩ := state_bind_ok.mp run
  exact (first m a t hx).trans (second a t b m' hf)

theorem throw (e : Error) : Stays (MonadExcept.throw e : Exec α) :=
  fun _ _ _ run => absurd run state_throw_ok

theorem lift (y : Except Error α) : Stays (liftM y) := by
  intro m a m' run
  obtain ⟨-, rfl⟩ := state_lift_ok.mp run
  exact .refl m

/-- How to go on is decided by what is found. -/
theorem inspect {g : Machine → Exec α} (h : ∀ m, StaysAt m (g m)) : Stays (get >>= g) :=
  h

theorem update {g : Machine → Machine} (h : ∀ m : Machine, m.TopOnly (g m)) :
    Stays (modify g) := by
  intro m a m' run
  obtain ⟨-, rfl⟩ : _ ∧ g m = m' := Prod.mk.inj (Except.ok.inj run)
  exact h m

theorem ite {p : Prop} [Decidable p] {y z : Exec α} (hy : Stays y) (hz : Stays z) :
    Stays (if p then y else z) := by
  split
  · exact hy
  · exact hz

end Stays

theorem StaysAt.set {m t : Machine} (top : m.TopOnly t) : StaysAt m (MonadStateOf.set t) := by
  intro u m' run
  obtain rfl := state_set_ok.mp run
  exact top

theorem StaysAt.bind {m : Machine} (first : StaysAt m x) (second : ∀ a, Stays (f a)) :
    StaysAt m (x >>= f) := by
  intro b m' run
  obtain ⟨a, t, hx, hf⟩ := state_bind_ok.mp run
  exact (first a t hx).trans (second a t b m' hf)

theorem push_stays (v : Value) : Stays (push v) :=
  .update fun _ => ⟨rfl, rfl, rfl⟩

theorem pop_stays : Stays pop := by
  refine .inspect fun m => ?_
  split
  · exact Stays.throw _ m
  · refine .bind (.set ⟨rfl, rfl, rfl⟩) fun _ => ?_
    exact .pure _

theorem popInt_stays : Stays popInt :=
  pop_stays.bind fun _ => .lift _

theorem popFloat_stays : Stays popFloat :=
  pop_stays.bind fun _ => .lift _

theorem loadLocal_stays (slot : Nat) : Stays (loadLocal slot) := by
  have look : Stays frame := by
    refine .inspect fun m => ?_
    split
    · exact Stays.pure _ m
    · exact Stays.throw _ m
  refine look.bind fun f => ?_
  split
  · exact push_stays _
  · exact .throw _

theorem storeLocal_stays (slot : Nat) (v : Value) : Stays (storeLocal slot v) := by
  refine .inspect fun m => ?_
  split
  · exact Stays.throw _ m
  · rename_i f frames here
    split
    · exact .set ⟨rfl, by simp [Machine.depth, here], by simp [here]⟩
    · exact Stays.throw _ m

theorem loadGlobal_stays (field : String) : Stays (loadGlobal field) := by
  refine .inspect fun m => ?_
  split
  · exact push_stays _ m
  · exact Stays.throw _ m

theorem storeGlobal_stays (field : String) (v : Value) : Stays (storeGlobal field v) := by
  refine .inspect fun m => ?_
  split
  · exact .set ⟨rfl, rfl, rfl⟩
  · exact Stays.throw _ m

theorem intOp_stays (op : Int32 → Int32 → Int32) : Stays (intOp op) :=
  popInt_stays.bind fun _ => popInt_stays.bind fun _ => push_stays _

theorem floatOp_stays (op : Float32 → Float32 → Float32) : Stays (floatOp op) :=
  popFloat_stays.bind fun _ => popFloat_stays.bind fun _ => push_stays _

theorem divide_stays (op : Int32 → Int32 → Int32) : Stays (divide op) :=
  popInt_stays.bind fun _ => popInt_stays.bind fun _ => .ite (.throw _) (push_stays _)

theorem compareFloats_stays (unordered : Int32) : Stays (compareFloats unordered) :=
  popFloat_stays.bind fun _ => popFloat_stays.bind fun _ => push_stays _

theorem newArray_stays (elem : Elem) : Stays (newArray elem) := by
  refine popInt_stays.bind fun size => .ite (.throw _) ?_
  refine .inspect fun m => .bind (.set ⟨rfl, rfl, rfl⟩) fun _ => ?_
  exact push_stays _

theorem element_stays : Stays element := by
  refine popInt_stays.bind fun index => pop_stays.bind fun v => (Stays.lift _).bind fun handle => ?_
  exact .inspect fun m => Stays.ite (.pure _) (.throw _) m

theorem loadElement_stays : Stays loadElement :=
  element_stays.bind fun _ => .inspect fun m => push_stays _ m

theorem storeElement_stays : Stays storeElement :=
  pop_stays.bind fun _ => element_stays.bind fun _ => .update fun _ => ⟨rfl, rfl, rfl⟩

theorem jump_stays (target : Nat) : Stays (jump target) := by
  refine .update fun m => ?_
  split
  · rename_i f frames here
    exact ⟨rfl, by simp [Machine.depth, here], by simp [here]⟩
  · exact .refl m

theorem request_stays (s : Service) : Stays (request s) := by
  cases s with
  | printInt | printBoolean | abortNoAlternative | abortNoFunctionReturn =>
    exact popInt_stays.bind fun _ => .pure _
  | printFloat => exact popFloat_stays.bind fun _ => .pure _
  | inputInt | inputFloat | inputBoolean =>
    exact pop_stays.bind fun _ => (Stays.lift _).bind fun _ => .pure _

end Exec

/-- Instructions that call a routine or come back from one. -/
def Instr.movesFrames : Instr → Bool
  | .invoke _ | .ireturn | .freturn | .ret => true
  | _ => false

theorem Exec.instr_stays {i : Instr} (inside : i.movesFrames = false) : Stays (instr i) := by
  cases i with
  | iconst | fconst | sconst => exact push_stays _
  | iload | fload | aload => exact loadLocal_stays _
  | istore | fstore | astore => exact pop_stays.bind fun _ => storeLocal_stays _ _
  | getstatic => exact loadGlobal_stays _
  | putstatic => exact pop_stays.bind fun _ => storeGlobal_stays _ _
  | newarray => exact newArray_stays _
  | iaload | faload => exact loadElement_stays
  | iastore | fastore => exact storeElement_stays
  | iadd | isub | imul | iand | ior => exact intOp_stays _
  | idiv | irem => exact divide_stays _
  | fadd | fsub | fmul | fdiv => exact floatOp_stays _
  | ineg | i2f => exact popInt_stays.bind fun _ => push_stays _
  | fneg | f2i => exact popFloat_stays.bind fun _ => push_stays _
  | fcmpl | fcmpg => exact compareFloats_stays _
  | branch => exact popInt_stays.bind fun _ => .ite (jump_stays _) (.pure _)
  | branchCompare =>
    exact popInt_stays.bind fun _ => popInt_stays.bind fun _ => .ite (jump_stays _) (.pure _)
  | goto => exact jump_stays _
  | service => exact .pure _
  | invoke | ireturn | freturn | ret => cases inside

/-- The activation of a routine that is called with this operand stack: it is at its first
instruction, the arguments are in the first slots, the last one being from the top of the stack, and
all other slots hold zeros. -/
structure Frame.Fresh (f : Frame) (r : Routine) (stack : List Value) : Prop where
  routine : f.routine = r
  pc : f.pc = 0
  size : f.locals.size = r.locals.size
  enough : r.params.size ≤ stack.length
  args : ∀ i, i < r.params.size → f.locals[i]? = stack[r.params.size - 1 - i]?
  zeros : ∀ (i : Nat) (slot : Slot), r.params.size ≤ i → r.locals[i]? = some slot →
    f.locals[i]? = some (Value.zero slot)

namespace Exec

/-- What starting a routine does, if there is room for it and its arguments are there. -/
theorem enter_inv {r : Routine} {m m' : Machine} {u : Unit} (run : enter r m = .ok (u, m')) :
    m.depth < maxDepth ∧ m'.unit = m.unit ∧ m'.stack = m.stack.drop r.params.size ∧
      ∃ f, m'.frames = f :: m.frames ∧ f.Fresh r m.stack := by
  have opened : (if maxDepth ≤ m.frames.length then throw .stackOverflow
      else if r.locals.size < r.params.size then
        throw (.malformed s!"{r.name} has fewer locals than parameters")
      else if (m.stack.take r.params.size).length < r.params.size then
        throw (.malformed "operand stack underflow")
      else set { m with
        stack := m.stack.drop r.params.size
        frames := ⟨r, 0, ((m.stack.take r.params.size).reverse ++
          (r.locals.toList.drop r.params.size).map Value.zero).toArray⟩ :: m.frames } : Exec Unit) m
      = .ok (u, m') := run
  by_cases deep : maxDepth ≤ m.frames.length
  · rw [if_pos deep] at opened
    exact absurd opened state_throw_ok
  by_cases few : r.locals.size < r.params.size
  · rw [if_neg deep, if_pos few] at opened
    exact absurd opened state_throw_ok
  by_cases short : (m.stack.take r.params.size).length < r.params.size
  · rw [if_neg deep, if_neg few, if_pos short] at opened
    exact absurd opened state_throw_ok
  rw [if_neg deep, if_neg few, if_neg short] at opened
  obtain rfl := state_set_ok.mp opened
  have enough : r.params.size ≤ m.stack.length := by
    rw [List.length_take] at short
    omega
  have count : (m.stack.take r.params.size).reverse.length = r.params.size := by
    rw [List.length_reverse, List.length_take]
    omega
  refine ⟨Nat.lt_of_not_le deep, rfl, rfl, _, rfl, rfl, rfl, ?_, enough, ?_, ?_⟩
  · simp only [List.size_toArray, List.length_append, count, List.length_map, List.length_drop,
      Array.length_toList]
    omega
  · intro i low
    rw [List.getElem?_toArray, List.getElem?_append_left (by omega), List.getElem?_reverse (by
      rw [List.length_reverse] at count; omega)]
    rw [List.length_reverse] at count
    rw [count, List.getElem?_take, if_pos (by omega)]
  · intro i slot high found
    rw [List.getElem?_toArray, List.getElem?_append_right (by omega), count, List.getElem?_map,
      List.getElem?_drop, Nat.add_sub_cancel' high, Array.getElem?_toList, found]
    rfl

theorem invoke_inv {name : String} {m m' : Machine} {u : Unit} (run : invoke name m = .ok (u, m')) :
    ∃ r, m.unit.routines.findRev? (fun r => r.name == name) = some r ∧ enter r m = .ok (u, m') := by
  obtain ⟨_, _, got, run⟩ := state_bind_ok.mp run
  cases got
  cases found : m.unit.routines.findRev? (fun r => r.name == name) with
  | some r =>
    rw [found] at run
    exact ⟨r, rfl, run⟩
  | none =>
    rw [found] at run
    exact absurd run state_throw_ok

/-- Coming back takes the activation on top off. -/
theorem return_inv {i : Instr} (moves : i.movesFrames = true) (noCall : ∀ name, i ≠ .invoke name)
    {m m' : Machine} {u : Unit} (run : instr i m = .ok (u, m')) :
    m'.unit = m.unit ∧ m'.frames = m.frames.tail := by
  have withResult : (do let v ← pop; leave; push v : Exec Unit) m = .ok (u, m') →
      m'.unit = m.unit ∧ m'.frames = m.frames.tail := by
    intro run
    obtain ⟨v, t, popped, rest⟩ := state_bind_ok.mp run
    obtain ⟨_, t', left, pushed⟩ := state_bind_ok.mp rest
    obtain ⟨-, rfl⟩ : _ ∧ { t with frames := t.frames.tail } = t' :=
      Prod.mk.inj (Except.ok.inj left)
    have := pop_stays m v t popped
    obtain ⟨-, rfl⟩ : _ ∧ { t with stack := v :: t.stack, frames := t.frames.tail } = m' :=
      Prod.mk.inj (Except.ok.inj pushed)
    exact ⟨this.unit, this.below⟩
  cases i with
  | ireturn | freturn => exact withResult run
  | ret =>
    obtain ⟨-, rfl⟩ : _ ∧ { m with frames := m.frames.tail } = m' :=
      Prod.mk.inj (Except.ok.inj run)
    exact ⟨rfl, rfl⟩
  | invoke name => exact absurd rfl (noCall name)
  | _ => cases moves

end Exec

namespace Machine
variable {σ : Type} {host : Host σ} {m m' : Machine} {s s' : σ} {f : Frame} {below : List Frame}

theorem resume_topOnly (m : Machine) (r : Request) (reply : r.Reply) :
    m.TopOnly (m.resume r reply) := by
  cases r with
  | abortNoAlternative | abortNoFunctionReturn => exact nomatch reply
  | _ => exact ⟨rfl, rfl, rfl⟩

/-- What one step makes of the activations `f :: below`. -/
inductive Shift (m : Machine) (f : Frame) (below : List Frame) (m' : Machine) : Prop where
  | top (g : Frame) (noCall : ∀ name, f.routine.code[f.pc]? ≠ some (.invoke name))
      (frames : m'.frames = g :: below)
  | call (name : String) (r : Routine) (g : Frame)
      (here : f.routine.code[f.pc]? = some (.invoke name))
      (found : m.unit.routines.findRev? (fun r => r.name == name) = some r)
      (room : m.depth < Exec.maxDepth) (fresh : g.Fresh r m.stack)
      (frames : m'.frames = g :: { f with pc := f.pc + 1 } :: below)
      (stack : m'.stack = m.stack.drop r.params.size)
  | back (noCall : ∀ name, f.routine.code[f.pc]? ≠ some (.invoke name)) (frames : m'.frames = below)

/-- An instruction that succeeds shifts the activations. -/
theorem shift_of_instr {i : Instr} {u : Unit} (frames : m.frames = f :: below)
    (here : f.routine.code[f.pc]? = some i)
    (run : Exec.instr i { m with frames := { f with pc := f.pc + 1 } :: below } = .ok (u, m')) :
    m'.unit = m.unit ∧ m.Shift f below m' := by
  by_cases moves : i.movesFrames = true
  · by_cases calls : ∃ name, i = .invoke name
    · obtain ⟨name, rfl⟩ := calls
      obtain ⟨r, found, entered⟩ := Exec.invoke_inv run
      obtain ⟨room, unit, stack, g, pushed, fresh⟩ := Exec.enter_inv entered
      refine ⟨unit, .call name r g here found ?_ fresh pushed stack⟩
      rwa [depth, frames]
    · have noCall : ∀ name, i ≠ .invoke name := fun name same => calls ⟨name, same⟩
      obtain ⟨unit, popped⟩ := Exec.return_inv moves noCall run
      refine ⟨unit, .back (fun name found => ?_) popped⟩
      exact noCall name (Option.some.inj (here.symm.trans found))
  · have inside : i.movesFrames = false := Bool.eq_false_iff.mpr moves
    have stays := Exec.instr_stays inside _ u m' run
    obtain ⟨g, kept⟩ := stays.cons rfl
    refine ⟨stays.unit, .top g (fun name found => ?_) kept⟩
    obtain rfl := Option.some.inj (here.symm.trans found)
    cases inside

/-- A step that is made carries out the instruction at hand, or asks for something and goes on with
the reply. -/
theorem advance_inv (next : advance host (m, s) = .inl (m', s')) :
    ∃ f below i, m.frames = f :: below ∧ f.routine.code[f.pc]? = some i ∧
      (Exec.instr i { m with frames := { f with pc := f.pc + 1 } :: below } = .ok ((), m') ∨
        ∃ service r t reply, i = .service service ∧
          Exec.request service { m with frames := { f with pc := f.pc + 1 } :: below } = .ok (r, t) ∧
          t.resume r reply = m') := by
  cases frames : m.frames with
  | nil => simp [advance, step, frames] at next
  | cons f below =>
    cases here : f.routine.code[f.pc]? with
    | none => simp [advance, step, frames, here] at next
    | some i =>
      refine ⟨f, below, i, rfl, here, ?_⟩
      by_cases asks : ∃ service, i = .service service
      · obtain ⟨service, rfl⟩ := asks
        cases run : Exec.request service { m with frames := { f with pc := f.pc + 1 } :: below } with
        | error e => simp [advance, step, frames, here, run] at next
        | ok asked =>
          obtain ⟨r, t⟩ := asked
          cases answer : host r s with
          | error e s'' => simp [advance, step, frames, here, run, answer] at next
          | ok reply s'' =>
            obtain ⟨done, -⟩ : t.resume r reply = m' ∧ s'' = s' := by
              simpa [advance, step, frames, here, run, answer] using next
            exact .inr ⟨service, r, t, reply, rfl, run, done⟩
      · have noService : ∀ service, i ≠ .service service := fun service same => asks ⟨service, same⟩
        cases run : Exec.instr i { m with frames := { f with pc := f.pc + 1 } :: below } with
        | error e => simp [advance, step, frames, here, run] at next
        | ok done =>
          obtain ⟨u, t⟩ := done
          obtain ⟨rfl, -⟩ : t = m' ∧ s = s' := by
            simpa [advance, step, frames, here, run, noService] using next
          exact .inl rfl

/-- One step, whatever the code: it changes the activation on top, starts one or ends one. -/
theorem advance_shift (next : advance host (m, s) = .inl (m', s')) :
    ∃ f below, m.frames = f :: below ∧ m'.unit = m.unit ∧ m.Shift f below m' := by
  obtain ⟨f, below, i, frames, here, run | ⟨service, r, t, reply, rfl, run, rfl⟩⟩ := advance_inv next
  · exact ⟨f, below, frames, shift_of_instr frames here run⟩
  · have stays := (Exec.request_stays service _ r t run).trans (resume_topOnly t r reply)
    obtain ⟨g, kept⟩ := stays.cons rfl
    exact ⟨f, below, frames, stays.unit, .top g (by simp [here]) kept⟩

/-- A step adds at most one activation, and none beyond the greatest number. -/
theorem depth_advance (next : advance host (m, s) = .inl (m', s'))
    (low : m.depth ≤ Exec.maxDepth) : m'.depth ≤ Exec.maxDepth := by
  obtain ⟨f, below, frames, -, shift⟩ := advance_shift next
  have height : m.depth = below.length + 1 := by rw [depth, frames, List.length_cons]
  cases shift with
  | top g _ frames' =>
    have : m'.depth = below.length + 1 := by rw [depth, frames', List.length_cons]
    omega
  | call name r g _ _ room _ frames' _ =>
    have : m'.depth = below.length + 2 := by rw [depth, frames', List.length_cons, List.length_cons]
    omega
  | back _ frames' =>
    have : m'.depth = below.length := by rw [depth, frames']
    omega

theorem depth_start {u : ObjectUnit} (started : start u = .ok m) : m.depth ≤ Exec.maxDepth := by
  obtain ⟨⟨⟨⟩, t⟩, entered, rest⟩ := except_bind_ok.mp started
  obtain rfl : t = m := Except.ok.inj rest
  obtain ⟨-, -, -, f, frames, -⟩ := Exec.enter_inv entered
  have : t.depth = 1 := by rw [depth, frames]; rfl
  simp [this, Exec.maxDepth]

theorem unit_start {u : ObjectUnit} (started : start u = .ok m) : m.unit = u := by
  obtain ⟨⟨⟨⟩, t⟩, entered, rest⟩ := except_bind_ok.mp started
  obtain rfl : t = m := Except.ok.inj rest
  exact (Exec.enter_inv entered).2.1

/-- What holds of every step holds of a whole run. -/
theorem after_induction {P : Machine → Prop}
    (kept : ∀ {m m' : Machine} {s s' : σ}, advance host (m, s) = .inl (m', s') → P m → P m')
    {n : Nat} {c c' : Machine × σ} (reached : after host n c = some c') (first : P c.1) : P c'.1 := by
  induction n generalizing c with
  | zero =>
    obtain rfl : c = c' := by simpa [after] using reached
    exact first
  | succ n ih =>
    cases next : advance host c with
    | inr result => simp [after, next] at reached
    | inl d =>
      rw [after_succ next] at reached
      exact ih reached (kept next first)

/-- The activations `lower` stay as they are for as long as there are others above them, and when
there are none any more. -/
theorem lower_kept {lower : List Frame} {k : Nat} {c c' : Machine × σ}
    (here : lower <:+ c.1.frames) (reached : after host k c = some c')
    (above : ∀ j < k, ∀ d, after host j c = some d → lower.length < d.1.depth) :
    lower <:+ c'.1.frames := by
  induction k generalizing c with
  | zero =>
    obtain rfl : c = c' := by simpa [after] using reached
    exact here
  | succ k ih =>
    cases next : advance host c with
    | inr result => simp [after, next] at reached
    | inl d =>
      rw [after_succ next] at reached
      refine ih ?_ reached fun j less e found => ?_
      · obtain ⟨f, below, frames, -, shift⟩ := advance_shift next
        -- There is an activation above `lower`, so those below the top one still end with `lower`.
        have inside : lower <:+ below := by
          have higher := above 0 (Nat.succ_pos k) c rfl
          rw [frames] at here
          rcases List.suffix_cons_iff.mp here with whole | rest
          · rw [depth, frames, whole] at higher
            exact absurd higher (Nat.lt_irrefl _)
          · exact rest
        cases shift with
        | top g _ frames' =>
          rw [frames']
          exact inside.trans (List.suffix_cons g below)
        | call name r g _ _ _ _ frames' _ =>
          rw [frames']
          exact inside.trans ((List.suffix_cons _ below).trans (List.suffix_cons g _))
        | back _ frames' =>
          rw [frames']
          exact inside
      · exact above (j + 1) (Nat.succ_lt_succ less) e (by rw [after_succ next, found])

/-- Activations are isolated from each other, whatever the code and the surroundings do. At most 1024
are there at a time. A call that is made starts an activation at its first instruction, with the
arguments from the stack and zeros; until that call is over, and when it is, the activations below
are those that the call left there. -/
theorem calls_isolated {u : ObjectUnit} {m₀ : Machine} {s₀ : σ} {n : Nat} (started : start u = .ok m₀)
    (reached : after host n (m₀, s₀) = some (m, s)) :
    m.depth ≤ 1024 ∧
      ∀ (f : Frame) (below : List Frame) (name : String) (m' : Machine) (s' : σ),
        m.frames = f :: below → f.routine.code[f.pc]? = some (.invoke name) →
        advance host (m, s) = .inl (m', s') →
        ∃ r g, u.routines.findRev? (fun r => r.name == name) = some r ∧ g.Fresh r m.stack ∧
          m'.frames = g :: { f with pc := f.pc + 1 } :: below ∧
          m'.stack = m.stack.drop r.params.size ∧
          ∀ (k : Nat) (m'' : Machine) (s'' : σ), after host k (m', s') = some (m'', s'') →
            (∀ j < k, ∀ d, after host j (m', s') = some d → m.depth < d.1.depth) →
            ({ f with pc := f.pc + 1 } :: below) <:+ m''.frames := by
  have unit : m.unit = u := by
    refine after_induction (P := fun m => m.unit = u) ?_ reached (unit_start started)
    intro m m' s s' next same
    obtain ⟨-, -, -, kept, -⟩ := advance_shift next
    exact kept.trans same
  refine ⟨after_induction depth_advance reached (depth_start started), ?_⟩
  intro f below name m' s' frames calls next
  obtain ⟨f', below', frames', -, shift⟩ := advance_shift next
  obtain ⟨rfl, rfl⟩ : f = f' ∧ below = below' := by simpa [frames] using frames'
  cases shift with
  | top _ noCall _ => exact absurd calls (noCall name)
  | back noCall _ => exact absurd calls (noCall name)
  | call name' r g here found _ fresh entered stack =>
    obtain rfl : name = name' := by simpa [calls] using here
    refine ⟨r, g, unit ▸ found, fresh, entered, stack, ?_⟩
    intro k m'' s'' later above
    have height : ({ f with pc := f.pc + 1 } :: below).length = m.depth := by
      rw [depth, frames, List.length_cons, List.length_cons]
    refine lower_kept (c := (m', s')) ?_ later fun j less d found => ?_
    · rw [entered]
      exact List.suffix_cons g _
    · rw [height]
      exact above j less d found

/-- A unit that no program is compiled to: the called routine writes over its argument, leaves a value
on the stack and jumps out of its code. -/
def loose : ObjectUnit where
  package := "demo"
  name := "loose"
  globals := #[]
  entry := ⟨"main", #[], none, #[.int], #[.iconst 3, .iconst 4, .invoke "f", .ret]⟩
  routines := #[⟨"f", #[.int, .int], none, #[.int, .int, .float],
    #[.iload 1, .istore 0, .iload 0, .goto 99]⟩]

theorem calls_isolated_loose :
    ∃ m₀ m m' s f r g, start loose = .ok m₀ ∧
      after Console.answer 2 (m₀, ⟨[], ""⟩) = some (m, s) ∧ m.depth ≤ 1024 ∧ m.frames = [f] ∧
      m.stack = [.int 4, .int 3] ∧ advance Console.answer (m, s) = .inl (m', s) ∧
      g.Fresh r m.stack ∧ m'.frames = [g, { f with pc := f.pc + 1 }] ∧
      g.locals = #[.int 3, .int 4, .float 0] ∧
      ∀ m'' s'', after Console.answer 2 (m', s) = some (m'', s'') →
        [{ f with pc := f.pc + 1 }] <:+ m''.frames := by
  obtain ⟨low, isolated⟩ := calls_isolated (u := loose) (n := 2) rfl
    (show after Console.answer 2 (_, ⟨[], ""⟩) = some (_, _) from rfl)
  obtain ⟨r, g, -, fresh, frames, -, kept⟩ := isolated _ [] "f" _ _ rfl rfl rfl
  refine ⟨_, _, _, _, _, r, g, rfl, rfl, low, rfl, rfl, rfl, fresh, frames, ?_, ?_⟩
  · cases frames
    rfl
  · intro m'' s'' later
    refine kept 2 m'' s'' later fun j less d found => ?_
    rcases j with _ | _ | j
    · cases found
      decide
    · cases found
      decide
    · omega

end Machine

end Guarded
