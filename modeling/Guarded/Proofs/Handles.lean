import Guarded.Proofs.Frames
import Guarded.Proofs.Representation

/-!
Handles while arbitrary code runs. Stores check nothing, so a handle may be kept anywhere: on the
stack, in a field, in a slot, even in an array. But nothing makes a handle other than the instruction
that makes its array, and no array is ever taken away or made shorter. So every handle that a machine
holds is that of an array, and an index is compared with the size that this array was made with.
-/

namespace Guarded

/-- If the value is a handle, it is that of one of the first `n` arrays. -/
def Value.Within (n : Nat) : Value → Prop
  | .array handle => handle < n
  | _ => True

theorem Value.Within.mono {n k : Nat} {v : Value} (h : v.Within n) (le : n ≤ k) : v.Within k := by
  cases v with
  | array handle => exact Nat.lt_of_lt_of_le h le
  | _ => trivial

theorem Value.within_zero (n : Nat) (slot : Slot) : (Value.zero slot).Within n := by
  cases slot <;> trivial

theorem Value.within_zeroElem (n : Nat) (elem : Elem) : (Value.zeroElem elem).Within n := by
  cases elem <;> trivial

namespace Machine

/-- Every handle that the machine holds is that of an array: on the operand stack, in a field, in a
slot of an activation, or inside an array. -/
structure Anchored (m : Machine) : Prop where
  stack : ∀ v ∈ m.stack, v.Within m.heap.size
  globals : ∀ (field : String) (v : Value), m.globals[field]? = some v → v.Within m.heap.size
  locals : ∀ f ∈ m.frames, ∀ v ∈ f.locals, v.Within m.heap.size
  items : ∀ values ∈ m.heap, ∀ v ∈ values, v.Within m.heap.size

/-- The lengths of the arrays, in the order in which they were made. -/
def lengths (m : Machine) : List Nat :=
  m.heap.toList.map Array.size

theorem lengths_length (m : Machine) : m.lengths.length = m.heap.size := by
  simp [lengths]

theorem lengths_get (m : Machine) (handle : Nat) :
    m.lengths[handle]? = m.heap[handle]?.map Array.size := by
  simp [lengths]

/-- The machine is about to make an array of this size, the handle of which will be `handle`. -/
def Makes (m : Machine) (handle : Nat) (size : Int32) : Prop :=
  ∃ f below elem rest, m.frames = f :: below ∧ f.routine.code[f.pc]? = some (.newarray elem) ∧
    m.stack = .int size :: rest ∧ m.heap.size = handle

/-- The machine is about to load or store an element: it has an index on its stack and the handle of
an array below, and what is to be stored above them. -/
inductive Accesses (m : Machine) (index : Int32) (handle : Nat) : Prop where
  | load {f : Frame} {below : List Frame} {i : Instr} {rest : List Value}
      (frames : m.frames = f :: below) (here : f.routine.code[f.pc]? = some i)
      (loads : i = .iaload ∨ i = .faload) (stack : m.stack = .int index :: .array handle :: rest)
  | store {f : Frame} {below : List Frame} {i : Instr} {v : Value} {rest : List Value}
      (frames : m.frames = f :: below) (here : f.routine.code[f.pc]? = some i)
      (stores : i = .iastore ∨ i = .fastore)
      (stack : m.stack = v :: .int index :: .array handle :: rest)

end Machine

namespace Exec
variable {α β : Type} {x : Exec α} {f : α → Exec β} {good : α → Prop} {good' : β → Prop} {n : Nat}

/-- If this succeeds on the machine, no array is made and no handle comes from nowhere, and what is
given is good. -/
def KeepsAt (m : Machine) (x : Exec α) (good : α → Prop) : Prop :=
  ∀ (a : α) (m' : Machine), x m = .ok (a, m') → m'.Anchored ∧ m'.lengths = m.lengths ∧ good a

/-- Whenever this succeeds on a machine with `n` arrays, no array is made and no handle comes from
nowhere, and what is given is good. -/
def Keeps (n : Nat) (x : Exec α) (good : α → Prop) : Prop :=
  ∀ m : Machine, m.heap.size = n → m.Anchored → KeepsAt m x good

theorem KeepsAt.throw {m : Machine} (e : Error) : KeepsAt m (MonadExcept.throw e : Exec α) good :=
  fun _ _ run => absurd run state_throw_ok

theorem KeepsAt.set {m t : Machine} (anchored : t.Anchored) (same : t.lengths = m.lengths) :
    KeepsAt m (MonadStateOf.set t) fun _ => True := by
  intro u m' run
  obtain rfl := state_set_ok.mp run
  exact ⟨anchored, same, trivial⟩

theorem KeepsAt.bind {m : Machine} (size : m.heap.size = n) (first : KeepsAt m x good)
    (second : ∀ a, good a → Keeps n (f a) good') : KeepsAt m (x >>= f) good' := by
  intro b m' run
  obtain ⟨a, t, hx, hf⟩ := state_bind_ok.mp run
  obtain ⟨anchored, same, ha⟩ := first a t hx
  have size' : t.heap.size = n := by
    rw [← t.lengths_length, same, m.lengths_length, size]
  obtain ⟨anchored, same', hb⟩ := second a ha t size' anchored b m' hf
  exact ⟨anchored, same'.trans same, hb⟩

namespace Keeps

theorem pure {a : α} (h : good a) : Keeps n (Pure.pure a) good := by
  intro m _ anchored b m' run
  obtain ⟨rfl, rfl⟩ := state_pure_ok.mp run
  exact ⟨anchored, rfl, h⟩

theorem bind (first : Keeps n x good) (second : ∀ a, good a → Keeps n (f a) good') :
    Keeps n (x >>= f) good' :=
  fun m size anchored => (first m size anchored).bind size second

theorem throw (e : Error) : Keeps n (MonadExcept.throw e : Exec α) good :=
  fun _ _ _ => .throw e

theorem lift (y : Except Error α) : Keeps n (liftM y) fun _ => True := by
  intro m _ anchored a m' run
  obtain ⟨-, rfl⟩ := state_lift_ok.mp run
  exact ⟨anchored, rfl, trivial⟩

/-- How to go on is decided by what is found. -/
theorem inspect {g : Machine → Exec α}
    (h : ∀ m : Machine, m.heap.size = n → m.Anchored → KeepsAt m (g m) good) :
    Keeps n (get >>= g) good :=
  h

theorem update {g : Machine → Machine}
    (h : ∀ m : Machine, m.heap.size = n → m.Anchored →
      (g m).Anchored ∧ (g m).lengths = m.lengths) :
    Keeps n (modify g) fun _ => True := by
  intro m size anchored a m' run
  obtain ⟨-, rfl⟩ : _ ∧ g m = m' := Prod.mk.inj (Except.ok.inj run)
  exact ⟨(h m size anchored).1, (h m size anchored).2, trivial⟩

theorem ite {p : Prop} [Decidable p] {y z : Exec α} (hy : Keeps n y good) (hz : Keeps n z good) :
    Keeps n (if p then y else z) good := by
  split
  · exact hy
  · exact hz

end Keeps

theorem push_keeps {v : Value} (h : v.Within n) : Keeps n (push v) fun _ => True := by
  refine .update fun m size anchored => ⟨{ anchored with stack := fun w mem => ?_ }, rfl⟩
  rcases List.mem_cons.mp mem with rfl | mem
  · exact size ▸ h
  · exact anchored.stack w mem

theorem pop_keeps : Keeps n pop (Value.Within n) := by
  refine .inspect fun m size anchored => ?_
  split
  · exact .throw _
  · rename_i v stack here
    refine .bind size (.set { anchored with stack := fun w mem => ?_ } rfl) fun _ _ => .pure ?_
    · exact anchored.stack w (here ▸ List.mem_cons_of_mem v mem)
    · exact size ▸ anchored.stack v (here ▸ List.mem_cons_self)

theorem popInt_keeps : Keeps n popInt fun _ => True :=
  pop_keeps.bind fun _ _ => .lift _

theorem popFloat_keeps : Keeps n popFloat fun _ => True :=
  pop_keeps.bind fun _ _ => .lift _

theorem loadLocal_keeps (slot : Nat) : Keeps n (loadLocal slot) fun _ => True := by
  have look : Keeps n frame fun f => ∀ v ∈ f.locals, v.Within n := by
    refine .inspect fun m size anchored => ?_
    split
    · rename_i f frames here
      exact Keeps.pure (size ▸ anchored.locals f (here ▸ List.mem_cons_self)) m size anchored
    · exact .throw _
  refine look.bind fun f within => ?_
  split
  · rename_i v found
    exact push_keeps (within v (Array.mem_of_getElem? found))
  · exact .throw _

theorem storeLocal_keeps (slot : Nat) {v : Value} (h : v.Within n) :
    Keeps n (storeLocal slot v) fun _ => True := by
  refine .inspect fun m size anchored => ?_
  split
  · exact .throw _
  · rename_i f frames here
    split
    · refine .set { anchored with locals := fun g mem w inside => ?_ } rfl
      rcases List.mem_cons.mp mem with rfl | mem
      · rcases Array.mem_or_eq_of_mem_setIfInBounds inside with inside | rfl
        · exact anchored.locals f (here ▸ List.mem_cons_self) w inside
        · exact size ▸ h
      · exact anchored.locals g (here ▸ List.mem_cons_of_mem f mem) w inside
    · exact .throw _

theorem loadGlobal_keeps (field : String) : Keeps n (loadGlobal field) fun _ => True := by
  refine .inspect fun m size anchored => ?_
  split
  · rename_i v found
    exact push_keeps (anchored.globals field v found) m rfl anchored
  · exact .throw _

theorem storeGlobal_keeps (field : String) {v : Value} (h : v.Within n) :
    Keeps n (storeGlobal field v) fun _ => True := by
  refine .inspect fun m size anchored => ?_
  split
  · refine .set { anchored with globals := fun other w found => ?_ } rfl
    rw [Std.TreeMap.getElem?_insert] at found
    split at found
    · obtain rfl := Option.some.inj found
      exact size ▸ h
    · exact anchored.globals other w found
  · exact .throw _

theorem intOp_keeps (op : Int32 → Int32 → Int32) : Keeps n (intOp op) fun _ => True :=
  popInt_keeps.bind fun _ _ => popInt_keeps.bind fun _ _ => push_keeps trivial

theorem floatOp_keeps (op : Float32 → Float32 → Float32) : Keeps n (floatOp op) fun _ => True :=
  popFloat_keeps.bind fun _ _ => popFloat_keeps.bind fun _ _ => push_keeps trivial

theorem divide_keeps (op : Int32 → Int32 → Int32) : Keeps n (divide op) fun _ => True :=
  popInt_keeps.bind fun _ _ => popInt_keeps.bind fun _ _ => .ite (.throw _) (push_keeps trivial)

theorem compareFloats_keeps (unordered : Int32) : Keeps n (compareFloats unordered) fun _ => True :=
  popFloat_keeps.bind fun _ _ => popFloat_keeps.bind fun _ _ => push_keeps trivial

theorem element_keeps : Keeps n element fun _ => True := by
  refine popInt_keeps.bind fun index _ => pop_keeps.bind fun v _ => ?_
  exact (Keeps.lift _).bind fun handle _ => .inspect fun m => Keeps.ite (.pure trivial) (.throw _) m

theorem loadElement_keeps : Keeps n loadElement fun _ => True := by
  refine element_keeps.bind fun r _ => .inspect fun m size anchored => push_keeps ?_ m size anchored
  cases found : m.heap[r.1]?.bind fun items => items[r.2]? with
  | none => trivial
  | some v =>
    obtain ⟨values, there, inside⟩ := Option.bind_eq_some_iff.mp found
    exact size ▸ anchored.items values (Array.mem_of_getElem? there) v (Array.mem_of_getElem? inside)

/-- Storing an element changes what is in an array, but not its length. -/
theorem storeElement_keeps : Keeps n storeElement fun _ => True := by
  refine pop_keeps.bind fun v within => element_keeps.bind fun r _ => ?_
  refine .update fun m size anchored => ?_
  have lengths : (m.heap.modify r.1 fun items => items.setIfInBounds r.2 v).toList.map Array.size =
      m.heap.toList.map Array.size := by
    rw [Array.toList_modify]
    apply List.ext_getElem?
    intro k
    rw [List.getElem?_map, List.getElem?_map, List.getElem?_modify]
    cases m.heap.toList[k]? with
    | none => rfl
    | some items =>
      by_cases same : r.1 = k
      · simp [same]
      · simp [same]
  have sameSize : (m.heap.modify r.1 fun items => items.setIfInBounds r.2 v).size = m.heap.size :=
    Array.size_modify
  refine ⟨⟨?_, ?_, ?_, ?_⟩, lengths⟩
  · exact fun w mem => sameSize ▸ anchored.stack w mem
  · exact fun field w found => sameSize ▸ anchored.globals field w found
  · exact fun f mem w inside => sameSize ▸ anchored.locals f mem w inside
  · intro values there w inside
    rw [sameSize]
    obtain ⟨k, low, rfl⟩ := Array.mem_iff_getElem.mp there
    rw [Array.getElem_modify] at inside
    have old := anchored.items _ (Array.getElem_mem (sameSize ▸ low))
    split at inside
    · rcases Array.mem_or_eq_of_mem_setIfInBounds inside with inside | rfl
      · exact old w inside
      · exact size ▸ within
    · exact old w inside

theorem jump_keeps (target : Nat) : Keeps n (jump target) fun _ => True := by
  refine .update fun m size anchored => ?_
  split
  · rename_i f frames here
    refine ⟨{ anchored with locals := fun g mem w inside => ?_ }, rfl⟩
    rcases List.mem_cons.mp mem with rfl | mem
    · exact anchored.locals f (here ▸ List.mem_cons_self) w inside
    · exact anchored.locals g (here ▸ List.mem_cons_of_mem f mem) w inside
  · exact ⟨anchored, rfl⟩

theorem leave_keeps : Keeps n leave fun _ => True := by
  refine .update fun m size anchored => ⟨{ anchored with locals := fun f mem w inside => ?_ }, rfl⟩
  exact anchored.locals f (List.mem_of_mem_tail mem) w inside

/-- The arguments of a call move from the stack into slots, and the other slots hold zeros. -/
theorem enter_keeps (r : Routine) : Keeps n (enter r) fun _ => True := by
  refine .inspect fun m size anchored => ?_
  dsimp only
  split
  · exact .throw _
  split
  · exact .throw _
  split
  · exact .throw _
  refine .set ⟨?_, anchored.globals, ?_, anchored.items⟩ rfl
  · exact fun v mem => anchored.stack v (List.mem_of_mem_drop mem)
  · intro f mem v inside
    rcases List.mem_cons.mp mem with rfl | mem
    · rw [List.mem_toArray, List.mem_append, List.mem_reverse, List.mem_map] at inside
      rcases inside with arg | ⟨slot, -, rfl⟩
      · exact anchored.stack v (List.mem_of_mem_take arg)
      · exact Value.within_zero _ slot
    · exact anchored.locals f mem v inside

theorem invoke_keeps (name : String) : Keeps n (invoke name) fun _ => True := by
  refine .inspect fun m size anchored => ?_
  split
  · exact enter_keeps _ m size anchored
  · exact .throw _

theorem request_keeps (s : Service) : Keeps n (request s) fun _ => True := by
  cases s with
  | printInt | printBoolean | abortNoAlternative | abortNoFunctionReturn =>
    exact popInt_keeps.bind fun _ _ => .pure trivial
  | printFloat => exact popFloat_keeps.bind fun _ _ => .pure trivial
  | inputInt | inputFloat | inputBoolean =>
    exact pop_keeps.bind fun _ _ => (Keeps.lift _).bind fun _ _ => .pure trivial

/-- All instructions but the one that makes arrays. -/
theorem instr_keeps {i : Instr} (noArray : ∀ elem, i ≠ .newarray elem) :
    Keeps n (instr i) fun _ => True := by
  cases i with
  | iconst | fconst | sconst => exact push_keeps trivial
  | iload | fload | aload => exact loadLocal_keeps _
  | istore | fstore | astore => exact pop_keeps.bind fun _ within => storeLocal_keeps _ within
  | getstatic => exact loadGlobal_keeps _
  | putstatic => exact pop_keeps.bind fun _ within => storeGlobal_keeps _ within
  | newarray elem => exact absurd rfl (noArray elem)
  | iaload | faload => exact loadElement_keeps
  | iastore | fastore => exact storeElement_keeps
  | iadd | isub | imul | iand | ior => exact intOp_keeps _
  | idiv | irem => exact divide_keeps _
  | fadd | fsub | fmul | fdiv => exact floatOp_keeps _
  | ineg | i2f => exact popInt_keeps.bind fun _ _ => push_keeps trivial
  | fneg | f2i => exact popFloat_keeps.bind fun _ _ => push_keeps trivial
  | fcmpl | fcmpg => exact compareFloats_keeps _
  | branch => exact popInt_keeps.bind fun _ _ => .ite (jump_keeps _) (.pure trivial)
  | branchCompare =>
    exact popInt_keeps.bind fun _ _ => popInt_keeps.bind fun _ _ =>
      .ite (jump_keeps _) (.pure trivial)
  | goto => exact jump_keeps _
  | invoke => exact invoke_keeps _
  | service => exact .pure trivial
  | ireturn | freturn =>
    exact pop_keeps.bind fun _ within => leave_keeps.bind fun _ _ => push_keeps within
  | ret => exact leave_keeps

theorem popInt_inv {m t : Machine} {v : Int32} (run : popInt m = .ok (v, t)) :
    ∃ rest, m.stack = .int v :: rest ∧ t = { m with stack := rest } := by
  obtain ⟨unit, frames, stack, globals, heap⟩ := m
  cases stack with
  | nil => cases run
  | cons w rest =>
    cases w with
    | int k =>
      obtain ⟨rfl, rfl⟩ := Prod.mk.inj (Except.ok.inj run)
      exact ⟨rest, rfl, rfl⟩
    | float | text | array | null => cases run

/-- The handle of a new array is put on the stack at once, so that it is the only one. -/
theorem newArray_inv {elem : Elem} {m m' : Machine} {u : Unit} (anchored : m.Anchored)
    (run : newArray elem m = .ok (u, m')) :
    ∃ size rest, m.stack = .int size :: rest ∧ 0 ≤ size ∧ m'.Anchored ∧
      m'.lengths = m.lengths ++ [size.toInt.toNat] := by
  obtain ⟨size, t, popped, run⟩ := state_bind_ok.mp run
  obtain ⟨rest, top, rfl⟩ := popInt_inv popped
  by_cases negative : size < 0
  · rw [if_pos negative] at run
    exact absurd run state_throw_ok
  rw [if_neg negative] at run
  obtain ⟨-, rfl⟩ : _ ∧ _ = m' := Prod.mk.inj (Except.ok.inj run)
  refine ⟨size, rest, top, Int32.not_lt.mp negative, ⟨?_, ?_, ?_, ?_⟩, ?_⟩
  · intro v mem
    rw [Array.size_push]
    rcases List.mem_cons.mp mem with rfl | mem
    · exact Nat.lt_succ_self _
    · exact (anchored.stack v (top ▸ List.mem_cons_of_mem _ mem)).mono (Nat.le_succ _)
  · intro field v found
    rw [Array.size_push]
    exact (anchored.globals field v found).mono (Nat.le_succ _)
  · intro f mem v inside
    rw [Array.size_push]
    exact (anchored.locals f mem v inside).mono (Nat.le_succ _)
  · intro values there v inside
    rw [Array.size_push]
    rcases Array.mem_push.mp there with there | rfl
    · exact (anchored.items values there v inside).mono (Nat.le_succ _)
    · obtain ⟨-, rfl⟩ := Array.mem_replicate.mp inside
      exact Value.within_zeroElem _ elem
  · simp [Machine.lengths]

end Exec

namespace Machine
variable {σ : Type} {host : Host σ} {m m' : Machine} {s s' : σ}

/-- What is read is a number, never a handle. -/
theorem Anchored.resume (anchored : m.Anchored) (r : Request) (reply : r.Reply) :
    (m.resume r reply).Anchored := by
  have pushed {v : Value} (h : v.Within m.heap.size) :
      ({ m with stack := v :: m.stack } : Machine).Anchored :=
    { anchored with stack := List.forall_mem_cons.mpr ⟨h, anchored.stack⟩ }
  cases r with
  | printInt | printFloat | printBoolean => exact anchored
  | inputInt | inputFloat | inputBoolean => exact pushed trivial
  | abortNoAlternative | abortNoFunctionReturn => exact nomatch reply

theorem lengths_resume (m : Machine) (r : Request) (reply : r.Reply) :
    (m.resume r reply).lengths = m.lengths := by
  cases r with
  | abortNoAlternative | abortNoFunctionReturn => exact nomatch reply
  | _ => rfl

/-- Going on to the next instruction makes no difference to handles. -/
theorem Anchored.next {f : Frame} {below : List Frame} (anchored : m.Anchored)
    (frames : m.frames = f :: below) (pc : Nat) :
    ({ m with frames := { f with pc } :: below } : Machine).Anchored := by
  refine { anchored with locals := fun g mem v inside => ?_ }
  rcases List.mem_cons.mp mem with rfl | mem
  · exact anchored.locals f (frames ▸ List.mem_cons_self) v inside
  · exact anchored.locals g (frames ▸ List.mem_cons_of_mem f mem) v inside

/-- One step, whatever the code: it makes one array, or it leaves the number of arrays and their
lengths as they are. -/
theorem anchored_advance (next : advance host (m, s) = .inl (m', s')) (anchored : m.Anchored) :
    m'.Anchored ∧ (m'.lengths = m.lengths ∨
      ∃ size, m.Makes m.heap.size size ∧ 0 ≤ size ∧
        m'.lengths = m.lengths ++ [size.toInt.toNat]) := by
  obtain ⟨f, below, i, frames, here, run | ⟨service, r, t, reply, rfl, run, rfl⟩⟩ := advance_inv next
  · by_cases makes : ∃ elem, i = .newarray elem
    · obtain ⟨elem, rfl⟩ := makes
      obtain ⟨size, rest, top, positive, anchored, longer⟩ :=
        Exec.newArray_inv (anchored.next frames _) run
      exact ⟨anchored, .inr ⟨size, ⟨f, below, elem, rest, frames, here, top, rfl⟩, positive, longer⟩⟩
    · have noArray : ∀ elem, i ≠ .newarray elem := fun elem same => makes ⟨elem, same⟩
      obtain ⟨anchored, same, -⟩ :=
        Exec.instr_keeps noArray _ rfl (anchored.next frames _) _ _ run
      exact ⟨anchored, .inl same⟩
  · obtain ⟨anchored, same, -⟩ :=
      Exec.request_keeps service _ rfl (anchored.next frames _) _ _ run
    exact ⟨anchored.resume r reply, .inl ((lengths_resume t r reply).trans same)⟩

theorem lengths_advance (next : advance host (m, s) = .inl (m', s')) (anchored : m.Anchored) :
    m.lengths <+: m'.lengths := by
  obtain ⟨-, same | ⟨size, -, -, longer⟩⟩ := anchored_advance next anchored
  · exact same ▸ List.prefix_rfl
  · exact longer ▸ List.prefix_append _ _

/-- A whole run keeps all arrays and their lengths. -/
theorem lengths_after {n : Nat} {c c' : Machine × σ} (reached : after host n c = some c')
    (anchored : c.1.Anchored) : c.1.lengths <+: c'.1.lengths := by
  refine (after_induction (P := fun m => m.Anchored ∧ c.1.lengths <+: m.lengths) ?_ reached
    ⟨anchored, List.prefix_rfl⟩).2
  rintro m m' s s' next ⟨anchored, longer⟩
  exact ⟨(anchored_advance next anchored).1, longer.trans (lengths_advance next anchored)⟩

/-- A machine that has just been started holds arguments and zeros, and has no array. -/
theorem anchored_start {u : ObjectUnit} (started : start u = .ok m) :
    m.Anchored ∧ m.lengths = [] := by
  have idle : (idle u).Anchored := by
    refine ⟨by simp [Machine.idle], fun field v found => ?_, by simp [Machine.idle],
      by simp [Machine.idle]⟩
    refine Array.foldl_induction
      (motive := fun _ g => ∀ (field : String) (v : Value), g[field]? = some v → v.Within 0)
      (by simp) ?_ field v found
    intro i g zeros field v found
    rw [Std.TreeMap.getElem?_insert] at found
    split at found
    · obtain rfl := Option.some.inj found
      exact Value.within_zero 0 _
    · exact zeros field v found
  obtain ⟨⟨⟨⟩, t⟩, entered, rest⟩ := except_bind_ok.mp started
  obtain rfl : t = m := Except.ok.inj rest
  obtain ⟨anchored, same, -⟩ := Exec.enter_keeps u.entry _ rfl idle _ _ entered
  exact ⟨anchored, same⟩

/-- Every array there is has been made in the course of the run, and still has the size it was made
with. -/
theorem made_before {u : ObjectUnit} {m₀ : Machine} {s₀ : σ} {n : Nat} (started : start u = .ok m₀)
    (reached : after host n (m₀, s₀) = some (m, s)) :
    m.Anchored ∧ ∀ (handle length : Nat), m.lengths[handle]? = some length →
      ∃ j c size, j < n ∧ after host j (m₀, s₀) = some c ∧ c.1.Makes handle size ∧ 0 ≤ size ∧
        length = size.toInt.toNat := by
  induction n generalizing m s with
  | zero =>
    obtain ⟨rfl, rfl⟩ : m₀ = m ∧ s₀ = s := by simpa [after] using reached
    obtain ⟨anchored, none⟩ := anchored_start started
    exact ⟨anchored, by simp [none]⟩
  | succ n ih =>
    obtain ⟨⟨t, s'⟩, before, next⟩ := after_last.mp reached
    obtain ⟨anchored, made⟩ := ih before
    obtain ⟨anchored', grows⟩ := anchored_advance next anchored
    refine ⟨anchored', fun handle length found => ?_⟩
    have earlier (found : t.lengths[handle]? = some length) :
        ∃ j c size, j < n + 1 ∧ after host j (m₀, s₀) = some c ∧ c.1.Makes handle size ∧ 0 ≤ size ∧
          length = size.toInt.toNat := by
      obtain ⟨j, c, size, low, rest⟩ := made handle length found
      exact ⟨j, c, size, low.trans (Nat.lt_succ_self n), rest⟩
    rcases grows with same | ⟨size, makes, positive, longer⟩
    · exact earlier (same ▸ found)
    · rw [longer, List.getElem?_append] at found
      split at found
      · exact earlier found
      · obtain ⟨zero, rfl⟩ : handle - t.lengths.length = 0 ∧ size.toInt.toNat = length := by
          simpa [List.getElem?_singleton] using found
        obtain rfl : t.heap.size = handle := by
          rw [← t.lengths_length]
          omega
        exact ⟨n, (t, s'), size, Nat.lt_succ_self n, before, makes, positive, rfl⟩

theorem step_of_ok {f : Frame} {below : List Frame} {i : Instr} (frames : m.frames = f :: below)
    (here : f.routine.code[f.pc]? = some i) (noService : ∀ service, i ≠ .service service)
    (run : Exec.instr i { m with frames := { f with pc := f.pc + 1 } :: below } = .ok ((), m')) :
    m.step = .next m' := by
  simp [step, frames, here, run]

theorem step_of_error {f : Frame} {below : List Frame} {i : Instr} {e : Error}
    (frames : m.frames = f :: below) (here : f.routine.code[f.pc]? = some i)
    (noService : ∀ service, i ≠ .service service)
    (run : Exec.instr i { m with frames := { f with pc := f.pc + 1 } :: below } = .error e) :
    m.step = .fail e := by
  simp [step, frames, here, run]

/-- The element that is accessed is there, or the access fails with the length of the array. -/
theorem element_of_there {index : Int32} {handle : Nat} {rest : List Value} {items : Array Value}
    (stack : m.stack = .int index :: .array handle :: rest) (there : m.heap[handle]? = some items) :
    Exec.element m = if 0 ≤ index && index.toInt.toNat < items.size then
      .ok ((handle, index.toInt.toNat), { m with stack := rest })
    else .error (.indexOutOfBounds index items.size) := by
  rw [Exec.element_eq m index (some handle) stack]
  simp only [there, Option.map_some, Option.getD_some]

/-- An access succeeds if the index is in the array, and fails with the length of the array
otherwise. -/
theorem Accesses.step {index : Int32} {handle : Nat} (h : m.Accesses index handle)
    {items : Array Value} (there : m.heap[handle]? = some items) :
    if 0 ≤ index && index.toInt.toNat < items.size then ∃ m', m.step = .next m'
    else m.step = .fail (.indexOutOfBounds index items.size) := by
  cases h with
  | @load f below i rest frames here loads stack =>
    have noService : ∀ service, i ≠ .service service := by rcases loads with rfl | rfl <;> nofun
    have run := Exec.instr_getElement loads { m with frames := { f with pc := f.pc + 1 } :: below }
    rw [element_of_there (m := { m with frames := { f with pc := f.pc + 1 } :: below }) stack there]
      at run
    split
    · rename_i inside
      rw [if_pos inside] at run
      exact ⟨_, step_of_ok frames here noService run⟩
    · rename_i outside
      rw [if_neg outside] at run
      exact step_of_error frames here noService run
  | @store f below i v rest frames here stores stack =>
    have noService : ∀ service, i ≠ .service service := by rcases stores with rfl | rfl <;> nofun
    have run := Exec.instr_putElement stores
      (m := { m with frames := { f with pc := f.pc + 1 } :: below }) stack
    rw [element_of_there (m := { m with
      frames := { f with pc := f.pc + 1 } :: below
      stack := .int index :: .array handle :: rest }) rfl there] at run
    split
    · rename_i inside
      rw [if_pos inside] at run
      exact ⟨_, step_of_ok frames here noService run⟩
    · rename_i outside
      rw [if_neg outside] at run
      exact step_of_error frames here noService run

theorem Accesses.anchored {index : Int32} {handle : Nat} (h : m.Accesses index handle)
    (anchored : m.Anchored) : handle < m.heap.size := by
  cases h with
  | load _ _ _ stack => exact anchored.stack (.array handle) (by simp [stack])
  | store _ _ _ stack => exact anchored.stack (.array handle) (by simp [stack])

/-- Arrays are safe, whatever the code and the surroundings do. Every handle that the machine holds is
that of an array; arrays stay, with the lengths they have. So an access to an element is to an array
that was made earlier in the run, and it fails exactly if the index is not below the size that this
array was made with. -/
theorem arrays_safe {u : ObjectUnit} {m₀ : Machine} {s₀ : σ} {n : Nat} (started : start u = .ok m₀)
    (reached : after host n (m₀, s₀) = some (m, s)) :
    m.Anchored ∧
      (∀ (k : Nat) (m' : Machine) (s' : σ), after host k (m, s) = some (m', s') →
        m.lengths <+: m'.lengths) ∧
      ∀ (index : Int32) (handle : Nat), m.Accesses index handle →
        ∃ (j : Nat) (c : Machine × σ) (size : Int32) (items : Array Value),
          j < n ∧ after host j (m₀, s₀) = some c ∧ c.1.Makes handle size ∧
          0 ≤ size ∧ m.heap[handle]? = some items ∧ items.size = size.toInt.toNat ∧
          (index < 0 ∨ size ≤ index ↔
            m.step = .fail (.indexOutOfBounds index size.toInt.toNat)) ∧
          (¬(index < 0 ∨ size ≤ index) →
            index.toInt.toNat < items.size ∧ ∃ m', m.step = .next m') := by
  obtain ⟨anchored, made⟩ := made_before started reached
  refine ⟨anchored, fun k m' s' later => lengths_after later anchored, ?_⟩
  intro index handle access
  have low := access.anchored anchored
  obtain ⟨items, there⟩ : ∃ items, m.heap[handle]? = some items := ⟨_, Array.getElem?_eq_getElem low⟩
  obtain ⟨j, c, size, earlier, found, makes, positive, length⟩ :=
    made handle items.size (by rw [lengths_get, there]; rfl)
  have step := access.step there
  have inside : (0 ≤ index && index.toInt.toNat < items.size) = true ↔
      ¬(index < 0 ∨ size ≤ index) := by
    rw [Int32.le_iff_toInt_le] at positive
    simp only [Bool.and_eq_true, decide_eq_true_eq, length, not_or, Int32.le_iff_toInt_le,
      Int32.lt_iff_toInt_lt]
    have zero : (0 : Int32).toInt = 0 := rfl
    omega
  refine ⟨j, c, size, items, earlier, found, makes, positive, there, length, ?_, ?_⟩
  · rw [← length]
    by_cases out : index < 0 ∨ size ≤ index
    · rw [if_neg fun h => inside.mp h out] at step
      exact iff_of_true out step
    · rw [if_pos (inside.mpr out)] at step
      obtain ⟨m', step⟩ := step
      refine iff_of_false out ?_
      simp [step]
  · intro out
    have both := inside.mpr out
    rw [if_pos both] at step
    exact ⟨by simpa using (Bool.and_eq_true_iff.mp both).2, step⟩

/-- A unit that no program is compiled to: it keeps an array of two elements inside itself, and then
takes the element after the last one. -/
def knotted : ObjectUnit where
  package := "demo"
  name := "knotted"
  globals := #[]
  entry := ⟨"main", #[], none, #[.float], #[.iconst 2, .newarray .int, .istore 0, .iload 0, .iconst 1,
    .iload 0, .fastore, .iload 0, .iconst 2, .iaload]⟩
  routines := #[]

/-- The machine before the last instruction of the unit. -/
def knottedEnd : Machine where
  unit := knotted
  frames := [⟨knotted.entry, 9, #[.array 0]⟩]
  stack := [.int 2, .array 0]
  globals := ∅
  heap := #[#[.int 0, .array 0]]

theorem arrays_safe_knotted :
    ∃ m₀, start knotted = .ok m₀ ∧
      after Console.answer 9 (m₀, ⟨[], ""⟩) = some (knottedEnd, ⟨[], ""⟩) ∧ knottedEnd.Anchored ∧
      knottedEnd.Accesses 2 0 ∧ knottedEnd.step = .fail (.indexOutOfBounds 2 2) := by
  have reached : after Console.answer 9 (⟨knotted, [⟨knotted.entry, 0, #[.float 0]⟩], [], ∅, #[]⟩,
      ⟨[], ""⟩) = some (knottedEnd, ⟨[], ""⟩) := rfl
  obtain ⟨anchored, -, accesses⟩ := arrays_safe (u := knotted) rfl reached
  have access : knottedEnd.Accesses 2 0 := .load rfl rfl (.inl rfl) rfl
  obtain ⟨-, -, size, items, -, -, -, -, there, length, fails, -⟩ := accesses 2 0 access
  obtain rfl : #[.int 0, .array 0] = items := Option.some.inj there
  refine ⟨_, rfl, reached, anchored, access, ?_⟩
  replace length : 2 = size.toInt.toNat := length
  rw [← length] at fails
  refine fails.mp (.inr (Int32.le_iff_toInt_le.mpr ?_))
  have two : (2 : Int32).toInt = 2 := rfl
  omega

end Machine

end Guarded
