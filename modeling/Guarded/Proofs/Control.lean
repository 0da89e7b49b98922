import Guarded.Proofs.Allocation
import Guarded.Proofs.Frames
import Guarded.Proofs.TypedRuns

/-!
Pieces of code and how control passes through them. The jumps of a piece lead to its own
instructions or right behind it. So an activation that has come to a piece of its code stays in it,
calls included, until it gets to the end; if it never does, it returns from there or is there for
ever.
-/

namespace Guarded

/-- Jumps from these instructions lead to them, or right behind the last. -/
def Routine.Confines (r : Routine) (lo hi : Nat) : Prop :=
  ∀ (pc : Nat) (i : Instr) (target : Nat), lo ≤ pc → pc < hi → r.code[pc]? = some i →
    i.target? = some target → lo ≤ target ∧ target ≤ hi

namespace Op.CodeAt
variable {a : Analysis} {places : Places} {r : Routine} {pos pc : Nat} {ops : List Op} {i : Instr}

/-- Where an instruction comes from: it was given as such, it is a jump, or it names a place. -/
theorem origin (code : CodeAt a places r.code pos ops) (low : pos ≤ pc)
    (high : pc < pos + sizeAll ops) (found : r.code[pc]? = some i) :
    ∃ xs op ys, ops = xs ++ op :: ys ∧ pos + sizeAll xs = pc ∧ op.size = 1 ∧
      (op = .instr i ∨ (∃ j d, op = .jump j d ∧ i = j.instr (pc + d).toNat) ∨
        i.isNameless = false ∧ i.target? = none) := by
  obtain ⟨xs, op, ys, i', rfl, before, one, found', becomes⟩ :=
    code.item (k := pc - pos) (by omega)
  rw [Nat.add_sub_cancel' low] at found' becomes
  obtain rfl := Option.some.inj (found.symm.trans found')
  refine ⟨xs, op, ys, rfl, by omega, one, ?_⟩
  cases op with
  | instr => exact Or.inl (congrArg _ (Eq.symm becomes))
  | jump j d => exact Or.inr (Or.inl ⟨j, d, rfl, becomes⟩)
  | load x | store x =>
    obtain ⟨place, slot, -, -, rfl⟩ := becomes
    refine Or.inr (Or.inr ?_)
    cases place <;> cases slot <;> exact ⟨rfl, rfl⟩
  | invoke x =>
    obtain ⟨name, -, rfl⟩ := becomes
    exact Or.inr (Or.inr ⟨rfl, rfl⟩)
  | method | fault => exact becomes.elim

theorem confines (code : CodeAt a places r.code pos ops) (contained : Contained 0 1 ops) :
    r.Confines pos (pos + sizeAll ops) := by
  intro pc i target low high found jumps
  obtain ⟨xs, op, ys, rfl, before, -, rfl | ⟨j, d, rfl, rfl⟩ | ⟨-, plain⟩⟩ :=
    code.origin low high found
  · rw [Instr.target?_of_isNameless contained.item] at jumps
    cases jumps
  · have goes : (pc + d).toNat = target := by
      cases j <;> exact Option.some.inj jumps
    obtain ⟨back, ahead⟩ := contained.item
    simp only [sizeAll_append, sizeAll_cons, size]
    omega
  · rw [plain] at jumps
    cases jumps

/-- Code that only goes on does not end an activation. -/
theorem stays_of_onward (code : CodeAt a places r.code pos ops) (onward : Onward ops)
    (low : pos ≤ pc) (high : pc < pos + sizeAll ops) (found : r.code[pc]? = some i) :
    i.isReturn = false := by
  obtain ⟨xs, op, ys, rfl, -, -, rfl | ⟨j, d, rfl, rfl⟩ | ⟨names, -⟩⟩ := code.origin low high found
  · exact onward.item.2.1
  · cases j <;> rfl
  · cases i with
    | ireturn | freturn | ret => cases names
    | _ => rfl

/-- What comes after such code does not branch on the order of floats. -/
theorem not_compared_of_onward (code : CodeAt a places r.code pos ops) (onward : Onward ops)
    (some : 0 < sizeAll ops) : ¬ r.Compared (pos + sizeAll ops) := by
  rintro ⟨k, last, orders⟩
  obtain ⟨i, found, order⟩ : ∃ i, r.code[k]? = .some i ∧ (i = .fcmpl ∨ i = .fcmpg) := by
    rcases orders with found | found
    · exact ⟨_, found, Or.inl rfl⟩
    · exact ⟨_, found, Or.inr rfl⟩
  obtain ⟨xs, op, ys, rfl, before, one, rfl | ⟨j, d, rfl, rfl⟩ | ⟨names, -⟩⟩ :=
    code.origin (by omega) (by omega) found
  · have more := onward.item.2.2 order
    rw [sizeAll_append, sizeAll_cons] at last
    omega
  · cases j <;> simp [Jump.instr] at order
  · rcases order with rfl | rfl <;> cases names

end Op.CodeAt

namespace Spot

/-- The activation is in a piece of its code: it is at one of the instructions, or waits for a call
that one of them has made. -/
def Inside (q : Spot) (lo hi : Nat) (m : Machine) : Prop :=
  ∃ pc, lo ≤ pc ∧ (pc < hi ∧ q.At pc m ∨ pc ≤ hi ∧ q.Waits pc m)

section
variable {σ : Type} {host : Machine.Host σ} {u : ObjectUnit} {types : List Slot} {q : Spot}
variable {lo hi pc : Nat} {m m' : Machine} {s s' : σ}

theorem At.eq_machine (at_ : q.At pc m) (same : m.unit = q.unit) :
    ∃ stack mem, m = q.machine pc stack mem := by
  obtain ⟨locals, frames⟩ := at_
  obtain ⟨unit, _, stack, globals, heap⟩ := m
  obtain rfl := frames
  obtain rfl : unit = q.unit := same
  exact ⟨stack, ⟨locals, globals, heap⟩, rfl⟩

/-- Past the last instruction the piece is done. -/
theorem At.arrives (at_ : q.At pc m) (low : lo ≤ pc) (high : pc ≤ hi) :
    q.Inside lo hi m ∨ q.At hi m := by
  rcases Nat.lt_or_eq_of_le high with less | rfl
  · exact Or.inl ⟨pc, low, Or.inl ⟨less, at_⟩⟩
  · exact Or.inr at_

/-- While the activation waits, it goes on waiting or is the one to go on. -/
theorem Waits.advance (waits : q.Waits pc m)
    (next : Machine.advance host (m, s) = .inl (m', s')) : q.Waits pc m' ∨ q.At pc m' := by
  obtain ⟨f, above, locals, frames⟩ := waits
  obtain ⟨f', below, frames', -, shift⟩ := Machine.advance_shift next
  obtain ⟨rfl, rfl⟩ := List.cons.inj (frames.symm.trans frames')
  cases shift with
  | top g _ frames => exact Or.inl ⟨g, above, locals, frames⟩
  | call _ _ g _ _ _ _ frames => exact Or.inl ⟨g, _ :: above, locals, frames⟩
  | back _ frames =>
    cases above with
    | nil => exact Or.inr ⟨locals, frames⟩
    | cons g above => exact Or.inl ⟨g, above, locals, frames⟩

/-- A step from inside a piece of code stays inside, gets to its end or returns. -/
theorem Inside.advance (unitTyped : u.Typed) (conforms : m.Conforms u types) (same : q.unit = u)
    (confines : q.routine.Confines lo hi) (inside : q.Inside lo hi m)
    (next : Machine.advance host (m, s) = .inl (m', s')) :
    q.Inside lo hi m' ∨ q.At hi m' ∨ m'.frames = q.frames ∧
      ∃ pc i, lo ≤ pc ∧ pc < hi ∧ q.routine.code[pc]? = some i ∧ i.isReturn = true := by
  obtain ⟨pc, low, ⟨high, at_⟩ | ⟨high, waits⟩⟩ := inside
  · cases (conforms.step unitTyped next).2 q pc same at_ with
    | next at_ => exact (at_.arrives (by omega) high).imp_right Or.inl
    | jump here jumps at_ =>
      obtain ⟨low', high'⟩ := confines pc _ _ low high here jumps
      exact (at_.arrives low' high').imp_right Or.inl
    | call waits => exact Or.inl ⟨pc + 1, by omega, Or.inr ⟨high, waits⟩⟩
    | back here returns frames => exact Or.inr (Or.inr ⟨frames, pc, _, low, high, here, returns⟩)
  · rcases waits.advance next with waits | at_
    · exact Or.inl ⟨pc, low, Or.inr ⟨high, waits⟩⟩
    · exact (at_.arrives low high).imp_right Or.inl

end

section
variable {σ : Type} (host : Machine.Host σ) (q : Spot) (lo hi : Nat)

/-- The run comes from one configuration to another, and the activation is in a piece of its code
till then. -/
def Travels (c c' : Machine × σ) : Prop :=
  ∃ n, Machine.after host n c = some c' ∧
    ∀ k < n, ∀ d, Machine.after host k c = some d → q.Inside lo hi d.1

/-- The activation gets to the end of a piece of its code. -/
def Crosses (c c' : Machine × σ) : Prop :=
  q.Travels host lo hi c c' ∧ q.At hi c'.1

/-- The activation ends in a piece of its code. -/
def Returns (c : Machine × σ) : Prop :=
  ∃ c', q.Travels host lo hi c c' ∧ c'.1.frames = q.frames

/-- The activation is in a piece of its code for as long as the program runs. -/
def Remains (c : Machine × σ) : Prop :=
  ∀ n d, Machine.after host n c = some d → q.Inside lo hi d.1

end

section
variable {σ : Type} {host : Machine.Host σ} {u : ObjectUnit} {types : List Slot} {q : Spot}
variable {lo hi : Nat} {c c' : Machine × σ}

/-- An activation that has come to a piece of its code gets to the end, unless it stays there or
returns. -/
theorem passes (unitTyped : u.Typed) (conforms : c.1.Conforms u types) (same : q.unit = u)
    (confines : q.routine.Confines lo hi) (le : lo ≤ hi) (at_ : q.At lo c.1) :
    q.Remains host lo hi c ∨ (∃ c', q.Crosses host lo hi c c') ∨ q.Returns host lo hi c ∧
      ∃ pc i, lo ≤ pc ∧ pc < hi ∧ q.routine.code[pc]? = some i ∧ i.isReturn = true := by
  classical
  by_cases leaves : ∃ n d, Machine.after host n c = some d ∧ ¬ q.Inside lo hi d.1
  · -- The first configuration outside is the end of the piece or comes after a return.
    obtain ⟨d, run, outside⟩ := Nat.find_spec leaves
    have before (k : Nat) (less : k < Nat.find leaves) (e : Machine × σ)
        (run : Machine.after host k c = some e) : q.Inside lo hi e.1 :=
      not_not.mp fun outside => Nat.find_min leaves less ⟨e, run, outside⟩
    have travels : q.Travels host lo hi c d := ⟨_, run, before⟩
    cases found : Nat.find leaves with
    | zero =>
      rw [found] at run
      obtain rfl : c = d := by simpa [Machine.after] using run
      rcases at_.arrives (le_refl lo) le with inside | at_
      · exact absurd inside outside
      · exact Or.inr (Or.inl ⟨c, travels, at_⟩)
    | succ n =>
      rw [found] at run
      obtain ⟨e, earlier, next⟩ := Machine.after_last.mp run
      obtain ⟨types', conforms'⟩ := conforms.after unitTyped earlier
      rcases (before n (by omega) e earlier).advance unitTyped conforms' same confines next with
        inside | at_ | ⟨frames, returns⟩
      · exact absurd inside outside
      · exact Or.inr (Or.inl ⟨d, travels, at_⟩)
      · exact Or.inr (Or.inr ⟨⟨d, travels, frames⟩, returns⟩)
  · refine Or.inl fun n d run => not_not.mp fun outside => leaves ⟨n, d, run, outside⟩

end

end Spot

end Guarded
