import Guarded.Object.Draft
import Guarded.Proofs.Sequencing

/-!
The branches of a draft. What was written at a position is an instruction that stays or a branch to a
label, and the list of fixups is all that tells them apart: a branch to a label holds the label where
a finished branch holds its target.

Finishing patches the code in place, one fixup after the other. The main statement is that this is
the same as resolving each entry by itself, so no label is ever taken for a target, nor a target for
a label.
-/

namespace Guarded

theorem Jump.target?_instr (j : Jump) (target : Nat) : (j.instr target).target? = some target := by
  cases j <;> rfl

theorem Jump.retarget_instr (j : Jump) (target other : Nat) :
    (j.instr target).retarget other = j.instr other := by
  cases j <;> rfl

namespace Draft

/-- What was written at one position. -/
inductive Entry where
  | plain (i : Instr)
  | branch (j : Jump) (label : Label)

namespace Entry

/-- The instruction in the code of the draft. -/
def raw : Entry → Instr
  | plain i => i
  | branch j label => j.instr label

/-- The positions of the branches to labels, where the first entry is at `pos`. -/
def marks : Nat → List Entry → List Nat
  | _, [] => []
  | pos, plain _ :: entries => marks (pos + 1) entries
  | pos, branch .. :: entries => pos :: marks (pos + 1) entries

theorem marks_append (pos : Nat) (xs ys : List Entry) :
    marks pos (xs ++ ys) = marks pos xs ++ marks (pos + xs.length) ys := by
  induction xs generalizing pos with
  | nil => rfl
  | cons x xs ih =>
    have next : pos + (xs.length + 1) = pos + 1 + xs.length := by omega
    cases x <;> simp [marks, ih, next]

theorem le_of_mem_marks {pos k : Nat} {entries : List Entry} (mem : k ∈ marks pos entries) :
    pos ≤ k := by
  induction entries generalizing pos with
  | nil => simp [marks] at mem
  | cons entry entries ih =>
    cases entry with
    | plain i =>
      have := ih mem
      omega
    | branch j label =>
      rcases List.mem_cons.mp mem with rfl | mem
      · exact Nat.le_refl _
      · have := ih mem
        omega

/-- The marks are where the branches to labels are. -/
theorem mem_marks {pos k : Nat} {entries : List Entry} :
    pos + k ∈ marks pos entries ↔ ∃ j label, entries[k]? = some (branch j label) := by
  induction entries generalizing pos k with
  | nil => simp [marks]
  | cons entry entries ih =>
    cases k with
    | zero =>
      have later : pos ∉ marks (pos + 1) entries := fun mem => by
        have := le_of_mem_marks mem
        omega
      cases entry <;> simp [marks, later]
    | succ k =>
      have next : pos + (k + 1) = pos + 1 + k := by omega
      have other : pos + 1 + k ≠ pos := by omega
      cases entry <;> simp [marks, next, other, ih]

end Entry

/-- The instruction an entry becomes. -/
def resolve (d : Draft) : Entry → Except Error Instr
  | .plain i => .ok i
  | .branch j label =>
    match d.labels[label]?.join with
    | some target => .ok (j.instr target)
    | none => .error (.codeGen s!"label {label} never placed in {d.name}")

/-- The code consists of these entries, and the fixups say which of them are branches to labels. -/
structure Holds (d : Draft) (entries : List Entry) : Prop where
  code : d.code.toList = entries.map Entry.raw
  fixups : d.fixups.toList = Entry.marks 0 entries

/-- Adds an entry: an instruction as `emit` does, a branch as `jump` does. -/
def write (d : Draft) (entry : Entry) : Draft :=
  { d with
    code := d.code.push entry.raw
    fixups := match entry with
      | .plain _ => d.fixups
      | .branch .. => d.fixups.push d.code.size }

theorem Holds.size {d : Draft} {entries : List Entry} (h : d.Holds entries) :
    d.code.size = entries.length := by
  rw [← Array.length_toList, h.code, List.length_map]

theorem Holds.write {d : Draft} {entries : List Entry} (h : d.Holds entries) (entry : Entry) :
    (d.write entry).Holds (entries ++ [entry]) where
  code := by simp [Draft.write, h.code]
  fixups := by cases entry <;> simp [Draft.write, h.fixups, h.size, Entry.marks_append, Entry.marks]

/-- Patching a branch to a label resolves it and leaves all other instructions alone. -/
theorem patch_branch (d : Draft) (before after : List Instr) (j : Jump) (label : Label) :
    d.patch (before ++ j.instr label :: after).toArray before.length =
      (d.resolve (.branch j label)).map fun i => (before ++ i :: after).toArray := by
  have found : (before ++ j.instr label :: after).toArray[before.length]? = some (j.instr label) := by
    simp
  simp only [patch, found, j.target?_instr, resolve]
  cases d.labels[label]?.join with
  | none => rfl
  | some target => simp [Except.map, j.retarget_instr]

/-- Patching entry after entry, behind instructions that are finished. -/
theorem patch_entries (d : Draft) (entries : List Entry) (done : List Instr) :
    (Entry.marks done.length entries).foldlM d.patch (done ++ entries.map Entry.raw).toArray =
      (entries.mapM d.resolve).map fun code => (done ++ code).toArray := by
  induction entries generalizing done with
  | nil => rfl
  | cons entry entries ih =>
    have rest (i : Instr) := ih (done ++ [i])
    simp only [List.length_append, List.length_singleton, List.append_assoc,
      List.singleton_append] at rest
    rw [List.mapM_cons]
    cases entry with
    | plain i =>
      rw [Entry.marks, List.map_cons, Entry.raw, rest]
      cases entries.mapM d.resolve <;> rfl
    | branch j label =>
      rw [Entry.marks, List.foldlM_cons, List.map_cons, Entry.raw, d.patch_branch]
      cases d.resolve (.branch j label) with
      | error e => rfl
      | ok i =>
        refine (rest i).trans ?_
        cases entries.mapM d.resolve <;> rfl

/-- Finishing resolves every entry. -/
theorem Holds.finish {d : Draft} {entries : List Entry} (h : d.Holds entries) :
    d.finish = (entries.mapM d.resolve).map fun code =>
      ⟨d.name, d.params, d.result, d.locals, code.toArray⟩ := by
  have patched := d.patch_entries entries []
  rw [List.nil_append, ← h.code, List.length_nil, ← h.fixups, Array.foldlM_toList,
    Array.toArray_toList] at patched
  rw [Draft.finish, patched]
  cases entries.mapM d.resolve <;> rfl

theorem Holds.finish_ok_iff {d : Draft} {entries : List Entry} (h : d.Holds entries) {r : Routine} :
    d.finish = .ok r ↔ ∃ code, entries.mapM d.resolve = .ok code ∧
      r = ⟨d.name, d.params, d.result, d.locals, code.toArray⟩ := by
  rw [h.finish]
  cases entries.mapM d.resolve with
  | error e => simp [Except.map]
  | ok code => simp [Except.map, eq_comm]

theorem Holds.finish_error {d : Draft} {entries : List Entry} (h : d.Holds entries) {e : Error}
    (failed : d.finish = .error e) : entries.mapM d.resolve = .error e := by
  rw [h.finish] at failed
  cases run : entries.mapM d.resolve with
  | error e' =>
    rw [run] at failed
    cases failed
    rfl
  | ok code =>
    rw [run] at failed
    cases failed

end Draft

end Guarded
