import Guarded.Proofs.Fixups
import Mathlib.Data.List.Induction
import Mathlib.Data.List.Infix

/-!
Routines under construction, seen from outside. What becomes of any sequence of operations can be
read off the sequence: every operation that writes leaves one instruction, a branch goes to where
its label was placed last, and local slots are numbered as they are granted.

The state of a draft reflects the operations that led to it. Each operation keeps this, and so does
any sequence of them.
-/

namespace Guarded

/-- What can be done to a routine under construction. -/
inductive DraftOp where
  | newLabel
  | place (label : Label)
  | jump (j : Jump) (label : Label)
  | emit (i : Instr)
  | allocLocal (slot : Slot)
deriving DecidableEq

inductive DraftAnswer where
  | done
  | label (label : Label)
  | slot (n : Nat)
  | refused (e : Error)
deriving DecidableEq

namespace DraftOp

/-- The label the operation is about. -/
def label? : DraftOp → Option Label
  | place label | jump _ label => some label
  | newLabel | emit _ | allocLocal _ => none

/-- Whether the operation adds an instruction. -/
def writes : DraftOp → Bool
  | jump .. | emit _ => true
  | newLabel | place _ | allocLocal _ => false

/-- The slot that a granted allocation asked for, with its number. -/
def grant? : DraftOp → DraftAnswer → Option (Slot × Nat)
  | allocLocal slot, .slot n => some (slot, n)
  | _, _ => none

end DraftOp

def DraftAnswer.label? : DraftAnswer → Option Label
  | label l => some l
  | done | slot _ | refused _ => none

namespace Draft

def perform (d : Draft) : DraftOp → DraftAnswer × Draft
  | .newLabel => (.label d.newLabel.1, d.newLabel.2)
  | .place label => (.done, d.place label)
  | .jump j label => (.done, d.jump j label)
  | .emit i => (.done, d.emit i)
  | .allocLocal slot =>
    match d.allocLocal slot with
    | .ok n d => (.slot n, d)
    | .error e d => (.refused e, d)

/-- One operation after the other, with all answers. -/
def performAll (d : Draft) : List DraftOp → List DraftAnswer × Draft
  | [] => ([], d)
  | op :: ops =>
    let rest := (d.perform op).2.performAll ops
    ((d.perform op).1 :: rest.1, rest.2)

/-- Every label that is used was handed out before. -/
def HandedOut (ops : List DraftOp) (answers : List DraftAnswer) : Prop :=
  ∀ i < ops.length, ∀ l ∈ ops[i]?.bind DraftOp.label?, .label l ∈ answers.take i

instance (ops : List DraftOp) (answers : List DraftAnswer) : Decidable (HandedOut ops answers) :=
  inferInstanceAs (Decidable (∀ i < ops.length, ∀ l ∈ ops[i]?.bind DraftOp.label?, _))

/-- The number of instructions the operations add. -/
def written (ops : List DraftOp) : Nat :=
  ops.countP DraftOp.writes

/-- The label was placed, the last time before the instruction with this number. -/
def PlacedLast (ops : List DraftOp) (l : Label) (n : Nat) : Prop :=
  ∃ before after, ops = before ++ .place l :: after ∧ .place l ∉ after ∧ n = written before

/-- What an operation that writes leaves in the finished code. -/
inductive Becomes (ops : List DraftOp) : DraftOp → Instr → Prop where
  | emit (i : Instr) : Becomes ops (.emit i) i
  | jump {j : Jump} {l : Label} {n : Nat} (placed : PlacedLast ops l n) :
    Becomes ops (.jump j l) (j.instr n)

/-- The granted allocations in order. -/
def grants (ops : List DraftOp) (answers : List DraftAnswer) : List (Slot × Nat) :=
  (ops.zip answers).filterMap fun x => x.1.grant? x.2

section Sequences
variable {ops : List DraftOp} {answers : List DraftAnswer} {op : DraftOp} {answer : DraftAnswer}
variable {l : Label} {n : Nat}

theorem performAll_length (d : Draft) (ops : List DraftOp) :
    (d.performAll ops).1.length = ops.length := by
  induction ops generalizing d with
  | nil => rfl
  | cons op ops ih => simp [performAll, ih]

theorem performAll_concat (d : Draft) (ops : List DraftOp) (op : DraftOp) :
    d.performAll (ops ++ [op]) =
      ((d.performAll ops).1 ++ [((d.performAll ops).2.perform op).1],
        ((d.performAll ops).2.perform op).2) := by
  induction ops generalizing d with
  | nil => rfl
  | cons first ops ih => simp only [List.cons_append, performAll, ih]

theorem grants_concat (same : answers.length = ops.length) (op : DraftOp) (answer : DraftAnswer) :
    grants (ops ++ [op]) (answers ++ [answer]) =
      grants ops answers ++ (op.grant? answer).toList := by
  rw [grants, grants, List.zip_append same.symm, List.filterMap_append]
  cases given : op.grant? answer with
  | none => simp [given]
  | some x => simp [given]

theorem handedOut_concat (same : answers.length = ops.length) :
    HandedOut (ops ++ [op]) (answers ++ [answer]) ↔
      HandedOut ops answers ∧ ∀ l ∈ op.label?, .label l ∈ answers := by
  constructor
  · intro handed
    constructor
    · intro i below l used
      have earlier := handed i (by simp; omega) l (by rwa [List.getElem?_append_left below])
      rwa [List.take_append_of_le_length (by omega)] at earlier
    · intro l used
      have own := handed ops.length (by simp) l (by simpa using used)
      rwa [← same, List.take_left] at own
  · rintro ⟨handed, own⟩ i below l used
    rw [List.length_append, List.length_singleton] at below
    by_cases last : i = ops.length
    · subst last
      rw [← same, List.take_left]
      exact own l (by simpa using used)
    · have inside : i < ops.length := by omega
      rw [List.take_append_of_le_length (by omega)]
      exact handed i inside l (by rwa [List.getElem?_append_left inside] at used)

theorem PlacedLast.mem (placed : PlacedLast ops l n) : .place l ∈ ops := by
  obtain ⟨before, after, rfl, -, -⟩ := placed
  simp

/-- A label that is placed at all is placed a last time. -/
theorem exists_placedLast (mem : .place l ∈ ops) : ∃ n, PlacedLast ops l n := by
  induction ops using List.reverseRecOn with
  | nil => simp at mem
  | append_singleton ops op ih =>
    by_cases last : op = .place l
    · exact ⟨_, ops, [], by rw [last], by simp, rfl⟩
    · have earlier : .place l ∈ ops := by
        rcases List.mem_append.mp mem with mem | mem
        · exact mem
        · exact absurd (List.mem_singleton.mp mem).symm last
      obtain ⟨n, before, after, rfl, never, rfl⟩ := ih earlier
      refine ⟨_, before, after ++ [op], by simp, ?_, rfl⟩
      simp [never, Ne.symm last]

/-- Placing a label overrides all earlier places. -/
theorem placedLast_place : PlacedLast (ops ++ [.place l]) l n ↔ n = written ops := by
  constructor
  · rintro ⟨before, after, split, never, rfl⟩
    rcases List.eq_nil_or_concat after with rfl | ⟨rest, op, rfl⟩
    · rw [(List.append_inj_left' split rfl)]
    · rw [List.concat_eq_append, ← List.cons_append, ← List.append_assoc] at split
      have last : DraftOp.place l = op := List.singleton_inj.mp (List.append_inj_right' split rfl)
      simp [last] at never
  · rintro rfl
    exact ⟨ops, [], rfl, by simp, rfl⟩

theorem placedLast_other (other : op ≠ .place l) :
    PlacedLast (ops ++ [op]) l n ↔ PlacedLast ops l n := by
  constructor
  · rintro ⟨before, after, split, never, rfl⟩
    rcases List.eq_nil_or_concat after with rfl | ⟨rest, last, rfl⟩
    · exact absurd (List.singleton_inj.mp (List.append_inj_right' split rfl)) other
    · rw [List.concat_eq_append, ← List.cons_append, ← List.append_assoc] at split
      have earlier := List.append_inj_left' split rfl
      refine ⟨before, rest, earlier, ?_, rfl⟩
      intro mem
      exact never (by simp [mem])
  · rintro ⟨before, after, rfl, never, rfl⟩
    refine ⟨before, after ++ [op], by simp, ?_, rfl⟩
    simp [never, Ne.symm other]

end Sequences

/-- What an operation adds to the code of a draft. -/
def added? : DraftOp → Option Draft.Entry
  | .emit i => some (.plain i)
  | .jump j l => some (.branch j l)
  | .newLabel | .place _ | .allocLocal _ => none

/-- The draft shows which operations have been performed on a new one, and how they were answered.
-/
structure Reflects (name : String) (params : Array Slot) (result : Option Slot)
    (ops : List DraftOp) (answers : List DraftAnswer) (d : Draft) : Prop where
  name : d.name = name
  params : d.params = params
  result : d.result = result
  answered : answers.length = ops.length
  holds : d.Holds (ops.filterMap added?)
  labels : answers.filterMap DraftAnswer.label? = List.range d.labels.size
  /-- Only labels that were handed out are placed. -/
  known : ∀ l, .place l ∈ ops → l < d.labels.size
  placed : ∀ l n, d.labels[l]? = some (some n) ↔ PlacedLast ops l n
  locals : d.locals.toList = (grants ops answers).map Prod.fst
  slots : (grants ops answers).map Prod.snd = List.range d.locals.size

namespace Reflects
variable {name : String} {params : Array Slot} {result : Option Slot}
variable {ops : List DraftOp} {answers : List DraftAnswer} {d : Draft} {l : Label}

theorem start : Reflects name params result [] [] (start name params result) where
  name := rfl
  params := rfl
  result := rfl
  answered := rfl
  holds := ⟨rfl, rfl⟩
  labels := rfl
  known := by simp
  placed := by simp [Draft.start, PlacedLast]
  locals := rfl
  slots := rfl

/-- An operation that writes nothing leaves the entries as they are. -/
theorem holds_other (h : Reflects name params result ops answers d) {op : DraftOp} {d' : Draft}
    (silent : added? op = none) (code : d'.code = d.code) (fixups : d'.fixups = d.fixups) :
    d'.Holds ((ops ++ [op]).filterMap added?) := by
  rw [List.filterMap_append, List.filterMap_cons_none silent, List.filterMap_nil, List.append_nil]
  exact ⟨code ▸ h.holds.code, fixups ▸ h.holds.fixups⟩

theorem size_code (h : Reflects name params result ops answers d) : d.code.size = written ops := by
  have each : (fun op => (added? op).isSome) = DraftOp.writes := by
    funext op
    cases op <;> rfl
  rw [h.holds.size, List.length_filterMap_eq_countP, each, written]

theorem lt_size (h : Reflects name params result ops answers d) (handed : .label l ∈ answers) :
    l < d.labels.size := by
  have listed : l ∈ answers.filterMap DraftAnswer.label? := List.mem_filterMap.mpr ⟨_, handed, rfl⟩
  rw [h.labels] at listed
  exact List.mem_range.mp listed

/-- An operation that neither places a label nor hands one out leaves all places as they are. -/
theorem placed_other (h : Reflects name params result ops answers d) {op : DraftOp}
    (other : ∀ l, op ≠ .place l) (l : Label) (n : Nat) :
    d.labels[l]? = some (some n) ↔ PlacedLast (ops ++ [op]) l n := by
  rw [placedLast_other (other l)]
  exact h.placed l n

theorem known_other (h : Reflects name params result ops answers d) {op : DraftOp}
    (other : ∀ l, op ≠ .place l) {l : Label} (mem : .place l ∈ ops ++ [op]) :
    l < d.labels.size := by
  rcases List.mem_append.mp mem with mem | mem
  · exact h.known l mem
  · exact absurd (List.mem_singleton.mp mem).symm (other l)

theorem newLabel (h : Reflects name params result ops answers d) :
    Reflects name params result (ops ++ [.newLabel]) (answers ++ [.label d.labels.size])
      d.newLabel.2 where
  name := h.name
  params := h.params
  result := h.result
  answered := by simp [h.answered]
  holds := h.holds_other rfl rfl rfl
  labels := by simp [Draft.newLabel, h.labels, DraftAnswer.label?, List.range_succ]
  known l mem := by
    have below := h.known_other (by simp) mem
    simp only [Draft.newLabel, Array.size_push]
    exact Nat.lt_succ_of_lt below
  placed l n := by
    rw [← h.placed_other (by simp)]
    by_cases new : l = d.labels.size
    · simp [Draft.newLabel, new]
    · simp [Draft.newLabel, Array.getElem?_push, new]
  locals := by simp [Draft.newLabel, h.locals, grants_concat h.answered, DraftOp.grant?]
  slots := by simp [Draft.newLabel, h.slots, grants_concat h.answered, DraftOp.grant?]

theorem place (h : Reflects name params result ops answers d) (handed : .label l ∈ answers) :
    Reflects name params result (ops ++ [.place l]) (answers ++ [.done]) (d.place l) where
  name := h.name
  params := h.params
  result := h.result
  answered := by simp [h.answered]
  holds := h.holds_other rfl rfl rfl
  labels := by simp [Draft.place, h.labels, DraftAnswer.label?]
  known l' mem := by
    simp only [Draft.place, Array.size_setIfInBounds]
    rcases List.mem_append.mp mem with mem | mem
    · exact h.known l' mem
    · obtain rfl : l' = l := by simpa using mem
      exact h.lt_size handed
  placed l' n := by
    have below := h.lt_size handed
    by_cases same : l = l'
    · subst same
      simp [Draft.place, placedLast_place, below, h.size_code, eq_comm]
    · rw [placedLast_other (by simpa using same), ← h.placed]
      simp [Draft.place, Array.getElem?_setIfInBounds_ne same]
  locals := by simp [Draft.place, h.locals, grants_concat h.answered, DraftOp.grant?]
  slots := by simp [Draft.place, h.slots, grants_concat h.answered, DraftOp.grant?]

/-- Adding an instruction or a branch. -/
theorem write (h : Reflects name params result ops answers d) {op : DraftOp}
    {entry : Draft.Entry} (adds : added? op = some entry) :
    Reflects name params result (ops ++ [op]) (answers ++ [.done]) (d.write entry) where
  name := h.name
  params := h.params
  result := h.result
  answered := by simp [h.answered]
  holds := by simpa [adds] using h.holds.write entry
  labels := by simp [Draft.write, h.labels, DraftAnswer.label?]
  known l mem := h.known_other (by rintro l rfl; cases adds) mem
  placed := h.placed_other (by rintro l rfl; cases adds)
  locals := by simp [Draft.write, h.locals, grants_concat h.answered, DraftOp.grant?]
  slots := by simp [Draft.write, h.slots, grants_concat h.answered, DraftOp.grant?]

theorem grant (h : Reflects name params result ops answers d) (slot : Slot) :
    Reflects name params result (ops ++ [.allocLocal slot]) (answers ++ [.slot d.locals.size])
      { d with locals := d.locals.push slot } where
  name := h.name
  params := h.params
  result := h.result
  answered := by simp [h.answered]
  holds := h.holds_other rfl rfl rfl
  labels := by simp [h.labels, DraftAnswer.label?]
  known l mem := h.known_other (by simp) mem
  placed := h.placed_other (by simp)
  locals := by simp [h.locals, grants_concat h.answered, DraftOp.grant?]
  slots := by simp [h.slots, grants_concat h.answered, DraftOp.grant?, List.range_succ]

theorem refuse (h : Reflects name params result ops answers d) (slot : Slot) (e : Error) :
    Reflects name params result (ops ++ [.allocLocal slot]) (answers ++ [.refused e]) d where
  name := h.name
  params := h.params
  result := h.result
  answered := by simp [h.answered]
  holds := h.holds_other rfl rfl rfl
  labels := by simp [h.labels, DraftAnswer.label?]
  known l mem := h.known_other (by simp) mem
  placed := h.placed_other (by simp)
  locals := by simp [h.locals, grants_concat h.answered, DraftOp.grant?]
  slots := by simp [h.slots, grants_concat h.answered, DraftOp.grant?]

end Reflects

theorem perform_allocLocal (d : Draft) (slot : Slot) :
    d.perform (.allocLocal slot) =
      if d.locals.size < slotLimit then
        (.slot d.locals.size, { d with locals := d.locals.push slot })
      else (.refused (.codeGen s!"too many locals in {d.name}"), d) := by
  rw [perform, allocLocal]
  by_cases room : d.locals.size < slotLimit
  · simp only [room, if_true]
  · simp only [room, if_false]

namespace Reflects
variable {name : String} {params : Array Slot} {result : Option Slot}
variable {ops : List DraftOp} {answers : List DraftAnswer} {d : Draft}

/-- What one operation keeps. -/
theorem perform (h : Reflects name params result ops answers d) {op : DraftOp}
    (handed : ∀ l ∈ op.label?, .label l ∈ answers) :
    Reflects name params result (ops ++ [op]) (answers ++ [(d.perform op).1]) (d.perform op).2 := by
  cases op with
  | newLabel => exact h.newLabel
  | place l => exact h.place (handed l rfl)
  | jump j l => exact h.write (show added? (.jump j l) = some (.branch j l) from rfl)
  | emit i => exact h.write (show added? (.emit i) = some (.plain i) from rfl)
  | allocLocal slot =>
    rw [perform_allocLocal]
    by_cases room : d.locals.size < slotLimit
    · rw [if_pos room]
      exact h.grant slot
    · rw [if_neg room]
      exact h.refuse slot _

/-- What a whole sequence of operations keeps. -/
theorem performAll (name : String) (params : Array Slot) (result : Option Slot) (ops : List DraftOp)
    (handed : HandedOut ops ((Draft.start name params result).performAll ops).1) :
    Reflects name params result ops ((Draft.start name params result).performAll ops).1
      ((Draft.start name params result).performAll ops).2 := by
  induction ops using List.reverseRecOn with
  | nil => exact .start
  | append_singleton ops op ih =>
    rw [performAll_concat] at handed ⊢
    obtain ⟨earlier, own⟩ := (handedOut_concat (performAll_length _ ops)).mp handed
    exact (ih earlier).perform own

theorem length_grants (h : Reflects name params result ops answers d) :
    (grants ops answers).length = d.locals.size := by
  rw [← Array.length_toList, h.locals, List.length_map]

theorem resolve_jump (h : Reflects name params result ops answers d) (j : Jump) {l : Label}
    {n : Nat} (placed : PlacedLast ops l n) : d.resolve (.branch j l) = .ok (j.instr n) := by
  have found := (h.placed l n).mpr placed
  simp [resolve, found]

theorem resolve_unplaced (h : Reflects name params result ops answers d) (j : Jump) {l : Label}
    (never : .place l ∉ ops) :
    d.resolve (.branch j l) = .error (.codeGen s!"label {l} never placed in {name}") := by
  have missing : d.labels[l]?.join = none := by
    by_contra found
    obtain ⟨n, some⟩ := Option.ne_none_iff_exists'.mp found
    exact never ((h.placed l n).mp (Option.join_eq_some_iff.mp some)).mem
  simp [resolve, missing, h.name]

/-- An entry of the code is resolved as the operation that made it asks. -/
theorem becomes (h : Reflects name params result ops answers d) {op : DraftOp}
    {entry : Draft.Entry} {i : Instr} (adds : added? op = some entry)
    (resolved : d.resolve entry = .ok i) : Becomes ops op i := by
  cases op with
  | newLabel | place | allocLocal => cases adds
  | emit own =>
    cases adds
    obtain rfl : own = i := Except.ok.inj resolved
    exact .emit own
  | jump j l =>
    cases adds
    by_cases mem : .place l ∈ ops
    · obtain ⟨n, placed⟩ := exists_placedLast mem
      rw [h.resolve_jump j placed] at resolved
      cases resolved
      exact .jump placed
    · rw [h.resolve_unplaced j mem] at resolved
      cases resolved

theorem becomes_all (h : Reflects name params result ops answers d) (part : List DraftOp)
    {code : List Instr}
    (resolved : List.Forall₂ (fun x i => d.resolve x = .ok i) (part.filterMap added?) code) :
    List.Forall₂ (Becomes ops) (part.filter DraftOp.writes) code := by
  induction part generalizing code with
  | nil =>
    cases resolved
    exact .nil
  | cons op part ih =>
    cases adds : added? op with
    | none =>
      have silent : op.writes = false := by cases op <;> first | rfl | cases adds
      rw [List.filterMap_cons_none adds] at resolved
      rw [List.filter_cons_of_neg (by simp [silent])]
      exact ih resolved
    | some entry =>
      have writes : op.writes = true := by cases op <;> first | rfl | cases adds
      rw [List.filterMap_cons_some adds] at resolved
      rw [List.filter_cons_of_pos writes]
      cases resolved with
      | cons own rest => exact .cons (h.becomes adds own) (ih rest)

end Reflects

namespace Reflects
variable {name : String} {params : Array Slot} {result : Option Slot}
variable {ops : List DraftOp} {answers : List DraftAnswer} {d : Draft}

theorem finish_ok (h : Reflects name params result ops answers d) {r : Routine}
    (finished : d.finish = .ok r) :
    r.name = name ∧ r.params = params ∧ r.result = result ∧
      List.Forall₂ (Becomes ops) (ops.filter DraftOp.writes) r.code.toList ∧
      r.locals.toList = (grants ops answers).map Prod.fst := by
  obtain ⟨code, resolved, rfl⟩ := h.holds.finish_ok_iff.mp finished
  exact ⟨h.name, h.params, h.result, h.becomes_all ops (except_mapM_ok resolved), h.locals⟩

/-- Without a label that was never placed, there is nothing to fail on. -/
theorem finishes (h : Reflects name params result ops answers d)
    (placed : ∀ j l, .jump j l ∈ ops → .place l ∈ ops) : ∃ r, d.finish = .ok r := by
  have each : ∀ x ∈ ops.filterMap added?, ∃ i, d.resolve x = .ok i := by
    intro x mem
    obtain ⟨op, performed, adds⟩ := List.mem_filterMap.mp mem
    cases op with
    | newLabel | place | allocLocal => cases adds
    | emit i =>
      cases adds
      exact ⟨i, rfl⟩
    | jump j l =>
      cases adds
      obtain ⟨n, last⟩ := exists_placedLast (placed j l performed)
      exact ⟨_, h.resolve_jump j last⟩
  obtain ⟨code, resolved⟩ := except_mapM_isOk each
  exact ⟨_, h.holds.finish_ok_iff.mpr ⟨code, resolved, rfl⟩⟩

theorem placed_of_finish (h : Reflects name params result ops answers d) {r : Routine}
    (finished : d.finish = .ok r) {j : Jump} {l : Label} (mem : .jump j l ∈ ops) :
    .place l ∈ ops := by
  by_contra never
  obtain ⟨code, resolved, -⟩ := h.holds.finish_ok_iff.mp finished
  have each := except_mapM_ok resolved
  have entry : .branch j l ∈ ops.filterMap added? := List.mem_filterMap.mpr ⟨_, mem, rfl⟩
  obtain ⟨i, below, found⟩ := List.mem_iff_getElem.mp entry
  have own := each.get below (each.length_eq ▸ below)
  rw [List.get_eq_getElem, found, h.resolve_unplaced j never] at own
  cases own

/-- The branch that is reported is the first whose label was never placed. -/
theorem finish_fails (h : Reflects name params result ops answers d) {e : Error}
    (failed : d.finish = .error e) :
    ∃ before j l after, ops = before ++ .jump j l :: after ∧ .place l ∉ ops ∧
      (∀ j' l', .jump j' l' ∈ before → .place l' ∈ ops) ∧
      e = .codeGen s!"label {l} never placed in {name}" := by
  obtain ⟨xs, x, ys, split, fine, bad⟩ := except_mapM_error (h.holds.finish_error failed)
  obtain ⟨before, rest, whole, rfl, tail⟩ := List.filterMap_eq_append_iff.mp split
  obtain ⟨silent, op, after, rfl, none, adds, -⟩ := List.filterMap_eq_cons_iff.mp tail
  have earlier : ∀ j' l', .jump j' l' ∈ before ++ silent → .place l' ∈ ops := by
    intro j' l' mem
    by_contra never
    rcases List.mem_append.mp mem with mem | mem
    · obtain ⟨i, resolved⟩ := fine _ (List.mem_filterMap.mpr ⟨_, mem, rfl⟩)
      rw [h.resolve_unplaced j' never] at resolved
      cases resolved
    · cases none _ mem
  cases op with
  | newLabel | place | allocLocal => cases adds
  | emit i =>
    cases adds
    cases bad
  | jump j l =>
    cases adds
    have never : .place l ∉ ops := by
      intro mem
      obtain ⟨n, placed⟩ := exists_placedLast mem
      rw [h.resolve_jump j placed] at bad
      cases bad
    rw [h.resolve_unplaced j never] at bad
    refine ⟨before ++ silent, j, l, after, ?_, never, earlier, (Except.error.inj bad).symm⟩
    rw [whole, List.append_assoc]

/-- What a further allocation does. -/
theorem perform_allocLocal (h : Reflects name params result ops answers d) (slot : Slot) :
    if (grants ops answers).length < 65536 then
      (d.perform (.allocLocal slot)).1 = .slot (grants ops answers).length
    else d.perform (.allocLocal slot) = (.refused (.codeGen s!"too many locals in {name}"), d) := by
  rw [h.length_grants, Draft.perform_allocLocal, h.name, slotLimit]
  by_cases room : d.locals.size < 65536
  · simp only [room, if_true]
  · simp only [room, if_false]

end Reflects

/-- Labels are resolved as the operations say. Take any sequence of operations on a new draft that
uses only labels it handed out. To finish it succeeds exactly if every label that a branch goes to
was placed, and fails on the first branch of which this is not true. The code then has one
instruction for each operation that writes, in order: one that was emitted is unchanged, and a
branch is the one asked for, with the number of instructions before the last place of its label as
its target. The local slots are those of the allocations that were granted, numbered in order. A
further allocation gets the next number while there are fewer than `2 ^ 16`, and then is refused and
changes nothing. -/
theorem finish_performed {name : String} {params : Array Slot} {result : Option Slot}
    {ops : List DraftOp} {answers : List DraftAnswer} {d : Draft}
    (performed : (start name params result).performAll ops = (answers, d))
    (handed : HandedOut ops answers) :
    (answers.filterMap DraftAnswer.label?).Nodup ∧
    ((∃ r, d.finish = .ok r) ↔ ∀ j l, .jump j l ∈ ops → .place l ∈ ops) ∧
    (∀ r, d.finish = .ok r →
      r.name = name ∧ r.params = params ∧ r.result = result ∧
      List.Forall₂ (Becomes ops) (ops.filter DraftOp.writes) r.code.toList ∧
      r.locals.toList = (grants ops answers).map Prod.fst) ∧
    (∀ e, d.finish = .error e →
      ∃ before j l after, ops = before ++ .jump j l :: after ∧ .place l ∉ ops ∧
        (∀ j' l', .jump j' l' ∈ before → .place l' ∈ ops) ∧
        e = .codeGen s!"label {l} never placed in {name}") ∧
    (grants ops answers).map Prod.snd = List.range (grants ops answers).length ∧
    ∀ slot, if (grants ops answers).length < 65536 then
        (d.perform (.allocLocal slot)).1 = .slot (grants ops answers).length
      else d.perform (.allocLocal slot) =
        (.refused (.codeGen s!"too many locals in {name}"), d) := by
  have h : Reflects name params result ops answers d := by
    have run := Reflects.performAll name params result ops
    rw [performed] at run
    exact run handed
  refine ⟨?_, ⟨?_, h.finishes⟩, fun r => h.finish_ok, fun e => h.finish_fails, ?_,
    h.perform_allocLocal⟩
  · rw [h.labels]
    exact List.nodup_range
  · rintro ⟨r, finished⟩ j l mem
    exact h.placed_of_finish finished mem
  · rw [h.length_grants, h.slots]

/-- Labels placed before and after their branches, one of them twice, one that no branch goes to,
and a branch that was emitted with a target that looks like a label. -/
def replaced : List DraftOp :=
  [.newLabel, .newLabel, .newLabel, .place 0, .emit (.iconst 0), .jump (.onZero .eq) 1,
    .allocLocal .int, .emit (.goto 1), .place 0, .jump .always 0, .place 1,
    .jump (.onCompare .lt) 0, .allocLocal .floatArray, .emit .ret]

theorem finish_performed_replaced : ∃ answers d r,
    (start "loop" #[.int] none).performAll replaced = (answers, d) ∧
      HandedOut replaced answers ∧ d.finish = .ok r ∧
      r.code = #[.iconst 0, .branch .eq 4, .goto 1, .goto 3, .branchCompare .lt 3, .ret] ∧
      r.locals = #[.int, .floatArray] ∧
      (∀ j l, .jump j l ∈ replaced → .place l ∈ replaced) ∧
      List.Forall₂ (Becomes replaced) (replaced.filter DraftOp.writes) r.code.toList ∧
      r.locals.toList = (grants replaced answers).map Prod.fst ∧
      (d.perform (.allocLocal .int)).1 = .slot 2 := by
  have handed : HandedOut replaced ((start "loop" #[.int] none).performAll replaced).1 := by
    decide
  have done : ((start "loop" #[.int] none).performAll replaced).2.finish = .ok ⟨"loop", #[.int],
      none, #[.int, .floatArray],
      #[.iconst 0, .branch .eq 4, .goto 1, .goto 3, .branchCompare .lt 3, .ret]⟩ := by
    rw [finish, ← Array.foldlM_toList]
    rfl
  obtain ⟨-, finishes, finished, -, -, next⟩ := finish_performed rfl handed
  obtain ⟨-, -, -, code, locals⟩ := finished _ done
  exact ⟨_, _, _, rfl, handed, done, rfl, rfl, finishes.mp ⟨_, done⟩, code, locals, next .int⟩

end Draft

end Guarded
