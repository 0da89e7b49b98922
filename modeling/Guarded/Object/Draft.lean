import Guarded.Number.Style
import Guarded.Object
import Guarded.Text.Quoted

/-!
Routines under construction. Code is appended; a branch may go to a label that is placed later, or
placed again: the last place counts. Until the draft is finished, such a branch holds the number of
its label where its target will be, and the draft keeps a list of where these branches are. A branch
that was written with its target is not in the list. Local slots are handed out in order, at most
`2 ^ 16` of them.
-/

namespace Guarded

abbrev Label := Nat

/-- The kinds of branches to a label. -/
inductive Jump where
  | always
  | onZero (cond : Cond)
  | onCompare (cond : Cond)
deriving DecidableEq, Repr

def Jump.instr : Jump → Nat → Instr
  | .always, target => .goto target
  | .onZero cond, target => .branch cond target
  | .onCompare cond, target => .branchCompare cond target

namespace Instr

/-- The operands as messages show them. -/
def operandTexts : Instr → List String
  | iconst v => [toString v]
  | fconst v => [Number.Style.literal.single v]
  | sconst s | getstatic s | putstatic s | invoke s => [Text.quoted s]
  | iload n | fload n | aload n | istore n | fstore n | astore n | goto n => [toString n]
  | newarray e => [e.tag]
  | branch c t | branchCompare c t => [c.tag, toString t]
  | service s => [s.tag]
  | _ => []

/-- An instruction in a message: its name, and its operands in parentheses if it has any. -/
def shown (i : Instr) : String :=
  match i.operandTexts with
  | [] => i.tag
  | operands => i.tag ++ "(" ++ ", ".intercalate operands ++ ")"

end Instr

structure Draft where
  name : String
  params : Array Slot
  result : Option Slot
  locals : Array Slot
  code : Array Instr
  /-- Where each label was placed last. -/
  labels : Array (Option Nat)
  /-- The positions of the branches that hold a label. -/
  fixups : Array Nat

namespace Draft

def start (name : String) (params : Array Slot) (result : Option Slot) : Draft :=
  ⟨name, params, result, #[], #[], #[], #[]⟩

def slotLimit : Nat :=
  0x10000

/-- The next free local slot. Without one, the draft stays as it is. -/
def allocLocal (d : Draft) (slot : Slot) : EStateM.Result Error Draft Nat :=
  if d.locals.size < slotLimit then .ok d.locals.size { d with locals := d.locals.push slot }
  else .error (.codeGen s!"too many locals in {d.name}") d

def emit (d : Draft) (i : Instr) : Draft :=
  { d with code := d.code.push i }

def newLabel (d : Draft) : Label × Draft :=
  (d.labels.size, { d with labels := d.labels.push none })

/-- Lets a label stand for the next instruction. -/
def place (d : Draft) (label : Label) : Draft :=
  { d with labels := d.labels.setIfInBounds label (some d.code.size) }

def jump (d : Draft) (j : Jump) (label : Label) : Draft :=
  { d with code := d.code.push (j.instr label), fixups := d.fixups.push d.code.size }

/-- Puts the place of its label into the branch at a position. -/
def patch (d : Draft) (code : Array Instr) (pos : Nat) : Except Error (Array Instr) :=
  match code[pos]? with
  | none => .ok code
  | some i =>
    match i.target? with
    | none => .error (.codeGen s!"{i.shown} is not a branch")
    | some label =>
      match d.labels[label]?.join with
      | none => .error (.codeGen s!"label {label} never placed in {d.name}")
      | some target => .ok (code.setIfInBounds pos (i.retarget target))

/-- The routine, with every label resolved. -/
def finish (d : Draft) : Except Error Routine := do
  let code ← d.fixups.foldlM d.patch d.code
  return ⟨d.name, d.params, d.result, d.locals, code⟩

end Draft

end Guarded
