import Guarded.Number.Style
import Guarded.Object.Json
import Guarded.Text.Quoted

/-!
Listings of object units for people. Every instruction stands on a line with its offset; a line that
some branch of the routine goes to is marked.
-/

namespace Guarded

namespace Instr

/-- The mnemonic of an instruction with its operands. -/
def listing : Instr → String
  | iconst v => s!"iconst {v.toInt}"
  | fconst v => "fconst " ++ Number.Style.literal.single v
  | sconst s => "sconst " ++ Text.quoted s
  | iload n => s!"iload {n}"
  | fload n => s!"fload {n}"
  | aload n => s!"aload {n}"
  | istore n => s!"istore {n}"
  | fstore n => s!"fstore {n}"
  | astore n => s!"astore {n}"
  | getstatic f => s!"getstatic {f}"
  | putstatic f => s!"putstatic {f}"
  | newarray .int => "newarray int"
  | newarray .float => "newarray float"
  | branch c t => s!"if{c.name} {t}"
  | branchCompare c t => s!"if_icmp{c.name} {t}"
  | goto t => s!"goto {t}"
  | invoke name => s!"invoke {name}"
  | service s => s!"invoke runtime.{s.name}"
  | i => String.ofList (i.tag.toList.map Char.toLower)

end Instr

/-- A number in at least four columns, to the right. -/
def offsetColumn (n : Nat) : String :=
  let digits := Nat.toDigits 10 n
  String.ofList (List.replicate (4 - digits.length) ' ' ++ digits)

namespace Routine

def header (r : Routine) : String :=
  let params := String.intercalate ", " (r.params.toList.map Slot.name)
  let result := match r.result with
    | some slot => s!" -> {slot.name}"
    | none => ""
  r.name ++ "(" ++ params ++ ")" ++ result ++ " \x7b"

/-- The local slots beyond the parameters. -/
def localsLine (r : Routine) : List String :=
  let extra := (r.locals.toList.zipIdx).drop r.params.size
  if extra.isEmpty then []
  else ["  ; locals " ++ String.intercalate " " (extra.map fun (slot, i) => s!"{i}:{slot.name}")]

def listing (r : Routine) : List String :=
  let targets := r.code.toList.filterMap Instr.target?
  let lines := r.code.toList.zipIdx.map fun (instr, offset) =>
    (if targets.contains offset then ">" else " ") ++ offsetColumn offset ++ "  " ++ instr.listing
  r.header :: r.localsLine ++ lines ++ ["\x7d"]

end Routine

namespace ObjectUnit

/-- The lines of a listing. -/
def listing (u : ObjectUnit) : List String :=
  let fields := u.globals.toList.map fun f => s!"static {f.name}: {f.slot.name}"
  [s!"; unit {u.qualifiedName}", s!"; routines: {u.routines.size + 1}", ""] ++
    (if fields.isEmpty then [] else fields ++ [""]) ++
    u.entry.listing ++
    u.routines.toList.flatMap fun r => "" :: r.listing

/-- A listing as one text, each line ended. -/
def listingText (u : ObjectUnit) : String :=
  String.join (u.listing.map (· ++ "\n"))

end ObjectUnit

end Guarded
