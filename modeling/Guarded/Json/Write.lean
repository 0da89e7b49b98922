import Guarded.Json.Value
import Guarded.Text.Quoted

/-!
Writing JSON. Both layouts share one writer: a spacing says what stands before an item at a given
depth and after the colon of a member. Empty arrays and objects are closed at once.
-/

namespace Guarded.Json

structure Spacing where
  line : Nat → List Char
  colon : List Char

/-- No blank at all. -/
def compact : Spacing where
  line := fun _ => []
  colon := [':']

/-- Each item on a line of its own, two blanks in for each level. -/
def indented : Spacing where
  line := fun depth => '\n' :: List.replicate (2 * depth) ' '
  colon := [':', ' ']

/-- One character of a text. -/
def escapeChar (c : Char) : List Char :=
  if c = '"' then ['\\', '"']
  else if c = '\\' then ['\\', '\\']
  else if c = '\x08' then ['\\', 'b']
  else if c = '\x0c' then ['\\', 'f']
  else if c = '\n' then ['\\', 'n']
  else if c = '\r' then ['\\', 'r']
  else if c = '\t' then ['\\', 't']
  else if c.toNat < 0x20 then '\\' :: 'u' :: Text.hexDigits 4 c.toNat
  else [c]

def writeText (s : String) : List Char :=
  '"' :: s.toList.flatMap escapeChar ++ ['"']

mutual

/-- The characters of a value that stands `depth` levels deep. -/
def write (sp : Spacing) (depth : Nat) : Json → List Char
  | .null => ['n', 'u', 'l', 'l']
  | .bool true => ['t', 'r', 'u', 'e']
  | .bool false => ['f', 'a', 'l', 's', 'e']
  | .number literal => literal
  | .string none => writeText ""
  | .string (some s) => writeText s
  | .array [] => ['[', ']']
  | .array (item :: items) =>
    '[' :: sp.line (depth + 1) ++ write sp (depth + 1) item ++ writeItems sp (depth + 1) items ++
      sp.line depth ++ [']']
  | .object [] => ['\x7b', '\x7d']
  | .object ((key, value) :: members) =>
    '\x7b' :: sp.line (depth + 1) ++ writeText (key.getD "") ++ sp.colon ++
      write sp (depth + 1) value ++ writeMembers sp (depth + 1) members ++ sp.line depth ++ ['\x7d']

/-- The items after the first, each behind a comma. -/
def writeItems (sp : Spacing) (depth : Nat) : List Json → List Char
  | [] => []
  | item :: items => ',' :: sp.line depth ++ write sp depth item ++ writeItems sp depth items

/-- The members after the first, each behind a comma. -/
def writeMembers (sp : Spacing) (depth : Nat) : List (Option String × Json) → List Char
  | [] => []
  | (key, value) :: members =>
    ',' :: sp.line depth ++ writeText (key.getD "") ++ sp.colon ++ write sp depth value ++
      writeMembers sp depth members

end

def render (sp : Spacing) (j : Json) : String :=
  String.ofList (write sp 0 j)

end Guarded.Json
