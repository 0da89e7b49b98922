import Guarded.Text.Stretches

/-!
White space: the characters with the Unicode property White_Space. Console input is trimmed of them.
-/

namespace Guarded.Text

/-- Stretches of the property White_Space beyond ASCII. -/
def blank : Stretches :=
  [5, 1, 26, 1, 5599, 1, 2431, 11, 29, 2, 5, 1, 47, 1, 4000, 1]

/-- White space; in ASCII these are the space and the controls from tab to carriage return. -/
def isBlank (c : Char) : Bool :=
  if c.toNat < 0x80 then c.toNat = 0x20 || (0x9 ≤ c.toNat && c.toNat ≤ 0xd)
  else blank.covers c.toNat

end Guarded.Text
