/-!
Tables of code points. A table says which code points beyond ASCII have a property, by the lengths of
the stretches that they come in.
-/

namespace Guarded.Text

/-- Lengths of stretches of code points from 128 on, by turns outside and inside the property. -/
abbrev Stretches := List Nat

/-- Whether the code point this far from the start of the stretches has the property. -/
def Stretches.holds : Stretches → Nat → Bool
  | outside :: inside :: rest, n =>
    if n < outside then false
    else if n < outside + inside then true
    else holds rest (n - (outside + inside))
  | _, _ => false

/-- Whether a code point beyond ASCII has the property. -/
def Stretches.covers (table : Stretches) (code : Nat) : Bool :=
  table.holds (code - 0x80)

end Guarded.Text
