import Guarded.Number.Shortest

/-!
How a floating-point value is written. The digits are the shortest that read back; a style decides
which exponents are written positionally, when a whole number keeps a `.0`, whether a positive
exponent has a sign, and the words for what is not finite.
-/

namespace Guarded.Number

structure Style where
  tie : Tie
  /-- Whether a number whose first digit has this decimal exponent is written without an exponent. -/
  positional : Int → Bool
  /-- Whether a whole number of this decimal exponent is written with `.0`. -/
  fraction : Int → Bool
  plus : Bool
  nan : String
  infinity : String

namespace Style

/-- Every number positionally, whole numbers without a point. -/
def plain : Style where
  tie := .up
  positional := fun _ => true
  fraction := fun _ => false
  plus := false
  nan := "NaN"
  infinity := "inf"

/-- As a literal of the language: whole numbers keep `.0`, and below `10 ^ -4` or from `10 ^ 16` on
there is an exponent. -/
def literal : Style where
  tie := .up
  positional := fun e => -4 ≤ e && e < 16
  fraction := fun _ => true
  plus := false
  nan := "NaN"
  infinity := "inf"

/-- Digits with the point in place, the first of them standing for `10 ^ e`. -/
def layout (style : Style) (digits : List Char) (e : Int) : List Char :=
  if e < 0 then '0' :: '.' :: List.replicate (-e - 1).toNat '0' ++ digits
  else
    let whole := e.toNat + 1
    if digits.length ≤ whole then
      digits ++ List.replicate (whole - digits.length) '0' ++
        (if style.fraction e then ['.', '0'] else [])
    else digits.take whole ++ '.' :: digits.drop whole

/-- One digit, a point and the others if there are any, and the exponent. -/
def scientific (style : Style) (digits : List Char) (e : Int) : List Char :=
  let mantissa := match digits with
    | d :: rest@(_ :: _) => d :: '.' :: rest
    | ds => ds
  let sign := if e < 0 then ['-'] else if style.plus then ['+'] else []
  mantissa ++ 'e' :: sign ++ Nat.toDigits 10 e.natAbs

/-- The text of a decimal without sign. -/
def magnitude (style : Style) (d : Decimal) : List Char :=
  let digits := Nat.toDigits 10 d.digits
  let e : Int := d.exponent + digits.length - 1
  if style.positional e then style.layout digits e else style.scientific digits e

/-- The text of a bit pattern. -/
def chars (style : Style) (f : Format) (bits : Nat) : List Char :=
  match decode f bits with
  | .nan => style.nan.toList
  | .infinite negative => (if negative then ['-'] else []) ++ style.infinity.toList
  | .finite negative m q =>
    (if negative then ['-'] else []) ++
      style.magnitude (if m = 0 then ⟨0, 0⟩ else shortest f style.tie m q)

def single (style : Style) (v : Float32) : String :=
  String.ofList (style.chars Number.single v.toBits.toNat)

def double (style : Style) (v : Float) : String :=
  String.ofList (style.chars Number.double v.toBits.toNat)

end Style

end Guarded.Number
