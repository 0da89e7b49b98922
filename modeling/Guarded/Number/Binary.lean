/-!
Binary floating-point formats over exact arithmetic. A finite value of a format is `m · 2 ^ q` with
`m` a natural number; decoding and rounding work on bit patterns held as natural numbers, so nothing
here depends on a floating-point operation. Rounding goes to the nearest value, a half to the even
neighbour, and past the greatest value to infinity.
-/

namespace Guarded.Number

/-- The stored fraction bits and the exponent bits of a format; one more bit holds the sign. -/
structure Format where
  fraction : Nat
  exponent : Nat
deriving DecidableEq, Repr

def single : Format := ⟨23, 8⟩

def double : Format := ⟨52, 11⟩

namespace Format

/-- The exponent of the last place of the smallest values. -/
def least (f : Format) : Int :=
  2 - Nat.pow 2 (f.exponent - 1) - f.fraction

/-- The bits of positive infinity; the patterns above it, up to the sign bit, are not numbers. -/
def infinity (f : Format) : Nat :=
  (Nat.pow 2 f.exponent - 1) * Nat.pow 2 f.fraction

def signBit (f : Format) : Nat :=
  Nat.pow 2 (f.fraction + f.exponent)

end Format

/-- What a bit pattern denotes; `finite negative m q` is `m · 2 ^ q` with a sign. -/
inductive Decoded where
  | nan
  | infinite (negative : Bool)
  | finite (negative : Bool) (m : Nat) (q : Int)
deriving DecidableEq, Repr

def decode (f : Format) (bits : Nat) : Decoded :=
  let negative := bits / f.signBit % 2 == 1
  let fraction := bits % Nat.pow 2 f.fraction
  let biased := bits / Nat.pow 2 f.fraction % Nat.pow 2 f.exponent
  if biased = Nat.pow 2 f.exponent - 1 then
    if fraction = 0 then .infinite negative else .nan
  else if biased = 0 then .finite negative fraction f.least
  else .finite negative (Nat.pow 2 f.fraction + fraction) (f.least + biased - 1)

/-- The quotient of two naturals to the nearest natural, a half to the even neighbour. -/
def divHalfEven (num den : Nat) : Nat :=
  let whole := num / den
  let rest := num % den
  if 2 * rest < den then whole
  else if den < 2 * rest then whole + 1
  else whole + whole % 2

/-- Numerator and denominator of `num / (den · 2 ^ q)`. -/
def scale (num den : Nat) (q : Int) : Nat × Nat :=
  if 0 ≤ q then (num, den * Nat.pow 2 q.toNat) else (num * Nat.pow 2 (-q).toNat, den)

/-- The exponent of the greatest power of two that is at most `num / den`, both positive. -/
def floorLog2 (num den : Nat) : Int :=
  let guess : Int := num.log2 - den.log2
  let (n, d) := scale num den guess
  if d ≤ n then guess else guess - 1

/-- The bits, without sign, of the value nearest to `num / den`. -/
def ofRatio (f : Format) (num den : Nat) : Nat :=
  if num = 0 then 0
  else
    let q := max (floorLog2 num den - f.fraction) f.least
    let (n, d) := scale num den q
    min ((q - f.least).toNat * Nat.pow 2 f.fraction + divHalfEven n d) f.infinity

/-- The bits of a signed ratio. -/
def signedRatio (f : Format) (negative : Bool) (num den : Nat) : Nat :=
  ofRatio f num den + if negative then f.signBit else 0

/-- The bits, in the second format, of the value nearest to a value of the first. -/
def convert (source target : Format) (bits : Nat) : Nat :=
  match decode source bits with
  | .nan => target.infinity + 1
  | .infinite negative => target.infinity + if negative then target.signBit else 0
  | .finite negative m q =>
    let (num, den) := scale m 1 (-q)
    signedRatio target negative num den

/-- The integer part of a value, toward zero; what is not a number gives zero, and an infinity gives
the bound of its sign. The result is clamped to `[lo, hi]`. -/
def truncate (f : Format) (bits : Nat) (lo hi : Int) : Int :=
  match decode f bits with
  | .nan => 0
  | .infinite negative => if negative then lo else hi
  | .finite negative m q =>
    let magnitude : Int := if 0 ≤ q then m * Nat.pow 2 q.toNat else m / Nat.pow 2 (-q).toNat
    max lo (min hi (if negative then -magnitude else magnitude))

/-- The single nearest to a double. -/
def narrow (v : Float) : Float32 :=
  Float32.ofBits (UInt32.ofNat (convert double single v.toBits.toNat))

/-- The single nearest to an integer. -/
def singleOfInt (v : Int) : Float32 :=
  Float32.ofBits (UInt32.ofNat (signedRatio single (v < 0) v.natAbs 1))

/-- The single `num / den` rounds to. -/
def singleOfRatio (negative : Bool) (num den : Nat) : Float32 :=
  Float32.ofBits (UInt32.ofNat (signedRatio single negative num den))

/-- The double `num / den` rounds to. -/
def doubleOfRatio (negative : Bool) (num den : Nat) : Float :=
  Float.ofBits (UInt64.ofNat (signedRatio double negative num den))

/-- The integer part of a single as a word, with the greatest and least word for what is beyond. -/
def toInt32 (v : Float32) : Int32 :=
  Int32.ofInt (truncate single v.toBits.toNat (-0x80000000) 0x7fffffff)

example : ofRatio single 1 1 = 0x3f800000 := by decide
example : ofRatio single 16777217 1 = ofRatio single 16777216 1 := by decide
example : ofRatio double 1 10 = 0x3fb999999999999a := by decide
example : ofRatio single (Nat.pow 10 39) 1 = single.infinity := by decide

end Guarded.Number
