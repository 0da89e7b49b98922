import Guarded.Number.Binary

/-!
Decimal numbers `digits · 10 ^ exponent` and their texts. Reading a text gives the exact decimal and
only then the nearest binary value, so each text is rounded once.
-/

namespace Guarded.Number

/-- The number `digits · 10 ^ exponent`. -/
structure Decimal where
  digits : Nat
  exponent : Int
deriving DecidableEq, Repr

/-- How many decimal digits a natural is written with. -/
def digitCount (n : Nat) : Nat :=
  (Nat.toDigits 10 n).length

def digitValue (c : Char) : Nat :=
  c.toNat - '0'.toNat

/-- The value of a run of decimal digits, zero for the empty run. -/
def natOfDigits (cs : List Char) : Nat :=
  cs.foldl (fun n c => n * 10 + digitValue c) 0

namespace Decimal

/-- Numerator and denominator. -/
def ratio (d : Decimal) : Nat × Nat :=
  if 0 ≤ d.exponent then (d.digits * Nat.pow 10 d.exponent.toNat, 1)
  else (d.digits, Nat.pow 10 (-d.exponent).toNat)

/-- Decimals at least `10 ^ 400` are infinite and those below `10 ^ -400` are zero in both formats;
settling them first keeps the powers of ten small. -/
def toBits (f : Format) (d : Decimal) : Nat :=
  let magnitude : Int := digitCount d.digits + d.exponent
  if d.digits = 0 || magnitude < -400 then 0
  else if 400 < magnitude then f.infinity
  else ofRatio f d.ratio.1 d.ratio.2

/-- The decimal with the digits of `whole` before the point and those of `fraction` after it. -/
def ofDigits (whole fraction : List Char) : Decimal :=
  ⟨natOfDigits (whole ++ fraction), -fraction.length⟩

def toDouble (d : Decimal) : Float :=
  Float.ofBits (UInt64.ofNat (d.toBits double))

end Decimal

/-- The exponent part of a numeral: nothing, or `e` or `E`, a sign or none, and digits. -/
def readExponent : List Char → Option Int
  | [] => some 0
  | c :: cs =>
    if c = 'e' || c = 'E' then
      let (negative, ds) := match cs with
        | '+' :: ds => (false, ds)
        | '-' :: ds => (true, ds)
        | ds => (false, ds)
      if ds.isEmpty || !ds.all Char.isDigit then none
      else some (if negative then -natOfDigits ds else natOfDigits ds)
    else none

/-- An unsigned numeral: digits with an optional point, at least one digit in all, and an optional
exponent. -/
def readUnsigned (cs : List Char) : Option Decimal :=
  let whole := cs.takeWhile Char.isDigit
  let rest := cs.dropWhile Char.isDigit
  let (fraction, tail) := match rest with
    | '.' :: more => (more.takeWhile Char.isDigit, more.dropWhile Char.isDigit)
    | _ => ([], rest)
  if whole.isEmpty && fraction.isEmpty then none
  else (readExponent tail).map fun e =>
    let d := Decimal.ofDigits whole fraction
    ⟨d.digits, d.exponent + e⟩

/-- The sign in front of a numeral: whether it is negative, and what follows it. -/
def readSign : List Char → Bool × List Char
  | '+' :: cs => (false, cs)
  | '-' :: cs => (true, cs)
  | cs => (false, cs)

/-- The bits of a signed numeral; the words `inf`, `infinity` and `nan` count in any case. -/
def readBits (f : Format) (cs : List Char) : Option Nat :=
  let (negative, body) := readSign cs
  let sign := if negative then f.signBit else 0
  let word := String.ofList (body.map Char.toLower)
  if word = "nan" then some (f.infinity + 1)
  else if word = "inf" || word = "infinity" then some (f.infinity + sign)
  else (readUnsigned body).map fun d => d.toBits f + sign

/-- A single from its text. -/
def readSingle (cs : List Char) : Option Float32 :=
  (readBits single cs).map fun bits => Float32.ofBits (UInt32.ofNat bits)

/-- An integer from its text: an optional sign and at least one digit. -/
def readInt (cs : List Char) : Option Int :=
  let (negative, body) := readSign cs
  if body.isEmpty || !body.all Char.isDigit then none
  else some (if negative then -natOfDigits body else natOfDigits body)

/-- A word from its text, if the integer fits. -/
def readInt32 (cs : List Char) : Option Int32 :=
  (readInt cs).bind fun v =>
    if -0x80000000 ≤ v && v < 0x80000000 then some (Int32.ofInt v) else none

end Guarded.Number
