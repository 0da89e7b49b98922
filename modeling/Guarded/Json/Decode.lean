import Guarded.Json.Value
import Guarded.Number.Decimal

/-!
Taking JSON values apart. A record is an object, whose other members are ignored but whose own
occur once, or an array of exactly its fields. A variant is its bare name or an object with that
name as only key. Integers are numerals without point and exponent, minus zero excluded. A single
is any numeral: a word-sized integer is rounded once; anything else becomes a double first, from a
significand of at most 64 bits scaled by one power of ten.
-/

namespace Guarded.Json

/-- The value of a member that may be missing but not repeated. -/
def member (members : List (Option String × Json)) (name : String) : Option (Option Json) :=
  match members.filter (fun m => m.1 == some name) with
  | [] => some none
  | [(_, value)] => some (some value)
  | _ => none

/-- The fields of a record in the order of their names. -/
def fields (names : List String) : Json → Option (List (Option Json))
  | .array items => if items.length = names.length then some (items.map some) else none
  | .object members =>
    if members.all (fun m => m.1.isSome) then names.mapM (member members) else none
  | _ => none

/-- The name of a variant and its content, if it has one. -/
def variant : Json → Option (String × Option Json)
  | .string (some name) => some (name, none)
  | .object [(some name, value)] => some (name, some value)
  | _ => none

/-- A variant without content; the content `null` counts as none. -/
def bare : Json → Option String
  | .string (some name) => some name
  | .object [(some name, .null)] => some name
  | _ => none

def asText : Json → Option String
  | .string s => s
  | _ => none

/-- The items of an array, each read by `f`. -/
def asList {α : Type} (f : Json → Option α) : Json → Option (List α)
  | .array items => items.mapM f
  | _ => none

/-- The integer a numeral spells. -/
def integer (literal : List Char) : Option Int :=
  match Number.readSign literal with
  | (negative, digits) =>
    let value := Number.natOfDigits digits
    if !digits.all Char.isDigit || (negative && value = 0) then none
    else some (if negative then -value else value)

/-- An integer from `lo` to `hi`. -/
def asInt (lo hi : Int) : Json → Option Int
  | .number literal =>
    match integer literal with
    | some v => if lo ≤ v && v ≤ hi then some v else none
    | none => none
  | _ => none

def wordLimit : Nat :=
  0x10000000000000000

/-- Takes in the digits of a whole part until one does not fit; each digit from there on counts as a
power of ten. Gives the significand and that count. -/
def takeWhole : Nat → List Char → Nat × Nat
  | s, [] => (s, 0)
  | s, c :: cs =>
    let next := s * 10 + Number.digitValue c
    if next < wordLimit then takeWhole next cs else (s, cs.length + 1)

/-- Takes in the digits of a fraction until one does not fit. Gives the significand and how many
were taken. -/
def takeFraction : Nat → List Char → Nat × Nat
  | s, [] => (s, 0)
  | s, c :: cs =>
    let next := s * 10 + Number.digitValue c
    if next < wordLimit then
      let (s, n) := takeFraction next cs
      (s, n + 1)
    else (s, 0)

def powerOfTen (n : Nat) : Float :=
  Number.doubleOfRatio false (Nat.pow 10 n) 1

/-- Scales a double by a power of ten. Powers up to `10 ^ 308` take one operation; a larger divisor
is taken in steps of `10 ^ 308` until nothing is left. There is no result beyond the greatest
double. -/
def scaleByTen : Nat → Float → Int → Option Float
  | 0, v, _ => some v
  | fuel + 1, v, e =>
    if e.natAbs ≤ 308 then
      if 0 ≤ e then
        let scaled := v * powerOfTen e.natAbs
        if scaled.isInf then none else some scaled
      else some (v / powerOfTen e.natAbs)
    else if v == 0 then some v
    else if 0 ≤ e then none
    else scaleByTen fuel (v / powerOfTen 308) (e + 308)

/-- The double of an unsigned numeral in its parts: digits before and after the point, and the sign
and digits of the exponent. An exponent beyond 31 bits leaves only zero. -/
def double (whole fraction : List Char) (negativeExponent : Bool) (exponent : List Char) :
    Option Float :=
  let (s, dropped) := takeWhole 0 whole
  let (s, taken) := takeFraction s fraction
  let e := Number.natOfDigits exponent
  if 0x80000000 ≤ e then
    if s = 0 || negativeExponent then some 0 else none
  else
    let shift : Int := (dropped : Int) - taken + (if negativeExponent then -(e : Int) else e)
    scaleByTen 5 (Number.doubleOfRatio false s 1) shift

/-- The single a numeral spells. -/
def single (literal : List Char) : Option Float32 :=
  let (negative, body) := Number.readSign literal
  let whole := body.takeWhile Char.isDigit
  let rest := body.dropWhile Char.isDigit
  let value := Number.natOfDigits whole
  let fits := value < wordLimit && (!negative || (0 < value && value ≤ 0x8000000000000000))
  if rest.isEmpty && fits then
    some (Number.singleOfRatio negative value 1)
  else
    let (fraction, tail) := match rest with
      | '.' :: more => (more.takeWhile Char.isDigit, more.dropWhile Char.isDigit)
      | _ => ([], rest)
    let (negativeExponent, exponent) := Number.readSign (tail.drop 1)
    (double whole fraction negativeExponent exponent).map fun v =>
      Number.narrow (if negative then -v else v)

def asSingle : Json → Option Float32
  | .number literal => single literal
  | _ => none

end Guarded.Json
