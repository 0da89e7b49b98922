import Guarded.Number.Decimal

/-!
The shortest decimal that reads back. Around a finite value lies the interval of reals that round to
it, with its ends exactly if the significand is even. Grids of one, two, three and more digits are
tried in turn; on each, the two neighbours of the value are tested, and the first grid with a
neighbour in the interval gives the digits. Of two neighbours in it the nearer wins; a tie is the
caller's choice.
-/

namespace Guarded.Number

/-- Which of two equally near decimals is taken. -/
inductive Tie where
  | up
  | even
deriving DecidableEq, Repr

/-- The exponent of the greatest power of ten that is at most `num / den`, both positive. -/
def floorLog10 (num den : Nat) : Int :=
  if den ≤ num then digitCount (num / den) - 1
  else -digitCount ((den + num - 1) / num - 1)

/-- Factors `a` and `b` with `2 ^ (q - 2) / 10 ^ k = a / b`. -/
def gridFactors (q k : Int) : Nat × Nat :=
  let two := (q - 2).toNat
  let half := (2 - q).toNat
  (Nat.pow 2 two * Nat.pow 10 (-k).toNat, Nat.pow 2 half * Nat.pow 10 k.toNat)

/-- The multiple of `10 ^ k` next to `m · 2 ^ q` that reads back, if one does. The value is four
quarters of a unit times `m`; `below` is how many quarters the interval reaches down. -/
def onGrid (tie : Tie) (m : Nat) (q : Int) (below : Nat) (k : Int) : Option Nat :=
  let (a, b) := gridFactors q k
  let value := 4 * m * a
  let low := (4 * m - below) * a
  let high := (4 * m + 2) * a
  let c := value / b
  let rest := value % b
  let closed := m % 2 == 0
  let downOk := if closed then low ≤ c * b else low < c * b
  let upOk := if closed then (c + 1) * b ≤ high else (c + 1) * b < high
  if downOk && upOk then
    if 2 * rest < b then some c
    else if b < 2 * rest then some (c + 1)
    else match tie with
      | .up => some (c + 1)
      | .even => some (c + c % 2)
  else if downOk then some c
  else if upOk then some (c + 1)
  else none

/-- Tries the grids `10 ^ k`, `10 ^ (k - 1)` and so on. -/
def search (tie : Tie) (m : Nat) (q : Int) (below : Nat) : Nat → Int → Decimal
  | 0, k => ⟨(4 * m * (gridFactors q k).1) / (gridFactors q k).2, k⟩
  | fuel + 1, k =>
    match onGrid tie m q below k with
    | some digits => ⟨digits, k⟩
    | none => search tie m q below fuel (k - 1)

/-- The same number with no zero at the end of its digits. -/
def strip : Nat → Decimal → Decimal
  | 0, d => d
  | fuel + 1, d =>
    if d.digits % 10 = 0 then strip fuel ⟨d.digits / 10, d.exponent + 1⟩ else d

/-- The shortest decimal that rounds to `m · 2 ^ q` in the format, `m` not zero. -/
def shortest (f : Format) (tie : Tie) (m : Nat) (q : Int) : Decimal :=
  let (num, den) := scale m 1 (-q)
  let below := if m = Nat.pow 2 f.fraction && f.least < q then 1 else 2
  strip 20 (search tie m q below 20 (floorLog10 num den))

example : shortest single .up 13421773 (-27) = ⟨1, -1⟩ := by decide
example : shortest single .up 1 (-149) = ⟨1, -45⟩ := by decide

end Guarded.Number
