import Guarded.Json.Decode
import Guarded.Json.Read
import Guarded.Object.Json
import Guarded.Proofs.Rounding
import Mathlib.Data.List.TakeWhile
import Mathlib.Data.Nat.Cast.Order.Field

/-!
The numerals of object files. Whatever number is written, natural, integer or finite float, has the
form the grammar asks for: no leading zero, and digits on both sides of a point. So it is found again
as a whole, whatever follows it, and an integer is found with its value.

For floats this rests on the shortest decimal having a digit other than zero. The search for it starts
at a power of ten that is not above the value, so on every grid the value has a neighbour that is not
zero.
-/

namespace Guarded

/-- Characters of one kind are found as a whole where one of another kind follows, or none. -/
theorem span_while {p : Char → Bool} {cs rest : List Char} (all : ∀ c ∈ cs, p c = true)
    (stops : ∀ c, rest.head? = some c → p c = false) :
    (cs ++ rest).takeWhile p = cs ∧ (cs ++ rest).dropWhile p = rest := by
  have none : rest.takeWhile p = [] ∧ rest.dropWhile p = rest := by
    cases rest with
    | nil => exact ⟨rfl, rfl⟩
    | cons c cs =>
      have other := stops c rfl
      simp [other]
  rw [List.takeWhile_append_of_pos all, List.dropWhile_append_of_pos all, none.1, none.2]
  simp

end Guarded

namespace Guarded.Json

/-- One decimal digit or more. -/
def Digits (cs : List Char) : Prop :=
  cs ≠ [] ∧ ∀ c ∈ cs, c.isDigit = true

/-- The whole part of a numeral. -/
def Whole (cs : List Char) : Prop :=
  cs = ['0'] ∨ Digits cs ∧ cs.head? ≠ some '0'

/-- The part of a numeral from its point on. -/
def Fraction (cs : List Char) : Prop :=
  cs = [] ∨ ∃ digits, cs = '.' :: digits ∧ Digits digits

def Exponent (cs : List Char) : Prop :=
  cs = [] ∨ ∃ sign digits, cs = 'e' :: (sign ++ digits) ∧
    (sign = [] ∨ sign = ['+'] ∨ sign = ['-']) ∧ Digits digits

/-- The numerals of the grammar. -/
def Numeral (literal : List Char) : Prop :=
  ∃ sign whole fraction exponent, literal = sign ++ (whole ++ (fraction ++ exponent)) ∧
    (sign = [] ∨ sign = ['-']) ∧ Whole whole ∧ Fraction fraction ∧ Exponent exponent

/-- No numeral goes on into these characters. -/
def Stops (cs : List Char) : Prop :=
  ∀ c, cs.head? = some c → c.isDigit = false ∧ c ≠ '.' ∧ c ≠ 'e' ∧ c ≠ 'E'

section Reading

variable {literal rest : List Char}

theorem Whole.digits {whole : List Char} (h : Whole whole) : Digits whole := by
  rcases h with rfl | ⟨digits, -⟩
  · exact ⟨by simp, by simp⟩
  · exact digits

theorem readWhole_append {whole : List Char} (h : Whole whole)
    (stops : ∀ c, rest.head? = some c → c.isDigit = false) :
    readWhole (whole ++ rest) = some (whole, rest) := by
  rcases h with rfl | ⟨⟨nonempty, all⟩, nonzero⟩
  · rfl
  · cases whole with
    | nil => exact absurd rfl nonempty
    | cons c cs =>
      have digit := all c (by simp)
      have other : c ≠ '0' := by simpa using nonzero
      obtain ⟨-, others⟩ := List.forall_mem_cons.mp all
      obtain ⟨taken, left⟩ := span_while others stops
      rw [List.cons_append, readWhole, if_neg other, if_pos digit, taken, left]

theorem Fraction.stops {fraction : List Char} (h : Fraction fraction)
    (stops : ∀ c, rest.head? = some c → c.isDigit = false) :
    ∀ c, (fraction ++ rest).head? = some c → c.isDigit = false := by
  rcases h with rfl | ⟨digits, rfl, -⟩
  · exact stops
  · rintro c ⟨⟩
    decide

theorem readFraction_append {fraction : List Char} (h : Fraction fraction)
    (stops : ∀ c, rest.head? = some c → c.isDigit = false ∧ c ≠ '.') :
    readFraction (fraction ++ rest) = (fraction, rest) := by
  rcases h with rfl | ⟨digits, rfl, nonempty, all⟩
  · unfold readFraction
    split
    · next same =>
      rw [List.nil_append] at same
      subst same
      exact absurd rfl (stops '.' rfl).2
    · rfl
  · obtain ⟨taken, left⟩ := span_while all (fun c first => (stops c first).1)
    rw [List.cons_append, readFraction]
    simp only [taken, left]
    rw [if_neg (by simpa using nonempty)]

theorem Exponent.stops {exponent : List Char} (h : Exponent exponent) (stops : Stops rest) :
    ∀ c, (exponent ++ rest).head? = some c → c.isDigit = false ∧ c ≠ '.' := by
  rcases h with rfl | ⟨sign, digits, rfl, -⟩
  · intro c first
    exact ⟨(stops c first).1, (stops c first).2.1⟩
  · rintro c ⟨⟩
    decide

theorem readExponent_append {exponent : List Char} (h : Exponent exponent) (stops : Stops rest) :
    readExponent (exponent ++ rest) = (exponent, rest) := by
  rcases h with rfl | ⟨sign, digits, rfl, signed, nonempty, all⟩
  · cases rest with
    | nil => rfl
    | cons c cs =>
      obtain ⟨-, -, notSmall, notLarge⟩ := stops c rfl
      simp [readExponent, notSmall, notLarge]
  · obtain ⟨taken, left⟩ := span_while all (fun c first => (stops c first).1)
    cases digits with
    | nil => exact absurd rfl nonempty
    | cons d ds =>
      have digit := all d (by simp)
      have notPlus : d ≠ '+' := by
        rintro rfl
        cases digit
      have notMinus : d ≠ '-' := by
        rintro rfl
        cases digit
      rw [List.cons_append] at taken left
      rcases signed with rfl | rfl | rfl
      · simp [readExponent, notPlus, notMinus, taken, left]
      · simp [readExponent, taken, left]
      · simp [readExponent, taken, left]

/-- A numeral is found as a whole. -/
theorem readNumber_append (h : Numeral literal) (stops : Stops rest) :
    readNumber (literal ++ rest) = some (literal, rest) := by
  obtain ⟨sign, whole, fraction, exponent, rfl, signed, isWhole, isFraction, isExponent⟩ := h
  have afterFraction := isExponent.stops stops
  have afterWhole := isFraction.stops fun c first => (afterFraction c first).1
  have body : readWhole (whole ++ (fraction ++ (exponent ++ rest))) =
      some (whole, fraction ++ (exponent ++ rest)) := readWhole_append isWhole afterWhole
  have middle := readFraction_append isFraction afterFraction
  have last := readExponent_append isExponent stops
  rcases signed with rfl | rfl
  · obtain ⟨nonempty, all⟩ := isWhole.digits
    cases whole with
    | nil => exact absurd rfl nonempty
    | cons d ds =>
      have digit := all d (by simp)
      have notMinus : d ≠ '-' := by
        rintro rfl
        cases digit
      rw [List.cons_append] at body
      simp [readNumber, notMinus, body, middle, last]
  · simp [readNumber, body, middle, last]

end Reading

section Integers

theorem toDigits_digits (n : Nat) : Digits (Nat.toDigits 10 n) :=
  ⟨Nat.toDigits_ne_nil, fun _ mem => Nat.isDigit_of_mem_toDigits (by decide) (by decide) mem⟩

theorem toDigits_head {n : Nat} (positive : n ≠ 0) : (Nat.toDigits 10 n).head? ≠ some '0' := by
  induction n using Nat.strong_induction_on with
  | _ n ih =>
    rw [Nat.toDigits_eq_if (by decide)]
    by_cases small : n < 10
    · rw [if_pos small, List.head?_cons, ne_eq, Option.some.injEq]
      intro zero
      have code := Nat.toNat_digitChar_of_lt_ten small
      rw [zero] at code
      exact positive (Nat.add_left_cancel code).symm
    · rw [if_neg small, List.head?_append_of_ne_nil _ Nat.toDigits_ne_nil]
      exact ih (n / 10) (by omega) (by omega)

theorem toDigits_whole (n : Nat) : Whole (Nat.toDigits 10 n) := by
  by_cases zero : n = 0
  · subst zero
    exact .inl (Nat.toDigits_zero 10)
  · exact .inr ⟨toDigits_digits n, toDigits_head zero⟩

theorem natOfDigits_toDigits (n : Nat) : Number.natOfDigits (Nat.toDigits 10 n) = n := by
  have step : (fun n c => n * 10 + Number.digitValue c) =
      fun (n : Nat) (c : Char) => 10 * n + (c.toNat - '0'.toNat) := by
    funext n c
    rw [Number.digitValue, Nat.mul_comm]
  rw [Number.natOfDigits, step]
  exact Nat.ofDigitChars_ten_toDigits

/-- A sign, if there is one, and digits without a leading zero. -/
theorem numeral_int (n : Int) :
    Numeral ((if n < 0 then ['-'] else []) ++ Nat.toDigits 10 n.natAbs) := by
  refine ⟨if n < 0 then ['-'] else [], Nat.toDigits 10 n.natAbs, [], [], by simp, ?_,
    toDigits_whole _, .inl rfl, .inl rfl⟩
  by_cases below : n < 0
  · exact .inr (if_pos below)
  · exact .inl (if_neg below)

theorem readSign_digit {d : Char} (digit : d.isDigit = true) (ds : List Char) :
    Number.readSign (d :: ds) = (false, d :: ds) := by
  unfold Number.readSign
  split
  · next same => cases same; cases digit
  · next same => cases same; cases digit
  · rfl

theorem readSign_digits {digits : List Char} (h : Digits digits) :
    Number.readSign digits = (false, digits) := by
  obtain ⟨nonempty, all⟩ := h
  cases digits with
  | nil => exact absurd rfl nonempty
  | cons d ds => exact readSign_digit (all d (by simp)) ds

/-- The value of an integer's numeral. -/
theorem integer_int (n : Int) :
    integer ((if n < 0 then ['-'] else []) ++ Nat.toDigits 10 n.natAbs) = some n := by
  have digits := toDigits_digits n.natAbs
  have all : (Nat.toDigits 10 n.natAbs).all Char.isDigit = true := List.all_eq_true.mpr digits.2
  by_cases below : n < 0
  · have sign : Number.readSign ((if n < 0 then ['-'] else []) ++ Nat.toDigits 10 n.natAbs) =
        (true, Nat.toDigits 10 n.natAbs) := by
      rw [if_pos below]
      rfl
    have nonzero : n ≠ 0 := by omega
    simp [integer, sign, natOfDigits_toDigits, all, nonzero, abs_of_neg below]
  · have sign : Number.readSign ((if n < 0 then ['-'] else []) ++ Nat.toDigits 10 n.natAbs) =
        (false, Nat.toDigits 10 n.natAbs) := by
      rw [if_neg below]
      exact readSign_digits digits
    simp [integer, sign, natOfDigits_toDigits, all, abs_of_nonneg (not_lt.mp below)]

theorem asInt_int {lo hi n : Int} (above : lo ≤ n) (below : n ≤ hi) :
    (Json.int n).asInt lo hi = some n := by
  rw [Json.int, asInt, integer_int]
  simp [above, below]

theorem nat_eq_int (n : Nat) : Json.nat n = Json.int n := by
  have notBelow : ¬ (n : Int) < 0 := by omega
  rw [Json.nat, Json.int, if_neg notBelow]
  simp

end Integers

end Guarded.Json

namespace Guarded.Number

section Shortest

variable {num den m below : Nat} {q k : Int}

theorem digitCount_pow_le {n : Nat} (positive : n ≠ 0) : 10 ^ (digitCount n - 1) ≤ n := by
  have long : 0 < digitCount n := Nat.length_toDigits_pos
  by_contra above
  by_cases one : digitCount n = 1
  · rw [one] at above
    simp at above
    omega
  · have := (Nat.length_toDigits_le_iff (b := 10) (n := n) (k := digitCount n - 1) (by decide)
      (by omega)).mpr (by omega)
    change digitCount n ≤ _ at this
    omega

theorem lt_pow_digitCount (n : Nat) : n < 10 ^ digitCount n :=
  (Nat.length_toDigits_le_iff (by decide) Nat.length_toDigits_pos).mp le_rfl

/-- The power of ten where the search begins is not above the value. -/
theorem pow_floorLog10_le (hn : num ≠ 0) (hd : den ≠ 0) :
    (10 : ℚ) ^ floorLog10 num den ≤ num / den := by
  have denPos : (0 : ℚ) < den := mod_cast Nat.pos_of_ne_zero hd
  have numPos : (0 : ℚ) < num := mod_cast Nat.pos_of_ne_zero hn
  unfold floorLog10
  by_cases large : den ≤ num
  · rw [if_pos large]
    have whole : num / den ≠ 0 := Nat.div_ne_zero_iff.mpr ⟨hd, large⟩
    have long : 1 ≤ digitCount (num / den) := Nat.length_toDigits_pos
    calc (10 : ℚ) ^ ((digitCount (num / den) : Int) - 1)
        = ((10 ^ (digitCount (num / den) - 1) : Nat) : ℚ) := by
          rw [← Int.ofNat_one, ← Int.ofNat_sub long, zpow_natCast]
          push_cast
          rfl
      _ ≤ ((num / den : Nat) : ℚ) := by exact_mod_cast digitCount_pow_le whole
      _ ≤ num / den := Nat.cast_div_le
  · rw [if_neg large, zpow_neg, zpow_natCast, inv_le_comm₀ (by positivity) (by positivity), inv_div,
      div_le_iff₀ numPos]
    have bound := lt_pow_digitCount ((den + num - 1) / num - 1)
    generalize digitCount ((den + num - 1) / num - 1) = c at bound
    have ceil : den ≤ (den + num - 1) / num * num := by
      have := Nat.div_add_mod' (den + num - 1) num
      have := Nat.mod_lt (den + num - 1) (Nat.pos_of_ne_zero hn)
      omega
    have : (den + num - 1) / num ≤ 10 ^ c := by omega
    exact_mod_cast ceil.trans (Nat.mul_le_mul_right num this)

theorem pow_toNat_div (b : ℚ) (n : Int) : b ^ n.toNat / b ^ (-n).toNat = b ^ n := by
  rcases le_total 0 n with h | h
  · obtain ⟨k, rfl⟩ := Int.eq_ofNat_of_zero_le h
    simp
  · obtain ⟨k, hk⟩ := Int.eq_ofNat_of_zero_le (by omega : 0 ≤ -n)
    obtain rfl : n = -k := by omega
    simp

theorem gridFactors_pos (q k : Int) : 0 < (gridFactors q k).2 :=
  Nat.mul_pos (Nat.pow_pos two_pos) (Nat.pow_pos (by decide))

theorem gridFactors_value (q k : Int) :
    ((gridFactors q k).1 / (gridFactors q k).2 : ℚ) = 2 ^ (q - 2) / 10 ^ k := by
  have two := pow_toNat_div 2 (q - 2)
  have ten := pow_toNat_div 10 k
  rw [← two, ← ten, gridFactors]
  simp only [Nat.pow_eq, neg_sub]
  push_cast
  field_simp

/-- On a grid that is not coarser than the value, there is a multiple other than zero below it. -/
theorem grid_reaches (reaches : (10 : ℚ) ^ k ≤ m * 2 ^ q) :
    0 < 4 * m * (gridFactors q k).1 / (gridFactors q k).2 := by
  have positive := gridFactors_pos q k
  have value := gridFactors_value q k
  have ten : (0 : ℚ) < 10 ^ k := zpow_pos (by norm_num) k
  apply Nat.div_pos _ positive
  rw [div_eq_div_iff (by exact_mod_cast positive.ne') ten.ne', zpow_sub₀ two_ne_zero] at value
  have : ((gridFactors q k).2 : ℚ) * 10 ^ k ≤ (4 * m * (gridFactors q k).1) * 10 ^ k := by
    calc ((gridFactors q k).2 : ℚ) * 10 ^ k ≤ (gridFactors q k).2 * (m * 2 ^ q) := by gcongr
      _ = 4 * m * (2 ^ q / 2 ^ (2 : Int) * (gridFactors q k).2) := by norm_num; ring
      _ = 4 * m * (gridFactors q k).1 * 10 ^ k := by rw [← value]; ring
  exact_mod_cast le_of_mul_le_mul_right this ten

/-- A grid offers the multiple below the value or the one above it, if that lies in the interval. It
offers nothing only if both lie outside. -/
theorem onGrid_spec (tie : Tie) (m : Nat) (q : Int) (below : Nat) (k : Int) :
    (∀ digits, onGrid tie m q below k = some digits →
      (digits = 4 * m * (gridFactors q k).1 / (gridFactors q k).2 ∧
          (4 * m - below) * (gridFactors q k).1 ≤ digits * (gridFactors q k).2 ∧
          (m % 2 = 1 → (4 * m - below) * (gridFactors q k).1 < digits * (gridFactors q k).2)) ∨
        digits = 4 * m * (gridFactors q k).1 / (gridFactors q k).2 + 1 ∧
          digits * (gridFactors q k).2 ≤ (4 * m + 2) * (gridFactors q k).1 ∧
          (m % 2 = 1 → digits * (gridFactors q k).2 < (4 * m + 2) * (gridFactors q k).1)) ∧
    (onGrid tie m q below k = none →
      4 * m * (gridFactors q k).1 / (gridFactors q k).2 * (gridFactors q k).2 ≤
          (4 * m - below) * (gridFactors q k).1 ∧
        (4 * m + 2) * (gridFactors q k).1 ≤
          (4 * m * (gridFactors q k).1 / (gridFactors q k).2 + 1) * (gridFactors q k).2) := by
  unfold onGrid
  generalize gridFactors q k = factors
  obtain ⟨a, b⟩ := factors
  dsimp only
  generalize 4 * m * a % b = rest
  generalize 4 * m * a / b = c
  generalize (4 * m - below) * a = low
  generalize (4 * m + 2) * a = high
  constructor
  · intro digits found
    grind
  · intro nothing
    grind

theorem onGrid_ge {tie : Tie} {digits : Nat} (h : onGrid tie m q below k = some digits) :
    4 * m * (gridFactors q k).1 / (gridFactors q k).2 ≤ digits := by
  obtain ⟨rfl, -⟩ | ⟨rfl, -⟩ := (onGrid_spec tie m q below k).1 digits h
  · exact le_rfl
  · exact Nat.le_succ _

theorem search_pos {tie : Tie} (fuel : Nat) (reaches : (10 : ℚ) ^ k ≤ m * 2 ^ q) :
    0 < (search tie m q below fuel k).digits := by
  induction fuel generalizing k with
  | zero => exact grid_reaches reaches
  | succ fuel ih =>
    unfold search
    split
    case h_1 digits found => exact (grid_reaches reaches).trans_le (onGrid_ge found)
    case h_2 =>
      apply ih
      refine le_trans (zpow_le_zpow_right₀ (by norm_num) (by omega)) reaches

theorem strip_pos (fuel : Nat) {d : Decimal} (positive : 0 < d.digits) :
    0 < (strip fuel d).digits := by
  induction fuel generalizing d with
  | zero => exact positive
  | succ fuel ih =>
    unfold strip
    split
    · next divides =>
      apply ih
      show 0 < d.digits / 10
      omega
    · exact positive

/-- The search begins at a power of ten that is not above the value. -/
theorem pow_floorLog10_scale_le (nonzero : m ≠ 0) :
    (10 : ℚ) ^ floorLog10 (scale m 1 (-q)).1 (scale m 1 (-q)).2 ≤ m * 2 ^ q := by
  have positive := scale_pos m (-q) Nat.one_pos
  have value := scale_value m 1 (-q)
  rw [Nat.cast_one, div_one, zpow_neg, div_inv_eq_mul] at value
  have two : (0 : ℚ) < 2 ^ q := zpow_pos two_pos q
  have mPos : (0 : ℚ) < m := mod_cast Nat.pos_of_ne_zero nonzero
  have numNonzero : (scale m 1 (-q)).1 ≠ 0 := by
    intro zero
    rw [zero, Nat.cast_zero, zero_div] at value
    exact (mul_pos mPos two).ne value
  rw [← value]
  exact pow_floorLog10_le numNonzero positive.ne'

/-- The shortest decimal of a value other than zero is not zero. -/
theorem shortest_pos (f : Format) (tie : Tie) (nonzero : m ≠ 0) :
    0 < (shortest f tie m q).digits := by
  apply strip_pos
  apply search_pos
  exact pow_floorLog10_scale_le nonzero

end Shortest

end Guarded.Number

namespace Guarded.Number.Style

open Json

variable {digits : List Char} {e : Int}

theorem layout_numeral (style : Style) (isDigits : Digits digits)
    (leading : digits.head? ≠ some '0' ∨ digits = ['0'] ∧ e = 0) :
    ∃ whole fraction, style.layout digits e = whole ++ fraction ∧ Whole whole ∧
      Fraction fraction := by
  obtain ⟨nonempty, all⟩ := isDigits
  have long : 0 < digits.length := List.length_pos_iff.mpr nonempty
  unfold layout
  by_cases small : e < 0
  · rw [if_pos small]
    refine ⟨['0'], '.' :: (List.replicate (-e - 1).toNat '0' ++ digits), by simp, .inl rfl,
      .inr ⟨_, rfl, by simp [nonempty], ?_⟩⟩
    intro c mem
    rcases List.mem_append.mp mem with zero | digit
    · rw [List.eq_of_mem_replicate zero]
      rfl
    · exact all c digit
  · rw [if_neg small]
    by_cases short : digits.length ≤ e.toNat + 1
    · refine ⟨digits ++ List.replicate (e.toNat + 1 - digits.length) '0',
        if style.fraction e then ['.', '0'] else [], if_pos short, ?_, ?_⟩
      · rcases leading with nonzero | ⟨rfl, rfl⟩
        · refine .inr ⟨⟨by simp [nonempty], ?_⟩, by rwa [List.head?_append_of_ne_nil _ nonempty]⟩
          intro c mem
          rcases List.mem_append.mp mem with digit | zero
          · exact all c digit
          · rw [List.eq_of_mem_replicate zero]
            rfl
        · exact .inl rfl
      · by_cases point : style.fraction e = true
        · exact .inr ⟨['0'], if_pos point, by simp, by simp⟩
        · exact .inl (if_neg point)
    · refine ⟨digits.take (e.toNat + 1), '.' :: digits.drop (e.toNat + 1), if_neg short,
        .inr ⟨⟨?_, ?_⟩, ?_⟩,
        .inr ⟨_, rfl, ?_, ?_⟩⟩
      · simpa using nonempty
      · exact fun c mem => all c (List.mem_of_mem_take mem)
      · rcases leading with nonzero | ⟨rfl, -⟩
        · cases digits with
          | nil => exact absurd rfl nonempty
          | cons d ds => exact nonzero
        · simp at short
      · simp only [ne_eq, List.drop_eq_nil_iff]
        omega
      · exact fun c mem => all c (List.mem_of_mem_drop mem)

theorem whole_single {c : Char} (digit : c.isDigit = true) : Whole [c] := by
  by_cases zero : c = '0'
  · exact .inl (by rw [zero])
  · exact .inr ⟨⟨by simp, by simpa using digit⟩, by simpa using zero⟩

theorem scientific_numeral (style : Style) (isDigits : Digits digits) :
    ∃ whole fraction exponent, style.scientific digits e = whole ++ (fraction ++ exponent) ∧
      Whole whole ∧ Fraction fraction ∧ Exponent exponent := by
  obtain ⟨nonempty, all⟩ := isDigits
  have exponent : Exponent ('e' :: ((if e < 0 then ['-'] else if style.plus then ['+'] else []) ++
      Nat.toDigits 10 e.natAbs)) := by
    refine .inr ⟨_, _, rfl, ?_, toDigits_digits _⟩
    split
    · exact .inr (.inr rfl)
    · split
      · exact .inr (.inl rfl)
      · exact .inl rfl
  match digits, nonempty, all with
  | [d], _, all =>
    exact ⟨[d], [], _, rfl, whole_single (all d (by simp)), .inl rfl, exponent⟩
  | d :: d' :: ds, _, all =>
    exact ⟨[d], '.' :: d' :: ds, _, by simp [scientific], whole_single (all d (by simp)),
      .inr ⟨_, rfl, by simp, fun c mem => all c (by simp at mem ⊢; tauto)⟩, exponent⟩

/-- What is written for a decimal is a numeral, if it is not a zero with an exponent. -/
theorem magnitude_numeral (style : Style) {d : Decimal} (h : 0 < d.digits ∨ d = ⟨0, 0⟩) :
    ∃ whole fraction exponent, style.magnitude d = whole ++ (fraction ++ exponent) ∧
      Whole whole ∧ Fraction fraction ∧ Exponent exponent := by
  have digits := toDigits_digits d.digits
  unfold magnitude
  dsimp only
  split
  · have leading : (Nat.toDigits 10 d.digits).head? ≠ some '0' ∨
        Nat.toDigits 10 d.digits = ['0'] ∧
          d.exponent + (Nat.toDigits 10 d.digits).length - 1 = 0 := by
      rcases h with positive | rfl
      · exact .inl (toDigits_head positive.ne')
      · exact .inr ⟨rfl, rfl⟩
    obtain ⟨whole, fraction, text, isWhole, isFraction⟩ := style.layout_numeral digits leading
    exact ⟨whole, fraction, [], by simpa using text, isWhole, isFraction, .inl rfl⟩
  · exact style.scientific_numeral digits

/-- What is written for a finite single is a numeral. -/
theorem chars_numeral (style : Style) {v : Float32} (finite : v.isFinite = true) :
    Numeral (style.chars Number.single v.toBits.toNat) := by
  obtain ⟨negative, m, q, canonical, bits⟩ :=
    exists_canonical (f := Number.single) (by decide) v.toBits.toNat_lt
      ((single_isFinite_iff v).mp finite)
  have decimal : 0 < (if m = 0 then (⟨0, 0⟩ : Decimal) else shortest Number.single style.tie m q).digits ∨
      (if m = 0 then (⟨0, 0⟩ : Decimal) else shortest Number.single style.tie m q) = ⟨0, 0⟩ := by
    by_cases zero : m = 0
    · exact .inr (if_pos zero)
    · rw [if_neg zero]
      exact .inl (shortest_pos _ _ zero)
  obtain ⟨whole, fraction, exponent, text, parts⟩ := style.magnitude_numeral decimal
  rw [chars, bits, decode_encode canonical]
  refine ⟨if negative then ['-'] else [], whole, fraction, exponent, by simp only [text], ?_, parts⟩
  cases negative
  · exact .inl rfl
  · exact .inr rfl

end Guarded.Number.Style
