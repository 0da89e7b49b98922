import Guarded.Console
import Guarded.Proofs.Literals
import Guarded.Proofs.Shortest

/-!
Floats on the console. What is written for a float is read back as that float: the digits stand for
a decimal near it, the place of the point does not change the decimal, and the words for what is
not finite are read as such.

The text has a point below `10 ^ 7` and none from there on, where every single is a whole number. So
a large float is written like an integer, and nothing in the text tells them apart.
-/

namespace Guarded.Number

open Json (Digits)

section Reading

variable {whole fraction : List Char}

theorem natOfDigits_append (cs ds : List Char) :
    natOfDigits (cs ++ ds) = natOfDigits cs * 10 ^ ds.length + natOfDigits ds := by
  induction ds using List.reverseRecOn with
  | nil => simp [natOfDigits]
  | append_singleton ds c ih =>
    rw [← List.append_assoc, natOfDigits_concat, natOfDigits_concat, ih, List.length_append,
      List.length_singleton, pow_succ]
    ring

theorem natOfDigits_replicate (n : Nat) : natOfDigits (List.replicate n '0') = 0 := by
  rw [← List.append_nil (List.replicate n '0'), Token.natOfDigits_zeros]
  rfl

theorem isDigit_replicate (n : Nat) : ∀ c ∈ List.replicate n '0', c.isDigit = true :=
  fun _ mem => List.eq_of_mem_replicate mem ▸ rfl

theorem digits_append_zeros (isWhole : Digits whole) (n : Nat) :
    Digits (whole ++ List.replicate n '0') :=
  ⟨by simp [isWhole.1], fun c mem =>
    (List.mem_append.mp mem).elim (isWhole.2 c) (isDigit_replicate n c)⟩

theorem Decimal.ofDigits_value (whole fraction : List Char) :
    (ofDigits whole fraction).value =
      natOfDigits (whole ++ fraction) * 10 ^ (-(fraction.length : Int)) :=
  rfl

/-- Zeros at the end move the point. -/
theorem Decimal.ofDigits_zeros (cs : List Char) (before after : Nat) :
    (ofDigits (cs ++ List.replicate before '0') (List.replicate after '0')).value =
      natOfDigits cs * 10 ^ before := by
  have ten : (10 : ℚ) ^ after ≠ 0 := pow_ne_zero _ (by norm_num)
  rw [ofDigits_value, natOfDigits_append, natOfDigits_append, natOfDigits_replicate,
    natOfDigits_replicate, List.length_replicate, List.length_replicate, zpow_neg, zpow_natCast]
  push_cast
  field_simp
  ring

theorem readUnsigned_point (isWhole : Digits whole) (isFraction : Digits fraction) :
    readUnsigned (whole ++ '.' :: fraction) = some (Decimal.ofDigits whole fraction) := by
  have point : ∀ c, ('.' :: fraction).head? = some c → c.isDigit = false := by
    rintro c ⟨⟩
    rfl
  obtain ⟨taken, left⟩ := span_while isWhole.2 point
  have taken' := List.takeWhile_eq_self_iff.mpr isFraction.2
  have left' := List.dropWhile_eq_nil_iff.mpr isFraction.2
  simp [readUnsigned, taken, left, taken', left', readExponent, isWhole.1, isFraction.1]

theorem readUnsigned_whole (isWhole : Digits whole) :
    readUnsigned whole = some (Decimal.ofDigits whole []) := by
  have taken := List.takeWhile_eq_self_iff.mpr isWhole.2
  have left := List.dropWhile_eq_nil_iff.mpr isWhole.2
  simp [readUnsigned, taken, left, readExponent, isWhole.1]

end Reading

namespace Style

variable {digits : List Char} {e : Int}

theorem layout_short (style : Style) (above : 0 ≤ e) (short : digits.length ≤ e.toNat + 1) :
    style.layout digits e = digits ++ List.replicate (e.toNat + 1 - digits.length) '0' ++
      if style.fraction e then ['.', '0'] else [] := by
  rw [layout, if_neg (by omega)]
  exact if_pos short

/-- A decimal written without an exponent: where its point stands, if it has one, and that it is
still the same number. -/
theorem layout_spells (style : Style) (isDigits : Digits digits) :
    ∃ whole fraction, Digits whole ∧
      (style.layout digits e = whole ++ '.' :: fraction ∧ Digits fraction ∨
        style.layout digits e = whole ∧ fraction = [] ∧ style.fraction e = false) ∧
      (Decimal.ofDigits whole fraction).value =
        natOfDigits digits * 10 ^ (e + 1 - digits.length) := by
  have ⟨nonempty, all⟩ := isDigits
  by_cases small : e < 0
  · refine ⟨['0'], List.replicate (-e - 1).toNat '0' ++ digits, ⟨by simp, by simp⟩,
      .inl ⟨by simp [layout, small], by simp [nonempty], ?_⟩, ?_⟩
    · exact fun c mem => (List.mem_append.mp mem).elim (isDigit_replicate _ c) (all c)
    · have exponent : -((List.replicate (-e - 1).toNat '0' ++ digits).length : Int) =
          e + 1 - digits.length := by
        rw [List.length_append, List.length_replicate]
        omega
      have leading : ['0'] ++ (List.replicate (-e - 1).toNat '0' ++ digits) =
          List.replicate ((-e - 1).toNat + 1) '0' ++ digits := rfl
      rw [Decimal.ofDigits_value, exponent, leading, Token.natOfDigits_zeros]
  by_cases short : digits.length ≤ e.toNat + 1
  · have text := style.layout_short (not_lt.mp small) short
    have isWhole := digits_append_zeros isDigits (e.toNat + 1 - digits.length)
    have same (after : Nat) : (Decimal.ofDigits
        (digits ++ List.replicate (e.toNat + 1 - digits.length) '0')
        (List.replicate after '0')).value = natOfDigits digits * 10 ^ (e + 1 - digits.length) := by
      rw [Decimal.ofDigits_zeros, ← zpow_natCast]
      congr 2
      omega
    cases point : style.fraction e with
    | true => exact ⟨_, ['0'], isWhole, .inl ⟨by simp [text, point], by simp, by simp⟩, same 1⟩
    | false => exact ⟨_, [], isWhole, .inr ⟨by simp [text, point], rfl, rfl⟩, same 0⟩
  · refine ⟨digits.take (e.toNat + 1), digits.drop (e.toNat + 1), ⟨by simpa using nonempty, ?_⟩,
      .inl ⟨by simp [layout, small, short], ?_, ?_⟩, ?_⟩
    · exact fun c mem => all c (List.mem_of_mem_take mem)
    · simp only [ne_eq, List.drop_eq_nil_iff]
      omega
    · exact fun c mem => all c (List.mem_of_mem_drop mem)
    · rw [Decimal.ofDigits_value, List.take_append_drop, List.length_drop]
      congr 2
      omega

/-- What is written for a decimal without an exponent is read as the same number. -/
theorem magnitude_reads (style : Style) (positional : ∀ e, style.positional e = true)
    (d : Decimal) : ∃ c cs d', style.magnitude d = c :: cs ∧ c.isDigit = true ∧
      readUnsigned (style.magnitude d) = some d' ∧ d'.value = d.value := by
  have isDigits := Json.toDigits_digits d.digits
  obtain ⟨whole, fraction, isWhole, text, value⟩ :=
    style.layout_spells (e := d.exponent + (Nat.toDigits 10 d.digits).length - 1) isDigits
  have laid : style.magnitude d = style.layout (Nat.toDigits 10 d.digits)
      (d.exponent + (Nat.toDigits 10 d.digits).length - 1) := if_pos (positional _)
  have place : d.exponent + (Nat.toDigits 10 d.digits).length - 1 + 1 -
      (Nat.toDigits 10 d.digits).length = d.exponent := by omega
  rw [Json.natOfDigits_toDigits, place] at value
  obtain ⟨c, cs, rfl⟩ := List.exists_cons_of_ne_nil isWhole.1
  have digit := isWhole.2 c (by simp)
  obtain ⟨text, isFraction⟩ | ⟨text, rfl, -⟩ := text
  · rw [laid, text]
    exact ⟨c, _, _, rfl, digit, readUnsigned_point isWhole isFraction, value⟩
  · rw [laid, text]
    exact ⟨c, cs, _, rfl, digit, readUnsigned_whole isWhole, value⟩

end Style

theorem toLower_of_isDigit {c : Char} (digit : c.isDigit = true) : c.toLower = c := by
  refine dif_neg fun upper => ?_
  have small : c.val.toNat ≤ 57 := by
    simp only [Char.isDigit, Bool.and_eq_true, decide_eq_true_eq, UInt32.le_iff_toNat_le] at digit
    exact digit.2
  have large : 65 ≤ c.val.toNat := UInt32.le_iff_toNat_le.mp upper.1
  omega

/-- A numeral with a sign or none is read as a numeral and not as a word. -/
theorem readBits_signed (f : Format) (negative : Bool) {c : Char} {cs : List Char} {d : Decimal}
    (digit : c.isDigit = true) (read : readUnsigned (c :: cs) = some d) :
    readBits f ((if negative then ['-'] else []) ++ c :: cs) =
      some (d.toBits f + f.sign negative) := by
  have sign : readSign ((if negative then ['-'] else []) ++ c :: cs) = (negative, c :: cs) := by
    cases negative
    · exact Json.readSign_digit digit cs
    · rfl
  have other {word : String} {l : Char} {ls : List Char} (spelled : word.toList = l :: ls)
      (letter : l.isDigit = false) : String.ofList ((c :: cs).map Char.toLower) ≠ word := by
    rintro rfl
    rw [String.toList_ofList, List.map_cons, toLower_of_isDigit digit] at spelled
    obtain ⟨rfl, -⟩ := List.cons.inj spelled
    rw [digit] at letter
    cases letter
  have nan : String.ofList ((c :: cs).map Char.toLower) ≠ "nan" := other rfl rfl
  have inf : String.ofList ((c :: cs).map Char.toLower) ≠ "inf" := other rfl rfl
  have infinity : String.ofList ((c :: cs).map Char.toLower) ≠ "infinity" := other rfl rfl
  unfold readBits
  rw [sign]
  dsimp only
  rw [if_neg nan, decide_eq_false inf, decide_eq_false infinity, read]
  rfl

/-- A decimal with the value of the digits written for a single has the bits of the single. -/
theorem toBits_shortest {m : Nat} {q : Int} {tie : Tie} {d : Decimal} (h : single.Canonical m q)
    (value : d.value = (if m = 0 then (⟨0, 0⟩ : Decimal) else shortest single tie m q).value) :
    d.toBits single = single.encode m q := by
  by_cases zero : m = 0
  · subst zero
    have none : d.digits = 0 := by
      simpa [Decimal.value, zpow_ne_zero] using value
    obtain rfl := h.leading.resolve_right (by simp)
    simp [Decimal.toBits, none, Format.encode]
  · rw [if_neg zero] at value
    exact Decimal.toBits_near h zero (value ▸ shortest_near h zero (by decide) tie)

/-- The number a bit pattern stands for, zero if it is not finite. -/
def Decoded.value : Decoded → ℚ
  | .finite negative m q => if negative then -(m * 2 ^ q) else m * 2 ^ q
  | _ => 0

/-- The number a finite single stands for. -/
def singleValue (v : Float32) : ℚ :=
  (decode single v.toBits.toNat).value

theorem abs_singleValue {v : Float32} {negative : Bool} {m : Nat} {q : Int}
    (h : single.Canonical m q)
    (bits : v.toBits.toNat = single.encode m q + single.sign negative) :
    |singleValue v| = m * 2 ^ q := by
  have positive : (0 : ℚ) ≤ m * 2 ^ q := mul_nonneg (Nat.cast_nonneg m) (zpow_pos two_pos q).le
  rw [singleValue, bits, decode_encode h]
  cases negative
  · exact abs_of_nonneg positive
  · exact (abs_neg _).trans (abs_of_nonneg positive)

section Bound

variable {m : Nat} {q : Int}

/-- From `10 ^ 7` on the singles are whole numbers. -/
theorem whole_of_large (h : single.Canonical m q) (large : (10 ^ 7 : ℚ) ≤ m * 2 ^ q) : 0 ≤ q := by
  by_contra below
  have short : (m : ℚ) < 2 ^ 24 := mod_cast h.short
  have half : (2 : ℚ) ^ q ≤ 2 ^ (-1 : Int) := zpow_le_zpow_right₀ one_le_two (by omega)
  have : (m * 2 ^ q : ℚ) ≤ 2 ^ 24 * 2 ^ (-1 : Int) :=
    mul_le_mul short.le half (zpow_pos two_pos q).le (by norm_num)
  norm_num at this
  linarith

/-- No single below `10 ^ 7` is so near to it that a decimal from there on rounds to the single. -/
theorem Near.lt_of_small {below : Nat} {x : ℚ} (near : Near m q below x)
    (h : single.Canonical m q) (small : (m * 2 ^ q : ℚ) < 10 ^ 7) : x < 10 ^ 7 := by
  have pow : (0 : ℚ) < 2 ^ q := zpow_pos two_pos q
  have least : q ≤ 0 := by
    by_contra above
    have full : (2 ^ 23 : ℚ) ≤ m := by
      have := h.leading.resolve_left (fun same => above (same ▸ by decide))
      exact_mod_cast this
    have double : (2 : ℚ) ^ (1 : Int) ≤ 2 ^ q := zpow_le_zpow_right₀ one_le_two (by omega)
    have : (2 ^ 23 * 2 ^ (1 : Int) : ℚ) ≤ m * 2 ^ q :=
      mul_le_mul full double (by norm_num) (Nat.cast_nonneg m)
    norm_num at this
    linarith
  obtain ⟨n, rfl⟩ : ∃ n : Nat, q = -n := ⟨(-q).toNat, by omega⟩
  -- both are multiples of the unit, so there is a whole unit between them
  have step : (m + 1 : ℚ) * 2 ^ (-n : Int) ≤ 10 ^ 7 := by
    rw [zpow_neg, zpow_natCast, ← div_eq_mul_inv, div_lt_iff₀ (by positivity)] at small
    rw [zpow_neg, zpow_natCast, ← div_eq_mul_inv, div_le_iff₀ (by positivity)]
    have : m + 1 ≤ 10 ^ 7 * 2 ^ n := mod_cast small
    exact_mod_cast this
  calc x ≤ (m + 1 / 2) * 2 ^ (-n : Int) := near.high
    _ < (m + 1) * 2 ^ (-n : Int) := mul_lt_mul_of_pos_right (by linarith) pow
    _ ≤ 10 ^ 7 := step

/-- The first digit of the shortest decimal stands below the eighth place exactly if the single is
below `10 ^ 7`. -/
theorem firstDigit_iff (h : single.Canonical m q) (nonzero : m ≠ 0) (tie : Tie) :
    (shortest single tie m q).exponent + digitCount (shortest single tie m q).digits - 1 < 7 ↔
      (m * 2 ^ q : ℚ) < 10 ^ 7 := by
  obtain ⟨low, high⟩ := Decimal.value_between (shortest_pos (q := q) single tie nonzero).ne'
  have ten : (1 : ℚ) < 10 := by norm_num
  rw [add_comm ((digitCount _ : Nat) : Int)] at low high
  constructor
  · intro first
    by_contra large
    have reached := pow_le_shortest h nonzero (by decide) tie (t := 7) (not_lt.mp large)
    have := (zpow_lt_zpow_iff_right₀ ten).mp (reached.trans_lt high)
    omega
  · intro small
    have under := (shortest_near h nonzero (by decide) tie).lt_of_small h small
    exact (zpow_lt_zpow_iff_right₀ ten).mp (low.trans_lt under)

end Bound

/-- The infinities, and what is not a number. -/
def boundless : List Float32 :=
  [Float32.ofBits 0x7f800000, Float32.ofBits 0xff800000, Float32.ofBits 0x7fc00000]

theorem mem_boundless {v : Float32} (infinite : ¬ v.isFinite = true) : v ∈ boundless := by
  have greatest : v.toBits.toNat / 2 ^ 23 % 2 ^ 8 = 2 ^ 8 - 1 := by
    rw [single_isFinite_iff] at infinite
    exact not_not.mp infinite
  have width := v.toBits.toNat_lt
  have same (bits : UInt32) (h : v.toBits.toNat = bits.toNat) : v = Float32.ofBits bits := by
    rw [← single_ofBits_toBits v, UInt32.toNat_inj.mp h]
  by_cases zero : v.toBits.toNat % 2 ^ 23 = 0
  · have bits : v.toBits.toNat = 0x7f800000 ∨ v.toBits.toNat = 0xff800000 := by omega
    rcases bits with positive | negative
    · simp [boundless, same 0x7f800000 positive]
    · simp [boundless, same 0xff800000 negative]
  · have ones : @Float.Model.UnpackedFloat.unpackExponent .binary32 v.toBits.toBitVec = -1#_ :=
      exponent_eq_ones ((@exponent_toNat .binary32 v.toBits.toBitVec).trans greatest)
    have some : @Float.Model.UnpackedFloat.unpackMantissa .binary32 v.toBits.toBitVec ≠ 0#_ := by
      intro none
      have field := @mantissa_toNat .binary32 v.toBits.toBitVec
      rw [none] at field
      exact zero field.symm
    have bits := v.toModel.valid.eq_packedNaN ones some
    have nan : v = Float32.ofBits 0x7fc00000 := by
      apply same
      exact congrArg BitVec.toNat bits
    simp [boundless, nan]

end Guarded.Number

namespace Guarded.Console

open Number

/-- The text of a finite single, with the decimal it spells. -/
theorem formatFloat_finite {v : Float32} (finite : v.isFinite = true) :
    ∃ negative m q, Number.single.Canonical m q ∧
      v.toBits.toNat = Number.single.encode m q + Number.single.sign negative ∧
      (formatFloat v).toList = (if negative then ['-'] else []) ++
        floatStyle.magnitude (if m = 0 then ⟨0, 0⟩ else shortest Number.single .up m q) := by
  obtain ⟨negative, m, q, canonical, bits⟩ :=
    exists_canonical (f := Number.single) (by decide) v.toBits.toNat_lt
      ((single_isFinite_iff v).mp finite)
  refine ⟨negative, m, q, canonical, bits, ?_⟩
  rw [formatFloat, Style.single, String.toList_ofList, Style.chars, bits, decode_encode canonical]
  rfl

/-- What is written for a float is read as that float. -/
theorem readSingle_formatFloat (v : Float32) : readSingle (formatFloat v).toList = some v := by
  by_cases finite : v.isFinite = true
  · obtain ⟨negative, m, q, canonical, bits, text⟩ := formatFloat_finite finite
    obtain ⟨c, cs, d, written, digit, read, value⟩ := floatStyle.magnitude_reads (fun _ => rfl)
      (if m = 0 then ⟨0, 0⟩ else shortest Number.single .up m q)
    rw [written] at read
    rw [readSingle, text, written, readBits_signed _ _ digit read, toBits_shortest canonical value,
      ← bits, Option.map_some, UInt32.ofNat_toNat, single_ofBits_toBits]
  · have each : ∀ v ∈ boundless, readSingle (formatFloat v).toList = some v := by decide +kernel
    exact each v (mem_boundless finite)

section Point

/-- A sign or none, and digits on both sides of a point. -/
def Fractional (cs : List Char) : Prop :=
  ∃ sign whole fraction, cs = sign ++ (whole ++ '.' :: fraction) ∧
    (sign = [] ∨ sign = ['-']) ∧ Json.Digits whole ∧ Json.Digits fraction

theorem toString_int_toList (n : Int) :
    (toString n).toList = (if n < 0 then ['-'] else []) ++ Nat.toDigits 10 n.natAbs := by
  rw [Int.toString_eq_repr, Int.repr_eq_if, Nat.repr_eq_ofList_toDigits,
    Nat.repr_eq_ofList_toDigits]
  by_cases below : n < 0
  · have magnitude : (-n).toNat = n.natAbs := by omega
    simp [below, not_le.mpr below, magnitude]
  · have magnitude : n.toNat = n.natAbs := by omega
    simp [below, not_lt.mp below, magnitude]

/-- No integer is written with a point. -/
theorem not_fractional_int (n : Int) : ¬ Fractional (toString n).toList := by
  rintro ⟨sign, whole, fraction, text, -, -, -⟩
  have point : '.' ∈ (toString n).toList := text ▸ by simp
  rw [toString_int_toList] at point
  rcases List.mem_append.mp point with inSign | inDigits
  · split at inSign <;> simp at inSign
  · exact absurd ((Json.toDigits_digits _).2 _ inDigits) (by decide)

variable {d : Decimal}

/-- Below `10 ^ 7` a decimal is written with a point. -/
theorem magnitude_small (small : d.exponent + digitCount d.digits - 1 < 7) :
    ∃ whole fraction, floatStyle.magnitude d = whole ++ '.' :: fraction ∧
      Json.Digits whole ∧ Json.Digits fraction := by
  obtain ⟨whole, fraction, isWhole, ⟨text, isFraction⟩ | ⟨-, -, bare⟩, -⟩ :=
    floatStyle.layout_spells (Json.toDigits_digits d.digits)
      (e := d.exponent + digitCount d.digits - 1)
  · exact ⟨whole, fraction, text, isWhole, isFraction⟩
  · exact absurd small (of_decide_eq_false bare)

/-- From `10 ^ 7` on a whole number is written as such. -/
theorem magnitude_large (nonzero : d.digits ≠ 0) (whole : 0 ≤ d.exponent)
    (large : 7 ≤ d.exponent + digitCount d.digits - 1) :
    ∃ n, floatStyle.magnitude d = Nat.toDigits 10 n ∧ n ≠ 0 := by
  have isDigits := Json.toDigits_digits d.digits
  have laid : floatStyle.magnitude d =
      Nat.toDigits 10 d.digits ++ List.replicate d.exponent.toNat '0' := by
    have text : floatStyle.magnitude d = _ := floatStyle.layout_short
      (e := d.exponent + digitCount d.digits - 1) (by omega) (by rw [← digitCount]; omega)
    have zeros : (d.exponent + digitCount d.digits - 1).toNat + 1 - digitCount d.digits =
        d.exponent.toNat := by omega
    have bare : floatStyle.fraction (d.exponent + digitCount d.digits - 1) = false :=
      decide_eq_false (by omega)
    rw [← digitCount, zeros, bare] at text
    exact text.trans (List.append_nil _)
  have leading : (floatStyle.magnitude d).head? ≠ some '0' := by
    rw [laid, List.head?_append_of_ne_nil _ isDigits.1]
    exact Json.toDigits_head nonzero
  have all := laid ▸ digits_append_zeros isDigits d.exponent.toNat
  refine ⟨_, (toDigits_natOfDigits all leading).symm, ?_⟩
  rw [laid, natOfDigits_append, Json.natOfDigits_toDigits]
  simp [nonzero]

variable {v : Float32}

theorem formatFloat_small (finite : v.isFinite = true) (small : |singleValue v| < 10 ^ 7) :
    Fractional (formatFloat v).toList := by
  obtain ⟨negative, m, q, canonical, bits, text⟩ := formatFloat_finite finite
  rw [abs_singleValue canonical bits] at small
  have first : (if m = 0 then (⟨0, 0⟩ : Decimal) else shortest Number.single .up m q).exponent +
      digitCount (if m = 0 then (⟨0, 0⟩ : Decimal) else shortest Number.single .up m q).digits - 1 <
        7 := by
    by_cases zero : m = 0
    · simp only [if_pos zero]
      decide
    · simp only [if_neg zero]
      exact (firstDigit_iff canonical zero .up).mpr small
  obtain ⟨whole, fraction, written, isWhole, isFraction⟩ := magnitude_small first
  refine ⟨if negative then ['-'] else [], whole, fraction, by rw [text, written], ?_, isWhole,
    isFraction⟩
  cases negative
  · exact .inl rfl
  · exact .inr rfl

theorem formatFloat_large (finite : v.isFinite = true) (large : 10 ^ 7 ≤ |singleValue v|) :
    ∃ n : Int, formatFloat v = toString n := by
  obtain ⟨negative, m, q, canonical, bits, text⟩ := formatFloat_finite finite
  rw [abs_singleValue canonical bits] at large
  have nonzero : m ≠ 0 := by
    rintro rfl
    norm_num at large
  have whole := shortest_whole canonical nonzero (by decide) .up (whole_of_large canonical large)
  have first := mt (firstDigit_iff canonical nonzero .up).mp (not_lt.mpr large)
  obtain ⟨n, written, positive⟩ :=
    magnitude_large (shortest_pos _ _ nonzero).ne' whole (not_lt.mp first)
  rw [if_neg nonzero, written] at text
  refine ⟨if negative then -n else n, String.toList_inj.mp ?_⟩
  rw [text, toString_int_toList]
  cases negative
  · simp
  · simp [Nat.pos_of_ne_zero positive]

/-- Floats below `10 ^ 7` are written with a point, and digits on both sides of it. From there on
they are written as integers are. -/
theorem formatFloat_point (finite : v.isFinite = true) :
    (Fractional (formatFloat v).toList ↔ |singleValue v| < 10 ^ 7) ∧
      ((∃ n : Int, formatFloat v = toString n) ↔ 10 ^ 7 ≤ |singleValue v|) := by
  have apart : Fractional (formatFloat v).toList → ¬ ∃ n : Int, formatFloat v = toString n := by
    rintro pointed ⟨n, same⟩
    exact not_fractional_int n (same ▸ pointed)
  rcases lt_or_ge |singleValue v| (10 ^ 7) with small | large
  · have pointed := formatFloat_small finite small
    exact ⟨iff_of_true pointed small, iff_of_false (apart pointed) (not_le.mpr small)⟩
  · have integral := formatFloat_large finite large
    exact ⟨iff_of_false (fun pointed => apart pointed integral) (not_lt.mpr large),
      iff_of_true integral large⟩

end Point

/-- The greatest single below the bound, the bound, and the greatest single there is. -/
theorem formatFloat_point_bounds :
    (Fractional (formatFloat (Float32.ofBits 0x4b18967f)).toList) ∧
    (∃ n : Int, formatFloat (Float32.ofBits 0xcb189680) = toString n) ∧
    ∃ n : Int, formatFloat (Float32.ofBits 0x7f7fffff) = toString n := by
  have decoded : decode Number.single (Float32.ofBits 0x4b18967f).toBits.toNat =
      .finite false 9999999 0 ∧
    decode Number.single (Float32.ofBits 0xcb189680).toBits.toNat = .finite true 10000000 0 ∧
    decode Number.single (Float32.ofBits 0x7f7fffff).toBits.toNat = .finite false 16777215 104 := by
    decide +kernel
  obtain ⟨below, bound, greatest⟩ := decoded
  refine ⟨(formatFloat_point (by decide +kernel)).1.mpr ?_,
    (formatFloat_point (by decide +kernel)).2.mpr ?_,
    (formatFloat_point (by decide +kernel)).2.mpr ?_⟩
  · norm_num [singleValue, below, Decoded.value]
  · norm_num [singleValue, bound, Decoded.value]
  · norm_num [singleValue, greatest, Decoded.value]

/-- The float `10000000` is written without a point, just as the integer is. -/
theorem formatFloat_bare : (Float32.ofBits 0x4b189680).isFinite = true ∧
    ¬ Fractional (formatFloat (Float32.ofBits 0x4b189680)).toList ∧
      formatFloat (Float32.ofBits 0x4b189680) = formatInt 10000000 := by
  have same : formatFloat (Float32.ofBits 0x4b189680) = formatInt 10000000 := by decide +kernel
  refine ⟨by decide +kernel, ?_, same⟩
  rw [same]
  exact not_fractional_int _

end Guarded.Console
