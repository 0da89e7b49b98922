import Guarded.Proofs.Lexemes
import Guarded.Proofs.Reading
import Mathlib.Data.Nat.Digits.Defs

/-!
Integer literals. A text of digits is one token, whatever its length, and reads as its value where
that fits a word. Where it does not, the error quotes a number and not the text: the value, or the
greatest value a token holds where it is beyond that, and without the zeros in front. So the error
quotes what was written exactly if the text has no zeros in front and its value is one that a token
holds.
-/

namespace Guarded

namespace Number

/-- The value of a run of decimal digits, each of them times the power of ten of its place. -/
def decimalValue (cs : List Char) : Nat :=
  Nat.ofDigits 10 (cs.map digitValue).reverse

theorem natOfDigits_concat (cs : List Char) (c : Char) :
    natOfDigits (cs ++ [c]) = natOfDigits cs * 10 + digitValue c := by
  simp [natOfDigits]

theorem natOfDigits_eq_decimalValue (cs : List Char) : natOfDigits cs = decimalValue cs := by
  induction cs using List.reverseRecOn with
  | nil => rfl
  | append_singleton cs c ih =>
    have place : decimalValue (cs ++ [c]) = digitValue c + 10 * decimalValue cs := by
      simp [decimalValue, Nat.ofDigits_cons]
    rw [natOfDigits_concat, place, ih]
    omega

theorem digitChar_digitValue {c : Char} (digit : c.isDigit = true) :
    digitValue c < 10 ∧ Nat.digitChar (digitValue c) = c := by
  have bounds : 0x30 ≤ c.toNat ∧ c.toNat ≤ 0x39 := by
    simpa [Char.isDigit, UInt32.le_iff_toNat_le] using digit
  have small : digitValue c < 10 := by
    simp only [digitValue, show '0'.toNat = 0x30 from rfl]
    omega
  refine ⟨small, Char.toNat_inj.mp ?_⟩
  rw [Nat.toNat_digitChar_of_lt_ten small]
  simp only [digitValue, show '0'.toNat = 0x30 from rfl]
  omega

/-- Digits without a zero in front are those of their value. -/
theorem toDigits_natOfDigits {cs : List Char} (digits : Json.Digits cs)
    (head : cs.head? ≠ some '0') : Nat.toDigits 10 (natOfDigits cs) = cs := by
  induction cs using List.reverseRecOn with
  | nil => exact absurd rfl digits.1
  | append_singleton cs c ih =>
    obtain ⟨small, own⟩ := digitChar_digitValue (digits.2 c (by simp))
    rw [natOfDigits_concat, Nat.toDigits_eq_if (by decide)]
    by_cases more : cs = []
    · subst more
      simp [natOfDigits, small, own]
    · have before : Json.Digits cs := ⟨more, fun d mem => digits.2 d (by simp [mem])⟩
      rw [List.head?_append_of_ne_nil _ more] at head
      have same := ih before head
      have positive : natOfDigits cs ≠ 0 := by
        intro zero
        rw [zero, Nat.toDigits_zero] at same
        exact head (by rw [← same]; rfl)
      have tens : (natOfDigits cs * 10 + digitValue c) / 10 = natOfDigits cs := by omega
      have units : (natOfDigits cs * 10 + digitValue c) % 10 = digitValue c := by omega
      rw [if_neg (by omega), tens, units, same, own]

end Number

/-- A text that is one token by itself is cut into that token. -/
theorem tokenize_alone {source : String} {k : Token.Kind} (alone : Token.Alone k source.toList) :
    ∃ last, tokenize source = [⟨k, ⟨0, source.length, 1⟩⟩, last] ∧ last.kind = .eof := by
  have still : (Scanner.ofString source).skipGap = Scanner.ofString source := by
    simp [Scanner.skipGap, Scanner.ofString, Scanner.advance, alone.ink]
  have found : (Scanner.ofString source).next =
      (⟨k, ⟨0, source.length, 1⟩⟩, (Scanner.ofString source).advance source.length) := by
    unfold Scanner.next
    rw [still]
    simp [Scanner.ofString, alone.first, String.length_toList]
  have ended : ((Scanner.ofString source).advance source.length).next.1.kind = .eof := by
    refine Scanner.next_end ?_
    have nothing : source.toList.drop source.length = [] :=
      List.drop_of_length_le String.length_toList.le
    rw [Scanner.advance, Scanner.ofString, nothing]
    exact .nil
  have some : 0 < source.toList.length := List.length_pos_of_ne_nil alone.nonempty
  obtain ⟨fuel, room⟩ := Nat.exists_eq_add_of_lt some
  refine ⟨((Scanner.ofString source).advance source.length).next.1, ?_, ended⟩
  have run : tokenize source = ((Scanner.ofString source).tokens (source.toList.length + 1)).1 :=
    rfl
  rw [run, room]
  simp [Scanner.tokens, found, ended, alone.ne_eof]

namespace Parse
variable {α : Type} {c : Cursor}

theorem span_bind (f : Span → Parse α) : (span >>= f) c = f c.current.span c :=
  rfl

/-- A literal beyond a word is an error with its number, at its place. -/
theorem binary_refuses (fuel min : Nat) {value : Int} (here : c.current.kind = .intLit value)
    (large : 0x80000000 ≤ value) :
    ∃ d, binary (fuel + 3) min c = .error (.invalidNumber (toString value) c.current.span) d := by
  have beyond : ¬ (-0x80000000 ≤ value && value < 0x80000000) = true := by
    simp only [Bool.and_eq_true, decide_eq_true_eq]
    omega
  obtain ⟨t, d, taken⟩ : ∃ t d, advance c = .ok t d :=
    ⟨_, _, lasting_modifyGet_ok.mpr ⟨rfl, rfl⟩⟩
  refine ⟨d, ?_⟩
  unfold binary
  refine lasting_bind_error.mpr (.inl ?_)
  unfold unary
  rw [kind_bind, here]
  change primary (fuel + 1) c = _
  unfold primary
  rw [span_bind, kind_bind, here]
  refine lasting_bind_error.mpr (.inr ⟨(), d, lasting_discard_ok.mpr ⟨t, taken⟩, ?_⟩)
  refine lasting_bind_error.mpr (.inl ?_)
  rw [intValue, if_neg beyond]
  rfl

end Parse

section
variable {d : String}

/-- Digits are one token, with their value as far as a token holds it. -/
theorem tokenize_digits (digits : Json.Digits d.toList) :
    ∃ last, tokenize d =
      [⟨.intLit ((min (Number.decimalValue d.toList) (2 ^ 63 - 1) : Nat) : Int),
        ⟨0, d.length, 1⟩⟩, last] ∧ last.kind = .eof := by
  obtain ⟨c, cs, split⟩ := List.exists_cons_of_ne_nil digits.1
  have found := Token.number_integer digits.2
    (Token.breaks_nil.head (p := Char.isDigit) (by decide)) (by simp)
  rw [List.append_nil, Number.natOfDigits_eq_decimalValue] at found
  refine tokenize_alone (Token.alone_number ⟨c, cs, split, digits.2 c (by simp [split])⟩ ?_)
  rw [found]
  simp [Token.maxInt]

/-- A value that fits a word is read as that. -/
theorem Cursor.expr_fits (digits : Json.Digits d.toList)
    (fits : Number.decimalValue d.toList ≤ 2147483647) :
    ∃ n w c, (ofTokens (tokenize d)).expr = .ok (.int n w) c ∧
      w.toInt = Number.decimalValue d.toList ∧ c.current.kind = .eof := by
  obtain ⟨last, cut, ended⟩ := tokenize_digits digits
  have held : min (Number.decimalValue d.toList) (2 ^ 63 - 1) = Number.decimalValue d.toList :=
    min_eq_left (by omega)
  rw [held] at cut
  let w := Int32.ofInt (Number.decimalValue d.toList)
  have word : w.toInt = Number.decimalValue d.toList :=
    Int32.toInt_ofInt_of_le (by omega) (by omega)
  have faces : (ofTokens (tokenize d)).Faces ((Expr.int .blank w).spell ++ []) := by
    have writing : Token.writing (tokenize d) = (Expr.int .blank w).spell ++ [] := by
      simp [cut, Token.writing, ended, Expr.spell, word, Token.Kind.mark]
    exact writing ▸ ofTokens_faces (tokenize d)
  have one : 1 ≤ (ofTokens (tokenize d)).ahead.length := faces.length_le
  have room : 8 * (Expr.int .blank w).spell.length + 3 ≤ (ofTokens (tokenize d)).fuel := by
    simp only [Expr.spell, List.length_singleton, fuel]
    omega
  obtain ⟨e, c, read, same, stop⟩ :=
    Parse.expr_yields (e := .int .blank w) (by rw [Expr.Writable, word]; omega) room faces .nil
  obtain ⟨n, rfl⟩ : ∃ n, e = .int n w := by
    cases e <;> simp [Expr.bare] at same
    exact ⟨_, congrArg _ same⟩
  exact ⟨n, w, c, read, word, stop.atEnd⟩

/-- A larger value is an error with a number that need not be the value. -/
theorem Cursor.expr_exceeds (digits : Json.Digits d.toList)
    (large : 2147483647 < Number.decimalValue d.toList) :
    ∃ c, (ofTokens (tokenize d)).expr = .error (.invalidNumber
      (toString (min (Number.decimalValue d.toList) (2 ^ 63 - 1))) ⟨0, d.length, 1⟩) c := by
  obtain ⟨last, cut, ended⟩ := tokenize_digits digits
  have start (t : Token) : ofTokens [t, last] = ⟨[t], last, t.span, 0⟩ := by
    simp [ofTokens, ended]
  rw [cut, start]
  exact Parse.binary_refuses 13 0 rfl (show (0x80000000 : Int) ≤ (_ : Nat) by omega)

/-- The number of an error is what was written, without zeros in front and up to the bound. -/
theorem quoted_iff (digits : Json.Digits d.toList)
    (large : 2147483647 < Number.decimalValue d.toList) :
    toString (min (Number.decimalValue d.toList) (2 ^ 63 - 1)) = d ↔
      d.toList.head? ≠ some '0' ∧ Number.decimalValue d.toList < 2 ^ 63 := by
  rw [← Number.natOfDigits_eq_decimalValue] at large ⊢
  rw [Nat.toString_eq_ofList_toDigits]
  constructor
  · intro same
    have written := congrArg String.toList same
    rw [String.toList_ofList] at written
    have value := congrArg Number.natOfDigits written
    rw [Json.natOfDigits_toDigits] at value
    constructor
    · rw [← written]
      exact Json.toDigits_head (by omega)
    · omega
  · rintro ⟨head, held⟩
    have whole : min (Number.natOfDigits d.toList) (2 ^ 63 - 1) = Number.natOfDigits d.toList :=
      min_eq_left (by omega)
    rw [whole, Number.toDigits_natOfDigits digits head, String.ofList_toList]

/-- Integer literals. Digits whose value fits a word are read as that value, up to the end of the
text. Others are refused as a whole, with the number that the token holds: the value, or `2 ^ 63 -
1` where the value is larger. That number is what was written exactly if no zero stands in front and
the value is below `2 ^ 63`. -/
theorem Cursor.expr_digits (digits : Json.Digits d.toList) :
    (Number.decimalValue d.toList ≤ 2147483647 →
      ∃ n w c, (ofTokens (tokenize d)).expr = .ok (.int n w) c ∧
        w.toInt = Number.decimalValue d.toList ∧ c.current.kind = .eof) ∧
    (2147483647 < Number.decimalValue d.toList →
      ∃ text c, (ofTokens (tokenize d)).expr = .error (.invalidNumber text ⟨0, d.length, 1⟩) c ∧
        text = toString (min (Number.decimalValue d.toList) (2 ^ 63 - 1)) ∧
          (text = d ↔ d.toList.head? ≠ some '0' ∧ Number.decimalValue d.toList < 2 ^ 63)) := by
  refine ⟨expr_fits digits, fun large => ?_⟩
  obtain ⟨c, refused⟩ := expr_exceeds digits large
  exact ⟨_, c, refused, rfl, quoted_iff digits large⟩

end

/-- The greatest value of a word and the one after it, with and without a zero in front. -/
theorem Cursor.expr_digits_bounds :
    (∃ n w c, (ofTokens (tokenize "02147483647")).expr = .ok (.int n w) c ∧
      w.toInt = 2147483647) ∧
    ∃ c, (ofTokens (tokenize "2147483648")).expr =
      .error (.invalidNumber "2147483648" ⟨0, 10, 1⟩) c := by
  constructor
  · obtain ⟨n, w, c, read, value, -⟩ :=
      (expr_digits (d := "02147483647") (by simp [Json.Digits])).1 (by decide +kernel)
    exact ⟨n, w, c, read, value.trans (by decide +kernel)⟩
  · obtain ⟨text, c, read, -, quoted⟩ :=
      (expr_digits (d := "2147483648") (by simp [Json.Digits])).2 (by decide +kernel)
    rw [quoted.mpr (by decide +kernel)] at read
    exact ⟨c, read⟩

/-- Neither digits beyond what a token holds nor zeros in front are quoted. -/
theorem Cursor.expr_misquoted :
    (∃ c, (ofTokens (tokenize "99999999999999999999")).expr =
      .error (.invalidNumber "9223372036854775807" ⟨0, 20, 1⟩) c) ∧
    ∃ c, (ofTokens (tokenize "02147483648")).expr =
      .error (.invalidNumber "2147483648" ⟨0, 11, 1⟩) c := by
  constructor
  · obtain ⟨c, read⟩ := expr_exceeds (d := "99999999999999999999") (by simp [Json.Digits])
      (by decide +kernel)
    have number : toString (min (Number.decimalValue "99999999999999999999".toList) (2 ^ 63 - 1)) =
        "9223372036854775807" := by decide +kernel
    rw [number] at read
    exact ⟨c, read⟩
  · obtain ⟨c, read⟩ := expr_exceeds (d := "02147483648") (by simp [Json.Digits])
      (by decide +kernel)
    have number : toString (min (Number.decimalValue "02147483648".toList) (2 ^ 63 - 1)) =
        "2147483648" := by decide +kernel
    rw [number] at read
    exact ⟨c, read⟩

end Guarded
