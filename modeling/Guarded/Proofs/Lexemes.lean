import Guarded.Proofs.Numerals
import Guarded.Proofs.Positions

/-!
Cutting a text undoes putting it together. Which token a text starts with depends on the characters
the token takes and on what the next character could add; a blank or a comment adds nothing. So a text
that is one token by itself is found as that token before any blank or comment, and a text made of such
pieces, with blanks or comments between any two of them, is cut into exactly these pieces.

The pieces are the spellings of the language: each keyword, operator and separator has one, names and
numbers have theirs, integers with zeros in front as they like.
-/

namespace Guarded

namespace Token
variable {c : Char} {cs rest : List Char} {k : Kind}

/-- No token goes on into these characters: there are none, or a blank or a comment comes first. -/
def Breaks (cs : List Char) : Prop :=
  ∀ c, cs.head? = some c → c = '#' ∨ isBlank c = true

theorem breaks_nil : Breaks [] := by
  simp [Breaks]

/-- A class of characters has no blank and no `#` if it has none of these five. -/
theorem ink_of_class {p : Char → Bool} (other : ['#', ' ', '\t', '\r', '\n'].any p = false)
    (own : p c = true) : c ≠ '#' ∧ isBlank c = false := by
  simp only [List.any_cons, List.any_nil, Bool.or_eq_false_iff] at other
  simp only [isBlank, Bool.or_eq_false_iff, decide_eq_false_iff_not]
  refine ⟨?_, ⟨⟨?_, ?_⟩, ?_⟩, ?_⟩ <;> rintro rfl <;> simp_all

/-- Such a class ends where a text breaks off. -/
theorem Breaks.head (breaks : Breaks cs) {p : Char → Bool}
    (other : ['#', ' ', '\t', '\r', '\n'].any p = false) :
    ∀ c, cs.head? = some c → p c = false := by
  intro c first
  by_contra own
  obtain ⟨noHash, noBlank⟩ := ink_of_class other (Bool.not_eq_false _ ▸ own)
  rcases breaks c first with hash | blank
  · exact noHash hash
  · rw [noBlank] at blank
    cases blank

section First

/-- A name or keyword is found as a whole. -/
theorem word_append {name : List Char} (parts : ∀ c ∈ name, isNamePart c = true)
    (stops : ∀ c, rest.head? = some c → isNamePart c = false) :
    word (name ++ rest) =
      ((Kind.keyword? (String.ofList name)).getD (.ident (String.ofList name)), name.length) := by
  rw [word, (span_while parts stops).1]

theorem word_take (cs : List Char) (breaks : Breaks rest) :
    word (cs.take (word cs).2 ++ rest) = word cs := by
  have parts : ∀ c ∈ cs.takeWhile isNamePart, isNamePart c = true :=
    fun c mem => List.mem_takeWhile_imp mem
  have short : cs.take (word cs).2 = cs.takeWhile isNamePart :=
    (List.prefix_iff_eq_take.mp (List.takeWhile_prefix _)).symm
  rw [short, word_append parts (breaks.head (p := isNamePart) (by decide))]
  rfl

/-- Digits are an integer where no point with further digits follows. -/
theorem number_integer {whole : List Char} (digits : ∀ c ∈ whole, c.isDigit = true)
    (stops : ∀ c, rest.head? = some c → c.isDigit = false)
    (noFraction : ∀ more, rest = '.' :: more → more.takeWhile Char.isDigit = []) :
    number (whole ++ rest) = (.intLit (min (Number.natOfDigits whole) maxInt), whole.length) := by
  obtain ⟨taken, left⟩ := span_while digits stops
  unfold number
  rw [taken, left]
  split
  · next more => simp [noFraction more rfl]
  · rfl

/-- Digits on both sides of a point are a float. -/
theorem number_float {whole fraction : List Char} (digits : ∀ c ∈ whole, c.isDigit = true)
    (others : Json.Digits fraction) (stops : ∀ c, rest.head? = some c → c.isDigit = false) :
    number (whole ++ '.' :: (fraction ++ rest)) =
      (.floatLit (Number.Decimal.ofDigits whole fraction).toDouble,
        whole.length + 1 + fraction.length) := by
  obtain ⟨nonempty, all⟩ := others
  have point : ∀ c, ('.' :: (fraction ++ rest)).head? = some c → c.isDigit = false := by
    rintro c ⟨⟩
    decide
  obtain ⟨taken, left⟩ := span_while digits point
  obtain ⟨fractionTaken, -⟩ := span_while all stops
  simp [number, taken, left, fractionTaken, nonempty]

/-- What a text starts with, if digits come first. -/
theorem digits_cases (cs : List Char) :
    (∃ whole rest, cs = whole ++ rest ∧ (∀ c ∈ whole, c.isDigit = true) ∧
      (∀ c, rest.head? = some c → c.isDigit = false) ∧
      ∀ more, rest = '.' :: more → more.takeWhile Char.isDigit = []) ∨
    ∃ whole fraction rest, cs = whole ++ '.' :: (fraction ++ rest) ∧
      (∀ c ∈ whole, c.isDigit = true) ∧ Json.Digits fraction ∧
      ∀ c, rest.head? = some c → c.isDigit = false := by
  have stop (xs : List Char) : ∀ c, (xs.dropWhile Char.isDigit).head? = some c →
      c.isDigit = false := by
    intro c first
    have := List.head?_dropWhile_not Char.isDigit xs
    rwa [first] at this
  have all (xs : List Char) : ∀ c ∈ xs.takeWhile Char.isDigit, c.isDigit = true :=
    fun c mem => List.mem_takeWhile_imp mem
  have parts (xs : List Char) : xs = xs.takeWhile Char.isDigit ++ xs.dropWhile Char.isDigit :=
    List.takeWhile_append_dropWhile.symm
  by_cases fraction : ∃ more, cs.dropWhile Char.isDigit = '.' :: more ∧
      more.takeWhile Char.isDigit ≠ []
  · obtain ⟨more, point, nonempty⟩ := fraction
    refine .inr ⟨_, _, _, ?_, all cs, ⟨nonempty, all more⟩, stop more⟩
    rw [← parts more, ← point, ← parts cs]
  · refine .inl ⟨_, _, parts cs, all cs, stop cs, fun more point => ?_⟩
    by_contra nonempty
    exact fraction ⟨more, point, nonempty⟩

theorem number_take (cs : List Char) (breaks : Breaks rest) :
    number (cs.take (number cs).2 ++ rest) = number cs := by
  have stops := breaks.head (p := Char.isDigit) (by decide)
  have noPoint := breaks.head (p := (· = '.')) (by decide)
  rcases digits_cases cs with ⟨whole, left, rfl, digits, other, noFraction⟩ |
    ⟨whole, fraction, left, rfl, digits, others, other⟩
  · rw [number_integer digits other noFraction, List.take_left, number_integer digits stops]
    rintro more rfl
    exact absurd (noPoint '.' rfl) (by decide)
  · have short : (whole ++ '.' :: (fraction ++ left)).take (whole.length + 1 + fraction.length) =
        whole ++ '.' :: fraction := by
      have length : whole.length + 1 + fraction.length = (whole ++ '.' :: fraction).length := by
        simp
        omega
      have split : whole ++ '.' :: (fraction ++ left) = (whole ++ '.' :: fraction) ++ left := by
        simp
      rw [length, split, List.take_left]
    rw [number_float digits others other, short, List.append_assoc, List.cons_append,
      number_float digits others stops]

/-- Of what follows a character, a symbol looks at one more. -/
theorem symbol_tail (c d : Char) (ds more : List Char) :
    symbol c (d :: ds) = symbol c (d :: more) := by
  unfold symbol
  split <;> simp_all

theorem symbol_short (short : (symbol c cs).2 = 1) : symbol c cs = symbol c [] := by
  unfold symbol at short ⊢
  split at short <;> simp_all

theorem symbol_break (c : Char) (breaks : Breaks rest) : symbol c rest = symbol c [] := by
  have stops := breaks.head (p := fun d => d = '-' || d = '=' || d = ':') (by decide)
  cases rest with
  | nil => rfl
  | cons d ds =>
    have other := stops d rfl
    simp only [Bool.or_eq_false_iff, decide_eq_false_iff_not] at other
    unfold symbol
    split <;> simp_all

theorem symbol_take (c : Char) (cs : List Char) (breaks : Breaks rest) :
    symbol c (cs.take ((symbol c cs).2 - 1) ++ rest) = symbol c cs := by
  have width := symbol_width c cs
  by_cases short : (symbol c cs).2 = 1
  · rw [short, symbol_short short]
    exact symbol_break c breaks
  · cases cs with
    | nil => simp only [List.length_singleton] at width; omega
    | cons d ds =>
      obtain ⟨w, long⟩ := Nat.exists_eq_add_of_lt (by omega : 1 < (symbol c (d :: ds)).2)
      rw [long, Nat.add_sub_cancel, Nat.add_comm, List.take_succ_cons, List.cons_append]
      exact symbol_tail c d _ _

/-- The first token of a text is found again where the text is broken off behind it. -/
theorem first_take (c : Char) (cs : List Char) (breaks : Breaks rest) :
    first ((c :: cs).take (first (c :: cs)).2 ++ rest) = first (c :: cs) := by
  obtain ⟨w, width⟩ := Nat.exists_eq_add_of_lt (first_width c cs).1
  rw [Nat.zero_add] at width
  -- the first character stays, so both sides are read by the same reader
  rw [width, List.take_succ_cons, List.cons_append]
  by_cases name : isNameStart c = true
  · have reader (ds : List Char) : first (c :: ds) = word (c :: ds) := if_pos name
    rw [reader] at width
    rw [reader, reader, ← List.cons_append, ← List.take_succ_cons, ← width]
    exact word_take _ breaks
  · by_cases digit : c.isDigit = true
    · have reader (ds : List Char) : first (c :: ds) = number (c :: ds) := by
        rw [first, if_neg name, if_pos digit]
      rw [reader] at width
      rw [reader, reader, ← List.cons_append, ← List.take_succ_cons, ← width]
      exact number_take _ breaks
    · have reader (ds : List Char) : first (c :: ds) = symbol c ds := by
        rw [first, if_neg name, if_neg digit]
      rw [reader] at width
      rw [reader, reader, ← Nat.add_sub_cancel w 1, ← width]
      exact symbol_take c cs breaks

theorem keyword_ne_eof (name : String) : Kind.keyword? name ≠ some .eof := by
  unfold Kind.keyword?
  split <;> simp

theorem first_ne_eof (c : Char) (cs : List Char) : (first (c :: cs)).1 ≠ .eof := by
  rw [first]
  split
  · unfold word
    cases h : Kind.keyword? (String.ofList ((c :: cs).takeWhile isNamePart)) with
    | none => simp only [h, Option.getD_none, ne_eq, reduceCtorEq, not_false_eq_true]
    | some k =>
      simp only [h, Option.getD_some]
      rintro rfl
      exact keyword_ne_eof _ h
  · split
    · unfold number
      split
      · dsimp only
        split <;> simp
      · simp
    · unfold symbol
      split <;> simp

end First

section Pieces

/-- What may stand between tokens: blanks, and comments with the end of their line. -/
inductive Filler : List Char → Prop where
  | nil : Filler []
  | blank {c : Char} {cs : List Char} : isBlank c = true → Filler cs → Filler (c :: cs)
  | comment {body cs : List Char} : '\n' ∉ body → Filler cs → Filler ('#' :: (body ++ '\n' :: cs))

/-- A comment is passed up to the end of its line. -/
theorem gap_comment {body : List Char} (inside : '\n' ∉ body) (cs : List Char) :
    gap true (body ++ '\n' :: cs) = body.length + 1 + gap false cs := by
  induction body with
  | nil => simp [gap]
  | cons c body ih =>
    obtain ⟨other, inside⟩ := not_or.mp (mt List.mem_cons.mpr inside)
    have stays : (c != '\n') = true := by simpa using Ne.symm other
    rw [List.cons_append, gap, stays, ih inside, List.length_cons]
    omega

theorem Filler.gap_append {filler : List Char} (h : Filler filler) (cs : List Char) :
    gap false (filler ++ cs) = filler.length + gap false cs := by
  induction h with
  | nil => simp
  | @blank c rest blank _ ih =>
    have ink : c ≠ '#' := by
      rintro rfl
      cases blank
    rw [List.cons_append, gap, if_neg ink, if_pos blank, ih, List.length_cons]
    omega
  | @comment body rest inside _ ih =>
    rw [List.cons_append, gap, if_pos rfl, List.append_assoc, List.cons_append,
      gap_comment inside, ih]
    simp only [List.length_cons, List.length_append]
    omega

theorem Filler.append {xs ys : List Char} (left : Filler xs) (right : Filler ys) :
    Filler (xs ++ ys) := by
  induction left with
  | nil => exact right
  | blank blank _ ih => exact .blank blank ih
  | comment inside _ ih =>
    rw [List.cons_append, List.append_assoc, List.cons_append]
    exact .comment inside ih

theorem Filler.breaks {filler : List Char} (h : Filler filler) (nonempty : filler ≠ [])
    (rest : List Char) : Breaks (filler ++ rest) := by
  cases h with
  | nil => exact absurd rfl nonempty
  | blank blank _ =>
    rintro c ⟨⟩
    exact .inr blank
  | comment _ _ =>
    rintro c ⟨⟩
    exact .inl rfl

/-- A text that starts with a character of such a class starts with a token. -/
theorem gap_of_class {p : Char → Bool} (other : ['#', ' ', '\t', '\r', '\n'].any p = false)
    (own : p c = true) (cs : List Char) : gap false (c :: cs) = 0 := by
  obtain ⟨noHash, noBlank⟩ := ink_of_class other own
  simp [gap, noHash, noBlank]

theorem gap_ink (ink : gap false (c :: cs) = 0) (rest : List Char) : gap false (c :: rest) = 0 := by
  simp only [gap] at ink ⊢
  split at ink
  · omega
  · split at ink
    · omega
    · rw [if_neg ‹_›, if_neg ‹_›]

/-- A text that is one token by itself. -/
structure Alone (k : Kind) (cs : List Char) : Prop where
  nonempty : cs ≠ []
  ink : gap false cs = 0
  first : first cs = (k, cs.length)

namespace Alone

theorem ne_eof (alone : Alone k cs) : k ≠ .eof := by
  obtain ⟨nonempty, -, found⟩ := alone
  cases cs with
  | nil => exact absurd rfl nonempty
  | cons c cs =>
    have := first_ne_eof c cs
    rwa [found] at this

theorem gap_append (alone : Alone k cs) (rest : List Char) : gap false (cs ++ rest) = 0 := by
  obtain ⟨nonempty, ink, -⟩ := alone
  cases cs with
  | nil => exact absurd rfl nonempty
  | cons c cs => exact gap_ink ink _

/-- The token is found where the text breaks off behind it. -/
theorem first_append (alone : Alone k cs) (breaks : Breaks rest) :
    Token.first (cs ++ rest) = (k, cs.length) := by
  obtain ⟨nonempty, -, found⟩ := alone
  cases cs with
  | nil => exact absurd rfl nonempty
  | cons c cs =>
    have again := first_take c cs breaks
    rw [found] at again
    rwa [List.take_length] at again

/-- The first token of a text, taken out of the text, is a token by itself. -/
theorem take (nonempty : cs ≠ []) (ink : gap false cs = 0) :
    Alone (Token.first cs).1 (cs.take (Token.first cs).2) := by
  cases cs with
  | nil => exact absurd rfl nonempty
  | cons c cs =>
    obtain ⟨some, inside⟩ := first_width c cs
    have length : ((c :: cs).take (Token.first (c :: cs)).2).length = (Token.first (c :: cs)).2 :=
      List.length_take_of_le inside
    have again := first_take c cs breaks_nil
    rw [List.append_nil] at again
    refine ⟨List.ne_nil_of_length_pos (length.symm ▸ some), ?_, by rw [again, length]⟩
    obtain ⟨w, width⟩ := Nat.exists_eq_add_of_lt some
    rw [Nat.zero_add] at width
    rw [width]
    exact gap_ink ink _

end Alone

/-- Pieces of the kinds in a list, in order, with blanks or comments between any two of them. More of
these may follow the last piece. -/
inductive Joined (piece : Kind → List Char → Prop) : List Kind → List Char → Prop where
  | nil {filler : List Char} : Filler filler → Joined piece [] filler
  | single {k : Kind} {cs : List Char} : piece k cs → Joined piece [k] cs
  | cons {k : Kind} {ks : List Kind} {cs filler rest : List Char} : piece k cs → Filler filler →
      filler ≠ [] → Joined piece ks rest → Joined piece (k :: ks) (cs ++ (filler ++ rest))

end Pieces

end Token

namespace Scanner
open Token
variable {s : Scanner} {lead cs rest : List Char} {k : Kind} {ks : List Kind} {fuel : Nat}

/-- The next token is the piece that stands behind blanks and comments. -/
theorem next_piece (filler : Filler lead) (alone : Alone k cs) (breaks : Breaks rest)
    (text : s.rest = lead ++ (cs ++ rest)) : s.next.1.kind = k ∧ s.next.2.rest = rest := by
  have gap : gap false s.rest = lead.length := by
    rw [text, filler.gap_append, alone.gap_append, Nat.add_zero]
  have skipped : s.skipGap.rest = cs ++ rest := by
    rw [skipGap, Scanner.advance, gap, text]
    exact List.drop_left
  have found := alone.first_append breaks
  have kind : s.next.1.kind = (first s.skipGap.rest).1 := rfl
  have left : s.next.2.rest = s.skipGap.rest.drop (first s.skipGap.rest).2 := rfl
  rw [kind, left, skipped, found]
  exact ⟨rfl, List.drop_left⟩

theorem next_end (filler : Filler s.rest) : s.next.1.kind = .eof := by
  have gap : gap false s.rest = s.rest.length := by
    have passed := filler.gap_append []
    rwa [List.append_nil, Token.gap, Nat.add_zero] at passed
  have skipped : s.skipGap.rest = [] := by
    rw [skipGap, Scanner.advance, gap]
    exact List.drop_length
  have kind : s.next.1.kind = (first s.skipGap.rest).1 := rfl
  rw [kind, skipped]
  rfl

theorem tokens_end (filler : Filler s.rest) (enough : 0 < fuel) :
    (s.tokens fuel).1.map Token.kind = [.eof] := by
  obtain ⟨fuel, rfl⟩ := Nat.exists_eq_succ_of_ne_zero enough.ne'
  have ended := next_end filler
  simp [tokens, ended]

/-- A piece is the first token, and the others are those of what follows it. -/
theorem tokens_piece (filler : Filler lead) (alone : Alone k cs) (breaks : Breaks rest)
    (text : s.rest = lead ++ (cs ++ rest)) (enough : s.rest.length < fuel) :
    ∃ (s' : Scanner) (fuel' : Nat), s'.rest = rest ∧ s'.rest.length < fuel' ∧
      (s.tokens fuel).1.map Token.kind = k :: (s'.tokens fuel').1.map Token.kind := by
  obtain ⟨kind, left⟩ := next_piece filler alone breaks text
  have more : s.next.1.kind ≠ .eof := kind ▸ alone.ne_eof
  obtain ⟨fuel, rfl⟩ := Nat.exists_eq_succ_of_ne_zero (Nat.ne_zero_of_lt enough)
  refine ⟨s.next.2, fuel, left, (next_shorter more).trans_le (Nat.lt_succ_iff.mp enough), ?_⟩
  rw [← kind]
  simp [tokens, more]

/-- A text made of pieces is cut into their kinds. -/
theorem tokens_joined {piece : Kind → List Char → Prop} (each : ∀ k cs, piece k cs → Alone k cs)
    (joined : Joined piece ks cs) (filler : Filler lead) (text : s.rest = lead ++ cs)
    (enough : s.rest.length < fuel) : (s.tokens fuel).1.map Token.kind = ks ++ [.eof] := by
  induction joined generalizing s lead fuel with
  | nil trailing =>
    exact tokens_end (text ▸ filler.append trailing) (Nat.zero_lt_of_lt enough)
  | @single k cs written =>
    rw [← List.append_nil cs] at text
    obtain ⟨s', fuel', left, room, cut⟩ :=
      tokens_piece filler (each k cs written) breaks_nil text enough
    rw [cut, tokens_end (left.symm ▸ .nil) (Nat.zero_lt_of_lt room)]
    rfl
  | @cons k ks cs between rest written isFiller nonempty _ ih =>
    obtain ⟨s', fuel', left, room, cut⟩ :=
      tokens_piece filler (each k cs written) (isFiller.breaks nonempty rest) text enough
    rw [cut, ih isFiller left room]
    rfl

end Scanner

section Spelling

/-- A double from its text. -/
def Number.readDouble (cs : List Char) : Option Float :=
  (readBits double cs).map fun bits => Float.ofBits (UInt64.ofNat bits)

/-- Digits on both sides of a point are read as that decimal. -/
theorem Number.readDouble_digits {whole fraction : List Char} (digits : Json.Digits whole)
    (others : Json.Digits fraction) :
    readDouble (whole ++ '.' :: fraction) = some (Decimal.ofDigits whole fraction).toDouble := by
  obtain ⟨nonempty, all⟩ := digits
  have point : ∀ c, ('.' :: fraction).head? = some c → c.isDigit = false := by
    rintro c ⟨⟩
    decide
  obtain ⟨taken, left⟩ := span_while all point
  have fractionTaken := List.takeWhile_eq_self_iff.mpr others.2
  have fractionLeft := List.dropWhile_eq_nil_iff.mpr others.2
  have unsigned : readSign (whole ++ '.' :: fraction) = (false, whole ++ '.' :: fraction) := by
    cases whole with
    | nil => exact absurd rfl nonempty
    | cons d ds => exact Json.readSign_digit (all d (by simp)) _
  -- none of the words has a point in it
  have noWord (word : String) (plain : '.' ∉ word.toList) :
      String.ofList ((whole ++ '.' :: fraction).map Char.toLower) ≠ word := by
    rintro rfl
    have lower : Char.toLower '.' = '.' := by decide
    exact plain (by simp [lower])
  have body : readUnsigned (whole ++ '.' :: fraction) = some (Decimal.ofDigits whole fraction) := by
    simp [readUnsigned, taken, left, fractionTaken, fractionLeft, nonempty, readExponent]
  have bits : readBits double (whole ++ '.' :: fraction) =
      some ((Decimal.ofDigits whole fraction).toBits double) := by
    simp only [readBits, unsigned, noWord "nan" (by decide), noWord "inf" (by decide),
      noWord "infinity" (by decide), body]
    simp
  rw [readDouble, bits]
  rfl

namespace Token

/-- How a keyword, an operator or a separator is written. -/
def Kind.text? : Kind → Option String
  | .program => some "program"
  | .int => some "int"
  | .float => some "float"
  | .boolean => some "boolean"
  | .trueLit => some "true"
  | .falseLit => some "false"
  | .if => some "if"
  | .fi => some "fi"
  | .do => some "do"
  | .od => some "od"
  | .input => some "input"
  | .print => some "print"
  | .proc => some "proc"
  | .fun => some "fun"
  | .return => some "return"
  | .div => some "div"
  | .mod => some "mod"
  | .assign => some "<-"
  | .eq => some "="
  | .ne => some "~="
  | .lt => some "<"
  | .gt => some ">"
  | .le => some "<="
  | .ge => some ">="
  | .plus => some "+"
  | .minus => some "-"
  | .star => some "*"
  | .slash => some "/"
  | .and => some "&"
  | .or => some "|"
  | .tilde => some "~"
  | .guard => some "::"
  | .colon => some ":"
  | .semicolon => some ";"
  | .comma => some ","
  | .period => some "."
  | .lparen => some "("
  | .rparen => some ")"
  | .lbracket => some "["
  | .rbracket => some "]"
  | .lbrace => some "\x7b"
  | .rbrace => some "\x7d"
  | .intLit _ | .floatLit _ | .ident _ | .unknown _ | .eof => none

/-- The spellings of a kind. A name is none of the fixed texts; an integer may have zeros in front; a
float has the value its text is read with. -/
inductive Lexeme : Kind → List Char → Prop where
  | fixed {k : Kind} {text : String} : k.text? = some text → Lexeme k text.toList
  | name {c : Char} {cs : List Char} : isNameStart c = true → (∀ d ∈ cs, isNamePart d = true) →
      (∀ k : Kind, k.text? ≠ some (String.ofList (c :: cs))) →
      Lexeme (.ident (String.ofList (c :: cs))) (c :: cs)
  | integer (zeros : Nat) {n : Nat} : n < 2 ^ 63 →
      Lexeme (.intLit n) (List.replicate zeros '0' ++ Nat.toDigits 10 n)
  | float {whole fraction : List Char} {v : Float} : Json.Digits whole → Json.Digits fraction →
      Number.readDouble (whole ++ '.' :: fraction) = some v →
      Lexeme (.floatLit v) (whole ++ '.' :: fraction)

theorem text_of_keyword {word : String} {k : Kind} (h : Kind.keyword? word = some k) :
    k.text? = some word := by
  unfold Kind.keyword? at h
  split at h <;> cases h <;> rfl

theorem alone_fixed {k : Kind} {text : String} (h : k.text? = some text) : Alone k text.toList := by
  cases k <;> cases h <;> exact ⟨by decide, by decide, by decide⟩

theorem alone_name {c : Char} {cs : List Char} (starts : isNameStart c = true)
    (parts : ∀ d ∈ cs, isNamePart d = true)
    (free : ∀ k : Kind, k.text? ≠ some (String.ofList (c :: cs))) :
    Alone (.ident (String.ofList (c :: cs))) (c :: cs) := by
  have all : ∀ d ∈ c :: cs, isNamePart d = true :=
    List.forall_mem_cons.mpr ⟨isNamePart_of_isNameStart starts, parts⟩
  have noKeyword : Kind.keyword? (String.ofList (c :: cs)) = none := by
    cases found : Kind.keyword? (String.ofList (c :: cs)) with
    | none => rfl
    | some k => exact absurd (text_of_keyword found) (free k)
  have found := word_append all (breaks_nil.head (p := isNamePart) (by decide))
  rw [List.append_nil, noKeyword, Option.getD_none] at found
  exact ⟨by simp, gap_of_class (p := isNameStart) (by decide) starts cs, (if_pos starts).trans found⟩

theorem isNameStart_of_isDigit {d : Char} (digit : d.isDigit = true) : isNameStart d = false := by
  have bounds : 0x30 ≤ d.toNat ∧ d.toNat ≤ 0x39 := by
    simpa [Char.isDigit, UInt32.le_iff_toNat_le] using digit
  have noLine : d ≠ '_' := by
    rintro rfl
    cases digit
  have ascii : d.toNat < 0x80 := by omega
  simp only [isNameStart, Text.isAlphabetic, if_pos ascii, Bool.or_eq_false_iff,
    Bool.and_eq_false_iff, decide_eq_false_iff_not]
  exact ⟨by omega, noLine⟩

/-- What starts with a digit is read as a number. -/
theorem alone_number {k : Kind} {cs : List Char} (digits : ∃ d ds, cs = d :: ds ∧ d.isDigit = true)
    (found : number cs = (k, cs.length)) : Alone k cs := by
  obtain ⟨d, ds, rfl, digit⟩ := digits
  refine ⟨by simp, gap_of_class (p := Char.isDigit) (by decide) digit ds, ?_⟩
  rw [first, isNameStart_of_isDigit digit, if_neg Bool.false_ne_true, if_pos digit, found]

theorem natOfDigits_zeros (zeros : Nat) (cs : List Char) :
    Number.natOfDigits (List.replicate zeros '0' ++ cs) = Number.natOfDigits cs := by
  induction zeros with
  | zero => rfl
  | succ zeros ih =>
    rw [List.replicate_succ, List.cons_append, ← ih]
    rfl

theorem alone_integer (zeros : Nat) {n : Nat} (small : n < 2 ^ 63) :
    Alone (.intLit n) (List.replicate zeros '0' ++ Nat.toDigits 10 n) := by
  obtain ⟨nonempty, digits⟩ := Json.toDigits_digits n
  have all : ∀ c ∈ List.replicate zeros '0' ++ Nat.toDigits 10 n, c.isDigit = true := by
    intro c mem
    rcases List.mem_append.mp mem with zero | mem
    · rw [List.eq_of_mem_replicate zero]
      rfl
    · exact digits c mem
  obtain ⟨d, ds, split⟩ := List.exists_cons_of_ne_nil
    (List.append_ne_nil_of_right_ne_nil (List.replicate zeros '0') nonempty)
  have found := number_integer all (breaks_nil.head (p := Char.isDigit) (by decide)) (by simp)
  have value : min (n : Int) maxInt = n := min_eq_left (by simp only [maxInt]; omega)
  rw [List.append_nil, natOfDigits_zeros, Json.natOfDigits_toDigits, value] at found
  exact alone_number ⟨d, ds, split, all d (split ▸ List.mem_cons_self)⟩ found

theorem alone_float {whole fraction : List Char} {v : Float} (digits : Json.Digits whole)
    (others : Json.Digits fraction)
    (read : Number.readDouble (whole ++ '.' :: fraction) = some v) :
    Alone (.floatLit v) (whole ++ '.' :: fraction) := by
  rw [Number.readDouble_digits digits others, Option.some.injEq] at read
  obtain ⟨d, ds, rfl⟩ := List.exists_cons_of_ne_nil digits.1
  have found := number_float digits.2 others (breaks_nil.head (p := Char.isDigit) (by decide))
  refine alone_number ⟨d, _, rfl, digits.2 d List.mem_cons_self⟩ ?_
  rw [List.append_nil, read] at found
  rw [found]
  simp
  omega

/-- Every spelling is a token by itself. -/
theorem Lexeme.alone {k : Kind} {cs : List Char} (written : Lexeme k cs) : Alone k cs := by
  cases written with
  | fixed text => exact alone_fixed text
  | name starts parts free => exact alone_name starts parts free
  | integer zeros small => exact alone_integer zeros small
  | float digits others read => exact alone_float digits others read

end Token

end Spelling

section Cutting
open Token

/-- Spellings with blanks or comments between any two of them, and before the first and after the last
as well if wanted, are cut into the tokens they spell. -/
theorem tokenize_joined {ks : List Kind} {lead cs : List Char} (filler : Filler lead)
    (joined : Joined Lexeme ks cs) :
    (tokenize (String.ofList (lead ++ cs))).map Token.kind = ks ++ [.eof] := by
  refine Scanner.tokens_joined (fun _ _ => Lexeme.alone) joined filler ?_ (Nat.lt_succ_self _)
  exact String.toList_ofList

/-- An assignment over three lines, with tokens in its comment, zeros in front of the integer and no
more than a comment behind the arrow. -/
def commentedSum : List Char :=
  "x? <-# <- 1\n007 +\n\t2.50".toList

theorem tokenize_joined_commentedSum : ∃ v, Number.readDouble "2.50".toList = some v ∧
    Joined Lexeme [.ident "x?", .assign, .intLit 7, .plus, .floatLit v] commentedSum ∧
    (tokenize (String.ofList ([] ++ commentedSum))).map Token.kind =
      [.ident "x?", .assign, .intLit 7, .plus, .floatLit v] ++ [.eof] := by
  have digits : Json.Digits ['2'] ∧ Json.Digits ['5', '0'] := by simp [Json.Digits]
  have name : Lexeme (.ident "x?") "x?".toList :=
    .name (by decide) (List.forall_mem_singleton.mpr (by decide)) fun k => by
      cases k <;> simp [Kind.text?]
  have arrow : Lexeme .assign "<-".toList := .fixed rfl
  have seven : Lexeme (.intLit 7) "007".toList := .integer 2 (by decide : 7 < 2 ^ 63)
  have plus : Lexeme .plus "+".toList := .fixed rfl
  have float : Lexeme (.floatLit _) "2.50".toList :=
    .float digits.1 digits.2 (Number.readDouble_digits digits.1 digits.2)
  have blank : Filler " ".toList := .blank rfl .nil
  have comment : Filler "# <- 1\n".toList := by
    have inside : '\n' ∉ " <- 1".toList := by decide
    exact .comment inside .nil
  have line : Filler "\n\t".toList := .blank rfl (.blank rfl .nil)
  have joined : Joined Lexeme _ ("x?".toList ++ (" ".toList ++ ("<-".toList ++ ("# <- 1\n".toList ++
      ("007".toList ++ (" ".toList ++ ("+".toList ++ ("\n\t".toList ++ "2.50".toList)))))))) :=
    .cons name blank (by decide) <| .cons arrow comment (by decide) <|
      .cons seven blank (by decide) <| .cons plus line (by decide) <| .single float
  exact ⟨_, Number.readDouble_digits digits.1 digits.2, joined, tokenize_joined .nil joined⟩

end Cutting

end Guarded
