import Guarded.Token.Scan
import Mathlib.Data.List.TakeWhile
import Mathlib.Order.Nat

/-!
Where tokens are. The scanner counts characters and line ends as it goes, through blanks and comments
as well as through tokens, so the region of a token says where it is in the text: it is what the text
starts with at that offset, and its line is one more than the number of line ends before it. Tokens
come in order and do not overlap, and all but the end of the text lie within the text.
-/

namespace Guarded

/-- The line of a region is that of its start: one more than the number of line ends before it. -/
def Span.TrueIn (text : List Char) (s : Span) : Prop :=
  s.line = 1 + (text.take s.start).count '\n'

namespace Token

/-- The token is where its region says it is. -/
structure In (text : List Char) (t : Token) : Prop where
  first : first (text.drop t.span.start) = (t.kind, t.span.stop - t.span.start)
  line : t.span.TrueIn text
  order : t.span.start < t.span.stop

theorem isNamePart_of_isNameStart {c : Char} (starts : isNameStart c = true) :
    isNamePart c = true := by
  simp only [isNameStart, isNamePart, Bool.or_eq_true] at starts ⊢
  exact starts.elim (fun letter => .inl (.inl (.inl letter))) fun line => .inl (.inr line)

theorem word_width {c : Char} (starts : isNameStart c = true) (cs : List Char) :
    0 < (word (c :: cs)).2 ∧ (word (c :: cs)).2 ≤ (c :: cs).length := by
  refine ⟨?_, (List.takeWhile_prefix _).length_le⟩
  simp [word, isNamePart_of_isNameStart starts]

theorem number_width {c : Char} (digit : c.isDigit = true) (cs : List Char) :
    0 < (number (c :: cs)).2 ∧ (number (c :: cs)).2 ≤ (c :: cs).length := by
  have some : 0 < ((c :: cs).takeWhile Char.isDigit).length := by simp [digit]
  have whole := (List.takeWhile_prefix (l := c :: cs) Char.isDigit).length_le
  unfold number
  split
  · rename_i rest split
    have both :
        ((c :: cs).takeWhile Char.isDigit).length + ('.' :: rest).length = (c :: cs).length := by
      rw [← split, ← List.length_append, List.takeWhile_append_dropWhile]
    have fraction := (List.takeWhile_prefix (l := rest) Char.isDigit).length_le
    rw [List.length_cons] at both
    dsimp only
    split
    · exact ⟨some, whole⟩
    · exact ⟨by omega, by omega⟩
  · exact ⟨some, whole⟩

theorem symbol_width (c : Char) (cs : List Char) :
    0 < (symbol c cs).2 ∧ (symbol c cs).2 ≤ (c :: cs).length := by
  unfold symbol
  split <;> simp

/-- A token takes at least one character, and none beyond the end of the text. -/
theorem first_width (c : Char) (cs : List Char) :
    0 < (first (c :: cs)).2 ∧ (first (c :: cs)).2 ≤ (c :: cs).length := by
  simp only [first]
  split
  · exact word_width ‹_› cs
  · split
    · exact number_width ‹_› cs
    · exact symbol_width c cs

/-- Tokens in order, each before the next. -/
structure Ordered (ts : List Token) : Prop where
  each : ∀ t ∈ ts, t.span.start ≤ t.span.stop
  apart : ts.Pairwise fun t u => t.span.stop ≤ u.span.start

end Token

namespace Scanner
variable {text : List Char} {s : Scanner}

/-- The scanner knows where in the text it is. -/
structure In (text : List Char) (s : Scanner) : Prop where
  rest : s.rest = text.drop s.pos
  line : s.line = 1 + (text.take s.pos).count '\n'

theorem In.ofString (source : String) : (ofString source).In source.toList :=
  ⟨rfl, rfl⟩

theorem In.advance (h : s.In text) (n : Nat) : (s.advance n).In text where
  rest := by
    rw [Scanner.advance, h.rest, List.drop_drop]
  line := by
    rw [Scanner.advance]
    dsimp only
    rw [h.line, h.rest, List.take_add, List.count_append, Nat.add_assoc]

theorem In.skipGap (h : s.In text) : s.skipGap.In text :=
  h.advance _

theorem pos_le_skipGap (s : Scanner) : s.pos ≤ s.skipGap.pos :=
  Nat.le_add_right _ _

theorem next_span (s : Scanner) :
    s.next.1.span = ⟨s.skipGap.pos, s.skipGap.pos + (Token.first s.skipGap.rest).2, s.skipGap.line⟩ :=
  rfl

theorem first_pos (cs : List Char) : 0 < (Token.first cs).2 := by
  cases cs with
  | nil => exact Nat.one_pos
  | cons c cs => exact (Token.first_width c cs).1

theorem In.next (h : s.In text) : s.next.1.In text where
  first := by
    have found := h.skipGap.rest
    rw [next_span, ← found]
    dsimp only
    rw [Nat.add_sub_cancel_left]
    rfl
  line := h.skipGap.line
  order := Nat.lt_add_of_pos_right (first_pos _)

/-- A token that is not the end of the text lies in the text. -/
theorem In.next_inside (h : s.In text) (more : s.next.1.kind ≠ .eof) :
    s.next.1.span.stop ≤ text.length := by
  have found := h.skipGap.rest
  rw [next_span]
  cases rest : s.skipGap.rest with
  | nil =>
    refine absurd ?_ more
    show (Token.first s.skipGap.rest).1 = .eof
    rw [rest]
    rfl
  | cons c cs =>
    have width := (Token.first_width c cs).2
    have length := congrArg List.length found
    rw [rest, List.length_drop] at length
    rw [List.length_cons] at width length
    dsimp only
    omega

/-- A token that is not the end of the text makes what is left shorter. -/
theorem next_shorter (more : s.next.1.kind ≠ .eof) : s.next.2.rest.length < s.rest.length := by
  have left : s.skipGap.rest.length ≤ s.rest.length := by
    rw [skipGap, Scanner.advance, List.length_drop]
    exact Nat.sub_le _ _
  show (s.skipGap.rest.drop (Token.first s.skipGap.rest).2).length < _
  cases rest : s.skipGap.rest with
  | nil =>
    refine absurd ?_ more
    show (Token.first s.skipGap.rest).1 = .eof
    rw [rest]
    rfl
  | cons c cs =>
    have width := (Token.first_width c cs).1
    rw [rest] at left
    rw [List.length_cons] at left
    rw [List.length_drop, List.length_cons]
    omega

/-- The tokens of a text: the end of the text comes last and only there. -/
structure Cut (text : List Char) (start : Nat) (ts : List Token) (last : Token) : Prop where
  ended : last.kind = .eof
  more : ∀ t ∈ ts, t.kind ≠ .eof
  places : ∀ t ∈ ts ++ [last], t.In text
  inside : ∀ t ∈ ts, t.span.stop ≤ text.length
  apart : (ts ++ [last]).Pairwise fun t u => t.span.stop ≤ u.span.start
  after : ∀ t ∈ ts ++ [last], start ≤ t.span.start

theorem tokens_cut (h : s.In text) {fuel : Nat} (enough : s.rest.length < fuel) :
    ∃ ts last, (s.tokens fuel).1 = ts ++ [last] ∧ Cut text s.pos ts last := by
  induction fuel generalizing s with
  | zero => exact absurd enough (Nat.not_lt_zero _)
  | succ fuel ih =>
    simp only [tokens]
    by_cases eof : s.next.1.kind = .eof
    · rw [if_pos eof]
      refine ⟨[], s.next.1, rfl, eof, by simp, ?_, by simp, by simp, ?_⟩
      · exact List.forall_mem_singleton.mpr h.next
      · exact List.forall_mem_singleton.mpr s.pos_le_skipGap
    · rw [if_neg eof]
      have there : s.next.2.In text := h.skipGap.advance _
      obtain ⟨ts, last, split, cut⟩ := ih there (Nat.lt_of_lt_of_le (next_shorter eof)
        (Nat.lt_succ_iff.mp enough))
      have later : ∀ t ∈ ts ++ [last], s.next.1.span.stop ≤ t.span.start := cut.after
      refine ⟨s.next.1 :: ts, last, by rw [split]; rfl, cut.ended, ?_, ?_, ?_, ?_, ?_⟩
      · exact List.forall_mem_cons.mpr ⟨eof, cut.more⟩
      · exact List.forall_mem_cons.mpr ⟨h.next, cut.places⟩
      · exact List.forall_mem_cons.mpr ⟨h.next_inside eof, cut.inside⟩
      · exact List.pairwise_cons.mpr ⟨later, cut.apart⟩
      · refine List.forall_mem_cons.mpr ⟨s.pos_le_skipGap, fun t mem => ?_⟩
        exact s.pos_le_skipGap.trans (h.next.order.le.trans (later t mem))

theorem Cut.ordered {start : Nat} {ts : List Token} {last : Token} (h : Cut text start ts last) :
    Token.Ordered (ts ++ [last]) :=
  ⟨fun t mem => (h.places t mem).order.le, h.apart⟩

end Scanner

theorem tokenize_cut (source : String) :
    ∃ ts last, tokenize source = ts ++ [last] ∧ Scanner.Cut source.toList 0 ts last :=
  Scanner.tokens_cut (.ofString source) (Nat.lt_succ_self _)

end Guarded
