import Guarded.Proofs.Lexemes

/-!
Tokens tile their text. No character is lost and none is taken twice: tokens come in order without
overlapping, and what no token takes is a blank or belongs to a comment, which runs from its `#` to the
end of its line. Each token is where its region says, on the line it says, and the characters of the
region are that token also when they are a text of their own.
-/

namespace Guarded

namespace Span

/-- The region has the character at this position. -/
def Includes (s : Span) (i : Nat) : Prop :=
  s.start ≤ i ∧ i < s.stop

/-- The characters of a region. -/
def cut (s : Span) (text : List Char) : List Char :=
  (text.drop s.start).take (s.stop - s.start)

end Span

namespace Token

/-- No token has the character at this position. -/
def Free (ts : List Token) (i : Nat) : Prop :=
  ∀ t ∈ ts, ¬t.span.Includes i

/-- Where the line of a position ends: before the next line end, or with the text. -/
def lineEnd (text : List Char) (i : Nat) : Nat :=
  i + ((text.drop i).takeWhile (· ≠ '\n')).length

/-- A comment starts at this position: a `#` stands there, and no token has anything of its line from
there on. -/
structure CommentAt (text : List Char) (ts : List Token) (i : Nat) : Prop where
  mark : text[i]? = some '#'
  free : ∀ k, i ≤ k → k < lineEnd text i → Free ts k

/-- What stands between tokens: a blank, or a character of a comment. -/
def Between (text : List Char) (ts : List Token) (i : Nat) : Prop :=
  (∃ c, text[i]? = some c ∧ isBlank c = true) ∨
    ∃ j, CommentAt text ts j ∧ j ≤ i ∧ i < lineEnd text j

/-- How the tokens of a text and the token at its end divide the text. -/
structure Tiles (text : List Char) (ts : List Token) (last : Token) : Prop where
  ended : last.kind = .eof ∧ ∀ t ∈ ts, t.kind ≠ .eof
  inside : ∀ t ∈ ts, t.span.start < t.span.stop ∧ t.span.stop ≤ text.length
  order : ts.Pairwise fun t u => t.span.start < u.span.start ∧ t.span.stop ≤ u.span.start
  between : ∀ i < text.length, Free ts i → Between text ts i
  lines : ∀ t ∈ ts ++ [last], t.span.TrueIn text
  alone : ∀ t ∈ ts, (tokenize (String.ofList (t.span.cut text))).map Token.kind = [t.kind, .eof]

section Gaps

variable {text cs : List Char} {lo hi i : Nat}

/-- A blank, or a character of a comment that lies between these positions. -/
def InGap (text : List Char) (lo hi i : Nat) : Prop :=
  (∃ c, text[i]? = some c ∧ isBlank c = true) ∨
    ∃ j, text[j]? = some '#' ∧ lo ≤ j ∧ j ≤ i ∧ i < lineEnd text j ∧ lineEnd text j ≤ hi

theorem lineEnd_drop (text : List Char) (n i : Nat) :
    lineEnd text (n + i) = n + lineEnd (text.drop n) i := by
  simp [lineEnd, List.drop_drop, Nat.add_assoc]

theorem lineEnd_cons {c : Char} (inside : c ≠ '\n') (cs : List Char) :
    lineEnd (c :: cs) 0 = 1 + lineEnd cs 0 := by
  simp [lineEnd, inside, Nat.add_comm]

theorem lineEnd_newline (cs : List Char) : lineEnd ('\n' :: cs) 0 = 0 := by
  simp [lineEnd]

/-- What is said about the rest of a text, said about the text. -/
theorem InGap.shift {n : Nat} (h : InGap (text.drop n) lo hi i) :
    InGap text (n + lo) (n + hi) (n + i) := by
  rcases h with ⟨c, found, blank⟩ | ⟨j, mark, low, le, before, within⟩
  · rw [List.getElem?_drop] at found
    exact .inl ⟨c, found, blank⟩
  · rw [List.getElem?_drop] at mark
    refine .inr ⟨n + j, mark, ?_⟩
    rw [lineEnd_drop]
    omega

theorem InGap.mono {lo' : Nat} (h : InGap text lo' hi i) (le : lo ≤ lo') : InGap text lo hi i :=
  h.imp id fun ⟨j, mark, low, rest⟩ => ⟨j, mark, le.trans low, rest⟩

theorem InGap.cons {c : Char} (h : InGap cs 0 hi i) : InGap (c :: cs) 0 (1 + hi) (i + 1) := by
  have shifted : InGap (c :: cs) (1 + 0) (1 + hi) (1 + i) := InGap.shift h
  rw [Nat.add_comm i 1]
  exact shifted.mono (Nat.zero_le _)

/-- The characters before the next token are blanks and comments. Inside a comment, its line comes
first. -/
theorem gap_inGap (b : Bool) (cs : List Char) :
    (b = true → lineEnd cs 0 ≤ gap b cs) ∧
      ∀ i < gap b cs, InGap cs 0 (gap b cs) i ∨ b = true ∧ i < lineEnd cs 0 := by
  fun_induction gap b cs with
  | case1 b => simp [lineEnd]
  | case2 c cs ih =>
    by_cases newline : c = '\n'
    · subst newline
      rw [lineEnd_newline]
      refine ⟨fun _ => Nat.zero_le _, fun i below => .inl ?_⟩
      cases i with
      | zero => exact .inl ⟨'\n', rfl, rfl⟩
      | succ i =>
        rcases ih.2 i (by omega) with inner | ⟨no, -⟩
        · exact inner.cons
        · cases no
    · have stays : (c != '\n') = true := by simpa using newline
      rw [lineEnd_cons newline]
      rw [stays] at ih ⊢
      refine ⟨fun _ => Nat.add_le_add_left (ih.1 rfl) 1, fun i below => ?_⟩
      cases i with
      | zero => exact .inr ⟨rfl, by omega⟩
      | succ i =>
        rcases ih.2 i (by omega) with inner | ⟨-, line⟩
        · exact .inl inner.cons
        · exact .inr ⟨rfl, by omega⟩
  | case3 cs ih =>
    have lineLe := ih.1 rfl
    have line := lineEnd_cons (c := '#') (by decide) cs
    refine ⟨by simp, fun i below => .inl ?_⟩
    have own (inside : i < lineEnd ('#' :: cs) 0) : InGap ('#' :: cs) 0 (1 + gap true cs) i :=
      .inr ⟨0, rfl, le_rfl, Nat.zero_le _, inside, by omega⟩
    cases i with
    | zero => exact own (by omega)
    | succ i =>
      rcases ih.2 i (by omega) with inner | ⟨-, inside⟩
      · exact inner.cons
      · exact own (by omega)
  | case4 c cs _ blank ih =>
    refine ⟨by simp, fun i below => .inl ?_⟩
    cases i with
    | zero => exact .inl ⟨c, rfl, blank⟩
    | succ i =>
      rcases ih.2 i (by omega) with inner | ⟨no, -⟩
      · exact inner.cons
      · cases no
  | case5 => simp

/-- A token comes right behind a gap. -/
theorem gap_drop (b : Bool) (cs : List Char) : gap false (cs.drop (gap b cs)) = 0 := by
  fun_induction gap b cs with
  | case1 => rfl
  | case2 c cs ih => rwa [Nat.add_comm, List.drop_succ_cons]
  | case3 cs ih => rwa [Nat.add_comm, List.drop_succ_cons]
  | case4 c cs _ _ ih => rwa [Nat.add_comm, List.drop_succ_cons]
  | case5 c cs noHash noBlank => simp [gap, noHash, noBlank]

end Gaps

end Token

namespace Scanner
open Token
variable {text : List Char} {s : Scanner} {fuel : Nat}

theorem In.inGap (h : s.In text) {i : Nat} (start : s.pos ≤ i) (before : i < s.skipGap.pos) :
    InGap text s.pos s.skipGap.pos i := by
  have width : s.skipGap.pos = s.pos + gap false s.rest := rfl
  obtain ⟨k, rfl⟩ := Nat.exists_eq_add_of_le start
  rcases (gap_inGap false s.rest).2 k (by omega) with inner | ⟨no, -⟩
  · rw [h.rest] at inner width
    rw [width]
    exact inner.shift
  · cases no

/-- Behind the last token there is nothing but a gap. -/
theorem In.length_le (h : s.In text) (ended : s.next.1.kind = .eof) :
    text.length ≤ s.skipGap.pos := by
  have rest := h.skipGap.rest
  cases found : s.skipGap.rest with
  | nil =>
    rw [found] at rest
    exact List.drop_eq_nil_iff.mp rest.symm
  | cons c cs =>
    have kind : s.next.1.kind = (first s.skipGap.rest).1 := rfl
    rw [kind, found] at ended
    exact absurd ended (first_ne_eof c cs)

/-- The characters of the next token are that token by themselves. -/
theorem In.alone (h : s.In text) (more : s.next.1.kind ≠ .eof) :
    Alone s.next.1.kind (s.next.1.span.cut text) := by
  have rest := h.skipGap.rest
  have ink : gap false s.skipGap.rest = 0 := gap_drop false s.rest
  have nonempty : s.skipGap.rest ≠ [] := by
    intro none
    have kind : s.next.1.kind = (first s.skipGap.rest).1 := rfl
    rw [kind, none] at more
    exact more rfl
  have found := Alone.take nonempty ink
  rw [Span.cut, next_span]
  dsimp only
  rw [← rest, Nat.add_sub_cancel_left]
  exact found

/-- What holds of the next token wherever the scanner stands holds of all tokens. -/
theorem tokens_each {P : Token → Prop} (each : ∀ s : Scanner, s.In text → P s.next.1)
    (h : s.In text) (fuel : Nat) : ∀ t ∈ (s.tokens fuel).1, P t := by
  induction fuel generalizing s with
  | zero => simp [tokens]
  | succ fuel ih =>
    simp only [tokens]
    split
    · simpa using each s h
    · exact List.forall_mem_cons.mpr ⟨each s h, ih (h.skipGap.advance _)⟩

/-- What no token takes lies in a gap that all tokens leave alone. -/
theorem tokens_gaps (h : s.In text) (enough : s.rest.length < fuel) {ts : List Token} {last : Token}
    (split : (s.tokens fuel).1 = ts ++ [last]) {i : Nat} (start : s.pos ≤ i)
    (inside : i < text.length) (free : Free ts i) :
    ∃ lo hi, s.pos ≤ lo ∧ InGap text lo hi i ∧ ∀ k, lo ≤ k → k < hi → Free ts k := by
  induction fuel generalizing s ts last with
  | zero => exact absurd enough (Nat.not_lt_zero _)
  | succ fuel ih =>
    simp only [tokens] at split
    by_cases eof : s.next.1.kind = .eof
    · rw [if_pos eof] at split
      have single : [] ++ [s.next.1] = ts ++ [last] := split
      obtain ⟨rfl, -⟩ := List.append_inj' single rfl
      exact ⟨_, _, le_rfl, h.inGap start (inside.trans_le (h.length_le eof)), by simp [Free]⟩
    · rw [if_neg eof] at split
      have there : s.next.2.In text := h.skipGap.advance _
      have room : s.next.2.rest.length < fuel :=
        (next_shorter eof).trans_le (Nat.lt_succ_iff.mp enough)
      obtain ⟨more, last', split', cut⟩ := tokens_cut there room
      rw [split'] at split
      have first : (s.next.1 :: more) ++ [last'] = ts ++ [last] := split
      obtain ⟨rfl, -⟩ := List.append_inj' first rfl
      have next : s.next.1.span.start = s.skipGap.pos ∧ s.next.1.span.stop = s.next.2.pos :=
        ⟨rfl, rfl⟩
      have order := h.next.order
      by_cases before : i < s.skipGap.pos
      · refine ⟨_, _, le_rfl, h.inGap start before, fun k _ below => ?_⟩
        refine List.forall_mem_cons.mpr ⟨fun holds => ?_, fun t mem holds => ?_⟩
        · have := holds.1
          omega
        · have := holds.1
          have := cut.after t (List.mem_append_left _ mem)
          omega
      · obtain ⟨own, others⟩ := List.forall_mem_cons.mp free
        have behind : s.next.2.pos ≤ i := by
          by_contra inToken
          exact own ⟨by omega, by omega⟩
        obtain ⟨lo, hi, low, gap, clear⟩ := ih there room split' behind others
        refine ⟨lo, hi, by have := s.pos_le_skipGap; omega, gap, fun k above below => ?_⟩
        refine List.forall_mem_cons.mpr ⟨fun holds => ?_, clear k above below⟩
        have := holds.2
        omega

end Scanner

/-- The tokens of a text tile it. -/
theorem tokenize_tiles (source : String) :
    ∃ ts last, tokenize source = ts ++ [last] ∧ Token.Tiles source.toList ts last := by
  obtain ⟨ts, last, split, cut⟩ := tokenize_cut source
  have here : (Scanner.ofString source).In source.toList := .ofString source
  refine ⟨ts, last, split, ⟨cut.ended, cut.more⟩, fun t mem => ?_, ?_, fun i inside free => ?_,
    fun t mem => (cut.places t mem).line, fun t mem => ?_⟩
  · exact ⟨(cut.places t (List.mem_append_left _ mem)).order, cut.inside t mem⟩
  · have apart := (List.pairwise_append.mp cut.apart).1
    refine apart.imp_of_mem fun {t u} mem _ le => ⟨?_, le⟩
    exact (cut.places t (List.mem_append_left _ mem)).order.trans_le le
  · obtain ⟨lo, hi, -, blank | ⟨j, mark, low, le, before, within⟩, clear⟩ :=
      Scanner.tokens_gaps here (Nat.lt_succ_self _) split (Nat.zero_le i) inside free
    · exact .inl blank
    · exact .inr ⟨j, ⟨mark, fun k above below => clear k (by omega) (by omega)⟩, le, before⟩
  · have own : t ∈ tokenize source := split ▸ List.mem_append_left _ mem
    have alone := Scanner.tokens_each
      (P := fun t => t.kind ≠ .eof → Token.Alone t.kind (t.span.cut source.toList))
      (fun _ h => h.alone) here _ t own (cut.more t mem)
    exact Scanner.tokens_joined (fun _ _ => id) (.single alone) .nil String.toList_ofList
      (Nat.lt_succ_self _)

end Guarded
