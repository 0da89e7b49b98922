import Guarded.Proofs.Positions
import Guarded.Proofs.Spelling

/-!
What the reader of programs hands on to the passes after it. Nodes are numbered in the order in which
they are finished, without gaps, so the tables over node numbers never mix two nodes. Written types
are types of values, and no name of a method has a `$` in it, which leaves that character to the code
generator.
-/

namespace Guarded

namespace Token

theorem keyword_named {word : String} {k : Kind} (h : Kind.keyword? word = some k) : k.Named := by
  unfold Kind.keyword? at h
  split at h <;> first | (obtain rfl := Option.some.inj h; trivial) | cases h

theorem word_named {c : Char} {cs : List Char} (start : isNameStart c = true) :
    (word (c :: cs)).1.Named := by
  unfold word
  cases h : Kind.keyword? (String.ofList ((c :: cs).takeWhile isNamePart)) with
  | some k => simpa only [h, Option.getD_some] using keyword_named h
  | none =>
    simp only [h, Option.getD_none, Kind.Named, String.toList_ofList]
    exact ⟨by simp [isNamePart_of_isNameStart start], fun d mem => List.mem_takeWhile_imp mem⟩

theorem first_named (cs : List Char) : (first cs).1.Named := by
  cases cs with
  | nil => trivial
  | cons c cs =>
    simp only [first]
    split
    · exact word_named ‹_›
    · split
      · unfold number
        split
        · dsimp only
          split <;> trivial
        · trivial
      · unfold symbol
        split <;> trivial

end Token

/-- What holds of the token at the start of any text holds of all tokens. -/
theorem Scanner.tokens_kinds {P : Token.Kind → Prop} (each : ∀ cs, P (Token.first cs).1) (fuel : Nat)
    (s : Scanner) : ∀ t ∈ (s.tokens fuel).1, P t.kind := by
  induction fuel generalizing s with
  | zero => simp [Scanner.tokens]
  | succ fuel ih =>
    have head : P s.next.1.kind := each s.skipGap.rest
    simp only [Scanner.tokens]
    split
    · simpa using head
    · intro t mem
      rcases List.mem_cons.mp mem with rfl | mem
      · exact head
      · exact ih _ t mem

/-- What reading a text tells about the program. -/
theorem parse_reads {source : String} {p : Program} (h : parse source = .ok p) :
    (∃ d, (Cursor.ofTokens (tokenize source)).Takes d ⟨p.spell, p.ids⟩) ∧
      Parse.AllSound p.exprs ∧ (Token.Kind.ident p.name.name).Named ∧ Stmt.ProperAll p.body := by
  have fit : (Cursor.ofTokens (tokenize source)).Fit True :=
    ⟨Cursor.ofTokens_closed _, fun _ t mem =>
      Scanner.tokens_kinds Token.first_named _ _ t (Cursor.ofTokens_ahead _ mem)⟩
  obtain ⟨d, read⟩ := Cursor.program_of_parse h
  obtain ⟨_, takes, rfl, -, sound, proper⟩ := Parse.program_reads _ fit p d read
  exact ⟨⟨d, takes⟩, sound, proper trivial⟩

/-- What the passes after reading rely on. -/
structure Program.WellFormed (p : Program) : Prop where
  distinct : p.ids.Nodup
  proper : Stmt.ProperAll p.body

theorem parse_wellFormed {source : String} {p : Program} (h : parse source = .ok p) :
    p.WellFormed := by
  obtain ⟨⟨d, takes⟩, -, -, proper⟩ := parse_reads h
  have numbers : p.ids = List.range' _ p.ids.length := takes.numbers
  refine ⟨?_, proper⟩
  rw [numbers]
  exact List.nodup_range'

end Guarded
