import Guarded.Proofs.Numerals

/-!
JSON that is written is read back. The proof serves every layout that puts nothing but blanks between
the parts of a value. A value is found again if its numerals have the form of the grammar and its
texts are there; names and texts may hold any characters.
-/

namespace Guarded.Json

section Texts

theorem hexValue_hexDigit : ∀ n < 16, hexValue (Text.hexDigit n) = some n := by
  decide

theorem hexValue4_hexDigits {n : Nat} (small : n < 0x10000) :
    ∃ a b c d, Text.hexDigits 4 n = [a, b, c, d] ∧ hexValue4 a b c d = some n := by
  refine ⟨_, _, _, _, rfl, ?_⟩
  have first := hexValue_hexDigit (n / 16 / 16 / 16 % 16) (by omega)
  have second := hexValue_hexDigit (n / 16 / 16 % 16) (by omega)
  have third := hexValue_hexDigit (n / 16 % 16) (by omega)
  have fourth := hexValue_hexDigit (n % 16) (by omega)
  simp only [hexValue4, first, second, third, fourth, Option.bind_eq_bind, Option.bind_some,
    Option.pure_def, Option.some.injEq]
  omega

/-- What reading one more character does. -/
def addUnit (c : Char) (found : List Nat × List Char) : List Nat × List Char :=
  (c.toNat :: found.1, found.2)

/-- One character is read as its code point. -/
theorem readUnits_escape (c : Char) (cs : List Char) :
    readUnits (escapeChar c ++ cs) = (readUnits cs).map (addUnit c) := by
  have plain (e : Char) (value : unescape e = some c) (other : e ≠ 'u') :
      readUnits ('\\' :: e :: cs) = (readUnits cs).map (addUnit c) := by
    cases found : readUnits cs <;> simp [readUnits, other, value, found, addUnit]
  unfold escapeChar
  split
  · next same => subst same; exact plain _ rfl (by decide)
  split
  · next same => subst same; exact plain _ rfl (by decide)
  split
  · next same => subst same; exact plain _ rfl (by decide)
  split
  · next same => subst same; exact plain _ rfl (by decide)
  split
  · next same => subst same; exact plain _ rfl (by decide)
  split
  · next same => subst same; exact plain _ rfl (by decide)
  split
  · next same => subst same; exact plain _ rfl (by decide)
  split
  · next control =>
    obtain ⟨x, y, z, w, digits, value⟩ := hexValue4_hexDigits (by omega : c.toNat < 0x10000)
    rw [digits]
    cases found : readUnits cs <;> simp [readUnits, value, found, addUnit]
  · next notQuote notSlash _ _ _ _ _ notControl =>
    cases found : readUnits cs <;> simp [readUnits, notSlash, notControl, found, addUnit]

theorem readUnits_text (cs rest : List Char) :
    readUnits (cs.flatMap escapeChar ++ '"' :: rest) = some (cs.map Char.toNat, rest) := by
  induction cs with
  | nil => rfl
  | cons c cs ih =>
    rw [List.flatMap_cons, List.append_assoc, readUnits_escape, ih]
    rfl

/-- No character is half of a pair. -/
theorem joinHalves_text (cs : List Char) : joinHalves (cs.map Char.toNat) = some cs := by
  induction cs with
  | nil => rfl
  | cons c cs ih =>
    have valid : c.toNat < 0xd800 ∨ 0xdfff < c.toNat ∧ c.toNat < 0x110000 := c.valid
    have notHigh : isHighHalf c.toNat = false := by
      simp only [isHighHalf, Bool.and_eq_false_iff, decide_eq_false_iff_not]
      omega
    have notLow : isLowHalf c.toNat = false := by
      simp only [isLowHalf, Bool.and_eq_false_iff, decide_eq_false_iff_not]
      omega
    unfold joinHalves
    simp [notHigh, notLow, ih, Char.ofNat_toNat]

/-- A text is read as it was, whatever follows its quote. -/
theorem readText_append (s : String) (rest : List Char) :
    ∃ body, writeText s = '"' :: body ∧ readText (body ++ rest) = some (some s, rest) := by
  refine ⟨s.toList.flatMap escapeChar ++ ['"'], rfl, ?_⟩
  rw [readText, List.append_assoc, List.singleton_append, readUnits_text]
  simp [joinHalves_text]

end Texts

/-- A layout that puts nothing but blanks between the parts of a value. -/
structure Spacing.Blank (sp : Spacing) : Prop where
  line : ∀ depth, ∀ c ∈ sp.line depth, isBlank c = true
  colon : ∃ after, sp.colon = ':' :: after ∧ ∀ c ∈ after, isBlank c = true

theorem indented_blank : indented.Blank where
  line depth c mem := by
    rcases List.mem_cons.mp mem with rfl | blank
    · rfl
    · rw [List.eq_of_mem_replicate blank]
      rfl
  colon := ⟨[' '], rfl, by simp [isBlank]⟩

theorem skipBlanks_append {blanks : List Char} (blank : ∀ c ∈ blanks, isBlank c = true)
    (cs : List Char) : skipBlanks (blanks ++ cs) = skipBlanks cs :=
  List.dropWhile_append_of_pos blank

theorem skipBlanks_cons {c : Char} (ink : isBlank c = false) (cs : List Char) :
    skipBlanks (c :: cs) = c :: cs := by
  simp [skipBlanks, ink]

mutual

/-- A value whose numerals and texts can be written. -/
def Sound : Json → Prop
  | .null | .bool _ => True
  | .number literal => Numeral literal
  | .string text => text.isSome = true
  | .array items => SoundItems items
  | .object members => SoundMembers members

def SoundItems : List Json → Prop
  | [] => True
  | item :: items => item.Sound ∧ SoundItems items

def SoundMembers : List (Option String × Json) → Prop
  | [] => True
  | (key, value) :: members => key.isSome = true ∧ value.Sound ∧ SoundMembers members

end

section Values

variable {sp : Spacing} {depth fuel : Nat} {cs rest : List Char}

theorem Numeral.head {literal : List Char} (h : Numeral literal) :
    ∃ c tail, literal = c :: tail ∧ (c = '-' ∨ c.isDigit = true) := by
  obtain ⟨sign, whole, fraction, exponent, rfl, signed, isWhole, -⟩ := h
  rcases signed with rfl | rfl
  · obtain ⟨nonempty, all⟩ := isWhole.digits
    cases whole with
    | nil => exact absurd rfl nonempty
    | cons d ds => exact ⟨d, _, rfl, .inr (all d (by simp))⟩
  · exact ⟨'-', _, rfl, .inl rfl⟩

theorem ink_of_digit {c : Char} (first : c = '-' ∨ c.isDigit = true) :
    isBlank c = false ∧ c ≠ ']' := by
  rcases first with rfl | digit
  · decide
  · constructor
    · by_contra blank
      simp only [isBlank, Bool.not_eq_false, Bool.or_eq_true, decide_eq_true_eq] at blank
      rcases blank with ((rfl | rfl) | rfl) | rfl <;> cases digit
    · rintro rfl
      cases digit

/-- A value starts with a character that is not blank and closes nothing. -/
theorem write_head (sp : Spacing) (depth : Nat) {j : Json} (sound : j.Sound) :
    ∃ c tail, write sp depth j = c :: tail ∧ isBlank c = false ∧ c ≠ ']' := by
  cases j with
  | null => exact ⟨_, _, rfl, by decide⟩
  | bool value => cases value <;> exact ⟨_, _, rfl, by decide⟩
  | number literal =>
    obtain ⟨c, tail, rfl, first⟩ := sound.head
    exact ⟨c, tail, rfl, ink_of_digit first⟩
  | string text => cases text <;> exact ⟨_, _, rfl, by decide⟩
  | array items => cases items <;> exact ⟨_, _, rfl, by decide⟩
  | object members => rcases members with _ | ⟨⟨key, value⟩, members⟩ <;> exact ⟨_, _, rfl, by decide⟩

theorem skipBlanks_write (sp : Spacing) (depth : Nat) {j : Json} (sound : j.Sound)
    (rest : List Char) :
    skipBlanks (write sp depth j ++ rest) = write sp depth j ++ rest := by
  obtain ⟨c, tail, text, ink, -⟩ := write_head sp depth sound
  rw [text, List.cons_append, skipBlanks_cons ink]

theorem stops_of_blanks {blanks : List Char} (blank : ∀ c ∈ blanks, isBlank c = true) {close : Char}
    (closes : close = ']' ∨ close = '\x7d') : Stops (blanks ++ close :: rest) := by
  intro c first
  cases blanks with
  | nil =>
    obtain rfl : close = c := by simpa using first
    rcases closes with rfl | rfl <;> decide
  | cons b bs =>
    obtain rfl : b = c := by simpa using first
    have isBlank := blank b (by simp)
    simp only [Json.isBlank, Bool.or_eq_true, decide_eq_true_eq] at isBlank
    rcases isBlank with ((rfl | rfl) | rfl) | rfl <;> decide

/-- The value is read wherever it is written. -/
def Found (sp : Spacing) (j : Json) : Prop :=
  ∀ {depth fuel : Nat} {cs rest : List Char}, Stops rest →
    2 * (write sp depth j).length ≤ fuel → skipBlanks cs = write sp depth j ++ rest →
    readValue fuel cs = some (j, rest)

theorem found_null : Found sp .null := by
  intro depth fuel cs rest stops room text
  simp only [write, List.length_cons] at room
  obtain ⟨fuel, rfl⟩ := Nat.exists_eq_succ_of_ne_zero (by omega : fuel ≠ 0)
  rw [Nat.succ_eq_add_one, readValue, text]
  rfl

theorem found_bool (b : Bool) : Found sp (.bool b) := by
  intro depth fuel cs rest stops room text
  cases b <;>
    simp only [write, List.length_cons] at room <;>
    obtain ⟨fuel, rfl⟩ := Nat.exists_eq_succ_of_ne_zero (by omega : fuel ≠ 0) <;>
    rw [Nat.succ_eq_add_one, readValue, text] <;>
    rfl

theorem found_number {literal : List Char} (numeral : Numeral literal) :
    Found sp (.number literal) := by
  intro depth fuel cs rest stops room text
  obtain ⟨c, tail, rfl, first⟩ := numeral.head
  simp only [write, List.length_cons] at room
  obtain ⟨fuel, rfl⟩ := Nat.exists_eq_succ_of_ne_zero (by omega : fuel ≠ 0)
  have number := readNumber_append numeral stops
  rw [write, List.cons_append] at text
  rw [List.cons_append] at number
  rw [Nat.succ_eq_add_one, readValue, text]
  split
  case h_7 => rw [number, Option.map_some]
  all_goals
    next same =>
    rw [(List.cons.inj same).1] at first
    exact absurd first (by decide)

theorem found_string (s : String) : Found sp (.string (some s)) := by
  intro depth fuel cs rest stops room text
  obtain ⟨body, written, read⟩ := readText_append s rest
  rw [write, written] at text room
  rw [List.length_cons] at room
  obtain ⟨fuel, rfl⟩ := Nat.exists_eq_succ_of_ne_zero (by omega : fuel ≠ 0)
  rw [Nat.succ_eq_add_one, readValue, text]
  change (readText (body ++ rest)).map _ = _
  rw [read, Option.map_some]

/-- Items with their closing bracket. -/
def writeList (sp : Spacing) (depth : Nat) (item : Json) (items : List Json) : List Char :=
  write sp (depth + 1) item ++ (writeItems sp (depth + 1) items ++ (sp.line depth ++ [']']))

theorem writeList_cons (item next : Json) (items : List Json) :
    writeList sp depth item (next :: items) =
      write sp (depth + 1) item ++ ',' :: (sp.line (depth + 1) ++ writeList sp depth next items) := by
  simp [writeList, writeItems]

/-- Items are read up to the closing bracket. -/
theorem readItems_append (blank : sp.Blank) {items : List Json} {item : Json}
    (each : ∀ j ∈ item :: items, j.Sound ∧ Found sp j)
    (room : 2 * (writeList sp depth item items).length ≤ fuel)
    (text : skipBlanks cs = writeList sp depth item items ++ rest) :
    readItems fuel cs = some (item :: items, rest) := by
  induction items generalizing item fuel cs with
  | nil =>
    obtain ⟨-, found⟩ := each item (by simp)
    simp only [writeList, writeItems, List.nil_append, List.cons_append, List.append_assoc] at text
    simp only [writeList, List.length_append, List.length_cons] at room
    obtain ⟨fuel, rfl⟩ := Nat.exists_eq_succ_of_ne_zero (by omega : fuel ≠ 0)
    have within : 2 * (write sp (depth + 1) item).length ≤ fuel := by omega
    have first := found (stops_of_blanks (blank.line depth) (.inl rfl)) within text
    rw [Nat.succ_eq_add_one, readItems, first]
    simp only [skipBlanks_append (blank.line depth), skipBlanks_cons (c := ']') rfl]
  | cons next items ih =>
    obtain ⟨⟨-, found⟩, others⟩ := List.forall_mem_cons.mp each
    have nextSound : next.Sound := (others next (by simp)).1
    rw [writeList_cons, List.append_assoc] at text
    simp only [writeList_cons, List.length_append, List.length_cons] at room
    obtain ⟨fuel, rfl⟩ := Nat.exists_eq_succ_of_ne_zero (by omega : fuel ≠ 0)
    have within : 2 * (write sp (depth + 1) item).length ≤ fuel := by omega
    have stops : Stops (',' :: (sp.line (depth + 1) ++ writeList sp depth next items) ++ rest) := by
      rintro c ⟨⟩
      decide
    have first := found stops within text
    have more : readItems fuel (sp.line (depth + 1) ++ writeList sp depth next items ++ rest) =
        some (next :: items, rest) := by
      refine ih others (by omega) ?_
      rw [List.append_assoc, skipBlanks_append (blank.line _), writeList, List.append_assoc,
        skipBlanks_write sp _ nextSound]
    rw [Nat.succ_eq_add_one, readItems, first]
    simp only [List.cons_append, skipBlanks_cons (c := ',') rfl, more, Option.map_some]

/-- Members with their closing brace. -/
def writeFields (sp : Spacing) (depth : Nat) (key : String) (value : Json)
    (members : List (Option String × Json)) : List Char :=
  writeText key ++ (sp.colon ++ (write sp (depth + 1) value ++
    (writeMembers sp (depth + 1) members ++ (sp.line depth ++ ['\x7d']))))

theorem writeFields_cons (key next : String) (value nextValue : Json)
    (members : List (Option String × Json)) :
    writeFields sp depth key value ((some next, nextValue) :: members) =
      writeText key ++ (sp.colon ++ (write sp (depth + 1) value ++
        ',' :: (sp.line (depth + 1) ++ writeFields sp depth next nextValue members))) := by
  simp [writeFields, writeMembers]

/-- The name of a member, its colon and the value, then either the closing brace or more members. -/
theorem readMembers_first (blank : sp.Blank) {key : String} {value : Json} (sound : value.Sound)
    (found : Found sp value) (stops : Stops rest)
    (room : 2 * (write sp depth value).length ≤ fuel)
    (text : skipBlanks cs = writeText key ++ (sp.colon ++ (write sp depth value ++ rest)))
    {members : List (Option String × Json)} {last : List Char}
    (after : skipBlanks rest = '\x7d' :: last ∧ members = [] ∨
      ∃ more, skipBlanks rest = ',' :: more ∧ readMembers fuel more = some (members, last)) :
    readMembers (fuel + 1) cs = some ((some key, value) :: members, last) := by
  obtain ⟨colonBlanks, colon, colonBlank⟩ := blank.colon
  obtain ⟨body, written, read⟩ := readText_append key (sp.colon ++ (write sp depth value ++ rest))
  have valueText : skipBlanks (colonBlanks ++ (write sp depth value ++ rest)) =
      write sp depth value ++ rest := by
    rw [skipBlanks_append colonBlank, skipBlanks_write sp depth sound]
  rw [written, colon] at text
  rw [colon] at read
  simp only [List.cons_append] at text read
  rw [readMembers, text]
  simp only [read, skipBlanks_cons (c := ':') rfl, found stops room valueText]
  rcases after with ⟨closes, rfl⟩ | ⟨more, comma, others⟩
  · simp only [closes]
  · simp only [comma, others, Option.map_some]

/-- Members are read up to the closing brace. -/
theorem readMembers_append (blank : sp.Blank) {members : List (Option String × Json)} {key : String}
    {value : Json} (sound : value.Sound) (found : Found sp value)
    (each : ∀ m ∈ members, m.1.isSome = true ∧ m.2.Sound ∧ Found sp m.2)
    (room : 2 * (writeFields sp depth key value members).length ≤ fuel)
    (text : skipBlanks cs = writeFields sp depth key value members ++ rest) :
    readMembers fuel cs = some ((some key, value) :: members, rest) := by
  induction members generalizing key value fuel cs with
  | nil =>
    simp only [writeFields, writeMembers, List.nil_append, List.cons_append, List.append_assoc]
      at text
    simp only [writeFields, List.length_append, List.length_cons] at room
    obtain ⟨fuel, rfl⟩ := Nat.exists_eq_succ_of_ne_zero (by omega : fuel ≠ 0)
    have stops : Stops (sp.line depth ++ '\x7d' :: rest) :=
      stops_of_blanks (blank.line depth) (.inr rfl)
    refine readMembers_first blank sound found stops (by omega) text (.inl ⟨?_, rfl⟩)
    rw [skipBlanks_append (blank.line depth), skipBlanks_cons (c := '\x7d') rfl]
  | cons next members ih =>
    obtain ⟨nextKey, nextValue⟩ := next
    obtain ⟨⟨present, nextSound, nextFound⟩, others⟩ := List.forall_mem_cons.mp each
    obtain ⟨nextKey, rfl⟩ := Option.isSome_iff_exists.mp present
    simp only [writeFields_cons, List.append_assoc] at text
    simp only [writeFields_cons, List.length_append, List.length_cons] at room
    obtain ⟨fuel, rfl⟩ := Nat.exists_eq_succ_of_ne_zero (by omega : fuel ≠ 0)
    have stops : Stops (',' ::
        (sp.line (depth + 1) ++ writeFields sp depth nextKey nextValue members) ++ rest) := by
      rintro c ⟨⟩
      decide
    have more : readMembers fuel
        (sp.line (depth + 1) ++ writeFields sp depth nextKey nextValue members ++ rest) =
          some ((some nextKey, nextValue) :: members, rest) := by
      refine ih nextSound nextFound others (by omega) ?_
      rw [List.append_assoc, skipBlanks_append (blank.line _)]
      exact skipBlanks_cons rfl _
    refine readMembers_first blank sound found stops (by omega) text (.inr ⟨_, ?_, more⟩)
    rw [List.cons_append, skipBlanks_cons (c := ',') rfl]

theorem found_array (blank : sp.Blank) {items : List Json}
    (each : ∀ j ∈ items, j.Sound ∧ Found sp j) : Found sp (.array items) := by
  intro depth fuel cs rest stops room text
  cases items with
  | nil =>
    simp only [write, List.length_cons] at room
    obtain ⟨fuel, rfl⟩ := Nat.exists_eq_succ_of_ne_zero (by omega : fuel ≠ 0)
    rw [Nat.succ_eq_add_one, readValue, text]
    rfl
  | cons item items =>
    have written : write sp depth (.array (item :: items)) =
        '[' :: (sp.line (depth + 1) ++ writeList sp depth item items) := by
      simp [write, writeList]
    rw [written, List.length_cons, List.length_append] at room
    rw [written, List.cons_append] at text
    obtain ⟨fuel, rfl⟩ := Nat.exists_eq_succ_of_ne_zero (by omega : fuel ≠ 0)
    obtain ⟨c, tail, head, ink, opens⟩ := write_head sp (depth + 1) (each item (by simp)).1
    have first : writeList sp depth item items ++ rest = c :: (tail ++
        (writeItems sp (depth + 1) items ++ (sp.line depth ++ [']'])) ++ rest) := by
      rw [writeList, head]
      simp
    have inner : skipBlanks (writeList sp depth item items ++ rest) =
        writeList sp depth item items ++ rest := by
      rw [first, skipBlanks_cons ink]
    have within : 2 * (writeList sp depth item items).length ≤ fuel := by omega
    rw [Nat.succ_eq_add_one, readValue, text]
    simp only [List.append_assoc, skipBlanks_append (blank.line _), inner]
    split
    · next same =>
      rw [first] at same
      exact absurd (List.cons.inj same).1 opens
    · rw [readItems_append blank each within inner, Option.map_some]

theorem found_object (blank : sp.Blank) {members : List (Option String × Json)}
    (each : ∀ m ∈ members, m.1.isSome = true ∧ m.2.Sound ∧ Found sp m.2) :
    Found sp (.object members) := by
  intro depth fuel cs rest stops room text
  cases members with
  | nil =>
    simp only [write, List.length_cons] at room
    obtain ⟨fuel, rfl⟩ := Nat.exists_eq_succ_of_ne_zero (by omega : fuel ≠ 0)
    rw [Nat.succ_eq_add_one, readValue, text]
    rfl
  | cons member members =>
    obtain ⟨key, value⟩ := member
    obtain ⟨⟨present, sound, found⟩, others⟩ := List.forall_mem_cons.mp each
    obtain ⟨key, rfl⟩ := Option.isSome_iff_exists.mp present
    have written : write sp depth (.object ((some key, value) :: members)) =
        '\x7b' :: (sp.line (depth + 1) ++ writeFields sp depth key value members) := by
      simp [write, writeFields]
    rw [written, List.length_cons, List.length_append] at room
    rw [written, List.cons_append] at text
    obtain ⟨fuel, rfl⟩ := Nat.exists_eq_succ_of_ne_zero (by omega : fuel ≠ 0)
    have inner : skipBlanks (writeFields sp depth key value members ++ rest) =
        writeFields sp depth key value members ++ rest := skipBlanks_cons rfl _
    have within : 2 * (writeFields sp depth key value members).length ≤ fuel := by omega
    rw [Nat.succ_eq_add_one, readValue, text]
    simp only [List.append_assoc, skipBlanks_append (blank.line _), inner]
    split
    · next same => cases same
    · rw [readMembers_append blank sound found others within inner, Option.map_some]

mutual

theorem found (blank : sp.Blank) : (j : Json) → j.Sound → Found sp j
  | .null, _ => found_null
  | .bool b, _ => found_bool b
  | .number _, numeral => found_number numeral
  | .string (some s), _ => found_string s
  | .array items, sound => found_array blank (foundItems blank items sound)
  | .object members, sound => found_object blank (foundMembers blank members sound)

theorem foundItems (blank : sp.Blank) : (items : List Json) → SoundItems items →
    ∀ j ∈ items, j.Sound ∧ Found sp j
  | [], _ => by simp
  | item :: items, sound =>
    List.forall_mem_cons.mpr ⟨⟨sound.1, found blank item sound.1⟩, foundItems blank items sound.2⟩

theorem foundMembers (blank : sp.Blank) : (members : List (Option String × Json)) →
    SoundMembers members → ∀ m ∈ members, m.1.isSome = true ∧ m.2.Sound ∧ Found sp m.2
  | [], _ => by simp
  | (_, value) :: members, sound =>
    List.forall_mem_cons.mpr ⟨⟨sound.1, sound.2.1, found blank value sound.2.1⟩,
      foundMembers blank members sound.2.2⟩

end

/-- Reading gives back what was written. -/
theorem read_render (blank : sp.Blank) {j : Json} (sound : j.Sound) :
    read (j.render sp) = some j := by
  have text : skipBlanks (write sp 0 j) = write sp 0 j ++ [] := by
    rw [← skipBlanks_write sp 0 sound, List.append_nil]
  have room : 2 * (write sp 0 j).length ≤ 2 * (write sp 0 j).length + 2 := Nat.le_add_right _ _
  have value := found blank j sound (fun c first => by cases first) room text
  rw [read, render]
  simp only [String.toList_ofList, value]
  rfl

end Values

end Guarded.Json
