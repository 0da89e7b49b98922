import Guarded.Proofs.FloatText
import Mathlib.Data.List.SplitBy

/-!
Dialogues on the console: requests answered one after another, whether or not they succeed. Each
request for a value takes the next line of the input, also after one that failed, and what it gives
depends on no more than the text of that line. The others take nothing.

What is printed for a value can be typed in again: the line is read as that value.
-/

namespace Guarded.Console

section Lines

/-- The lines of an input, each with its newline. The last one may have none. -/
def lines (input : List UInt8) : List (List UInt8) :=
  input.splitBy fun b _ => b != newline

/-- The text of a line without the blanks around it, if the line is valid UTF-8. -/
def lineText (line : List UInt8) : Option (List Char) :=
  (decodeLine line).map trim

/-- The first line has no newline before its end, and has one there if more follows. -/
theorem splitLine_spec {input : List UInt8} (nonempty : input ≠ []) :
    (splitLine input).1 ≠ [] ∧ (splitLine input).1 ++ (splitLine input).2 = input ∧
      (splitLine input).1.IsChain (fun b _ => (b != newline) = true) ∧
      ((splitLine input).2 ≠ [] → (splitLine input).1.getLast? = some newline) := by
  induction input with
  | nil => exact absurd rfl nonempty
  | cons b bs ih =>
    unfold splitLine
    by_cases ends : b = newline
    · simp [ends]
    · rw [if_neg ends]
      cases bs with
      | nil => simp [splitLine]
      | cons b' bs =>
        obtain ⟨some, whole, inner, last⟩ := ih (by simp)
        refine ⟨by simp, by simpa using whole, ?_, fun more => ?_⟩
        · exact List.isChain_cons.mpr ⟨fun _ _ => by simpa using ends, inner⟩
        · exact (List.getLast?_cons_of_ne_nil some).trans (last more)

theorem lines_eq_cons {input : List UInt8} (nonempty : input ≠ []) :
    lines input = (splitLine input).1 :: lines (splitLine input).2 := by
  obtain ⟨some, whole, inner, last⟩ := splitLine_spec nonempty
  have apart : ∀ x ∈ (splitLine input).1.getLast?, ∀ y ∈ (splitLine input).2.head?,
      (x != newline) = false := by
    intro x isLast y more
    have ends := last (by rintro none; simp [none] at more)
    rw [ends] at isLast
    obtain rfl := Option.some.inj isLast
    exact bne_self_eq_false newline
  conv_lhs => rw [← whole]
  rw [lines, List.splitBy_append apart, List.splitBy_of_isChain some inner]
  rfl

theorem lines_flatten (input : List UInt8) : (lines input).flatten = input :=
  List.flatten_splitBy _ _

/-- What is left after some lines has the lines that are left. -/
theorem lines_drop (input : List UInt8) (n : Nat) :
    lines ((lines input).drop n).flatten = (lines input).drop n := by
  apply List.splitBy_flatten
  · exact fun mem => List.nil_notMem_splitBy _ _ (List.mem_of_mem_drop mem)
  · exact fun line mem => List.isChain_of_mem_splitBy (List.mem_of_mem_drop mem)
  · exact (List.isChain_getLast_head_splitBy (fun b _ => b != newline) input).drop n

end Lines

section Requests

/-- What came of a request, and the console after it. -/
def settle {α : Type} : EStateM.Result Error Console α → Except Error α × Console
  | .ok v c => (.ok v, c)
  | .error e c => (.error e, c)

theorem eq_ok_of_settle {α : Type} {result : EStateM.Result Error Console α} {v : α} {c : Console}
    (h : settle result = (.ok v, c)) : result = .ok v c := by
  cases result with
  | ok v' c' =>
    cases h
    rfl
  | error e c' => cases h

def perform (r : Request) (c : Console) : Except Error r.Reply × Console :=
  settle (answer r c)

/-- Requests made one after another, each with what came of it, and the console at the end. -/
def performAll : List Request → Console → List ((r : Request) × Except Error r.Reply) × Console
  | [], c => ([], c)
  | r :: rs, c =>
    (⟨r, (perform r c).1⟩ :: (performAll rs (perform r c).2).1, (performAll rs (perform r c).2).2)

/-- How many of the requests ask for a value. -/
def inputs (rs : List Request) : Nat :=
  rs.countP fun r => r.inputName?.isSome

theorem inputs_cons (r : Request) (rs : List Request) :
    inputs (r :: rs) = inputs [r] + inputs rs := by
  rw [← List.singleton_append, inputs, List.countP_append]
  rfl

/-- What a request for a value gives where it finds a line with this text, a line that is no text,
or no line. -/
def reading {α : Type} (parse : List Char → Option α) (name : String) :
    Option (Option (List Char)) → Except Error α
  | some (some text) => parseWith parse name text
  | some none => .error (.io "stream did not contain valid UTF-8")
  | none => .error (.badInput name "end of input")

/-- What comes of a request where `line` is next. -/
def reply (line : Option (Option (List Char))) : (r : Request) → Except Error r.Reply
  | .printInt _ | .printFloat _ | .printBoolean _ => .ok ()
  | .inputInt name => reading Number.readInt32 name line
  | .inputFloat name => reading Number.readSingle name line
  | .inputBoolean name => reading parseBool name line
  | .abortNoAlternative line => .error (.noAlternative line)
  | .abortNoFunctionReturn line => .error (.noFunctionReturn line)

/-- What a request writes. -/
def written : Request → String
  | .printInt v => formatInt v ++ "\n"
  | .printFloat v => formatFloat v ++ "\n"
  | .printBoolean b => formatBool b ++ "\n"
  | .inputInt name | .inputFloat name | .inputBoolean name => name ++ "? "
  | .abortNoAlternative _ | .abortNoFunctionReturn _ => ""

variable {α : Type} (parse : List Char → Option α) (name : String) (c : Console)

theorem settle_ask : settle (ask parse name c) =
    ((readText name (splitLine c.input).1).bind (parseWith parse name),
      ⟨(splitLine c.input).2, c.output ++ prompt name⟩) := by
  have wrote : write (prompt name) c = .ok () ⟨c.input, c.output ++ prompt name⟩ := rfl
  have took : takeLine ⟨c.input, c.output ++ prompt name⟩ =
      .ok (splitLine c.input).1 ⟨(splitLine c.input).2, c.output ++ prompt name⟩ := rfl
  cases found : (readText name (splitLine c.input).1).bind (parseWith parse name) with
  | ok v =>
    simp only [ask, bind, EStateM.bind, wrote, took, found]
    rfl
  | error e =>
    simp only [ask, bind, EStateM.bind, wrote, took, found]
    rfl

/-- A line is read by its text. -/
theorem readText_bind {line : List UInt8} (nonempty : line ≠ []) :
    (readText name line).bind (parseWith parse name) =
      reading parse name (some (lineText line)) := by
  unfold readText lineText
  rw [if_neg (by simpa using nonempty)]
  cases decodeLine line <;> rfl

/-- A request for a value takes the first line that is left. -/
theorem settle_ask_lines : settle (ask parse name c) =
    (reading parse name ((lines c.input).head?.map lineText),
      ⟨((lines c.input).drop 1).flatten, c.output ++ prompt name⟩) := by
  rw [settle_ask]
  by_cases empty : c.input = []
  · rw [empty]
    rfl
  · rw [lines_eq_cons empty, readText_bind parse name (splitLine_spec empty).1, List.drop_one,
      List.tail_cons, lines_flatten]
    rfl

/-- One request: what comes of it, what is left of the input, and what is written. -/
theorem perform_eq (r : Request) : perform r c =
    (reply ((lines c.input).head?.map lineText) r,
      ⟨((lines c.input).drop (inputs [r])).flatten, c.output ++ written r⟩) := by
  have kept : ((lines c.input).drop 0).flatten = c.input := lines_flatten _
  cases r with
  | printInt v | printFloat v | printBoolean b =>
    exact congrArg (fun input => (_, Console.mk input _)) kept.symm
  | inputInt name | inputFloat name | inputBoolean name => exact settle_ask_lines _ name c
  | abortNoAlternative line | abortNoFunctionReturn line =>
    exact congrArg₂ (fun input output => (_, Console.mk input output)) kept.symm
      String.append_empty.symm

/-- What a whole dialogue gives and leaves. -/
theorem performAll_eq (rs : List Request) : performAll rs c =
    (rs.mapIdx fun i r => ⟨r, reply ((lines c.input)[inputs (rs.take i)]?.map lineText) r⟩,
      ⟨((lines c.input).drop (inputs rs)).flatten, c.output ++ String.join (rs.map written)⟩) := by
  induction rs generalizing c with
  | nil =>
    have kept : ((lines c.input).drop 0).flatten = c.input := lines_flatten _
    exact congrArg₂ (fun input output => ([], Console.mk input output)) kept.symm
      String.append_empty.symm
  | cons r rs ih =>
    have first : inputs ((r :: rs).take 0) = 0 := rfl
    rw [performAll, perform_eq, ih, lines_drop, List.mapIdx_cons, first, List.head?_eq_getElem?]
    simp only [List.getElem?_drop, List.drop_drop, ← inputs_cons, List.take_succ_cons,
      List.map_cons, String.join_cons, String.append_assoc]

theorem reply_none {r : Request} {name : String} (asks : r.inputName? = some name) :
    reply none r = .error (.badInput name "end of input") := by
  cases r with
  | inputInt | inputFloat | inputBoolean =>
    cases asks
    rfl
  | _ => cases asks

end Requests

/-- A dialogue takes the input line by line. A request for a value finds the line whose number is
how many values were asked for before it, whatever came of the others, and what it gives is a matter
of the text of that line. Where there are not that many lines it fails. The lines that were not
asked for are left, and the output is what each request writes, in order. -/
theorem dialogue_by_lines (input : List UInt8) (rs : List Request) :
    (performAll rs ⟨input, ""⟩).1 =
      (rs.mapIdx fun i r => ⟨r, reply ((lines input)[inputs (rs.take i)]?.map lineText) r⟩) ∧
    (∀ i r name, rs[i]? = some r → r.inputName? = some name →
      (lines input).length ≤ inputs (rs.take i) →
        (performAll rs ⟨input, ""⟩).1[i]? = some ⟨r, .error (.badInput name "end of input")⟩) ∧
    (performAll rs ⟨input, ""⟩).2 =
      ⟨((lines input).drop (inputs rs)).flatten, String.join (rs.map written)⟩ := by
  rw [performAll_eq]
  refine ⟨rfl, fun i r name request asks ended => ?_, ?_⟩
  · rw [List.getElem?_mapIdx, request, List.getElem?_eq_none ended, Option.map_none,
      Option.map_some, reply_none asks]
  · rw [String.empty_append]

/-- A dialogue of six requests on three lines: one that is no integer, one that is no text and one
without a newline. -/
def talk : List Request :=
  [.inputInt "a", .printInt 7, .inputBoolean "b", .abortNoAlternative 3, .inputFloat "c",
    .inputInt "d"]

def talkInput : List UInt8 :=
  [0x78, 0x0a, 0xff, 0x0a, 0x32, 0x2e, 0x35]

theorem dialogue_by_lines_talk :
    (performAll talk ⟨talkInput, ""⟩).1[4]? =
      some ⟨.inputFloat "c", .ok (Float32.ofBits 0x40200000)⟩ ∧
    (performAll talk ⟨talkInput, ""⟩).1[5]? =
      some ⟨.inputInt "d", .error (.badInput "d" "end of input")⟩ ∧
    (performAll talk ⟨talkInput, ""⟩).2 = ⟨[], "a? 7\nb? c? d? "⟩ := by
  obtain ⟨outcomes, ended, console⟩ := dialogue_by_lines talkInput talk
  have text : (lines talkInput)[inputs (talk.take 4)]?.map lineText =
      some (some ['2', '.', '5']) := by
    decide +kernel
  have value : Number.readSingle ['2', '.', '5'] = some (Float32.ofBits 0x40200000) := by
    decide +kernel
  refine ⟨?_, ended 5 _ "d" rfl rfl (by decide), console.trans ?_⟩
  · rw [outcomes, List.getElem?_mapIdx, text]
    simp only [talk, reply, reading, parseWith, value, List.getElem?_cons_succ,
      List.getElem?_cons_zero, Option.map_some]
  · decide +kernel

section Printed

/-- The bytes of a text. -/
def bytes (s : String) : List UInt8 :=
  s.toUTF8.data.toList

theorem bytes_eq (s : String) : bytes s = s.toList.flatMap String.utf8EncodeChar := by
  rw [bytes, String.toUTF8, ← String.utf8Encode_toList, List.utf8Encode,
    List.toList_data_toByteArray]

theorem decodeLine_bytes (s : String) : decodeLine (bytes s) = some s.toList := by
  have valid : String.fromUTF8? s.toUTF8 = some s := dif_pos s.isValidUTF8
  exact congrArg (Option.map String.toList) valid

/-- A character that shows, and takes one byte. -/
def isInk (c : Char) : Bool :=
  0x20 < c.toNat && c.toNat < 0x7f

theorem isBlank_of_isInk {c : Char} (ink : isInk c = true) : Text.isBlank c = false := by
  simp only [isInk, Bool.and_eq_true, decide_eq_true_eq] at ink
  rw [Text.isBlank, if_pos (by omega)]
  simp only [Bool.or_eq_false_iff, Bool.and_eq_false_iff, decide_eq_false_iff_not]
  omega

theorem isInk_of_isDigit {c : Char} (digit : c.isDigit = true) : isInk c = true := by
  have bounds : 0x30 ≤ c.toNat ∧ c.toNat ≤ 0x39 := by
    simpa [Char.isDigit, UInt32.le_iff_toNat_le] using digit
  simp only [isInk, Bool.and_eq_true, decide_eq_true_eq]
  omega

theorem newline_notMem_bytes {s : String} (ink : ∀ c ∈ s.toList, isInk c = true) :
    newline ∉ bytes s := by
  rw [bytes_eq, List.mem_flatMap]
  rintro ⟨c, mem, inside⟩
  have shows := ink c mem
  simp only [isInk, Bool.and_eq_true, decide_eq_true_eq] at shows
  have narrow : c.val.toNat ≤ 127 := Nat.le_of_lt_succ (shows.2.trans (by decide))
  simp only [String.utf8EncodeChar, if_pos narrow, List.mem_singleton] at inside
  have code := congrArg UInt8.toNat inside
  rw [UInt8.toNat_ofNat', Nat.mod_eq_of_lt (narrow.trans_lt (by decide))] at code
  have ten : 10 = c.toNat := code
  omega

theorem dropWhile_ink {cs : List Char} (ink : ∀ c ∈ cs, isInk c = true) (rest : List Char)
    (some : cs ≠ []) : (cs ++ rest).dropWhile Text.isBlank = cs ++ rest := by
  obtain ⟨c, cs, rfl⟩ := List.exists_cons_of_ne_nil some
  simp [isBlank_of_isInk (ink c (by simp))]

theorem trim_ink {cs : List Char} (ink : ∀ c ∈ cs, isInk c = true) (some : cs ≠ []) :
    trim cs = cs ∧ trim (cs ++ ['\n']) = cs := by
  have back : cs.reverse.dropWhile Text.isBlank = cs.reverse := by
    have ink' : ∀ c ∈ cs.reverse, isInk c = true := fun c mem => ink c (List.mem_reverse.mp mem)
    simpa using dropWhile_ink ink' [] (by simpa using some)
  have blank : Text.isBlank '\n' = true := by decide
  constructor
  · have front := dropWhile_ink ink [] some
    rw [List.append_nil] at front
    rw [trim, front, back, List.reverse_reverse]
  · rw [trim, dropWhile_ink ink _ some, List.reverse_append, List.reverse_singleton,
      List.singleton_append, List.dropWhile_cons_of_pos blank, back, List.reverse_reverse]

/-- A line is found as a whole, and what follows it is left. -/
theorem splitLine_append {line : List UInt8} (inner : newline ∉ line) (rest : List UInt8) :
    splitLine (line ++ newline :: rest) = (line ++ [newline], rest) := by
  induction line with
  | nil => simp [splitLine]
  | cons b bs ih =>
    rw [List.mem_cons, not_or] at inner
    rw [List.cons_append, splitLine, if_neg (Ne.symm inner.1), ih inner.2]
    rfl

theorem splitLine_last {line : List UInt8} (inner : newline ∉ line) :
    splitLine line = (line, []) := by
  induction line with
  | nil => rfl
  | cons b bs ih =>
    rw [List.mem_cons, not_or] at inner
    rw [splitLine, if_neg (Ne.symm inner.1), ih inner.2]

/-- What `print` writes is a line that `read` takes for `v`, also where its newline is missing at
the end of the input. -/
def Recovers {α : Type} (print : EStateM Error Console Unit)
    (read : String → EStateM Error Console α) (v : α) : Prop :=
  ∃ line : String, (∀ c, print c = .ok () ⟨c.input, c.output ++ line⟩) ∧
    ∀ name output,
      (∀ rest, read name ⟨bytes line ++ rest, output⟩ = .ok v ⟨rest, output ++ (name ++ "? ")⟩) ∧
      read name ⟨(bytes line).dropLast, output⟩ = .ok v ⟨[], output ++ (name ++ "? ")⟩

theorem ask_line {α : Type} {parse : List Char → Option α} {text : List Char} {v : α}
    (reads : parse text = some v) {input line rest : List UInt8}
    (first : splitLine input = (line, rest)) (nonempty : line ≠ [])
    (holds : lineText line = some text) (name output : String) :
    ask parse name ⟨input, output⟩ = .ok v ⟨rest, output ++ (name ++ "? ")⟩ := by
  apply eq_ok_of_settle
  rw [settle_ask]
  simp only [first]
  rw [readText_bind parse name nonempty, holds, reading, parseWith, reads]
  rfl

/-- A text that is read as a value, of characters that show, comes back as a line of its own. -/
theorem recovers_of_reads {α : Type} {parse : List Char → Option α} {text : String} {v : α}
    (ink : ∀ c ∈ text.toList, isInk c = true) (refuses : parse [] = none)
    (reads : parse text.toList = some v) : Recovers (write (text ++ "\n")) (ask parse) v := by
  have letters : text.toList ≠ [] := by
    intro empty
    rw [empty, refuses] at reads
    cases reads
  have inner := newline_notMem_bytes ink
  have ended : bytes (text ++ "\n") = bytes text ++ [newline] := by
    rw [bytes_eq, bytes_eq, String.toList_append, List.flatMap_append]
    rfl
  have nonempty : bytes text ≠ [] := by
    obtain ⟨c, cs, split⟩ := List.exists_cons_of_ne_nil letters
    rw [bytes_eq, split, List.flatMap_cons]
    exact List.append_ne_nil_of_left_ne_nil String.utf8EncodeChar_ne_nil _
  obtain ⟨alone, trimmed⟩ := trim_ink ink letters
  refine ⟨text ++ "\n", fun c => rfl, fun name output => ⟨fun rest => ?_, ?_⟩⟩
  · have first : splitLine (bytes (text ++ "\n") ++ rest) = (bytes (text ++ "\n"), rest) := by
      rw [ended, List.append_assoc]
      exact splitLine_append inner rest
    refine ask_line reads first (by simp [ended]) ?_ name output
    rw [lineText, decodeLine_bytes, String.toList_append]
    exact congrArg _ trimmed
  · rw [ended, List.dropLast_concat]
    refine ask_line reads (splitLine_last inner) nonempty ?_ name output
    rw [lineText, decodeLine_bytes]
    exact congrArg _ alone

theorem isInk_int (n : Int) : ∀ c ∈ (toString n).toList, isInk c = true := by
  rw [toString_int_toList]
  intro c mem
  rcases List.mem_append.mp mem with inSign | inDigits
  · split at inSign
    · obtain rfl := List.mem_singleton.mp inSign
      decide
    · cases inSign
  · exact isInk_of_isDigit ((Json.toDigits_digits _).2 c inDigits)

theorem isInk_fractional {cs : List Char} (h : Fractional cs) : ∀ c ∈ cs, isInk c = true := by
  obtain ⟨sign, whole, fraction, rfl, signed, isWhole, isFraction⟩ := h
  have inSign : ∀ c ∈ sign, isInk c = true := by
    rcases signed with rfl | rfl
    · simp
    · simp [isInk]
  have point : isInk '.' = true := by decide
  simp only [List.mem_append, List.mem_cons]
  rintro c (mem | mem | rfl | mem)
  · exact inSign c mem
  · exact isInk_of_isDigit (isWhole.2 c mem)
  · exact point
  · exact isInk_of_isDigit (isFraction.2 c mem)

theorem isInk_float (v : Float32) : ∀ c ∈ (formatFloat v).toList, isInk c = true := by
  by_cases finite : v.isFinite = true
  · rcases lt_or_ge |Number.singleValue v| (10 ^ 7) with small | large
    · exact isInk_fractional (formatFloat_small finite small)
    · obtain ⟨n, text⟩ := formatFloat_large finite large
      exact text ▸ isInk_int n
  · have each : Number.boundless.all (fun v => (formatFloat v).toList.all isInk) = true := by
      decide +kernel
    exact List.all_eq_true.mp (List.all_eq_true.mp each v (Number.mem_boundless finite))

theorem readInt_int (n : Int) : Number.readInt (toString n).toList = some n := by
  have digits := Json.toDigits_digits n.natAbs
  have all : (Nat.toDigits 10 n.natAbs).all Char.isDigit = true := List.all_eq_true.mpr digits.2
  have sign : Number.readSign ((if n < 0 then ['-'] else []) ++ Nat.toDigits 10 n.natAbs) =
      (decide (n < 0), Nat.toDigits 10 n.natAbs) := by
    by_cases below : n < 0
    · rw [if_pos below, decide_eq_true below]
      rfl
    · rw [if_neg below, decide_eq_false below]
      exact Json.readSign_digits digits
  rw [toString_int_toList, Number.readInt, sign]
  simp only [all, Json.natOfDigits_toDigits]
  by_cases below : n < 0
  · simp [below, digits.1, abs_of_neg below]
  · simp [below, digits.1, abs_of_nonneg (not_lt.mp below)]

theorem readInt32_formatInt (v : Int32) : Number.readInt32 (formatInt v).toList = some v := by
  have low := Int32.le_toInt v
  have high := Int32.toInt_lt v
  have fits : (-0x80000000 ≤ v.toInt && v.toInt < 0x80000000) = true := by
    simp only [Bool.and_eq_true, decide_eq_true_eq]
    omega
  rw [Number.readInt32, formatInt, readInt_int, Option.bind_some, if_pos fits, Int32.ofInt_toInt]

/-- What is printed for a value is read as that value. -/
theorem printed_recovered :
    (∀ v : Int32, Recovers (answer (.printInt v)) (fun name => answer (.inputInt name)) v) ∧
    (∀ v : Float32, Recovers (answer (.printFloat v)) (fun name => answer (.inputFloat name)) v) ∧
    ∀ b, Recovers (answer (.printBoolean b)) (fun name => answer (.inputBoolean name)) b := by
  refine ⟨fun v => ?_, fun v => ?_, fun b => ?_⟩
  · exact recovers_of_reads (isInk_int v.toInt) rfl (readInt32_formatInt v)
  · exact recovers_of_reads (isInk_float v) rfl (readSingle_formatFloat v)
  · have shows : (formatBool b).toList.all isInk = true := by cases b <;> decide
    have reads : parseBool (formatBool b).toList = some b := by cases b <;> decide
    exact recovers_of_reads (List.all_eq_true.mp shows) rfl reads

end Printed

end Guarded.Console
