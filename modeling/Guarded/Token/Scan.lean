import Guarded.Text.Alphabetic
import Guarded.Text.Numeric
import Guarded.Token

/-!
Cutting a source text into tokens. What separates tokens is blanks and comments, which start with
`#` and run to the end of their line. At the end of the text stands one more token, which is taken
to be one character wide, so a scanner that is asked again keeps moving past the end.
-/

namespace Guarded

/-- What is left of a source text, and where it starts. -/
structure Scanner where
  rest : List Char
  pos : Nat
  line : Nat
deriving DecidableEq, Repr

namespace Token

def isBlank (c : Char) : Bool :=
  c = ' ' || c = '\t' || c = '\r' || c = '\n'

def isNameStart (c : Char) : Bool :=
  Text.isAlphabetic c || c = '_'

def isNamePart (c : Char) : Bool :=
  Text.isAlphabetic c || Text.isNumeric c || c = '_' || c = '?'

/-- The number of characters before the next token, for a text that starts inside a comment or
outside of one. -/
def gap : Bool → List Char → Nat
  | _, [] => 0
  | true, c :: cs => 1 + gap (c != '\n') cs
  | false, c :: cs =>
    if c = '#' then 1 + gap true cs
    else if isBlank c then 1 + gap false cs
    else 0

/-- A name or keyword. -/
def word (cs : List Char) : Kind × Nat :=
  let name := String.ofList (cs.takeWhile isNamePart)
  ((Kind.keyword? name).getD (.ident name), (cs.takeWhile isNamePart).length)

/-- The greatest value an integer literal holds. -/
def maxInt : Nat :=
  0x7fffffffffffffff

/-- An integer, or digits on both sides of a point. -/
def number (cs : List Char) : Kind × Nat :=
  let whole := cs.takeWhile Char.isDigit
  let integer := (.intLit (min (Number.natOfDigits whole) maxInt), whole.length)
  match cs.dropWhile Char.isDigit with
  | '.' :: rest =>
    let fraction := rest.takeWhile Char.isDigit
    if fraction.isEmpty then integer
    else (.floatLit (Number.Decimal.ofDigits whole fraction).toDouble,
      whole.length + 1 + fraction.length)
  | _ => integer

/-- An operator, a separator, or a character that starts no token. -/
def symbol (c : Char) (cs : List Char) : Kind × Nat :=
  match c, cs with
  | '<', '-' :: _ => (.assign, 2)
  | '<', '=' :: _ => (.le, 2)
  | '<', _ => (.lt, 1)
  | '>', '=' :: _ => (.ge, 2)
  | '>', _ => (.gt, 1)
  | '~', '=' :: _ => (.ne, 2)
  | '~', _ => (.tilde, 1)
  | ':', ':' :: _ => (.guard, 2)
  | ':', _ => (.colon, 1)
  | '=', _ => (.eq, 1)
  | '+', _ => (.plus, 1)
  | '-', _ => (.minus, 1)
  | '*', _ => (.star, 1)
  | '/', _ => (.slash, 1)
  | '&', _ => (.and, 1)
  | '|', _ => (.or, 1)
  | ';', _ => (.semicolon, 1)
  | ',', _ => (.comma, 1)
  | '.', _ => (.period, 1)
  | '(', _ => (.lparen, 1)
  | ')', _ => (.rparen, 1)
  | '[', _ => (.lbracket, 1)
  | ']', _ => (.rbracket, 1)
  | '\x7b', _ => (.lbrace, 1)
  | '\x7d', _ => (.rbrace, 1)
  | c, _ => (.unknown c, 1)

/-- The token at the very start of a text, and how many characters it takes. -/
def first : List Char → Kind × Nat
  | [] => (.eof, 1)
  | c :: cs =>
    if isNameStart c then word (c :: cs)
    else if c.isDigit then number (c :: cs)
    else symbol c cs

end Token

namespace Scanner

def ofString (source : String) : Scanner :=
  ⟨source.toList, 0, 1⟩

/-- Moves on by `n` characters, counting the lines that end on the way. -/
def advance (s : Scanner) (n : Nat) : Scanner where
  rest := s.rest.drop n
  pos := s.pos + n
  line := s.line + (s.rest.take n).count '\n'

/-- Moves to the start of the next token. -/
def skipGap (s : Scanner) : Scanner :=
  s.advance (Token.gap false s.rest)

/-- The next token and what follows it. -/
def next (s : Scanner) : Token × Scanner :=
  let s := s.skipGap
  let (kind, width) := Token.first s.rest
  (⟨kind, ⟨s.pos, s.pos + width, s.line⟩⟩, s.advance width)

/-- The tokens up to the end of the text, at most `fuel` of them, and what is left. -/
def tokens : Nat → Scanner → List Token × Scanner
  | 0, s => ([], s)
  | fuel + 1, s =>
    let (token, s) := s.next
    if token.kind = .eof then ([token], s)
    else
      let (rest, s) := tokens fuel s
      (token :: rest, s)

/-- All tokens, the end of the text included. Each but the last takes at least one character. -/
def all (s : Scanner) : List Token × Scanner :=
  s.tokens (s.rest.length + 1)

end Scanner

/-- The tokens of a source text. -/
def tokenize (source : String) : List Token :=
  (Scanner.ofString source).all.1

end Guarded
