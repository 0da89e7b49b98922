import Guarded.Text.Extending
import Guarded.Text.Hidden

/-!
Quoted text, as listings and messages show it. The escapes are `\0`, `\t`, `\r`, `\n`, `\\` and the
quote in use; a combining or invisible character is written by its code point, `\u` and hexadecimal
digits in braces. Everything else stands for itself.
-/

namespace Guarded.Text

def hexDigit (n : Nat) : Char :=
  if n < 10 then Char.ofNat (0x30 + n) else Char.ofNat (0x57 + n)

/-- Hexadecimal digits in lower case, most significant first, at least `width` of them. -/
def hexDigits : Nat → Nat → List Char
  | 0, _ => []
  | width + 1, n => hexDigits width (n / 16) ++ [hexDigit (n % 16)]

/-- The number of hexadecimal digits a code point needs, up to six. -/
def hexWidth (n : Nat) : Nat :=
  if n < 0x10 then 1
  else if n < 0x100 then 2
  else if n < 0x1000 then 3
  else if n < 0x10000 then 4
  else if n < 0x100000 then 5
  else 6

/-- One character between quotes of the kind `quote`. -/
def escape (quote c : Char) : List Char :=
  if c = '\x00' then ['\\', '0']
  else if c = '\t' then ['\\', 't']
  else if c = '\r' then ['\\', 'r']
  else if c = '\n' then ['\\', 'n']
  else if c = '\\' || c = quote then ['\\', c]
  else if isExtending c || isHidden c then
    '\\' :: 'u' :: '\x7b' :: hexDigits (hexWidth c.toNat) c.toNat ++ ['\x7d']
  else [c]

/-- A text between double quotes. -/
def quoted (s : String) : String :=
  String.ofList ('"' :: s.toList.flatMap (escape '"') ++ ['"'])

/-- A character between single quotes. -/
def quotedChar (c : Char) : String :=
  String.ofList ('\x27' :: escape '\x27' c ++ ['\x27'])

end Guarded.Text
