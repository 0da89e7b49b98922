/-!
JSON values. A number keeps the characters it is written with, because readers of object code decide
by the spelling whether it is an integer. A text is absent when its escapes name half of a surrogate
pair: such a text is allowed wherever nobody reads it.
-/

namespace Guarded

inductive Json where
  | null
  | bool (value : Bool)
  | number (literal : List Char)
  | string (text : Option String)
  | array (items : List Json)
  | object (members : List (Option String × Json))
deriving Inhabited

namespace Json

def text (s : String) : Json :=
  .string (some s)

def nat (n : Nat) : Json :=
  .number (Nat.toDigits 10 n)

def int (n : Int) : Json :=
  .number ((if n < 0 then ['-'] else []) ++ Nat.toDigits 10 n.natAbs)

/-- An object from its members in order. -/
def record (members : List (String × Json)) : Json :=
  .object (members.map fun (key, value) => (some key, value))

/-- A value under a single key. -/
def tagged (key : String) (value : Json) : Json :=
  .object [(some key, value)]

end Json

end Guarded
