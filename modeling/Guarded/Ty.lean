/-!
Types and their refinement order. Inference starts at `undefined`, may pass through `num`, a number
of unknown kind, and ends at `int`, `float` or `boolean`. What has become one of these stays so.
-/

namespace Guarded

inductive Ty where
  | undefined
  | num
  | int
  | float
  | boolean
deriving DecidableEq, Repr, Inhabited

namespace Ty

def name : Ty → String
  | undefined => "undefined"
  | num => "num"
  | int => "int"
  | float => "float"
  | boolean => "boolean"

def isNumeric : Ty → Bool
  | num | int | float => true
  | _ => false

/-- Types that are never refined further. -/
def isTerminal : Ty → Bool
  | int | float | boolean => true
  | _ => false

/-- The type after `proposed` has been taken into account, and whether that is a change; there is
none if one of the two is a number and the other is boolean. A known kind of number is kept, because
values are converted. -/
def unify : Ty → Ty → Option (Ty × Bool)
  | current, undefined => some (current, false)
  | undefined, proposed => some (proposed, true)
  | boolean, boolean => some (boolean, false)
  | boolean, _ => none
  | _, boolean => none
  | num, int => some (int, true)
  | num, float => some (float, true)
  | current, _ => some (current, false)

end Ty

end Guarded
