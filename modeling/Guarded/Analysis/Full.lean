import Guarded.Analysis.Binding
import Guarded.Analysis.Check
import Guarded.Analysis.Inference

/-!
The whole analysis of a program: binding, inference, settling and checking, each on the result of
the one before. The first error ends it.
-/

namespace Guarded

/-- Names, types and checks of a program. -/
def Program.analyze (p : Program) : Except Error Analysis := do
  let a ← p.bind
  let a ← p.infer a
  let a ← a.settle
  a.check p
  return a

end Guarded
