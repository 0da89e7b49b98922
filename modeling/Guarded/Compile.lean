import Guarded.Analysis.Full
import Guarded.Compile.Emit
import Guarded.Program.Parse

/-!
From a source text to its object unit.
-/

namespace Guarded

/-- Reads and analyses a source text without generating code. -/
def check (source : String) : Except Error Analysis := do
  let program ← parse source
  program.analyze

/-- The object unit of a source text. -/
def compile (package source : String) : Except Error ObjectUnit := do
  let program ← parse source
  let a ← program.analyze
  let (unit, _) ← a.generate package program
  return unit

end Guarded
