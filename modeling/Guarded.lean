import Guarded.Analysis
import Guarded.Analysis.Binding
import Guarded.Analysis.Check
import Guarded.Analysis.Full
import Guarded.Analysis.Inference
import Guarded.Command
import Guarded.Command.Session
import Guarded.Command.Terminal
import Guarded.Compile
import Guarded.Compile.Assemble
import Guarded.Compile.Emit
import Guarded.Console
import Guarded.Error
import Guarded.Feedback
import Guarded.Files.Path
import Guarded.Files.Tree
import Guarded.Json.Decode
import Guarded.Json.Read
import Guarded.Json.Value
import Guarded.Json.Write
import Guarded.Machine
import Guarded.Main
import Guarded.Number.Binary
import Guarded.Number.Decimal
import Guarded.Number.Shortest
import Guarded.Number.Style
import Guarded.Object
import Guarded.Object.Draft
import Guarded.Object.Json
import Guarded.Object.Listing
import Guarded.Program
import Guarded.Program.Parse
import Guarded.Proofs.Allocation
import Guarded.Proofs.Assembly
import Guarded.Proofs.Binding
import Guarded.Proofs.Bound
import Guarded.Proofs.Building
import Guarded.Proofs.Calls
import Guarded.Proofs.Code
import Guarded.Proofs.CodeTyping
import Guarded.Proofs.Compiled
import Guarded.Proofs.Constants
import Guarded.Proofs.Evaluation
import Guarded.Proofs.Fixpoint
import Guarded.Proofs.Fixups
import Guarded.Proofs.Frames
import Guarded.Proofs.Inference
import Guarded.Proofs.Layout
import Guarded.Proofs.Linking
import Guarded.Proofs.Numbering
import Guarded.Proofs.Numerals
import Guarded.Proofs.ObjectFiles
import Guarded.Proofs.Occurrences
import Guarded.Proofs.Preservation
import Guarded.Proofs.Progress
import Guarded.Proofs.Reading
import Guarded.Proofs.Refinement
import Guarded.Proofs.Rendering
import Guarded.Proofs.Representation
import Guarded.Proofs.Rounding
import Guarded.Proofs.RoutineTyping
import Guarded.Proofs.Run
import Guarded.Proofs.Saving
import Guarded.Proofs.ScopeTables
import Guarded.Proofs.Scoping
import Guarded.Proofs.Sequencing
import Guarded.Proofs.Simulation
import Guarded.Proofs.Spelling
import Guarded.Proofs.StackTyping
import Guarded.Proofs.Statements
import Guarded.Proofs.Symbolic
import Guarded.Proofs.Tree
import Guarded.Proofs.TypedRuns
import Guarded.Proofs.Typing
import Guarded.Proofs.Wrapping
import Guarded.Proofs.Parentheses
import Guarded.Proofs.Transparency
import Guarded.Proofs.Writing
import Guarded.Scope
import Guarded.Span
import Guarded.Symbol
import Guarded.Text.Alphabetic
import Guarded.Text.Blank
import Guarded.Text.Extending
import Guarded.Text.Hidden
import Guarded.Text.Numeric
import Guarded.Text.Quoted
import Guarded.Text.Stretches
import Guarded.Token
import Guarded.Token.Scan
import Guarded.Ty
import Guarded.Proofs.Handles
import Guarded.Proofs.NameStack
import Guarded.Proofs.Positions
import Guarded.Proofs.Regions
import Guarded.Proofs.Locations
import Guarded.Proofs.CallFree
import Guarded.Proofs.Assignment
import Guarded.Proofs.Control
import Guarded.Proofs.Truths
import Guarded.Proofs.Guards
import Guarded.Proofs.Lexemes
import Guarded.Proofs.Tiling
import Guarded.Proofs.Reloading
import Guarded.Proofs.Labels
import Guarded.Proofs.NodeNumbers
import Guarded.Proofs.Literals
import Guarded.Proofs.SyntaxErrors
import Guarded.Proofs.Shortest
import Guarded.Proofs.FloatText
import Guarded.Proofs.Dialogue
