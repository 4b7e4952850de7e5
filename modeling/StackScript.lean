import StackScript.Main
import StackScript.Proofs.Instruction.Codec
import StackScript.Proofs.Triple
import StackScript.Proofs.Code.Placement
import StackScript.Proofs.Value.Typing
import StackScript.Proofs.Value.Operators
import StackScript.Proofs.Machine.Store
import StackScript.Proofs.Machine.Actions
import StackScript.Proofs.Machine.Effect
import StackScript.Proofs.Machine.Flow
import StackScript.Proofs.Tree.Listing
import StackScript.Proofs.Tree.Typing
import StackScript.Proofs.Tree.Flow
import StackScript.Proofs.Grammar.Rule
import StackScript.Proofs.Grammar.Word
import StackScript.Proofs.Grammar.Expression
import StackScript.Proofs.Grammar.Statement
import StackScript.Proofs.Tree.Cells
import StackScript.Proofs.Program
import StackScript.Proofs.Machine.Run
import StackScript.Proofs.Soundness
import StackScript.Proofs.Termination
import StackScript.Proofs.Calls
import StackScript.Proofs.Formula.Basic
import StackScript.Proofs.Formula.Values
import StackScript.Proofs.Formula.Evaluation
import StackScript.Proofs.Grammar.Token
import StackScript.Proofs.Grammar.Reading
import StackScript.Proofs.Grammar.Literal
import StackScript.Proofs.Formula.Text
import StackScript.Proofs.Formula.Parsing
import StackScript.Proofs.Grammar.Naming
import StackScript.Proofs.Grammar.Types
import StackScript.Proofs.Grammar.Assignment
import StackScript.Proofs.SingleVariable
import StackScript.Proofs.Formula.Source
import StackScript.Proofs.Formula.Correctness
import StackScript.Proofs.Value.Preservation
import StackScript.Proofs.Machine.Cells
import StackScript.Proofs.Machine.Steady
import StackScript.Proofs.Machine.Changes
import StackScript.Proofs.StoreTyping
import StackScript.Proofs.Addresses
import StackScript.Proofs.Openings
import StackScript.Proofs.Machine.Missing
import StackScript.Proofs.Tree.Confinement
import StackScript.Proofs.Arrangement
import StackScript.Proofs.Isolation
import StackScript.Proofs.Evaluation
import StackScript.Proofs.Exactness
import StackScript.Proofs.Code.Chunks
import StackScript.Proofs.Machine.Translation
import StackScript.Proofs.Relocation
import StackScript.Proofs.StringLiteral
import StackScript.Proofs.Resolution.Text
import StackScript.Proofs.Resolution.Lookup
import StackScript.Proofs.Resolution.Rule
import StackScript.Proofs.Resolution.Word
import StackScript.Proofs.Tree.Names
import StackScript.Proofs.Resolution.Expression
import StackScript.Proofs.Resolution.Growth
import StackScript.Proofs.Resolution.Statement
import StackScript.Proofs.Resolution.Program
import StackScript.Proofs.Residence
import StackScript.Proofs.Tree.Ownership
import StackScript.Proofs.Binding
import StackScript.Proofs.Symbol.Registry
import StackScript.Proofs.Symbol.Scope
import StackScript.Proofs.Tree.Seating
import StackScript.Proofs.Text.Blank
import StackScript.Proofs.Ty.Descriptor
import StackScript.Proofs.Seating.Rule
import StackScript.Proofs.Seating.Expression
import StackScript.Proofs.Seating.Statement
import StackScript.Proofs.Restoring
import StackScript.Proofs.Code.Places
import StackScript.Proofs.Code.Concatenation
import StackScript.Proofs.Tree.Places
import StackScript.Proofs.WellFormed
import StackScript.Proofs.Tree.Definitions
import StackScript.Proofs.Linking
import StackScript.Proofs.Image
import StackScript.Proofs.Source.Place
import StackScript.Proofs.Diagnostic.Tree
import StackScript.Proofs.Diagnostic.Rule
import StackScript.Proofs.Diagnostic.Expression
import StackScript.Proofs.Diagnostic.Program
import StackScript.Proofs.Seating.Scopes
import StackScript.Proofs.Tree.Scopes
import StackScript.Proofs.VariableTable
import StackScript.Proofs.Truncation
import StackScript.Proofs.Ty.Nesting
import StackScript.Proofs.Code.Encoding
import StackScript.Proofs.Decimal.Rounding
import StackScript.Proofs.Decimal.Shortest
import StackScript.Proofs.Decimal.Reading
import StackScript.Proofs.Decimal.Layout
import StackScript.Proofs.Instruction.Text
import StackScript.Proofs.Grammar.Signature
import StackScript.Proofs.Signature
import StackScript.Proofs.Value.Atomicity
import StackScript.Proofs.Value.Floats
import StackScript.Proofs.Value.Identity
import StackScript.Proofs.Value.Uniqueness
import StackScript.Proofs.Ty.Acceptance
import StackScript.Proofs.Value.Widening
import StackScript.Proofs.Value.Element
import StackScript.Proofs.Value.Merging
import StackScript.Proofs.Value.Equality
import StackScript.Proofs.Decimal.Numbers
import StackScript.Proofs.Grammar.Constants
import StackScript.Proofs.Value.Path
import StackScript.Proofs.Machine.Indexing
import StackScript.Proofs.Tree.Element
import StackScript.Proofs.ElementAccess
import StackScript.Proofs.IndexArity
import StackScript.Proofs.Grammar.Indexes
import StackScript.Proofs.ManyIndexes
import StackScript.Proofs.Code.Sweep
import StackScript.Proofs.Text.Lines
import StackScript.Proofs.Code.Disassembly
import StackScript.Proofs.Diagnostic.Excerpt
import StackScript.Proofs.Source.Progress
import StackScript.Proofs.Progress.Rule
import StackScript.Proofs.Progress.Round
import StackScript.Proofs.Progress.Word
import StackScript.Proofs.Progress.Expression
import StackScript.Proofs.Progress.Statement
import StackScript.Proofs.Advancing
import StackScript.Proofs.Emitting.Restoring
