import RowLang.Code.Basic
import RowLang.CommandLine.Options
import RowLang.CommandLine.Report
import RowLang.Decimal.Basic
import RowLang.Decimal.Reader
import RowLang.Decimal.Shortest
import RowLang.Expr.Postorder
import RowLang.Expr.Shape
import RowLang.Lexeme.Basic
import RowLang.Lexeme.Pattern
import RowLang.Lexeme.Segment
import RowLang.Lexeme.Source
import RowLang.Listing
import RowLang.Machine.Basic
import RowLang.Machine.Effect
import RowLang.Machine.Fault
import RowLang.Operator
import RowLang.Pipeline
import RowLang.Statement.Diagnostic
import RowLang.Statement.Draft
import RowLang.Statement.Form
import RowLang.Statement.Loop
import RowLang.Statement.Lowering
import RowLang.Statement.Parser
import RowLang.Table.Constants
import RowLang.Table.Identifiers
import RowLang.Table.Tables
import RowLang.Text.Blank
import RowLang.Text.Columns
import RowLang.Text.Hidden
import RowLang.Text.Quoted
import RowLang.Value
import RowLang.Vocabulary
import RowLang.Main
import RowLang.Proofs.Expr.Language
import RowLang.Proofs.Expr.Tree
import RowLang.Proofs.Expr.Yard
import RowLang.Proofs.Statement.Grammar
import RowLang.Proofs.Statement.Acceptance
import RowLang.Proofs.Lexeme.Classified
import RowLang.Proofs.Lexeme.Linking
import RowLang.Proofs.Statement.Growth
import RowLang.Proofs.Statement.Lowered
import RowLang.Proofs.Statement.Refinement
import RowLang.Proofs.Machine.Pieces
import RowLang.Proofs.Machine.StackSafety
import RowLang.Proofs.Decimal.Exact
import RowLang.Proofs.Decimal.RoundTrip
import RowLang.Proofs.Meaning.Loops
import RowLang.Proofs.Meaning.Preservation
import RowLang.Proofs.Statement.Attempts
import RowLang.Proofs.Machine.Steps
import RowLang.Proofs.Statement.Inference
import RowLang.Proofs.Statement.Jumps
import RowLang.Proofs.Statement.Marks
import RowLang.Proofs.Machine.Limits
import RowLang.Proofs.Machine.Bindings
import RowLang.Proofs.Lexeme.Reprint
import RowLang.Proofs.Statement.Sequence
import RowLang.Proofs.Meaning.Redeclaration
import RowLang.Proofs.Statement.Printed
import RowLang.Proofs.Statement.Renumbering
import RowLang.Proofs.Statement.Parallel
import RowLang.Proofs.Statement.Independence
import RowLang.Proofs.Statement.Blame
import RowLang.Proofs.Statement.RowNumbers
import RowLang.Proofs.Meaning.Places
import RowLang.Proofs.Meaning.Straight
import RowLang.Proofs.Meaning.Transfers
import RowLang.Proofs.Table.Constants
import RowLang.Proofs.Expr.Grammar
import RowLang.Proofs.Machine.Failures
import RowLang.Proofs.Machine.Interning
import RowLang.Proofs.Lexeme.Occurrences
import RowLang.Proofs.Lexeme.Longest
import RowLang.Proofs.Lexeme.Kinds
import RowLang.Proofs.Lexeme.Coverage
import RowLang.Proofs.Statement.Pending
import RowLang.Proofs.Machine.Reckoning
import RowLang.Proofs.Statement.Rendering
import RowLang.Proofs.Meaning.InferredTypes
import RowLang.Proofs.Expr.Conservation
import RowLang.Proofs.Table.Histories
import RowLang.Proofs.Expr.Ranges
import RowLang.Proofs.Statement.Ranges
