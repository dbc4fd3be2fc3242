import Reckon.Number.Basic
import Reckon.Number.Arithmetic
import Reckon.Number.Word
import Reckon.Number.Elementary
import Reckon.Decimal.Basic
import Reckon.Decimal.Shortest
import Reckon.Decimal.Notation
import Reckon.Text.Letter
import Reckon.Text.Numeral
import Reckon.Text.Order
import Reckon.Operator.Basic
import Reckon.Operator.Registry
import Reckon.Operator.Meaning
import Reckon.Error
import Reckon.Token.Basic
import Reckon.Token.Scanner
import Reckon.Token.Queue
import Reckon.Limit
import Reckon.Expr.Basic
import Reckon.Expr.Printer
import Reckon.Statement.Level
import Reckon.Statement.Reader
import Reckon.Statement.Line
import Reckon.Statement.Cache
import Reckon.Function.Table
import Reckon.Function.Evaluation
import Reckon.Session
import Reckon.Text.Lines
import Reckon.Command.Arguments
import Reckon.Command.Transcript
import Reckon.Main
import Reckon.Proofs.Statement.Grammar
import Reckon.Proofs.Statement.Precedence
import Reckon.Proofs.Statement.Steps
import Reckon.Proofs.Statement.Acceptance
import Reckon.Proofs.Statement.Stack
import Reckon.Proofs.Statement.Moves
import Reckon.Proofs.Statement.Exactness
import Reckon.Proofs.Expr.WellFormed
import Reckon.Proofs.Statement.WellFormed
import Reckon.Proofs.Function.Evaluation
import Reckon.Proofs.Function.WellFormed
import Reckon.Proofs.Session.WellFormed
import Reckon.Proofs.Function.Ceiling
import Reckon.Proofs.Token.Joining
import Reckon.Proofs.Statement.Position
import Reckon.Proofs.Statement.Joining
import Reckon.Proofs.Session.Sequencing
import Reckon.Proofs.Function.Operands
import Reckon.Proofs.Function.Substitution
import Reckon.Proofs.Function.Closed
import Reckon.Proofs.Decimal.Numeral
import Reckon.Proofs.Decimal.Nearest
import Reckon.Proofs.Decimal.Notation
import Reckon.Proofs.Number.Display
import Reckon.Proofs.Function.Lookup
import Reckon.Proofs.Token.Spelling
import Reckon.Proofs.Expr.Writing
import Reckon.Proofs.Statement.Writing
import Reckon.Proofs.Session.History
import Reckon.Proofs.Session.Printing
import Reckon.Proofs.Session.Naming
import Reckon.Proofs.Function.Depth
import Reckon.Proofs.Function.Truth
import Reckon.Proofs.Session.Recency
import Reckon.Proofs.Token.Tiling
import Reckon.Proofs.Session.Spacing
import Reckon.Proofs.Session.Showing
import Reckon.Proofs.Session.Display
import Reckon.Proofs.Expr.Rendering
import Reckon.Proofs.Statement.Unquoted
import Reckon.Proofs.Command.Ending
import Reckon.Proofs.Command.Source
import Reckon.Proofs.Statement.Quoting
import Reckon.Proofs.Session.Defining
import Reckon.Proofs.Session.Branching
import Reckon.Proofs.Function.Skipping
import Reckon.Proofs.Statement.Halting
import Reckon.Proofs.Token.Lookahead
import Reckon.Proofs.Number.Nearest
import Reckon.Proofs.Decimal.Value
import Reckon.Proofs.Token.Literal
import Reckon.Proofs.Number.Value
import Reckon.Proofs.Number.Word
import Reckon.Proofs.Token.Radix
import Reckon.Proofs.Number.Cast
import Reckon.Proofs.Number.Bitwise
import Reckon.Proofs.Number.Shift
import Reckon.Proofs.Number.Exact
import Reckon.Proofs.Number.Remainder
import Reckon.Proofs.Number.Halves
import Reckon.Proofs.Statement.Order
