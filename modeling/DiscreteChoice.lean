import DiscreteChoice.Batch
import DiscreteChoice.Choice.Chooser
import DiscreteChoice.Choice.Error
import DiscreteChoice.Choice.Mode
import DiscreteChoice.Choice.Selection
import DiscreteChoice.CommandLine
import DiscreteChoice.CompileError
import DiscreteChoice.Context
import DiscreteChoice.Data.Attributes
import DiscreteChoice.Data.ModelData
import DiscreteChoice.Data.Skim
import DiscreteChoice.Data.Zones
import DiscreteChoice.Decimal.Basic
import DiscreteChoice.Decimal.Layout
import DiscreteChoice.Decimal.Scan
import DiscreteChoice.Decimal.Shortest
import DiscreteChoice.Draw.ChaCha
import DiscreteChoice.Draw.Sha256
import DiscreteChoice.Draw.Stream
import DiscreteChoice.Expr.Builtin
import DiscreteChoice.Expr.Lexer
import DiscreteChoice.Expr.Operator
import DiscreteChoice.Expr.Parser
import DiscreteChoice.Expr.SyntaxError
import DiscreteChoice.Expr.Token
import DiscreteChoice.Expr.Tree
import DiscreteChoice.Format.Csv
import DiscreteChoice.Format.Decode
import DiscreteChoice.Format.Document
import DiscreteChoice.Format.Json
import DiscreteChoice.Format.Toml.Item
import DiscreteChoice.Format.Toml.Reader
import DiscreteChoice.Format.Toml.Scalar
import DiscreteChoice.Formula.Basic
import DiscreteChoice.Formula.Node
import DiscreteChoice.Formula.Reference
import DiscreteChoice.Identifier
import DiscreteChoice.Input.MatrixTable
import DiscreteChoice.Input.Population
import DiscreteChoice.Input.ZoneTable
import DiscreteChoice.LogEntry
import DiscreteChoice.Logged
import DiscreteChoice.Logit.Flat
import DiscreteChoice.Logit.LogSumExp
import DiscreteChoice.Logit.Nested
import DiscreteChoice.Logit.Probability
import DiscreteChoice.Main
import DiscreteChoice.Model.Alternative
import DiscreteChoice.Model.Basic
import DiscreteChoice.Model.Config
import DiscreteChoice.Model.Reading
import DiscreteChoice.Nest.Config
import DiscreteChoice.Nest.Tree
import DiscreteChoice.Numeric.Basic
import DiscreteChoice.Numeric.Double
import DiscreteChoice.Output.OutcomeDocument
import DiscreteChoice.Output.ResultTable
import DiscreteChoice.Proofs.Batch
import DiscreteChoice.Proofs.Choice.Chosen
import DiscreteChoice.Proofs.Choice.Failure
import DiscreteChoice.Proofs.Choice.InverseCdf
import DiscreteChoice.Proofs.Choice.Modes
import DiscreteChoice.Proofs.Choice.Resampling
import DiscreteChoice.Proofs.Choice.Selection
import DiscreteChoice.Proofs.Choice.Tracing
import DiscreteChoice.Proofs.Choice.Validity
import DiscreteChoice.Proofs.Context.Access
import DiscreteChoice.Proofs.Context.Situation
import DiscreteChoice.Proofs.Data.Skim
import DiscreteChoice.Proofs.Decimal.Literal
import DiscreteChoice.Proofs.Decimal.Shortest
import DiscreteChoice.Proofs.Decimal.Value
import DiscreteChoice.Proofs.Expr.CursorParser
import DiscreteChoice.Proofs.Expr.CursorProgress
import DiscreteChoice.Proofs.Expr.CursorReading
import DiscreteChoice.Proofs.Expr.Evaluation
import DiscreteChoice.Proofs.Expr.Grammar
import DiscreteChoice.Proofs.Expr.Mentions
import DiscreteChoice.Proofs.Expr.ParserCompleteness
import DiscreteChoice.Proofs.Expr.ParserErrors
import DiscreteChoice.Proofs.Expr.ParserSoundness
import DiscreteChoice.Proofs.Expr.Scanning
import DiscreteChoice.Proofs.Expr.Spelling
import DiscreteChoice.Proofs.Expr.VariableText
import DiscreteChoice.Proofs.Format.Csv
import DiscreteChoice.Proofs.Formula.Binding
import DiscreteChoice.Proofs.Formula.ConstantSource
import DiscreteChoice.Proofs.Formula.Dependencies
import DiscreteChoice.Proofs.Formula.ErrorPositions
import DiscreteChoice.Proofs.Formula.Folding
import DiscreteChoice.Proofs.Formula.Undefined
import DiscreteChoice.Proofs.Formula.Variables
import DiscreteChoice.Proofs.Input.MatrixTable
import DiscreteChoice.Proofs.Input.Population
import DiscreteChoice.Proofs.Logit.Accessibility
import DiscreteChoice.Proofs.Logit.Availability
import DiscreteChoice.Proofs.Logit.Certainty
import DiscreteChoice.Proofs.Logit.Composite
import DiscreteChoice.Proofs.Logit.LogSumExp
import DiscreteChoice.Proofs.Logit.NestedLogit
import DiscreteChoice.Proofs.Logit.Normalization
import DiscreteChoice.Proofs.Logit.Opening
import DiscreteChoice.Proofs.Logit.Precision
import DiscreteChoice.Proofs.Logit.Regularity
import DiscreteChoice.Proofs.Logit.Removal
import DiscreteChoice.Proofs.Logit.Rivals
import DiscreteChoice.Proofs.Logit.Shares
import DiscreteChoice.Proofs.Logit.Sweep
import DiscreteChoice.Proofs.Logit.Textbook
import DiscreteChoice.Proofs.Logit.UnitScales
import DiscreteChoice.Proofs.Model.Acceptance
import DiscreteChoice.Proofs.Model.Alternatives
import DiscreteChoice.Proofs.Model.Blame
import DiscreteChoice.Proofs.Model.Order
import DiscreteChoice.Proofs.Nest.Acceptance
import DiscreteChoice.Proofs.Nest.Formed
import DiscreteChoice.Proofs.Nest.Layout
import DiscreteChoice.Proofs.Nest.Nesting
import DiscreteChoice.Proofs.Nest.Pruning
import DiscreteChoice.Proofs.Numeric.Absorption
import DiscreteChoice.Proofs.Numeric.DoubleArithmetic
import DiscreteChoice.Proofs.Numeric.DoubleBits
import DiscreteChoice.Proofs.Numeric.DoubleOrder
import DiscreteChoice.Proofs.Numeric.DoublePrecision
import DiscreteChoice.Proofs.Numeric.DoublePrinting
import DiscreteChoice.Proofs.Numeric.DoubleReading
import DiscreteChoice.Proofs.Numeric.DoubleRounding
import DiscreteChoice.Proofs.Numeric.DoubleScaling
import DiscreteChoice.Proofs.Numeric.Exact
import DiscreteChoice.Proofs.Numeric.Extended
import DiscreteChoice.Proofs.Numeric.Laws
import DiscreteChoice.Proofs.Numeric.Precision
import DiscreteChoice.Proofs.Numeric.Rounding
import DiscreteChoice.Proofs.Numeric.RoundingLaws
import DiscreteChoice.Proofs.Outcome
import DiscreteChoice.Proofs.Output.ResultColumns
import DiscreteChoice.Proofs.Run.Accounting
import DiscreteChoice.Proofs.Run.Fates
import DiscreteChoice.Proofs.Run.FileAccess
import DiscreteChoice.Proofs.Run.Loading
import DiscreteChoice.Proofs.Schema.Calls
import DiscreteChoice.Proofs.Schema.Declarations
import DiscreteChoice.Proofs.Utility.Availability
import DiscreteChoice.Proofs.Utility.Columns
import DiscreteChoice.Proofs.Utility.Warnings
import DiscreteChoice.Run.Basic
import DiscreteChoice.Run.Config
import DiscreteChoice.Run.Error
import DiscreteChoice.Run.FileAccess
import DiscreteChoice.Run.Path
import DiscreteChoice.Schema.Basic
import DiscreteChoice.Schema.Scope
import DiscreteChoice.Text.Blank
import DiscreteChoice.Text.Integer
import DiscreteChoice.Utility.Evaluation
import DiscreteChoice.Utility.Trace
import DiscreteChoice.Utility.Vector
