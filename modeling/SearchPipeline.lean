import SearchPipeline.Command.Arguments
import SearchPipeline.Command.ContextArgument
import SearchPipeline.Command.Execute
import SearchPipeline.Command.Run
import SearchPipeline.Decimal.Shortest
import SearchPipeline.Grammar.Expression
import SearchPipeline.Grammar.Failure
import SearchPipeline.Grammar.Operation
import SearchPipeline.Grammar.Parse
import SearchPipeline.Grammar.Pipeline
import SearchPipeline.Grammar.Rule
import SearchPipeline.Inventory.Basic
import SearchPipeline.Inventory.Discover
import SearchPipeline.Inventory.FieldName
import SearchPipeline.Inventory.Reference
import SearchPipeline.Json.Decode
import SearchPipeline.Json.Document
import SearchPipeline.Json.Numeral
import SearchPipeline.Json.Value
import SearchPipeline.Json.Write
import SearchPipeline.MacroCall
import SearchPipeline.Main
import SearchPipeline.Mapping.Config
import SearchPipeline.Mapping.Context
import SearchPipeline.Mapping.Document
import SearchPipeline.Mapping.Evaluate
import SearchPipeline.Mapping.Session
import SearchPipeline.Mapping.Validate
import SearchPipeline.Pattern.CharSet
import SearchPipeline.Pattern.Engine
import SearchPipeline.Pattern.Match
import SearchPipeline.Pattern.Parse
import SearchPipeline.Pattern.Size
import SearchPipeline.Rename.Plan
import SearchPipeline.Rename.Splice
import SearchPipeline.Text.Alphabetic
import SearchPipeline.Text.Blank
import SearchPipeline.Text.CaseFold
import SearchPipeline.Text.Numeric
import SearchPipeline.Text.Position
import SearchPipeline.Text.Range
import SearchPipeline.Text.Run
import SearchPipeline.Text.Split
import SearchPipeline.Text.WordCharacter
import SearchPipeline.Token.Basic
import SearchPipeline.Token.Keyword
import SearchPipeline.Token.Kind
import SearchPipeline.Token.Scan
import SearchPipeline.Token.Span
import SearchPipeline.Tree.Expr
import SearchPipeline.Tree.Operation
import SearchPipeline.Tree.Outline
import SearchPipeline.Tree.Stage
import SearchPipeline.Proofs.Token.Alphabet
import SearchPipeline.Proofs.Token.Lexeme
import SearchPipeline.Proofs.Token.Lookahead
import SearchPipeline.Proofs.Token.Characters
import SearchPipeline.Proofs.Token.Context
import SearchPipeline.Proofs.Token.Tiling
import SearchPipeline.Proofs.Token.Bytes
import SearchPipeline.Proofs.Token.Requests
import SearchPipeline.Proofs.Text.Position
import SearchPipeline.Proofs.Text.Split
import SearchPipeline.Proofs.Text.Line
import SearchPipeline.Proofs.Text.Trim
import SearchPipeline.Proofs.Token.Placement
import SearchPipeline.Proofs.Token.Respelling
import SearchPipeline.Proofs.Token.Trimming
import SearchPipeline.Proofs.Token.Renumbering
import SearchPipeline.Proofs.Token.LineBreak
import SearchPipeline.Proofs.Token.Language
import SearchPipeline.Proofs.Token.Alone
import SearchPipeline.Proofs.Grammar.Tier
import SearchPipeline.Proofs.Grammar.Ensures
import SearchPipeline.Proofs.Grammar.Node
import SearchPipeline.Proofs.Grammar.Tape
import SearchPipeline.Proofs.Grammar.Expression
import SearchPipeline.Proofs.Grammar.Operation
import SearchPipeline.Proofs.Grammar.Pipeline
import SearchPipeline.Proofs.Grammar.Parse
import SearchPipeline.Proofs.Grammar.Derivation
import SearchPipeline.Proofs.Grammar.Children
import SearchPipeline.Proofs.Grammar.Relabel
import SearchPipeline.Proofs.Grammar.Balance
import SearchPipeline.Proofs.Grammar.Agreement
import SearchPipeline.Proofs.Grammar.Carried
import SearchPipeline.Proofs.Grammar.CarriedPipeline
import SearchPipeline.Proofs.Grammar.Alignment
import SearchPipeline.Proofs.Grammar.Settle
import SearchPipeline.Proofs.Grammar.Composed
import SearchPipeline.Proofs.Grammar.ComposedExpression
import SearchPipeline.Proofs.Grammar.ComposedPipeline
import SearchPipeline.Proofs.Grammar.Steady
import SearchPipeline.Proofs.Grammar.Counter
import SearchPipeline.Proofs.Grammar.Guard
import SearchPipeline.Proofs.Grammar.Memory
import SearchPipeline.Proofs.Grammar.Bracket
import SearchPipeline.Proofs.Grammar.Course
import SearchPipeline.Proofs.Grammar.Stages
import SearchPipeline.Proofs.Grammar.Recovery
import SearchPipeline.Proofs.Grammar.Report
import SearchPipeline.Proofs.Grammar.Precedence
import SearchPipeline.Proofs.Grammar.Checked
import SearchPipeline.Proofs.Grammar.Forward
import SearchPipeline.Proofs.Grammar.Progress
import SearchPipeline.Proofs.Print.Sign
import SearchPipeline.Proofs.Print.Shown
import SearchPipeline.Proofs.Print.Printer
import SearchPipeline.Proofs.Print.Gives
import SearchPipeline.Proofs.Print.ReadExpression
import SearchPipeline.Proofs.Print.ReadOperation
import SearchPipeline.Proofs.Print.RoundTrip
import SearchPipeline.Proofs.Grammar.Nesting
import SearchPipeline.Proofs.Print.Depth
import SearchPipeline.Proofs.Rename.FieldPosition
import SearchPipeline.Proofs.Rename.Registration
import SearchPipeline.Proofs.Rename.Rendering
import SearchPipeline.Proofs.Rename.Substitution
import SearchPipeline.Proofs.Rename.Reparse
import SearchPipeline.Proofs.Rename.Idempotence
import SearchPipeline.Proofs.Inventory.Listed
import SearchPipeline.Proofs.Inventory.Findings
import SearchPipeline.Proofs.Inventory.Walk
import SearchPipeline.Proofs.Inventory.Subqueries
import SearchPipeline.Proofs.Inventory.Mentions
import SearchPipeline.Proofs.Inventory.Evaluated
import SearchPipeline.Proofs.Inventory.MacroCalls
import SearchPipeline.Proofs.Inventory.WellFormed
import SearchPipeline.Proofs.Inventory.Extension
import SearchPipeline.Proofs.Inventory.Operands
import SearchPipeline.Proofs.Inventory.Verbatim
import SearchPipeline.Proofs.Inventory.MacroScan
import SearchPipeline.Proofs.Inventory.Ordinary
import SearchPipeline.Proofs.Mapping.History
import SearchPipeline.Proofs.Mapping.Reload
import SearchPipeline.Proofs.Json.Spelling
import SearchPipeline.Proofs.Json.Restoration
import SearchPipeline.Proofs.Mapping.RoundTrip
import SearchPipeline.Proofs.Layout.Outline
import SearchPipeline.Proofs.Layout.Nodes
import SearchPipeline.Proofs.Layout.Inventory
import SearchPipeline.Proofs.Layout.Rank
import SearchPipeline.Proofs.Layout.Leaves
import SearchPipeline.Proofs.Layout.Spacing
import SearchPipeline.Proofs.Grammar.Continuation
import SearchPipeline.Proofs.Layout.Continuation
import SearchPipeline.Proofs.Mapping.WellFormed
import SearchPipeline.Proofs.Mapping.Report
import SearchPipeline.Proofs.Mapping.Evaluation
import SearchPipeline.Proofs.Mapping.Calls
import SearchPipeline.Proofs.Rename.LookupTable
import SearchPipeline.Proofs.Command.Accumulation
