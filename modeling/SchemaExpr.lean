import SchemaExpr.Cache
import SchemaExpr.Command
import SchemaExpr.Command.Run
import SchemaExpr.Command.Usage
import SchemaExpr.Compile
import SchemaExpr.Decimal.Double
import SchemaExpr.Decimal.Layout
import SchemaExpr.Decimal.Shortest
import SchemaExpr.Engine
import SchemaExpr.Error
import SchemaExpr.Expr
import SchemaExpr.Expr.Json
import SchemaExpr.Expr.Parse
import SchemaExpr.Expr.Reading
import SchemaExpr.Expr.Sexpr
import SchemaExpr.Expr.Walk
import SchemaExpr.Fault
import SchemaExpr.FileTree
import SchemaExpr.Files
import SchemaExpr.Json
import SchemaExpr.Literal.Number
import SchemaExpr.Literal.Text
import SchemaExpr.Main
import SchemaExpr.Parser
import SchemaExpr.Path
import SchemaExpr.Proofs.AcceptedTrees
import SchemaExpr.Proofs.CacheAccounting
import SchemaExpr.Proofs.CacheRuns
import SchemaExpr.Proofs.CacheTransparency
import SchemaExpr.Proofs.CountingParser
import SchemaExpr.Proofs.DisplayText
import SchemaExpr.Proofs.EmitterReuse
import SchemaExpr.Proofs.FloatText
import SchemaExpr.Proofs.Grammar
import SchemaExpr.Proofs.GreedyScans
import SchemaExpr.Proofs.LayoutIndependence
import SchemaExpr.Proofs.LexemeBoundaries
import SchemaExpr.Proofs.Lexemes
import SchemaExpr.Proofs.ListRecovery
import SchemaExpr.Proofs.LongestMatch
import SchemaExpr.Proofs.Lowering
import SchemaExpr.Proofs.LoweringFailures
import SchemaExpr.Proofs.LoweringPlaces
import SchemaExpr.Proofs.NestingLimit
import SchemaExpr.Proofs.NodeTexts
import SchemaExpr.Proofs.NumberLiterals
import SchemaExpr.Proofs.Numerals
import SchemaExpr.Proofs.ParserCompleteness
import SchemaExpr.Proofs.ParserProgress
import SchemaExpr.Proofs.ParserSoundness
import SchemaExpr.Proofs.PhraseSpans
import SchemaExpr.Proofs.QuotedText
import SchemaExpr.Proofs.ReportLabels
import SchemaExpr.Proofs.Rounding
import SchemaExpr.Proofs.SexprReading
import SchemaExpr.Proofs.SourcePlaces
import SchemaExpr.Proofs.SourceTrees
import SchemaExpr.Proofs.SpanIndependence
import SchemaExpr.Proofs.StringTokens
import SchemaExpr.Proofs.Subphrases
import SchemaExpr.Proofs.TargetForm
import SchemaExpr.Proofs.TargetGrouping
import SchemaExpr.Proofs.TargetMeaning
import SchemaExpr.Proofs.TargetText
import SchemaExpr.Proofs.TargetTokens
import SchemaExpr.Proofs.TargetVariables
import SchemaExpr.Proofs.TokenPatterns
import SchemaExpr.Proofs.TokenPlaces
import SchemaExpr.Proofs.Traversal
import SchemaExpr.Proofs.TreeShapes
import SchemaExpr.Proofs.WellFormedSpans
import SchemaExpr.Report
import SchemaExpr.Settings
import SchemaExpr.Settings.Load
import SchemaExpr.Span
import SchemaExpr.Special
import SchemaExpr.Target.Emission
import SchemaExpr.Target.Names
import SchemaExpr.Text.Blank
import SchemaExpr.Text.CharSet
import SchemaExpr.Text.Columns
import SchemaExpr.Text.Display
import SchemaExpr.Text.Hidden
import SchemaExpr.Text.Wide
import SchemaExpr.Text.ZeroWidth
import SchemaExpr.Token
import SchemaExpr.Token.Lexer
import SchemaExpr.Token.Scan
import SchemaExpr.Toml.Datetime
import SchemaExpr.Toml.Document
import SchemaExpr.Toml.Quoted
import SchemaExpr.Toml.Reader
import SchemaExpr.Toml.Scalar
import SchemaExpr.Toml.Table
import SchemaExpr.Toml.Value
import SchemaExpr.Variables
