import SliceLint.AliasCache
import SliceLint.AliasOptions
import SliceLint.AliasSet
import SliceLint.Analyzer
import SliceLint.CommandLine
import SliceLint.Diagnostic
import SliceLint.Discovery
import SliceLint.Document
import SliceLint.Document.Inheritance
import SliceLint.Document.Search
import SliceLint.Double
import SliceLint.Double.Shortest
import SliceLint.Edge
import SliceLint.FileCheck
import SliceLint.FileTree
import SliceLint.Finding
import SliceLint.Glob
import SliceLint.IgnoreFile
import SliceLint.IgnorePattern
import SliceLint.Json
import SliceLint.Json.Comments
import SliceLint.Json.Number
import SliceLint.Json.Printer
import SliceLint.Json.Reader
import SliceLint.Json.Record
import SliceLint.Layer
import SliceLint.Main
import SliceLint.Notice
import SliceLint.Output
import SliceLint.Path
import SliceLint.Proofs.Edge
import SliceLint.Proofs.Escape
import SliceLint.Proofs.Slice
import SliceLint.Proofs.Specifier
import SliceLint.Proofs.Text
import SliceLint.Proofs.Verdict
import SliceLint.Report
import SliceLint.Report.Codec
import SliceLint.Rule
import SliceLint.Rule.Verdict
import SliceLint.Run
import SliceLint.Session
import SliceLint.Settings
import SliceLint.Settings.Reader
import SliceLint.Severity
import SliceLint.Slice
import SliceLint.Source.Import
import SliceLint.Source.Language
import SliceLint.Source.Lexeme
import SliceLint.Source.Mode
import SliceLint.Source.Node
import SliceLint.Source.Piece
import SliceLint.Source.Position
import SliceLint.Source.Scanner
import SliceLint.Specifier
import SliceLint.Text
import SliceLint.Text.Blank
import SliceLint.Toml
import SliceLint.Toml.Reader
import SliceLint.Toml.Scalar
import SliceLint.Violation
import SliceLint.Violation.Codec
import SliceLint.Proofs.EscapeSoundness
import SliceLint.Proofs.PathFix
import SliceLint.Proofs.Path
import SliceLint.Proofs.FileTree
import SliceLint.Proofs.Inheritance
import SliceLint.Proofs.Spelling
import SliceLint.Proofs.TreePath
import SliceLint.Proofs.AliasSource
import SliceLint.Proofs.AliasCache
import SliceLint.Proofs.EscapeFix
import SliceLint.Proofs.JsonLiteral
import SliceLint.Proofs.JsonRendering
import SliceLint.Proofs.Comments
import SliceLint.Proofs.ReportCodec
import SliceLint.Proofs.ReportOrder
import SliceLint.Proofs.RuleIsolation
import SliceLint.Proofs.Literals
import SliceLint.Proofs.Scanner
import SliceLint.Proofs.Spans
import SliceLint.Proofs.RelativeSpecifier
import SliceLint.Proofs.AcyclicInheritance
import SliceLint.Proofs.EntryFix
import SliceLint.Proofs.NearestDocument
import SliceLint.Proofs.AliasSet
import SliceLint.Proofs.JsoncParts
import SliceLint.Proofs.InsertedComments
import SliceLint.Proofs.AliasIdempotence
import SliceLint.Proofs.ResolvedAliases
import SliceLint.Proofs.EscapeCorrection
import SliceLint.Proofs.FileOrder
import SliceLint.Proofs.PathLaws
import SliceLint.Proofs.SliceIdentity
import SliceLint.Proofs.Steps
import SliceLint.Proofs.Traversal
import SliceLint.Proofs.Loading
