import ElmLint.Breakdown
import ElmLint.Checker
import ElmLint.CommandLine
import ElmLint.CommandLine.Reader
import ElmLint.CommandLine.Spec
import ElmLint.Config
import ElmLint.Cursor
import ElmLint.Diagnostic
import ElmLint.Failure
import ElmLint.FileTree
import ElmLint.Grammar.Basic
import ElmLint.Grammar.Expr
import ElmLint.Grammar.Module
import ElmLint.Grammar.Pattern
import ElmLint.Grammar.Type
import ElmLint.IgnoredError
import ElmLint.Json.Reader
import ElmLint.Json.Value
import ElmLint.Json.Writer
import ElmLint.Layout
import ElmLint.Lexeme
import ElmLint.Log
import ElmLint.Lookup
import ElmLint.Main
import ElmLint.Manifest
import ElmLint.Manifest.Json
import ElmLint.Number.Binary64
import ElmLint.Number.Decimal
import ElmLint.OrderedMap
import ElmLint.Parse
import ElmLint.Peg
import ElmLint.Position
import ElmLint.Project
import ElmLint.Run
import ElmLint.Scope
import ElmLint.Session
import ElmLint.SourceFile
import ElmLint.Suppression
import ElmLint.Syntax.Declaration
import ElmLint.Syntax.Expr
import ElmLint.Syntax.Json
import ElmLint.Syntax.Kind
import ElmLint.Syntax.Literal
import ElmLint.Syntax.Module
import ElmLint.Syntax.Pattern
import ElmLint.Syntax.PlacedLiteral
import ElmLint.Syntax.TypeExpr
import ElmLint.Text.CharClass
import ElmLint.Text.CodePoint
import ElmLint.Text.Digit
import ElmLint.Text.Glob
import ElmLint.Text.Order
import ElmLint.Text.Printable
import ElmLint.Text.Quoted
import ElmLint.Text.Space
import ElmLint.Text.Utf8
import ElmLint.Text.Word
import ElmLint.Token
import ElmLint.Proofs.Lexeme
import ElmLint.Proofs.Peg
import ElmLint.Proofs.PegFuel
import ElmLint.Proofs.Apart
import ElmLint.Proofs.GrammarFuel
import ElmLint.Proofs.GrammarReferences
import ElmLint.Proofs.IgnoredError
import ElmLint.Proofs.Project
import ElmLint.Proofs.BlockTree
import ElmLint.Proofs.OffSide
import ElmLint.Proofs.Manifest
import ElmLint.Proofs.Scope
import ElmLint.Proofs.Independence
import ElmLint.Proofs.FindingText
import ElmLint.Proofs.LaidPieces
import ElmLint.Proofs.Solid
import ElmLint.Proofs.Agreement
import ElmLint.Proofs.GrammarAgreement
import ElmLint.Proofs.ModuleAgreement
import ElmLint.Proofs.TokensDecide
import ElmLint.Proofs.BlockMarkers
import ElmLint.Proofs.Suppression
import ElmLint.Proofs.Visibility
import ElmLint.Proofs.Loading
import ElmLint.Proofs.Rendering
import ElmLint.Proofs.FirstCharacter
import ElmLint.Proofs.Takes
import ElmLint.Proofs.Spaced
import ElmLint.Proofs.WrittenNames
import ElmLint.Proofs.WrittenLiterals
import ElmLint.Proofs.Bare
import ElmLint.Proofs.WrittenPatterns
import ElmLint.Proofs.WrittenExprs
import ElmLint.Proofs.WordTokens
import ElmLint.Proofs.LaidWords
import ElmLint.Proofs.LaidExprs
import ElmLint.Proofs.LaidRendering
import ElmLint.Proofs.RoundTrip
import ElmLint.Proofs.Resolution
import ElmLint.Proofs.Insertions
import ElmLint.Proofs.SeenOrder
import ElmLint.Proofs.GrammarNesting
import ElmLint.Proofs.SelectedText
import ElmLint.Proofs.Partition
import ElmLint.Proofs.Blanking
import ElmLint.Proofs.Dashes
import ElmLint.Proofs.Walks
import ElmLint.Proofs.EmptyItems
import ElmLint.Proofs.PatternRoundTrip
import ElmLint.Proofs.GrammarShapes
import ElmLint.Proofs.Directive
import ElmLint.Proofs.Spelling
import ElmLint.Proofs.StopPlace
import ElmLint.Proofs.QuotedTokens
import ElmLint.Proofs.LiteralTokens
import ElmLint.Proofs.FilePatterns
import ElmLint.Proofs.JsonValue
import ElmLint.Proofs.ManifestJson
import ElmLint.Proofs.Settings
import ElmLint.Proofs.RunResults
import ElmLint.Proofs.Digits
import ElmLint.Proofs.OrderedMap
import ElmLint.Proofs.Merging
import ElmLint.Proofs.RegistryHistory
import ElmLint.Proofs.JsonRoundTrip
import ElmLint.Proofs.JsonLines
import ElmLint.Proofs.WrittenTypes
import ElmLint.Proofs.TypeRoundTrip
import ElmLint.Proofs.Signatures
import ElmLint.Proofs.BlockComments
