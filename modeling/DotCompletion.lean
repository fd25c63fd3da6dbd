import DotCompletion.CommandLine.Command
import DotCompletion.CommandLine.Flags
import DotCompletion.CommandLine.LinePosition
import DotCompletion.CommandLine.Program
import DotCompletion.Completion.Candidate
import DotCompletion.Completion.Proposal
import DotCompletion.Completion.Request
import DotCompletion.Completion.Resolution
import DotCompletion.Editor.CompletionItem
import DotCompletion.Editor.NumericHost
import DotCompletion.Editor.Server
import DotCompletion.Editor.Uri
import DotCompletion.Editor.Workspace
import DotCompletion.Grammar.Form
import DotCompletion.Grammar.Look
import DotCompletion.Grammar.Rules
import DotCompletion.Grammar.Run
import DotCompletion.Main
import DotCompletion.Node.Basic
import DotCompletion.Node.Json
import DotCompletion.Node.Kind
import DotCompletion.Node.Render
import DotCompletion.Reading
import DotCompletion.Settings.BuiltIn
import DotCompletion.Settings.Files
import DotCompletion.Settings.Format
import DotCompletion.Settings.FromToml
import DotCompletion.Settings.FromYaml
import DotCompletion.Settings.Load
import DotCompletion.Source.Offset
import DotCompletion.Source.Position
import DotCompletion.Source.Units
import DotCompletion.Template.Basic
import DotCompletion.Template.Expansion
import DotCompletion.Text.Base64
import DotCompletion.Text.Blank
import DotCompletion.Text.Bytes
import DotCompletion.Text.Decimal
import DotCompletion.Text.Json
import DotCompletion.Text.Letter
import DotCompletion.Text.Path
import DotCompletion.Text.Printable
import DotCompletion.Text.Quoted
import DotCompletion.Text.Utf8
import DotCompletion.Token.Kind
import DotCompletion.Token.Scan
import DotCompletion.Token.Stream
import DotCompletion.Token.Word
import DotCompletion.Toml.Text
import DotCompletion.Toml.Value
import DotCompletion.Tree.Basic
import DotCompletion.Tree.Query
import DotCompletion.Tree.Render
import DotCompletion.Typing.Inference
import DotCompletion.Typing.Scope
import DotCompletion.Typing.StaticType
import DotCompletion.Yaml.Cursor
import DotCompletion.Yaml.Encoding
import DotCompletion.Yaml.Meaning
import DotCompletion.Yaml.Number
import DotCompletion.Yaml.Property
import DotCompletion.Yaml.Scalar
import DotCompletion.Yaml.Token
import DotCompletion.Yaml.Value
import DotCompletion.Proofs.Grammar.Reads
import DotCompletion.Proofs.Grammar.Progress
import DotCompletion.Proofs.Grammar.Termination
import DotCompletion.Proofs.Token.Reading
import DotCompletion.Proofs.Node.Yield
import DotCompletion.Proofs.Grammar.Outline
import DotCompletion.Proofs.Grammar.WholeInput
import DotCompletion.Proofs.Grammar.Sessions
import DotCompletion.Proofs.Source.Places
import DotCompletion.Proofs.Token.Placement
import DotCompletion.Proofs.Grammar.Layout
import DotCompletion.Proofs.Tree.Rows
import DotCompletion.Proofs.Tree.Numbering
import DotCompletion.Proofs.Tree.Flattening
import DotCompletion.Proofs.Completion.Resolving
import DotCompletion.Proofs.Completion.TemplateName
import DotCompletion.Proofs.Grammar.Names
import DotCompletion.Proofs.Grammar.Openings
import DotCompletion.Proofs.Token.Boundary
import DotCompletion.Proofs.Completion.ReplaceRange
import DotCompletion.Proofs.Grammar.LastOperand
import DotCompletion.Proofs.Grammar.Replacement
import DotCompletion.Proofs.Grammar.Losses
import DotCompletion.Proofs.Tree.LeafOrder
import DotCompletion.Proofs.Grammar.Formed
import DotCompletion.Proofs.Grammar.Semicolons
import DotCompletion.Proofs.Completion.Shapes
import DotCompletion.Proofs.Token.Spaced
import DotCompletion.Proofs.Grammar.Sketch
import DotCompletion.Proofs.Expression.Basic
import DotCompletion.Proofs.Expression.Lookahead
import DotCompletion.Proofs.Expression.RoundTrip
import DotCompletion.Proofs.Token.LastWord
import DotCompletion.Proofs.Grammar.Alternatives
import DotCompletion.Proofs.Grammar.LastStatement
import DotCompletion.Proofs.Completion.Sites
import DotCompletion.Proofs.Completion.Agreement
import DotCompletion.Proofs.Token.Tiling
import DotCompletion.Proofs.Grammar.Unplaced
import DotCompletion.Proofs.Completion.Unplaced
import DotCompletion.Proofs.Text.Pieces
import DotCompletion.Proofs.Token.Seams
import DotCompletion.Proofs.Grammar.Making
import DotCompletion.Proofs.Grammar.Edges
import DotCompletion.Proofs.Source.Units
import DotCompletion.Proofs.Editor.Edits
import DotCompletion.Proofs.Editor.Documents
import DotCompletion.Proofs.Editor.Startup
import DotCompletion.Proofs.Grammar.Skims
import DotCompletion.Proofs.Grammar.Braces
import DotCompletion.Proofs.Grammar.Around
import DotCompletion.Proofs.Grammar.Containment
import DotCompletion.Proofs.Tree.Positions
import DotCompletion.Proofs.Typing.Termination
import DotCompletion.Proofs.WrittenType.RoundTrip
import DotCompletion.Proofs.Tree.LeafSearch
import DotCompletion.Proofs.Completion.Statements
import DotCompletion.Proofs.Completion.NameAlone
import DotCompletion.Proofs.Grammar.Beginnings
import DotCompletion.Proofs.Grammar.Joints
import DotCompletion.Proofs.Token.Between
import DotCompletion.Proofs.Completion.Chain
import DotCompletion.Proofs.Template.Offers
import DotCompletion.Proofs.Template.Validation
import DotCompletion.Proofs.Grammar.TypeParts
import DotCompletion.Proofs.Tree.Exchange
import DotCompletion.Proofs.Typing.Isolation
import DotCompletion.Proofs.Source.Lines
import DotCompletion.Proofs.Source.Columns
import DotCompletion.Proofs.Grammar.Precedence
import DotCompletion.Proofs.Typing.Layout
import DotCompletion.Proofs.Token.QuotedText
import DotCompletion.Proofs.Token.Numerals
import DotCompletion.Proofs.Typing.Numerals
import DotCompletion.Proofs.Grammar.SkimmedTypes
import DotCompletion.Proofs.Grammar.TakenNames
import DotCompletion.Proofs.Grammar.SpanRows
import DotCompletion.Proofs.Grammar.Stances
import DotCompletion.Proofs.Grammar.Nesting
import DotCompletion.Proofs.Text.Encoding
import DotCompletion.Proofs.Template.Escaping
import DotCompletion.Proofs.Tree.Listing
import DotCompletion.Proofs.Completion.RightEdge
import DotCompletion.Proofs.Completion.TypableNames
import DotCompletion.Proofs.WrittenType.Erasure
