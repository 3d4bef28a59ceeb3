import StrictJson.Calendar
import StrictJson.Codec
import StrictJson.CommandLine.Arguments
import StrictJson.CommandLine.Directory
import StrictJson.CommandLine.Help
import StrictJson.CommandLine.Run
import StrictJson.Datum
import StrictJson.Datum.Tree
import StrictJson.Document.Lexeme
import StrictJson.Document.Machine
import StrictJson.Document.Parser
import StrictJson.Document.Progress
import StrictJson.Document.Rejection
import StrictJson.Failure
import StrictJson.Index
import StrictJson.Kind
import StrictJson.Main
import StrictJson.Members
import StrictJson.Number.Arithmetic
import StrictJson.Number.Binary64
import StrictJson.Number.Decimal
import StrictJson.Number.Reading
import StrictJson.Number.Text
import StrictJson.Options
import StrictJson.Options.File
import StrictJson.Options.Libraries
import StrictJson.Options.Validation
import StrictJson.Proofs.CommandLine.Configuration
import StrictJson.Proofs.CommandLine.EndToEnd
import StrictJson.Proofs.CommandLine.Settings
import StrictJson.Proofs.Datum.Conversion
import StrictJson.Proofs.Datum.Graph
import StrictJson.Proofs.Datum.NormalForm
import StrictJson.Proofs.Datum.Tree
import StrictJson.Proofs.DepthFirst
import StrictJson.Proofs.Document.Brackets
import StrictJson.Proofs.Document.Classification
import StrictJson.Proofs.Document.Completeness
import StrictJson.Proofs.Document.Continuation
import StrictJson.Proofs.Document.Depth
import StrictJson.Proofs.Document.DepthLimit
import StrictJson.Proofs.Document.Descent
import StrictJson.Proofs.Document.Descent.Discipline
import StrictJson.Proofs.Document.Descent.Lexemes
import StrictJson.Proofs.Document.Descent.Logic
import StrictJson.Proofs.Document.Descent.Values
import StrictJson.Proofs.Document.Escapes
import StrictJson.Proofs.Document.Grammar
import StrictJson.Proofs.Document.Integers
import StrictJson.Proofs.Document.Language
import StrictJson.Proofs.Document.Literals
import StrictJson.Proofs.Document.Lookahead
import StrictJson.Proofs.Document.Meaning
import StrictJson.Proofs.Document.Moves
import StrictJson.Proofs.Document.NumberText
import StrictJson.Proofs.Document.Numerals
import StrictJson.Proofs.Document.Rejections
import StrictJson.Proofs.Document.Runs
import StrictJson.Proofs.Document.Scanners
import StrictJson.Proofs.Document.Soundness
import StrictJson.Proofs.Document.Tokens
import StrictJson.Proofs.Document.Trace
import StrictJson.Proofs.Document.ViablePrefix
import StrictJson.Proofs.Document.Writing
import StrictJson.Proofs.Members
import StrictJson.Proofs.Members.History
import StrictJson.Proofs.Number.Closeness
import StrictJson.Proofs.Number.Range
import StrictJson.Proofs.Number.Rounding
import StrictJson.Proofs.Number.Shortest
import StrictJson.Proofs.Options.Bounds
import StrictJson.Proofs.Options.File
import StrictJson.Proofs.Session.Comparison
import StrictJson.Proofs.Session.Containers
import StrictJson.Proofs.Session.InPlace
import StrictJson.Proofs.Session.Independence
import StrictJson.Proofs.Session.Invariant
import StrictJson.Proofs.Session.Layout
import StrictJson.Proofs.Session.Locality
import StrictJson.Proofs.Session.Membership
import StrictJson.Proofs.Session.PlainData
import StrictJson.Proofs.Session.Programs
import StrictJson.Proofs.Session.RoundTrip
import StrictJson.Proofs.Session.Sketch
import StrictJson.Proofs.Session.Walks
import StrictJson.Proofs.Store.Access
import StrictJson.Proofs.Store.Comparison
import StrictJson.Proofs.Store.Construction
import StrictJson.Proofs.Store.Edits
import StrictJson.Proofs.Store.Failures
import StrictJson.Proofs.Store.Freshness
import StrictJson.Proofs.Store.Graph
import StrictJson.Proofs.Store.Links
import StrictJson.Proofs.Store.Loading
import StrictJson.Proofs.Store.Locality
import StrictJson.Proofs.Store.Outline
import StrictJson.Proofs.Store.Symmetry
import StrictJson.Proofs.Store.Unfolding
import StrictJson.Proofs.Store.Walks
import StrictJson.Proofs.Store.WellFormed
import StrictJson.Proofs.Text.Encoding
import StrictJson.Proofs.Text.Masks
import StrictJson.Proofs.Text.Validity
import StrictJson.Proofs.Traversal
import StrictJson.Proofs.Tree
import StrictJson.Proofs.Tree.Layout
import StrictJson.Proofs.Tree.Matching
import StrictJson.Proofs.Tree.Tokens
import StrictJson.Report
import StrictJson.Runtime
import StrictJson.Session
import StrictJson.Store
import StrictJson.Store.Access
import StrictJson.Store.Conversion
import StrictJson.Store.Copy
import StrictJson.Store.Equality
import StrictJson.Store.Sketch
import StrictJson.Store.Writer
import StrictJson.Text.Base64
import StrictJson.Text.CodePoint
import StrictJson.Text.Digit
import StrictJson.Text.Displayed
import StrictJson.Text.Escape
import StrictJson.Text.Printable
import StrictJson.Text.Raw
import StrictJson.Text.Utf8
import StrictJson.Tree
import StrictJson.Tree.Printer
import StrictJson.Yaml.Data
import StrictJson.Yaml.Error
import StrictJson.Yaml.Input
import StrictJson.Yaml.Merge
import StrictJson.Yaml.Node
import StrictJson.Yaml.Node.Reader
import StrictJson.Yaml.Scalar
import StrictJson.Yaml.Scanner
import StrictJson.Yaml.Scanner.Block
import StrictJson.Yaml.Scanner.Directive
import StrictJson.Yaml.Scanner.Plain
import StrictJson.Yaml.Scanner.Properties
import StrictJson.Yaml.Scanner.Quoted
import StrictJson.Yaml.Scanner.Tokens
import StrictJson.Yaml.Token
