import ApiCatalog.Catalog.Basic
import ApiCatalog.Catalog.Document
import ApiCatalog.Catalog.Html
import ApiCatalog.Catalog.Search
import ApiCatalog.Catalog.Stats
import ApiCatalog.Catalog.Storage
import ApiCatalog.CommandLine.Arguments
import ApiCatalog.CommandLine.Options
import ApiCatalog.CommandLine.Run
import ApiCatalog.Config.Basic
import ApiCatalog.Config.Document
import ApiCatalog.Decimal.Shortest
import ApiCatalog.Extract.Annotated
import ApiCatalog.Extract.Controller
import ApiCatalog.Extract.Docs
import ApiCatalog.Extract.Extractor
import ApiCatalog.Extract.Framework
import ApiCatalog.Extract.Language
import ApiCatalog.Extract.Registry
import ApiCatalog.Extract.Specification
import ApiCatalog.Files.Path
import ApiCatalog.Files.Tree
import ApiCatalog.Hash.XXH3
import ApiCatalog.Ignore.Glob
import ApiCatalog.Ignore.Rules
import ApiCatalog.Ignore.Scope
import ApiCatalog.Json.Decode
import ApiCatalog.Json.Doc
import ApiCatalog.Json.Number
import ApiCatalog.Json.Print
import ApiCatalog.Json.Token
import ApiCatalog.Json.Value
import ApiCatalog.Main
import ApiCatalog.Proofs.Catalog.Arranged
import ApiCatalog.Proofs.Catalog.Document
import ApiCatalog.Proofs.Catalog.Search
import ApiCatalog.Proofs.Catalog.Stats
import ApiCatalog.Proofs.Catalog.Storage
import ApiCatalog.Proofs.Catalog.Verbatim
import ApiCatalog.Proofs.CommandLine.Files
import ApiCatalog.Proofs.CommandLine.Rows
import ApiCatalog.Proofs.Decimal.Binary
import ApiCatalog.Proofs.Decimal.FloatText
import ApiCatalog.Proofs.Decimal.Numeral
import ApiCatalog.Proofs.Decimal.Rounding
import ApiCatalog.Proofs.Decimal.Shortest
import ApiCatalog.Proofs.Extract.Appended
import ApiCatalog.Proofs.Extract.Blocks
import ApiCatalog.Proofs.Extract.Claims
import ApiCatalog.Proofs.Extract.Classes
import ApiCatalog.Proofs.Extract.Decorators
import ApiCatalog.Proofs.Extract.Documented
import ApiCatalog.Proofs.Extract.Ending
import ApiCatalog.Proofs.Extract.Entry
import ApiCatalog.Proofs.Extract.Express
import ApiCatalog.Proofs.Extract.Flask
import ApiCatalog.Proofs.Extract.Indicators
import ApiCatalog.Proofs.Extract.Methods
import ApiCatalog.Proofs.Extract.Opaque
import ApiCatalog.Proofs.Extract.Operations
import ApiCatalog.Proofs.Extract.Overlap
import ApiCatalog.Proofs.Extract.Shape
import ApiCatalog.Proofs.Extract.Spelling
import ApiCatalog.Proofs.Extract.Tags
import ApiCatalog.Proofs.Extract.Version
import ApiCatalog.Proofs.Files.Lookup
import ApiCatalog.Proofs.Files.Path
import ApiCatalog.Proofs.Files.Put
import ApiCatalog.Proofs.Files.Write
import ApiCatalog.Proofs.Html.Escape
import ApiCatalog.Proofs.Html.Filter
import ApiCatalog.Proofs.Html.Reader
import ApiCatalog.Proofs.Html.Reading
import ApiCatalog.Proofs.Html.Shape
import ApiCatalog.Proofs.Html.Tags
import ApiCatalog.Proofs.Html.Template
import ApiCatalog.Proofs.Json.Arranged
import ApiCatalog.Proofs.Json.NumberText
import ApiCatalog.Proofs.Json.Printed
import ApiCatalog.Proofs.Json.Record
import ApiCatalog.Proofs.Json.Reread
import ApiCatalog.Proofs.Json.Sound
import ApiCatalog.Proofs.List.First
import ApiCatalog.Proofs.List.Places
import ApiCatalog.Proofs.Regex.Groups
import ApiCatalog.Proofs.Regex.Leftmost
import ApiCatalog.Proofs.Regex.Reads
import ApiCatalog.Proofs.Regex.Search
import ApiCatalog.Proofs.Regex.Words
import ApiCatalog.Proofs.Routes.Passage
import ApiCatalog.Proofs.Routes.Table
import ApiCatalog.Proofs.Routes.Verbs
import ApiCatalog.Proofs.Scan.Calls
import ApiCatalog.Proofs.Scan.Entries
import ApiCatalog.Proofs.Scan.Heedless
import ApiCatalog.Proofs.Scan.Isolation
import ApiCatalog.Proofs.Scan.Listing
import ApiCatalog.Proofs.Scan.Pruned
import ApiCatalog.Proofs.Scan.Saved
import ApiCatalog.Proofs.Scan.Stored
import ApiCatalog.Proofs.Scan.Surroundings
import ApiCatalog.Proofs.Scan.Walk
import ApiCatalog.Proofs.Text.Capitals
import ApiCatalog.Proofs.Text.Cut
import ApiCatalog.Proofs.Text.Digits
import ApiCatalog.Proofs.Text.Lines
import ApiCatalog.Proofs.Text.Lower
import ApiCatalog.Proofs.Text.Sigma
import ApiCatalog.Proofs.Time.Calendar
import ApiCatalog.Proofs.Time.Reading
import ApiCatalog.Proofs.Yaml.Alike
import ApiCatalog.Proofs.Yaml.Document
import ApiCatalog.Proofs.Yaml.Flow
import ApiCatalog.Proofs.Yaml.Keys
import ApiCatalog.Proofs.Yaml.Node
import ApiCatalog.Proofs.Yaml.Numeral
import ApiCatalog.Proofs.Yaml.Respelled
import ApiCatalog.Proofs.Yaml.Scalar
import ApiCatalog.Proofs.Yaml.Sound
import ApiCatalog.Proofs.Yaml.Written
import ApiCatalog.Regex.Basic
import ApiCatalog.Regex.Match
import ApiCatalog.Regex.Pattern
import ApiCatalog.Routes.Table
import ApiCatalog.Scan.Basic
import ApiCatalog.Scan.Calls
import ApiCatalog.Scan.Walk
import ApiCatalog.Text.Basic
import ApiCatalog.Text.Case
import ApiCatalog.Text.CaseTable
import ApiCatalog.Text.CodeRange
import ApiCatalog.Text.Utf8
import ApiCatalog.Text.Word
import ApiCatalog.Text.WordTable
import ApiCatalog.Time.Instant
import ApiCatalog.Toml.Document
import ApiCatalog.Toml.Scalar
import ApiCatalog.Toml.Table
import ApiCatalog.Yaml.Event
import ApiCatalog.Yaml.Scalar
import ApiCatalog.Yaml.Source
import ApiCatalog.Yaml.Token
import ApiCatalog.Yaml.Value
