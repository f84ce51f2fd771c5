import EpcisDigest.Catalog
import EpcisDigest.CommandLine.Arguments
import EpcisDigest.CommandLine.Invocation
import EpcisDigest.Decimal
import EpcisDigest.Digest.Algorithm
import EpcisDigest.Digest.Bytes
import EpcisDigest.Digest.Md2
import EpcisDigest.Digest.Md5
import EpcisDigest.Digest.Sha1
import EpcisDigest.Digest.Sha2
import EpcisDigest.Digest.Sha3
import EpcisDigest.Entries
import EpcisDigest.Event.Canonical
import EpcisDigest.Event.Field
import EpcisDigest.Event.Leaf
import EpcisDigest.Event.Lists
import EpcisDigest.Event.Tree
import EpcisDigest.Hashing
import EpcisDigest.Identifier
import EpcisDigest.Json.EventFields
import EpcisDigest.Json.Feed
import EpcisDigest.Json.Input
import EpcisDigest.Json.Number
import EpcisDigest.Json.Parse
import EpcisDigest.Json.Print
import EpcisDigest.Json.StringText
import EpcisDigest.Json.Value
import EpcisDigest.Main
import EpcisDigest.NameTable
import EpcisDigest.Output
import EpcisDigest.Settings
import EpcisDigest.Source
import EpcisDigest.Text.Blank
import EpcisDigest.Text.Hex
import EpcisDigest.Text.Pieces
import EpcisDigest.Text.Utf8
import EpcisDigest.Time.Date
import EpcisDigest.Time.Instant
import EpcisDigest.Version
import EpcisDigest.Vocabulary
import EpcisDigest.Xml.Builder
import EpcisDigest.Xml.Error
import EpcisDigest.Xml.Step
import EpcisDigest.Xml.Token
import EpcisDigest.Proofs.Json.Spelling
import EpcisDigest.Proofs.Json.StringScan
import EpcisDigest.Proofs.Json.Numeral
import EpcisDigest.Proofs.Json.Written
import EpcisDigest.Proofs.Json.Parsing
import EpcisDigest.Proofs.Json.ParsedText
import EpcisDigest.Proofs.Json.Grammar
import EpcisDigest.Proofs.Json.Measuring
import EpcisDigest.Proofs.Json.Reading
import EpcisDigest.Proofs.Json.Capture
import EpcisDigest.Proofs.Json.SizeLimit
import EpcisDigest.Proofs.Json.Meaning
import EpcisDigest.Proofs.Json.Printing
import EpcisDigest.Proofs.Json.Turns
import EpcisDigest.Proofs.Json.Start
import EpcisDigest.Proofs.Json.QuotedText
import EpcisDigest.Proofs.Json.Walk
import EpcisDigest.Proofs.Json.Document
import EpcisDigest.Proofs.Json.Extraction
import EpcisDigest.Proofs.Sort.Arrangement
import EpcisDigest.Proofs.Sort.Joining
import EpcisDigest.Proofs.Sort.Stability
import EpcisDigest.Proofs.Sort.Mapped
import EpcisDigest.Proofs.Sort.Runs
import EpcisDigest.Proofs.Catalog
import EpcisDigest.Proofs.Event.SiblingOrder
import EpcisDigest.Proofs.Event.Rearranged
import EpcisDigest.Proofs.Event.Alike
import EpcisDigest.Proofs.Event.StandardAlike
import EpcisDigest.Proofs.Event.Lines
import EpcisDigest.Proofs.Event.Arena
import EpcisDigest.Proofs.Event.NodeLines
import EpcisDigest.Proofs.Event.Ranking
import EpcisDigest.Proofs.Event.OfFields
import EpcisDigest.Proofs.Event.Preorder
import EpcisDigest.Proofs.Event.Operations
import EpcisDigest.Proofs.Text.Blank
import EpcisDigest.Proofs.Text.Pieces
import EpcisDigest.Proofs.Identifier.CheckDigit
import EpcisDigest.Proofs.Identifier.Scheme
import EpcisDigest.Proofs.Identifier.Parsing
import EpcisDigest.Proofs.Identifier.Keys
import EpcisDigest.Proofs.Identifier.Distinct
import EpcisDigest.Proofs.Event.EmptyValues
import EpcisDigest.Proofs.Event.Admitted
import EpcisDigest.Proofs.Entries
import EpcisDigest.Proofs.Output
import EpcisDigest.Proofs.Results
import EpcisDigest.Proofs.NameTable
import EpcisDigest.Proofs.Json.Fields
import EpcisDigest.Proofs.Json.MemberOrder
import EpcisDigest.Proofs.Json.Spot
import EpcisDigest.Proofs.Json.Container
import EpcisDigest.Proofs.Json.Numbering
import EpcisDigest.Proofs.Json.Scalars
import EpcisDigest.Proofs.Xml.Content
import EpcisDigest.Proofs.Xml.Document
import EpcisDigest.Proofs.Excluded
import EpcisDigest.Proofs.Abstract.Event
import EpcisDigest.Proofs.Abstract.Elements
import EpcisDigest.Proofs.Abstract.Agreement
import EpcisDigest.Proofs.Event.Renamed
import EpcisDigest.Proofs.Event.Layout
import EpcisDigest.Proofs.Event.Placement
import EpcisDigest.Proofs.Event.FieldPaths
import EpcisDigest.Proofs.Event.SiblingLines
import EpcisDigest.Proofs.Event.NodeRecursion
import EpcisDigest.Proofs.Json.Consumed
import EpcisDigest.Proofs.Json.Demand
import EpcisDigest.Proofs.Json.Context
import EpcisDigest.Proofs.Json.Unreadable
import EpcisDigest.Proofs.Json.BareEvent
import EpcisDigest.Proofs.Json.Results
import EpcisDigest.Proofs.Json.Resuming
import EpcisDigest.Proofs.Json.Interrupted
import EpcisDigest.Proofs.Json.Shifted
import EpcisDigest.Proofs.Json.Ending
import EpcisDigest.Proofs.Abstract.Numbers
import EpcisDigest.Proofs.Xml.Lexing
import EpcisDigest.Proofs.Xml.Reading
import EpcisDigest.Proofs.Xml.CharacterData
import EpcisDigest.Proofs.Xml.Asides
import EpcisDigest.Proofs.Xml.Insertion
import EpcisDigest.Proofs.Xml.Leading
import EpcisDigest.Proofs.Xml.Wrapped
import EpcisDigest.Proofs.Xml.Declared
import EpcisDigest.Proofs.Xml.Sharing
import EpcisDigest.Proofs.Builders
import EpcisDigest.Proofs.CommandLine.Reporting
import EpcisDigest.Proofs.CommandLine.Detection
import EpcisDigest.Proofs.Decimal
import EpcisDigest.Proofs.Settings
import EpcisDigest.Proofs.Time.Calendar
import EpcisDigest.Proofs.Time.Written
import EpcisDigest.Proofs.Time.Reading
import EpcisDigest.Proofs.Time.Moment
import EpcisDigest.Proofs.Time.Normal
import EpcisDigest.Proofs.Event.Terms
import EpcisDigest.Proofs.CommandLine.Printed
