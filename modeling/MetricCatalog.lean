import MetricCatalog.Text.Utf8
import MetricCatalog.Text.Quoted
import MetricCatalog.Text.Plain
import MetricCatalog.Text.SnakeCase
import MetricCatalog.Decimal.Approximate
import MetricCatalog.Decimal.Notation
import MetricCatalog.Json.Canonical
import MetricCatalog.Json.Render
import MetricCatalog.Json.Fault
import MetricCatalog.Json.Literal
import MetricCatalog.Json.Skip
import MetricCatalog.Vocabulary.Words
import MetricCatalog.Schema.Read
import MetricCatalog.Schema.Wire
import MetricCatalog.Schema.Assign
import MetricCatalog.Request.Catalog
import MetricCatalog.Request.Source
import MetricCatalog.Request.Derived
import MetricCatalog.Request.Metric
import MetricCatalog.Request.Cube
import MetricCatalog.Response.Catalog
import MetricCatalog.Response.Dimension
import MetricCatalog.Response.Namespace
import MetricCatalog.Response.Node
import MetricCatalog.Response.Sql
import MetricCatalog.Inspection.Run
import MetricCatalog.Main
import MetricCatalog.Proofs.Text.Utf8
import MetricCatalog.Proofs.Text.WellFormed
import MetricCatalog.Proofs.Text.Split
import MetricCatalog.Proofs.Json.Steps
import MetricCatalog.Proofs.Json.Tree
import MetricCatalog.Proofs.Json.Outcome
import MetricCatalog.Proofs.Json.Loops
import MetricCatalog.Proofs.Json.Literal
import MetricCatalog.Proofs.Json.Numeral
import MetricCatalog.Proofs.Json.Skip
import MetricCatalog.Proofs.Json.Document
import MetricCatalog.Proofs.Json.Depth
import MetricCatalog.Proofs.Json.AcceptedLoops
import MetricCatalog.Proofs.Json.AcceptedScalars
import MetricCatalog.Proofs.Json.AcceptedSkip
import MetricCatalog.Proofs.Json.Accepted
import MetricCatalog.Proofs.Json.Parse
import MetricCatalog.Proofs.Json.CanonicalForm
import MetricCatalog.Proofs.Json.Notation
import MetricCatalog.Proofs.Json.Integers
import MetricCatalog.Proofs.Json.Rendered
import MetricCatalog.Proofs.Json.Unambiguous
import MetricCatalog.Proofs.Json.Paths
import MetricCatalog.Proofs.Json.Stored
import MetricCatalog.Proofs.Json.Joined
import MetricCatalog.Proofs.Json.Layouts
import MetricCatalog.Proofs.Json.Indentation
import MetricCatalog.Proofs.Json.Members
import MetricCatalog.Proofs.Json.Respelling
import MetricCatalog.Proofs.Json.Cut
import MetricCatalog.Proofs.Json.CutDocument
import MetricCatalog.Proofs.Json.WellFormed
import MetricCatalog.Proofs.Json.Unchecked
import MetricCatalog.Proofs.Json.Checked
import MetricCatalog.Proofs.Schema.Records
import MetricCatalog.Proofs.Schema.Values
import MetricCatalog.Proofs.Schema.OfTree
import MetricCatalog.Proofs.Schema.Reading
import MetricCatalog.Proofs.Schema.Texts
import MetricCatalog.Proofs.Schema.Accepted
import MetricCatalog.Proofs.Schema.Agreement
import MetricCatalog.Proofs.Schema.Insertion
import MetricCatalog.Proofs.Schema.Simulation
import MetricCatalog.Proofs.Schema.Routes
import MetricCatalog.Proofs.Schema.RoundTrip
import MetricCatalog.Proofs.Schema.Encodings
import MetricCatalog.Proofs.Schema.SetToNull
import MetricCatalog.Proofs.Schema.Received
import MetricCatalog.Proofs.Schema.Cut
import MetricCatalog.Proofs.Schema.Extent
import MetricCatalog.Proofs.Schema.Decoded
import MetricCatalog.Proofs.Schema.Room
import MetricCatalog.Proofs.Schema.Wrapped
import MetricCatalog.Proofs.Schema.Respelling
import MetricCatalog.Proofs.Schema.Positions
import MetricCatalog.Proofs.Schema.Found
import MetricCatalog.Proofs.Schema.Taken
import MetricCatalog.Proofs.Schema.Places
import MetricCatalog.Proofs.Schema.Integers
import MetricCatalog.Proofs.Schema.Canonical
import MetricCatalog.Proofs.Schema.Nesting
import MetricCatalog.Proofs.Schema.NullKeys
import MetricCatalog.Proofs.Schema.Injective
import MetricCatalog.Proofs.Schema.Checked
import MetricCatalog.Proofs.Schema.IllFormed
import MetricCatalog.Proofs.Request.Metric
import MetricCatalog.Proofs.Request.Slots
import MetricCatalog.Proofs.Request.Accepted
import MetricCatalog.Proofs.Response.CommonDimensions
import MetricCatalog.Proofs.Response.Shown
import MetricCatalog.Proofs.Vocabulary.Names
import MetricCatalog.Proofs.Vocabulary.Words
import MetricCatalog.Proofs.Inspection.Projection
import MetricCatalog.Proofs.Inspection.Idempotence
import MetricCatalog.Proofs.Inspection.Spelling
import MetricCatalog.Proofs.Inspection.Log
import MetricCatalog.Proofs.Inspection.Reports
import MetricCatalog.Proofs.Inspection.Stages
import MetricCatalog.Proofs.Inspection.Lists
