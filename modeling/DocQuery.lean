import DocQuery.Builtin
import DocQuery.Command
import DocQuery.CommandLine
import DocQuery.Decimal
import DocQuery.Double.Basic
import DocQuery.Double.Rounding
import DocQuery.Double.Shortest
import DocQuery.Engine
import DocQuery.Error
import DocQuery.Fetch.Join
import DocQuery.Fetch.Response
import DocQuery.Fetch.Spec
import DocQuery.Fields
import DocQuery.Json.Basic
import DocQuery.Json.Layout
import DocQuery.Json.Printer
import DocQuery.Json.Reader
import DocQuery.Main
import DocQuery.Match
import DocQuery.Operator
import DocQuery.Path
import DocQuery.Pattern.Basic
import DocQuery.Pattern.ByteRange
import DocQuery.Pattern.CharRanges
import DocQuery.Pattern.CharSet
import DocQuery.Pattern.Normal
import DocQuery.Pattern.Reader
import DocQuery.Pattern.Storage
import DocQuery.Plan.Naming
import DocQuery.Plan.Operation
import DocQuery.Plan.Planner
import DocQuery.Plan.Printer
import DocQuery.Plan.Traversal
import DocQuery.Query
import DocQuery.Reference
import DocQuery.Scope
import DocQuery.Session
import DocQuery.Store.Clause
import DocQuery.Store.Collection
import DocQuery.Store.Pushdown
import DocQuery.Store.Selector
import DocQuery.Store.StoreQuery
import DocQuery.Syntax.Kind
import DocQuery.Syntax.Node
import DocQuery.Syntax.Printer
import DocQuery.Syntax.Reader
import DocQuery.Text.Blank
import DocQuery.Text.Case
import DocQuery.Text.CaseTables
import DocQuery.Text.Numeral
import DocQuery.Text.Ranges
import DocQuery.Text.WordTables
import DocQuery.Value.Basic
import DocQuery.Value.Compare
import DocQuery.Value.Json
import DocQuery.Value.Order
import DocQuery.Window
import DocQuery.Proofs.Engine.Yields
import DocQuery.Proofs.Store.Document
import DocQuery.Proofs.Value.Comparison
import DocQuery.Proofs.Store.Clause
import DocQuery.Proofs.Engine.Exec
import DocQuery.Proofs.Store.Operand
import DocQuery.Proofs.Store.Filter
import DocQuery.Proofs.Pattern.Matching
import DocQuery.Proofs.Store.PathPattern
import DocQuery.Proofs.Store.Translation
import DocQuery.Proofs.Store.Containment
import DocQuery.Proofs.Value.Sorting
import DocQuery.Proofs.Value.SortKeys
import DocQuery.Proofs.Value.Lexicographic
import DocQuery.Proofs.Engine.Local
import DocQuery.Proofs.Engine.Stages
import DocQuery.Proofs.Fetch.Window
import DocQuery.Proofs.Fetch.Overflow
import DocQuery.Proofs.Fetch.Nesting
import DocQuery.Proofs.Engine.Ordering
import DocQuery.Proofs.Engine.Keyed
import DocQuery.Proofs.Fetch.Pushdown
import DocQuery.Proofs.Fetch.Documents
import DocQuery.Proofs.Store.Windows
import DocQuery.Proofs.Store.Sorting
import DocQuery.Proofs.Store.Answer
import DocQuery.Proofs.Query.Pushdown
import DocQuery.Proofs.Plan.Scoping
import DocQuery.Proofs.Engine.References
import DocQuery.Proofs.Store.Ids
import DocQuery.Proofs.Query.Projection
import DocQuery.Proofs.Plan.Sources
import DocQuery.Proofs.Query.Dereference
import DocQuery.Proofs.Engine.Correlated
import DocQuery.Proofs.Join.Filter
import DocQuery.Proofs.Join.Widening
import DocQuery.Proofs.Join.Clause
import DocQuery.Proofs.Engine.Nested
import DocQuery.Proofs.Join.Fetch
import DocQuery.Proofs.Query.Elements
import DocQuery.Proofs.Store.References
import DocQuery.Proofs.Query.Selection
import DocQuery.Proofs.Query.Joined
import DocQuery.Proofs.Query.Chain
import DocQuery.Proofs.Query.Linked
import DocQuery.Proofs.Query.Following
import DocQuery.Proofs.Query.Chained
import DocQuery.Proofs.Plan.Features
import DocQuery.Proofs.Engine.Paired
import DocQuery.Proofs.Engine.Fetching
import DocQuery.Proofs.Query.Fetching
import DocQuery.Proofs.Engine.Quiet
import DocQuery.Proofs.Query.Hidden
import DocQuery.Proofs.Join.Siblings
import DocQuery.Proofs.Fetch.Cuts
import DocQuery.Proofs.Join.Unwidened
import DocQuery.Proofs.Query.Subquery
import DocQuery.Proofs.Query.Unwidened
import DocQuery.Proofs.Store.Inserts
import DocQuery.Proofs.Store.Index
import DocQuery.Proofs.Engine.Dialogue
import DocQuery.Proofs.Engine.Inquiries
import DocQuery.Proofs.Engine.Secluded
import DocQuery.Proofs.Query.Permission
import DocQuery.Proofs.Plan.Copies
import DocQuery.Proofs.Match.Search
import DocQuery.Proofs.Match.Assignment
import DocQuery.Proofs.Value.Rounding
import DocQuery.Proofs.Value.Decimals
import DocQuery.Proofs.Value.Approximation
import DocQuery.Proofs.Value.Circles
import DocQuery.Proofs.Syntax.RoundTrip
import DocQuery.Proofs.Engine.Failures
import DocQuery.Proofs.Store.Undecided
import DocQuery.Proofs.Store.Uncompiled
import DocQuery.Proofs.Text.Words
import DocQuery.Proofs.Pattern.Wildcard
import DocQuery.Proofs.Store.Search
import DocQuery.Proofs.Query.Refused
import DocQuery.Proofs.Engine.Uncut
import DocQuery.Proofs.Engine.Scans
import DocQuery.Proofs.Query.Subscripts
import DocQuery.Proofs.Query.Computed
import DocQuery.Proofs.Store.Missing
import DocQuery.Proofs.Query.Sifted
import DocQuery.Proofs.Query.Links
import DocQuery.Proofs.Plan.Sameness
import DocQuery.Proofs.Join.Conditions
import DocQuery.Proofs.Store.Naming
import DocQuery.Proofs.Query.Patterns
import DocQuery.Proofs.Value.Parts
import DocQuery.Proofs.Value.Markers
import DocQuery.Proofs.Plan.Parameters
import DocQuery.Proofs.Value.Encoding
import DocQuery.Proofs.Store.Flipped
import DocQuery.Proofs.Text.Covering
import DocQuery.Proofs.Join.Located
import DocQuery.Proofs.Fetch.Positions
import DocQuery.Proofs.Plan.Naming
