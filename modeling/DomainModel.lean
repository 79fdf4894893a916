import DomainModel.Text.Blank
import DomainModel.Text.Pieces
import DomainModel.Name.Identifier
import DomainModel.Name.Qualified
import DomainModel.Name.Segments
import DomainModel.Name.Beginnings
import DomainModel.Ordered
import DomainModel.Address
import DomainModel.Cardinality
import DomainModel.BuiltIn
import DomainModel.Tag
import DomainModel.Tag.Grouped
import DomainModel.Tag.Run
import DomainModel.Observation
import DomainModel.Report
import DomainModel.Writer
import DomainModel.Writer.Pieces
import DomainModel.Universe
import DomainModel.Lookup.Type
import DomainModel.Lookup.Store
import DomainModel.Symbol.Children
import DomainModel.Document
import DomainModel.Document.Stored
import DomainModel.Source
import DomainModel.Source.Walk
import DomainModel.Source.Visitor
import DomainModel.Scope
import DomainModel.Scope.Search
import DomainModel.Group
import DomainModel.Group.Stack
import DomainModel.Group.Pass
import DomainModel.Table
import DomainModel.Table.Declared
import DomainModel.Table.Search
import DomainModel.Rules
import DomainModel.Rules.Inspector
import DomainModel.Table.Passing
import DomainModel.Rules.Passing
import DomainModel.Symbol
import DomainModel.Symbol.Tree
import DomainModel.Symbol.Placed
import DomainModel.Graph
import DomainModel.Graph.Builder
import DomainModel.Graph.Visitor
import DomainModel.Graph.Methods
import DomainModel.Graph.Trace
import DomainModel.Graph.Session
import DomainModel.Summary
import DomainModel.Summary.Printer
import DomainModel.Compile
import DomainModel.Compile.Steps
import DomainModel.LineFormat
import DomainModel.Proofs.Source.Place
import DomainModel.Proofs.Group.Partition
import DomainModel.Proofs.Table.Defined
import DomainModel.Proofs.Table.Chain
import DomainModel.Proofs.Table.Meaning
import DomainModel.Proofs.Rules.Node
import DomainModel.Proofs.Rules.Accepted
import DomainModel.Proofs.Rules.Extended
import DomainModel.Proofs.Symbol.Located
import DomainModel.Proofs.Symbol.Origin
import DomainModel.Proofs.Graph.Forest
import DomainModel.Proofs.Graph.Building
import DomainModel.Proofs.Graph.Index
import DomainModel.Proofs.Graph.Reading
import DomainModel.Proofs.Graph.Bound
import DomainModel.Proofs.Graph.Void
import DomainModel.Proofs.Graph.Bases
import DomainModel.Group.Index
import DomainModel.Proofs.Group.Indexed
import DomainModel.Proofs.Source.Order
import DomainModel.Proofs.Group.Merge
import DomainModel.Proofs.Table.Collected
import DomainModel.Proofs.Rules.Inspected
import DomainModel.Proofs.Graph.Part
import DomainModel.Proofs.Tag.Grouping
import DomainModel.Proofs.Graph.Image
import DomainModel.Proofs.Graph.Naming
import DomainModel.Proofs.Rules.Rescoped
import DomainModel.Proofs.Symbol.Rescoped
import DomainModel.Proofs.Symbol.Stripped
import DomainModel.Proofs.Compile.Reordered
import DomainModel.Proofs.Graph.Alike
import DomainModel.Proofs.Compile.Extended
import DomainModel.Proofs.Compile.Refused
import DomainModel.Proofs.Compile.Blocks
import DomainModel.Proofs.Compile.Flattening
import DomainModel.Proofs.Compile.Splitting
import DomainModel.Proofs.Text.Runs
import DomainModel.Proofs.Text.Written
import DomainModel.Proofs.Graph.Level
import DomainModel.Proofs.Summary.Lines
import DomainModel.Proofs.Summary.Legible
import DomainModel.Proofs.Summary.Unique
import DomainModel.Proofs.Lookup.Read
import DomainModel.Proofs.Lookup.Refused
import DomainModel.Proofs.Lookup.Sequence
import DomainModel.Proofs.Graph.Methods
import DomainModel.Proofs.Graph.Visits
import DomainModel.Proofs.Graph.Delegated
import DomainModel.Proofs.Document.Stored
import DomainModel.Proofs.Table.Searched
import DomainModel.Proofs.Rules.Circles
import DomainModel.Proofs.Table.Single
import DomainModel.Proofs.Graph.Derived
import DomainModel.Proofs.Scope.Offers
import DomainModel.Proofs.Scope.Asked
import DomainModel.Proofs.Compile.Circular
import DomainModel.Proofs.Summary.Outline
import DomainModel.Proofs.Text.Indented
import DomainModel.Proofs.Name.Dotted
import DomainModel.Proofs.Name.Ordered
import DomainModel.Proofs.Compile.Steps
import DomainModel.Proofs.Compile.Limited
import DomainModel.Proofs.Compile.Neutral
import DomainModel.Proofs.Name.Beginnings
import DomainModel.Proofs.Tag.Run
import DomainModel.Proofs.Address.Preorder
import DomainModel.Proofs.Source.Visited
import DomainModel.Proofs.Group.Stack
import DomainModel.Proofs.Group.Pass
import DomainModel.Proofs.Table.Passed
import DomainModel.Proofs.Rules.Passed
import DomainModel.Proofs.Graph.Types
