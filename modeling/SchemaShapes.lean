import SchemaShapes.Catalog.Basic
import SchemaShapes.Catalog.Fault
import SchemaShapes.Catalog.Index
import SchemaShapes.Catalog.Node
import SchemaShapes.Catalog.Place
import SchemaShapes.Catalog.Recursion
import SchemaShapes.Catalog.References
import SchemaShapes.Catalog.Views
import SchemaShapes.Command.Basic
import SchemaShapes.Command.Line
import SchemaShapes.File.Path
import SchemaShapes.File.System
import SchemaShapes.Graph.Reach
import SchemaShapes.Graph.Walk
import SchemaShapes.Inference
import SchemaShapes.Keyed
import SchemaShapes.Listing
import SchemaShapes.Main
import SchemaShapes.Manifest
import SchemaShapes.Markup.Component
import SchemaShapes.Markup.Fields
import SchemaShapes.Markup.Vocabulary
import SchemaShapes.Name
import SchemaShapes.Occurs
import SchemaShapes.Proofs.Catalog.Agreement
import SchemaShapes.Proofs.Catalog.Attributes
import SchemaShapes.Proofs.Catalog.Circularity
import SchemaShapes.Proofs.Catalog.Components
import SchemaShapes.Proofs.Catalog.Cycles
import SchemaShapes.Proofs.Catalog.Derivation
import SchemaShapes.Proofs.Catalog.Faults
import SchemaShapes.Proofs.Catalog.Index
import SchemaShapes.Proofs.Catalog.Lookup
import SchemaShapes.Proofs.Catalog.Nodes
import SchemaShapes.Proofs.Catalog.Rearrangement
import SchemaShapes.Proofs.Catalog.Recursion
import SchemaShapes.Proofs.Catalog.References
import SchemaShapes.Proofs.Catalog.SimpleContent
import SchemaShapes.Proofs.Catalog.Simulation
import SchemaShapes.Proofs.Catalog.Views
import SchemaShapes.Proofs.Command.Manifest
import SchemaShapes.Proofs.File.Steps
import SchemaShapes.Proofs.Graph.Reach
import SchemaShapes.Proofs.Graph.Search
import SchemaShapes.Proofs.Graph.Walk
import SchemaShapes.Proofs.Keyed
import SchemaShapes.Proofs.Name
import SchemaShapes.Proofs.Occurs
import SchemaShapes.Proofs.Schema.Adoption
import SchemaShapes.Proofs.Schema.Context
import SchemaShapes.Proofs.Schema.Items
import SchemaShapes.Proofs.Schema.Naming
import SchemaShapes.Proofs.Schema.OwnName
import SchemaShapes.Proofs.Schema.Sources
import SchemaShapes.Proofs.Schema.Written
import SchemaShapes.Proofs.SchemaSet.BreadthFirst
import SchemaShapes.Proofs.SchemaSet.Coherence
import SchemaShapes.Proofs.SchemaSet.Discovery
import SchemaShapes.Proofs.SchemaSet.FirstFailure
import SchemaShapes.Proofs.SchemaSet.Inclusion
import SchemaShapes.Proofs.SchemaSet.Locality
import SchemaShapes.Proofs.SchemaSet.Requests
import SchemaShapes.Proofs.SchemaSet.Rounds
import SchemaShapes.Proofs.Shape.Collection
import SchemaShapes.Proofs.Shape.Occurrence
import SchemaShapes.Proofs.Shape.Outline
import SchemaShapes.Proofs.Shape.Soundness
import SchemaShapes.Proofs.Shape.Total
import SchemaShapes.Proofs.Shape.WellFormed
import SchemaShapes.Proofs.Text.Blank
import SchemaShapes.Proofs.Text.Cut
import SchemaShapes.Proofs.Text.Numeral
import SchemaShapes.Proofs.Traversal
import SchemaShapes.Proofs.Tree.Attributes
import SchemaShapes.Proofs.Tree.Codes
import SchemaShapes.Proofs.Tree.ContentType
import SchemaShapes.Proofs.Tree.Declarations
import SchemaShapes.Proofs.Tree.Elements
import SchemaShapes.Proofs.Tree.Extension
import SchemaShapes.Proofs.Tree.Faithful
import SchemaShapes.Proofs.Tree.Inheritance
import SchemaShapes.Proofs.Tree.Language
import SchemaShapes.Proofs.Tree.Locality
import SchemaShapes.Proofs.Tree.Nesting
import SchemaShapes.Proofs.Tree.Records
import SchemaShapes.Proofs.Tree.Refusal
import SchemaShapes.Proofs.Tree.Selection
import SchemaShapes.Proofs.Tree.Tags
import SchemaShapes.Proofs.Tree.Unfolding
import SchemaShapes.Proofs.Xml.Attribute
import SchemaShapes.Proofs.Xml.Event
import SchemaShapes.Proofs.Xml.Naming
import SchemaShapes.Proofs.Xml.Qualified
import SchemaShapes.Proofs.Xml.Reference
import SchemaShapes.Proofs.Xml.Root
import SchemaShapes.Proofs.Xml.Scope
import SchemaShapes.Proofs.Xml.Tag
import SchemaShapes.Schema.Component
import SchemaShapes.Schema.Context
import SchemaShapes.Schema.Declaration
import SchemaShapes.Schema.Document
import SchemaShapes.Schema.Error
import SchemaShapes.SchemaSet.Basic
import SchemaShapes.SchemaSet.Error
import SchemaShapes.SchemaSet.Loading
import SchemaShapes.SchemaSet.Resolver
import SchemaShapes.Shape
import SchemaShapes.Shape.Outline
import SchemaShapes.Text.Blank
import SchemaShapes.Text.Cut
import SchemaShapes.Text.Digit
import SchemaShapes.Text.Hidden
import SchemaShapes.Text.Numeral
import SchemaShapes.Text.Quoted
import SchemaShapes.Text.Split
import SchemaShapes.Toml.Document
import SchemaShapes.Toml.Lexical
import SchemaShapes.Toml.Quotation
import SchemaShapes.Toml.Scalar
import SchemaShapes.Toml.Table
import SchemaShapes.Tree.Basic
import SchemaShapes.Tree.Conversion
import SchemaShapes.Tree.Error
import SchemaShapes.Tree.Listing
import SchemaShapes.Tree.Selection
import SchemaShapes.TypeCode
import SchemaShapes.Xml.Attribute
import SchemaShapes.Xml.Error
import SchemaShapes.Xml.Event
import SchemaShapes.Xml.Node
import SchemaShapes.Xml.Qualified
import SchemaShapes.Xml.Reference
import SchemaShapes.Xml.Scope
