import TypeAtlas.Atlas
import TypeAtlas.Compound.Basic
import TypeAtlas.Compound.Cache
import TypeAtlas.Compound.Kind
import TypeAtlas.Compound.Managed
import TypeAtlas.Compound.Namespaces
import TypeAtlas.Compound.Native
import TypeAtlas.Declaration.Annotation
import TypeAtlas.Declaration.Arguments
import TypeAtlas.Declaration.Descriptor
import TypeAtlas.Declaration.Grammar
import TypeAtlas.Declaration.Keyword
import TypeAtlas.Declaration.Parser
import TypeAtlas.Declaration.Spacing
import TypeAtlas.Diagnostic
import TypeAtlas.Documentation
import TypeAtlas.Error
import TypeAtlas.Graph.Basic
import TypeAtlas.Graph.Node
import TypeAtlas.Graph.Query
import TypeAtlas.Json.Basic
import TypeAtlas.Json.Fields
import TypeAtlas.Json.Parser
import TypeAtlas.Json.Printer
import TypeAtlas.Json.Token
import TypeAtlas.Name
import TypeAtlas.Projection.Basic
import TypeAtlas.Projection.Compose
import TypeAtlas.Projection.Merger
import TypeAtlas.Proofs.Atlas.Accounting
import TypeAtlas.Proofs.Atlas.Build
import TypeAtlas.Proofs.Atlas.Defined
import TypeAtlas.Proofs.Atlas.Malformed
import TypeAtlas.Proofs.Compound.Attaching
import TypeAtlas.Proofs.Compound.Canonical
import TypeAtlas.Proofs.Compound.Division
import TypeAtlas.Proofs.Compound.Enclosure
import TypeAtlas.Proofs.Compound.Forest
import TypeAtlas.Proofs.Compound.Identifiers
import TypeAtlas.Proofs.Compound.Keeping
import TypeAtlas.Proofs.Compound.Reading
import TypeAtlas.Proofs.Compound.Recognition
import TypeAtlas.Proofs.Compound.Tables
import TypeAtlas.Proofs.Declaration.Annotated
import TypeAtlas.Proofs.Declaration.Arguments
import TypeAtlas.Proofs.Declaration.Bare
import TypeAtlas.Proofs.Declaration.Decorated
import TypeAtlas.Proofs.Declaration.Display
import TypeAtlas.Proofs.Declaration.Grammar
import TypeAtlas.Proofs.Declaration.Identifiers
import TypeAtlas.Proofs.Declaration.Layout
import TypeAtlas.Proofs.Declaration.Nested
import TypeAtlas.Proofs.Declaration.Rounds
import TypeAtlas.Proofs.Declaration.Settled
import TypeAtlas.Proofs.Declaration.Spacing
import TypeAtlas.Proofs.Declaration.Stripping
import TypeAtlas.Proofs.Declaration.Table
import TypeAtlas.Proofs.Declaration.Understood
import TypeAtlas.Proofs.Declaration.WellFormed
import TypeAtlas.Proofs.Declaration.Words
import TypeAtlas.Proofs.Documentation.Folding
import TypeAtlas.Proofs.Graph.Preorder
import TypeAtlas.Proofs.Graph.Rooted
import TypeAtlas.Proofs.Graph.Traversal
import TypeAtlas.Proofs.Json.Readback
import TypeAtlas.Proofs.Json.Strings
import TypeAtlas.Proofs.Loop
import TypeAtlas.Proofs.Name.Canonical
import TypeAtlas.Proofs.Name.Scopes
import TypeAtlas.Proofs.Projection.Agreement
import TypeAtlas.Proofs.Projection.Coverage
import TypeAtlas.Proofs.Projection.Expansion
import TypeAtlas.Proofs.Projection.Fields
import TypeAtlas.Proofs.Projection.Filling
import TypeAtlas.Proofs.Projection.Labels
import TypeAtlas.Proofs.Projection.Locality
import TypeAtlas.Proofs.Projection.Nesting
import TypeAtlas.Proofs.Projection.Overloads
import TypeAtlas.Proofs.Projection.Pairing
import TypeAtlas.Proofs.Projection.Placing
import TypeAtlas.Proofs.Projection.Planting
import TypeAtlas.Proofs.Projection.Repetition
import TypeAtlas.Proofs.Projection.Session
import TypeAtlas.Proofs.Projection.Steps
import TypeAtlas.Proofs.Projection.Stores
import TypeAtlas.Proofs.Projection.Tree
import TypeAtlas.Proofs.Projection.Uprooting
import TypeAtlas.Proofs.Registry.Arena
import TypeAtlas.Proofs.Registry.Binding
import TypeAtlas.Proofs.Registry.Builtin
import TypeAtlas.Proofs.Registry.Consistency
import TypeAtlas.Proofs.Registry.Corpus
import TypeAtlas.Proofs.Registry.Decoration
import TypeAtlas.Proofs.Registry.Depiction
import TypeAtlas.Proofs.Registry.Gathering
import TypeAtlas.Proofs.Registry.Grounding
import TypeAtlas.Proofs.Registry.Growth
import TypeAtlas.Proofs.Registry.Hosting
import TypeAtlas.Proofs.Registry.Interning
import TypeAtlas.Proofs.Registry.Isolation
import TypeAtlas.Proofs.Registry.Linking
import TypeAtlas.Proofs.Registry.Listing
import TypeAtlas.Proofs.Registry.Naming
import TypeAtlas.Proofs.Registry.Order
import TypeAtlas.Proofs.Registry.Referring
import TypeAtlas.Proofs.Registry.Refinement
import TypeAtlas.Proofs.Registry.Resolution
import TypeAtlas.Proofs.Registry.Retrieval
import TypeAtlas.Proofs.Registry.Seeking
import TypeAtlas.Proofs.Registry.Settling
import TypeAtlas.Proofs.Registry.Shadowing
import TypeAtlas.Proofs.Registry.Tracing
import TypeAtlas.Proofs.Registry.Tree
import TypeAtlas.Proofs.Registry.Upgrade
import TypeAtlas.Proofs.Settings.File
import TypeAtlas.Proofs.Settings.Inverse
import TypeAtlas.Proofs.Settings.Json
import TypeAtlas.Proofs.Settings.Yaml
import TypeAtlas.Proofs.Text.ByteOrder
import TypeAtlas.Proofs.Text.Occurrences
import TypeAtlas.Proofs.Yaml.Block
import TypeAtlas.Proofs.Yaml.Lexeme
import TypeAtlas.Proofs.Yaml.Lines
import TypeAtlas.Proofs.Yaml.Printable
import TypeAtlas.Proofs.Yaml.Readback
import TypeAtlas.Proofs.Yaml.Scalar
import TypeAtlas.Record
import TypeAtlas.Registry.Basic
import TypeAtlas.Registry.Binding
import TypeAtlas.Registry.Primitive
import TypeAtlas.Registry.Resolve
import TypeAtlas.Settings.Basic
import TypeAtlas.Settings.File
import TypeAtlas.Settings.Json
import TypeAtlas.Settings.Library
import TypeAtlas.Settings.Preset
import TypeAtlas.Settings.Yaml
import TypeAtlas.Text.Blank
import TypeAtlas.Text.Decimal
import TypeAtlas.Text.Hex
import TypeAtlas.Text.Lowercase
import TypeAtlas.Text.Percent
import TypeAtlas.Text.Search
import TypeAtlas.Text.WordChar
import TypeAtlas.Wire.Compound
import TypeAtlas.Wire.Declaration
import TypeAtlas.Wire.Diagnostic
import TypeAtlas.Wire.Documentation
import TypeAtlas.Wire.Graph
import TypeAtlas.Wire.Projection
import TypeAtlas.Wire.Record
import TypeAtlas.Yaml.Basic
import TypeAtlas.Yaml.Block
import TypeAtlas.Yaml.Character
import TypeAtlas.Yaml.Fields
import TypeAtlas.Yaml.Layout
import TypeAtlas.Yaml.Line
import TypeAtlas.Yaml.Parser
import TypeAtlas.Yaml.Printer
import TypeAtlas.Yaml.Reference
import TypeAtlas.Yaml.Scalar
import TypeAtlas.Yaml.Token
import TypeAtlas.Yaml.Word
