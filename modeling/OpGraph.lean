import OpGraph.Command
import OpGraph.Constant
import OpGraph.Decoded
import OpGraph.Decoding
import OpGraph.Draft
import OpGraph.Dump
import OpGraph.Dump.Format
import OpGraph.Element
import OpGraph.Fault
import OpGraph.Files
import OpGraph.Graph
import OpGraph.Json.Layout
import OpGraph.Json.Numeral
import OpGraph.Json.ReadError
import OpGraph.Json.Reader
import OpGraph.Json.Record
import OpGraph.Json.Text
import OpGraph.Json.Token
import OpGraph.Json.Tree
import OpGraph.Json.Variant
import OpGraph.Main
import OpGraph.NameMap
import OpGraph.Node
import OpGraph.Number.Binary
import OpGraph.Number.Decimal
import OpGraph.Number.Scaling
import OpGraph.Scalar
import OpGraph.Settings
import OpGraph.Shape
import OpGraph.Text.Printable
import OpGraph.Text.Shown
import OpGraph.TypeNames
import OpGraph.Value
import OpGraph.View
import OpGraph.Proofs.Description
import OpGraph.Proofs.Layers
import OpGraph.Proofs.Outcome
import OpGraph.Proofs.Production
import OpGraph.Proofs.Walk
import OpGraph.Proofs.SingleProducer
import OpGraph.Proofs.Captures
import OpGraph.Proofs.Indexing
import OpGraph.Proofs.Erasure
import OpGraph.Proofs.Scoping
import OpGraph.Proofs.Recognition
import OpGraph.Proofs.Composition
import OpGraph.Proofs.Json.Numerals
import OpGraph.Proofs.Json.Documents
import OpGraph.Proofs.Rounding
import OpGraph.Proofs.Grid
import OpGraph.Proofs.Scaling
import OpGraph.Proofs.Json.Numbers
import OpGraph.Proofs.Json.ReadingBack
import OpGraph.Proofs.DumpText
import OpGraph.Proofs.Json.Guarantees
import OpGraph.Proofs.Resaving
import OpGraph.Proofs.Json.Tolerance
import OpGraph.Proofs.Rearrangement
import OpGraph.Proofs.Descendants
import OpGraph.Proofs.RegionQueries
import OpGraph.Proofs.HiddenBlocks
import OpGraph.Proofs.Exploration
import OpGraph.Proofs.Defects
import OpGraph.Proofs.Offender
import OpGraph.Proofs.Consumption
import OpGraph.Proofs.Reordering
import OpGraph.Proofs.ValueTable
import OpGraph.Proofs.Renaming
import OpGraph.Proofs.Opacity
import OpGraph.Proofs.KnownTypes
import OpGraph.Proofs.Coherence
import OpGraph.Proofs.Constants
import OpGraph.Proofs.Precedence
import OpGraph.Proofs.SettingsText
import OpGraph.Proofs.DecodedText
import OpGraph.Proofs.Drafting
import OpGraph.Proofs.Narrowing
import OpGraph.Proofs.Acceptance
import OpGraph.Proofs.ReadBack
import OpGraph.Proofs.TwiceRounded
import OpGraph.Proofs.Overflow
