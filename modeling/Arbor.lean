import Arbor.Session
import Arbor.Recipe.Document
import Arbor.Proofs.Lindenmayer.Generations
import Arbor.Proofs.Lindenmayer.Brackets
import Arbor.Proofs.Lindenmayer.LivePath
import Arbor.Proofs.Number.Rounding
import Arbor.Proofs.Number.Unpacked
import Arbor.Proofs.Number.Packing
import Arbor.Proofs.Number.Arithmetic
import Arbor.Proofs.Number.Range
import Arbor.Proofs.Number.Conversion
import Arbor.Proofs.Number.Circular
import Arbor.Proofs.Number.ArcCosine
import Arbor.Proofs.Number.Unbounded
import Arbor.Proofs.Chance.Draws
import Arbor.Proofs.Space.Magnitude
import Arbor.Proofs.Space.Rotation
import Arbor.Proofs.Text.Json
import Arbor.Proofs.Text.Escape
import Arbor.Proofs.Decimal.Numerals
import Arbor.Proofs.Turtle.Steps
import Arbor.Proofs.Turtle.Record
import Arbor.Proofs.Turtle.Admissible
import Arbor.Proofs.Turtle.Sources
import Arbor.Proofs.Turtle.Posture
import Arbor.Proofs.Turtle.Extent
import Arbor.Proofs.Shape.Merging
import Arbor.Proofs.Turtle.Skeleton
import Arbor.Proofs.Turtle.Form
import Arbor.Proofs.Shape.Drawing
import Arbor.Proofs.Shape.Twists
import Arbor.Proofs.Shape.Extent
import Arbor.Proofs.Tree.Growth
import Arbor.Proofs.Tree.Safety
import Arbor.Proofs.Tree.Extent
import Arbor.Proofs.Session.Operations
import Arbor.Proofs.Session.Buffers
import Arbor.Proofs.Session.Summary
import Arbor.Proofs.Session.History
import Arbor.Proofs.Lindenmayer.Balance
import Arbor.Proofs.Tree.Balance
import Arbor.Proofs.Session.Calls
import Arbor.Proofs.Session.Meshes
import Arbor.Proofs.Lindenmayer.Nesting
import Arbor.Proofs.Shape.Spans
import Arbor.Proofs.Tree.Curves
import Arbor.Proofs.Recipe.Keys
import Arbor.Proofs.Number.Accuracy
import Arbor.Proofs.Number.Trigonometry
import Arbor.Proofs.Space.Direction
import Arbor.Proofs.Shape.Rings
import Arbor.Proofs.Shape.Grid
import Arbor.Proofs.Shape.Winding
import Arbor.Proofs.Decimal.Nearest
import Arbor.Proofs.Decimal.Shortest
import Arbor.Proofs.Decimal.Spelling
import Arbor.Proofs.Decimal.Survival
import Arbor.Proofs.Document.Gaps
import Arbor.Proofs.Document.Plain
import Arbor.Proofs.Document.Quoted
import Arbor.Proofs.Document.Escapes
import Arbor.Proofs.Document.Blocks
import Arbor.Proofs.Document.Lines
import Arbor.Proofs.Document.Fields
import Arbor.Proofs.Document.Nodes
import Arbor.Proofs.Document.Values
import Arbor.Proofs.Recipe.Survival
import Arbor.Proofs.Turtle.Causality
import Arbor.Proofs.Turtle.Ranges
import Arbor.Proofs.Turtle.Excursions
import Arbor.Proofs.Shape.Grouping
import Arbor.Proofs.Lindenmayer.RuleText
import Arbor.Proofs.Lindenmayer.RuleOrder
import Arbor.Proofs.Lindenmayer.Composition
import Arbor.Proofs.Lindenmayer.Growth
import Arbor.Proofs.Lindenmayer.Height
import Arbor.Proofs.Lindenmayer.Legible
import Arbor.Proofs.Session.Depths
import Arbor.Proofs.Recipe.Presets
import Arbor.Proofs.Tree.Variants
import Arbor.Proofs.Shape.Leaves
import Arbor.Proofs.Shape.Seams
import Arbor.Proofs.Shape.Building
import Arbor.Proofs.Turtle.Tropism
import Arbor.Proofs.Turtle.Taper
import Arbor.Proofs.Recipe.Lookup
import Arbor.Proofs.Shape.Sampling
import Arbor.Proofs.Space.Short
import Arbor.Proofs.Shape.Normals
import Arbor.Proofs.Text.Unescape
import Arbor.Proofs.Number.Signless
import Arbor.Proofs.Space.Reversal
import Arbor.Proofs.Space.Placement
import Arbor.Proofs.Session.Placements
import Arbor.Proofs.Session.Failures
import Arbor.Proofs.Number.Order
import Arbor.Proofs.Shape.Bounds
