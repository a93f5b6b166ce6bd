import Scad.Analysis
import Scad.Builtins
import Scad.Data.Calendar
import Scad.Data.JsonReader
import Scad.Data.JsonWriter
import Scad.Data.Value
import Scad.Data.YamlNode
import Scad.Data.YamlReader
import Scad.Data.YamlScalar
import Scad.Data.YamlWriter
import Scad.Diagnostic
import Scad.Library.FileTable
import Scad.Library.Load
import Scad.Library.Path
import Scad.Library.SearchPath
import Scad.NameSet
import Scad.Number.Binary64
import Scad.Number.Layout
import Scad.Number.Numeral
import Scad.Number.Shortest
import Scad.Parse.Expression
import Scad.Parse.State
import Scad.Parse.Statement
import Scad.Resolve
import Scad.Scope
import Scad.Span
import Scad.Text.DecimalDigit
import Scad.Text.Pieces
import Scad.Text.Printable
import Scad.Text.Quoted
import Scad.Text.Utf8
import Scad.Token
import Scad.Token.Lexeme
import Scad.Token.Stream
import Scad.Tree.Archive
import Scad.Tree.Arena
import Scad.Tree.Binding
import Scad.Tree.Document
import Scad.Tree.Equality
import Scad.Tree.Form
import Scad.Tree.Node
import Scad.Tree.Render
import Scad.Tree.Restore
import Scad.Proofs.Grammar
import Scad.Proofs.Parse.Reading
import Scad.Proofs.Grammar.Progress
import Scad.Proofs.Parse.Soundness.Expression
import Scad.Proofs.Parse.Soundness.Statement
import Scad.Proofs.Grammar.Heads
import Scad.Proofs.Parse.Running
import Scad.Proofs.Tree.Bare
import Scad.Proofs.Parse.Completeness.Expression
import Scad.Proofs.Parse.Acceptance
import Scad.Proofs.Number.Reading
import Scad.Proofs.Number.Literal
import Scad.Proofs.Number.Rounding
import Scad.Proofs.Render.Expression
import Scad.Proofs.Render.Rereading.Expression
import Scad.Proofs.Render.Rereading.Statement
import Scad.Proofs.Render.RoundTrip
import Scad.Proofs.Parse.Building
import Scad.Proofs.Parse.Building.Expression
import Scad.Proofs.Parse.Building.Statement
import Scad.Proofs.Parse.Advancing
import Scad.Proofs.Parse.Progress
import Scad.Proofs.Parse.Recovery
import Scad.Proofs.Parse.WellFormed
import Scad.Proofs.Tree.Order
import Scad.Proofs.Parse.Arena
import Scad.Proofs.Resolve.Targets
import Scad.Proofs.Resolve.Restored
import Scad.Proofs.Library.Order
import Scad.Proofs.Library.Edit
import Scad.Proofs.Resolve.Parts
import Scad.Proofs.Resolve.Scratch
import Scad.Proofs.Resolve.Renamed
import Scad.Proofs.Library.Complete
import Scad.Proofs.Token.Partition
import Scad.Proofs.Tree.Numbered
import Scad.Proofs.Parse.Lockstep
import Scad.Proofs.Parse.Lockstep.Expression
import Scad.Proofs.Parse.Lockstep.Statement
import Scad.Proofs.Parse.Spacing
import Scad.Proofs.Token.Position
import Scad.Proofs.Resolve.Places
import Scad.Proofs.Token.Join
import Scad.Proofs.Grammar.Context
import Scad.Proofs.Tree.Shifted
import Scad.Proofs.Parse.Concatenation
import Scad.Proofs.Parse.Reported
import Scad.Proofs.Parse.Total
import Scad.Proofs.Resolve.Accounted
import Scad.Proofs.Json.Archived
import Scad.Proofs.Tree.Extent
import Scad.Proofs.Tree.WalkOrder
import Scad.Proofs.Parse.Extent
import Scad.Proofs.Parse.Nesting
import Scad.Proofs.Grammar.Excerpt
import Scad.Proofs.Token.Excerpt
import Scad.Proofs.Parse.Excerpt
import Scad.Proofs.Resolve.Gaps
import Scad.Proofs.Tree.Arena
import Scad.Proofs.Render.Passage
import Scad.Proofs.Render.Total
import Scad.Proofs.Render.Roots
import Scad.Proofs.Render.Written
import Scad.Proofs.Render.Intact
import Scad.Proofs.Render.Postfix
import Scad.Proofs.Tree.Same
import Scad.Proofs.Render.Elses
import Scad.Proofs.Parse.Height
import Scad.Proofs.Token.Line
import Scad.Proofs.Token.Munch
import Scad.Proofs.Library.Kept
import Scad.Proofs.Token.Quote
import Scad.Proofs.Tree.Visit
