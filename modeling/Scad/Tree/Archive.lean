import Scad.Data.Value
import Scad.Tree.Document

/-! Trees as plain data. A node is a record with its kind, its id, on request its range, its binding
if it has one, and its fields under their names. -/
namespace Scad

namespace Archive

def ofPosition (p : Position) : Data :=
  .named [("offset", .int p.offset), ("line", .int p.line), ("column", .int p.column)]

def ofSpan (s : Span) : Data :=
  .named [("origin", .text s.origin), ("start", ofPosition s.start), ("end", ofPosition s.stop)]

def ofBinding (b : Binding) : Data :=
  .named [("kind", .text b.kind.text), ("target", (b.target.map Data.int).getD .null),
    ("origin", (b.origin.map Data.text).getD .null)]

def ofField : Field Data → Data
  | .node d => d
  | .optional d => d.getD .null
  | .nodes ds => .list ds
  | .text s => .text s
  | .texts ss => .list (ss.map Data.text)
  | .names set => .list (set.names.map Data.text)
  | .number n => Data.ofNumber n
  | .flag b => .bool b

/-- The fields that every record of a node starts with. -/
def header (positions : Bool) (kind : Kind) (info : Info) : List (String × Data) :=
  [("_type", .text kind.name), ("_id", .int info.id)]
    ++ (if positions then [("_span", ofSpan info.span)] else [])
    ++ (info.binding.map fun b => ("_binding", ofBinding b)).toList

def ofNode (positions : Bool) (n : Node) : Data :=
  n.fold fun m below =>
    .named (header positions m.kind m.info
      ++ (m.kind.slots.map (·.1)).zip (below.fields.map ofField))

def ofDocument (positions : Bool) (d : Document) : Data :=
  .named [("_type", .text "Document"), ("origin", .text d.origin),
    ("statements", .list (d.statements.map (ofNode positions)))]

end Archive

end Scad
