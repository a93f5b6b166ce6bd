import Scad.Data.YamlScalar

/-! The nodes of a document as they are written, and the data that they stand for. Records are
merged when they are put together. Of the faults in words, the one nearest to the top counts, and of
those at one depth the first. -/
namespace Scad.Yaml

inductive Node where
  | word (chars : List Char) (isQuoted : Bool)
  | list (items : List Node)
  /-- `sound` tells that everything to be merged was a record. -/
  | record (fields : List (Node × Node)) (sound : Bool)

namespace Node

/-- The node that stands where nothing is written. -/
def empty : Node := .word [] false

def isMerge : Node → Bool
  | .word cs false => reading cs = .merge
  | _ => false

def soundFields? : Node → Option (List (Node × Node))
  | .record fields true => some fields
  | _ => none

/-- The fields that a node brings into the record that merges it. Of several records the last comes
first. -/
def mergedFields? : Node → Option (List (Node × Node))
  | .list items => (items.mapM soundFields?).map fun found => found.reverse.flatten
  | n => n.soundFields?

/-- A record from its fields as they are written. What is merged comes before its own fields. -/
def ofFields (fields : List (Node × Node)) : Node :=
  let own := fields.filter fun (key, _) => !key.isMerge
  match (fields.filter (·.1.isMerge)).mapM (·.2.mergedFields?) with
  | some merged => .record (merged.flatten ++ own) true
  | none => .record own false

end Node

/-- The first fault at each depth. -/
abbrev Faults := List (Option Fault)

namespace Faults

/-- At each depth the left side comes first. -/
def before : Faults → Faults → Faults
  | [], ys => ys
  | xs, [] => xs
  | x :: xs, y :: ys => (x <|> y) :: before xs ys

def first? (fs : Faults) : Option Fault := fs.findSome? id

end Faults

/-- A word as a value. The marks for merging and for a stand-in are none. -/
def wordValue (cs : List Char) (isQuoted : Bool) : Except Fault Scalar :=
  if isQuoted then .ok (.text (String.ofList cs))
  else
    match reading cs with
    | .value s => .ok s
    | .faulty f => .error f
    | .merge | .standIn => .error .malformed
    | .text => .ok (.text (String.ofList cs))

/-- A key has to be a word; the mark for a stand-in is one like others. -/
def keyValue : Node → Except Fault Scalar
  | .word ['='] _ => .ok (.text "=")
  | .word cs isQuoted => wordValue cs isQuoted
  | _ => .error .malformed

def faultsOf : Except Fault Scalar → Faults
  | .ok _ => []
  | .error f => [some f]

namespace Node

mutual
/-- The data of a node and the faults in it; where there is a fault the data does not count. -/
def build : Node → Data × Faults
  | .word cs isQuoted =>
    let value := wordValue cs isQuoted
    (.scalar (value.toOption.getD .null), faultsOf value)
  | .list items =>
    let (ds, faults) := buildItems items
    (.list ds, none :: faults)
  | .record fields sound =>
    let (found, faults) := buildFields fields
    let unsound : Faults := if sound then [] else [some .malformed]
    (.ofFields found, none :: unsound.before faults)

def buildItems : List Node → List Data × Faults
  | [] => ([], [])
  | n :: rest =>
    let (d, faults) := n.build
    let (ds, more) := buildItems rest
    (d :: ds, faults.before more)

def buildFields : List (Node × Node) → List (Scalar × Data) × Faults
  | [] => ([], [])
  | (key, n) :: rest =>
    let name := keyValue key
    let (d, faults) := n.build
    let (found, more) := buildFields rest
    ((name.toOption.getD .null, d) :: found, ((faultsOf name).before faults).before more)
end

/-- The data that a node stands for. -/
def data (n : Node) : Except Fault Data :=
  let (d, faults) := n.build
  match faults.first? with
  | some f => .error f
  | none => .ok d

end Node

end Scad.Yaml
