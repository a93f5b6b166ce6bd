import Scad.Tree.Archive

/-! Trees from plain data. Fields may come in any order and others beside them are ignored. The
first fault met wins; the kind of a node is looked at before its range, that before its fields in
the order of the data, and its binding last. -/
namespace Scad

/-- Why data is no tree. -/
inductive RestoreFault where
  | missingType
  /-- A kind that no node has. -/
  | unknownType (shown : String)
  | unknownBindingKind (shown : String)
  | missingKey (key : String)
  /-- A record without a kind where a node or a plain value belongs. -/
  | untypedRecord
  /-- A day where a node or a plain value belongs. -/
  | dateValue
  /-- A moment where a node or a plain value belongs. -/
  | momentValue
  /-- A field of a node under a key that is no text. -/
  | nameless
  | missingFields (type : String) (names : List String)
  /-- Data of another shape than its place asks for. -/
  | wrongShape
  /-- A bare value instead of a tree. -/
  | notATree
  deriving DecidableEq

/-- Names as an enumeration in a sentence. -/
def enumerate : List String → String
  | [] => ""
  | [a] => a
  | [a, b] => a ++ " and " ++ b
  | names => ", ".intercalate names.dropLast ++ ", and " ++ names.getLast?.getD ""

/-- The text of a fault, where there is one. -/
def RestoreFault.message? : RestoreFault → Option String
  | missingType => some "Missing '_type' field in node data"
  | unknownType shown => some ("Unknown node type: " ++ shown)
  | unknownBindingKind shown => some ("Unknown binding kind: " ++ shown)
  | missingKey key => some (Text.quoted key)
  | untypedRecord => some "Unsupported type for deserialization: <class 'dict'>"
  | dateValue => some "Unsupported type for deserialization: <class 'datetime.date'>"
  | momentValue => some "Unsupported type for deserialization: <class 'datetime.datetime'>"
  | missingFields type names =>
    some (type ++ ".__init__() missing " ++ toString names.length ++ " required positional argument"
      ++ (if names.length = 1 then ": " else "s: ") ++ enumerate (names.map Text.quoted))
  | nameless => none
  | wrongShape => none
  | notATree => none

/-- A field's value before its slot is looked at. -/
inductive Loose where
  | null
  | node (n : Node)
  | list (items : List Loose)
  | plain (d : Data)

/-- What data restores to. -/
inductive Restored where
  | nothing
  | node (n : Node)
  | nodes (ns : List Node)
  | document (d : Document)

namespace Restore

abbrev Fields := List (Scalar × Data)

def key (fields : Fields) (name : String) : Except RestoreFault Data :=
  match Data.lookup name fields with
  | some d => .ok d
  | none => .error (.missingKey name)

def asRecord : Data → Except RestoreFault Fields
  | .record fields => .ok fields
  | _ => .error .wrongShape

def asInt : Data → Except RestoreFault Int
  | .int n => .ok n
  | _ => .error .wrongShape

def asText : Data → Except RestoreFault String
  | .text s => .ok s
  | _ => .error .wrongShape

def position (d : Data) : Except RestoreFault Position := do
  let fields ← asRecord d
  let offset ← key fields "offset"
  let line ← key fields "line"
  let column ← key fields "column"
  return ⟨← asInt offset, ← asInt line, ← asInt column⟩

def span (d : Data) : Except RestoreFault Span := do
  let fields ← asRecord d
  let origin ← key fields "origin"
  let start ← position (← key fields "start")
  let stop ← position (← key fields "end")
  return ⟨← asText origin, start, stop⟩

def optionalInt : Option Data → Except RestoreFault (Option Int)
  | none | some .null => .ok none
  | some d => do return some (← asInt d)

def optionalText : Option Data → Except RestoreFault (Option String)
  | none | some .null => .ok none
  | some d => do return some (← asText d)

def binding (d : Data) : Except RestoreFault Binding := do
  let fields ← asRecord d
  let shown ← key fields "kind"
  let kind ← match shown with
    | .text s =>
      match BindingKind.ofText? s with
      | some kind => .ok kind
      | none => .error (.unknownBindingKind s)
    | other => .error (.unknownBindingKind other.display)
  return ⟨kind, ← optionalInt (Data.lookup "target" fields),
    ← optionalText (Data.lookup "origin" fields)⟩

/-- The kind that a record names. -/
def kind (fields : Fields) : Except RestoreFault Kind :=
  match Data.lookup "_type" fields with
  | none => .error .missingType
  | some (.text s) =>
    match Kind.ofName? s with
    | some k => .ok k
    | none => .error (.unknownType s)
  | some (.list _) | some (.record _) => .error .wrongShape
  | some d => .error (.unknownType d.display)

/-- What is read of a node before its fields. -/
structure Opening where
  kind : Kind
  span : Span

def opening (fields : Fields) : Except RestoreFault Opening := do
  let kind ← kind fields
  match Data.lookup "_span" fields with
  | none => return ⟨kind, .unknown⟩
  | some d => return ⟨kind, ← span d⟩

/-- Whether a kind has a field of this name. Names with an underscore in front are never fields. -/
def isField (k : Kind) (name : String) : Bool :=
  name.toList.head? ≠ some '_' && k.slots.any (·.1 = name)

def looseNodes : List Loose → Option (List Node)
  | [] => some []
  | .node n :: rest => (looseNodes rest).map (n :: ·)
  | _ => none

def looseTexts : List Loose → Option (List String)
  | [] => some []
  | .plain (.text s) :: rest => (looseTexts rest).map (s :: ·)
  | _ => none

/-- The members of a set field: a list of texts, or a text for its characters. -/
def members : Loose → Except RestoreFault NameSet
  | .list items =>
    match looseTexts items with
    | some names => .ok (.ofList names)
    | none => .error .wrongShape
  | .plain (.text s) => .ok (.ofList (s.toList.map String.singleton))
  | _ => .error .wrongShape

/-- A value in its slot. -/
def fieldOf : Slot → Loose → Option (Field Node)
  | .node, .node n => some (.node n)
  | .optional, .null => some (.optional none)
  | .optional, .node n => some (.optional (some n))
  | .nodes, .list items => (looseNodes items).map .nodes
  | .text, .plain (.text s) => some (.text s)
  | .texts, .list items => (looseTexts items).map .texts
  | .names, v => (members v).toOption.map .names
  | .number, .plain (.int n) => some (.number (.int n))
  | .number, .plain (.real x) => some (.number (.real x))
  | .flag, .plain (.bool b) => some (.flag b)
  | _, _ => none

/-- Puts a node together from its parts. -/
def close (o : Opening) (fields : Fields) (values : List (String × Loose)) :
    Except RestoreFault Node := do
  let find (name : String) : Option Loose := (values.find? (·.1 = name)).map (·.2)
  let absent := o.kind.slots.filterMap fun (name, _) =>
    if (find name).isNone then some name else none
  if absent ≠ [] then .error (.missingFields o.kind.name absent)
  let bound ← match Data.lookup "_binding" fields with
    | none => pure none
    | some d => some <$> binding d
  let id ← match Data.lookup "_id" fields with
    | none => pure (-1)
    | some d => asInt d
  let parts := o.kind.slots.mapM fun (name, slot) => (find name).bind (fieldOf slot)
  match parts.bind (Form.ofFields? o.kind) with
  | some form => return ⟨⟨id, o.span, bound⟩, form⟩
  | none => .error .wrongShape

mutual
/-- A field's value: a record in it has to be a node. -/
def value : Data → Except RestoreFault Loose
  | .null => .ok .null
  | .list items => do
    let items ← valueList items
    return .list items
  | .record fields =>
    if (Data.lookup "_type" fields).isSome then do
      let o ← opening fields
      let values ← fieldValues o.kind fields
      let n ← close o fields values
      return .node n
    else .error .untypedRecord
  | .scalar (.date _) => .error .dateValue
  | .scalar (.moment _) => .error .momentValue
  | .scalar s => .ok (.plain (.scalar s))

def valueList : List Data → Except RestoreFault (List Loose)
  | [] => .ok []
  | d :: rest => do
    let v ← value d
    let vs ← valueList rest
    return v :: vs

/-- The values of a node's fields, in the order of the data. -/
def fieldValues (k : Kind) : List (Scalar × Data) → Except RestoreFault (List (String × Loose))
  | [] => .ok []
  | (.text name, d) :: rest =>
    if isField k name then do
      let v ← value d
      if name = "modifiers" then
        let _ ← members v
      let vs ← fieldValues k rest
      return (name, v) :: vs
    else fieldValues k rest
  | _ => .error .nameless
end

/-- Whether a run of characters occurs in a text. -/
def holdsRun (run : List Char) : List Char → Bool
  | [] => run.isEmpty
  | c :: cs => run.isPrefixOf (c :: cs) || holdsRun run cs

/-- A node where nothing else may stand. Of lists and texts only those that hold the key of the kind
get past the first look. -/
def node : Data → Except RestoreFault Node
  | .record fields => do
    let o ← opening fields
    let values ← fieldValues o.kind fields
    close o fields values
  | .list items =>
    let holdsKey := items.any fun d =>
      match d with
      | .text s => s = "_type"
      | _ => false
    .error (if holdsKey then .wrongShape else .missingType)
  | .text s =>
    .error (if holdsRun "_type".toList s.toList then .wrongShape else .missingType)
  | _ => .error .wrongShape

/-- What stands in the place of a document's statements, one by one. -/
def statementData : Option Data → Except RestoreFault (List Data)
  | none => .ok []
  | some (.list items) => .ok items
  | some (.record fields) => .ok (fields.map fun (k, _) => .scalar k)
  | some (.text s) => .ok (s.toList.map fun c => .text (String.singleton c))
  | some _ => .error .wrongShape

def document (fields : Fields) : Except RestoreFault Document := do
  let items ← statementData (Data.lookup "statements" fields)
  let statements ← items.mapM node
  let origin ← key fields "origin"
  let numbered := Node.numberAll statements
  return ⟨← asText origin, numbered, .ofNodes (Node.walkFrom numbered), [], [], []⟩

end Restore

/-- Reads data as a document, a node or a list of nodes. -/
def restore : Data → Except RestoreFault Restored
  | .null => .ok .nothing
  | .list items => return .nodes (← items.mapM Restore.node)
  | .record fields =>
    match Data.lookup "_type" fields with
    | some (.text "Document") => return .document (← Restore.document fields)
    | _ => return .node (← Restore.node (.record fields))
  | _ => .error .notATree

end Scad
